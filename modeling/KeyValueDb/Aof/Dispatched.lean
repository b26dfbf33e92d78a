/-
# What reaches the dispatch

`load_into_store` catches whatever the dispatch of a record throws and goes on with the next
line.  `loadLoopWith` is its loop with the dispatch as a parameter: any state, any effect
(what a dispatch that throws has already done stays done), and the token vectors that reached
it are written down.  `load_into_store` is that loop at the store's own dispatch
(`loadIntoStore_eq_loadWith`).

Reading never looks at the state, so what reaches the dispatch is what is read, and for a file
made by `append` that is what was appended (`dispatched_of_appends`).
-/
import KeyValueDb.Aof.Rewrite

namespace KeyValueDb

open Lib

/-! ## 1. The loop with its dispatch as a parameter -/

/-- The effect of the `i`-th dispatch: the state it leaves, and whether it came to its end
rather than throw. -/
abbrev Dispatcher (σ : Type) := Nat → List Bytes → σ → σ × Bool

/-- Where the loop is: the vectors that reached the dispatch, `replayed`, and the state. -/
structure Load (σ : Type) where
  dispatched : List (List Bytes)
  replayed : Nat
  state : σ

variable {σ : Type}

def Load.start (s : σ) : Load σ := ⟨[], 0, s⟩

/-- One dispatch; `++replayed` is not reached when it throws. -/
def Load.dispatch (disp : Dispatcher σ) (load : Load σ) (tokens : List Bytes) : Load σ :=
  let r := disp load.dispatched.length tokens load.state
  ⟨load.dispatched ++ [tokens], if r.2 then load.replayed + 1 else load.replayed, r.1⟩

/-- The loop of `load_into_store`. -/
def loadLoopWith (lim : Limits) (disp : Dispatcher σ) : Nat → IStream → Load σ →
    Option (Load σ)
  | 0, _, load => some load
  | fuel + 1, st, load =>
    match st.getline with
    | (none, _) => some load
    | (some line, st) =>
      match readRecord lim line st with
      | (none, st) => loadLoopWith lim disp fuel st load
      | (some [], _) => none
      | (some tokens, st) => loadLoopWith lim disp fuel st (load.dispatch disp tokens)

/-- A load of the file, with the vectors that reached the dispatch. -/
def AofManager.loadWith (lim : Limits) (disp : Dispatcher σ) (aof : AofManager) (s : σ) :
    Option (Load σ) :=
  if aof.enabled = false then some (.start s)
  else match aof.disk.log with
    | none => some (.start s)
    | some file => loadLoopWith lim disp (file.length + 1) ⟨file, true⟩ (.start s)

/-- The dispatch of `load_into_store`. -/
def storeDispatch (hash : Bytes → Nat) (clock : Nat → Time) : Dispatcher KeyValueStore :=
  fun i tokens store =>
    match dispatch hash (clock i) tokens store with
    | none => (store, false)
    | some store => (store, true)

/-- **The loop hands over what it reads**, whatever becomes of it. -/
theorem loadLoopWith_eq (lim : Limits) (disp : Dispatcher σ) (fuel : Nat) (st : IStream)
    (load : Load σ) :
    loadLoopWith lim disp fuel st load =
      (readLog lim fuel st).map fun records => records.foldl (Load.dispatch disp) load := by
  induction fuel generalizing st load with
  | zero => rfl
  | succ fuel ih =>
    rw [loadLoopWith, readLog]
    rcases st.getline with ⟨_ | line, st'⟩
    · rfl
    · dsimp only
      rcases readRecord lim line st' with ⟨_ | _ | ⟨t, ts⟩, st''⟩
      · exact ih st'' load
      · rfl
      · dsimp only
        rw [ih, Option.map_map]
        rfl

theorem dispatched_foldl (disp : Dispatcher σ) (records : List (List Bytes)) (load : Load σ) :
    (records.foldl (Load.dispatch disp) load).dispatched = load.dispatched ++ records := by
  induction records generalizing load with
  | nil => simp
  | cons r rs ih => rw [List.foldl_cons, ih]; simp [Load.dispatch]

/-- The dispatches of `load_into_store` are those of `replay`. -/
theorem foldl_storeDispatch (hash : Bytes → Nat) (clock : Nat → Time)
    (records : List (List Bytes)) (load : Load KeyValueStore) :
    (((records.foldl (Load.dispatch (storeDispatch hash clock)) load).replayed,
        (records.foldl (Load.dispatch (storeDispatch hash clock)) load).state) :
          Nat × KeyValueStore) =
      replay hash clock load.dispatched.length records (load.replayed, load.state) := by
  induction records generalizing load with
  | nil => rfl
  | cons r rs ih =>
    have hlen : (load.dispatch (storeDispatch hash clock) r).dispatched.length =
        load.dispatched.length + 1 := by simp [Load.dispatch]
    have hrecord : (((load.dispatch (storeDispatch hash clock) r).replayed,
        (load.dispatch (storeDispatch hash clock) r).state) : Nat × KeyValueStore) =
          replayRecord hash (clock load.dispatched.length) r (load.replayed, load.state) := by
      rcases Option.eq_none_or_eq_some (dispatch hash (clock load.dispatched.length) r
        load.state) with hd | ⟨store, hd⟩
      · simp [Load.dispatch, storeDispatch, replayRecord, hd]
      · simp [Load.dispatch, storeDispatch, replayRecord, hd]
    rw [List.foldl_cons, ih, hlen, hrecord, replay]

/-- **`load_into_store` is the loop at the dispatch of the store.** -/
theorem loadIntoStore_eq_loadWith (lim : Limits) (hash : Bytes → Nat) (clock : Nat → Time)
    (aof : AofManager) (store : KeyValueStore) :
    aof.loadIntoStore lim hash clock store =
      (aof.loadWith lim (storeDispatch hash clock) store).map fun load =>
        (load.replayed, load.state) := by
  unfold AofManager.loadIntoStore AofManager.loadWith
  split
  · rfl
  · cases aof.disk.log with
    | none => rfl
    | some file =>
      simp only [loadLoop_eq, loadLoopWith_eq, Option.map_map]
      congr 1
      funext records
      exact (foldl_storeDispatch hash clock records (.start store)).symm

/-- The vectors that reach the dispatch are those read from the file. -/
theorem loadWith_eq (lim : Limits) (disp : Dispatcher σ) {aof : AofManager} {file : Bytes}
    (hen : aof.enabled = true) (hlog : aof.disk.log = some file) (s : σ) :
    aof.loadWith lim disp s =
      (readLog lim (file.length + 1) ⟨file, true⟩).map fun records =>
        records.foldl (Load.dispatch disp) (.start s) := by
  simp [AofManager.loadWith, hen, hlog, loadLoopWith_eq]

/-! ## 2. Opening and appending -/

/-- The constructor: an enabled manager opens its file for appending, which creates it where
there is none and leaves it as it is where there is one. -/
def AofManager.construct (enabled opens : Bool) (disk : Disk) : AofManager :=
  if enabled then ⟨true, opens, if opens then disk.create else disk⟩ else ⟨false, false, disk⟩

/-- The appends of a list of vectors, in order. -/
def AofManager.appends (records : List (List Bytes)) (aof : AofManager) : AofManager :=
  records.foldl (fun aof tokens => aof.append tokens) aof

/-- **Appending writes the encoding behind what is there.** -/
theorem appends_eq {records : List (List Bytes)} (hne : ∀ r ∈ records, r ≠ [])
    (file : Bytes) (tmp : Option Bytes) :
    (AofManager.construct true true ⟨some file, tmp⟩).appends records =
      AofManager.construct true true ⟨some (file ++ encodeLog records), tmp⟩ := by
  induction records generalizing file with
  | nil => simp [AofManager.appends, encodeLog]
  | cons r rs ih =>
    have hone : (AofManager.construct true true ⟨some file, tmp⟩).append r =
        AofManager.construct true true ⟨some (file ++ encodeRecord r), tmp⟩ := by
      simp [AofManager.append, AofManager.construct, Disk.create, Disk.extend,
        hne r List.mem_cons_self]
    have hrest := ih (fun r' hr => hne r' (List.mem_cons_of_mem _ hr)) (file ++ encodeRecord r)
    simp only [AofManager.appends, List.foldl_cons, hone] at hrest ⊢
    rw [hrest, encodeLog, encodeLog, List.flatMap_cons, List.append_assoc]

/-- A manager on a file: what reaches the dispatch after some appends. -/
theorem loadWith_appends (lim : Limits) (disp : Dispatcher σ) (s : σ)
    {records : List (List Bytes)} (hne : ∀ r ∈ records, r ≠ []) (file : Bytes)
    (tmp : Option Bytes) :
    ((AofManager.construct true true ⟨some file, tmp⟩).appends records).loadWith lim disp s =
      (readLog lim ((file ++ encodeLog records).length + 1)
        ⟨file ++ encodeLog records, true⟩).map fun read =>
          read.foldl (Load.dispatch disp) (.start s) := by
  rw [appends_eq hne]
  exact loadWith_eq lim disp rfl rfl s

/-! ## 3. The round trip -/

/-- **Framing round trip.**  Append any token vectors to a log without records, load it: what
reaches the dispatch is those vectors, in order, whatever each dispatch does to the state and
whether or not it throws. -/
theorem dispatched_of_appends (lim : Limits) (disp : Dispatcher σ) (s : σ) (disk : Disk)
    (hlog : disk.log.getD [] = []) (records : List (List Bytes)) (hne : ∀ r ∈ records, r ≠ [])
    (h : ∀ r ∈ records, lim.Holds r) :
    ∃ load, ((AofManager.construct true true disk).appends records).loadWith lim disp s =
        some load ∧ load.dispatched = records := by
  have hdisk : AofManager.construct true true disk =
      AofManager.construct true true ⟨some [], disk.tmp⟩ := by
    simp [AofManager.construct, Disk.create, hlog]
  rw [hdisk, loadWith_appends lim disp s hne, List.nil_append, readLog_encodeLog hne h,
    Option.map_some]
  exact ⟨_, rfl, dispatched_foldl disp records (.start s)⟩

/-- Payloads that look like line ends and headers, the second dispatch throws. -/
theorem dispatched_of_appends_hostile :
    let records := [[bytes "SET", bytes "k", bytes "\r\n*1\r\n$1\r\nx"],
      [bytes "EXPIRE", bytes "k", bytes "soon"], [bytes "*2\r", []]]
    ∃ load, ((AofManager.construct true true ⟨none, none⟩).appends records).loadWith
        ⟨8, 16, by decide, by decide⟩ (storeDispatch List.length fun _ => 0) .empty =
          some load ∧ load.dispatched = records :=
  dispatched_of_appends _ _ _ _ rfl _ (by decide) (by decide)

end KeyValueDb
