/-
# Writers on one store and one log

Several threads execute write commands on a shared store and a shared log, while at most one
thread compacts the log.  A command takes the lock of a shard for each of its calls of the
store and then the lock of the file for its record, so each of these is one step, and between
two steps of one thread any others can come.  A compaction takes the lock of one shard after
the other for its snapshot, writes the temporary file, and closes, renames and reopens under
the lock of the file.  All file operations succeed.

The commands are those the loader knows: `SET` without `EX`, `DEL`, `HSET`, `HDEL`, `LPUSH`
and `RPUSH`.

`history` is no part of the program.  It lists the updates in the order in which they were
made, each with what became of it and whether the compaction had already seen its shard.
-/
import KeyValueDb.Aof.Rewrite
import KeyValueDb.Command.Commands
import KeyValueDb.Store.Sections
import KeyValueDb.Store.Updates

namespace KeyValueDb

open Lib Function RespParser

/-! ## 1. Write commands -/

/-- The commands that a thread executes. -/
inductive Write
  | set (key value : Bytes) (options : List Bytes)
    (plain : Command.lifetime options = some none)
  | del (key : Bytes) (keys : List Bytes)
  | hset (key field value : Bytes)
  | hdel (key field : Bytes)
  | lpush (key item : Bytes) (items : List Bytes)
  | rpush (key item : Bytes) (items : List Bytes)

namespace Write

def verb : Write → StoreVerb
  | .set .. => .set
  | .del .. => .del
  | .hset .. => .hset
  | .hdel .. => .hdel
  | .lpush .. => .lpush
  | .rpush .. => .rpush

/-- The request, the command word in upper case. -/
def tokens : Write → List Bytes
  | .set key value options _ => bytes "SET" :: key :: value :: options
  | .del key keys => bytes "DEL" :: key :: keys
  | .hset key field value => [bytes "HSET", key, field, value]
  | .hdel key field => [bytes "HDEL", key, field]
  | .lpush key item items => bytes "LPUSH" :: key :: item :: items
  | .rpush key item items => bytes "RPUSH" :: key :: item :: items

/-- The calls of the store, in order. -/
def updates : Write → List Update
  | .set key value _ _ => [.set key value]
  | .del key keys => (key :: keys).map .del
  | .hset key field value => [.hset key field value]
  | .hdel key field => [.hdel key field]
  | .lpush key item items => (item :: items).map (.lpush key)
  | .rpush key item items => (item :: items).map (.rpush key)

/-- What the command keeps of a result: the number of keys deleted, the length after the last
push, a flag as 1 or 0. -/
def note : Write → Nat → CallResult → Nat
  | .del .., acc, .bool b => if b then acc + 1 else acc
  | .hset .., _, .bool b | .hdel .., _, .bool b => if b then 1 else 0
  | .lpush .., _, .size n | .rpush .., _, .size n => n
  | _, acc, _ => acc

/-- Whether the command is logged. -/
def logs : Write → Nat → Bool
  | .del .., acc | .hdel .., acc => 0 < acc
  | _, _ => true

def response : Write → Nat → Bytes
  | .set .., _ => ok
  | _, acc => serializeInteger acc

/-- One call, with what is kept of the results. -/
def work (hash : Bytes → Nat) (now : Time) (w : Write) (x : Nat × KeyValueStore) (u : Update) :
    Nat × KeyValueStore :=
  (w.note x.1 (u.run hash now x.2).1, (u.run hash now x.2).2)

theorem updates_ne_nil (w : Write) : w.updates ≠ [] := by
  cases w <;> simp [updates]

theorem tokens_ne_nil (w : Write) : w.tokens ≠ [] := by
  cases w <;> simp [tokens]

/-- **The calls are those of `CommandParser::execute`.** -/
theorem run_write (hash : Bytes → Nat) (order : IterOrder) (now : Time) (w : Write)
    (s : KeyValueStore) :
    (Command.run hash order now w.tokens s w.verb).response =
        w.response (w.updates.foldl (w.work hash now) (0, s)).1 ∧
      (Command.run hash order now w.tokens s w.verb).store =
        (w.updates.foldl (w.work hash now) (0, s)).2 ∧
      (Command.run hash order now w.tokens s w.verb).record =
        if w.logs (w.updates.foldl (w.work hash now) (0, s)).1 then some w.tokens else none := by
  cases w with
  | set key value options plain =>
    simp only [Command.run, Command.set, tokens, verb, plain]
    exact ⟨rfl, rfl, rfl⟩
  | del key keys =>
    have hloop : ∀ (ks : List Bytes) (x : Nat × KeyValueStore),
        (ks.map Update.del).foldl (work hash now (.del key keys)) x =
          ks.foldl (Command.delStep hash) x := by
      intro ks x
      rw [List.foldl_map]
      rfl
    simp only [updates, hloop]
    refine ⟨rfl, rfl, ?_⟩
    simp only [logs, decide_eq_true_eq]
    rfl
  | hset key field value =>
    refine ⟨?_, rfl, rfl⟩
    simp only [Command.run, Command.hset, tokens, verb, updates, work, note, response,
      Update.run, flag, List.foldl_cons, List.foldl_nil]
    split <;> rfl
  | hdel key field =>
    simp only [Command.run, Command.hdel, tokens, verb, updates, work, note, response, logs,
      Update.run, flag, List.foldl_cons, List.foldl_nil]
    by_cases h : (s.hdel hash key field).1 = true <;> simp [h]
  | lpush key item items =>
    have hloop : ∀ (xs : List Bytes) (x : Nat × KeyValueStore),
        (xs.map (Update.lpush key)).foldl (work hash now (.lpush key item items)) x =
          xs.foldl (fun acc item => acc.2.lpush hash key item) x := by
      intro xs x
      rw [List.foldl_map]
      rfl
    simp only [updates, hloop]
    exact ⟨rfl, rfl, rfl⟩
  | rpush key item items =>
    have hloop : ∀ (xs : List Bytes) (x : Nat × KeyValueStore),
        (xs.map (Update.rpush key)).foldl (work hash now (.rpush key item items)) x =
          xs.foldl (fun acc item => acc.2.rpush hash key item) x := by
      intro xs x
      rw [List.foldl_map]
      rfl
    simp only [updates, hloop]
    exact ⟨rfl, rfl, rfl⟩

end Write

/-! ## 2. States and steps -/

/-- Where a thread is: `rest` are the calls it still has to make. -/
inductive WriterPc
  | idle
  | storing (w : Write) (rest : List Update) (acc : Nat)
  | appending (w : Write) (acc : Nat)
  | returned (response : Bytes)

/-- Where the compaction is. -/
inductive RewriterPc
  /-- Called, and the temporary file not opened yet. -/
  | ready
  /-- In `get_snapshot`, about to lock the `i`-th shard. -/
  | snapshot (now : Time) (i : Fin numShards) (snap : StoreSnapshot)
  | write (snap : StoreSnapshot)
  /-- About to lock the file. -/
  | rename
  | done

/-- The snapshot has been taken of this shard. -/
def RewriterPc.passed (i : Fin numShards) : RewriterPc → Bool
  | .ready => false
  | .snapshot _ j _ => i < j
  | _ => true

/-- What became of an update: its command is still being executed, was logged, or ended
without a record. -/
inductive LogFate
  | pending | logged | dropped
  deriving DecidableEq

/-- An update that was made. -/
structure Entry (T : Type) where
  thread : T
  update : Update
  /-- The compaction has looked at the shard before. -/
  late : Bool
  fate : LogFate

def Entry.settle {T : Type} [DecidableEq T] (t : T) (fate : LogFate) (e : Entry T) :
    Entry T :=
  if e.thread = t ∧ e.fate = .pending then { e with fate } else e

structure Shared (T : Type) where
  store : KeyValueStore
  aof : AofManager
  writers : T → WriterPc
  rewriter : RewriterPc
  history : List (Entry T)

/-- A thread is asked for a command, makes its next call of the store or appends its record,
or the compaction takes its next step. -/
inductive Action (T : Type)
  | request (t : T) (w : Write)
  | storeCall (t : T) (now : Time)
  | append (t : T)
  | rewrite (now : Time) (order : IterOrder)

namespace Shared

variable {T : Type}

/-- Nobody is executing a command. -/
def start (store : KeyValueStore) (aof : AofManager) (rewriter : RewriterPc) : Shared T :=
  ⟨store, aof, fun _ => .idle, rewriter, []⟩

/-- The next step of the compaction. -/
def rewriteStep (now : Time) (order : IterOrder) (st : Shared T) : Shared T :=
  match st.rewriter with
  | .ready =>
    if st.aof.enabled then
      { st with
        aof := { st.aof with disk := { st.aof.disk with tmp := some [] } }
        rewriter := .snapshot now 0 StoreSnapshot.empty }
    else { st with rewriter := .done }
  | .snapshot now i snap =>
    let snap := snap.append ((st.store.shards i).snapshot order now)
    { st with rewriter :=
        if h : i.val + 1 < numShards then .snapshot now ⟨i.val + 1, h⟩ snap else .write snap }
  | .write snap =>
    { st with
      aof := { st.aof with disk := { st.aof.disk with tmp := some (rewriteImage snap) } }
      rewriter := .rename }
  | .rename =>
    { st with
      aof := { st.aof with isOpen := true, disk := st.aof.disk.rename.create }
      rewriter := .done }
  | .done => st

/-- A step of the compaction concerns the compaction and the log alone. -/
theorem rewriteStep_frame (st : Shared T) (now : Time) (order : IterOrder) :
    (st.rewriteStep now order).store = st.store ∧
      (st.rewriteStep now order).writers = st.writers ∧
      (st.rewriteStep now order).history = st.history := by
  unfold rewriteStep
  split
  · split <;> exact ⟨rfl, rfl, rfl⟩
  all_goals exact ⟨rfl, rfl, rfl⟩

/-- The update that is made now, for the history. -/
def entry (hash : Bytes → Nat) (t : T) (u : Update) (st : Shared T) : Entry T :=
  ⟨t, u, st.rewriter.passed (getShardIndex hash u.key), .pending⟩

variable [DecidableEq T]

def setWriter (t : T) (pc : WriterPc) (st : Shared T) : Shared T :=
  { st with writers := update st.writers t pc }

/-- The pending updates of a thread meet their fate. -/
def settle (t : T) (fate : LogFate) (history : List (Entry T)) : List (Entry T) :=
  history.map (Entry.settle t fate)

/-- A call of the store, with its entry in the history. -/
def call (hash : Bytes → Nat) (t : T) (now : Time) (u : Update) (st : Shared T) : Shared T :=
  { st with
    store := (u.run hash now st.store).2
    history := st.history ++ [st.entry hash t u] }

theorem writers_self (t : T) (pc : WriterPc) (st : Shared T) :
    (st.setWriter t pc).writers t = pc := update_self ..

theorem writers_of_ne {t t' : T} (ht : t' ≠ t) (pc : WriterPc) (st : Shared T) :
    (st.setWriter t pc).writers t' = st.writers t' := update_of_ne ht ..

def step (hash : Bytes → Nat) (st : Shared T) : Action T → Shared T
  | .request t w =>
    match st.writers t with
    | .idle | .returned _ => st.setWriter t (.storing w w.updates 0)
    | _ => st
  | .storeCall t now =>
    match st.writers t with
    | .storing w (u :: rest) acc =>
      let acc := w.note acc (u.run hash now st.store).1
      let st := st.call hash t now u
      if rest ≠ [] then st.setWriter t (.storing w rest acc)
      else if w.logs acc then st.setWriter t (.appending w acc)
      else
        { st.setWriter t (.returned (w.response acc)) with
          history := settle t .dropped st.history }
    | _ => st
  | .append t =>
    match st.writers t with
    | .appending w acc =>
      { st.setWriter t (.returned (w.response acc)) with
        aof := st.aof.append w.tokens, history := settle t .logged st.history }
    | _ => st
  | .rewrite now order => st.rewriteStep now order

/-- Nobody is in a command. -/
def Quiet (st : Shared T) : Prop :=
  ∀ t, st.writers t = .idle ∨ ∃ response, st.writers t = .returned response

instance (pc : WriterPc) : Decidable (pc = .idle ∨ ∃ response, pc = .returned response) :=
  match pc with
  | .idle => isTrue (Or.inl rfl)
  | .returned response => isTrue (Or.inr ⟨response, rfl⟩)
  | .storing .. | .appending .. => isFalse (by rintro (h | ⟨_, h⟩) <;> cases h)

instance [Fintype T] (st : Shared T) : Decidable st.Quiet :=
  inferInstanceAs
    (Decidable (∀ t, st.writers t = .idle ∨ ∃ response, st.writers t = .returned response))

instance (pc : RewriterPc) : Decidable (pc = .done) :=
  match pc with
  | .done => isTrue rfl
  | .ready | .snapshot .. | .write _ | .rename => isFalse (by intro h; cases h)

/-! ## 3. What a step can do -/

/-- The steps, one for each point of the program. -/
inductive Stepped (hash : Bytes → Nat) (st : Shared T) : Action T → Shared T → Prop
  | request {t : T} (w : Write)
      (hpc : st.writers t = .idle ∨ ∃ response, st.writers t = .returned response) :
      Stepped hash st (.request t w) (st.setWriter t (.storing w w.updates 0))
  | store {t : T} {now : Time} {w : Write} {u : Update} {rest : List Update} {acc : Nat}
      (hpc : st.writers t = .storing w (u :: rest) acc) (hrest : rest ≠ []) :
      Stepped hash st (.storeCall t now) ((st.call hash t now u).setWriter t
        (.storing w rest (w.note acc (u.run hash now st.store).1)))
  | storeLast {t : T} {now : Time} {w : Write} {u : Update} {acc : Nat}
      (hpc : st.writers t = .storing w [u] acc)
      (hlogs : w.logs (w.note acc (u.run hash now st.store).1) = true) :
      Stepped hash st (.storeCall t now) ((st.call hash t now u).setWriter t
        (.appending w (w.note acc (u.run hash now st.store).1)))
  | drop {t : T} {now : Time} {w : Write} {u : Update} {acc : Nat}
      (hpc : st.writers t = .storing w [u] acc)
      (hlogs : w.logs (w.note acc (u.run hash now st.store).1) = false) :
      Stepped hash st (.storeCall t now)
        { (st.call hash t now u).setWriter t
            (.returned (w.response (w.note acc (u.run hash now st.store).1))) with
          history := settle t .dropped (st.call hash t now u).history }
  | append {t : T} {w : Write} {acc : Nat} (hpc : st.writers t = .appending w acc) :
      Stepped hash st (.append t)
        { st.setWriter t (.returned (w.response acc)) with
          aof := st.aof.append w.tokens, history := settle t .logged st.history }
  | rewrite (now : Time) (order : IterOrder) :
      Stepped hash st (.rewrite now order) (st.rewriteStep now order)

/-- **A step is one of those**, or changes nothing. -/
theorem step_cases (hash : Bytes → Nat) (st : Shared T) (ev : Action T) :
    st.step hash ev = st ∨ Stepped hash st ev (st.step hash ev) := by
  cases ev with
  | request t w =>
    simp only [step]
    split
    · exact Or.inr (.request w (Or.inl ‹_›))
    · exact Or.inr (.request w (Or.inr ⟨_, ‹_›⟩))
    · exact Or.inl rfl
  | storeCall t now =>
    simp only [step]
    split
    · rename_i w u rest acc hpc
      refine Or.inr ?_
      by_cases hrest : rest = []
      · subst hrest
        by_cases hlogs : w.logs (w.note acc (u.run hash now st.store).1) = true
        · rw [if_neg (by simp), if_pos hlogs]
          exact .storeLast hpc hlogs
        · rw [if_neg (by simp), if_neg hlogs]
          exact .drop hpc (Bool.eq_false_iff.mpr hlogs)
      · rw [if_pos hrest]
        exact .store hpc hrest
    · exact Or.inl rfl
  | append t =>
    simp only [step]
    split
    · exact Or.inr (.append ‹_›)
    · exact Or.inl rfl
  | rewrite now order => exact Or.inr (.rewrite now order)

end Shared

/-! ## 4. What is pending -/

/-- The updates of the command that a thread is in. -/
def WriterPc.updates : WriterPc → List Update
  | .storing w _ _ | .appending w _ => w.updates
  | _ => []

/-- Those it still has to make. -/
def WriterPc.todo : WriterPc → List Update
  | .storing _ rest _ => rest
  | _ => []

theorem WriterPc.updates_of_quiet {pc : WriterPc}
    (h : pc = .idle ∨ ∃ response, pc = .returned response) : pc.updates = [] := by
  rcases h with rfl | ⟨_, rfl⟩ <;> rfl

section Pending

variable {T : Type} [DecidableEq T] {t t' : T} {fate : LogFate} {e : Entry T}
  {h : List (Entry T)}

def Entry.isPending (t : T) (e : Entry T) : Bool := e.thread = t ∧ e.fate = .pending

/-- The pending updates of a thread. -/
def pendingOf (t : T) (h : List (Entry T)) : List (Entry T) :=
  h.filter (Entry.isPending t)

theorem update_settle : (e.settle t fate).update = e.update := by
  unfold Entry.settle
  split <;> rfl

theorem isPending_settle_self (hfate : fate ≠ .pending) :
    (e.settle t fate).isPending t = false := by
  unfold Entry.settle
  split
  · simp [Entry.isPending, hfate]
  · rename_i hnot
    simpa [Entry.isPending] using hnot

theorem pendingOf_append_self (t : T) (u : Update) (late : Bool) (h : List (Entry T)) :
    pendingOf t (h ++ [⟨t, u, late, .pending⟩]) = pendingOf t h ++ [⟨t, u, late, .pending⟩] := by
  simp [pendingOf, Entry.isPending]

theorem pendingOf_append_of_ne (ht : t' ≠ t) (u : Update) (late : Bool)
    (h : List (Entry T)) :
    pendingOf t' (h ++ [⟨t, u, late, .pending⟩]) = pendingOf t' h := by
  simp [pendingOf, Entry.isPending, Ne.symm ht]

theorem pendingOf_settle_self (hfate : fate ≠ .pending) (h : List (Entry T)) :
    pendingOf t (Shared.settle t fate h) = [] := by
  rw [pendingOf, List.filter_eq_nil_iff]
  intro e he
  obtain ⟨e₀, -, rfl⟩ := List.mem_map.mp he
  rw [isPending_settle_self hfate]
  exact Bool.false_ne_true

theorem pendingOf_settle_of_ne (ht : t' ≠ t) (h : List (Entry T)) :
    pendingOf t' (Shared.settle t fate h) = pendingOf t' h := by
  induction h with
  | nil => rfl
  | cons e h ih =>
    have hrest : (h.map (Entry.settle t fate)).filter (Entry.isPending t') =
        h.filter (Entry.isPending t') := ih
    simp only [pendingOf, Shared.settle, List.map_cons, List.filter_cons, hrest]
    by_cases he : e.thread = t ∧ e.fate = .pending
    · simp [Entry.settle, Entry.isPending, he, Ne.symm ht]
    · rw [Entry.settle, if_neg he]

end Pending

namespace Shared

variable {T : Type} [DecidableEq T] {hash : Bytes → Nat} {st : Shared T} {t : T} {w : Write}
  {u : Update} {rest : List Update} {acc : Nat}

/-- The updates that a command has made and those it has to make are its updates. -/
def Programmed (st : Shared T) : Prop :=
  ∀ t, (pendingOf t st.history).map Entry.update ++ (st.writers t).todo =
    (st.writers t).updates

theorem programmed_start (store : KeyValueStore) (aof : AofManager) (rewriter : RewriterPc) :
    (start store aof rewriter : Shared T).Programmed := fun _ => rfl

theorem Programmed.storing (h : st.Programmed)
    (hpc : st.writers t = .storing w (u :: rest) acc) :
    (pendingOf t st.history).map Entry.update ++ u :: rest = w.updates := by
  have ht := h t
  rwa [hpc] at ht

theorem Programmed.appending (h : st.Programmed) (hpc : st.writers t = .appending w acc) :
    (pendingOf t st.history).map Entry.update = w.updates := by
  have ht := h t
  rw [hpc] at ht
  exact (List.append_nil _).symm.trans ht

theorem Programmed.quiet (h : st.Programmed)
    (hpc : st.writers t = .idle ∨ ∃ response, st.writers t = .returned response) :
    pendingOf t st.history = [] := by
  have ht := h t
  rw [WriterPc.updates_of_quiet hpc, List.append_eq_nil_iff] at ht
  exact List.map_eq_nil_iff.mp ht.1

theorem Programmed.request (h : st.Programmed)
    (hpc : st.writers t = .idle ∨ ∃ response, st.writers t = .returned response) (w : Write) :
    (st.setWriter t (.storing w w.updates 0)).Programmed := by
  intro t'
  by_cases ht : t' = t
  · subst ht
    have hnone : pendingOf t' (st.setWriter t' (.storing w w.updates 0)).history = [] :=
      h.quiet hpc
    rw [writers_self, hnone]
    rfl
  · rw [writers_of_ne ht]
    exact h t'

theorem pendingOf_call_self (now : Time) :
    pendingOf t (st.call hash t now u).history = pendingOf t st.history ++ [st.entry hash t u] :=
  pendingOf_append_self ..

theorem pendingOf_call_of_ne {t' : T} (ht : t' ≠ t) (now : Time) :
    pendingOf t' (st.call hash t now u).history = pendingOf t' st.history :=
  pendingOf_append_of_ne ht ..

theorem Programmed.call (h : st.Programmed) (hpc : st.writers t = .storing w (u :: rest) acc)
    (now : Time) {pc : WriterPc} (hupdates : pc.updates = w.updates) (htodo : pc.todo = rest) :
    ((st.call hash t now u).setWriter t pc).Programmed := by
  intro t'
  have hhistory : ((st.call hash t now u).setWriter t pc).history =
      (st.call hash t now u).history := rfl
  rw [hhistory]
  by_cases ht : t' = t
  · subst ht
    rw [writers_self, pendingOf_call_self, hupdates, htodo, List.map_append, List.append_assoc]
    exact h.storing hpc
  · rw [writers_of_ne ht, pendingOf_call_of_ne ht]
    exact h t'

/-- A command ends, with a record or without. -/
theorem Programmed.ends (h : st.Programmed) {st' : Shared T} {fate : LogFate}
    (hfate : fate ≠ .pending) {history : List (Entry T)}
    (hothers : ∀ t', t' ≠ t → pendingOf t' history = pendingOf t' st.history)
    {response : Bytes} (hwriters : st'.writers = update st.writers t (.returned response))
    (hhistory : st'.history = settle t fate history) : st'.Programmed := by
  intro t'
  rw [hwriters, hhistory]
  by_cases ht : t' = t
  · subst ht
    rw [pendingOf_settle_self hfate, update_self]
    rfl
  · rw [pendingOf_settle_of_ne ht, update_of_ne ht, hothers t' ht]
    exact h t'

end Shared

end KeyValueDb
