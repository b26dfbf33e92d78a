/-
# An MSET and an MGET at the same time

`MSET` calls `set` key after key and `MGET` calls `get` key after key, and each call takes and
releases the locks of its own key only.  So an `MGET` that runs while an `MSET` does may answer
with new values of some keys and old ones of others.

`MultiKey` is the two loops over one store, section by section.  The answer is that of one
instant exactly when every key whose value changes is read before its `set`, or every such key
is read after it (`whole_iff`).
-/
import KeyValueDb.Command.Commands
import KeyValueDb.Store.Purge
import KeyValueDb.Store.Sections

namespace KeyValueDb

open Lib Function

/-! ## 1. The two loops -/

/-- The store, the keys and values `MSET` has still to write, the keys `MGET` has still to read,
where it is in the current `get`, and the values it has so far. -/
structure MultiKey where
  store : KeyValueStore
  writes : List (Bytes × Bytes)
  reads : List Bytes
  current : Local
  values : List (Option Bytes)

namespace MultiKey

/-- What happens next: a `set` of `MSET`; the first section of a `get` of `MGET`; the second
section of that `get`. -/
inductive Turn
  | set (now : Time)
  | get (now : Time)
  | finish

/-- `MGET` after a section: go on, or take the value. -/
def receive (st : MultiKey) (r : Local × KeyValueStore) : MultiKey :=
  match r.1 with
  | .returned (.value val) =>
    { st with store := r.2, current := .idle, values := st.values ++ [val] }
  | l => { st with store := r.2, current := l }

def step (hash : Bytes → Nat) (st : MultiKey) : Turn → MultiKey
  | .set now =>
    match st.writes with
    | [] => st
    | (key, value) :: rest =>
      { st with store := st.store.set hash now key value none, writes := rest }
  | .get now =>
    match st.current, st.reads with
    | .idle, key :: rest =>
      { st with reads := rest }.receive
        (advance hash .plain (.running (.getPeek now key), st.store))
    | _, _ => st
  | .finish =>
    match st.current with
    | .running sec => st.receive (advance hash .plain (.running sec, st.store))
    | _ => st

def start (s : KeyValueStore) (writes : List (Bytes × Bytes)) (reads : List Bytes) : MultiKey :=
  ⟨s, writes, reads, .idle, []⟩

/-- The `MGET` has read all its keys. -/
def Done (st : MultiKey) : Prop := st.reads = [] ∧ st.current = .idle

/-- The value of a key before the two commands. -/
def before (hash : Bytes → Nat) (s : KeyValueStore) (key : Bytes) : Option Bytes :=
  ((s.view hash).strings key).map StoreEntry.value

/-- All values are those of before the `MSET`, or all are the new ones. -/
def Whole (hash : Bytes → Nat) (s : KeyValueStore) (writes : List (Bytes × Bytes))
    (reads : List Bytes) (st : MultiKey) : Prop :=
  st.values = reads.map (before hash s) ∨ st.values = reads.map fun key => writes.lookup key

/-- The key gets another value. -/
def Changes (hash : Bytes → Nat) (s : KeyValueStore) (writes : List (Bytes × Bytes))
    (key : Bytes) : Prop :=
  writes.lookup key ≠ before hash s key

/-- If the turn reads a key of `P`, then before the `set` of the key. -/
def Early (P : Bytes → Prop) (st : MultiKey) (turn : Turn) : Prop :=
  ∀ now key rest, turn = .get now → st.current = .idle → st.reads = key :: rest → P key →
    key ∈ st.writes.map Prod.fst

/-- If the turn reads a key of `P`, then after the `set` of the key. -/
def Late (P : Bytes → Prop) (st : MultiKey) (turn : Turn) : Prop :=
  ∀ now key rest, turn = .get now → st.current = .idle → st.reads = key :: rest → P key →
    key ∉ st.writes.map Prod.fst

/-! ## 2. Each loop alone -/

variable {hash : Bytes → Nat} {s : KeyValueStore} {writes : List (Bytes × Bytes)}
  {reads : List Bytes} {st : MultiKey} {now : Time} {key : Bytes}

/-- **Alone, the `set` turns are the loop of `MSET`.** -/
theorem mset_alone (hash : Bytes → Nat) (now : Time) (st : MultiKey) :
    ((st.writes.map fun _ => Turn.set now).foldl (step hash) st).store =
      Command.msetLoop hash now (st.writes.flatMap fun p => [p.1, p.2]) st.store := by
  obtain ⟨s, writes, reads, current, values⟩ := st
  induction writes generalizing s with
  | nil => rfl
  | cons p writes ih => exact ih (s.set hash now p.1 p.2 none)

/-- The two turns of one `get`. -/
theorem get_alone (hash : Bytes → Nat) (now : Time) (hcurrent : st.current = .idle)
    {rest : List Bytes} (hreads : st.reads = key :: rest) :
    (st.step hash (.get now)).step hash .finish =
      { st with
        store := (st.store.get hash now key).2
        reads := rest
        values := st.values ++ [(st.store.get hash now key).1] } := by
  obtain ⟨s, writes, reads, current, values⟩ := st
  subst hcurrent hreads
  have htwo := advance_get_two hash .plain now key 0 s
  rw [zero_add, iterate_succ_apply, iterate_one,
    advance_getPeek hash .plain now key s] at htwo
  simp only [step, advance_getPeek]
  cases hcase : (s.getShard hash key).getPeek now key with
  | absent =>
    rw [hcase] at htwo
    have hsame : advance hash .plain (.returned (.value none), s) =
        (.returned (.value none), s) := rfl
    rw [hsame, Prod.mk.injEq, Local.returned.injEq, CallResult.value.injEq] at htwo
    simp only [receive]
    rw [← htwo.1, ← htwo.2]
  | fresh val =>
    rw [hcase] at htwo
    simp only [receive, htwo]
  | stale =>
    rw [hcase] at htwo
    simp only [receive, htwo]

/-- **Alone, the two turns of each `get` are the loop of `MGET`.** -/
theorem mget_alone (hash : Bytes → Nat) (now : Time) (hcurrent : st.current = .idle) :
    let st' := (st.reads.flatMap fun _ => [Turn.get now, .finish]).foldl (step hash) st
    let r := Command.mgetLoop hash now st.reads st.store
    st'.store = r.2 ∧ st'.Done ∧
      ∃ new, st'.values = st.values ++ new ∧ r.1 = new.flatMap bulkOrNull := by
  generalize hreads : st.reads = reads
  induction reads generalizing st with
  | nil => exact ⟨rfl, ⟨hreads, hcurrent⟩, [], (List.append_nil _).symm, rfl⟩
  | cons key rest ih =>
    have hstep := get_alone hash now hcurrent hreads
    have hnext : ((st.step hash (.get now)).step hash .finish).store =
        (st.store.get hash now key).2 := by rw [hstep]
    have hvalue : ((st.step hash (.get now)).step hash .finish).values =
        st.values ++ [(st.store.get hash now key).1] := by rw [hstep]
    have hidle : ((st.step hash (.get now)).step hash .finish).current = .idle := by
      rw [hstep]
      exact hcurrent
    obtain ⟨hstore, hdone, new, hvalues, hreply⟩ := ih hidle (by rw [hstep])
    rw [hnext] at hstore hreply
    rw [hvalue] at hvalues
    refine ⟨hstore, hdone, (st.store.get hash now key).1 :: new, ?_, congrArg _ hreply⟩
    rw [List.append_cons]
    exact hvalues

end MultiKey

/-! ## 3. What the sections do to the values -/

/-- Value and deadline of a string. -/
def FlatStore.content (F : FlatStore) (key : Bytes) : Option (Bytes × Option Time) :=
  (F.strings key).map fun e => (e.value, e.expiresAt)

/-- `last_accessed` is no content. -/
theorem content_getTouch (hash : Bytes → Nat) (now : Time) (key val : Bytes)
    (s : KeyValueStore) :
    ∃ s', advance hash .plain (.running (.getTouch now key val), s) =
      (.returned (.value (some val)), s') ∧ (s'.view hash).content = (s.view hash).content := by
  have honly : StringOnly key fun sh => ((), sh.getTouch now key) := by
    intro sh
    simp only [StoreShard.getTouch]
    split
    · exact Or.inl rfl
    · exact Or.inr ⟨some _, rfl⟩
  refine ⟨(s.onShard hash key fun sh => ((), sh.getTouch now key)).2, rfl, funext fun k => ?_⟩
  rw [view_onShard_string honly, FlatStore.content, FlatStore.content, FlatStore.putString]
  dsimp only
  by_cases hk : k = key
  · subst hk
    rw [update_self, s.view_strings]
    simp only [StoreShard.getTouch]
    cases he : (s.getShard hash k).stringMap.lookup k with
    | none => rw [he]
    | some e => simp
  · rw [update_of_ne hk]

theorem content_set (hash : Bytes → Nat) (now : Time) (key value : Bytes) (s : KeyValueStore) :
    ((s.set hash now key value none).view hash).content =
      update (s.view hash).content key (some (value, none)) := by
  funext k
  rw [s.view_set, FlatStore.content, FlatStore.set, FlatStore.putString]
  dsimp only
  by_cases hk : k = key
  · subst hk
    rw [update_self, update_self]
    rfl
  · rw [update_of_ne hk, update_of_ne hk]
    rfl

/-- Where `get` is after its shared section, by what the key holds. -/
def Local.afterPeek (now : Time) (key : Bytes) : Option (Bytes × Option Time) → Local
  | none => .returned (.value none)
  | some (val, _) => .running (.getTouch now key val)

/-- The shared section of `get` on a key that has not expired. -/
theorem advance_getPeek_live {hash : Bytes → Nat} {now : Time} {key : Bytes}
    {s : KeyValueStore}
    (hlive : ∀ val d, (s.view hash).content key = some (val, some d) → now < d) :
    advance hash .plain (.running (.getPeek now key), s) =
      (.afterPeek now key ((s.view hash).content key), s) := by
  rw [FlatStore.content, s.view_strings] at hlive ⊢
  rw [advance_getPeek, StoreShard.getPeek]
  cases he : (s.getShard hash key).stringMap.lookup key with
  | none => rfl
  | some e =>
    have hfresh : e.expired now = false := by
      refine StoreEntry.not_expired_iff.mpr fun d hd => hlive e.value d ?_
      rw [he, Option.map_some, hd]
    simp only [hfresh, Bool.false_eq_true, if_false]
    rfl

/-! ## 4. One turn -/

namespace MultiKey

/-- The values that `MGET` has, the one that its current `get` has found included. -/
def answered (st : MultiKey) : List (Option Bytes) :=
  match st.current with
  | .running (.getTouch _ _ val) => st.values ++ [some val]
  | _ => st.values

/-- What the key holds in the middle of the `MSET`. -/
def meanwhile (hash : Bytes → Nat) (s : KeyValueStore) (writes : List (Bytes × Bytes))
    (st : MultiKey) (key : Bytes) : Option (Bytes × Option Time) :=
  if key ∈ st.writes.map Prod.fst then (s.view hash).content key
  else (writes.lookup key).map fun value => (value, none)

/-- The invariant. -/
structure Consistent (hash : Bytes → Nat) (s : KeyValueStore) (writes : List (Bytes × Bytes))
    (st : MultiKey) : Prop where
  left : ∃ made, writes = made ++ st.writes
  content : ∀ key ∈ writes.map Prod.fst,
    (st.store.view hash).content key = st.meanwhile hash s writes key
  current : st.current = .idle ∨ ∃ now key val, st.current = .running (.getTouch now key val)

/-- What a turn does to the `MGET`: it reads the next key, or neither reads nor answers. -/
inductive Did (hash : Bytes → Nat) (s : KeyValueStore) (writes : List (Bytes × Bytes))
    (st : MultiKey) (turn : Turn) (st' : MultiKey) : Prop
  | read {now : Time} {key : Bytes} (hturn : turn = .get now) (hidle : st.current = .idle)
      (hreads : st.reads = key :: st'.reads)
      (hanswered : st'.answered =
        st.answered ++ [(st.meanwhile hash s writes key).map Prod.fst])
  | other (hnot : ∀ now, turn = .get now → st.current = .idle → st.reads = [])
      (hreads : st'.reads = st.reads) (hanswered : st'.answered = st.answered)

/-- No key that is still to be read expires before the turn. -/
def Live (hash : Bytes → Nat) (s : KeyValueStore) (reads : List Bytes) (turn : Turn) : Prop :=
  ∀ now, turn = .get now → ∀ key ∈ reads, ∀ val d,
    (s.view hash).content key = some (val, some d) → now < d

variable {hash : Bytes → Nat} {s : KeyValueStore} {writes : List (Bytes × Bytes)}
  {reads : List Bytes} {st : MultiKey} {now : Time} {key : Bytes} {turn : Turn}

theorem consistent_start (hash : Bytes → Nat) (s : KeyValueStore)
    (writes : List (Bytes × Bytes)) (reads : List Bytes) :
    (start s writes reads).Consistent hash s writes where
  left := ⟨[], rfl⟩
  content _ hkey := (if_pos hkey).symm
  current := Or.inl rfl

/-- **A `set`** moves one key from its old value to its new one. -/
theorem Consistent.set (h : st.Consistent hash s writes)
    (hdistinct : (writes.map Prod.fst).Nodup) (now : Time) :
    (st.step hash (.set now)).Consistent hash s writes := by
  obtain ⟨s', writes', reads, current, values⟩ := st
  cases writes' with
  | nil => exact h
  | cons p rest =>
    obtain ⟨key, value⟩ := p
    obtain ⟨⟨made, hleft⟩, hcontent, hcurrent⟩ := h
    dsimp only at hleft hcontent hcurrent
    rw [hleft, List.map_append, List.map_cons, List.nodup_append] at hdistinct
    obtain ⟨-, hrest, hmade⟩ := hdistinct
    have hnot : key ∉ rest.map Prod.fst := (List.nodup_cons.mp hrest).1
    have hlookup : writes.lookup key = some value := by
      rw [List.lookup_eq_some_iff]
      refine ⟨made, rest, hleft, fun p hp => ?_⟩
      exact bne_iff_ne.mpr (hmade _ (List.mem_map_of_mem hp) _ List.mem_cons_self).symm
    refine ⟨⟨made ++ [(key, value)], ?_⟩, fun k hk => ?_, hcurrent⟩
    · rw [hleft, List.append_cons]
      rfl
    · have hold := hcontent k hk
      simp only [step, content_set]
      by_cases hkey : k = key
      · subst hkey
        rw [update_self, meanwhile, if_neg hnot, hlookup]
        rfl
      · rw [update_of_ne hkey, hold]
        simp only [meanwhile, List.map_cons, List.mem_cons, hkey, false_or]

/-- **A section of a `get`** that finds a live key or stamps it. -/
theorem Consistent.get (h : st.Consistent hash s writes)
    (hkeys : ∀ key ∈ st.reads, key ∈ writes.map Prod.fst)
    (hlive : Live hash s st.reads (.get now)) :
    (st.step hash (.get now)).Consistent hash s writes ∧
      Did hash s writes st (.get now) (st.step hash (.get now)) := by
  obtain ⟨s', writes', reads, current, values⟩ := st
  rcases h.current with hcurrent | ⟨now', key', val, hcurrent⟩
  · dsimp only at hcurrent
    subst hcurrent
    cases reads with
    | nil => exact ⟨h, .other (fun _ _ _ => rfl) rfl rfl⟩
    | cons key rest =>
      have hcontent := h.content key (hkeys key List.mem_cons_self)
      dsimp only at hcontent
      have hdate : ∀ val d, (s'.view hash).content key = some (val, some d) → now < d := by
        intro val d hd
        rw [hcontent, meanwhile] at hd
        split at hd
        · exact hlive now rfl key List.mem_cons_self val d hd
        · obtain ⟨value, -, heq⟩ := Option.map_eq_some_iff.mp hd
          cases heq
      have hread : step hash ⟨s', writes', key :: rest, .idle, values⟩ (.get now) =
          receive ⟨s', writes', rest, .idle, values⟩
            (.afterPeek now key ((s'.view hash).content key), s') :=
        congrArg (receive ⟨s', writes', rest, .idle, values⟩) (advance_getPeek_live hdate)
      rw [hread, hcontent]
      cases hcase : meanwhile hash s writes ⟨s', writes', key :: rest, .idle, values⟩ key with
      | none =>
        refine ⟨⟨h.left, h.content, Or.inl rfl⟩, .read rfl rfl rfl ?_⟩
        rw [hcase]
        rfl
      | some c =>
        refine ⟨⟨h.left, h.content, Or.inr ⟨now, key, c.1, rfl⟩⟩, .read rfl rfl rfl ?_⟩
        rw [hcase]
        rfl
  · dsimp only at hcurrent
    subst hcurrent
    exact ⟨h, .other (fun _ _ hidle => by cases hidle) rfl rfl⟩

/-- The second section of a `get` changes no value. -/
theorem Consistent.finish (h : st.Consistent hash s writes) :
    (st.step hash .finish).Consistent hash s writes ∧
      Did hash s writes st .finish (st.step hash .finish) := by
  obtain ⟨s', writes', reads, current, values⟩ := st
  rcases h.current with hcurrent | ⟨now, key, val, hcurrent⟩
  · dsimp only at hcurrent
    subst hcurrent
    exact ⟨h, .other (fun _ hturn => by cases hturn) rfl rfl⟩
  · dsimp only at hcurrent
    subst hcurrent
    obtain ⟨s'', htouch, hcontent⟩ := content_getTouch hash now key val s'
    have hfinish : step hash ⟨s', writes', reads, .running (.getTouch now key val), values⟩
        .finish = ⟨s'', writes', reads, .idle, values ++ [some val]⟩ :=
      congrArg (receive ⟨s', writes', reads, .running (.getTouch now key val), values⟩) htouch
    rw [hfinish]
    refine ⟨⟨h.left, fun k hk => ?_, Or.inl rfl⟩, .other (fun _ hturn => by cases hturn) rfl rfl⟩
    dsimp only
    rw [hcontent]
    exact h.content k hk

/-- **What one turn does.** -/
theorem Consistent.step (h : st.Consistent hash s writes)
    (hdistinct : (writes.map Prod.fst).Nodup)
    (hkeys : ∀ key ∈ st.reads, key ∈ writes.map Prod.fst) (hlive : Live hash s st.reads turn) :
    (st.step hash turn).Consistent hash s writes ∧
      Did hash s writes st turn (st.step hash turn) := by
  cases turn with
  | set now =>
    refine ⟨h.set hdistinct now, .other (fun _ hturn => by cases hturn) ?_ ?_⟩
    · simp only [MultiKey.step]
      split <;> rfl
    · simp only [MultiKey.step]
      split <;> rfl
  | get now => exact h.get hkeys hlive
  | finish => exact h.finish

/-! ## 5. Runs -/

/-- The value in the middle of the `MSET`. -/
theorem meanwhile_value (st : MultiKey) (key : Bytes) :
    (st.meanwhile hash s writes key).map Prod.fst =
      if key ∈ st.writes.map Prod.fst then before hash s key else writes.lookup key := by
  unfold meanwhile
  split
  · rw [FlatStore.content, Option.map_map]
    rfl
  · rw [Option.map_map]
    exact Option.map_id'

theorem early_iff {rest : List Bytes} (hturn : turn = .get now) (hidle : st.current = .idle)
    (hreads : st.reads = key :: rest) :
    (st.meanwhile hash s writes key).map Prod.fst = before hash s key ↔
      st.Early (Changes hash s writes) turn := by
  rw [meanwhile_value]
  constructor
  · intro hvalue now' key' rest' _ _ hreads' hchanges
    rw [hreads, List.cons.injEq] at hreads'
    obtain ⟨rfl, -⟩ := hreads'
    by_contra hset
    rw [if_neg hset] at hvalue
    exact hchanges hvalue
  · intro hearly
    split
    · rfl
    · rename_i hset
      by_contra hchanges
      exact hset (hearly now key rest hturn hidle hreads hchanges)

theorem late_iff {rest : List Bytes} (hturn : turn = .get now) (hidle : st.current = .idle)
    (hreads : st.reads = key :: rest) :
    (st.meanwhile hash s writes key).map Prod.fst = writes.lookup key ↔
      st.Late (Changes hash s writes) turn := by
  rw [meanwhile_value]
  constructor
  · intro hvalue now' key' rest' _ _ hreads' hchanges hset
    rw [hreads, List.cons.injEq] at hreads'
    obtain ⟨rfl, -⟩ := hreads'
    rw [if_pos hset] at hvalue
    exact hchanges hvalue.symm
  · intro hlate
    split
    · rename_i hset
      by_contra hchanges
      exact hlate now key rest hturn hidle hreads (Ne.symm hchanges) hset
    · rfl

/-- **What a run adds to the answer**: one value for each key still to be read, the old ones
exactly if the reads are early and the new ones exactly if they are late. -/
theorem Consistent.run (h : st.Consistent hash s writes)
    (hdistinct : (writes.map Prod.fst).Nodup)
    (hkeys : ∀ key ∈ st.reads, key ∈ writes.map Prod.fst) (turns : List Turn)
    (hlive : ∀ turn ∈ turns, Live hash s st.reads turn)
    (hdone : (turns.foldl (MultiKey.step hash) st).Done) :
    ∃ new, (turns.foldl (MultiKey.step hash) st).values = st.answered ++ new ∧
      (new = st.reads.map (before hash s) ↔
        Steps (MultiKey.step hash) (Early (Changes hash s writes)) turns st) ∧
      (new = st.reads.map (fun key => writes.lookup key) ↔
        Steps (MultiKey.step hash) (Late (Changes hash s writes)) turns st) := by
  induction turns generalizing st with
  | nil =>
    obtain ⟨hreads, hidle⟩ := hdone
    dsimp only [List.foldl_nil] at hreads hidle ⊢
    refine ⟨[], ?_, ?_, ?_⟩
    · rw [answered, hidle, List.append_nil]
    · rw [hreads]
      exact iff_of_true rfl trivial
    · rw [hreads]
      exact iff_of_true rfl trivial
  | cons turn turns ih =>
    obtain ⟨hstep, hdid⟩ := h.step hdistinct hkeys (hlive turn List.mem_cons_self)
    cases hdid with
    | @read now key hturn hidle hreads hanswered =>
      obtain ⟨new, hvalues, hearly, hlate⟩ := ih hstep
        (fun k hk => hkeys k (by rw [hreads]; exact List.mem_cons_of_mem _ hk))
        (fun t ht now' hget k hk => hlive t (List.mem_cons_of_mem _ ht) now' hget k
          (by rw [hreads]; exact List.mem_cons_of_mem _ hk)) hdone
      refine ⟨(st.meanwhile hash s writes key).map Prod.fst :: new, ?_, ?_, ?_⟩
      · rw [List.append_cons, ← hanswered]
        exact hvalues
      · rw [hreads, List.map_cons, List.cons.injEq, early_iff hturn hidle hreads, hearly]
        rfl
      · rw [hreads, List.map_cons, List.cons.injEq, late_iff hturn hidle hreads, hlate]
        rfl
    | other hnot hreads hanswered =>
      obtain ⟨new, hvalues, hearly, hlate⟩ := ih hstep (by rw [hreads]; exact hkeys)
        (by rw [hreads]; exact fun t ht => hlive t (List.mem_cons_of_mem _ ht)) hdone
      rw [hreads] at hearly hlate
      rw [hanswered] at hvalues
      refine ⟨new, hvalues, hearly.trans ?_, hlate.trans ?_⟩
      · refine ⟨fun hs => ⟨fun now key rest ht hi hr => ?_, hs⟩, And.right⟩
        rw [hnot now ht hi] at hr
        cases hr
      · refine ⟨fun hs => ⟨fun now key rest ht hi hr => ?_, hs⟩, And.right⟩
        rw [hnot now ht hi] at hr
        cases hr

/-- **An `MGET` that runs while an `MSET` does** answers with all the old values or all the new
ones exactly when it reads every key whose value changes before its `set`, or every such key
after it. -/
theorem whole_iff (hash : Bytes → Nat) (s : KeyValueStore) (writes : List (Bytes × Bytes))
    (reads : List Bytes) (hdistinct : (writes.map Prod.fst).Nodup)
    (hkeys : ∀ key ∈ reads, key ∈ writes.map Prod.fst) (turns : List Turn)
    (hlive : ∀ turn ∈ turns, Live hash s reads turn)
    (hdone : (turns.foldl (MultiKey.step hash) (start s writes reads)).Done) :
    Whole hash s writes reads (turns.foldl (MultiKey.step hash) (start s writes reads)) ↔
      Steps (MultiKey.step hash) (Early (Changes hash s writes)) turns (start s writes reads) ∨
        Steps (MultiKey.step hash) (Late (Changes hash s writes)) turns
          (start s writes reads) := by
  obtain ⟨new, hvalues, hearly, hlate⟩ :=
    (consistent_start hash s writes reads).run hdistinct hkeys turns hlive hdone
  have hnew : (turns.foldl (MultiKey.step hash) (start s writes reads)).values = new := hvalues
  rw [Whole, hnew]
  exact or_congr hearly hlate

/-- Once the `MSET` is over, every read is late. -/
theorem late_of_written {P : Bytes → Prop} (h : st.writes = []) : st.Late P turn := by
  intro _ _ _ _ _ _ _ hset
  rw [h] at hset
  cases hset

theorem whole_iff_after :
    let hash : Bytes → Nat := List.length
    let writes : List (Bytes × Bytes) := [(bytes "a", bytes "1"), (bytes "bc", bytes "2")]
    let reads := [bytes "bc", bytes "a"]
    let turns : List Turn := [.set 1, .set 2, .get 2, .finish, .get 3, .finish]
    Whole hash .empty writes reads
      (turns.foldl (MultiKey.step hash) (start .empty writes reads)) := by
  intro hash writes reads turns
  have hlive : ∀ turn ∈ turns, Live hash .empty reads turn := by
    rintro turn - now - key - val d hempty
    cases hempty
  refine (whole_iff hash .empty writes reads (by decide) (by decide) turns hlive
    ⟨rfl, rfl⟩).mpr (Or.inr ⟨?_, ?_, late_of_written rfl, late_of_written rfl,
      late_of_written rfl, late_of_written rfl, trivial⟩)
  · rintro - - - ⟨⟩
  · rintro - - - ⟨⟩

/-- **`MSET a 1 bc 2` and `MGET a bc`**: both keys are read between the two `set` calls. -/
theorem not_whole_of_between :
    let hash : Bytes → Nat := List.length
    let writes : List (Bytes × Bytes) := [(bytes "a", bytes "1"), (bytes "bc", bytes "2")]
    let reads := [bytes "a", bytes "bc"]
    let turns : List Turn := [.set 1, .get 1, .finish, .get 1, .finish, .set 1]
    let st := turns.foldl (MultiKey.step hash) (start .empty writes reads)
    st.Done ∧ st.values = [some (bytes "1"), none] ∧ ¬ Whole hash .empty writes reads st := by
  intro hash writes reads turns st
  have hvalues : st.values = [some (bytes "1"), none] := rfl
  refine ⟨⟨rfl, rfl⟩, hvalues, ?_⟩
  rintro (hold | hnew)
  · rw [hvalues] at hold
    exact absurd hold (by decide)
  · rw [hvalues] at hnew
    exact absurd hnew (by decide)

end MultiKey

end KeyValueDb
