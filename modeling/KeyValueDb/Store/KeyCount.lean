/-
# Counting keys

`size` adds up the string map, the hash map and the list map, and `exists` looks a key up in
each of the three.  A key is counted as often as there are maps that hold it, so the count is
the number of keys that exist exactly when no key is held by two (`size_eq_iff`).

No method looks whether another map holds its key.  A run keeps the maps apart exactly when no
call of it writes under a key that another map holds (`size_iff`); the maintenance does no harm.
-/
import KeyValueDb.Lib.Runs
import KeyValueDb.Store.Contents

namespace KeyValueDb

open Lib Function

variable {hash : Bytes → Nat}

/-! ## 1. One kind of value for each key -/

namespace FlatStore

/-- At the instant `t` no key has two of a string, a hash and a list. -/
def Apart (t : Time) (F : FlatStore) : Prop :=
  ∀ k, ¬ (F.fresh t k ∧ (F.hashes k).isSome) ∧ ¬ (F.fresh t k ∧ (F.lists k).isSome) ∧
    ¬ ((F.hashes k).isSome ∧ (F.lists k).isSome)

/-- Only one of the maps holds the key, if any, expired strings included. -/
structure OneKindAt (k : Bytes) (F : FlatStore) : Prop where
  hashes : (F.hashes k).isSome → F.strings k = none ∧ F.lists k = none
  lists : (F.lists k).isSome → F.strings k = none ∧ F.hashes k = none

/-- No key is held by two of the maps. -/
def OneKind (F : FlatStore) : Prop := ∀ k, F.OneKindAt k

theorem fresh_isSome {t : Time} {k : Bytes} {F : FlatStore} (h : F.fresh t k) :
    (F.strings k).isSome := by
  obtain ⟨e, he, -⟩ := h
  rw [he]
  rfl

/-- Every string is, or was, alive at some instant. -/
theorem exists_fresh {k : Bytes} {F : FlatStore} (h : (F.strings k).isSome) :
    ∃ t, F.fresh t k := by
  obtain ⟨e, he⟩ := Option.isSome_iff_exists.mp h
  cases hd : e.expiresAt with
  | none => exact ⟨0, e, he, by simp [StoreEntry.expired, hd]⟩
  | some d => exact ⟨d - 1, e, he, by simp [StoreEntry.expired, hd]⟩

theorem oneKind_iff {F : FlatStore} : F.OneKind ↔ ∀ t, F.Apart t := by
  constructor
  · intro h t k
    refine ⟨?_, ?_, ?_⟩
    · rintro ⟨hs, hh⟩
      simpa [((h k).hashes hh).1] using fresh_isSome hs
    · rintro ⟨hs, hl⟩
      simpa [((h k).lists hl).1] using fresh_isSome hs
    · rintro ⟨hh, hl⟩
      simp [((h k).hashes hh).2] at hl
  · intro h k
    have hboth : ¬ ((F.hashes k).isSome ∧ (F.lists k).isSome) := (h 0 k).2.2
    refine ⟨fun hh => ?_, fun hl => ?_⟩
    · refine ⟨Option.not_isSome_iff_eq_none.mp fun hs => ?_,
        Option.not_isSome_iff_eq_none.mp fun hl => hboth ⟨hh, hl⟩⟩
      obtain ⟨t, ht⟩ := exists_fresh hs
      exact (h t k).1 ⟨ht, hh⟩
    · refine ⟨Option.not_isSome_iff_eq_none.mp fun hs => ?_,
        Option.not_isSome_iff_eq_none.mp fun hh => hboth ⟨hh, hl⟩⟩
      obtain ⟨t, ht⟩ := exists_fresh hs
      exact (h t k).2.1 ⟨ht, hl⟩

end FlatStore

/-! ## 2. One state -/

open Classical in
theorem exists_iff {s : KeyValueStore} {t : Time} {k : Bytes} :
    s.exists hash t k = true ↔ (s.view hash).fresh t k ∨ ((s.view hash).hashes k).isSome ∨
      ((s.view hash).lists k).isSome := by
  rw [s.exists_eq, FlatStore.exists]
  exact decide_eq_true_iff

/-- The keys of the three maps, as `size` counts them, are finitely many. -/
theorem WellPlaced.finite {s : KeyValueStore} (h : WellPlaced hash s) (t : Time) :
    {k | ∃ e, (s.view hash).strings k = some e ∧ (!e.expired t) = true}.Finite ∧
      {k | ∃ m, (s.view hash).hashes k = some m}.Finite ∧
      {k | ∃ l, (s.view hash).lists k = some l}.Finite := by
  refine ⟨finite_lookupAt h.strings fun e => (!e.expired t) = true,
    (finite_lookupAt h.hashes fun _ => True).subset ?_,
    (finite_lookupAt h.lists fun _ => True).subset ?_⟩
  · rintro k ⟨m, hm⟩
    rw [← lookupAt_hashes] at hm
    obtain ⟨fields, hfields, -⟩ := Option.map_eq_some_iff.mp hm
    exact ⟨fields, hfields, trivial⟩
  · rintro k ⟨l, hl⟩
    exact ⟨l, hl, trivial⟩

/-- **`size` is the number of keys that exist** exactly when no key is counted twice. -/
theorem WellPlaced.size_eq_iff {s : KeyValueStore} (h : WellPlaced hash s) (t : Time) :
    s.size t = {k | s.exists hash t k = true}.ncard ↔ (s.view hash).Apart t := by
  obtain ⟨hstrings, hhashes, hlists⟩ := h.finite t
  have hexists : {k | s.exists hash t k = true} =
      {k | ∃ e, (s.view hash).strings k = some e ∧ (!e.expired t) = true} ∪
        {k | ∃ m, (s.view hash).hashes k = some m} ∪
        {k | ∃ l, (s.view hash).lists k = some l} := by
    ext k
    simp only [Set.mem_ofPred_eq, Set.mem_union, exists_iff, FlatStore.fresh,
      Option.isSome_iff_exists, Bool.not_eq_true', or_assoc]
  rw [h.size_eq, FlatStore.size, hexists, ncard_union₃_eq_iff hstrings hhashes hlists]
  simp only [Set.disjoint_left, Set.mem_ofPred_eq, Set.mem_union, FlatStore.Apart,
    FlatStore.fresh, Bool.not_eq_true', Option.isSome_iff_exists]
  constructor
  · rintro ⟨hAB, hABC⟩ k
    exact ⟨fun hk => hAB hk.1 hk.2, fun hk => hABC (Or.inl hk.1) hk.2,
      fun hk => hABC (Or.inr hk.1) hk.2⟩
  · intro hapart
    refine ⟨fun k hs hh => (hapart k).1 ⟨hs, hh⟩, ?_⟩
    rintro k (hs | hh) hl
    · exact (hapart k).2.1 ⟨hs, hl⟩
    · exact (hapart k).2.2 ⟨hh, hl⟩

/-! ## 3. One operation -/

/-- A call that a command or the loader makes, or maintenance. -/
inductive StoreOp
  | call (order : IterOrder) (now : Time) (c : Call)
  | purge (order : IterOrder) (now : Time) (maxKeysPerShard : Nat)
  | evict (order : IterOrder) (sorter : SortOrder) (keysToEvict : Nat)

def StoreOp.perform (hash : Bytes → Nat) (s : KeyValueStore) : StoreOp → KeyValueStore
  | .call order now c => (s.call hash order now c).2
  | .purge order now maxKeysPerShard => (s.purgeExpiredKeys order now maxKeysPerShard).2
  | .evict order sorter keysToEvict => (s.evictLruKeys order sorter keysToEvict).2

/-- The call writes one kind of value under a key that has another. -/
def Call.Mixes (F : FlatStore) : Call → Prop
  | .set k _ _ | .incrBy k _ => (F.hashes k).isSome ∨ (F.lists k).isSome
  | .hset k _ _ => (F.strings k).isSome ∨ (F.lists k).isSome
  | .lpush k _ | .rpush k _ => (F.strings k).isSome ∨ (F.hashes k).isSome
  | _ => False

def StoreOp.Mixes (F : FlatStore) : StoreOp → Prop
  | .call _ _ c => c.Mixes F
  | _ => False

theorem Reachable.perform {s : KeyValueStore} (h : Reachable hash s) (op : StoreOp) :
    Reachable hash (op.perform hash s) := by
  cases op with
  | call order now c => exact h.call order now c
  | purge order now n => exact h.purge order now n
  | evict order sorter n => exact h.evict order sorter n

namespace FlatStore

variable {F : FlatStore} {k : Bytes}

theorem oneKind_empty : empty.OneKind :=
  fun _ => ⟨fun h => by simp [empty] at h, fun h => by simp [empty] at h⟩

/-- A string goes where there is one already, or where there is no other value. -/
theorem OneKindAt.putString (h : F.OneKindAt k) {e : Option StoreEntry}
    (he : e.isSome → (F.strings k).isSome ∨ F.hashes k = none ∧ F.lists k = none) :
    (F.putString k e).OneKindAt k := by
  obtain ⟨hh, hl⟩ := h
  constructor
  · intro hsome
    replace hh := hh hsome
    refine ⟨?_, hh.2⟩
    cases e with
    | none => exact update_self _ _ _
    | some e =>
      rcases he rfl with hs | hnone
      · simp [hh.1] at hs
      · simp [FlatStore.putString, hnone.1] at hsome
  · intro hsome
    replace hl := hl hsome
    refine ⟨?_, hl.2⟩
    cases e with
    | none => exact update_self _ _ _
    | some e =>
      rcases he rfl with hs | hnone
      · simp [hl.1] at hs
      · simp [FlatStore.putString, hnone.2] at hsome

theorem OneKindAt.putHash (h : F.OneKindAt k) {m : Option (Bytes → Option Bytes)}
    (hm : m.isSome → (F.hashes k).isSome ∨ F.strings k = none ∧ F.lists k = none) :
    (F.putHash k m).OneKindAt k := by
  obtain ⟨hh, hl⟩ := h
  constructor
  · intro hsome
    simp only [FlatStore.putHash, update_self] at hsome
    exact (hm hsome).elim hh id
  · intro hsome
    replace hl := hl hsome
    refine ⟨hl.1, ?_⟩
    cases m with
    | none => exact update_self _ _ _
    | some m =>
      rcases hm rfl with hs | hnone
      · simp [hl.2] at hs
      · simp [FlatStore.putHash, hnone.2] at hsome

theorem OneKindAt.putListAt (h : F.OneKindAt k) {l : Option (List Bytes)}
    (hl : l.isSome → (F.lists k).isSome ∨ F.strings k = none ∧ F.hashes k = none) :
    (F.putListAt k l).OneKindAt k := by
  obtain ⟨hh, hl'⟩ := h
  constructor
  · intro hsome
    replace hh := hh hsome
    refine ⟨hh.1, ?_⟩
    cases l with
    | none => exact update_self _ _ _
    | some l =>
      rcases hl rfl with hs | hnone
      · simp [hh.2] at hs
      · simp [FlatStore.putListAt, hnone.2] at hsome
  · intro hsome
    simp only [FlatStore.putListAt, update_self] at hsome
    exact (hl hsome).elim hl' id

theorem SameAt.oneKindAt {G : FlatStore} (h : SameAt k G F) (hF : F.OneKindAt k) :
    G.OneKindAt k := by
  obtain ⟨hs, hh, hl⟩ := h
  constructor
  · rw [hs, hh, hl]
    exact hF.hashes
  · rw [hs, hh, hl]
    exact hF.lists

/-- A call that mixes nothing leaves the key it is about with one kind of value. -/
theorem OneKindAt.call {now : Time} {c : Call} (h : F.OneKindAt k) (hkey : c.key? = some k)
    (hc : ¬ c.Mixes F) : (F.call now c).2.OneKindAt k := by
  cases c <;> simp only [Call.key?, Option.some.injEq, reduceCtorEq] at hkey <;> subst hkey <;>
    simp only [Call.Mixes, not_or, Option.not_isSome_iff_eq_none] at hc
  case set v t => exact h.putString fun _ => Or.inr hc
  case get =>
    simp only [FlatStore.call, get]
    split
    · exact h
    · rename_i e he
      split
      · exact h.putString (by simp)
      · exact h.putString fun _ => Or.inl (by rw [he]; rfl)
  case del => exact ⟨fun hh => by simp [FlatStore.call, del, erase] at hh,
      fun hl => by simp [FlatStore.call, del, erase] at hl⟩
  case expire t =>
    simp only [FlatStore.call, expire]
    split
    · exact h
    · rename_i e he
      split
      · exact h.putString (by simp)
      · split
        · exact h.putString fun _ => Or.inl (by rw [he]; rfl)
        · exact h.putString (by simp)
  case ttl =>
    simp only [FlatStore.call, ttl]
    split
    · exact h
    · split
      · exact h
      · split
        · exact h.putString (by simp)
        · exact h
  case incrBy d =>
    simp only [FlatStore.call, incrBy]
    split
    · exact h.putString fun _ => Or.inr hc
    · split
      · exact h.putString fun _ => Or.inr hc
      · split
        · exact h
        · exact h.putString fun _ => Or.inr hc
  case hset f v => exact h.putHash fun _ => Or.inr hc
  case hdel f =>
    simp only [FlatStore.call, hdel]
    split
    · exact h
    · rename_i fields hfields
      exact h.putHash fun _ => Or.inl (by rw [hfields]; rfl)
  case lpush v => exact h.putListAt fun _ => Or.inr hc
  case rpush v => exact h.putListAt fun _ => Or.inr hc
  case lpop =>
    simp only [FlatStore.call, lpop]
    split
    · exact h
    · rename_i v hv
      refine h.putListAt fun _ => Or.inl ?_
      by_contra hnone
      rw [Option.not_isSome_iff_eq_none] at hnone
      simp [elemsOf, hnone] at hv
  case rpop =>
    simp only [FlatStore.call, rpop]
    split
    · exact h
    · rename_i v hv
      refine h.putListAt fun _ => Or.inl ?_
      by_contra hnone
      rw [Option.not_isSome_iff_eq_none] at hnone
      simp [elemsOf, hnone] at hv
  all_goals exact h

/-- **A call that mixes nothing** keeps the maps apart. -/
theorem OneKind.call {now : Time} {c : Call} (h : F.OneKind) (hc : ¬ c.Mixes F) :
    (F.call now c).2.OneKind := by
  intro k
  rcases call_sameAt_or c k F with hsame | hkey | rfl
  · exact hsame.oneKindAt (h k)
  · exact (h k).call hkey hc
  · exact oneKind_empty k

theorem not_oneKind_of_string (hs : (F.strings k).isSome)
    (h : (F.hashes k).isSome ∨ (F.lists k).isSome) : ¬ F.OneKind := by
  intro hone
  rcases h with hh | hl
  · simp [((hone k).hashes hh).1] at hs
  · simp [((hone k).lists hl).1] at hs

theorem not_oneKind_of_hash (hh : (F.hashes k).isSome)
    (h : (F.strings k).isSome ∨ (F.lists k).isSome) : ¬ F.OneKind := by
  intro hone
  obtain ⟨hs, hl⟩ := (hone k).hashes hh
  simp [hs, hl] at h

theorem not_oneKind_of_list (hl : (F.lists k).isSome)
    (h : (F.strings k).isSome ∨ (F.hashes k).isSome) : ¬ F.OneKind := by
  intro hone
  obtain ⟨hs, hh⟩ := (hone k).lists hl
  simp [hs, hh] at h

/-- **A call that mixes** leaves two kinds of value under its key. -/
theorem not_oneKind_call {now : Time} {c : Call} (h : F.OneKind) (hc : c.Mixes F) :
    ¬ (F.call now c).2.OneKind := by
  cases c with
  | set k v t =>
    have hsome : ((F.call now (.set k v t)).2.strings k).isSome := by
      simp [FlatStore.call, FlatStore.set, FlatStore.putString]
    exact not_oneKind_of_string hsome hc
  | incrBy k d =>
    -- another map holds the key, so there is no string to add to
    have hnone : F.strings k = none := hc.elim (fun hs => ((h k).hashes hs).1)
      fun hs => ((h k).lists hs).1
    have hcall : (F.call now (.incrBy k d)).2 =
        F.putString k (some ⟨stdToString d, none, now⟩) := by
      simp only [FlatStore.call, incrBy, hnone]
    have hsome : ((F.putString k (some ⟨stdToString d, none, now⟩)).strings k).isSome := by
      simp [FlatStore.putString]
    rw [hcall]
    exact not_oneKind_of_string hsome hc
  | hset k f v =>
    have hsome : ((F.call now (.hset k f v)).2.hashes k).isSome := by
      simp [FlatStore.call, hset, FlatStore.putHash]
    exact not_oneKind_of_hash hsome hc
  | lpush k v =>
    have hsome : ((F.call now (.lpush k v)).2.lists k).isSome := by
      simp [FlatStore.call, lpush, FlatStore.putList, FlatStore.putListAt]
    exact not_oneKind_of_list hsome hc
  | rpush k v =>
    have hsome : ((F.call now (.rpush k v)).2.lists k).isSome := by
      simp [FlatStore.call, rpush, FlatStore.putList, FlatStore.putListAt]
    exact not_oneKind_of_list hsome hc
  | _ => exact hc.elim

end FlatStore

theorem LosesStrings.oneKind {s s' : KeyValueStore} (h : LosesStrings s s')
    (hs : (s.view hash).OneKind) : (s'.view hash).OneKind := by
  intro k
  have hsame : (s'.view hash).hashes k = (s.view hash).hashes k ∧
      (s'.view hash).lists k = (s.view hash).lists k := by
    simp only [KeyValueStore.view_hashes, KeyValueStore.view_lists, KeyValueStore.getShard,
      h.hashes, h.lists, and_self]
  have hnone : (s.view hash).strings k = none → (s'.view hash).strings k = none := by
    simp only [KeyValueStore.view_strings, AList.lookup_eq_none]
    exact fun hnot hmem => hnot (h.strings _ k hmem)
  constructor
  · rw [hsame.1, hsame.2]
    exact fun hh => ⟨hnone ((hs k).hashes hh).1, ((hs k).hashes hh).2⟩
  · rw [hsame.1, hsame.2]
    exact fun hl => ⟨hnone ((hs k).lists hl).1, ((hs k).lists hl).2⟩

/-- **One operation** keeps the maps apart exactly when it mixes nothing. -/
theorem oneKind_perform_iff {s : KeyValueStore} (h : (s.view hash).OneKind) (op : StoreOp) :
    ((op.perform hash s).view hash).OneKind ↔ ¬ op.Mixes (s.view hash) := by
  cases op with
  | call order now c =>
    rw [StoreOp.perform, s.view_call]
    exact ⟨fun hafter hc => FlatStore.not_oneKind_call h hc hafter, h.call⟩
  | purge order now n => exact iff_of_true ((losesStrings_purge order now n s).oneKind h) id
  | evict order sorter n => exact iff_of_true ((losesStrings_evict order sorter n s).oneKind h) id

/-! ## 4. Runs -/

/-- At every instant `size` is the number of keys that exist. -/
def KeyValueStore.CountsKeys (hash : Bytes → Nat) (s : KeyValueStore) : Prop :=
  ∀ t, s.size t = {k | s.exists hash t k = true}.ncard

theorem WellPlaced.countsKeys_iff {s : KeyValueStore} (h : WellPlaced hash s) :
    s.CountsKeys hash ↔ (s.view hash).OneKind := by
  rw [FlatStore.oneKind_iff]
  exact forall_congr' fun t => h.size_eq_iff t

theorem Reachable.foldl_perform {s : KeyValueStore} (h : Reachable hash s)
    (ops : List StoreOp) : Reachable hash (ops.foldl (StoreOp.perform hash) s) := by
  induction ops generalizing s with
  | nil => exact h
  | cons op ops ih => exact ih (h.perform op)

/-- The reachable stores are those that operations leave. -/
theorem reachable_iff {s : KeyValueStore} :
    Reachable hash s ↔ ∃ ops, s = List.foldl (StoreOp.perform hash) KeyValueStore.empty ops := by
  constructor
  · intro h
    induction h with
    | empty => exact ⟨[], rfl⟩
    | call _ order now c ih =>
      obtain ⟨ops, rfl⟩ := ih
      exact ⟨ops ++ [.call order now c], by rw [List.foldl_append]; rfl⟩
    | purge _ order now n ih =>
      obtain ⟨ops, rfl⟩ := ih
      exact ⟨ops ++ [.purge order now n], by rw [List.foldl_append]; rfl⟩
    | evict _ order sorter n ih =>
      obtain ⟨ops, rfl⟩ := ih
      exact ⟨ops ++ [.evict order sorter n], by rw [List.foldl_append]; rfl⟩
  · rintro ⟨ops, rfl⟩
    exact Reachable.empty.foldl_perform ops

/-- **`size` counts the keys that exist**: in a state, at an instant at which no key has two
kinds of value, and only then; throughout a run, if no call of it writes under a key that
another map holds, and only then. -/
theorem size_iff (hash : Bytes → Nat) (ops : List StoreOp) :
    (∀ t, let s := ops.foldl (StoreOp.perform hash) KeyValueStore.empty
      s.size t = {k | s.exists hash t k = true}.ncard ↔ (s.view hash).Apart t) ∧
    (Always (StoreOp.perform hash) (KeyValueStore.CountsKeys hash) ops KeyValueStore.empty ↔
      Steps (StoreOp.perform hash) (fun s op => ¬ op.Mixes (s.view hash)) ops
        KeyValueStore.empty) := by
  constructor
  · intro t s
    exact (Reachable.empty.foldl_perform ops).wellPlaced.size_eq_iff t
  · have hall : Steps (StoreOp.perform hash) (fun _ _ => True) ops KeyValueStore.empty :=
      steps_of_forall (C := fun _ => True) (fun _ _ => trivial) _
    refine always_iff_steps (I := fun s => Reachable hash s ∧ (s.view hash).OneKind)
      (H := fun _ _ => True) ?_ ?_ ?_ ⟨Reachable.empty, FlatStore.oneKind_empty⟩ hall
    · intro s hs
      exact hs.1.wellPlaced.countsKeys_iff.mpr hs.2
    · intro s op hs _ hop
      exact ⟨hs.1.perform op, (oneKind_perform_iff hs.2 op).mpr hop⟩
    · intro s op hs _ hop hcounts
      have hafter := (hs.1.perform op).wellPlaced.countsKeys_iff.mp hcounts
      exact hop ((oneKind_perform_iff hs.2 op).mp hafter)

/-- **One key, counted twice**: `SET` and then `HSET` on it. -/
theorem not_countsKeys_of_mixed :
    let hash : Bytes → Nat := fun _ => 0
    let key : Bytes := [107]
    let s := (KeyValueStore.empty.runCalls hash [⟨0, IterOrder.plain, .set key [118] none⟩,
      ⟨0, IterOrder.plain, .hset key [102] [118]⟩]).2
    Reachable hash s ∧ s.size 0 = 2 ∧ {k | s.exists hash 0 k = true} = {key} ∧
      ¬ s.CountsKeys hash := by
  intro hash key s
  have hsize : s.size 0 = 2 := by decide
  have hexists : {k | s.exists hash 0 k = true} = {key} := by
    ext k
    rw [Set.mem_ofPred_eq, Set.mem_singleton_iff]
    constructor
    · intro hk
      by_contra hne
      have hshard : s.getShard hash k = ⟨AList.insert key ⟨[118], none, 0⟩ ∅,
          AList.insert key (AList.insert [102] [118] ∅) ∅, ∅⟩ := by rfl
      rw [KeyValueStore.exists, hshard] at hk
      simp only [StoreShard.exists, AList.lookup_insert_ne hne, AList.lookup_empty] at hk
      exact absurd hk (by decide)
    · rintro rfl
      decide
  refine ⟨Reachable.empty.runCalls _, hsize, hexists, fun h => ?_⟩
  have hcount := h 0
  rw [hsize, hexists, Set.ncard_singleton] at hcount
  exact absurd hcount (by decide)

end KeyValueDb
