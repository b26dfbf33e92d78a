/-
# What eviction takes

`evict_lru_keys` looks at ten entries of a shard at most, sorts what it has seen by the time of
the last access, and erases from the front.  Run alone, it erases as many entries as it is
asked for or as it has sampled, whichever is less, and these are the oldest of the sample;
nothing else changes (`evicts_oldest`).
-/
import KeyValueDb.Janitor.Eviction

namespace KeyValueDb

open Lib Function

variable {order : IterOrder} {sorter : SortOrder} {s : KeyValueStore} {v : KeyTimestamp}

/-! ## 1. The sample -/

theorem length_sample (order : IterOrder) (sh : StoreShard) :
    (sh.sample order).length = min 10 sh.stringMap.entries.length := by
  rw [StoreShard.sample, List.length_map, List.length_take,
    (order.perm sh.stringMap.entries).length_eq]

theorem length_candidates (order : IterOrder) (s : KeyValueStore) :
    (s.candidates order).length =
      ((List.finRange numShards).map fun i =>
        min 10 (s.shards i).stringMap.entries.length).sum := by
  simp only [KeyValueStore.candidates, List.length_flatMap, List.length_map, length_sample]

/-- A sampled entry is there, with the stamp that was sampled. -/
theorem lookup_candidate (h : v ∈ s.candidates order) :
    ∃ e, (s.shards v.shardIdx).stringMap.lookup v.key = some e ∧
      e.lastAccessed = v.lastAccessed := by
  obtain ⟨i, -, hi⟩ := List.mem_flatMap.mp h
  obtain ⟨y, hy, rfl⟩ := List.mem_map.mp hi
  obtain ⟨e, he⟩ := Option.isSome_iff_exists.mp
    (AList.lookup_isSome.mpr (mem_of_mem_candidates h))
  exact ⟨e, he, Eviction.lastAccessed_of_mem_sample hy he⟩

/-- **No entry is sampled twice.** -/
theorem nodup_candidates (order : IterOrder) (s : KeyValueStore) :
    ((s.candidates order).map KeyTimestamp.place).Nodup := by
  have hplaces : (s.candidates order).map KeyTimestamp.place =
      (List.finRange numShards).flatMap fun i =>
        (((order.iter (s.shards i).stringMap.entries).take 10).map Sigma.fst).map
          fun k => (i, k) := by
    simp only [KeyValueStore.candidates, List.map_flatMap, StoreShard.sample, List.map_map]
    rfl
  rw [hplaces, List.nodup_flatMap]
  constructor
  · intro i _
    have hkeys : ((order.iter (s.shards i).stringMap.entries).map Sigma.fst).Nodup :=
      ((order.perm _).map Sigma.fst).nodup_iff.mpr (s.shards i).stringMap.keys_nodup
    exact (hkeys.sublist ((List.take_sublist 10 _).map Sigma.fst)).map
      fun k k' h => (Prod.mk.inj h).2
  · refine (List.nodup_finRange numShards).imp fun {i j} hne => ?_
    intro place hi hj
    obtain ⟨k, -, rfl⟩ := List.mem_map.mp hi
    obtain ⟨k', -, heq⟩ := List.mem_map.mp hj
    exact hne (Prod.mk.inj heq).1.symm

/-! ## 2. Erasing the victims -/

/-- One victim: its entry goes, the others stay as they are. -/
theorem lookup_evictOne_eq (v : KeyTimestamp) (acc : Nat × KeyValueStore) (i : Fin numShards)
    (k : Bytes) :
    ((KeyValueStore.evictOne v acc).2.shards i).stringMap.lookup k =
      if (i, k) = v.place then none else (acc.2.shards i).stringMap.lookup k := by
  rw [evictOne_store]
  dsimp only
  by_cases hi : i = v.shardIdx
  · subst hi
    rw [update_self]
    by_cases hk : k = v.key
    · subst hk
      rw [StoreShard.lookup_putString]
      exact (if_pos (show (v.shardIdx, v.key) = v.place from rfl)).symm
    · rw [StoreShard.lookup_putString_ne hk]
      exact (if_neg fun h : (v.shardIdx, k) = v.place => hk (Prod.mk.inj h).2).symm
  · rw [update_of_ne hi]
    exact (if_neg fun h : (i, k) = v.place => hi (Prod.mk.inj h).1).symm

/-- **All victims**: their entries go, the others stay as they are. -/
theorem lookup_evicted (victims : List KeyTimestamp) (acc : Nat × KeyValueStore)
    (i : Fin numShards) (k : Bytes) :
    ((victims.foldl (fun acc v => KeyValueStore.evictOne v acc) acc).2.shards
      i).stringMap.lookup k =
      if (i, k) ∈ victims.map KeyTimestamp.place then none
      else (acc.2.shards i).stringMap.lookup k := by
  induction victims generalizing acc with
  | nil => simp
  | cons v vs ih =>
    rw [List.foldl_cons, ih, lookup_evictOne_eq, List.map_cons]
    by_cases hv : (i, k) = v.place
    · simp only [hv, List.mem_cons_self, if_true, ite_self]
    · simp only [List.mem_cons, hv, false_or, if_false]

/-- **The count**: victims that are all there, none of them twice, are counted and gone. -/
theorem count_evicted (victims : List KeyTimestamp) (acc : Nat × KeyValueStore)
    (hnodup : (victims.map KeyTimestamp.place).Nodup)
    (hthere : ∀ v ∈ victims, v.key ∈ (acc.2.shards v.shardIdx).stringMap) :
    (victims.foldl (fun acc v => KeyValueStore.evictOne v acc) acc).1 =
        acc.1 + victims.length ∧
      (victims.foldl (fun acc v => KeyValueStore.evictOne v acc) acc).2.stringEntries +
        victims.length = acc.2.stringEntries := by
  induction victims generalizing acc with
  | nil => exact ⟨(Nat.add_zero _).symm, Nat.add_zero _⟩
  | cons v vs ih =>
    rw [List.map_cons, List.nodup_cons] at hnodup
    have hv : v.key ∈ (acc.2.shards v.shardIdx).stringMap := hthere v List.mem_cons_self
    have hone := stringEntries_evictOne acc hv
    have hcount : (KeyValueStore.evictOne v acc).1 = acc.1 + 1 := by
      unfold KeyValueStore.evictOne
      exact if_pos (AList.lookup_isSome.mpr hv)
    have hstay : ∀ w ∈ vs,
        w.key ∈ ((KeyValueStore.evictOne v acc).2.shards w.shardIdx).stringMap := by
      intro w hw
      have hne : (w.shardIdx, w.key) ≠ v.place := fun he =>
        hnodup.1 (he ▸ List.mem_map.mpr ⟨w, hw, rfl⟩)
      rw [← AList.lookup_isSome, lookup_evictOne_eq, if_neg hne, AList.lookup_isSome]
      exact hthere w (List.mem_cons_of_mem v hw)
    obtain ⟨hfst, hsnd⟩ := ih (KeyValueStore.evictOne v acc) hnodup.2 hstay
    rw [hcount] at hfst
    rw [List.foldl_cons, List.length_cons]
    refine ⟨by omega, ?_⟩
    rw [← Nat.add_assoc, hsnd, hone]

/-! ## 3. The whole call -/

/-- `evict_lru_keys` erased the oldest of its sample, as many as it was asked for if it sampled
that many, and left all other entries and all hashes and lists as they were. -/
structure KeyValueStore.EvictsOldest (order : IterOrder) (n : Nat) (s : KeyValueStore)
    (r : Nat × KeyValueStore) : Prop where
  returned : r.1 = min n ((List.finRange numShards).map fun i =>
    min 10 (s.shards i).stringMap.entries.length).sum
  removed : r.2.stringEntries + r.1 = s.stringEntries
  oldest : ∀ i k e, (s.shards i).stringMap.lookup k = some e →
    (r.2.shards i).stringMap.lookup k = none →
      ∀ v ∈ s.candidates order, ∀ e',
        (r.2.shards v.shardIdx).stringMap.lookup v.key = some e' →
          e.lastAccessed ≤ e'.lastAccessed
  strings : ∀ i k, (r.2.shards i).stringMap.lookup k = (s.shards i).stringMap.lookup k ∨
    (r.2.shards i).stringMap.lookup k = none ∧
      (i, k) ∈ (s.candidates order).map KeyTimestamp.place
  hashes : ∀ i, (r.2.shards i).hashMap = (s.shards i).hashMap
  lists : ∀ i, (r.2.shards i).listMap = (s.shards i).listMap

/-- **Eviction removes the oldest of its sample and nothing else**, in every store and whatever
the iteration order and the sorting of ties. -/
theorem evicts_oldest (order : IterOrder) (sorter : SortOrder) (n : Nat) (s : KeyValueStore) :
    s.EvictsOldest order n (s.evictLruKeys order sorter n) := by
  have hperm := sorter.perm (s.candidates order)
  have hsampled : ∀ v ∈ (sorter.sort (s.candidates order)).take n, v ∈ s.candidates order :=
    fun v hv => hperm.mem_iff.mp (List.mem_of_mem_take hv)
  have hnodup : (((sorter.sort (s.candidates order)).take n).map KeyTimestamp.place).Nodup :=
    ((hperm.map KeyTimestamp.place).nodup_iff.mpr (nodup_candidates order s)).sublist
      ((List.take_sublist n _).map KeyTimestamp.place)
  have hlength : ((sorter.sort (s.candidates order)).take n).length =
      min n ((List.finRange numShards).map fun i =>
        min 10 (s.shards i).stringMap.entries.length).sum := by
    rw [List.length_take, hperm.length_eq, length_candidates]
  obtain ⟨hcount, hentries⟩ := count_evicted ((sorter.sort (s.candidates order)).take n) (0, s)
    hnodup fun v hv => mem_of_mem_candidates (hsampled v hv)
  have hlookup := lookup_evicted ((sorter.sort (s.candidates order)).take n) (0, s)
  have hloses := losesStrings_evict order sorter n s
  rw [Nat.zero_add] at hcount
  refine ⟨hcount.trans hlength, ?_, ?_, ?_, hloses.hashes, hloses.lists⟩
  · rw [KeyValueStore.evictLruKeys, hcount]
    exact hentries
  · intro i k e he hgone v hv e' he'
    rw [KeyValueStore.evictLruKeys, hlookup] at hgone he'
    -- the removed entry is in front, the one that survives behind
    have hfront : (i, k) ∈ ((sorter.sort (s.candidates order)).take n).map KeyTimestamp.place := by
      by_contra hnot
      rw [if_neg hnot, he] at hgone
      cases hgone
    have hsurvives : (v.shardIdx, v.key) ∉
        ((sorter.sort (s.candidates order)).take n).map KeyTimestamp.place := by
      intro hmem
      rw [if_pos hmem] at he'
      cases he'
    rw [if_neg hsurvives] at he'
    obtain ⟨w, hw, hplace⟩ := List.mem_map.mp hfront
    obtain ⟨rfl, rfl⟩ := Prod.mk.inj hplace
    obtain ⟨e₁, he₁, hstamp⟩ := lookup_candidate (hsampled w hw)
    obtain ⟨e₂, he₂, hstamp'⟩ := lookup_candidate hv
    have hback : v ∈ (sorter.sort (s.candidates order)).drop n := by
      have hall := hperm.mem_iff.mpr hv
      rw [← List.take_append_drop n (sorter.sort (s.candidates order))] at hall
      exact (List.mem_append.mp hall).resolve_left fun h => hsurvives (List.mem_map_of_mem h)
    have hsorted := sorter.sorted (s.candidates order)
    rw [← List.take_append_drop n (sorter.sort (s.candidates order)), List.pairwise_append]
      at hsorted
    have hle := hsorted.2.2 w hw v hback
    rw [he, Option.some.injEq] at he₁
    rw [he', Option.some.injEq] at he₂
    rw [he₁, he₂, hstamp, hstamp']
    exact hle
  · intro i k
    rw [KeyValueStore.evictLruKeys, hlookup]
    split
    · rename_i hmem
      obtain ⟨v, hv, hplace⟩ := List.mem_map.mp hmem
      exact Or.inr ⟨rfl, List.mem_map.mpr ⟨v, hsampled v hv, hplace⟩⟩
    · exact Or.inl rfl

end KeyValueDb
