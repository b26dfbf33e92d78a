/-
# The key limit

Every 100 ms the janitor thread purges, looks at `size()` and, when that is over `max_keys`,
asks `evict_lru_keys` for the difference.  `size` counts strings that have not expired, hashes
and lists.  Eviction erases strings only, expired ones too, at most ten of a shard.

So a pass never evicts below the limit (`le_size_janitorPass`), and a pass that starts over the
limit erases a string entry as long as there is one that `size` counts
(`stringEntries_janitorPass`).  Hashes and lists stay (`others_passes`): the limit is enforced
exactly when these alone do not exceed it (`limitEnforced_iff`).
-/
import KeyValueDb.Store.Contents
import KeyValueDb.Store.Purge
import Mathlib.Algebra.Order.BigOperators.Group.List
import Mathlib.Data.List.Sort

namespace KeyValueDb

open Lib Function

/-! ## 1. The passes of the janitor -/

/-- What the implementation chooses in one pass. -/
structure JanitorChoice where
  purgeOrder : IterOrder
  evictOrder : IterOrder
  sorter : SortOrder

namespace KeyValueStore

/-- One pass of `janitor_thread`, with the clock at `now` throughout. -/
def janitorPass (now : Time) (maxKeys : Nat) (c : JanitorChoice) (s : KeyValueStore) :
    KeyValueStore :=
  let purged := (s.purgeExpiredKeys c.purgeOrder now 20).2
  let currentSize := purged.size now
  if maxKeys < currentSize then
    (purged.evictLruKeys c.evictOrder c.sorter (currentSize - maxKeys)).2
  else purged

/-- The first `n` passes. -/
def passes (now : Time) (maxKeys : Nat) (choice : Nat → JanitorChoice) (s : KeyValueStore) :
    Nat → KeyValueStore
  | 0 => s
  | n + 1 => (passes now maxKeys choice s n).janitorPass now maxKeys (choice n)

/-- Passes without client commands in between bring the store to the limit, and none of them
goes from the limit to below it. -/
def LimitEnforced (now : Time) (maxKeys : Nat) (s : KeyValueStore) : Prop :=
  ∀ choice : Nat → JanitorChoice,
    (∃ n, (s.passes now maxKeys choice n).size now ≤ maxKeys) ∧
      ∀ n, maxKeys ≤ (s.passes now maxKeys choice n).size now →
        maxKeys ≤ (s.passes now maxKeys choice (n + 1)).size now

/-- The keys that hold a hash, and those that hold a list. -/
def others (s : KeyValueStore) : Nat :=
  ((List.finRange numShards).map fun i =>
    (s.shards i).hashMap.entries.length + (s.shards i).listMap.entries.length).sum

/-- The string entries, expired or not. -/
def stringEntries (s : KeyValueStore) : Nat :=
  ((List.finRange numShards).map fun i => (s.shards i).stringMap.entries.length).sum

end KeyValueStore

/-- An implementation of `std::sort`. -/
def SortOrder.insertion : SortOrder where
  sort l := l.insertionSort fun a b => a.lastAccessed ≤ b.lastAccessed
  perm l := List.perm_insertionSort _ l
  sorted l := by
    have : Std.Total fun a b : KeyTimestamp => a.lastAccessed ≤ b.lastAccessed :=
      ⟨fun a b => le_total a.lastAccessed b.lastAccessed⟩
    have : IsTrans KeyTimestamp fun a b => a.lastAccessed ≤ b.lastAccessed :=
      ⟨fun _ _ _ => le_trans⟩
    exact List.pairwise_insertionSort _ l

/-! ## 2. Counting -/

variable {now : Time} {maxKeys : Nat} {s s' : KeyValueStore}

theorem LosesStrings.others_eq (h : LosesStrings s s') : s'.others = s.others := by
  unfold KeyValueStore.others
  simp only [h.hashes, h.lists]

theorem LosesStrings.stringEntries_le (h : LosesStrings s s') :
    s'.stringEntries ≤ s.stringEntries := by
  refine List.sum_le_sum fun i _ => ?_
  have hsub : (s'.shards i).stringMap.keys ⊆ (s.shards i).stringMap.keys := fun k hk =>
    AList.mem_keys.mp (h.strings i k (AList.mem_keys.mpr hk))
  have hlen := ((s'.shards i).stringMap.keys_nodup.subperm hsub).length_le
  simpa only [AList.keys, List.keys, List.length_map] using hlen

theorem others_le_size (now : Time) (s : KeyValueStore) : s.others ≤ s.size now := by
  refine List.sum_le_sum fun i _ => ?_
  unfold StoreShard.size
  omega

theorem size_le (now : Time) (s : KeyValueStore) : s.size now ≤ s.stringEntries + s.others := by
  unfold KeyValueStore.size KeyValueStore.stringEntries KeyValueStore.others
  rw [← List.sum_map_add]
  refine List.sum_le_sum fun i _ => ?_
  have hcount := List.countP_le_length (p := fun x : Sigma fun _ : Bytes => StoreEntry =>
    !x.2.expired now) (l := (s.shards i).stringMap.entries)
  unfold StoreShard.size
  omega

/-- Erasing one string takes at most one key off the count. -/
theorem le_size_eraseString (now : Time) (key : Bytes) (sh : StoreShard) :
    sh.size now ≤ (sh.putString key none).size now + 1 := by
  unfold StoreShard.size StoreShard.putString
  rcases entries_erase_cases sh.stringMap key with ⟨-, he⟩ | ⟨e, l, l', hl, he⟩
  · dsimp only
    rw [he]
    omega
  · dsimp only
    rw [he, hl, List.countP_append, List.countP_append, List.countP_cons]
    split <;> omega

theorem stringEntries_eraseString {key : Bytes} {sh : StoreShard} (h : key ∈ sh.stringMap) :
    (sh.putString key none).stringMap.entries.length + 1 = sh.stringMap.entries.length := by
  unfold StoreShard.putString
  rcases entries_erase_cases sh.stringMap key with ⟨hnot, -⟩ | ⟨e, l, l', hl, he⟩
  · exact absurd h hnot
  · rw [he, hl]
    simp only [List.length_append, List.length_cons]
    omega

/-! ## 3. Evicting -/

/-- One victim takes at most one key off the count. -/
theorem le_size_evictOne (now : Time) (victim : KeyTimestamp) (acc : Nat × KeyValueStore) :
    acc.2.size now ≤ (KeyValueStore.evictOne victim acc).2.size now + 1 := by
  have hsh := le_size_eraseString now victim.key (acc.2.shards victim.shardIdx)
  have hsum := sum_update (fun i => (acc.2.shards i).size now) victim.shardIdx
    (((acc.2.shards victim.shardIdx).putString victim.key none).size now)
  rw [← field_update fun sh => sh.size now] at hsum
  rw [evictOne_store]
  unfold KeyValueStore.size
  dsimp only
  omega

/-- A victim that is still there is one string entry less. -/
theorem stringEntries_evictOne {victim : KeyTimestamp} (acc : Nat × KeyValueStore)
    (h : victim.key ∈ (acc.2.shards victim.shardIdx).stringMap) :
    (KeyValueStore.evictOne victim acc).2.stringEntries + 1 = acc.2.stringEntries := by
  have hsh := stringEntries_eraseString h
  have hsum := sum_update (fun i => (acc.2.shards i).stringMap.entries.length) victim.shardIdx
    ((acc.2.shards victim.shardIdx).putString victim.key none).stringMap.entries.length
  rw [← field_update fun sh => sh.stringMap.entries.length] at hsum
  rw [evictOne_store]
  unfold KeyValueStore.stringEntries
  dsimp only
  omega

theorem le_size_foldl_evictOne (now : Time) (victims : List KeyTimestamp)
    (acc : Nat × KeyValueStore) :
    acc.2.size now ≤
      (victims.foldl (fun acc v => KeyValueStore.evictOne v acc) acc).2.size now +
        victims.length := by
  induction victims generalizing acc with
  | nil => rw [List.foldl_nil, List.length_nil, Nat.add_zero]
  | cons v vs ih =>
    have hone := le_size_evictOne now v acc
    have hrest := ih (KeyValueStore.evictOne v acc)
    rw [List.foldl_cons, List.length_cons]
    omega

/-- **Evicting `n` keys** takes at most `n` off the count. -/
theorem le_size_evictLruKeys (now : Time) (order : IterOrder) (sorter : SortOrder) (n : Nat)
    (s : KeyValueStore) : s.size now ≤ (s.evictLruKeys order sorter n).2.size now + n := by
  have hfold := le_size_foldl_evictOne now ((sorter.sort (s.candidates order)).take n) (0, s)
  have hlen := List.length_take_le n (sorter.sort (s.candidates order))
  unfold KeyValueStore.evictLruKeys
  dsimp only at hfold
  omega

/-- What is sampled is there. -/
theorem mem_of_mem_candidates {order : IterOrder} {v : KeyTimestamp}
    (h : v ∈ s.candidates order) : v.key ∈ (s.shards v.shardIdx).stringMap := by
  obtain ⟨i, -, hi⟩ := List.mem_flatMap.mp h
  obtain ⟨⟨k, t⟩, hk, rfl⟩ := List.mem_map.mp hi
  obtain ⟨x, hx, heq⟩ := List.mem_map.mp hk
  obtain ⟨rfl, rfl⟩ := Prod.mk.inj heq
  have hmem := (order.perm _).mem_iff.mp (List.mem_of_mem_take hx)
  exact AList.mem_keys.mpr (List.mem_map.mpr ⟨x, hmem, rfl⟩)

/-- As long as there is a string, there is one to evict. -/
theorem candidates_ne_nil (order : IterOrder) (h : 0 < s.stringEntries) :
    s.candidates order ≠ [] := by
  intro hnil
  have hzero : s.stringEntries = 0 := by
    refine List.sum_eq_zero fun n hn => ?_
    obtain ⟨i, hi, rfl⟩ := List.mem_map.mp hn
    have hnone := List.flatMap_eq_nil_iff.mp hnil i hi
    rw [List.map_eq_nil_iff, StoreShard.sample, List.map_eq_nil_iff, List.take_eq_nil_iff]
      at hnone
    rw [← (order.perm (s.shards i).stringMap.entries).length_eq,
      hnone.resolve_left (by decide), List.length_nil]
  omega

/-- **Evicting leaves fewer string entries**, as long as there are any. -/
theorem stringEntries_evictLruKeys {order : IterOrder} {sorter : SortOrder} {n : Nat}
    (hn : 0 < n) (h : 0 < s.stringEntries) :
    (s.evictLruKeys order sorter n).2.stringEntries < s.stringEntries := by
  unfold KeyValueStore.evictLruKeys
  cases hsort : sorter.sort (s.candidates order) with
  | nil =>
    have hperm := sorter.perm (s.candidates order)
    rw [hsort] at hperm
    exact absurd hperm.symm.eq_nil (candidates_ne_nil order h)
  | cons v vs =>
    have hv : v ∈ s.candidates order :=
      (sorter.perm _).mem_iff.mp (by rw [hsort]; exact List.mem_cons_self)
    obtain ⟨m, rfl⟩ := Nat.exists_eq_succ_of_ne_zero hn.ne'
    rw [List.take_succ_cons, List.foldl_cons]
    exact (losesStrings_foldl_evictOne (vs.take m) _).stringEntries_le.trans_lt
      (Nat.lt_of_succ_le (stringEntries_evictOne (0, s) (mem_of_mem_candidates hv)).le)

/-! ## 4. One pass -/

theorem losesStrings_janitorPass (now : Time) (maxKeys : Nat) (c : JanitorChoice)
    (s : KeyValueStore) : LosesStrings s (s.janitorPass now maxKeys c) := by
  have hpurge := losesStrings_purge c.purgeOrder now 20 s
  unfold KeyValueStore.janitorPass
  dsimp only
  split
  · exact hpurge.trans (losesStrings_evict _ _ _ _)
  · exact hpurge

theorem size_purge (order : IterOrder) (now : Time) (n : Nat) (s : KeyValueStore) :
    (s.purgeExpiredKeys order now n).2.size now = s.size now :=
  (KeyValueStore.Purged.purge order now n s).size

/-- **A pass does not evict below the limit.** -/
theorem le_size_janitorPass (c : JanitorChoice) (h : maxKeys ≤ s.size now) :
    maxKeys ≤ (s.janitorPass now maxKeys c).size now := by
  have hsize := size_purge c.purgeOrder now 20 s
  unfold KeyValueStore.janitorPass
  dsimp only
  split
  · have hevict := le_size_evictLruKeys now c.evictOrder c.sorter
      ((s.purgeExpiredKeys c.purgeOrder now 20).2.size now - maxKeys)
      (s.purgeExpiredKeys c.purgeOrder now 20).2
    omega
  · omega

/-- **A pass over the limit erases a string entry**, unless hashes and lists are all there
is. -/
theorem stringEntries_janitorPass (c : JanitorChoice) (h : maxKeys < s.size now)
    (hothers : s.others ≤ maxKeys) :
    (s.janitorPass now maxKeys c).stringEntries < s.stringEntries := by
  have hpurge := losesStrings_purge c.purgeOrder now 20 s
  have hsize := size_purge c.purgeOrder now 20 s
  have hle := size_le now (s.purgeExpiredKeys c.purgeOrder now 20).2
  rw [hsize, hpurge.others_eq] at hle
  unfold KeyValueStore.janitorPass
  dsimp only
  rw [hsize, if_pos h]
  exact (stringEntries_evictLruKeys (by omega) (by omega)).trans_le hpurge.stringEntries_le

/-! ## 5. All passes -/

theorem losesStrings_passes (now : Time) (maxKeys : Nat) (choice : Nat → JanitorChoice)
    (s : KeyValueStore) (n : Nat) : LosesStrings s (s.passes now maxKeys choice n) := by
  induction n with
  | zero => exact LosesStrings.refl s
  | succ n ih => exact ih.trans (losesStrings_janitorPass now maxKeys (choice n) _)

/-- No number of passes gets rid of a hash or a list. -/
theorem others_passes (now : Time) (maxKeys : Nat) (choice : Nat → JanitorChoice)
    (s : KeyValueStore) (n : Nat) : s.others ≤ (s.passes now maxKeys choice n).size now := by
  rw [← (losesStrings_passes now maxKeys choice s n).others_eq]
  exact others_le_size now _

/-- While the passes are over the limit, each takes a string entry. -/
theorem stringEntries_passes (choice : Nat → JanitorChoice) (hothers : s.others ≤ maxKeys)
    (n : Nat) (h : ∀ m < n, maxKeys < (s.passes now maxKeys choice m).size now) :
    (s.passes now maxKeys choice n).stringEntries + n ≤ s.stringEntries := by
  induction n with
  | zero => rw [KeyValueStore.passes, Nat.add_zero]
  | succ n ih =>
    have hrest := ih fun m hm => h m (by omega)
    have hlast := stringEntries_janitorPass (choice n) (h n (by omega))
      ((losesStrings_passes now maxKeys choice s n).others_eq.trans_le hothers)
    rw [KeyValueStore.passes]
    omega

theorem exists_size_passes_le (choice : Nat → JanitorChoice) (hothers : s.others ≤ maxKeys) :
    ∃ n, (s.passes now maxKeys choice n).size now ≤ maxKeys := by
  by_contra hover
  have hlt : ∀ n, maxKeys < (s.passes now maxKeys choice n).size now := fun n =>
    not_le.mp fun hle => hover ⟨n, hle⟩
  have hall := stringEntries_passes choice hothers (s.stringEntries + 1) fun m _ => hlt m
  omega

/-- **The limit is enforced** exactly when the hashes and lists alone do not exceed it. -/
theorem limitEnforced_iff (now : Time) (maxKeys : Nat) (s : KeyValueStore) :
    s.LimitEnforced now maxKeys ↔ s.others ≤ maxKeys := by
  constructor
  · intro h
    obtain ⟨n, hn⟩ := (h fun _ => ⟨IterOrder.plain, IterOrder.plain, SortOrder.insertion⟩).1
    exact (others_passes now maxKeys _ s n).trans hn
  · intro hothers choice
    exact ⟨exists_size_passes_le choice hothers, fun n hn => le_size_janitorPass (choice n) hn⟩

/-- **A hash is never evicted**: one `HSET`, and a limit of no keys at all. -/
theorem not_limitEnforced_of_hash :
    let hash : Bytes → Nat := fun _ => 0
    let s := (KeyValueStore.empty.call hash IterOrder.plain 0 (.hset [104] [102] [118])).2
    Reachable hash s ∧ ¬ s.LimitEnforced 0 0 := by
  intro hash s
  refine ⟨Reachable.empty.call IterOrder.plain 0 _, fun h => ?_⟩
  have hothers : s.others = 1 := by decide
  obtain ⟨n, hn⟩ := (h fun _ => ⟨IterOrder.plain, IterOrder.plain, SortOrder.insertion⟩).1
  have hstays := others_passes 0 0
    (fun _ => ⟨IterOrder.plain, IterOrder.plain, SortOrder.insertion⟩) s n
  omega

end KeyValueDb
