/-
# Contents of a store, and which stores there are

What a client can observe of a store is less than its state: the time of the last access is
never reported, and an expired string counts as absent.  `contents`, `visible` and `values`
keep, in this order, less and less of it.

`Reachable` is every store that some sequence of calls, purges and evictions leaves.  Two
facts hold of all of them: keys are where their hash says (`Reachable.wellPlaced`), and no key
holds an empty hash or an empty list (`Reachable.noEmpty`), because an operation that empties
one erases it.
-/
import KeyValueDb.Store.Refine

namespace KeyValueDb

open Lib Function

variable {hash : Bytes → Nat}

/-! ## 1. What can be observed -/

/-- The three maps, with what `α` keeps of a string. -/
@[ext] structure Contents (α : Type) where
  strings : Bytes → Option α
  hashes : Bytes → Option (Bytes → Option Bytes)
  lists : Bytes → Option (List Bytes)

theorem Contents.ext_keys {α : Type} {C D : Contents α}
    (hs : ∀ k, C.strings k = D.strings k) (hh : ∀ k, C.hashes k = D.hashes k)
    (hl : ∀ k, C.lists k = D.lists k) : C = D :=
  Contents.ext (funext hs) (funext hh) (funext hl)

namespace FlatStore

/-- All entries, the strings with their deadlines. -/
def contents (F : FlatStore) : Contents (Bytes × Option Time) where
  strings key := (F.strings key).map fun e => (e.value, e.expiresAt)
  hashes := F.hashes
  lists := F.lists

/-- The same without the strings that have expired. -/
def visible (now : Time) (F : FlatStore) : Contents (Bytes × Option Time) where
  strings key := ((F.strings key).filter fun e => !e.expired now).map
    fun e => (e.value, e.expiresAt)
  hashes := F.hashes
  lists := F.lists

/-- All entries, the strings without their deadlines. -/
def values (F : FlatStore) : Contents Bytes where
  strings key := (F.strings key).map StoreEntry.value
  hashes := F.hashes
  lists := F.lists

/-- Replacing a string by one that looks the same changes nothing that is visible. -/
theorem visible_putString {now : Time} {key : Bytes} {e : Option StoreEntry} {F : FlatStore}
    (h : ((e.filter fun e => !e.expired now).map fun e => (e.value, e.expiresAt)) =
      (F.visible now).strings key) :
    (F.putString key e).visible now = F.visible now := by
  apply Contents.ext_keys
  · intro k
    by_cases hk : k = key
    · subst hk; simpa [visible, putString] using h
    · simp [visible, putString, update_of_ne hk]
  · intro k; rfl
  · intro k; rfl

/-- A lookup changes nothing that is visible: it stamps the entry or erases an expired one. -/
theorem visible_get (now : Time) (key : Bytes) (F : FlatStore) :
    (F.get now key).2.visible now = F.visible now := by
  unfold get
  split
  · rfl
  · rename_i e he
    split
    · rename_i hx
      exact visible_putString (by simp [visible, he, hx, Option.filter])
    · rename_i hx
      exact visible_putString (by simp [visible, he, StoreEntry.expired, Option.filter])

theorem visible_ttl (now : Time) (key : Bytes) (F : FlatStore) :
    (F.ttl now key).2.visible now = F.visible now := by
  unfold ttl
  split
  · rfl
  · rename_i e he
    split
    · rfl
    · rename_i d hd
      split
      · rename_i hx
        refine visible_putString ?_
        simp [visible, he, StoreEntry.expired, hd, hx, Option.filter]
      · rfl

/-- An `expire` that finds nothing to set changes nothing that is visible. -/
theorem visible_expire_of_false {now : Time} {key : Bytes} {sec : Int} {F : FlatStore}
    (h : (F.expire now key sec).1 = false) :
    (F.expire now key sec).2.visible now = F.visible now := by
  unfold expire at h ⊢
  cases he : F.strings key with
  | none => rfl
  | some e =>
    rw [he] at h
    dsimp only at h ⊢
    cases hx : e.expired now with
    | true =>
      rw [if_pos rfl]
      exact visible_putString (by simp [visible, he, hx, Option.filter])
    | false =>
      rw [hx, if_neg (by simp)] at h
      split at h <;> exact absurd h (by simp)

end FlatStore

/-! ## 2. No key holds an empty hash or list -/

/-- Every hash has a field and every list an element. -/
structure FlatStore.NoEmpty (F : FlatStore) : Prop where
  hashes : ∀ key m, F.hashes key = some m → ∃ f v, m f = some v
  lists : ∀ key, F.lists key ≠ some []

namespace FlatStore

variable {F : FlatStore} {key : Bytes}

theorem noEmpty_empty : empty.NoEmpty where
  hashes _ _ h := by simp [empty] at h
  lists _ := by simp [empty]

theorem NoEmpty.putString (h : F.NoEmpty) (e : Option StoreEntry) : (F.putString key e).NoEmpty :=
  ⟨h.hashes, h.lists⟩

theorem NoEmpty.putHash (h : F.NoEmpty) {m : Option (Bytes → Option Bytes)}
    (hm : ∀ m', m = some m' → ∃ f v, m' f = some v) : (F.putHash key m).NoEmpty where
  hashes k m' hk := by
    by_cases hkey : k = key
    · subst hkey
      exact hm m' (by simpa [FlatStore.putHash] using hk)
    · exact h.hashes k m' (by simpa [FlatStore.putHash, update_of_ne hkey] using hk)
  lists := h.lists

theorem NoEmpty.putList (h : F.NoEmpty) (l : List Bytes) : (F.putList key l).NoEmpty where
  hashes := h.hashes
  lists k := by
    by_cases hkey : k = key
    · subst hkey
      by_cases hl : l = [] <;> simp [FlatStore.putList, putListAt, hl]
    · simpa [FlatStore.putList, putListAt, update_of_ne hkey] using h.lists k

theorem NoEmpty.erase (h : F.NoEmpty) (key : Bytes) : (F.erase key).NoEmpty where
  hashes k m hk := by
    by_cases hkey : k = key
    · subst hkey; simp [FlatStore.erase] at hk
    · exact h.hashes k m (by simpa [FlatStore.erase, update_of_ne hkey] using hk)
  lists k := by
    by_cases hkey : k = key
    · subst hkey; simp [FlatStore.erase]
    · simpa [FlatStore.erase, update_of_ne hkey] using h.lists k

/-- **Every call keeps hashes and lists non-empty.** -/
theorem NoEmpty.call (h : F.NoEmpty) (now : Time) (c : Call) : (F.call now c).2.NoEmpty := by
  cases c with
  | set k v t => exact h.putString _
  | get k =>
    simp only [FlatStore.call, get]
    split
    · exact h
    · split <;> exact h.putString _
  | del k => exact h.erase k
  | expire k t =>
    simp only [FlatStore.call, expire]
    split
    · exact h
    · split
      · exact h.putString _
      · split <;> exact h.putString _
  | ttl k =>
    simp only [FlatStore.call, ttl]
    split
    · exact h
    · split
      · exact h
      · split
        · exact h.putString _
        · exact h
  | clear => exact noEmpty_empty
  | incrBy k d =>
    simp only [FlatStore.call, incrBy]
    split
    · exact h.putString _
    · split
      · exact h.putString _
      · split
        · exact h
        · exact h.putString _
  | hset k f v =>
    refine h.putHash fun m hm => ⟨f, v, ?_⟩
    rw [← Option.some.inj hm, update_self]
  | hdel k f =>
    simp only [FlatStore.call, hdel]
    split
    · exact h
    · rename_i fields _
      apply h.putHash
      intro m hm
      split at hm
      · exact absurd hm (by simp)
      · rename_i hne
        obtain ⟨g, hg⟩ := not_forall.mp hne
        obtain ⟨v, hv⟩ := Option.ne_none_iff_exists'.mp hg
        exact ⟨g, v, by rw [← Option.some.inj hm]; exact hv⟩
  | lpush k v => exact h.putList _
  | rpush k v => exact h.putList _
  | lpop k =>
    simp only [FlatStore.call, lpop]
    split
    · exact h
    · exact h.putList _
  | rpop k =>
    simp only [FlatStore.call, rpop]
    split
    · exact h
    · exact h.putList _
  | «exists» _ | size | hget _ _ | hexists _ _ | hlen _ | hgetall _ | llen _ | lrange _ _ _
  | getSnapshot => exact h

end FlatStore

/-! ## 3. Maintenance: purging and evicting -/

/-- The second store holds no string that the first does not, and the same hashes and lists. -/
structure LosesStrings (s s' : KeyValueStore) : Prop where
  strings : ∀ i, ∀ k ∈ (s'.shards i).stringMap, k ∈ (s.shards i).stringMap
  hashes : ∀ i, (s'.shards i).hashMap = (s.shards i).hashMap
  lists : ∀ i, (s'.shards i).listMap = (s.shards i).listMap

namespace LosesStrings

variable {s s' : KeyValueStore}

theorem refl (s : KeyValueStore) : LosesStrings s s := ⟨fun _ _ h => h, fun _ => rfl, fun _ => rfl⟩

theorem trans {s'' : KeyValueStore} (h : LosesStrings s s') (h' : LosesStrings s' s'') :
    LosesStrings s s'' where
  strings i k hk := h.strings i k (h'.strings i k hk)
  hashes i := (h'.hashes i).trans (h.hashes i)
  lists i := (h'.lists i).trans (h.lists i)

theorem wellPlaced (h : LosesStrings s s') (hp : WellPlaced hash s) : WellPlaced hash s' where
  strings := hp.strings.mono h.strings
  hashes := hp.hashes.mono fun i _ hk => h.hashes i ▸ hk
  lists := hp.lists.mono fun i _ hk => h.lists i ▸ hk

theorem noEmpty (h : LosesStrings s s') (hn : (s.view hash).NoEmpty) :
    (s'.view hash).NoEmpty where
  hashes k m hk := hn.hashes k m (by
    rwa [KeyValueStore.view_hashes, KeyValueStore.getShard, h.hashes] at hk)
  lists k hk := hn.lists k (by
    rwa [KeyValueStore.view_lists, KeyValueStore.getShard, h.lists] at hk)

end LosesStrings

theorem mem_of_mem_purgeScan {now : Time} {budget : Nat}
    {es : List (Sigma fun _ : Bytes => StoreEntry)} {m : Map StoreEntry} {k : Bytes}
    (h : k ∈ (StoreShard.purgeScan now budget es m).2) : k ∈ m := by
  induction budget generalizing es m with
  | zero => exact h
  | succ budget ih =>
    cases es with
    | nil => exact h
    | cons x xs =>
      simp only [StoreShard.purgeScan] at h
      split at h
      · exact (AList.mem_erase.mp (ih h)).2
      · exact ih h

theorem losesStrings_purge (order : IterOrder) (now : Time) (n : Nat) (s : KeyValueStore) :
    LosesStrings s (s.purgeExpiredKeys order now n).2 where
  strings _ _ hk := mem_of_mem_purgeScan hk
  hashes _ := rfl
  lists _ := rfl

theorem losesStrings_evictOne (victim : KeyTimestamp) (acc : Nat × KeyValueStore) :
    LosesStrings acc.2 (KeyValueStore.evictOne victim acc).2 where
  strings i k hk := by
    by_cases hi : i = victim.shardIdx
    · subst hi
      simp only [KeyValueStore.evictOne, update_self] at hk
      exact (AList.mem_erase.mp hk).2
    · simpa [KeyValueStore.evictOne, update_of_ne hi] using hk
  hashes i := by
    by_cases hi : i = victim.shardIdx
    · subst hi; simp [KeyValueStore.evictOne]
    · simp [KeyValueStore.evictOne, update_of_ne hi]
  lists i := by
    by_cases hi : i = victim.shardIdx
    · subst hi; simp [KeyValueStore.evictOne]
    · simp [KeyValueStore.evictOne, update_of_ne hi]

theorem evictOne_store (victim : KeyTimestamp) (acc : Nat × KeyValueStore) :
    (KeyValueStore.evictOne victim acc).2 = ⟨update acc.2.shards victim.shardIdx
      ((acc.2.shards victim.shardIdx).putString victim.key none)⟩ := rfl

/-- An entry that is there after a victim was erased was there before. -/
theorem lookup_evictOne {victim : KeyTimestamp} (acc : Nat × KeyValueStore) {i : Fin numShards}
    {k : Bytes} {e : StoreEntry}
    (h : ((KeyValueStore.evictOne victim acc).2.shards i).stringMap.lookup k = some e) :
    (acc.2.shards i).stringMap.lookup k = some e := by
  rw [evictOne_store] at h
  by_cases hi : i = victim.shardIdx
  · subst hi
    dsimp only at h
    rw [update_self] at h
    by_cases hk : k = victim.key
    · rw [hk, StoreShard.lookup_putString] at h
      cases h
    · rwa [StoreShard.lookup_putString_ne hk] at h
  · dsimp only at h
    rwa [update_of_ne hi] at h

theorem lookup_foldl_evictOne {victims : List KeyTimestamp} (acc : Nat × KeyValueStore)
    {i : Fin numShards} {k : Bytes} {e : StoreEntry}
    (h : ((victims.foldl (fun acc v => KeyValueStore.evictOne v acc) acc).2.shards
      i).stringMap.lookup k = some e) : (acc.2.shards i).stringMap.lookup k = some e := by
  induction victims generalizing acc with
  | nil => exact h
  | cons v vs ih => exact lookup_evictOne acc (ih _ h)

theorem losesStrings_foldl_evictOne (victims : List KeyTimestamp) (acc : Nat × KeyValueStore) :
    LosesStrings acc.2 (victims.foldl (fun acc v => KeyValueStore.evictOne v acc) acc).2 := by
  induction victims generalizing acc with
  | nil => exact LosesStrings.refl acc.2
  | cons v vs ih => exact (losesStrings_evictOne v acc).trans (ih _)

theorem losesStrings_evict (order : IterOrder) (sorter : SortOrder) (n : Nat)
    (s : KeyValueStore) : LosesStrings s (s.evictLruKeys order sorter n).2 :=
  losesStrings_foldl_evictOne ((sorter.sort (s.candidates order)).take n) (0, s)

/-! ## 4. Reachable stores -/

/-- The stores that calls, purges and evictions leave, in any order and at any times. -/
inductive Reachable (hash : Bytes → Nat) : KeyValueStore → Prop
  | empty : Reachable hash KeyValueStore.empty
  | call {s : KeyValueStore} (h : Reachable hash s) (order : IterOrder) (now : Time) (c : Call) :
    Reachable hash (s.call hash order now c).2
  | purge {s : KeyValueStore} (h : Reachable hash s) (order : IterOrder) (now : Time) (n : Nat) :
    Reachable hash (s.purgeExpiredKeys order now n).2
  | evict {s : KeyValueStore} (h : Reachable hash s) (order : IterOrder) (sorter : SortOrder)
      (n : Nat) : Reachable hash (s.evictLruKeys order sorter n).2

theorem Reachable.runCalls {s : KeyValueStore} (h : Reachable hash s) (calls : List TimedCall) :
    Reachable hash (s.runCalls hash calls).2 := by
  induction calls generalizing s with
  | nil => exact h
  | cons t ts ih => exact ih (h.call t.order t.now t.call)

theorem Reachable.wellPlaced {s : KeyValueStore} (h : Reachable hash s) : WellPlaced hash s := by
  induction h with
  | empty => exact wellPlaced_empty
  | call _ order now c ih => exact ih.call order now c
  | purge _ order now n ih => exact (losesStrings_purge order now n _).wellPlaced ih
  | evict _ order sorter n ih => exact (losesStrings_evict order sorter n _).wellPlaced ih

theorem Reachable.noEmpty {s : KeyValueStore} (h : Reachable hash s) :
    (s.view hash).NoEmpty := by
  induction h with
  | empty => exact FlatStore.noEmpty_empty
  | call hr order now c ih =>
    rw [(hr.wellPlaced.call_refines order now c).2]
    exact ih.call now c
  | purge _ order now n ih => exact (losesStrings_purge order now n _).noEmpty ih
  | evict _ order sorter n ih => exact (losesStrings_evict order sorter n _).noEmpty ih

end KeyValueDb
