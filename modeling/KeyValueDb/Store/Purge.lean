/-
# Purging in between

The background thread erases expired strings at moments the clients do not choose.  Two stores
that differ only in strings that have expired (`Purged`) should answer alike, and every method
but two makes them: `del` counts a key without looking at its deadline, and `ttl` answers for
an expired string before it looks at the hash and the list of the key.

Here is what one method does with two such stores; `Store/Invisible.lean` goes on from there.
-/
import KeyValueDb.Store.View
import Mathlib.Data.List.Perm.Lattice

namespace KeyValueDb

open Lib Function

/-! ## 1. Shards that differ in expired strings -/

/-- The second shard lacks some expired strings of the first. -/
structure StoreShard.Purged (now : Time) (sh sh' : StoreShard) : Prop where
  strings : ∀ k, sh'.stringMap.lookup k = sh.stringMap.lookup k ∨
    sh'.stringMap.lookup k = none ∧ ∃ e, sh.stringMap.lookup k = some e ∧ e.expired now = true
  hashes : sh'.hashMap = sh.hashMap
  lists : sh'.listMap = sh.listMap

theorem StoreEntry.expired_iff {e : StoreEntry} {now : Time} :
    e.expired now = true ↔ ∃ d, e.expiresAt = some d ∧ d ≤ now := by
  obtain ⟨value, expiresAt, lastAccessed⟩ := e
  cases expiresAt with
  | none => simp [StoreEntry.expired]
  | some d => simp [StoreEntry.expired]

theorem StoreEntry.not_expired_iff {e : StoreEntry} {instant : Time} :
    e.expired instant = false ↔ ∀ d, e.expiresAt = some d → instant < d := by
  rw [← Bool.not_eq_true, StoreEntry.expired_iff]
  constructor
  · intro h d hd
    exact lt_of_not_ge fun hdue => h ⟨d, hd, hdue⟩
  · rintro h ⟨d, hd, hdue⟩
    exact absurd (h d hd) (not_lt.mpr hdue)

theorem StoreEntry.expired_mono {e : StoreEntry} {now later : Time} (hle : now ≤ later)
    (h : e.expired now = true) : e.expired later = true := by
  obtain ⟨d, hd, hdue⟩ := StoreEntry.expired_iff.mp h
  exact StoreEntry.expired_iff.mpr ⟨d, hd, hdue.trans hle⟩

namespace StoreShard.Purged

variable {now : Time} {sh sh' : StoreShard} {key : Bytes}

theorem refl (now : Time) (sh : StoreShard) : sh.Purged now sh :=
  ⟨fun _ => Or.inl rfl, rfl, rfl⟩

theorem mono {later : Time} (hle : now ≤ later) (h : sh.Purged now sh') :
    sh.Purged later sh' where
  strings k := by
    rcases h.strings k with he | ⟨hnone, e, he, hx⟩
    · exact Or.inl he
    · exact Or.inr ⟨hnone, e, he, e.expired_mono hle hx⟩
  hashes := h.hashes
  lists := h.lists

theorem trans {sh'' : StoreShard} (h : sh.Purged now sh') (h' : sh'.Purged now sh'') :
    sh.Purged now sh'' where
  strings k := by
    rcases h'.strings k with he' | ⟨hnone, e, he, hx⟩
    · rcases h.strings k with he | hstale
      · exact Or.inl (he'.trans he)
      · exact Or.inr ⟨he'.trans hstale.1, hstale.2⟩
    · rcases h.strings k with heq | hstale
      · exact Or.inr ⟨hnone, e, heq ▸ he, hx⟩
      · exact Or.inr ⟨hnone, hstale.2⟩
  hashes := h'.hashes.trans h.hashes
  lists := h'.lists.trans h.lists

/-- Putting the same entry into both. -/
theorem putString (h : sh.Purged now sh') (key : Bytes) (e : Option StoreEntry) :
    (sh.putString key e).Purged now (sh'.putString key e) where
  strings k := by
    by_cases hk : k = key
    · subst hk
      exact Or.inl (by rw [lookup_putString, lookup_putString])
    · rw [lookup_putString_ne hk, lookup_putString_ne hk]
      exact h.strings k
  hashes := h.hashes
  lists := h.lists

/-- Erasing an expired entry of the first one. -/
theorem erase_left (h : sh.Purged now sh') (hnone : sh'.stringMap.lookup key = none) :
    (sh.putString key none).Purged now sh' where
  strings k := by
    by_cases hk : k = key
    · subst hk
      exact Or.inl (by rw [lookup_putString, hnone])
    · rw [lookup_putString_ne hk]
      exact h.strings k
  hashes := h.hashes
  lists := h.lists

theorem putHash (h : sh.Purged now sh') (key : Bytes) (m : Option (Map Bytes)) :
    (sh.putHash key m).Purged now (sh'.putHash key m) where
  strings := h.strings
  hashes := by
    unfold StoreShard.putHash
    rw [h.hashes]
  lists := h.lists

theorem putList (h : sh.Purged now sh') (key : Bytes) (l : List Bytes) :
    (sh.putList key l).Purged now (sh'.putList key l) where
  strings := by
    rw [putList_stringMap, putList_stringMap]
    exact h.strings
  hashes := by rw [putList_hashMap, putList_hashMap, h.hashes]
  lists := by
    unfold StoreShard.putList
    rw [h.lists]
    split <;> rfl

/-- What the two hold under a key. -/
theorem lookup_cases (h : sh.Purged now sh') (key : Bytes) :
    sh'.stringMap.lookup key = sh.stringMap.lookup key ∨
      ∃ e, sh.stringMap.lookup key = some e ∧ e.expired now = true ∧
        sh'.stringMap.lookup key = none := by
  rcases h.strings key with he | ⟨hnone, e, he, hx⟩
  · exact Or.inl he
  · exact Or.inr ⟨e, he, hx, hnone⟩

end StoreShard.Purged

/-! ## 2. The methods of a shard -/

namespace StoreShard

variable {now : Time} {sh sh' : StoreShard}

/-- A string under this key is kept though it has expired. -/
def Stale (now : Time) (key : Bytes) (sh : StoreShard) : Prop :=
  ∃ e, sh.stringMap.lookup key = some e ∧ e.expired now = true

/-- The key has a hash or a list. -/
def HasOther (key : Bytes) (sh : StoreShard) : Prop :=
  (sh.hashMap.lookup key).isSome ∨ (sh.listMap.lookup key).isSome

theorem Purged.get (h : sh.Purged now sh') (key : Bytes) :
    (sh'.get now key).1 = (sh.get now key).1 ∧
      (sh.get now key).2.Purged now (sh'.get now key).2 := by
  rw [shardGet_eq, shardGet_eq]
  rcases h.lookup_cases key with heq | ⟨e, he, hx, hnone⟩
  · rw [heq]
    split
    · exact ⟨rfl, h⟩
    · split
      · exact ⟨rfl, h.putString key none⟩
      · exact ⟨rfl, h.putString key (some _)⟩
  · simp only [he, hx, hnone, if_true]
    exact ⟨trivial, h.erase_left hnone⟩

theorem Purged.exists (h : sh.Purged now sh') (key : Bytes) :
    sh'.exists now key = sh.exists now key := by
  unfold StoreShard.exists
  rw [h.hashes, h.lists]
  rcases h.lookup_cases key with heq | ⟨e, he, hx, hnone⟩
  · rw [heq]
  · simp [he, hx, hnone]

theorem Purged.expire (h : sh.Purged now sh') (key : Bytes) (ttlSeconds : Int) :
    (sh'.expire now key ttlSeconds).1 = (sh.expire now key ttlSeconds).1 ∧
      (sh.expire now key ttlSeconds).2.Purged now (sh'.expire now key ttlSeconds).2 := by
  unfold StoreShard.expire
  rcases h.lookup_cases key with heq | ⟨e, he, hx, hnone⟩
  · rw [heq]
    split
    · exact ⟨rfl, h⟩
    · split
      · exact ⟨rfl, h.putString key none⟩
      · split
        · exact ⟨rfl, h.putString key (some _)⟩
        · exact ⟨rfl, h.putString key none⟩
  · simp only [he, hx, hnone, if_true]
    exact ⟨trivial, h.erase_left hnone⟩

theorem Purged.incrBy (h : sh.Purged now sh') (key : Bytes) (delta : Int) :
    (sh'.incrBy now key delta).1 = (sh.incrBy now key delta).1 ∧
      (sh.incrBy now key delta).2.Purged now (sh'.incrBy now key delta).2 := by
  unfold StoreShard.incrBy
  rcases h.lookup_cases key with heq | ⟨e, he, hx, hnone⟩
  · rw [heq]
    dsimp only
    split
    · exact ⟨rfl, h.putString key (some _)⟩
    · split
      · exact ⟨rfl, h.putString key (some _)⟩
      · split
        · exact ⟨rfl, h⟩
        · exact ⟨rfl, h.putString key (some _)⟩
  · simp only [he, hx, hnone, if_true]
    exact ⟨trivial, h.putString key (some _)⟩

/-- `ttl` gives an expired string away when the key has a hash or a list besides. -/
theorem Purged.ttl (h : sh.Purged now sh') (key : Bytes)
    (hstale : ¬ (sh.Stale now key ∧ sh.HasOther key)) :
    (sh'.ttl now key).1 = (sh.ttl now key).1 ∧
      (sh.ttl now key).2.Purged now (sh'.ttl now key).2 := by
  unfold StoreShard.ttl
  rcases h.lookup_cases key with heq | ⟨e, he, hx, hnone⟩
  · rw [heq, h.hashes, h.lists]
    split
    · exact ⟨rfl, h⟩
    · split
      · exact ⟨rfl, h⟩
      · split
        · exact ⟨rfl, h.putString key none⟩
        · exact ⟨rfl, h⟩
  · have hother : ¬ ((sh.hashMap.lookup key).isSome || (sh.listMap.lookup key).isSome) = true := by
      rw [Bool.or_eq_true]
      exact fun ho => hstale ⟨⟨e, he, hx⟩, ho⟩
    simp only [he, hnone, h.hashes, h.lists]
    rw [if_neg hother]
    obtain ⟨d, hd, hdue⟩ := StoreEntry.expired_iff.mp hx
    rw [hd]
    simp only [if_pos hdue]
    exact ⟨trivial, h.erase_left hnone⟩

/-- `del` gives an expired string away when the key has neither hash nor list. -/
theorem Purged.del (h : sh.Purged now sh') (key : Bytes)
    (hstale : ¬ (sh.Stale now key ∧ ¬ sh.HasOther key)) :
    (sh'.del key).1 = (sh.del key).1 ∧ (sh.del key).2.Purged now (sh'.del key).2 := by
  constructor
  · unfold StoreShard.del
    rw [h.hashes, h.lists]
    rcases h.lookup_cases key with heq | ⟨e, he, hx, hnone⟩
    · rw [heq]
    · have hother : sh.HasOther key := by
        by_contra ho
        exact hstale ⟨⟨e, he, hx⟩, ho⟩
      simp only [he, hnone, Option.isSome_some, Option.isSome_none, Bool.false_or, Bool.true_or]
      rwa [Bool.or_eq_true]
  · have hput := h.putString key none
    exact ⟨hput.strings, by simp only [StoreShard.del, h.hashes],
      by simp only [StoreShard.del, h.lists]⟩

/-- The entries that have not expired are the same. -/
theorem Purged.fresh_perm (h : sh.Purged now sh') :
    (sh'.stringMap.entries.filter fun x => !x.2.expired now).Perm
      (sh.stringMap.entries.filter fun x => !x.2.expired now) := by
  have hnodup : ∀ m : Map StoreEntry, m.entries.Nodup := fun m => m.nodupKeys.nodup
  refine (List.perm_ext_iff_of_nodup ((hnodup _).filter _) ((hnodup _).filter _)).mpr ?_
  rintro ⟨k, e⟩
  simp only [List.mem_filter, ← AList.mem_lookup_iff, Option.mem_def, Bool.not_eq_true']
  rcases h.lookup_cases k with heq | ⟨e', he, hx, hnone⟩
  · rw [heq]
  · rw [hnone, he]
    constructor
    · intro hk
      exact absurd hk.1 (by simp)
    · rintro ⟨hk, hfresh⟩
      rw [Option.some.injEq] at hk
      rw [← hk, hx] at hfresh
      exact absurd hfresh (by decide)

theorem Purged.size (h : sh.Purged now sh') : sh'.size now = sh.size now := by
  unfold StoreShard.size
  rw [h.hashes, h.lists, List.countP_eq_length_filter, List.countP_eq_length_filter,
    h.fresh_perm.length_eq]

/-! ## 3. Purging a shard -/

/-- The scan erases expired entries and no others. -/
theorem lookup_purgeScan (now : Time) (budget : Nat)
    (es : List (Sigma fun _ : Bytes => StoreEntry)) (m : Map StoreEntry) (k : Bytes) :
    (purgeScan now budget es m).2.lookup k = m.lookup k ∨
      (purgeScan now budget es m).2.lookup k = none ∧
        ∃ e, (⟨k, e⟩ : Sigma fun _ : Bytes => StoreEntry) ∈ es ∧ e.expired now = true := by
  induction budget generalizing es m with
  | zero => exact Or.inl rfl
  | succ budget ih =>
    cases es with
    | nil => exact Or.inl rfl
    | cons x rest =>
      simp only [purgeScan]
      split
      · rename_i hx
        by_cases hk : k = x.1
        · subst hk
          refine Or.inr ⟨?_, x.2, List.mem_cons_self, hx⟩
          rcases ih rest (m.erase x.1) with he | he
          · rw [he, AList.lookup_erase]
          · exact he.1
        · rcases ih rest (m.erase x.1) with he | ⟨hnone, e, he, hxe⟩
          · exact Or.inl (by rw [he, AList.lookup_erase_ne hk])
          · exact Or.inr ⟨hnone, e, List.mem_cons_of_mem _ he, hxe⟩
      · rcases ih rest m with he | ⟨hnone, e, he, hxe⟩
        · exact Or.inl he
        · exact Or.inr ⟨hnone, e, List.mem_cons_of_mem _ he, hxe⟩

/-- With budget for all of them it erases every expired entry it sees. -/
theorem lookup_purgeScan_of_expired {now : Time} {budget : Nat}
    {es : List (Sigma fun _ : Bytes => StoreEntry)} {m : Map StoreEntry}
    (hbudget : es.length ≤ budget) {k : Bytes} {e : StoreEntry}
    (he : (⟨k, e⟩ : Sigma fun _ : Bytes => StoreEntry) ∈ es) (hx : e.expired now = true) :
    (purgeScan now budget es m).2.lookup k = none := by
  induction budget generalizing es m with
  | zero =>
    rw [List.length_eq_zero_iff.mp (Nat.le_zero.mp hbudget)] at he
    exact absurd he List.not_mem_nil
  | succ budget ih =>
    cases es with
    | nil => exact absurd he List.not_mem_nil
    | cons x rest =>
      have hrest : rest.length ≤ budget := Nat.le_of_succ_le_succ hbudget
      rcases List.mem_cons.mp he with rfl | he
      · simp only [purgeScan, hx, if_true]
        rcases lookup_purgeScan now budget rest (m.erase k) k with heq | hnone
        · rw [heq, AList.lookup_erase]
        · exact hnone.1
      · simp only [purgeScan]
        split
        · exact ih hrest he
        · exact ih hrest he

theorem purged_purgeExpiredKeys (order : IterOrder) (now : Time) (maxKeys : Nat)
    (sh : StoreShard) : sh.Purged now (sh.purgeExpiredKeys order now maxKeys).2 where
  strings k := by
    refine (lookup_purgeScan now maxKeys (order.iter sh.stringMap.entries) sh.stringMap k).imp id ?_
    rintro ⟨hnone, e, he, hx⟩
    exact ⟨hnone, e, AList.mem_lookup_iff.mpr ((order.perm _).mem_iff.mp he), hx⟩
  hashes := rfl
  lists := rfl

end StoreShard

/-! ## 4. Whole stores -/

/-- The second store lacks some expired strings of the first. -/
def KeyValueStore.Purged (now : Time) (s s' : KeyValueStore) : Prop :=
  ∀ i, (s.shards i).Purged now (s'.shards i)

namespace KeyValueStore.Purged

variable {hash : Bytes → Nat} {now : Time} {s s' : KeyValueStore}

theorem refl (now : Time) (s : KeyValueStore) : s.Purged now s :=
  fun i => StoreShard.Purged.refl now (s.shards i)

theorem mono {later : Time} (hle : now ≤ later) (h : s.Purged now s') : s.Purged later s' :=
  fun i => (h i).mono hle

theorem trans {s'' : KeyValueStore} (h : s.Purged now s') (h' : s'.Purged now s'') :
    s.Purged now s'' := fun i => (h i).trans (h' i)

/-- A method of the shard of `key`. -/
theorem onShard {α : Type} (h : s.Purged now s') {key : Bytes}
    {f : StoreShard → α × StoreShard}
    (hf : (f (s'.getShard hash key)).1 = (f (s.getShard hash key)).1 ∧
      (f (s.getShard hash key)).2.Purged now (f (s'.getShard hash key)).2) :
    (s'.onShard hash key f).1 = (s.onShard hash key f).1 ∧
      (s.onShard hash key f).2.Purged now (s'.onShard hash key f).2 := by
  refine ⟨hf.1, fun i => ?_⟩
  by_cases hi : i = getShardIndex hash key
  · subst hi
    simp only [KeyValueStore.onShard, update_self]
    exact hf.2
  · simp only [KeyValueStore.onShard, update_of_ne hi]
    exact h i

/-- A method on the hash of a key looks at hashes only. -/
theorem onShard_hash {α : Type} (h : s.Purged now s') {key : Bytes}
    {f : StoreShard → α × StoreShard}
    (hf : ∀ sh sh' : StoreShard, sh'.hashMap = sh.hashMap →
      (f sh').1 = (f sh).1 ∧ (f sh').2.hashMap = (f sh).2.hashMap)
    (honly : HashOnly key f) :
    (s'.onShard hash key f).1 = (s.onShard hash key f).1 ∧
      (s.onShard hash key f).2.Purged now (s'.onShard hash key f).2 := by
  have hsh := h (getShardIndex hash key)
  have hres := hf _ _ hsh.hashes
  refine h.onShard ⟨hres.1, ?_, hres.2, ?_⟩
  · rw [honly.stringMap, honly.stringMap]
    exact hsh.strings
  · rw [honly.listMap, honly.listMap]
    exact hsh.lists

/-- A method on the list of a key looks at lists only. -/
theorem onShard_list {α : Type} (h : s.Purged now s') {key : Bytes}
    {f : StoreShard → α × StoreShard}
    (hf : ∀ sh sh' : StoreShard, sh'.listMap = sh.listMap →
      (f sh').1 = (f sh).1 ∧ (f sh').2.listMap = (f sh).2.listMap)
    (honly : ListOnly key f) :
    (s'.onShard hash key f).1 = (s.onShard hash key f).1 ∧
      (s.onShard hash key f).2.Purged now (s'.onShard hash key f).2 := by
  have hsh := h (getShardIndex hash key)
  have hres := hf _ _ hsh.lists
  refine h.onShard ⟨hres.1, ?_, ?_, hres.2⟩
  · rw [honly.stringMap, honly.stringMap]
    exact hsh.strings
  · rw [honly.hashMap, honly.hashMap]
    exact hsh.hashes

theorem size (h : s.Purged now s') : s'.size now = s.size now := by
  unfold KeyValueStore.size
  congr 1
  exact List.map_congr_left fun i _ => (h i).size

theorem getSnapshot (h : s.Purged now s') (order : IterOrder) :
    (s'.getSnapshot order now).strings.Perm (s.getSnapshot order now).strings ∧
      (s'.getSnapshot order now).hashes = (s.getSnapshot order now).hashes ∧
      (s'.getSnapshot order now).lists = (s.getSnapshot order now).lists := by
  dsimp only [KeyValueStore.getSnapshot]
  refine ⟨?_, ?_, ?_⟩
  · refine List.Perm.flatMap_left _ fun i _ => List.Perm.map _ ?_
    exact ((order.perm _).filter _).trans ((h i).fresh_perm.trans ((order.perm _).symm.filter _))
  · simp only [fun i => (h i).hashes]
  · simp only [fun i => (h i).lists]

theorem purge (order : IterOrder) (now : Time) (maxKeysPerShard : Nat) (s : KeyValueStore) :
    s.Purged now (s.purgeExpiredKeys order now maxKeysPerShard).2 :=
  fun i => StoreShard.purged_purgeExpiredKeys order now maxKeysPerShard (s.shards i)

end KeyValueStore.Purged

end KeyValueDb
