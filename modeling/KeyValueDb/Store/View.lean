/-
# What the sharded store holds, as a reference store

`view` reads the sharded store as three functions of the key, each key looked up in its own
shard.  Every method on a key then does to the view exactly what the reference method does
(`view_set`, `view_get`, ...), and answers the same.  No placement is needed for this: a key
is only ever looked up where its hash says.  Counting and listing, which walk all the shards,
do need it and are in `Store/Refine.lean`.
-/
import KeyValueDb.Store.Flat

namespace KeyValueDb

open Lib Function

/-- The fields of a hash as a function. -/
def fieldFun (fields : Map Bytes) : Bytes → Option Bytes := fun f => fields.lookup f

/-- The sharded store read as three maps. -/
def KeyValueStore.view (hash : Bytes → Nat) (s : KeyValueStore) : FlatStore where
  strings key := (s.getShard hash key).stringMap.lookup key
  hashes key := ((s.getShard hash key).hashMap.lookup key).map fieldFun
  lists key := (s.getShard hash key).listMap.lookup key

namespace KeyValueStore

variable (hash : Bytes → Nat) (key : Bytes) (s : KeyValueStore)

theorem view_strings :
    (s.view hash).strings key = (s.getShard hash key).stringMap.lookup key := rfl

theorem view_hashes :
    (s.view hash).hashes key = ((s.getShard hash key).hashMap.lookup key).map fieldFun := rfl

theorem view_lists :
    (s.view hash).lists key = (s.getShard hash key).listMap.lookup key := rfl

end KeyValueStore

@[simp] theorem view_empty (hash : Bytes → Nat) :
    KeyValueStore.empty.view hash = FlatStore.empty := rfl

/-! ## 1. Field maps -/

@[simp] theorem fieldFun_empty : fieldFun ∅ = fun _ => none := by
  funext f
  exact AList.lookup_empty f

theorem fieldFun_insert (fields : Map Bytes) (f v : Bytes) :
    fieldFun (fields.insert f v) = update (fieldFun fields) f (some v) := by
  funext g
  by_cases h : g = f
  · subst h; simp [fieldFun]
  · simp [fieldFun, update_of_ne h, AList.lookup_insert_ne h]

@[simp] theorem fieldFun_singleton (f v : Bytes) :
    fieldFun (AList.singleton f v) = update (fun _ => none) f (some v) := by
  rw [← AList.insert_empty, fieldFun_insert, fieldFun_empty]

theorem fieldFun_erase (fields : Map Bytes) (f : Bytes) :
    fieldFun (fields.erase f) = update (fieldFun fields) f none := by
  funext g
  by_cases h : g = f
  · subst h; simp [fieldFun]
  · simp [fieldFun, update_of_ne h, AList.lookup_erase_ne h]

/-- A map is empty when it answers nothing. -/
theorem entries_eq_nil_iff (fields : Map Bytes) :
    fields.entries = [] ↔ ∀ f, fieldFun fields f = none := by
  constructor
  · intro h f
    rw [show fields = ∅ from AList.ext h]
    exact AList.lookup_empty f
  · intro h
    cases hes : fields.entries with
    | nil => rfl
    | cons x xs =>
      have hmem : (⟨x.1, x.2⟩ : Sigma fun _ : Bytes => Bytes) ∈ fields.entries := by
        rw [hes]; exact List.mem_cons_self
      have hl : fields.lookup x.1 = some x.2 := AList.mem_lookup_iff.mpr hmem
      rw [show fields.lookup x.1 = none from h x.1] at hl
      exact absurd hl (by simp)

/-! ## 2. Changing one key of a shard -/

namespace StoreShard

variable {key k : Bytes} {shard : StoreShard}

/-- Put a string entry, or erase it. -/
def putString (key : Bytes) (e : Option StoreEntry) (shard : StoreShard) : StoreShard :=
  { shard with stringMap := match e with
      | none => shard.stringMap.erase key
      | some e => shard.stringMap.insert key e }

/-- Put a hash, or erase it. -/
def putHash (key : Bytes) (m : Option (Map Bytes)) (shard : StoreShard) : StoreShard :=
  { shard with hashMap := match m with
      | none => shard.hashMap.erase key
      | some m => shard.hashMap.insert key m }

@[simp] theorem lookup_putString {e : Option StoreEntry} :
    (shard.putString key e).stringMap.lookup key = e := by
  cases e <;> simp [putString]

theorem lookup_putString_ne {e : Option StoreEntry} (h : k ≠ key) :
    (shard.putString key e).stringMap.lookup k = shard.stringMap.lookup k := by
  cases e
  · exact AList.lookup_erase_ne h
  · exact AList.lookup_insert_ne h

@[simp] theorem lookup_putHash {m : Option (Map Bytes)} :
    (shard.putHash key m).hashMap.lookup key = m := by
  cases m <;> simp [putHash]

theorem lookup_putHash_ne {m : Option (Map Bytes)} (h : k ≠ key) :
    (shard.putHash key m).hashMap.lookup k = shard.hashMap.lookup k := by
  cases m
  · exact AList.lookup_erase_ne h
  · exact AList.lookup_insert_ne h

@[simp] theorem lookup_putList {l : List Bytes} :
    (shard.putList key l).listMap.lookup key = if l = [] then none else some l := by
  unfold putList
  split <;> simp

theorem lookup_putList_ne {l : List Bytes} (h : k ≠ key) :
    (shard.putList key l).listMap.lookup k = shard.listMap.lookup k := by
  unfold putList
  split
  · exact AList.lookup_erase_ne h
  · exact AList.lookup_insert_ne h

theorem putList_stringMap {l : List Bytes} :
    (shard.putList key l).stringMap = shard.stringMap := by
  unfold putList; split <;> rfl

theorem putList_hashMap {l : List Bytes} : (shard.putList key l).hashMap = shard.hashMap := by
  unfold putList; split <;> rfl

end StoreShard

namespace FlatStore

variable {key : Bytes} {F : FlatStore}

theorem putString_self {e : Option StoreEntry} (h : F.strings key = e) :
    F.putString key e = F := by
  subst h; simp [putString]

theorem putHash_self {m : Option (Bytes → Option Bytes)} (h : F.hashes key = m) :
    F.putHash key m = F := by
  subst h; simp [putHash]

theorem putListAt_self {l : Option (List Bytes)} (h : F.lists key = l) :
    F.putListAt key l = F := by
  subst h; simp [putListAt]

end FlatStore

/-! ## 3. A method on one shard, seen through the view -/

section OnShard

variable {hash : Bytes → Nat} {α : Type} {key : Bytes} {f : StoreShard → α × StoreShard}
  {s : KeyValueStore}

/-- The shard of a key after a method ran on the shard of another. -/
theorem getShard_onShard (k : Bytes) :
    (s.onShard hash key f).2.getShard hash k =
      if getShardIndex hash k = getShardIndex hash key then (f (s.getShard hash key)).2
      else s.getShard hash k := by
  unfold KeyValueStore.onShard KeyValueStore.getShard
  split
  · rename_i h; rw [h]; simp
  · rename_i h; simp [update_of_ne h]

theorem getShard_onShard_self :
    (s.onShard hash key f).2.getShard hash key = (f (s.getShard hash key)).2 := by
  rw [getShard_onShard, if_pos rfl]

/-- A method that changes the shard, if at all, in the string of `key`. -/
def StringOnly (key : Bytes) (f : StoreShard → α × StoreShard) : Prop :=
  ∀ sh, (f sh).2 = sh ∨ ∃ e, (f sh).2 = sh.putString key e

/-- A method that changes the shard, if at all, in the hash of `key`. -/
def HashOnly (key : Bytes) (f : StoreShard → α × StoreShard) : Prop :=
  ∀ sh, (f sh).2 = sh ∨ ∃ m, (f sh).2 = sh.putHash key m

/-- A method that changes the shard, if at all, in the list of `key`. -/
def ListOnly (key : Bytes) (f : StoreShard → α × StoreShard) : Prop :=
  ∀ sh, (f sh).2 = sh ∨ ∃ l, (f sh).2 = sh.putList key l

/-- A method that leaves every key but `key` alone. -/
structure KeyOnly (key : Bytes) (f : StoreShard → α × StoreShard) : Prop where
  strings : ∀ sh k, k ≠ key → (f sh).2.stringMap.lookup k = sh.stringMap.lookup k
  hashes : ∀ sh k, k ≠ key → (f sh).2.hashMap.lookup k = sh.hashMap.lookup k
  lists : ∀ sh k, k ≠ key → (f sh).2.listMap.lookup k = sh.listMap.lookup k

/-- A lookup in the shard of `k`, wherever that is: only the one at `key` sees the method. -/
theorem lookup_onShard {β : Type} (look : Bytes → StoreShard → β)
    (h : ∀ sh k, k ≠ key → look k (f sh).2 = look k sh) (k : Bytes) :
    look k ((s.onShard hash key f).2.getShard hash k) =
      update (fun k => look k (s.getShard hash k)) key
        (look key (f (s.getShard hash key)).2) k := by
  by_cases hk : k = key
  · subst hk
    rw [getShard_onShard_self, update_self]
  · rw [getShard_onShard, update_of_ne hk]
    split
    · rename_i hi
      rw [h _ k hk, KeyValueStore.getShard, KeyValueStore.getShard, hi]
    · rfl

/-- **A method that leaves other keys alone** updates the view at its key. -/
theorem view_onShard (h : KeyOnly key f) :
    (s.onShard hash key f).2.view hash =
      ⟨update (s.view hash).strings key ((f (s.getShard hash key)).2.stringMap.lookup key),
        update (s.view hash).hashes key
          (((f (s.getShard hash key)).2.hashMap.lookup key).map fieldFun),
        update (s.view hash).lists key ((f (s.getShard hash key)).2.listMap.lookup key)⟩ := by
  apply FlatStore.ext_keys
  · exact lookup_onShard (fun k sh => sh.stringMap.lookup k) h.strings
  · apply lookup_onShard fun k sh => (sh.hashMap.lookup k).map fieldFun
    intro sh k hk
    rw [h.hashes sh k hk]
  · exact lookup_onShard (fun k sh => sh.listMap.lookup k) h.lists

theorem StringOnly.hashMap (h : StringOnly key f) (sh : StoreShard) :
    (f sh).2.hashMap = sh.hashMap := by
  rcases h sh with he | ⟨e, he⟩
  · rw [he]
  · rw [he]; rfl

theorem StringOnly.listMap (h : StringOnly key f) (sh : StoreShard) :
    (f sh).2.listMap = sh.listMap := by
  rcases h sh with he | ⟨e, he⟩
  · rw [he]
  · rw [he]; rfl

theorem HashOnly.stringMap (h : HashOnly key f) (sh : StoreShard) :
    (f sh).2.stringMap = sh.stringMap := by
  rcases h sh with he | ⟨m, he⟩
  · rw [he]
  · rw [he]; rfl

theorem HashOnly.listMap (h : HashOnly key f) (sh : StoreShard) :
    (f sh).2.listMap = sh.listMap := by
  rcases h sh with he | ⟨m, he⟩
  · rw [he]
  · rw [he]; rfl

theorem ListOnly.stringMap (h : ListOnly key f) (sh : StoreShard) :
    (f sh).2.stringMap = sh.stringMap := by
  rcases h sh with he | ⟨l, he⟩
  · rw [he]
  · rw [he]; exact StoreShard.putList_stringMap

theorem ListOnly.hashMap (h : ListOnly key f) (sh : StoreShard) :
    (f sh).2.hashMap = sh.hashMap := by
  rcases h sh with he | ⟨l, he⟩
  · rw [he]
  · rw [he]; exact StoreShard.putList_hashMap

theorem StringOnly.keyOnly (h : StringOnly key f) : KeyOnly key f where
  strings sh k hk := by
    rcases h sh with he | ⟨e, he⟩
    · rw [he]
    · rw [he, StoreShard.lookup_putString_ne hk]
  hashes sh k _ := by rw [h.hashMap]
  lists sh k _ := by rw [h.listMap]

theorem HashOnly.keyOnly (h : HashOnly key f) : KeyOnly key f where
  strings sh k _ := by rw [h.stringMap]
  hashes sh k hk := by
    rcases h sh with he | ⟨m, he⟩
    · rw [he]
    · rw [he, StoreShard.lookup_putHash_ne hk]
  lists sh k _ := by rw [h.listMap]

theorem ListOnly.keyOnly (h : ListOnly key f) : KeyOnly key f where
  strings sh k _ := by rw [h.stringMap]
  hashes sh k _ := by rw [h.hashMap]
  lists sh k hk := by
    rcases h sh with he | ⟨l, he⟩
    · rw [he]
    · rw [he, StoreShard.lookup_putList_ne hk]

theorem view_onShard_string (h : StringOnly key f) :
    (s.onShard hash key f).2.view hash =
      (s.view hash).putString key ((f (s.getShard hash key)).2.stringMap.lookup key) := by
  rw [view_onShard h.keyOnly, h.hashMap, h.listMap, ← KeyValueStore.view_hashes,
    ← KeyValueStore.view_lists, update_eq_self, update_eq_self]
  rfl

theorem view_onShard_hash (h : HashOnly key f) :
    (s.onShard hash key f).2.view hash =
      (s.view hash).putHash key
        (((f (s.getShard hash key)).2.hashMap.lookup key).map fieldFun) := by
  rw [view_onShard h.keyOnly, h.stringMap, h.listMap, ← KeyValueStore.view_strings,
    ← KeyValueStore.view_lists, update_eq_self, update_eq_self]
  rfl

theorem view_onShard_list (h : ListOnly key f) :
    (s.onShard hash key f).2.view hash =
      (s.view hash).putListAt key ((f (s.getShard hash key)).2.listMap.lookup key) := by
  rw [view_onShard h.keyOnly, h.stringMap, h.hashMap, ← KeyValueStore.view_strings,
    ← KeyValueStore.view_hashes, update_eq_self, update_eq_self]
  rfl

end OnShard

/-! ## 4. Which methods touch what -/

section Only

variable (now : Time) (key field value : Bytes)

theorem stringOnly_set (ttlSeconds : Option Int) :
    StringOnly key fun shard => ((), shard.set now key value ttlSeconds) :=
  fun _ => Or.inr ⟨some ⟨value, deadline now ttlSeconds, now⟩, rfl⟩

/-- The three sections of `get`, run without interference. -/
theorem shardGet_eq (shard : StoreShard) :
    shard.get now key = match shard.stringMap.lookup key with
      | none => (none, shard)
      | some e =>
        if e.expired now then (none, shard.putString key none)
        else (some e.value, shard.putString key (some { e with lastAccessed := now })) := by
  unfold StoreShard.get StoreShard.getPeek
  cases h : shard.stringMap.lookup key with
  | none => rfl
  | some e =>
    cases he : e.expired now <;>
      simp [StoreShard.getPurge, StoreShard.getTouch, StoreShard.putString, h, he]

theorem stringOnly_get : StringOnly key (StoreShard.get now key) := by
  intro sh
  rw [shardGet_eq]
  split
  · exact Or.inl rfl
  · split
    · exact Or.inr ⟨none, rfl⟩
    · exact Or.inr ⟨some _, rfl⟩

theorem stringOnly_expire (ttlSeconds : Int) :
    StringOnly key (StoreShard.expire now key ttlSeconds) := by
  intro sh
  unfold StoreShard.expire
  split
  · exact Or.inl rfl
  · split
    · exact Or.inr ⟨none, rfl⟩
    · split
      · exact Or.inr ⟨some _, rfl⟩
      · exact Or.inr ⟨none, rfl⟩

theorem stringOnly_ttl : StringOnly key (StoreShard.ttl now key) := by
  intro sh
  unfold StoreShard.ttl
  split
  · exact Or.inl rfl
  · split
    · exact Or.inl rfl
    · split
      · exact Or.inr ⟨none, rfl⟩
      · exact Or.inl rfl

theorem stringOnly_incrBy (delta : Int) :
    StringOnly key (StoreShard.incrBy now key delta) := by
  intro sh
  unfold StoreShard.incrBy
  split
  · exact Or.inr ⟨some _, rfl⟩
  · split
    · exact Or.inr ⟨some _, rfl⟩
    · split
      · exact Or.inl rfl
      · exact Or.inr ⟨some _, rfl⟩

theorem hashOnly_hset : HashOnly key (StoreShard.hset key field value) :=
  fun _ => Or.inr ⟨some _, rfl⟩

theorem hashOnly_hdel : HashOnly key (StoreShard.hdel key field) := by
  intro sh
  unfold StoreShard.hdel
  split
  · exact Or.inl rfl
  · dsimp only
    split
    · exact Or.inr ⟨none, rfl⟩
    · exact Or.inr ⟨some _, rfl⟩

theorem listOnly_lpush : ListOnly key (StoreShard.lpush key value) := fun sh =>
  Or.inr ⟨value :: (sh.listMap.lookup key).getD [], by simp [StoreShard.lpush, StoreShard.putList]⟩

theorem listOnly_rpush : ListOnly key (StoreShard.rpush key value) := fun sh =>
  Or.inr ⟨(sh.listMap.lookup key).getD [] ++ [value],
    by simp [StoreShard.rpush, StoreShard.putList]⟩

theorem listOnly_lpop : ListOnly key (StoreShard.lpop key) := by
  intro sh
  unfold StoreShard.lpop
  split
  · exact Or.inl rfl
  · exact Or.inr ⟨_, rfl⟩

theorem listOnly_rpop : ListOnly key (StoreShard.rpop key) := by
  intro sh
  unfold StoreShard.rpop
  split
  · exact Or.inl rfl
  · exact Or.inr ⟨_, rfl⟩

end Only

/-! ## 5. The methods on strings -/

namespace KeyValueStore

variable (hash : Bytes → Nat) (now : Time) (key field value : Bytes) (s : KeyValueStore)

theorem view_set (ttlSeconds : Option Int) :
    (s.set hash now key value ttlSeconds).view hash =
      (s.view hash).set now key value ttlSeconds := by
  unfold set
  rw [view_onShard_string (stringOnly_set now key value ttlSeconds)]
  simp [StoreShard.set, FlatStore.set]

theorem view_get : ((s.get hash now key).1, (s.get hash now key).2.view hash) =
    (s.view hash).get now key := by
  unfold get
  rw [view_onShard_string (stringOnly_get now key), onShard, shardGet_eq, FlatStore.get,
    view_strings]
  cases h : (s.getShard hash key).stringMap.lookup key with
  | none => simp [h, FlatStore.putString_self, view_strings]
  | some e => cases he : e.expired now <;> simp [he]

theorem view_expire (ttlSeconds : Int) :
    ((s.expire hash now key ttlSeconds).1, (s.expire hash now key ttlSeconds).2.view hash) =
      (s.view hash).expire now key ttlSeconds := by
  unfold expire
  rw [view_onShard_string (stringOnly_expire now key ttlSeconds), onShard, StoreShard.expire,
    FlatStore.expire, view_strings]
  cases h : (s.getShard hash key).stringMap.lookup key with
  | none => simp [h, FlatStore.putString_self, view_strings]
  | some e =>
    cases he : e.expired now
    · by_cases ht : 0 < ttlSeconds <;> simp [he, ht]
    · simp [he]

theorem view_ttl : ((s.ttl hash now key).1, (s.ttl hash now key).2.view hash) =
    (s.view hash).ttl now key := by
  unfold ttl
  rw [view_onShard_string (stringOnly_ttl now key), onShard, StoreShard.ttl, FlatStore.ttl,
    view_strings, view_hashes, view_lists]
  cases h : (s.getShard hash key).stringMap.lookup key with
  | none => simp [h, FlatStore.putString_self, view_strings]
  | some e =>
    cases hd : e.expiresAt with
    | none => simp [hd, h, FlatStore.putString_self, view_strings]
    | some d =>
      by_cases hn : d ≤ now
      · simp [hd, hn, StoreShard.ttlPurge]
      · simp [hd, hn, h, FlatStore.putString_self, view_strings, FlatStore.secondsLeft]

theorem view_incrBy (delta : Int) :
    ((s.incrBy hash now key delta).1, (s.incrBy hash now key delta).2.view hash) =
      (s.view hash).incrBy now key delta := by
  unfold incrBy
  rw [view_onShard_string (stringOnly_incrBy now key delta), onShard, StoreShard.incrBy,
    FlatStore.incrBy, view_strings]
  cases h : (s.getShard hash key).stringMap.lookup key with
  | none => simp
  | some e =>
    cases he : e.expired now
    · cases hv : stoll e.value with
      | none => simp [he, hv, h, FlatStore.putString_self, view_strings]
      | some v => simp [he, hv]
    · simp [he]

theorem exists_eq : s.exists hash now key = (s.view hash).exists now key := by
  unfold «exists» StoreShard.exists FlatStore.exists FlatStore.fresh
  simp only [view, Option.isSome_map]
  cases h : (s.getShard hash key).stringMap.lookup key with
  | none => simp
  | some e => cases he : e.expired now <;> simp [he]

/-! ## 6. The methods on hashes -/

theorem view_hset : ((s.hset hash key field value).1, (s.hset hash key field value).2.view hash) =
    (s.view hash).hset key field value := by
  unfold hset
  rw [view_onShard_hash (hashOnly_hset key field value), onShard, StoreShard.hset,
    FlatStore.hset, FlatStore.hget, FlatStore.fieldsOf, view_hashes]
  cases h : (s.getShard hash key).hashMap.lookup key with
  | none => simp
  | some m => simp [fieldFun_insert, fieldFun]

theorem hget_eq : s.hget hash key field = (s.view hash).hget key field := by
  rw [hget, StoreShard.hget, FlatStore.hget, view_hashes]
  cases (s.getShard hash key).hashMap.lookup key <;> rfl

theorem view_hdel : ((s.hdel hash key field).1, (s.hdel hash key field).2.view hash) =
    (s.view hash).hdel key field := by
  unfold hdel
  rw [view_onShard_hash (hashOnly_hdel key field), onShard, StoreShard.hdel, FlatStore.hdel,
    view_hashes]
  cases h : (s.getShard hash key).hashMap.lookup key with
  | none => simp [h, FlatStore.putHash_self, view_hashes]
  | some m =>
    have hiff := entries_eq_nil_iff (m.erase field)
    rw [fieldFun_erase] at hiff
    by_cases he : (m.erase field).entries = []
    · simp [he, hiff.mp he, fieldFun]
    · simp [he, mt hiff.mpr he, fieldFun, fieldFun_erase]

theorem hexists_eq : s.hexists hash key field = ((s.view hash).hget key field).isSome := by
  rw [hexists, hget_eq]

/-! ## 7. The methods on lists -/

theorem view_lpush : ((s.lpush hash key value).1, (s.lpush hash key value).2.view hash) =
    (s.view hash).lpush key value := by
  unfold lpush
  rw [view_onShard_list (listOnly_lpush key value), onShard, StoreShard.lpush, FlatStore.lpush,
    FlatStore.elemsOf, view_lists]
  simp [FlatStore.putList]

theorem view_rpush : ((s.rpush hash key value).1, (s.rpush hash key value).2.view hash) =
    (s.view hash).rpush key value := by
  unfold rpush
  rw [view_onShard_list (listOnly_rpush key value), onShard, StoreShard.rpush, FlatStore.rpush,
    FlatStore.elemsOf, view_lists]
  simp [FlatStore.putList]

theorem view_lpop : ((s.lpop hash key).1, (s.lpop hash key).2.view hash) =
    (s.view hash).lpop key := by
  unfold lpop
  rw [view_onShard_list (listOnly_lpop key), onShard, StoreShard.lpop, FlatStore.lpop,
    FlatStore.elemsOf, view_lists]
  cases h : (s.getShard hash key).listMap.lookup key with
  | none => simp [h, FlatStore.putListAt_self, view_lists]
  | some l =>
    cases l with
    | nil => simp [h, FlatStore.putListAt_self, view_lists]
    | cons v rest => cases rest <;> simp [FlatStore.putList]

theorem view_rpop : ((s.rpop hash key).1, (s.rpop hash key).2.view hash) =
    (s.view hash).rpop key := by
  unfold rpop
  rw [view_onShard_list (listOnly_rpop key), onShard, StoreShard.rpop, FlatStore.rpop,
    FlatStore.elemsOf, view_lists]
  cases h : (s.getShard hash key).listMap.lookup key with
  | none => simp [h, FlatStore.putListAt_self, view_lists]
  | some l =>
    cases hl : l.getLast? with
    | none => simp [hl, h, FlatStore.putListAt_self, view_lists]
    | some v => simp [hl, FlatStore.putList]

theorem llen_eq : s.llen hash key = (s.view hash).llen key := rfl

theorem lrange_eq (start stop : Int) :
    s.lrange hash key start stop = (s.view hash).lrange key start stop := rfl

/-! ## 8. Deleting a key -/

theorem view_del : ((s.del hash key).1, (s.del hash key).2.view hash) =
    (s.view hash).del key := by
  have honly : KeyOnly key (StoreShard.del key) :=
    ⟨fun _ _ => AList.lookup_erase_ne, fun _ _ => AList.lookup_erase_ne,
      fun _ _ => AList.lookup_erase_ne⟩
  have hview : (s.del hash key).2.view hash = (s.view hash).erase key := by
    rw [del, view_onShard honly]
    simp [StoreShard.del, FlatStore.erase]
  rw [hview, FlatStore.del]
  refine Prod.ext ?_ rfl
  simp [del, onShard, StoreShard.del, FlatStore.holds, view_strings, view_hashes, view_lists,
    Bool.or_assoc]

end KeyValueStore

end KeyValueDb
