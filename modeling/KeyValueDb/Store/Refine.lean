/-
# The sharded store refines the reference store

Run any sequence of calls on the sharded store and on the reference store, both empty at the
start: call by call they answer the same, `hgetall` and `get_snapshot` up to order.  For the
methods on a key this is what `Store/View.lean` proves.  `size` and `get_snapshot` walk the
shards, and there the argument needs an invariant: a key sits only in the shard its hash
selects (`WellPlaced`), which every call keeps (`WellPlaced.call`).
-/
import KeyValueDb.Lib.Placement
import KeyValueDb.Store.View

namespace KeyValueDb

open Lib Function

variable {hash : Bytes → Nat}

/-! ## 1. The placement invariant -/

/-- A key is only in the shard its hash selects, in each of the three maps. -/
structure WellPlaced (hash : Bytes → Nat) (s : KeyValueStore) : Prop where
  strings : Placed (getShardIndex hash) fun i => (s.shards i).stringMap
  hashes : Placed (getShardIndex hash) fun i => (s.shards i).hashMap
  lists : Placed (getShardIndex hash) fun i => (s.shards i).listMap

theorem wellPlaced_empty : WellPlaced hash KeyValueStore.empty :=
  ⟨placed_empty _, placed_empty _, placed_empty _⟩

/-- A method that adds no key to the shard but its own. -/
structure GainsOnly (key : Bytes) {α : Type} (f : StoreShard → α × StoreShard) : Prop where
  strings : ∀ sh, ∀ k ∈ (f sh).2.stringMap, k = key ∨ k ∈ sh.stringMap
  hashes : ∀ sh, ∀ k ∈ (f sh).2.hashMap, k = key ∨ k ∈ sh.hashMap
  lists : ∀ sh, ∀ k ∈ (f sh).2.listMap, k = key ∨ k ∈ sh.listMap

section GainsOnly

variable {α : Type} {key : Bytes} {f : StoreShard → α × StoreShard}

theorem StringOnly.gainsOnly (h : StringOnly key f) : GainsOnly key f where
  strings sh k hk := by
    rcases h sh with he | ⟨e, he⟩ <;> rw [he] at hk
    · exact Or.inr hk
    · cases e with
      | none => exact Or.inr (AList.mem_erase.mp hk).2
      | some e => exact (AList.mem_insert _).mp hk
  hashes sh k hk := by
    rcases h sh with he | ⟨e, he⟩ <;> rw [he] at hk <;> exact Or.inr hk
  lists sh k hk := by
    rcases h sh with he | ⟨e, he⟩ <;> rw [he] at hk <;> exact Or.inr hk

theorem HashOnly.gainsOnly (h : HashOnly key f) : GainsOnly key f where
  strings sh k hk := by
    rcases h sh with he | ⟨e, he⟩ <;> rw [he] at hk <;> exact Or.inr hk
  hashes sh k hk := by
    rcases h sh with he | ⟨m, he⟩ <;> rw [he] at hk
    · exact Or.inr hk
    · cases m with
      | none => exact Or.inr (AList.mem_erase.mp hk).2
      | some m => exact (AList.mem_insert _).mp hk
  lists sh k hk := by
    rcases h sh with he | ⟨e, he⟩ <;> rw [he] at hk <;> exact Or.inr hk

theorem ListOnly.gainsOnly (h : ListOnly key f) : GainsOnly key f where
  strings sh k hk := by
    rcases h sh with he | ⟨e, he⟩ <;> rw [he] at hk
    · exact Or.inr hk
    · rw [StoreShard.putList_stringMap] at hk; exact Or.inr hk
  hashes sh k hk := by
    rcases h sh with he | ⟨e, he⟩ <;> rw [he] at hk
    · exact Or.inr hk
    · rw [StoreShard.putList_hashMap] at hk; exact Or.inr hk
  lists sh k hk := by
    rcases h sh with he | ⟨l, he⟩ <;> rw [he] at hk
    · exact Or.inr hk
    · unfold StoreShard.putList at hk
      split at hk
      · exact Or.inr (AList.mem_erase.mp hk).2
      · exact (AList.mem_insert _).mp hk

theorem gainsOnly_del : GainsOnly key (StoreShard.del key) where
  strings _ _ hk := Or.inr (AList.mem_erase.mp hk).2
  hashes _ _ hk := Or.inr (AList.mem_erase.mp hk).2
  lists _ _ hk := Or.inr (AList.mem_erase.mp hk).2

/-- Reading a field of the shards after one of them was replaced. -/
theorem field_update {β : Type} (look : StoreShard → β) (shards : Fin numShards → StoreShard)
    (i : Fin numShards) (sh : StoreShard) :
    (fun j => look (update shards i sh j)) = update (fun j => look (shards j)) i (look sh) := by
  funext j
  by_cases h : j = i
  · subst h; simp
  · simp [update_of_ne h]

theorem WellPlaced.onShard {s : KeyValueStore} (h : WellPlaced hash s) (hf : GainsOnly key f) :
    WellPlaced hash (s.onShard hash key f).2 where
  strings := by
    unfold KeyValueStore.onShard
    rw [field_update fun sh => sh.stringMap]
    exact h.strings.update key fun k hk => hf.strings _ k hk
  hashes := by
    unfold KeyValueStore.onShard
    rw [field_update fun sh => sh.hashMap]
    exact h.hashes.update key fun k hk => hf.hashes _ k hk
  lists := by
    unfold KeyValueStore.onShard
    rw [field_update fun sh => sh.listMap]
    exact h.lists.update key fun k hk => hf.lists _ k hk

end GainsOnly

/-- **Every call keeps the placement.** -/
theorem WellPlaced.call {s : KeyValueStore} (h : WellPlaced hash s) (order : IterOrder)
    (now : Time) (c : Call) : WellPlaced hash (s.call hash order now c).2 := by
  cases c with
  | set k v t => exact h.onShard (stringOnly_set now k v t).gainsOnly
  | get k => exact h.onShard (stringOnly_get now k).gainsOnly
  | del k => exact h.onShard gainsOnly_del
  | expire k t => exact h.onShard (stringOnly_expire now k t).gainsOnly
  | ttl k => exact h.onShard (stringOnly_ttl now k).gainsOnly
  | clear => exact wellPlaced_empty
  | incrBy k d => exact h.onShard (stringOnly_incrBy now k d).gainsOnly
  | hset k f v => exact h.onShard (hashOnly_hset k f v).gainsOnly
  | hdel k f => exact h.onShard (hashOnly_hdel k f).gainsOnly
  | lpush k v => exact h.onShard (listOnly_lpush k v).gainsOnly
  | rpush k v => exact h.onShard (listOnly_rpush k v).gainsOnly
  | lpop k => exact h.onShard (listOnly_lpop k).gainsOnly
  | rpop k => exact h.onShard (listOnly_rpop k).gainsOnly
  | «exists» _ | size | hget _ _ | hexists _ _ | hlen _ | hgetall _ | llen _ | lrange _ _ _
  | getSnapshot => exact h

/-! ## 2. Counting and listing -/

theorem lookupAt_strings (s : KeyValueStore) (k : Bytes) :
    lookupAt (getShardIndex hash) (fun i => (s.shards i).stringMap) k =
      (s.view hash).strings k := rfl

theorem lookupAt_lists (s : KeyValueStore) (k : Bytes) :
    lookupAt (getShardIndex hash) (fun i => (s.shards i).listMap) k =
      (s.view hash).lists k := rfl

theorem lookupAt_hashes (s : KeyValueStore) (k : Bytes) :
    (lookupAt (getShardIndex hash) (fun i => (s.shards i).hashMap) k).map fieldFun =
      (s.view hash).hashes k := rfl

/-- Three sums over the shards, for the sum of three. -/
theorem sum_map_add₃ (l : List (Fin numShards)) (a b c : Fin numShards → Nat) :
    (l.map fun i => a i + b i + c i).sum = (l.map a).sum + (l.map b).sum + (l.map c).sum := by
  induction l with
  | nil => rfl
  | cons i l ih =>
    simp only [List.map_cons, List.sum_cons, ih]
    omega

/-- **`size` counts the keys of the view.** -/
theorem WellPlaced.size_eq {s : KeyValueStore} (h : WellPlaced hash s) (now : Time) :
    s.size now = (s.view hash).size now := by
  have hs := ncard_lookupAt h.strings fun e => !e.expired now
  have hh := ncard_lookupAt h.hashes fun _ => true
  have hl := ncard_lookupAt h.lists fun _ => true
  have hset : {k | ∃ m, (s.view hash).hashes k = some m} =
      {k | ∃ m, lookupAt (getShardIndex hash) (fun i => (s.shards i).hashMap) k = some m ∧
        true = true} := by
    ext k
    simp only [Set.mem_ofPred_eq, ← lookupAt_hashes]
    cases lookupAt (getShardIndex hash) (fun i => (s.shards i).hashMap) k <;> simp
  unfold KeyValueStore.size StoreShard.size FlatStore.size
  rw [sum_map_add₃, hset, hh, ← hs]
  simp only [← lookupAt_strings, ← lookupAt_lists]
  simp only [and_true] at hl
  rw [hl]
  simp

/-- What a snapshot must show of a store at the instant `now`. -/
structure StoreSnapshot.Shows (now : Time) (snap : StoreSnapshot) (F : FlatStore) : Prop where
  strings : Lists snap.strings fun k =>
    ((F.strings k).filter fun e => !e.expired now).map StoreEntry.value
  hashKeys : (snap.hashes.map Prod.fst).Nodup
  hashFields : ∀ k ps, (k, ps) ∈ snap.hashes → ∃ m, F.hashes k = some m ∧ Lists ps m
  hashAll : ∀ k m, F.hashes k = some m → ∃ ps, (k, ps) ∈ snap.hashes
  lists : Lists snap.lists F.lists

theorem lists_pairs (order : IterOrder) (fields : Map Bytes) :
    Lists (StoreShard.pairs order fields) (fieldFun fields) :=
  lists_of_perm (order.perm fields.entries)

/-- **A snapshot shows the view.** -/
theorem WellPlaced.getSnapshot_shows {s : KeyValueStore} (h : WellPlaced hash s)
    (order : IterOrder) (now : Time) :
    (s.getSnapshot order now).Shows now (s.view hash) := by
  have hH := lists_flatMap_all h.hashes (fun i => order.perm (s.shards i).hashMap.entries)
    (StoreShard.pairs order)
  have hL := lists_flatMap_all h.lists (fun i => order.perm (s.shards i).listMap.entries) id
  simp only [Option.map_id, id] at hL
  refine ⟨lists_flatMap h.strings (fun i => order.perm _) (fun e => !e.expired now) _,
    hH.1, ?_, ?_, hL⟩
  · intro k ps hk
    obtain ⟨m, hm, rfl⟩ := Option.map_eq_some_iff.mp ((hH.2 k ps).mp hk)
    refine ⟨fieldFun m, ?_, lists_pairs order m⟩
    rw [← lookupAt_hashes, hm, Option.map_some]
  · intro k m hm
    rw [← lookupAt_hashes] at hm
    obtain ⟨fields, hf, -⟩ := Option.map_eq_some_iff.mp hm
    exact ⟨StoreShard.pairs order fields, (hH.2 k _).mpr (by simp only [hf, Option.map_some])⟩

/-- **`hgetall` lists the fields of the key.** -/
theorem hgetall_lists (s : KeyValueStore) (order : IterOrder) (key : Bytes) :
    Lists (s.hgetall hash order key) ((s.view hash).fieldsOf key) := by
  unfold KeyValueStore.hgetall StoreShard.hgetall FlatStore.fieldsOf
  rw [KeyValueStore.view_hashes]
  cases (s.getShard hash key).hashMap.lookup key with
  | none => exact ⟨List.nodup_nil, fun _ _ => by simp⟩
  | some fields => exact lists_pairs order fields

theorem hlen_eq (s : KeyValueStore) (key : Bytes) :
    s.hlen hash key = (s.view hash).hlen key := by
  unfold KeyValueStore.hlen StoreShard.hlen FlatStore.hlen FlatStore.fieldsOf
  rw [KeyValueStore.view_hashes]
  cases h : (s.getShard hash key).hashMap.lookup key with
  | none => simp
  | some fields =>
    have hl := lists_of_perm (List.Perm.refl fields.entries)
    rw [Option.map_some, Option.getD_some,
      ncard_eq_length (l := fields.keys) fields.keys_nodup]
    · simp [AList.keys, List.keys]
    · intro f
      rw [← AList.mem_keys, ← AList.lookup_isSome, Option.isSome_iff_exists]
      rfl

/-! ## 3. Calls on the reference store -/

/-- The result of a call on the reference store: maps where the sharded store answers with a
list in some order. -/
inductive FlatResult
  | unit
  | bool (b : Bool)
  | int (n : Int)
  | size (n : Nat)
  | value (v : Option Bytes)
  | counter (r : Bool × Int)
  | fields (m : Bytes → Option Bytes)
  | elems (xs : List Bytes)
  | snapshot (now : Time) (F : FlatStore)

/-- Run one call on the reference store. -/
noncomputable def FlatStore.call (now : Time) (c : Call) (F : FlatStore) :
    FlatResult × FlatStore :=
  match c with
  | .set k v t => (.unit, F.set now k v t)
  | .get k => (.value (F.get now k).1, (F.get now k).2)
  | .del k => (.bool (F.del k).1, (F.del k).2)
  | .exists k => (.bool (F.exists now k), F)
  | .expire k t => (.bool (F.expire now k t).1, (F.expire now k t).2)
  | .ttl k => (.int (F.ttl now k).1, (F.ttl now k).2)
  | .size => (.size (F.size now), F)
  | .clear => (.unit, FlatStore.empty)
  | .incrBy k d => (.counter (F.incrBy now k d).1, (F.incrBy now k d).2)
  | .hset k f v => (.bool (F.hset k f v).1, (F.hset k f v).2)
  | .hget k f => (.value (F.hget k f), F)
  | .hdel k f => (.bool (F.hdel k f).1, (F.hdel k f).2)
  | .hexists k f => (.bool (F.hget k f).isSome, F)
  | .hlen k => (.size (F.hlen k), F)
  | .hgetall k => (.fields (F.fieldsOf k), F)
  | .lpush k v => (.size (F.lpush k v).1, (F.lpush k v).2)
  | .rpush k v => (.size (F.rpush k v).1, (F.rpush k v).2)
  | .lpop k => (.value (F.lpop k).1, (F.lpop k).2)
  | .rpop k => (.value (F.rpop k).1, (F.rpop k).2)
  | .llen k => (.size (F.llen k), F)
  | .lrange k a b => (.elems (F.lrange k a b), F)
  | .getSnapshot => (.snapshot now F, F)

/-- The same answer; where the sharded store lists a map, the list holds exactly the map. -/
def CallResult.Agrees : CallResult → FlatResult → Prop
  | .unit, .unit => True
  | .bool a, .bool b => a = b
  | .int a, .int b => a = b
  | .size a, .size b => a = b
  | .value a, .value b => a = b
  | .counter a, .counter b => a = b
  | .pairs ps, .fields m => Lists ps m
  | .elems a, .elems b => a = b
  | .snapshot snap, .snapshot now F => snap.Shows now F
  | _, _ => False

/-- A call leaves the view that the reference call leaves, wherever the keys are. -/
theorem KeyValueStore.view_call (s : KeyValueStore) (order : IterOrder) (now : Time) (c : Call) :
    (s.call hash order now c).2.view hash = ((s.view hash).call now c).2 := by
  cases c with
  | set k v t => exact s.view_set hash now k v t
  | get k => exact (Prod.ext_iff.mp (s.view_get hash now k)).2
  | del k => exact (Prod.ext_iff.mp (s.view_del hash k)).2
  | expire k t => exact (Prod.ext_iff.mp (s.view_expire hash now k t)).2
  | ttl k => exact (Prod.ext_iff.mp (s.view_ttl hash now k)).2
  | clear => rfl
  | incrBy k d => exact (Prod.ext_iff.mp (s.view_incrBy hash now k d)).2
  | hset k f v => exact (Prod.ext_iff.mp (s.view_hset hash k f v)).2
  | hdel k f => exact (Prod.ext_iff.mp (s.view_hdel hash k f)).2
  | lpush k v => exact (Prod.ext_iff.mp (s.view_lpush hash k v)).2
  | rpush k v => exact (Prod.ext_iff.mp (s.view_rpush hash k v)).2
  | lpop k => exact (Prod.ext_iff.mp (s.view_lpop hash k)).2
  | rpop k => exact (Prod.ext_iff.mp (s.view_rpop hash k)).2
  | «exists» _ | size | hget _ _ | hexists _ _ | hlen _ | hgetall _ | llen _ | lrange _ _ _
  | getSnapshot => rfl

/-- **One call.**  On a well placed store a call answers as on its view, and leaves the view
that the reference call leaves. -/
theorem WellPlaced.call_refines {s : KeyValueStore} (h : WellPlaced hash s) (order : IterOrder)
    (now : Time) (c : Call) :
    ((s.call hash order now c).1).Agrees ((s.view hash).call now c).1 ∧
      (s.call hash order now c).2.view hash = ((s.view hash).call now c).2 := by
  refine ⟨?_, s.view_call order now c⟩
  cases c with
  | set k v t => trivial
  | get k => exact (Prod.ext_iff.mp (s.view_get hash now k)).1
  | del k => exact (Prod.ext_iff.mp (s.view_del hash k)).1
  | «exists» k => exact s.exists_eq hash now k
  | expire k t => exact (Prod.ext_iff.mp (s.view_expire hash now k t)).1
  | ttl k => exact (Prod.ext_iff.mp (s.view_ttl hash now k)).1
  | size => exact h.size_eq now
  | clear => trivial
  | incrBy k d => exact (Prod.ext_iff.mp (s.view_incrBy hash now k d)).1
  | hset k f v => exact (Prod.ext_iff.mp (s.view_hset hash k f v)).1
  | hget k f => exact s.hget_eq hash k f
  | hdel k f => exact (Prod.ext_iff.mp (s.view_hdel hash k f)).1
  | hexists k f => exact s.hexists_eq hash k f
  | hlen k => exact hlen_eq s k
  | hgetall k => exact hgetall_lists s order k
  | lpush k v => exact (Prod.ext_iff.mp (s.view_lpush hash k v)).1
  | rpush k v => exact (Prod.ext_iff.mp (s.view_rpush hash k v)).1
  | lpop k => exact (Prod.ext_iff.mp (s.view_lpop hash k)).1
  | rpop k => exact (Prod.ext_iff.mp (s.view_rpop hash k)).1
  | llen k => exact s.llen_eq hash k
  | lrange k a b => exact s.lrange_eq hash k a b
  | getSnapshot => exact h.getSnapshot_shows order now

/-! ## 4. Runs -/

/-- Run calls one after the other on the reference store. -/
noncomputable def FlatStore.runCalls : List TimedCall → FlatStore → List FlatResult × FlatStore
  | [], F => ([], F)
  | t :: ts, F =>
    let r := F.call t.now t.call
    ((r.1 :: (runCalls ts r.2).1), (runCalls ts r.2).2)

theorem WellPlaced.runCalls {s : KeyValueStore} (h : WellPlaced hash s) (ts : List TimedCall) :
    WellPlaced hash (s.runCalls hash ts).2 := by
  induction ts generalizing s with
  | nil => exact h
  | cons t ts ih => exact ih (h.call t.order t.now t.call)

/-- **A run of calls**, from any well placed store: call by call the same answers. -/
theorem WellPlaced.runCalls_refines {s : KeyValueStore} (h : WellPlaced hash s)
    (ts : List TimedCall) :
    List.Forall₂ CallResult.Agrees (s.runCalls hash ts).1
      (FlatStore.runCalls ts (s.view hash)).1 := by
  induction ts generalizing s with
  | nil => exact .nil
  | cons t ts ih =>
    obtain ⟨hr, hv⟩ := h.call_refines t.order t.now t.call
    refine .cons hr ?_
    have := ih (h.call t.order t.now t.call)
    rwa [hv] at this

/-! ## 5. Keys do not interfere -/

namespace FlatStore

/-- The two stores hold the same at a key. -/
structure SameAt (k : Bytes) (F G : FlatStore) : Prop where
  strings : F.strings k = G.strings k
  hashes : F.hashes k = G.hashes k
  lists : F.lists k = G.lists k

theorem SameAt.refl (k : Bytes) (F : FlatStore) : SameAt k F F := ⟨rfl, rfl, rfl⟩

theorem sameAt_putString {k key : Bytes} (hk : k ≠ key) (e : Option StoreEntry)
    (F : FlatStore) : SameAt k (F.putString key e) F :=
  ⟨update_of_ne hk _ _, rfl, rfl⟩

theorem sameAt_putHash {k key : Bytes} (hk : k ≠ key) (m : Option (Bytes → Option Bytes))
    (F : FlatStore) : SameAt k (F.putHash key m) F :=
  ⟨rfl, update_of_ne hk _ _, rfl⟩

theorem sameAt_putListAt {k key : Bytes} (hk : k ≠ key) (l : Option (List Bytes))
    (F : FlatStore) : SameAt k (F.putListAt key l) F :=
  ⟨rfl, rfl, update_of_ne hk _ _⟩

/-- **A call on one key leaves every other key alone.** -/
theorem call_sameAt {now : Time} {c : Call} {key k : Bytes} (hc : c.key? = some key)
    (hk : k ≠ key) (F : FlatStore) : SameAt k (F.call now c).2 F := by
  cases c <;> simp only [Call.key?, Option.some.injEq, reduceCtorEq] at hc <;> subst hc
  case set v t => exact sameAt_putString hk _ F
  case get =>
    simp only [call, get]
    split
    · exact SameAt.refl k F
    · split <;> exact sameAt_putString hk _ F
  case del => exact ⟨update_of_ne hk _ _, update_of_ne hk _ _, update_of_ne hk _ _⟩
  case expire t =>
    simp only [call, expire]
    split
    · exact SameAt.refl k F
    · split
      · exact sameAt_putString hk _ F
      · split <;> exact sameAt_putString hk _ F
  case ttl =>
    simp only [call, ttl]
    split
    · exact SameAt.refl k F
    · split
      · exact SameAt.refl k F
      · split
        · exact sameAt_putString hk _ F
        · exact SameAt.refl k F
  case incrBy d =>
    simp only [call, incrBy]
    split
    · exact sameAt_putString hk _ F
    · split
      · exact sameAt_putString hk _ F
      · split
        · exact SameAt.refl k F
        · exact sameAt_putString hk _ F
  case hset f v => exact sameAt_putHash hk _ F
  case hdel f =>
    simp only [call, hdel]
    split
    · exact SameAt.refl k F
    · exact sameAt_putHash hk _ F
  case lpush v => exact sameAt_putListAt hk _ F
  case rpush v => exact sameAt_putListAt hk _ F
  case lpop =>
    simp only [call, lpop]
    split
    · exact SameAt.refl k F
    · exact sameAt_putListAt hk _ F
  case rpop =>
    simp only [call, rpop]
    split
    · exact SameAt.refl k F
    · exact sameAt_putListAt hk _ F
  all_goals exact SameAt.refl k F

/-- A call leaves a key alone, or is on it, or clears everything. -/
theorem call_sameAt_or {now : Time} (c : Call) (k : Bytes) (F : FlatStore) :
    SameAt k (F.call now c).2 F ∨ c.key? = some k ∨ c = .clear := by
  cases hc : c.key? with
  | none =>
    cases c <;> simp only [Call.key?, reduceCtorEq] at hc
    case clear => exact Or.inr (Or.inr rfl)
    all_goals exact Or.inl (SameAt.refl k F)
  | some key =>
    by_cases hk : k = key
    · exact Or.inr (Or.inl (congrArg some hk.symm))
    · exact Or.inl (call_sameAt hc hk F)

/-- What a call on a key answers depends on that key only. -/
theorem call_congr {now : Time} {c : Call} {k : Bytes} (hc : c.key? = some k)
    {F G : FlatStore} (h : SameAt k F G) : (F.call now c).1 = (G.call now c).1 := by
  obtain ⟨hs, hh, hl⟩ := h
  cases c <;> simp only [Call.key?, Option.some.injEq, reduceCtorEq] at hc <;> subst hc
  case get =>
    simp only [call, get, hs]
    split
    · rfl
    · split <;> rfl
  case expire t =>
    simp only [call, expire, hs]
    split
    · rfl
    · split
      · rfl
      · split <;> rfl
  case ttl =>
    simp only [call, ttl, hs, hh, hl]
    split
    · rfl
    · split
      · rfl
      · split <;> rfl
  case incrBy d =>
    simp only [call, incrBy, hs]
    split
    · rfl
    · split
      · rfl
      · split <;> rfl
  case del k =>
    have hiff : F.holds k ↔ G.holds k := by simp only [holds, hs, hh, hl]
    exact congrArg FlatResult.bool (decide_eq_decide.mpr hiff)
  case «exists» k =>
    have hiff : (F.fresh now k ∨ (F.hashes k).isSome ∨ (F.lists k).isSome) ↔
        (G.fresh now k ∨ (G.hashes k).isSome ∨ (G.lists k).isSome) := by
      simp only [fresh, hs, hh, hl]
    exact congrArg FlatResult.bool (decide_eq_decide.mpr hiff)
  case hdel f =>
    simp only [call, hdel, hh]
    split <;> rfl
  case lpop =>
    simp only [call, lpop, elemsOf, hl]
    split <;> rfl
  case rpop =>
    simp only [call, rpop, elemsOf, hl]
    split <;> rfl
  all_goals
    simp only [call, set, hset, hget, hlen, fieldsOf, lpush, rpush, llen, lrange, elemsOf, hh, hl]

end FlatStore

/-- **The 64-shard store refines one flat store.**  For every hash function and every sequence
of timed calls the results are those of the reference store, call by call; and after any of
them a call on one key changes no answer about another. -/
theorem sharded_refines_flat (hash : Bytes → Nat) (calls : List TimedCall) :
    List.Forall₂ CallResult.Agrees (KeyValueStore.empty.runCalls hash calls).1
        (FlatStore.runCalls calls FlatStore.empty).1 ∧
      ∀ (t t' : TimedCall) (k k' : Bytes), t.call.key? = some k → t'.call.key? = some k' →
        k' ≠ k → ∀ s, s = (KeyValueStore.empty.runCalls hash calls).2 →
          ∃ R : FlatResult,
            (s.call hash t'.order t'.now t'.call).1.Agrees R ∧
            ((s.call hash t.order t.now t.call).2.call hash t'.order t'.now t'.call).1.Agrees
              R := by
  refine ⟨wellPlaced_empty.runCalls_refines calls, ?_⟩
  rintro t t' k k' hk hk' hne s rfl
  have hwp := (wellPlaced_empty : WellPlaced hash .empty).runCalls calls
  set s := (KeyValueStore.empty.runCalls hash calls).2
  have hview := (hwp.call_refines t.order t.now t.call).2
  have hafter := ((hwp.call t.order t.now t.call).call_refines t'.order t'.now t'.call).1
  rw [hview, FlatStore.call_congr hk' (FlatStore.call_sameAt hk hne (s.view hash))] at hafter
  exact ⟨_, (hwp.call_refines t'.order t'.now t'.call).1, hafter⟩

end KeyValueDb
