/-
# The sharded store

`KeyValueStore` keeps 64 shards and sends every key to the shard its hash selects.  The hash
function is a parameter: nothing proved about the store depends on which one it is.

A method on a key is the method of the shard of that key (`onShard`, `atShard`); `size`,
`clear`, `get_snapshot` and the two maintenance methods walk all shards.  `Call` collects the
methods a client command or the loader can reach, with `call` to run one.
-/
import KeyValueDb.Store.Shard
import Mathlib.Data.List.FinRange
import Mathlib.Logic.Function.Basic

namespace KeyValueDb

open Lib

/-! ## 1. Shards -/

/-- `NUM_SHARDS`. -/
abbrev numShards : Nat := 64

instance : NeZero numShards := ⟨by decide⟩

/-- `get_shard_index`. -/
def getShardIndex (hash : Bytes → Nat) (key : Bytes) : Fin numShards :=
  ⟨hash key % numShards, Nat.mod_lt _ (by decide)⟩

structure KeyValueStore where
  shards : Fin numShards → StoreShard

/-- `StoreSnapshot`. -/
structure StoreSnapshot where
  strings : List (Bytes × Bytes)
  hashes : List (Bytes × List (Bytes × Bytes))
  lists : List (Bytes × List Bytes)

/-- What `evict_lru_keys` remembers of a sampled entry. -/
structure KeyTimestamp where
  key : Bytes
  lastAccessed : Time
  shardIdx : Fin numShards

/-- The implementation's `std::sort` by `last_accessed`: sorted, ties in any order. -/
structure SortOrder where
  sort : List KeyTimestamp → List KeyTimestamp
  perm : ∀ l, (sort l).Perm l
  sorted : ∀ l, (sort l).Pairwise fun a b => a.lastAccessed ≤ b.lastAccessed

namespace KeyValueStore

def empty : KeyValueStore := ⟨fun _ => StoreShard.empty⟩

variable (hash : Bytes → Nat)

/-- `get_shard`. -/
def getShard (key : Bytes) (s : KeyValueStore) : StoreShard := s.shards (getShardIndex hash key)

/-- Run a method of the shard of `key` that changes the shard. -/
def onShard {α : Type} (key : Bytes) (f : StoreShard → α × StoreShard) (s : KeyValueStore) :
    α × KeyValueStore :=
  ((f (s.getShard hash key)).1,
    ⟨Function.update s.shards (getShardIndex hash key) (f (s.getShard hash key)).2⟩)

/-! ## 2. Methods on a key -/

def set (now : Time) (key value : Bytes) (ttlSeconds : Option Int) (s : KeyValueStore) :
    KeyValueStore :=
  (s.onShard hash key fun shard => ((), shard.set now key value ttlSeconds)).2

def get (now : Time) (key : Bytes) (s : KeyValueStore) : Option Bytes × KeyValueStore :=
  s.onShard hash key (StoreShard.get now key)

def del (key : Bytes) (s : KeyValueStore) : Bool × KeyValueStore :=
  s.onShard hash key (StoreShard.del key)

def «exists» (now : Time) (key : Bytes) (s : KeyValueStore) : Bool :=
  (s.getShard hash key).exists now key

def expire (now : Time) (key : Bytes) (ttlSeconds : Int) (s : KeyValueStore) :
    Bool × KeyValueStore :=
  s.onShard hash key (StoreShard.expire now key ttlSeconds)

def ttl (now : Time) (key : Bytes) (s : KeyValueStore) : Int × KeyValueStore :=
  s.onShard hash key (StoreShard.ttl now key)

def incrBy (now : Time) (key : Bytes) (delta : Int) (s : KeyValueStore) :
    (Bool × Int) × KeyValueStore :=
  s.onShard hash key (StoreShard.incrBy now key delta)

def hset (key field value : Bytes) (s : KeyValueStore) : Bool × KeyValueStore :=
  s.onShard hash key (StoreShard.hset key field value)

def hget (key field : Bytes) (s : KeyValueStore) : Option Bytes :=
  (s.getShard hash key).hget key field

def hdel (key field : Bytes) (s : KeyValueStore) : Bool × KeyValueStore :=
  s.onShard hash key (StoreShard.hdel key field)

def hexists (key field : Bytes) (s : KeyValueStore) : Bool := (s.hget hash key field).isSome

def hlen (key : Bytes) (s : KeyValueStore) : Nat := (s.getShard hash key).hlen key

def hgetall (order : IterOrder) (key : Bytes) (s : KeyValueStore) : List (Bytes × Bytes) :=
  (s.getShard hash key).hgetall order key

def lpush (key value : Bytes) (s : KeyValueStore) : Nat × KeyValueStore :=
  s.onShard hash key (StoreShard.lpush key value)

def rpush (key value : Bytes) (s : KeyValueStore) : Nat × KeyValueStore :=
  s.onShard hash key (StoreShard.rpush key value)

def lpop (key : Bytes) (s : KeyValueStore) : Option Bytes × KeyValueStore :=
  s.onShard hash key (StoreShard.lpop key)

def rpop (key : Bytes) (s : KeyValueStore) : Option Bytes × KeyValueStore :=
  s.onShard hash key (StoreShard.rpop key)

def llen (key : Bytes) (s : KeyValueStore) : Nat := (s.getShard hash key).llen key

def lrange (key : Bytes) (start stop : Int) (s : KeyValueStore) : List Bytes :=
  (s.getShard hash key).lrange key start stop

/-! ## 3. Methods over all shards -/

def size (now : Time) (s : KeyValueStore) : Nat :=
  ((List.finRange numShards).map fun i => (s.shards i).size now).sum

def clear (_ : KeyValueStore) : KeyValueStore := empty

def getSnapshot (order : IterOrder) (now : Time) (s : KeyValueStore) : StoreSnapshot where
  strings := (List.finRange numShards).flatMap fun i =>
    ((order.iter (s.shards i).stringMap.entries).filter fun x => !x.2.expired now).map
      fun x => (x.1, x.2.value)
  hashes := (List.finRange numShards).flatMap fun i =>
    (order.iter (s.shards i).hashMap.entries).map
      fun x => (x.1, StoreShard.pairs order x.2)
  lists := (List.finRange numShards).flatMap fun i =>
    (order.iter (s.shards i).listMap.entries).map fun x => (x.1, x.2)

def purgeExpiredKeys (order : IterOrder) (now : Time) (maxKeysPerShard : Nat)
    (s : KeyValueStore) : Nat × KeyValueStore :=
  let r := fun i => (s.shards i).purgeExpiredKeys order now maxKeysPerShard
  (((List.finRange numShards).map fun i => (r i).1).sum, ⟨fun i => (r i).2⟩)

/-- The sample of `evict_lru_keys`, shard by shard. -/
def candidates (order : IterOrder) (s : KeyValueStore) : List KeyTimestamp :=
  (List.finRange numShards).flatMap fun i =>
    ((s.shards i).sample order).map fun x => ⟨x.1, x.2, i⟩

/-- Erase one victim, counting it if it was still there. -/
def evictOne (victim : KeyTimestamp) (acc : Nat × KeyValueStore) : Nat × KeyValueStore :=
  let shard := acc.2.shards victim.shardIdx
  (if (shard.stringMap.lookup victim.key).isSome then acc.1 + 1 else acc.1,
    ⟨Function.update acc.2.shards victim.shardIdx
      { shard with stringMap := shard.stringMap.erase victim.key }⟩)

def evictLruKeys (order : IterOrder) (sorter : SortOrder) (keysToEvict : Nat)
    (s : KeyValueStore) : Nat × KeyValueStore :=
  ((sorter.sort (s.candidates order)).take keysToEvict).foldl
    (fun acc victim => evictOne victim acc) (0, s)

end KeyValueStore

/-! ## 4. Calls -/

/-- One call of a method of the store. -/
inductive Call
  | set (key value : Bytes) (ttlSeconds : Option Int)
  | get (key : Bytes)
  | del (key : Bytes)
  | «exists» (key : Bytes)
  | expire (key : Bytes) (ttlSeconds : Int)
  | ttl (key : Bytes)
  | size
  | clear
  | incrBy (key : Bytes) (delta : Int)
  | hset (key field value : Bytes)
  | hget (key field : Bytes)
  | hdel (key field : Bytes)
  | hexists (key field : Bytes)
  | hlen (key : Bytes)
  | hgetall (key : Bytes)
  | lpush (key value : Bytes)
  | rpush (key value : Bytes)
  | lpop (key : Bytes)
  | rpop (key : Bytes)
  | llen (key : Bytes)
  | lrange (key : Bytes) (start stop : Int)
  | getSnapshot

/-- The key a call is about; none for the calls that walk the whole store. -/
def Call.key? : Call → Option Bytes
  | .set k _ _ | .get k | .del k | .exists k | .expire k _ | .ttl k | .incrBy k _ | .hset k _ _
  | .hget k _ | .hdel k _ | .hexists k _ | .hlen k | .hgetall k | .lpush k _ | .rpush k _
  | .lpop k | .rpop k | .llen k | .lrange k _ _ => some k
  | .size | .clear | .getSnapshot => none

/-- The result of a call. -/
inductive CallResult
  | unit
  | bool (b : Bool)
  | int (n : Int)
  | size (n : Nat)
  | value (v : Option Bytes)
  | counter (r : Bool × Int)
  | pairs (ps : List (Bytes × Bytes))
  | elems (xs : List Bytes)
  | snapshot (snap : StoreSnapshot)

/-- Run one call at the instant `now`. -/
def KeyValueStore.call (hash : Bytes → Nat) (order : IterOrder) (now : Time) (c : Call)
    (s : KeyValueStore) : CallResult × KeyValueStore :=
  match c with
  | .set k v t => (.unit, s.set hash now k v t)
  | .get k => (.value (s.get hash now k).1, (s.get hash now k).2)
  | .del k => (.bool (s.del hash k).1, (s.del hash k).2)
  | .exists k => (.bool (s.exists hash now k), s)
  | .expire k t => (.bool (s.expire hash now k t).1, (s.expire hash now k t).2)
  | .ttl k => (.int (s.ttl hash now k).1, (s.ttl hash now k).2)
  | .size => (.size (s.size now), s)
  | .clear => (.unit, s.clear)
  | .incrBy k d => (.counter (s.incrBy hash now k d).1, (s.incrBy hash now k d).2)
  | .hset k f v => (.bool (s.hset hash k f v).1, (s.hset hash k f v).2)
  | .hget k f => (.value (s.hget hash k f), s)
  | .hdel k f => (.bool (s.hdel hash k f).1, (s.hdel hash k f).2)
  | .hexists k f => (.bool (s.hexists hash k f), s)
  | .hlen k => (.size (s.hlen hash k), s)
  | .hgetall k => (.pairs (s.hgetall hash order k), s)
  | .lpush k v => (.size (s.lpush hash k v).1, (s.lpush hash k v).2)
  | .rpush k v => (.size (s.rpush hash k v).1, (s.rpush hash k v).2)
  | .lpop k => (.value (s.lpop hash k).1, (s.lpop hash k).2)
  | .rpop k => (.value (s.rpop hash k).1, (s.rpop hash k).2)
  | .llen k => (.size (s.llen hash k), s)
  | .lrange k a b => (.elems (s.lrange hash k a b), s)
  | .getSnapshot => (.snapshot (s.getSnapshot order now), s)

/-- A call with the clock reading and the iteration order it meets. -/
structure TimedCall where
  now : Time
  order : IterOrder
  call : Call

/-- Run calls one after the other: their results in order, and the store they leave. -/
def KeyValueStore.runCalls (hash : Bytes → Nat) : List TimedCall → KeyValueStore →
    List CallResult × KeyValueStore
  | [], s => ([], s)
  | t :: ts, s =>
    let r := s.call hash t.order t.now t.call
    ((r.1 :: (runCalls hash ts r.2).1), (runCalls hash ts r.2).2)

end KeyValueDb
