/-
# One shard of the store

A `StoreShard` holds three maps, and every operation of `KeyValueStore` on a key works on the
maps of one shard under its lock.  This module is that work: each definition is the body of
the method of the same name, from the point where the shard is chosen to the return.

`get` and `ttl` release the shared lock and take the exclusive one in between, so their
sections are definitions of their own (`getPeek`, `getTouch`, `getPurge`, `ttlPurge`); run
without interference they compose to `get` and `ttl`.

A `std::unordered_map` is an association list with distinct keys.  Its iteration order is not
specified, so whatever walks a map takes the order from outside (`IterOrder`).
-/
import KeyValueDb.Text
import Mathlib.Data.List.AList

namespace KeyValueDb

open Lib

/-! ## 1. Entries and maps -/

/-- A `steady_clock` time point: nanoseconds, as a signed 64-bit count. -/
abbrev Time := Int

/-- `std::unordered_map<std::string, V>`. -/
abbrev Map (V : Type) := AList fun _ : Bytes => V

/-- The implementation's choice of iteration order: some permutation of the entries. -/
structure IterOrder where
  iter : {V : Type} → List (Sigma fun _ : Bytes => V) → List (Sigma fun _ : Bytes => V)
  perm : ∀ {V : Type} (es : List (Sigma fun _ : Bytes => V)), (iter es).Perm es

/-- The order in which the entries are held. -/
def IterOrder.plain : IterOrder := ⟨id, fun _ => List.Perm.refl _⟩

structure StoreEntry where
  value : Bytes
  expiresAt : Option Time
  lastAccessed : Time
  deriving DecidableEq

/-- `expires_at.has_value() && expires_at.value() <= now`. -/
def StoreEntry.expired (now : Time) (e : StoreEntry) : Bool :=
  match e.expiresAt with
  | none => false
  | some d => decide (d ≤ now)

/-- `now + seconds`, computed in 64-bit nanoseconds. -/
def addSeconds (now : Time) (seconds : Int) : Time := wrap64 (now + seconds * 1000000000)

/-- The deadline `set` stores: none without a lifetime, and none for a lifetime that is not
positive. -/
def deadline (now : Time) : Option Int → Option Time
  | none => none
  | some seconds => if 0 < seconds then some (addSeconds now seconds) else none

structure StoreShard where
  stringMap : Map StoreEntry
  hashMap : Map (Map Bytes)
  listMap : Map (List Bytes)

namespace StoreShard

def empty : StoreShard := ⟨∅, ∅, ∅⟩

/-! ## 2. Strings and counters -/

def set (now : Time) (key value : Bytes) (ttlSeconds : Option Int) (shard : StoreShard) :
    StoreShard :=
  { shard with stringMap := shard.stringMap.insert key ⟨value, deadline now ttlSeconds, now⟩ }

/-- What the shared section of `get` finds. -/
inductive Peek
  | absent
  | fresh (val : Bytes)
  | stale

/-- The shared section of `get`. -/
def getPeek (now : Time) (key : Bytes) (shard : StoreShard) : Peek :=
  match shard.stringMap.lookup key with
  | none => .absent
  | some e => if e.expired now then .stale else .fresh e.value

/-- The exclusive section of `get` after a fresh value: stamp the entry, if it is still
there. -/
def getTouch (now : Time) (key : Bytes) (shard : StoreShard) : StoreShard :=
  match shard.stringMap.lookup key with
  | none => shard
  | some e => { shard with stringMap := shard.stringMap.insert key { e with lastAccessed := now } }

/-- The exclusive section of `get` after a stale one: look again, and erase it only if it is
still expired. -/
def getPurge (now : Time) (key : Bytes) (shard : StoreShard) : Option Bytes × StoreShard :=
  match shard.stringMap.lookup key with
  | none => (none, shard)
  | some e =>
    if e.expired now then (none, { shard with stringMap := shard.stringMap.erase key })
    else (some e.value, shard)

def get (now : Time) (key : Bytes) (shard : StoreShard) : Option Bytes × StoreShard :=
  match shard.getPeek now key with
  | .absent => (none, shard)
  | .fresh val => (some val, shard.getTouch now key)
  | .stale => shard.getPurge now key

def del (key : Bytes) (shard : StoreShard) : Bool × StoreShard :=
  ((shard.stringMap.lookup key).isSome || (shard.hashMap.lookup key).isSome ||
      (shard.listMap.lookup key).isSome,
    ⟨shard.stringMap.erase key, shard.hashMap.erase key, shard.listMap.erase key⟩)

def «exists» (now : Time) (key : Bytes) (shard : StoreShard) : Bool :=
  (match shard.stringMap.lookup key with
    | none => false
    | some e => !e.expired now) ||
  (shard.hashMap.lookup key).isSome || (shard.listMap.lookup key).isSome

def expire (now : Time) (key : Bytes) (ttlSeconds : Int) (shard : StoreShard) :
    Bool × StoreShard :=
  match shard.stringMap.lookup key with
  | none => (false, shard)
  | some e =>
    if e.expired now then (false, { shard with stringMap := shard.stringMap.erase key })
    else if 0 < ttlSeconds then
      (true, { shard with
        stringMap := shard.stringMap.insert key
          { e with expiresAt := some (addSeconds now ttlSeconds) } })
    else (true, { shard with stringMap := shard.stringMap.erase key })

/-- The exclusive section of `ttl`: erase the key, without looking again. -/
def ttlPurge (key : Bytes) (shard : StoreShard) : StoreShard :=
  { shard with stringMap := shard.stringMap.erase key }

def ttl (now : Time) (key : Bytes) (shard : StoreShard) : Int × StoreShard :=
  match shard.stringMap.lookup key with
  | none =>
    (if (shard.hashMap.lookup key).isSome || (shard.listMap.lookup key).isSome then -1 else -2,
      shard)
  | some e =>
    match e.expiresAt with
    | none => (-1, shard)
    | some d =>
      if d ≤ now then (-2, shard.ttlPurge key)
      else
        let remaining := (wrap64 (d - now)).tdiv 1000000000
        (if 0 ≤ remaining then remaining else -2, shard)

/-- The shard's share of `size`. -/
def size (now : Time) (shard : StoreShard) : Nat :=
  shard.stringMap.entries.countP (fun x => !x.2.expired now) +
    shard.hashMap.entries.length + shard.listMap.entries.length

/-- `incr_by` adds in 64 bits: the sum wraps around.  A missing or expired key starts at
`delta`, without a deadline. -/
def incrBy (now : Time) (key : Bytes) (delta : Int) (shard : StoreShard) :
    (Bool × Int) × StoreShard :=
  let start := ((true, delta),
    { shard with stringMap := shard.stringMap.insert key ⟨stdToString delta, none, now⟩ })
  match shard.stringMap.lookup key with
  | none => start
  | some e =>
    if e.expired now then start
    else match stoll e.value with
      | none => ((false, 0), shard)
      | some v =>
        ((true, wrap64 (v + delta)), { shard with
          stringMap := shard.stringMap.insert key
            { e with value := stdToString (wrap64 (v + delta)), lastAccessed := now } })

/-! ## 3. Hashes -/

def hset (key field value : Bytes) (shard : StoreShard) : Bool × StoreShard :=
  let fields := (shard.hashMap.lookup key).getD ∅
  ((fields.lookup field).isNone,
    { shard with hashMap := shard.hashMap.insert key (fields.insert field value) })

def hget (key field : Bytes) (shard : StoreShard) : Option Bytes :=
  (shard.hashMap.lookup key).bind fun fields => fields.lookup field

def hdel (key field : Bytes) (shard : StoreShard) : Bool × StoreShard :=
  match shard.hashMap.lookup key with
  | none => (false, shard)
  | some fields =>
    ((fields.lookup field).isSome,
      if (fields.erase field).entries = [] then
        { shard with hashMap := shard.hashMap.erase key }
      else { shard with hashMap := shard.hashMap.insert key (fields.erase field) })

def hlen (key : Bytes) (shard : StoreShard) : Nat :=
  match shard.hashMap.lookup key with
  | none => 0
  | some fields => fields.entries.length

/-- The field-value pairs of a map, as its iteration yields them. -/
def pairs (order : IterOrder) (fields : Map Bytes) : List (Bytes × Bytes) :=
  (order.iter fields.entries).map fun x => (x.1, x.2)

def hgetall (order : IterOrder) (key : Bytes) (shard : StoreShard) : List (Bytes × Bytes) :=
  match shard.hashMap.lookup key with
  | none => []
  | some fields => pairs order fields

/-! ## 4. Lists -/

def lpush (key value : Bytes) (shard : StoreShard) : Nat × StoreShard :=
  let list := value :: (shard.listMap.lookup key).getD []
  (list.length, { shard with listMap := shard.listMap.insert key list })

def rpush (key value : Bytes) (shard : StoreShard) : Nat × StoreShard :=
  let list := (shard.listMap.lookup key).getD [] ++ [value]
  (list.length, { shard with listMap := shard.listMap.insert key list })

/-- Put back what a pop left of a list: an emptied list is erased. -/
def putList (key : Bytes) (list : List Bytes) (shard : StoreShard) : StoreShard :=
  if list = [] then { shard with listMap := shard.listMap.erase key }
  else { shard with listMap := shard.listMap.insert key list }

def lpop (key : Bytes) (shard : StoreShard) : Option Bytes × StoreShard :=
  match (shard.listMap.lookup key).bind List.head? with
  | none => (none, shard)
  | some val => (some val, shard.putList key ((shard.listMap.lookup key).getD []).tail)

def rpop (key : Bytes) (shard : StoreShard) : Option Bytes × StoreShard :=
  match (shard.listMap.lookup key).bind List.getLast? with
  | none => (none, shard)
  | some val => (some val, shard.putList key ((shard.listMap.lookup key).getD []).dropLast)

def llen (key : Bytes) (shard : StoreShard) : Nat :=
  ((shard.listMap.lookup key).getD []).length

/-- The elements of `list` from index `start` to index `stop`. -/
def elements (list : List Bytes) (start stop : Int) : List Bytes :=
  (List.range (stop - start + 1).toNat).map fun i => list.getD (start.toNat + i) []

/-- The work of `lrange` on the list it found. -/
def slice (list : List Bytes) (start stop : Int) : List Bytes :=
  if list = [] then []
  else
    let len : Int := list.length
    let start := if start < 0 then max 0 (len + start) else start
    let stop := if stop < 0 then len + stop else stop
    if len ≤ start ∨ stop < start then []
    else elements list start (min stop (len - 1))

def lrange (key : Bytes) (start stop : Int) (shard : StoreShard) : List Bytes :=
  slice ((shard.listMap.lookup key).getD []) start stop

/-! ## 5. Expiry and eviction -/

/-- The scan of `purge_expired_keys` over the entries of the shard, at most `budget` of them:
the map it leaves and the number of keys it erased. -/
def purgeScan (now : Time) : Nat → List (Sigma fun _ : Bytes => StoreEntry) → Map StoreEntry →
    Nat × Map StoreEntry
  | 0, _, m => (0, m)
  | _, [], m => (0, m)
  | budget + 1, ⟨key, e⟩ :: rest, m =>
    if e.expired now then
      let r := purgeScan now budget rest (m.erase key)
      (r.1 + 1, r.2)
    else purgeScan now budget rest m

def purgeExpiredKeys (order : IterOrder) (now : Time) (maxKeys : Nat) (shard : StoreShard) :
    Nat × StoreShard :=
  let r := purgeScan now maxKeys (order.iter shard.stringMap.entries) shard.stringMap
  (r.1, { shard with stringMap := r.2 })

/-- The shard's share of the sample of `evict_lru_keys`: ten entries at most. -/
def sample (order : IterOrder) (shard : StoreShard) : List (Bytes × Time) :=
  ((order.iter shard.stringMap.entries).take 10).map fun x => (x.1, x.2.lastAccessed)

end StoreShard

end KeyValueDb
