/-
# The reference store: three maps, no shards

What the store is for, without shards, locks or iteration orders: one map of strings, one of
hashes and one of lists, each a function from keys.  The operations update these functions at
one key; the counting ones count the keys that are present.  Lazy deletion is part of the
meaning: an expired entry stays in the string map until an operation removes it, and `del` or
`expire` can see that it was there.
-/
import KeyValueDb.Store.KeyValueStore
import Mathlib.Data.Set.Card

namespace KeyValueDb

open Lib

@[ext] structure FlatStore where
  strings : Bytes → Option StoreEntry
  hashes : Bytes → Option (Bytes → Option Bytes)
  lists : Bytes → Option (List Bytes)

namespace FlatStore

open Function

/-- Stores are equal when they hold the same under each key. -/
theorem ext_keys {F G : FlatStore} (hs : ∀ k, F.strings k = G.strings k)
    (hh : ∀ k, F.hashes k = G.hashes k) (hl : ∀ k, F.lists k = G.lists k) : F = G :=
  FlatStore.ext (funext hs) (funext hh) (funext hl)

/-- Nothing stored. -/
def empty : FlatStore := ⟨fun _ => none, fun _ => none, fun _ => none⟩

/-! ## 1. Strings and counters -/

def putString (key : Bytes) (e : Option StoreEntry) (F : FlatStore) : FlatStore :=
  { F with strings := update F.strings key e }

def set (now : Time) (key value : Bytes) (ttlSeconds : Option Int) (F : FlatStore) : FlatStore :=
  F.putString key (some ⟨value, deadline now ttlSeconds, now⟩)

def get (now : Time) (key : Bytes) (F : FlatStore) : Option Bytes × FlatStore :=
  match F.strings key with
  | none => (none, F)
  | some e =>
    if e.expired now then (none, F.putString key none)
    else (some e.value, F.putString key (some { e with lastAccessed := now }))

/-- Some map holds the key. -/
def holds (key : Bytes) (F : FlatStore) : Prop :=
  (F.strings key).isSome ∨ (F.hashes key).isSome ∨ (F.lists key).isSome

def erase (key : Bytes) (F : FlatStore) : FlatStore :=
  ⟨update F.strings key none, update F.hashes key none, update F.lists key none⟩

open Classical in
noncomputable def del (key : Bytes) (F : FlatStore) : Bool × FlatStore :=
  (decide (F.holds key), F.erase key)

/-- An entry that has not expired. -/
def fresh (now : Time) (key : Bytes) (F : FlatStore) : Prop :=
  ∃ e, F.strings key = some e ∧ e.expired now = false

open Classical in
noncomputable def «exists» (now : Time) (key : Bytes) (F : FlatStore) : Bool :=
  decide (F.fresh now key ∨ (F.hashes key).isSome ∨ (F.lists key).isSome)

def expire (now : Time) (key : Bytes) (ttlSeconds : Int) (F : FlatStore) : Bool × FlatStore :=
  match F.strings key with
  | none => (false, F)
  | some e =>
    if e.expired now then (false, F.putString key none)
    else if 0 < ttlSeconds then
      (true, F.putString key (some { e with expiresAt := some (addSeconds now ttlSeconds) }))
    else (true, F.putString key none)

/-- Whole seconds left until the deadline. -/
def secondsLeft (now d : Time) : Int :=
  if 0 ≤ (wrap64 (d - now)).tdiv 1000000000 then (wrap64 (d - now)).tdiv 1000000000 else -2

def ttl (now : Time) (key : Bytes) (F : FlatStore) : Int × FlatStore :=
  match F.strings key with
  | none => (if (F.hashes key).isSome ∨ (F.lists key).isSome then -1 else -2, F)
  | some e =>
    match e.expiresAt with
    | none => (-1, F)
    | some d => if d ≤ now then (-2, F.putString key none) else (secondsLeft now d, F)

/-- The number of keys: fresh strings, hashes and lists, each counted by itself. -/
noncomputable def size (now : Time) (F : FlatStore) : Nat :=
  {k | ∃ e, F.strings k = some e ∧ (!e.expired now) = true}.ncard +
    {k | ∃ m, F.hashes k = some m}.ncard + {k | ∃ l, F.lists k = some l}.ncard

def incrBy (now : Time) (key : Bytes) (delta : Int) (F : FlatStore) :
    (Bool × Int) × FlatStore :=
  let start := ((true, delta), F.putString key (some ⟨stdToString delta, none, now⟩))
  match F.strings key with
  | none => start
  | some e =>
    if e.expired now then start
    else match stoll e.value with
      | none => ((false, 0), F)
      | some v =>
        ((true, wrap64 (v + delta)), F.putString key
          (some { e with value := stdToString (wrap64 (v + delta)), lastAccessed := now }))

/-! ## 2. Hashes -/

def putHash (key : Bytes) (m : Option (Bytes → Option Bytes)) (F : FlatStore) : FlatStore :=
  { F with hashes := update F.hashes key m }

def hget (key field : Bytes) (F : FlatStore) : Option Bytes :=
  (F.hashes key).bind fun fields => fields field

/-- The fields of a key; none of them when there is no hash. -/
def fieldsOf (key : Bytes) (F : FlatStore) : Bytes → Option Bytes :=
  (F.hashes key).getD fun _ => none

def hset (key field value : Bytes) (F : FlatStore) : Bool × FlatStore :=
  ((F.hget key field).isNone,
    F.putHash key (some (update (F.fieldsOf key) field (some value))))

open Classical in
/-- Remove a field; a hash that has no field left goes with it. -/
noncomputable def hdel (key field : Bytes) (F : FlatStore) : Bool × FlatStore :=
  match F.hashes key with
  | none => (false, F)
  | some fields =>
    ((fields field).isSome,
      F.putHash key
        (if ∀ f, update fields field none f = none then none
         else some (update fields field none)))

noncomputable def hlen (key : Bytes) (F : FlatStore) : Nat :=
  {f | ∃ v, F.fieldsOf key f = some v}.ncard

/-! ## 3. Lists -/

/-- The elements of a key; none when there is no list. -/
def elemsOf (key : Bytes) (F : FlatStore) : List Bytes := (F.lists key).getD []

def putListAt (key : Bytes) (l : Option (List Bytes)) (F : FlatStore) : FlatStore :=
  { F with lists := update F.lists key l }

/-- An emptied list goes. -/
def putList (key : Bytes) (list : List Bytes) (F : FlatStore) : FlatStore :=
  F.putListAt key (if list = [] then none else some list)

def lpush (key value : Bytes) (F : FlatStore) : Nat × FlatStore :=
  ((value :: F.elemsOf key).length, F.putList key (value :: F.elemsOf key))

def rpush (key value : Bytes) (F : FlatStore) : Nat × FlatStore :=
  ((F.elemsOf key ++ [value]).length, F.putList key (F.elemsOf key ++ [value]))

def lpop (key : Bytes) (F : FlatStore) : Option Bytes × FlatStore :=
  match (F.elemsOf key).head? with
  | none => (none, F)
  | some val => (some val, F.putList key (F.elemsOf key).tail)

def rpop (key : Bytes) (F : FlatStore) : Option Bytes × FlatStore :=
  match (F.elemsOf key).getLast? with
  | none => (none, F)
  | some val => (some val, F.putList key (F.elemsOf key).dropLast)

def llen (key : Bytes) (F : FlatStore) : Nat := (F.elemsOf key).length

def lrange (key : Bytes) (start stop : Int) (F : FlatStore) : List Bytes :=
  StoreShard.slice (F.elemsOf key) start stop

end FlatStore

end KeyValueDb
