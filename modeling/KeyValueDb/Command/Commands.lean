/-
# The commands on the store

One definition per branch of `CommandParser::execute` that works on the store, from the arity
check to the reply.  A branch is given the whole token vector, the command word included, and
answers with a `Reply`: the response, the store it leaves, the tokens it hands to `append`, if
it does, and what it counts as reads and writes.

`stoll` throws on a text that is no number or does not fit; every branch that calls it turns
that into the same error.
-/
import KeyValueDb.Command.Verb
import KeyValueDb.Resp
import KeyValueDb.Store.KeyValueStore

namespace KeyValueDb

open Lib RespParser

/-- What a branch of `execute` does. -/
structure Reply where
  response : Bytes
  store : KeyValueStore
  record : Option (List Bytes) := none
  reads : Nat := 0
  writes : Nat := 0

/-! ## 1. Replies -/

/-- A reply that leaves the store and the log alone. -/
def Reply.only (response : Bytes) (store : KeyValueStore) : Reply := { response, store }

def wrongArguments (name : String) (store : KeyValueStore) : Reply :=
  .only (serializeError (bytes "wrong number of arguments for '" ++ bytes name ++
    bytes "' command")) store

def notAnInteger (store : KeyValueStore) : Reply :=
  .only (serializeError (bytes "value is not an integer or out of range")) store

def ok : Bytes := serializeSimpleString (bytes "OK")

def flag (b : Bool) : Bytes := serializeInteger (if b then 1 else 0)

def bulkOrNull : Option Bytes → Bytes
  | none => serializeNull
  | some val => serializeBulkString val

namespace Command

variable (hash : Bytes → Nat) (order : IterOrder) (now : Time) (tokens : List Bytes)
  (store : KeyValueStore)

/-! ## 2. Strings and counters -/

/-- The lifetime after `EX`: `none` when it is no number, `some none` without `EX`. -/
def lifetime : List Bytes → Option (Option Int)
  | ex :: seconds :: _ =>
    if toUpper ex = bytes "EX" then (stoll seconds).map some else some none
  | _ => some none

def set : Reply :=
  match tokens with
  | _ :: key :: value :: options =>
    match lifetime options with
    | none => notAnInteger store
    | some ttl =>
      { response := ok, store := store.set hash now key value ttl,
        record := some tokens, writes := 1 }
  | _ => wrongArguments "set" store

def setex : Reply :=
  match tokens with
  | [_, key, seconds, value] =>
    match stoll seconds with
    | none => notAnInteger store
    | some sec =>
      { response := ok, store := store.set hash now key value (some sec),
        record := some [bytes "SET", key, value, bytes "EX", seconds], writes := 1 }
  | _ => wrongArguments "setex" store

def get : Reply :=
  match tokens with
  | [_, key] =>
    let r := store.get hash now key
    { response := bulkOrNull r.1, store := r.2, reads := 1 }
  | _ => wrongArguments "get" store

/-- The values of the keys, one after the other. -/
def mgetLoop : List Bytes → KeyValueStore → Bytes × KeyValueStore
  | [], store => ([], store)
  | key :: keys, store =>
    let r := store.get hash now key
    let rest := mgetLoop keys r.2
    (bulkOrNull r.1 ++ rest.1, rest.2)

def mget : Reply :=
  match tokens with
  | _ :: key :: keys =>
    let r := mgetLoop hash now (key :: keys) store
    { response := bytes "*" ++ dec (key :: keys).length ++ crlf ++ r.1, store := r.2,
      reads := (key :: keys).length }
  | _ => wrongArguments "mget" store

/-- Key and value in turn. -/
def msetLoop : List Bytes → KeyValueStore → KeyValueStore
  | key :: value :: rest, store => msetLoop rest (store.set hash now key value none)
  | _, store => store

def mset : Reply :=
  match tokens with
  | _ :: args =>
    if args.length < 2 ∨ args.length % 2 ≠ 0 then wrongArguments "mset" store
    else
      { response := ok, store := msetLoop hash now args store, record := some tokens,
        writes := args.length / 2 }
  | [] => wrongArguments "mset" store

/-- What `INCR`, `DECR` and `INCRBY` do once they know key and amount. -/
def addToCounter (key : Bytes) (delta : Int) : Reply :=
  let r := store.incrBy hash now key delta
  if r.1.1 then
    { response := serializeInteger r.1.2, store := r.2, record := some tokens, writes := 1 }
  else notAnInteger r.2

def incr : Reply :=
  match tokens with
  | [_, key] => addToCounter hash now tokens store key 1
  | _ => wrongArguments "incr" store

def decr : Reply :=
  match tokens with
  | [_, key] => addToCounter hash now tokens store key (-1)
  | _ => wrongArguments "decr" store

def incrby : Reply :=
  match tokens with
  | [_, key, amount] =>
    match stoll amount with
    | none => notAnInteger store
    | some delta => addToCounter hash now tokens store key delta
  | _ => wrongArguments "incrby" store

/-! ## 3. Hashes -/

def hset : Reply :=
  match tokens with
  | [_, key, field, value] =>
    let r := store.hset hash key field value
    { response := flag r.1, store := r.2, record := some tokens, writes := 1 }
  | _ => wrongArguments "hset" store

def hget : Reply :=
  match tokens with
  | [_, key, field] =>
    { response := bulkOrNull (store.hget hash key field), store, reads := 1 }
  | _ => wrongArguments "hget" store

def hdel : Reply :=
  match tokens with
  | [_, key, field] =>
    let r := store.hdel hash key field
    { response := flag r.1, store := r.2, record := if r.1 then some tokens else none,
      writes := 1 }
  | _ => wrongArguments "hdel" store

def hexists : Reply :=
  match tokens with
  | [_, key, field] => { response := flag (store.hexists hash key field), store, reads := 1 }
  | _ => wrongArguments "hexists" store

def hlen : Reply :=
  match tokens with
  | [_, key] => { response := serializeInteger (store.hlen hash key), store, reads := 1 }
  | _ => wrongArguments "hlen" store

def hgetall : Reply :=
  match tokens with
  | [_, key] =>
    { response := serializeArray ((store.hgetall hash order key).flatMap fun p => [p.1, p.2]),
      store, reads := 1 }
  | _ => wrongArguments "hgetall" store

/-! ## 4. Lists -/

/-- The push loop: the length after the last push, and the store. -/
def pushLoop (push : Bytes → KeyValueStore → Nat × KeyValueStore) (items : List Bytes) :
    Nat × KeyValueStore :=
  items.foldl (fun acc item => push item acc.2) (0, store)

/-- What `LPUSH` and `RPUSH` do. -/
def pushCommand (name : String) (push : Bytes → Bytes → KeyValueStore → Nat × KeyValueStore) :
    Reply :=
  match tokens with
  | _ :: key :: item :: items =>
    let r := pushLoop store (push key) (item :: items)
    { response := serializeInteger r.1, store := r.2, record := some tokens,
      writes := (item :: items).length }
  | _ => wrongArguments name store

def lpush : Reply := pushCommand tokens store "lpush" (KeyValueStore.lpush hash)

def rpush : Reply := pushCommand tokens store "rpush" (KeyValueStore.rpush hash)

/-- What `LPOP` and `RPOP` do. -/
def popCommand (name : String) (pop : Bytes → KeyValueStore → Option Bytes × KeyValueStore) :
    Reply :=
  match tokens with
  | [_, key] =>
    let r := pop key store
    { response := bulkOrNull r.1, store := r.2,
      record := if r.1.isSome then some tokens else none, writes := 1 }
  | _ => wrongArguments name store

def lpop : Reply := popCommand tokens store "lpop" (KeyValueStore.lpop hash)

def rpop : Reply := popCommand tokens store "rpop" (KeyValueStore.rpop hash)

def llen : Reply :=
  match tokens with
  | [_, key] => { response := serializeInteger (store.llen hash key), store, reads := 1 }
  | _ => wrongArguments "llen" store

def lrange : Reply :=
  match tokens with
  | [_, key, start, stop] =>
    match stoll start, stoll stop with
    | some a, some b =>
      { response := serializeArray (store.lrange hash key a b), store, reads := 1 }
    | _, _ => notAnInteger store
  | _ => wrongArguments "lrange" store

/-! ## 5. Keys -/

/-- One turn of the deletion loop. -/
def delStep (acc : Nat × KeyValueStore) (key : Bytes) : Nat × KeyValueStore :=
  let r := acc.2.del hash key
  (if r.1 then acc.1 + 1 else acc.1, r.2)

/-- The number of keys deleted, and the store. -/
def delLoop (keys : List Bytes) : Nat × KeyValueStore := keys.foldl (delStep hash) (0, store)

def del : Reply :=
  match tokens with
  | _ :: key :: keys =>
    let r := delLoop hash store (key :: keys)
    { response := serializeInteger r.1, store := r.2,
      record := if 0 < r.1 then some tokens else none, writes := 1 }
  | _ => wrongArguments "del" store

def «exists» : Reply :=
  match tokens with
  | [_, key] => { response := flag (store.exists hash now key), store, reads := 1 }
  | _ => wrongArguments "exists" store

def expire : Reply :=
  match tokens with
  | [_, key, seconds] =>
    match stoll seconds with
    | none => notAnInteger store
    | some sec =>
      let r := store.expire hash now key sec
      { response := flag r.1, store := r.2, record := if r.1 then some tokens else none,
        writes := 1 }
  | _ => wrongArguments "expire" store

def ttl : Reply :=
  match tokens with
  | [_, key] =>
    let r := store.ttl hash now key
    { response := serializeInteger r.1, store := r.2, reads := 1 }
  | _ => wrongArguments "ttl" store

def dbsize : Reply := .only (serializeInteger (store.size now)) store

def flushdb : Reply :=
  { response := ok, store := store.clear, record := some [bytes "FLUSHDB"], writes := 1 }

/-! ## 6. All of them -/

/-- The branch of a command on the store. -/
def run : StoreVerb → Reply
  | .set => set hash now tokens store
  | .setex => setex hash now tokens store
  | .get => get hash now tokens store
  | .mget => mget hash now tokens store
  | .mset => mset hash now tokens store
  | .incr => incr hash now tokens store
  | .decr => decr hash now tokens store
  | .incrby => incrby hash now tokens store
  | .hset => hset hash tokens store
  | .hget => hget hash tokens store
  | .hdel => hdel hash tokens store
  | .hexists => hexists hash tokens store
  | .hlen => hlen hash tokens store
  | .hgetall => hgetall hash order tokens store
  | .lpush => lpush hash tokens store
  | .rpush => rpush hash tokens store
  | .lpop => lpop hash tokens store
  | .rpop => rpop hash tokens store
  | .llen => llen hash tokens store
  | .lrange => lrange hash tokens store
  | .del => del hash tokens store
  | .exists => «exists» hash now tokens store
  | .expire => expire hash now tokens store
  | .ttl => ttl hash now tokens store
  | .dbsize => dbsize now store
  | .flushdb => flushdb store

end Command

end KeyValueDb
