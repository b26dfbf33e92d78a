/-
# Command words

The words that `CommandParser::execute` and `AofManager::load_into_store` compare the first
token with.  `execute` compares them with the token in upper case, the loader with the token
as it stands.
-/
import KeyValueDb.Text

namespace KeyValueDb

/-- The commands that work on the store. -/
inductive StoreVerb
  | set | setex | get | mget | mset | incr | decr | incrby
  | hset | hget | hdel | hexists | hlen | hgetall
  | lpush | rpush | lpop | rpop | llen | lrange
  | del | «exists» | expire | ttl | dbsize | flushdb
  deriving DecidableEq

/-- All commands: those of the session and of the server, and those on the store. -/
inductive Verb
  | auth | ping | bgrewriteaof | info | quit
  | store (v : StoreVerb)
  deriving DecidableEq

def StoreVerb.word : StoreVerb → Bytes
  | set => bytes "SET"
  | setex => bytes "SETEX"
  | get => bytes "GET"
  | mget => bytes "MGET"
  | mset => bytes "MSET"
  | incr => bytes "INCR"
  | decr => bytes "DECR"
  | incrby => bytes "INCRBY"
  | hset => bytes "HSET"
  | hget => bytes "HGET"
  | hdel => bytes "HDEL"
  | hexists => bytes "HEXISTS"
  | hlen => bytes "HLEN"
  | hgetall => bytes "HGETALL"
  | lpush => bytes "LPUSH"
  | rpush => bytes "RPUSH"
  | lpop => bytes "LPOP"
  | rpop => bytes "RPOP"
  | llen => bytes "LLEN"
  | lrange => bytes "LRANGE"
  | del => bytes "DEL"
  | «exists» => bytes "EXISTS"
  | expire => bytes "EXPIRE"
  | ttl => bytes "TTL"
  | dbsize => bytes "DBSIZE"
  | flushdb => bytes "FLUSHDB"

namespace Verb

def word : Verb → Bytes
  | auth => bytes "AUTH"
  | ping => bytes "PING"
  | bgrewriteaof => bytes "BGREWRITEAOF"
  | info => bytes "INFO"
  | quit => bytes "QUIT"
  | store v => v.word

/-- The order of the comparisons in `execute`. -/
def all : List Verb :=
  [auth, ping] ++
    ([.set, .setex, .get, .mget, .mset, .incr, .decr, .incrby,
      .hset, .hget, .hdel, .hexists, .hlen, .hgetall,
      .lpush, .rpush, .lpop, .rpop, .llen, .lrange,
      .del, .exists, .expire, .ttl, .dbsize, .flushdb] : List StoreVerb).map store ++
    [bgrewriteaof, info, quit]

/-- The verb a word stands for, if any. -/
def ofWord (w : Bytes) : Option Verb := all.find? fun v => v.word == w

theorem word_of_ofWord {w : Bytes} {v : Verb} (h : ofWord w = some v) : w = v.word := by
  have := List.find?_some h
  simpa using (beq_iff_eq.mp this).symm

@[simp] theorem ofWord_word (v : Verb) : ofWord v.word = some v := by
  cases v with
  | store v => cases v <;> rfl
  | auth | ping | bgrewriteaof | info | quit => rfl

/-- The words are in upper case already. -/
@[simp] theorem toUpper_word (v : Verb) : toUpper v.word = v.word := by
  cases v with
  | store v => cases v <;> rfl
  | auth | ping | bgrewriteaof | info | quit => rfl

end Verb

end KeyValueDb
