/-
# AofManager: the log and the loader

`append` writes a command as a RESP array of its tokens; `load_into_store` reads such arrays
back line by line and hands each one to its own chain of comparisons, `dispatch` here.  The
loader goes on after a record it cannot use: a count or length that is no number, or that is
larger than what can be allocated, throws, and reading resumes at the next line.

The two file names are the two fields of `Disk`.  `load_into_store` answers `none` where the
source has no defined behaviour: it takes `tokens[0]` of a record that announced no tokens.
-/
import KeyValueDb.Command.Verb
import KeyValueDb.Lib.InputStream
import KeyValueDb.Store.KeyValueStore

namespace KeyValueDb

open Lib

/-! ## 1. The log -/

/-- The files `filename_` and `filename_ + ".tmp"`, where they exist. -/
structure Disk where
  log : Option Bytes
  tmp : Option Bytes

/-- The manager: its switch, whether `file_` is open, and the files. -/
structure AofManager where
  enabled : Bool
  isOpen : Bool
  disk : Disk

/-- One token as `append` writes it. -/
def encodeToken (token : Bytes) : Bytes :=
  dollar :: dec token.length ++ crlf ++ token ++ crlf

/-- One record as `append` writes it. -/
def encodeRecord (tokens : List Bytes) : Bytes :=
  star :: dec tokens.length ++ crlf ++ tokens.flatMap encodeToken

/-- What a sequence of appends leaves in an empty log. -/
def encodeLog (records : List (List Bytes)) : Bytes := records.flatMap encodeRecord

/-- More bytes at the end of the log. -/
def Disk.extend (more : Bytes) (disk : Disk) : Disk :=
  { disk with log := some (disk.log.getD [] ++ more) }

def AofManager.append (tokens : List Bytes) (aof : AofManager) : AofManager :=
  if aof.enabled = false ∨ tokens = [] ∨ aof.isOpen = false then aof
  else { aof with disk := aof.disk.extend (encodeRecord tokens) }

/-! ## 2. Reading records -/

/-- What the machine can allocate: the longest vector of strings and the longest string.
Both are far below the range of `size_t`. -/
structure Limits where
  vec : Nat
  str : Nat
  vec_lt : vec < 2 ^ 63
  str_lt : str < 2 ^ 63

/-- `if (!line.empty() && line.back() == '\r') line.pop_back();` -/
def popCr (line : Bytes) : Bytes := if line.getLast? = some cr then line.dropLast else line

/-- The token string: `len` zero bytes, overwritten by what arrived. -/
def padTo (len : Nat) (arrived : Bytes) : Bytes :=
  arrived ++ List.replicate (len - arrived.length) 0

/-- The token loop, `n` tokens to go: the tokens read when it ended or broke off, `none` when
it threw. -/
def readTokens (lim : Limits) : Nat → IStream → List Bytes → Option (List Bytes) × IStream
  | 0, st, tokens => (some tokens, st)
  | n + 1, st, tokens =>
    match st.getline with
    | (none, st) => (some tokens, st)
    | (some lenLine, st) =>
      if (popCr lenLine).head? ≠ some dollar then (some tokens, st)
      else match stoul (popCr lenLine).tail with
        | none => (none, st)
        | some len =>
          if lim.str < len then (none, st)
          else
            let value := st.read len
            readTokens lim n (value.2.read 2).2 (tokens ++ [padTo len value.1])

/-- One turn of the loop after its line was read: the tokens it dispatches, if it comes to
that. -/
def readRecord (lim : Limits) (line : Bytes) (st : IStream) : Option (List Bytes) × IStream :=
  if (popCr line).head? ≠ some star then (none, st)
  else match stoul (popCr line).tail with
    | none => (none, st)
    | some tokenCount =>
      if lim.vec < tokenCount then (none, st)
      else
        let r := readTokens lim tokenCount st []
        (r.1.filter fun tokens => tokens.length == tokenCount, r.2)

/-! ## 3. Replaying records -/

/-- The comparisons of `load_into_store` on a record: the store it leaves, `none` when
`stoll` threw.  A record it does not know leaves the store as it is. -/
def dispatch (hash : Bytes → Nat) (now : Time) (tokens : List Bytes) (store : KeyValueStore) :
    Option KeyValueStore :=
  match tokens with
  | [] => some store
  | cmd :: args =>
    match Verb.ofWord cmd, args with
    | some (.store .set), key :: value :: _ => some (store.set hash now key value none)
    | some (.store .del), key :: keys =>
      some ((key :: keys).foldl (fun store key => (store.del hash key).2) store)
    | some (.store .expire), key :: seconds :: _ =>
      (stoll seconds).map fun sec => (store.expire hash now key sec).2
    | some (.store .hset), key :: field :: value :: _ =>
      some (store.hset hash key field value).2
    | some (.store .hdel), key :: field :: _ => some (store.hdel hash key field).2
    | some (.store .lpush), key :: item :: items =>
      some ((item :: items).foldl (fun store item => (store.lpush hash key item).2) store)
    | some (.store .rpush), key :: item :: items =>
      some ((item :: items).foldl (fun store item => (store.rpush hash key item).2) store)
    | some (.store .flushdb), _ => some store.clear
    | _, _ => some store

/-- The loop of `load_into_store`.  `clock i` is the reading of the clock at the `i`-th record
dispatched; the fuel bounds the number of lines. -/
def loadLoop (lim : Limits) (hash : Bytes → Nat) (clock : Nat → Time) :
    Nat → IStream → Nat → Nat → KeyValueStore → Option (Nat × KeyValueStore)
  | 0, _, _, replayed, store => some (replayed, store)
  | fuel + 1, st, i, replayed, store =>
    match st.getline with
    | (none, _) => some (replayed, store)
    | (some line, st) =>
      match readRecord lim line st with
      | (none, st) => loadLoop lim hash clock fuel st i replayed store
      | (some [], _) => none
      | (some tokens, st) =>
        match dispatch hash (clock i) tokens store with
        | none => loadLoop lim hash clock fuel st (i + 1) replayed store
        | some store => loadLoop lim hash clock fuel st (i + 1) (replayed + 1) store

/-- The number of records replayed, and the store. -/
def AofManager.loadIntoStore (lim : Limits) (hash : Bytes → Nat) (clock : Nat → Time)
    (aof : AofManager) (store : KeyValueStore) : Option (Nat × KeyValueStore) :=
  if aof.enabled = false then some (0, store)
  else match aof.disk.log with
    | none => some (0, store)
    | some file => loadLoop lim hash clock (file.length + 1) ⟨file, true⟩ 0 0 store

/-- A log that announces a record without tokens has no defined replay. -/
example : AofManager.loadIntoStore ⟨8, 8, by decide, by decide⟩ List.length (fun _ => 0)
    ⟨true, true, ⟨some (bytes "*0\r\n"), none⟩⟩ .empty = none := rfl

end KeyValueDb
