/-
# Commands in other letters

`execute` compares the command word and the option `EX` in upper case, so two spellings of a
request run the same branch with the same response, the same store and the same counts
(`alike_run`).  What differs is what they log: most branches hand the tokens to `append` as they
came.
-/
import KeyValueDb.Command.Commands

namespace KeyValueDb

open Lib

/-- The same command, with its word in other letters, and for `SET` the option `EX` too. -/
inductive Respelled : Verb → List Bytes → List Bytes → Prop
  | word {v : Verb} {word word' : Bytes} (h : toUpper word' = toUpper word)
      (hv : Verb.ofWord (toUpper word) = some v) (args : List Bytes) :
      Respelled v (word :: args) (word' :: args)
  | option {word word' ex ex' : Bytes} (h : toUpper word' = toUpper word)
      (hv : Verb.ofWord (toUpper word) = some (.store .set)) (key value : Bytes)
      (hex : toUpper ex = bytes "EX") (hex' : toUpper ex' = bytes "EX") (rest : List Bytes) :
      Respelled (.store .set) (word :: key :: value :: ex :: rest)
        (word' :: key :: value :: ex' :: rest)

/-- Two replies that differ at most in the spelling of what they log. -/
structure Reply.Alike (tokens tokens' : List Bytes) (r r' : Reply) : Prop where
  response : r'.response = r.response
  store : r'.store = r.store
  reads : r'.reads = r.reads
  writes : r'.writes = r.writes
  record : r'.record = r.record ∨ r.record = some tokens ∧ r'.record = some tokens'

namespace Command

variable {hash : Bytes → Nat} {order : IterOrder} {now : Time} {s : KeyValueStore}
  {word word' : Bytes} {args tokens tokens' : List Bytes}

theorem alike_self (r : Reply) : Reply.Alike tokens tokens' r r := ⟨rfl, rfl, rfl, rfl, Or.inl rfl⟩

theorem alike_logged (response : Bytes) (store : KeyValueStore) (reads writes : Nat) :
    Reply.Alike tokens tokens' ⟨response, store, some tokens, reads, writes⟩
      ⟨response, store, some tokens', reads, writes⟩ :=
  ⟨rfl, rfl, rfl, rfl, Or.inr ⟨rfl, rfl⟩⟩

/-- The tokens are logged if the branch changed something. -/
theorem alike_logged_if (response : Bytes) (store : KeyValueStore) (logs : Prop)
    [Decidable logs] (reads writes : Nat) :
    Reply.Alike tokens tokens'
      ⟨response, store, if logs then some tokens else none, reads, writes⟩
      ⟨response, store, if logs then some tokens' else none, reads, writes⟩ := by
  split
  · exact alike_logged _ _ _ _
  · exact alike_self _

theorem alike_addToCounter (key : Bytes) (delta : Int) :
    Reply.Alike tokens tokens' (addToCounter hash now tokens s key delta)
      (addToCounter hash now tokens' s key delta) := by
  unfold addToCounter
  dsimp only
  split
  · exact alike_logged _ _ _ _
  · exact alike_self _

theorem alike_set : Reply.Alike (word :: args) (word' :: args) (set hash now (word :: args) s)
    (set hash now (word' :: args) s) := by
  rcases args with _ | ⟨key, _ | ⟨value, options⟩⟩
  · exact alike_self _
  · exact alike_self _
  · simp only [set]
    split
    · exact alike_self _
    · exact alike_logged _ _ _ _

theorem alike_mset : Reply.Alike (word :: args) (word' :: args) (mset hash now (word :: args) s)
    (mset hash now (word' :: args) s) := by
  simp only [mset]
  split
  · exact alike_self _
  · exact alike_logged _ _ _ _

theorem alike_incrby : Reply.Alike (word :: args) (word' :: args)
    (incrby hash now (word :: args) s) (incrby hash now (word' :: args) s) := by
  rcases args with _ | ⟨key, _ | ⟨amount, _ | _⟩⟩
  · exact alike_self _
  · exact alike_self _
  · simp only [incrby]
    split
    · exact alike_self _
    · exact alike_addToCounter key _
  · exact alike_self _

theorem alike_run_word (v : StoreVerb) : Reply.Alike (word :: args) (word' :: args)
    (run hash order now (word :: args) s v) (run hash order now (word' :: args) s v) := by
  cases v <;> simp only [run]
  case set => exact alike_set
  case mset => exact alike_mset
  case incrby => exact alike_incrby
  case incr =>
    rcases args with _ | ⟨key, _ | _⟩
    · exact alike_self _
    · exact alike_addToCounter key 1
    · exact alike_self _
  case decr =>
    rcases args with _ | ⟨key, _ | _⟩
    · exact alike_self _
    · exact alike_addToCounter key (-1)
    · exact alike_self _
  case hset =>
    rcases args with _ | ⟨key, _ | ⟨field, _ | ⟨value, _ | _⟩⟩⟩
    case cons.cons.cons.nil => exact alike_logged _ _ _ _
    all_goals exact alike_self _
  case hdel =>
    rcases args with _ | ⟨key, _ | ⟨field, _ | _⟩⟩
    case cons.cons.nil => exact alike_logged_if _ _ _ _ _
    all_goals exact alike_self _
  case lpush =>
    rcases args with _ | ⟨key, _ | ⟨item, items⟩⟩
    case cons.cons => exact alike_logged _ _ _ _
    all_goals exact alike_self _
  case rpush =>
    rcases args with _ | ⟨key, _ | ⟨item, items⟩⟩
    case cons.cons => exact alike_logged _ _ _ _
    all_goals exact alike_self _
  case lpop =>
    rcases args with _ | ⟨key, _ | _⟩
    case cons.nil => exact alike_logged_if _ _ _ _ _
    all_goals exact alike_self _
  case rpop =>
    rcases args with _ | ⟨key, _ | _⟩
    case cons.nil => exact alike_logged_if _ _ _ _ _
    all_goals exact alike_self _
  case del =>
    rcases args with _ | ⟨key, keys⟩
    case cons => exact alike_logged_if _ _ _ _ _
    all_goals exact alike_self _
  case expire =>
    rcases args with _ | ⟨key, _ | ⟨seconds, _ | _⟩⟩
    case cons.cons.nil =>
      simp only [expire]
      split
      · exact alike_self _
      · exact alike_logged_if _ _ _ _ _
    all_goals exact alike_self _
  -- the others log nothing, or nothing of the word
  all_goals
    rcases args with _ | ⟨_, _ | ⟨_, _ | ⟨_, _ | _⟩⟩⟩
    all_goals exact alike_self _

/-- `set` with the option in other letters. -/
theorem alike_set_option {ex ex' : Bytes} (hex : toUpper ex = bytes "EX")
    (hex' : toUpper ex' = bytes "EX") (key value : Bytes) (rest : List Bytes) :
    Reply.Alike (word :: key :: value :: ex :: rest) (word' :: key :: value :: ex' :: rest)
      (set hash now (word :: key :: value :: ex :: rest) s)
      (set hash now (word' :: key :: value :: ex' :: rest) s) := by
  have hlife : lifetime (ex' :: rest) = lifetime (ex :: rest) := by
    cases rest with
    | nil => rfl
    | cons seconds rest => simp only [lifetime, hex, hex']
  simp only [set, hlife]
  split
  · exact alike_self _
  · exact alike_logged _ _ _ _

/-- **The spelling of a command changes nothing but the record.** -/
theorem alike_run (hash : Bytes → Nat) (order : IterOrder) (now : Time) (s : KeyValueStore)
    {v : StoreVerb} (h : Respelled (.store v) tokens tokens') :
    Reply.Alike tokens tokens' (run hash order now tokens s v)
      (run hash order now tokens' s v) := by
  cases h with
  | word => exact alike_run_word v
  | option _ _ key value hex hex' rest => exact alike_set_option hex hex' key value rest

end Command

end KeyValueDb
