/-
# Replies on the wire

A client that sends several commands at once reads the answers off one stream, so each
response has to be one value of the protocol and nothing more.  Every branch keeps to that:
lengths are announced, and the texts of simple strings and errors are fixed.  The one
exception is the error of an unknown command, which repeats the command word as it was sent,
line ends included.

`separable_iff` is the account of whole sequences of commands: the responses are one value
each, and the reader gets them back one by one, exactly when no such word is repeated.
-/
import KeyValueDb.Command.Step
import KeyValueDb.Lib.Resp2
import KeyValueDb.Lib.Runs

namespace KeyValueDb

open Lib RespParser

/-! ## 1. The serializers write values -/

/-- The response is one well-formed value. -/
def IsValue (response : Bytes) : Prop :=
  ∃ v : Resp2.Value, v.WellFormed ∧ response = v.encode

/-- A text without line ends. -/
def OneLine (str : Bytes) : Prop := cr ∉ str ∧ lf ∉ str

instance (str : Bytes) : Decidable (OneLine str) :=
  inferInstanceAs (Decidable (cr ∉ str ∧ lf ∉ str))

theorem OneLine.append {xs ys : Bytes} (hx : OneLine xs) (hy : OneLine ys) :
    OneLine (xs ++ ys) := by
  constructor
  · intro h
    exact (List.mem_append.mp h).elim hx.1 hy.1
  · intro h
    exact (List.mem_append.mp h).elim hx.2 hy.2

theorem isValue_simpleString {str : Bytes} (h : OneLine str) :
    IsValue (serializeSimpleString str) := ⟨.simple str, h, rfl⟩

theorem isValue_error {errMsg : Bytes} (h : OneLine errMsg) :
    IsValue (serializeError errMsg) :=
  ⟨.error (bytes "ERR " ++ errMsg), OneLine.append (by decide) h, rfl⟩

theorem isValue_integer (num : Int) : IsValue (serializeInteger num) :=
  ⟨.integer num, trivial, rfl⟩

/-- A value that may be absent, as the wire format encodes it. -/
theorem bulkOrNull_eq (val : Option Bytes) : bulkOrNull val = Resp2.encodeItem val := by
  cases val with
  | none => rfl
  | some val => rfl

theorem isValue_bulkString (str : Bytes) : IsValue (serializeBulkString str) :=
  ⟨.bulk str, trivial, bulkOrNull_eq (some str)⟩

theorem isValue_bulkOrNull (val : Option Bytes) : IsValue (bulkOrNull val) := by
  cases val with
  | none => exact ⟨.null, trivial, rfl⟩
  | some val => exact isValue_bulkString val

theorem isValue_array (items : List Bytes) : IsValue (serializeArray items) := by
  refine ⟨.array (items.map some), trivial, ?_⟩
  have hitems : (items.map some).flatMap Resp2.encodeItem =
      items.flatMap serializeBulkString := by
    rw [List.flatMap_map]
    rfl
  rw [Resp2.Value.encode, hitems, List.length_map]
  rfl

theorem isValue_flag (b : Bool) : IsValue (flag b) := isValue_integer _

theorem isValue_ok : IsValue ok := isValue_simpleString (by decide)

theorem isValue_wrongArguments {name : String} (h : OneLine (bytes name))
    (store : KeyValueStore) : IsValue (wrongArguments name store).response :=
  isValue_error (OneLine.append (OneLine.append (by decide) h) (by decide))

theorem isValue_notAnInteger (store : KeyValueStore) : IsValue (notAnInteger store).response :=
  isValue_error (by decide)

/-! ## 2. The commands on the store -/

section Store

variable (hash : Bytes → Nat) (order : IterOrder) (now : Time) (tokens : List Bytes)
  (store : KeyValueStore)

/-- The items of `MGET`, as many as there are keys. -/
theorem mgetLoop_items (keys : List Bytes) :
    ∃ items : List (Option Bytes), items.length = keys.length ∧
      (Command.mgetLoop hash now keys store).1 = items.flatMap Resp2.encodeItem := by
  induction keys generalizing store with
  | nil => exact ⟨[], rfl, rfl⟩
  | cons key keys ih =>
    obtain ⟨items, hlen, hitems⟩ := ih (store.get hash now key).2
    refine ⟨(store.get hash now key).1 :: items, by rw [List.length_cons, hlen]; rfl, ?_⟩
    rw [Command.mgetLoop, List.flatMap_cons, ← hitems, bulkOrNull_eq]

theorem isValue_mget : IsValue (Command.mget hash now tokens store).response := by
  unfold Command.mget
  split
  · rename_i key keys
    obtain ⟨items, hlen, hitems⟩ := mgetLoop_items hash now store (key :: keys)
    refine ⟨.array items, trivial, ?_⟩
    rw [Resp2.Value.encode, hlen, ← hitems]
    rfl
  · exact isValue_wrongArguments (by decide) store

theorem isValue_addToCounter (key : Bytes) (delta : Int) :
    IsValue (Command.addToCounter hash now tokens store key delta).response := by
  unfold Command.addToCounter
  dsimp only
  split
  · exact isValue_integer _
  · exact isValue_notAnInteger _

theorem isValue_pushCommand {name : String} (h : OneLine (bytes name))
    (push : Bytes → Bytes → KeyValueStore → Nat × KeyValueStore) :
    IsValue (Command.pushCommand tokens store name push).response := by
  unfold Command.pushCommand
  split
  · exact isValue_integer _
  · exact isValue_wrongArguments h store

theorem isValue_popCommand {name : String} (h : OneLine (bytes name))
    (pop : Bytes → KeyValueStore → Option Bytes × KeyValueStore) :
    IsValue (Command.popCommand tokens store name pop).response := by
  unfold Command.popCommand
  split
  · exact isValue_bulkOrNull _
  · exact isValue_wrongArguments h store

/-- **Every branch on the store answers with one value.** -/
theorem isValue_run (v : StoreVerb) :
    IsValue (Command.run hash order now tokens store v).response := by
  cases v with
  | set =>
    simp only [Command.run, Command.set]
    split
    · split
      · exact isValue_notAnInteger store
      · exact isValue_ok
    · exact isValue_wrongArguments (by decide) store
  | setex =>
    simp only [Command.run, Command.setex]
    split
    · split
      · exact isValue_notAnInteger store
      · exact isValue_ok
    · exact isValue_wrongArguments (by decide) store
  | get =>
    simp only [Command.run, Command.get]
    split
    · exact isValue_bulkOrNull _
    · exact isValue_wrongArguments (by decide) store
  | mget => exact isValue_mget hash now tokens store
  | mset =>
    simp only [Command.run, Command.mset]
    split
    · split
      · exact isValue_wrongArguments (by decide) store
      · exact isValue_ok
    · exact isValue_wrongArguments (by decide) store
  | incr =>
    simp only [Command.run, Command.incr]
    split
    · exact isValue_addToCounter ..
    · exact isValue_wrongArguments (by decide) store
  | decr =>
    simp only [Command.run, Command.decr]
    split
    · exact isValue_addToCounter ..
    · exact isValue_wrongArguments (by decide) store
  | incrby =>
    simp only [Command.run, Command.incrby]
    split
    · split
      · exact isValue_notAnInteger store
      · exact isValue_addToCounter ..
    · exact isValue_wrongArguments (by decide) store
  | hset =>
    simp only [Command.run, Command.hset]
    split
    · exact isValue_flag _
    · exact isValue_wrongArguments (by decide) store
  | hget =>
    simp only [Command.run, Command.hget]
    split
    · exact isValue_bulkOrNull _
    · exact isValue_wrongArguments (by decide) store
  | hdel =>
    simp only [Command.run, Command.hdel]
    split
    · exact isValue_flag _
    · exact isValue_wrongArguments (by decide) store
  | hexists =>
    simp only [Command.run, Command.hexists]
    split
    · exact isValue_flag _
    · exact isValue_wrongArguments (by decide) store
  | hlen =>
    simp only [Command.run, Command.hlen]
    split
    · exact isValue_integer _
    · exact isValue_wrongArguments (by decide) store
  | hgetall =>
    simp only [Command.run, Command.hgetall]
    split
    · exact isValue_array _
    · exact isValue_wrongArguments (by decide) store
  | lpush => exact isValue_pushCommand tokens store (by decide) _
  | rpush => exact isValue_pushCommand tokens store (by decide) _
  | lpop => exact isValue_popCommand tokens store (by decide) _
  | rpop => exact isValue_popCommand tokens store (by decide) _
  | llen =>
    simp only [Command.run, Command.llen]
    split
    · exact isValue_integer _
    · exact isValue_wrongArguments (by decide) store
  | lrange =>
    simp only [Command.run, Command.lrange]
    split
    · split
      · exact isValue_array _
      · exact isValue_notAnInteger store
    · exact isValue_wrongArguments (by decide) store
  | del =>
    simp only [Command.run, Command.del]
    split
    · exact isValue_integer _
    · exact isValue_wrongArguments (by decide) store
  | «exists» =>
    simp only [Command.run, Command.exists]
    split
    · exact isValue_flag _
    · exact isValue_wrongArguments (by decide) store
  | expire =>
    simp only [Command.run, Command.expire]
    split
    · split
      · exact isValue_notAnInteger store
      · exact isValue_flag _
    · exact isValue_wrongArguments (by decide) store
  | ttl =>
    simp only [Command.run, Command.ttl]
    split
    · exact isValue_integer _
    · exact isValue_wrongArguments (by decide) store
  | dbsize => exact isValue_integer _
  | flushdb => exact isValue_ok

end Store

/-! ## 3. The dispatcher -/

variable {ctx : ServerCtx} {env : Env} {db : Db} {isAuthenticated : Bool}

theorem isValue_executeGated (word : Bytes) (args : List Bytes) :
    IsValue (executeGated ctx word args db).result.response := by
  unfold executeGated
  split
  · split
    · exact isValue_ok
    · exact isValue_error (by decide)
  · exact isValue_ok
  · exact ⟨.error (bytes "NOAUTH Authentication required."),
      show OneLine (bytes "NOAUTH Authentication required.") by decide, rfl⟩

theorem isValue_executeAuth (args : List Bytes) :
    IsValue (executeAuth ctx args db isAuthenticated).result.response := by
  unfold executeAuth
  split
  · split
    · exact isValue_ok
    · exact isValue_error (by decide)
  · exact isValue_error (by decide)

theorem isValue_executePing (args : List Bytes) :
    IsValue (executePing args db isAuthenticated).result.response := by
  unfold executePing
  split
  · exact isValue_simpleString (by decide)
  · exact isValue_bulkString _

theorem isValue_executeRewrite :
    IsValue (executeRewrite env db isAuthenticated).result.response := by
  unfold executeRewrite
  split
  · exact isValue_error (by decide)
  · split
    · exact isValue_error (by decide)
    · unfold answer
      dsimp only
      split
      · exact isValue_simpleString (by decide)
      · exact isValue_error (by decide)

/-- An error is one value when its text is one line, and no value otherwise. -/
theorem isValue_error_iff (errMsg : Bytes) :
    IsValue (serializeError errMsg) ↔ OneLine errMsg := by
  constructor
  · rintro ⟨v, hv, heq⟩
    have hcons : serializeError errMsg = 45 :: (bytes "ERR " ++ errMsg) ++ crlf := rfl
    rw [hcons] at heq
    cases v with
    | error text =>
      have htext : bytes "ERR " ++ errMsg = text :=
        (List.cons.inj (List.append_cancel_right heq)).2
      constructor
      · exact fun h => hv.1 (htext ▸ List.mem_append_right _ h)
      · exact fun h => hv.2 (htext ▸ List.mem_append_right _ h)
    | simple text | integer n | array items =>
      exact absurd (List.cons.inj heq).1 (by decide)
    | bulk payload => exact absurd (List.cons.inj heq).1 (by decide)
    | null => exact absurd (List.cons.inj heq).1 (by decide)
  · exact isValue_error

/-- An open session repeats the word of an unknown command, and the word holds a line end. -/
def EchoesLineEnd (ctx : ServerCtx) (isAuthenticated : Bool) (rawCommand : Bytes) : Prop :=
  Admitted ctx isAuthenticated ∧ ∃ word args, parseRequest rawCommand = word :: args ∧
    Verb.ofWord (toUpper word) = none ∧ ¬ OneLine word

theorem isValue_executeOpen_iff (word : Bytes) (args : List Bytes) :
    IsValue (executeOpen ctx env word args db isAuthenticated).result.response ↔
      ¬ (Verb.ofWord (toUpper word) = none ∧ ¬ OneLine word) := by
  unfold executeOpen
  split
  · rename_i hverb
    exact iff_of_true (isValue_executeAuth args) (by simp [hverb])
  · rename_i hverb
    exact iff_of_true (isValue_executePing args) (by simp [hverb])
  · rename_i hverb
    exact iff_of_true isValue_executeRewrite (by simp [hverb])
  · rename_i hverb
    exact iff_of_true (isValue_bulkString _) (by simp [hverb])
  · rename_i hverb
    exact iff_of_true isValue_ok (by simp [hverb])
  · rename_i v hverb
    exact iff_of_true (isValue_run _ _ _ _ _ v) (by simp [hverb])
  · rename_i hverb
    have hquoted : OneLine (bytes "unknown command '" ++ word ++ bytes "'") ↔ OneLine word := by
      constructor
      · intro h
        constructor
        · exact fun hm => h.1 (List.mem_append_left _ (List.mem_append_right _ hm))
        · exact fun hm => h.2 (List.mem_append_left _ (List.mem_append_right _ hm))
      · exact fun h => OneLine.append (OneLine.append (by decide) h) (by decide)
    rw [answer, isValue_error_iff, hquoted]
    simp [hverb]

/-- **What a command answers**: nothing when it is blank, else one value, unless it repeats a
word with a line end. -/
theorem execute_response (ctx : ServerCtx) (env : Env) (rawCommand : Bytes) (db : Db)
    (isAuthenticated : Bool) :
    (parseRequest rawCommand = [] ∧
      (execute ctx env rawCommand db isAuthenticated).result.response = []) ∨
    (parseRequest rawCommand ≠ [] ∧
      (IsValue (execute ctx env rawCommand db isAuthenticated).result.response ↔
        ¬ EchoesLineEnd ctx isAuthenticated rawCommand)) := by
  unfold execute EchoesLineEnd
  rcases hparse : parseRequest rawCommand with _ | ⟨word, args⟩
  · exact Or.inl ⟨rfl, rfl⟩
  · refine Or.inr ⟨by simp, ?_⟩
    dsimp only
    split
    · rename_i hgate
      refine iff_of_true (isValue_executeGated word args) ?_
      rintro ⟨hadmitted, -⟩
      exact gated_iff.mp hgate hadmitted
    · rename_i hgate
      have hadmitted : Admitted ctx isAuthenticated := by rwa [gated_iff, not_not] at hgate
      rw [isValue_executeOpen_iff]
      constructor
      · rintro h ⟨-, word', args', heq, hverb, hline⟩
        obtain ⟨rfl, rfl⟩ := List.cons.inj heq
        exact h ⟨hverb, hline⟩
      · exact fun h hword => h ⟨hadmitted, word, args, rfl, hword⟩

/-! ## 4. Sequences of commands -/

/-- A call of `execute`, as it comes off the connection. -/
structure RawCommand where
  env : Env
  raw : Bytes

/-- What a command leaves for the next one: the database, and whether the session is
authenticated. -/
def commandStep (ctx : ServerCtx) (s : Db × Bool) (c : RawCommand) : Db × Bool :=
  ((execute ctx c.env c.raw s.1 s.2).db, (execute ctx c.env c.raw s.1 s.2).isAuthenticated)

/-- The responses, in order. -/
def responses (ctx : ServerCtx) : List RawCommand → Db × Bool → List Bytes
  | [], _ => []
  | c :: cs, s =>
    (execute ctx c.env c.raw s.1 s.2).result.response :: responses ctx cs (commandStep ctx s c)

/-- A blank command has an empty response, any other one value. -/
def RawCommand.Answered (c : RawCommand) (response : Bytes) : Prop :=
  (parseRequest c.raw = [] ∧ response = []) ∨ (parseRequest c.raw ≠ [] ∧ IsValue response)

/-- Each response is one value or, for a blank command, nothing; and a reader of their
concatenation gets the values back, one for each command that is not blank. -/
structure Separable (cs : List RawCommand) (rs : List Bytes) : Prop where
  each : List.Forall₂ RawCommand.Answered cs rs
  reads : ∃ values, Resp2.readAll rs.flatten.length rs.flatten = some values ∧
    values.map Resp2.Value.encode = rs.filter (fun r => r ≠ []) ∧
    values.length = (cs.filter fun c => parseRequest c.raw ≠ []).length

/-- The values behind the responses. -/
theorem values_of_answered {cs : List RawCommand} {rs : List Bytes}
    (h : List.Forall₂ RawCommand.Answered cs rs) :
    ∃ values : List Resp2.Value, (∀ v ∈ values, v.WellFormed) ∧
      rs.flatten = values.flatMap Resp2.Value.encode ∧
      values.map Resp2.Value.encode = rs.filter (fun r => r ≠ []) ∧
      values.length = (cs.filter fun c => parseRequest c.raw ≠ []).length := by
  induction h with
  | nil => exact ⟨[], by simp, rfl, rfl, rfl⟩
  | @cons c r cs rs hr _ ih =>
    obtain ⟨values, hwf, hflat, hmap, hlen⟩ := ih
    rcases hr with ⟨hblank, rfl⟩ | ⟨htokens, v, hv, rfl⟩
    · refine ⟨values, hwf, ?_, ?_, ?_⟩
      · rw [List.flatten_cons, List.nil_append, hflat]
      · rw [List.filter_cons_of_neg (by simp), hmap]
      · rw [List.filter_cons_of_neg (by simp [hblank]), hlen]
    · refine ⟨v :: values, ?_, ?_, ?_, ?_⟩
      · intro w hw
        rcases List.mem_cons.mp hw with rfl | hw
        · exact hv
        · exact hwf w hw
      · rw [List.flatten_cons, List.flatMap_cons, hflat]
      · rw [List.map_cons, List.filter_cons_of_pos (by simp [v.encode_ne_nil]), hmap]
      · rw [List.filter_cons_of_pos (by simp [htokens]), List.length_cons, List.length_cons,
          hlen]

/-- Answers of that form can be told apart. -/
theorem separable_iff_answered {cs : List RawCommand} {rs : List Bytes} :
    Separable cs rs ↔ List.Forall₂ RawCommand.Answered cs rs := by
  constructor
  · exact fun h => h.each
  · intro h
    refine ⟨h, ?_⟩
    obtain ⟨values, hwf, hflat, hmap, hlen⟩ := values_of_answered h
    refine ⟨values, ?_, hmap, hlen⟩
    rw [hflat]
    exact Resp2.readAll_encode hwf (Resp2.length_le_encode values)

/-- One command. -/
theorem answered_iff (ctx : ServerCtx) (c : RawCommand) (s : Db × Bool) :
    c.Answered (execute ctx c.env c.raw s.1 s.2).result.response ↔
      ¬ EchoesLineEnd ctx s.2 c.raw := by
  unfold RawCommand.Answered
  rcases execute_response ctx c.env c.raw s.1 s.2 with ⟨hblank, hresponse⟩ | ⟨htokens, hiff⟩
  · refine iff_of_true (Or.inl ⟨hblank, hresponse⟩) ?_
    rintro ⟨-, word, args, hparse, -⟩
    rw [hblank] at hparse
    exact absurd hparse (by simp)
  · simp [htokens, hiff]

theorem answered_responses_iff (ctx : ServerCtx) (cs : List RawCommand) (s : Db × Bool) :
    List.Forall₂ RawCommand.Answered cs (responses ctx cs s) ↔
      Steps (commandStep ctx) (fun s c => ¬ EchoesLineEnd ctx s.2 c.raw) cs s := by
  induction cs generalizing s with
  | nil => exact iff_of_true List.Forall₂.nil trivial
  | cons c cs ih =>
    rw [responses, List.forall₂_cons, answered_iff, ih]
    rfl

/-- **The replies can be told apart exactly when no line end is echoed**: for any commands, on
any database, in any session. -/
theorem separable_iff (ctx : ServerCtx) (cs : List RawCommand) (db : Db)
    (isAuthenticated : Bool) :
    Separable cs (responses ctx cs (db, isAuthenticated)) ↔
      Steps (commandStep ctx) (fun s c => ¬ EchoesLineEnd ctx s.2 c.raw) cs
        (db, isAuthenticated) := by
  rw [separable_iff_answered, answered_responses_iff]

/-- The word `X\r\n:1\r\n`, sent as a request of one token: the error that repeats it is no value
of the protocol, and a reader finds an integer in the middle of it. -/
theorem not_separable_of_echo :
    ¬ ∀ (ctx : ServerCtx) (cs : List RawCommand) (db : Db) (isAuthenticated : Bool),
        Separable cs (responses ctx cs (db, isAuthenticated)) := by
  intro hall
  have h := (hall ⟨List.length, [], 6379, 4⟩
    [⟨⟨0, .plain, .success⟩, bytes "*1\r\n$7\r\nX\r\n:1\r\n\r\n"⟩]
    ⟨.empty, none, ⟨0, 0, 0, 0, 0, 0, 0, 0⟩⟩ false).each
  rw [answered_responses_iff] at h
  refine h.1 ⟨Or.inl rfl, bytes "X\r\n:1\r\n", [], by decide, by decide, by decide⟩

end KeyValueDb
