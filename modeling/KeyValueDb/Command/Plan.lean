/-
# A command as the calls it makes

Which calls of the store a command makes depends on its tokens alone, and not on what the calls
before answered.  So a branch of `execute` is a list of calls and a function from their results
to the answer (`Plan`), and running the branch is running the calls (`run_eq_plan`).

What holds of a sequence of calls then holds of every command, without going through the
branches again.
-/
import KeyValueDb.Command.Commands
import KeyValueDb.Store.Keys

namespace KeyValueDb

open Lib RespParser

/-! ## 1. Plans -/

/-- A reply without the store it leaves. -/
structure Answer where
  response : Bytes
  record : Option (List Bytes) := none
  reads : Nat := 0
  writes : Nat := 0

/-- Calls, and what is made of their results. -/
structure Plan where
  calls : List Call
  answer : List CallResult → Answer

def Answer.reply (a : Answer) (store : KeyValueStore) : Reply :=
  ⟨a.response, store, a.record, a.reads, a.writes⟩

/-- Make the calls, all at one instant, and answer. -/
def Plan.run (hash : Bytes → Nat) (order : IterOrder) (now : Time) (p : Plan)
    (store : KeyValueStore) : Reply :=
  let r := store.makeCalls hash order now p.calls
  (p.answer r.1).reply r.2

/-- How a result is answered when it is the whole answer. -/
def CallResult.response : CallResult → Bytes
  | .unit => ok
  | .bool b => flag b
  | .int n => serializeInteger n
  | .size n => serializeInteger n
  | .value v => bulkOrNull v
  | .counter r =>
    if r.1 then serializeInteger r.2
    else serializeError (bytes "value is not an integer or out of range")
  | .pairs ps => serializeArray (ps.flatMap fun p => [p.1, p.2])
  | .elems xs => serializeArray xs
  | .snapshot _ => []

/-- The call found what it was about. -/
def CallResult.succeeded : CallResult → Bool
  | .bool b => b
  | .value v => v.isSome
  | .counter r => r.1
  | _ => true

/-- The value a `get` found. -/
def CallResult.value? : CallResult → Option Bytes
  | .value v => v
  | _ => none

/-- The length after a push. -/
def CallResult.length : CallResult → Nat
  | .size n => n
  | _ => 0

namespace Plan

/-- No calls. -/
def refuse (errMsg : Bytes) : Plan := ⟨[], fun _ => { response := serializeError errMsg }⟩

def wrongArguments (name : String) : Plan :=
  refuse (bytes "wrong number of arguments for '" ++ bytes name ++ bytes "' command")

def notAnInteger : Plan := refuse (bytes "value is not an integer or out of range")

/-- One call, and its result made into the answer. -/
def single (c : Call) (answer : CallResult → Answer) : Plan :=
  ⟨[c], fun
    | [r] => answer r
    | _ => { response := [] }⟩

/-- One call that only reads. -/
def read (c : Call) : Plan := single c fun r => { response := r.response, reads := 1 }

/-- One call that writes, logged in any case. -/
def write (c : Call) (record : List Bytes) : Plan :=
  single c fun r => { response := r.response, record := some record, writes := 1 }

/-- One call that writes, logged if it found something. -/
def writeIf (c : Call) (record : List Bytes) : Plan :=
  single c fun r =>
    { response := r.response, record := if r.succeeded then some record else none, writes := 1 }

/-- One `incr_by`, logged and counted if it succeeded. -/
def count (tokens : List Bytes) (key : Bytes) (delta : Int) : Plan :=
  single (.incrBy key delta) fun r =>
    { response := r.response, record := if r.succeeded then some tokens else none,
      writes := if r.succeeded then 1 else 0 }

/-- Several pushes; the answer is the length after the last one. -/
def pushes (tokens : List Bytes) (calls : List Call) : Plan :=
  ⟨calls, fun rs =>
    { response := serializeInteger ((rs.getLast?.map CallResult.length).getD 0),
      record := some tokens, writes := calls.length }⟩

end Plan

namespace Command

variable (tokens : List Bytes)

/-! ## 2. The calls of each command -/

def msetCalls : List Bytes → List Call
  | key :: value :: rest => .set key value none :: msetCalls rest
  | _ => []

def planSet : Plan :=
  match tokens with
  | _ :: key :: value :: options =>
    match lifetime options with
    | none => .notAnInteger
    | some ttl => .write (.set key value ttl) tokens
  | _ => .wrongArguments "set"

def planSetex : Plan :=
  match tokens with
  | [_, key, seconds, value] =>
    match stoll seconds with
    | none => .notAnInteger
    | some sec =>
      .write (.set key value (some sec)) [bytes "SET", key, value, bytes "EX", seconds]
  | _ => .wrongArguments "setex"

def planMget : Plan :=
  match tokens with
  | _ :: key :: keys =>
    ⟨(key :: keys).map .get, fun rs =>
      { response := bytes "*" ++ dec (key :: keys).length ++ crlf ++
          rs.flatMap fun r => bulkOrNull r.value?
        reads := (key :: keys).length }⟩
  | _ => .wrongArguments "mget"

def planMset : Plan :=
  match tokens with
  | _ :: args =>
    if args.length < 2 ∨ args.length % 2 ≠ 0 then .wrongArguments "mset"
    else
      ⟨msetCalls args, fun _ =>
        { response := ok, record := some tokens, writes := args.length / 2 }⟩
  | [] => .wrongArguments "mset"

def planDel : Plan :=
  match tokens with
  | _ :: key :: keys =>
    ⟨(key :: keys).map .del, fun rs =>
      { response := serializeInteger (rs.countP CallResult.succeeded)
        record := if 0 < rs.countP CallResult.succeeded then some tokens else none
        writes := 1 }⟩
  | _ => .wrongArguments "del"

/-- The commands on one key without further arguments. -/
def planKey (name : String) (plan : Bytes → Plan) : Plan :=
  match tokens with
  | [_, key] => plan key
  | _ => .wrongArguments name

/-- The commands on one field of one key. -/
def planField (name : String) (plan : Bytes → Bytes → Plan) : Plan :=
  match tokens with
  | [_, key, field] => plan key field
  | _ => .wrongArguments name

/-- The commands on one key and a number. -/
def planNumber (name : String) (plan : Bytes → Int → Plan) : Plan :=
  planField tokens name fun key text =>
    match stoll text with
    | none => .notAnInteger
    | some n => plan key n

def planPush (name : String) (push : Bytes → Bytes → Call) : Plan :=
  match tokens with
  | _ :: key :: item :: items => .pushes tokens ((item :: items).map (push key))
  | _ => .wrongArguments name

def planHset : Plan :=
  match tokens with
  | [_, key, field, value] => .write (.hset key field value) tokens
  | _ => .wrongArguments "hset"

def planLrange : Plan :=
  match tokens with
  | [_, key, start, stop] =>
    match stoll start, stoll stop with
    | some a, some b => .read (.lrange key a b)
    | _, _ => .notAnInteger
  | _ => .wrongArguments "lrange"

/-- The plan of a command on the store. -/
def plan : StoreVerb → Plan
  | .set => planSet tokens
  | .setex => planSetex tokens
  | .get => planKey tokens "get" fun key => .read (.get key)
  | .mget => planMget tokens
  | .mset => planMset tokens
  | .incr => planKey tokens "incr" fun key => .count tokens key 1
  | .decr => planKey tokens "decr" fun key => .count tokens key (-1)
  | .incrby => planNumber tokens "incrby" (.count tokens)
  | .hset => planHset tokens
  | .hget => planField tokens "hget" fun key field => .read (.hget key field)
  | .hdel => planField tokens "hdel" fun key field => .writeIf (.hdel key field) tokens
  | .hexists => planField tokens "hexists" fun key field => .read (.hexists key field)
  | .hlen => planKey tokens "hlen" fun key => .read (.hlen key)
  | .hgetall => planKey tokens "hgetall" fun key => .read (.hgetall key)
  | .lpush => planPush tokens "lpush" .lpush
  | .rpush => planPush tokens "rpush" .rpush
  | .lpop => planKey tokens "lpop" fun key => .writeIf (.lpop key) tokens
  | .rpop => planKey tokens "rpop" fun key => .writeIf (.rpop key) tokens
  | .llen => planKey tokens "llen" fun key => .read (.llen key)
  | .lrange => planLrange tokens
  | .del => planDel tokens
  | .exists => planKey tokens "exists" fun key => .read (.exists key)
  | .expire => planNumber tokens "expire" fun key sec => .writeIf (.expire key sec) tokens
  | .ttl => planKey tokens "ttl" fun key => .read (.ttl key)
  | .dbsize => .single .size fun r => { response := r.response }
  | .flushdb => .write .clear [bytes "FLUSHDB"]

/-! ## 3. Running the branch is running the calls -/

variable {hash : Bytes → Nat} {order : IterOrder} {now : Time} {s : KeyValueStore}
  {tokens}

variable (order) in
theorem run_mget (keys : List Bytes) (s : KeyValueStore) :
    let r := s.makeCalls hash order now (keys.map .get)
    mgetLoop hash now keys s = (r.1.flatMap fun x => bulkOrNull x.value?, r.2) := by
  induction keys generalizing s with
  | nil => rfl
  | cons key keys ih =>
    rw [mgetLoop, ih]
    rfl

variable (order) in
theorem run_mset (args : List Bytes) (s : KeyValueStore) :
    (s.makeCalls hash order now (msetCalls args)).2 = msetLoop hash now args s := by
  fun_induction msetCalls args generalizing s with
  | case1 key value rest ih => exact ih _
  | case2 args h =>
    cases args with
    | nil => rfl
    | cons key rest =>
      cases rest with
      | nil => rfl
      | cons value rest => exact absurd rfl (h key value rest)

variable (order now) in
theorem run_del (keys : List Bytes) (acc : Nat × KeyValueStore) :
    let r := acc.2.makeCalls hash order now (keys.map .del)
    keys.foldl (delStep hash) acc = (acc.1 + r.1.countP CallResult.succeeded, r.2) := by
  induction keys generalizing acc with
  | nil => rfl
  | cons key keys ih =>
    rw [List.foldl_cons, ih]
    simp only [List.map_cons, KeyValueStore.makeCalls, KeyValueStore.runCalls, KeyValueStore.call,
      delStep, List.countP_cons, CallResult.succeeded, Prod.mk.injEq, and_true]
    cases (acc.2.del hash key).1
    · rfl
    · simp only [if_true]
      omega

/-- The pushes one after the other: the length after the last one is the one that counts. -/
theorem run_push {push : Bytes → KeyValueStore → Nat × KeyValueStore} {c : Bytes → Call}
    (hc : ∀ item s, KeyValueStore.call hash order now (c item) s =
      (.size (push item s).1, (push item s).2)) (items : List Bytes)
    (acc : Nat × KeyValueStore) :
    let r := acc.2.makeCalls hash order now (items.map c)
    items.foldl (fun acc item => push item acc.2) acc =
      ((r.1.getLast?.map CallResult.length).getD acc.1, r.2) := by
  induction items generalizing acc with
  | nil => rfl
  | cons item items ih =>
    rw [List.foldl_cons, ih]
    simp only [List.map_cons, KeyValueStore.makeCalls, KeyValueStore.runCalls, hc, Prod.mk.injEq,
      and_true]
    cases (KeyValueStore.runCalls hash _ (push item acc.2).2).1 with
    | nil => rfl
    | cons r rs => simp only [List.getLast?_cons, Option.map_some, Option.getD_some]

theorem run_count (key : Bytes) (delta : Int) :
    addToCounter hash now tokens s key delta =
      (Plan.count tokens key delta).run hash order now s := by
  have hrun : (Plan.count tokens key delta).run hash order now s =
      { response := (CallResult.counter (s.incrBy hash now key delta).1).response
        store := (s.incrBy hash now key delta).2
        record := if (s.incrBy hash now key delta).1.1 then some tokens else none
        writes := if (s.incrBy hash now key delta).1.1 then 1 else 0 } := rfl
  rw [hrun, addToCounter]
  rcases s.incrBy hash now key delta with ⟨⟨_ | _, n⟩, s'⟩
  · rfl
  · rfl

theorem run_pushes (name : String)
    {push : Bytes → Bytes → KeyValueStore → Nat × KeyValueStore} {c : Bytes → Bytes → Call}
    (hc : ∀ key item s, KeyValueStore.call hash order now (c key item) s =
      (.size (push key item s).1, (push key item s).2)) (word key item : Bytes)
    (items : List Bytes) :
    pushCommand (word :: key :: item :: items) s name push =
      (planPush (word :: key :: item :: items) name c).run hash order now s := by
  simp only [pushCommand, planPush, pushLoop, run_push (hc key)]
  simp [Plan.run, Plan.pushes, Answer.reply]

/-- **A branch is its plan.** -/
theorem run_eq_plan (hash : Bytes → Nat) (order : IterOrder) (now : Time) (tokens : List Bytes)
    (s : KeyValueStore) (v : StoreVerb) :
    run hash order now tokens s v = (plan tokens v).run hash order now s := by
  -- in each branch the tokens are taken apart as far as the branch looks at them
  cases v
  case set =>
    rcases tokens with _ | ⟨word, _ | ⟨key, _ | ⟨value, options⟩⟩⟩
    · rfl
    · rfl
    · rfl
    · simp only [run, plan, set, planSet]
      cases lifetime options <;> rfl
  case setex =>
    rcases tokens with _ | ⟨word, _ | ⟨key, _ | ⟨seconds, _ | ⟨value, _ | ⟨x, rest⟩⟩⟩⟩⟩
    case cons.cons.cons.cons.nil =>
      simp only [run, plan, setex, planSetex]
      cases stoll seconds <;> rfl
    all_goals rfl
  case mget =>
    rcases tokens with _ | ⟨word, _ | ⟨key, keys⟩⟩
    · rfl
    · rfl
    · simp only [run, plan, mget, planMget, run_mget order]
      rfl
  case mset =>
    rcases tokens with _ | ⟨word, args⟩
    · rfl
    · simp only [run, plan, mset, planMset]
      split
      · rfl
      · rw [← run_mset order]
        rfl
  case incr | decr =>
    rcases tokens with _ | ⟨word, _ | ⟨key, _ | ⟨x, rest⟩⟩⟩
    · rfl
    · rfl
    · exact run_count key _
    · rfl
  case incrby =>
    rcases tokens with _ | ⟨word, _ | ⟨key, _ | ⟨amount, _ | ⟨x, rest⟩⟩⟩⟩
    case cons.cons.cons.nil =>
      simp only [run, plan, incrby, planNumber, planField]
      cases stoll amount with
      | none => rfl
      | some delta => exact run_count key delta
    all_goals rfl
  case lpush =>
    rcases tokens with _ | ⟨word, _ | ⟨key, _ | ⟨item, items⟩⟩⟩
    · rfl
    · rfl
    · rfl
    · exact run_pushes "lpush" (fun _ _ _ => rfl) word key item items
  case rpush =>
    rcases tokens with _ | ⟨word, _ | ⟨key, _ | ⟨item, items⟩⟩⟩
    · rfl
    · rfl
    · rfl
    · exact run_pushes "rpush" (fun _ _ _ => rfl) word key item items
  case lrange =>
    rcases tokens with _ | ⟨word, _ | ⟨key, _ | ⟨start, _ | ⟨stop, _ | ⟨x, rest⟩⟩⟩⟩⟩
    case cons.cons.cons.cons.nil =>
      simp only [run, plan, lrange, planLrange]
      cases stoll start <;> cases stoll stop <;> rfl
    all_goals rfl
  case del =>
    rcases tokens with _ | ⟨word, _ | ⟨key, keys⟩⟩
    · rfl
    · rfl
    · simp only [run, plan, del, planDel, delLoop, run_del order now, Nat.zero_add]
      rfl
  case expire =>
    rcases tokens with _ | ⟨word, _ | ⟨key, _ | ⟨seconds, _ | ⟨x, rest⟩⟩⟩⟩
    case cons.cons.cons.nil =>
      simp only [run, plan, expire, planNumber, planField]
      cases stoll seconds <;> rfl
    all_goals rfl
  case dbsize | flushdb => rfl
  case hset =>
    rcases tokens with _ | ⟨word, _ | ⟨key, _ | ⟨field, _ | ⟨value, _ | ⟨x, rest⟩⟩⟩⟩⟩ <;> rfl
  case hget | hdel | hexists =>
    rcases tokens with _ | ⟨word, _ | ⟨key, _ | ⟨field, _ | ⟨x, rest⟩⟩⟩⟩ <;> rfl
  case get | hlen | hgetall | lpop | rpop | llen | «exists» | ttl =>
    rcases tokens with _ | ⟨word, _ | ⟨key, _ | ⟨x, rest⟩⟩⟩ <;> rfl

/-! ## 4. Which calls they are -/

theorem calls_planKey {P : Call → Prop} {name : String} {plan : Bytes → Plan}
    (h : ∀ word key, tokens = [word, key] → ∀ c ∈ (plan key).calls, P c) :
    ∀ c ∈ (planKey tokens name plan).calls, P c := by
  unfold planKey
  split
  · exact h _ _ rfl
  · exact fun c hc => absurd hc List.not_mem_nil

theorem calls_planField {P : Call → Prop} {name : String} {plan : Bytes → Bytes → Plan}
    (h : ∀ word key field, tokens = [word, key, field] → ∀ c ∈ (plan key field).calls, P c) :
    ∀ c ∈ (planField tokens name plan).calls, P c := by
  unfold planField
  split
  · exact h _ _ _ rfl
  · exact fun c hc => absurd hc List.not_mem_nil

theorem calls_planNumber {P : Call → Prop} {name : String} {plan : Bytes → Int → Plan}
    (h : ∀ word key text n, tokens = [word, key, text] → ∀ c ∈ (plan key n).calls, P c) :
    ∀ c ∈ (planNumber tokens name plan).calls, P c := by
  refine calls_planField fun word key text htokens c hc => ?_
  split at hc
  · exact absurd hc List.not_mem_nil
  · exact h word key text _ htokens c hc

theorem calls_planPush {P : Call → Prop} {name : String} {push : Bytes → Bytes → Call}
    (h : ∀ word key items, tokens = word :: key :: items → ∀ item ∈ items, P (push key item)) :
    ∀ c ∈ (planPush tokens name push).calls, P c := by
  unfold planPush
  split
  · intro c hc
    obtain ⟨item, hitem, rfl⟩ := List.mem_map.mp hc
    exact h _ _ _ rfl item hitem
  · exact fun c hc => absurd hc List.not_mem_nil

theorem mem_msetCalls {args : List Bytes} {c : Call} (hc : c ∈ msetCalls args) :
    ∃ key ∈ args, ∃ value ∈ args, c = .set key value none := by
  fun_induction msetCalls args with
  | case1 key value rest ih =>
    rcases List.mem_cons.mp hc with rfl | hc
    · exact ⟨key, by simp, value, by simp, rfl⟩
    · obtain ⟨k, hk, v, hv, rfl⟩ := ih hc
      exact ⟨k, by simp [hk], v, by simp [hv], rfl⟩
  | case2 => exact absurd hc List.not_mem_nil

theorem calls_single {P : Call → Prop} {c₀ : Call} {answer : CallResult → Answer} (h : P c₀) :
    ∀ c ∈ (Plan.single c₀ answer).calls, P c := by
  intro c hc
  rwa [List.mem_singleton.mp hc]

/-- The call is one that the command can make with these tokens. -/
structure Admits (tokens : List Bytes) (v : StoreVerb) (c : Call) : Prop where
  texts : ∀ t ∈ c.texts, t ∈ tokens
  snapshot : c ≠ .getSnapshot
  shows : v ≠ .hgetall → c.shows = false
  size : v ≠ .dbsize → c ≠ .size

theorem admits_key {v : StoreVerb} {word key : Bytes} {rest : List Bytes} {c : Call}
    (htokens : tokens = word :: key :: rest) (hc : c.texts = [key]) (hsnapshot : c ≠ .getSnapshot)
    (hshows : v ≠ .hgetall → c.shows = false) (hsize : c ≠ .size) : Admits tokens v c :=
  ⟨by simp [hc, htokens], hsnapshot, hshows, fun _ => hsize⟩

/-- **A branch makes calls about its tokens.** -/
theorem admits_of_mem_calls (v : StoreVerb) : ∀ c ∈ (plan tokens v).calls, Admits tokens v c := by
  cases v
  case set =>
    simp only [plan, planSet]
    split
    · split
      · exact fun c hc => absurd hc List.not_mem_nil
      · exact calls_single ⟨by simp [Call.texts], by simp, fun _ => rfl, by simp⟩
    · exact fun c hc => absurd hc List.not_mem_nil
  case setex =>
    simp only [plan, planSetex]
    split
    · split
      · exact fun c hc => absurd hc List.not_mem_nil
      · exact calls_single ⟨by simp [Call.texts], by simp, fun _ => rfl, by simp⟩
    · exact fun c hc => absurd hc List.not_mem_nil
  case mget =>
    simp only [plan, planMget]
    split
    · intro c hc
      obtain ⟨key, hkey, rfl⟩ := List.mem_map.mp hc
      exact ⟨by simpa [Call.texts] using Or.inr (List.mem_cons.mp hkey), by simp, fun _ => rfl,
        by simp⟩
    · exact fun c hc => absurd hc List.not_mem_nil
  case mset =>
    simp only [plan, planMset]
    split
    · split
      · exact fun c hc => absurd hc List.not_mem_nil
      · intro c hc
        obtain ⟨key, hkey, value, hvalue, rfl⟩ := mem_msetCalls hc
        exact ⟨by simp [Call.texts, hkey, hvalue], by simp, fun _ => rfl, by simp⟩
    · exact fun c hc => absurd hc List.not_mem_nil
  case del =>
    simp only [plan, planDel]
    split
    · intro c hc
      obtain ⟨key, hkey, rfl⟩ := List.mem_map.mp hc
      exact ⟨by simpa [Call.texts] using Or.inr (List.mem_cons.mp hkey), by simp, fun _ => rfl,
        by simp⟩
    · exact fun c hc => absurd hc List.not_mem_nil
  case hset =>
    simp only [plan, planHset]
    split
    · exact calls_single ⟨by simp [Call.texts], by simp, fun _ => rfl, by simp⟩
    · exact fun c hc => absurd hc List.not_mem_nil
  case lrange =>
    simp only [plan, planLrange]
    split
    · split
      · exact calls_single ⟨by simp [Call.texts], by simp, fun _ => rfl, by simp⟩
      · exact fun c hc => absurd hc List.not_mem_nil
    · exact fun c hc => absurd hc List.not_mem_nil
  case get | hlen | lpop | rpop | llen | «exists» | ttl | incr | decr =>
    exact calls_planKey fun word key htokens =>
      calls_single (admits_key htokens rfl (by simp) (fun _ => rfl) (by simp))
  case hgetall =>
    exact calls_planKey fun word key htokens =>
      calls_single (admits_key htokens rfl (by simp) (fun h => absurd rfl h) (by simp))
  case incrby | expire =>
    exact calls_planNumber fun word key text n htokens =>
      calls_single (admits_key htokens rfl (by simp) (fun _ => rfl) (by simp))
  case hget | hdel | hexists =>
    exact calls_planField fun word key field htokens =>
      calls_single ⟨by simp [Call.texts, htokens], by simp, fun _ => rfl, by simp⟩
  case lpush | rpush =>
    exact calls_planPush fun word key items htokens item hitem =>
      ⟨by simp [Call.texts, htokens, hitem], by simp, fun _ => rfl, by simp⟩
  case dbsize =>
    exact calls_single ⟨fun t ht => absurd ht List.not_mem_nil, by simp, fun _ => rfl,
      fun h => absurd rfl h⟩
  case flushdb =>
    exact calls_single ⟨fun t ht => absurd ht List.not_mem_nil, by simp, fun _ => rfl, by simp⟩

end Command

end KeyValueDb
