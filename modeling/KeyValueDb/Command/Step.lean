/-
# What a call of execute does

`execute_cases` inverts the dispatcher: a call leaves store and log alone, or compacts the
log, or is one branch on the store (`Executed`).  From it and from the account of the branches
in `Command/Effect.lean` follow, for every reachable store:

* `Reachable.execute`: the store stays reachable;
* `execute_clean`: an error reply changes nothing, every visible change is logged by exactly
  one record, and the commands that read change nothing.
-/
import KeyValueDb.Command.Effect
import KeyValueDb.Command.Execute

namespace KeyValueDb

open Lib RespParser

/-! ## 1. Inverting the dispatcher -/

/-- Past the password. -/
def Admitted (ctx : ServerCtx) (isAuthenticated : Bool) : Prop :=
  ctx.requirepass = [] ∨ isAuthenticated = true

theorem gated_iff {ctx : ServerCtx} {isAuthenticated : Bool} :
    (ctx.requirepass ≠ [] ∧ isAuthenticated = false) ↔ ¬ Admitted ctx isAuthenticated := by
  rw [Admitted, not_or, Bool.not_eq_true]

/-- The command of a request and its tokens, if it is a command. -/
def request? (rawCommand : Bytes) : Option (Verb × List Bytes) :=
  match parseRequest rawCommand with
  | [] => none
  | word :: args => (Verb.ofWord (toUpper word)).map fun v => (v, word :: args)

theorem request?_eq_some {rawCommand : Bytes} {v : Verb} {tokens : List Bytes}
    (h : request? rawCommand = some (v, tokens)) :
    ∃ word args, tokens = word :: args ∧ parseRequest rawCommand = word :: args ∧
      Verb.ofWord (toUpper word) = some v := by
  unfold request? at h
  split at h
  · exact absurd h (by simp)
  · rename_i word args hparse
    obtain ⟨v', hv, heq⟩ := Option.map_eq_some_iff.mp h
    simp only [Prod.mk.injEq] at heq
    obtain ⟨rfl, rfl⟩ := heq
    exact ⟨word, args, rfl, hparse, hv⟩

variable {ctx : ServerCtx} {env : Env} {rawCommand : Bytes} {db : Db} {isAuthenticated : Bool}

/-- The commands that leave store and log alone. -/
def Verb.Idle (db : Db) : Verb → Prop
  | .store _ => False
  | .bgrewriteaof => ∀ aof, db.aof = some aof → aof.enabled = false
  | _ => True

/-- What a call does to store, log and session. -/
inductive Executed (ctx : ServerCtx) (env : Env) (rawCommand : Bytes) (db : Db)
    (isAuthenticated : Bool) (o : Outcome) : Prop
  | idle (hstore : o.db.store = db.store) (haof : o.db.aof = db.aof)
      (hauth : IsError o.result.response → o.isAuthenticated = isAuthenticated)
      (hreq : Admitted ctx isAuthenticated → ∀ v tokens,
        request? rawCommand = some (v, tokens) → v.Idle db)
  | rewrite (hadmitted : Admitted ctx isAuthenticated) {tokens : List Bytes}
      (hreq : request? rawCommand = some (.bgrewriteaof, tokens))
      {aof : AofManager} (haof : db.aof = some aof) (henabled : aof.enabled = true)
      (hstore : o.db.store = db.store)
      (haof' : o.db.aof = some (aof.rewrite env.io env.order env.now db.store).2)
      (hresponse : IsError o.result.response →
        (aof.rewrite env.io env.order env.now db.store).1 = false)
      (hauth : o.isAuthenticated = isAuthenticated)
  | store (hadmitted : Admitted ctx isAuthenticated) {v : StoreVerb} {tokens : List Bytes}
      (hreq : request? rawCommand = some (.store v, tokens))
      (hresponse : o.result.response =
        (Command.run ctx.hash env.order env.now tokens db.store v).response)
      (hstore : o.db.store = (Command.run ctx.hash env.order env.now tokens db.store v).store)
      (haof : o.db.aof =
        match (Command.run ctx.hash env.order env.now tokens db.store v).record with
        | none => db.aof
        | some record => db.aof.map (AofManager.append record))
      (hauth : o.isAuthenticated = isAuthenticated)

theorem not_isError_simple (str : Bytes) : ¬ IsError (serializeSimpleString str) := by
  simp [IsError, serializeSimpleString, bytes]

theorem isAuthenticated_executeGated (word : Bytes) (args : List Bytes) :
    IsError (executeGated ctx word args db).result.response →
      (executeGated ctx word args db).isAuthenticated = false := by
  unfold executeGated
  split
  · split
    · intro h
      exact absurd h (not_isError_simple _)
    · intro _; rfl
  · intro _; rfl
  · intro _; rfl

theorem db_executeGated (word : Bytes) (args : List Bytes) :
    (executeGated ctx word args db).db = db := by
  unfold executeGated
  split
  · split <;> rfl
  · rfl
  · rfl

theorem db_executeAuth (ctx : ServerCtx) (args : List Bytes) (db : Db) (isAuthenticated : Bool) :
    (executeAuth ctx args db isAuthenticated).db = db ∧
      (IsError (executeAuth ctx args db isAuthenticated).result.response →
        (executeAuth ctx args db isAuthenticated).isAuthenticated = isAuthenticated) := by
  unfold executeAuth
  split
  · split
    · exact ⟨rfl, fun h => absurd h (not_isError_simple _)⟩
    · exact ⟨rfl, fun _ => rfl⟩
  · exact ⟨rfl, fun _ => rfl⟩

/-- A call counts one command, unless the line is blank, and neither connections nor keys that
expired or were evicted. -/
theorem execute_metrics (ctx : ServerCtx) (env : Env) (raw : Bytes) (db : Db)
    (isAuthenticated : Bool) :
    let m := (execute ctx env raw db isAuthenticated).db.metrics
    m.startTime = db.metrics.startTime ∧ m.totalConnections = db.metrics.totalConnections ∧
      m.activeConnections = db.metrics.activeConnections ∧
      m.totalCommands =
        db.metrics.totalCommands + (if (parseRequest raw).isEmpty then 0 else 1) ∧
      m.keysExpired = db.metrics.keysExpired ∧ m.keysEvicted = db.metrics.keysEvicted := by
  unfold execute
  split
  · rename_i hparse
    simp [hparse]
  · rename_i word args hparse
    rw [hparse]
    dsimp only
    split
    · rw [db_executeGated]
      exact ⟨rfl, rfl, rfl, rfl, rfl, rfl⟩
    · unfold executeOpen
      split
      · rw [(db_executeAuth ctx args _ isAuthenticated).1]
        exact ⟨rfl, rfl, rfl, rfl, rfl, rfl⟩
      · cases args <;> exact ⟨rfl, rfl, rfl, rfl, rfl, rfl⟩
      · unfold executeRewrite
        split
        · exact ⟨rfl, rfl, rfl, rfl, rfl, rfl⟩
        · split <;> exact ⟨rfl, rfl, rfl, rfl, rfl, rfl⟩
      · exact ⟨rfl, rfl, rfl, rfl, rfl, rfl⟩
      · exact ⟨rfl, rfl, rfl, rfl, rfl, rfl⟩
      · exact ⟨rfl, rfl, rfl, rfl, rfl, rfl⟩
      · exact ⟨rfl, rfl, rfl, rfl, rfl, rfl⟩

/-- Without an enabled log there is nothing to compact. -/
theorem executeRewrite_disabled (h : ∀ aof, db.aof = some aof → aof.enabled = false) :
    executeRewrite env db isAuthenticated =
      answer (serializeError (bytes "AOF is not enabled")) db isAuthenticated := by
  unfold executeRewrite
  split
  · rfl
  · rename_i aof haof
    rw [if_pos (h aof haof)]

theorem executeRewrite_enabled {aof : AofManager} (haof : db.aof = some aof)
    (henabled : aof.enabled = true) :
    executeRewrite env db isAuthenticated =
      answer
        (if (aof.rewrite env.io env.order env.now db.store).1 then
          serializeSimpleString
            (bytes "Background append only file rewriting finished successfully")
        else serializeError (bytes "rewriting failed"))
        { db with aof := some (aof.rewrite env.io env.order env.now db.store).2 }
        isAuthenticated := by
  unfold executeRewrite
  rw [haof]
  simp [henabled]

/-- **Every call is one of the three.** -/
theorem execute_cases (ctx : ServerCtx) (env : Env) (rawCommand : Bytes) (db : Db)
    (isAuthenticated : Bool) :
    Executed ctx env rawCommand db isAuthenticated
      (execute ctx env rawCommand db isAuthenticated) := by
  unfold execute
  split
  · rename_i hparse
    refine .idle rfl rfl (fun _ => rfl) ?_
    intro _ v tokens hreq
    simp [request?, hparse] at hreq
  · rename_i word args hparse
    have hreq : request? rawCommand =
        (Verb.ofWord (toUpper word)).map fun v => (v, word :: args) := by
      simp only [request?, hparse]
    dsimp only
    split
    · rename_i hgate
      obtain rfl := hgate.2
      refine .idle ?_ ?_ (isAuthenticated_executeGated word args) ?_
      · rw [db_executeGated]
      · rw [db_executeGated]
      · intro hadm
        exact absurd hadm (gated_iff.mp hgate)
    · rename_i hgate
      have hadm : Admitted ctx isAuthenticated := by rwa [gated_iff, not_not] at hgate
      unfold executeOpen
      cases hverb : Verb.ofWord (toUpper word) with
      | none =>
        refine .idle rfl rfl (fun _ => rfl) ?_
        intro _ v tokens hv
        simp [hreq, hverb] at hv
      | some verb =>
        rw [hverb, Option.map_some] at hreq
        have hidle : verb.Idle db → Admitted ctx isAuthenticated → ∀ v tokens,
            request? rawCommand = some (v, tokens) → v.Idle db := by
          intro hv' _ v tokens hv
          rw [hreq, Option.some.injEq, Prod.mk.injEq] at hv
          exact hv.1 ▸ hv'
        cases verb with
        | auth =>
          obtain ⟨hdb, hauth⟩ := db_executeAuth ctx args
            { db with metrics := db.metrics.onCommandProcessed } isAuthenticated
          exact .idle (by rw [hdb]) (by rw [hdb]) hauth (hidle trivial)
        | ping =>
          cases args <;> exact .idle rfl rfl (fun _ => rfl) (hidle trivial)
        | info => exact .idle rfl rfl (fun _ => rfl) (hidle trivial)
        | quit => exact .idle rfl rfl (fun _ => rfl) (hidle trivial)
        | bgrewriteaof =>
          set counted : Db := { db with metrics := db.metrics.onCommandProcessed }
          by_cases hen : ∃ aof, db.aof = some aof ∧ aof.enabled = true
          · obtain ⟨aof, haof, henabled⟩ := hen
            have haof' : counted.aof = some aof := haof
            dsimp only
            rw [executeRewrite_enabled haof' henabled]
            refine .rewrite hadm hreq haof henabled rfl rfl ?_ rfl
            intro herr
            by_contra hr
            have hstore : counted.store = db.store := rfl
            rw [Bool.not_eq_false] at hr
            simp only [answer, hstore, hr, if_true] at herr
            exact not_isError_simple _ herr
          · have hoff : ∀ aof, counted.aof = some aof → aof.enabled = false := by
              intro aof haof
              simpa using fun h => hen ⟨aof, haof, h⟩
            dsimp only
            rw [executeRewrite_disabled hoff]
            exact .idle rfl rfl (fun _ => rfl) (hidle hoff)
        | store v => exact .store hadm hreq rfl rfl rfl rfl

/-! ## 2. Reachable stores stay reachable -/

section Reach

variable {hash : Bytes → Nat} {s : KeyValueStore}

theorem Reachable.foldl {α : Type} {op : KeyValueStore → α → KeyValueStore}
    (hop : ∀ s x, Reachable hash s → Reachable hash (op s x)) (h : Reachable hash s)
    (xs : List α) : Reachable hash (xs.foldl op s) := by
  induction xs generalizing s with
  | nil => exact h
  | cons x xs ih => exact ih (hop s x h)

theorem Reachable.mgetLoop (now : Time) (h : Reachable hash s) (keys : List Bytes) :
    Reachable hash (Command.mgetLoop hash now keys s).2 := by
  induction keys generalizing s with
  | nil => exact h
  | cons key keys ih => exact ih (h.call .plain now (.get key))

theorem Reachable.msetLoop (now : Time) (h : Reachable hash s) (args : List Bytes) :
    Reachable hash (Command.msetLoop hash now args s) := by
  fun_induction Command.msetLoop hash now args s with
  | case1 key value rest s ih => exact ih (h.call .plain now (.set key value none))
  | case2 => exact h

theorem Reachable.addToCounter (h : Reachable hash s) (now : Time) (tokens : List Bytes)
    (key : Bytes) (delta : Int) :
    Reachable hash (Command.addToCounter hash now tokens s key delta).store := by
  unfold Command.addToCounter
  dsimp only
  split <;> exact h.call .plain now (.incrBy key delta)

theorem Reachable.pushLoop {push : Bytes → KeyValueStore → Nat × KeyValueStore}
    (hpush : ∀ s item, Reachable hash s → Reachable hash (push item s).2) (h : Reachable hash s)
    (items : List Bytes) : Reachable hash (Command.pushLoop s push items).2 := by
  rw [pushLoop_snd]
  exact h.foldl hpush items

theorem Reachable.delLoop (h : Reachable hash s) (keys : List Bytes) :
    Reachable hash (Command.delLoop hash s keys).2 := by
  have hsnd : (Command.delLoop hash s keys).2 =
      keys.foldl (fun s key => (s.del hash key).2) s :=
    (List.foldl_hom Prod.snd fun _ _ => rfl).symm
  rw [hsnd]
  exact h.foldl (fun s key hs => hs.call .plain 0 (.del key)) keys

/-- A record that is replayed keeps the store reachable. -/
theorem Reachable.dispatch {now : Time} {tokens : List Bytes} {s' : KeyValueStore}
    (h : Reachable hash s) (hd : dispatch hash now tokens s = some s') : Reachable hash s' := by
  unfold KeyValueDb.dispatch at hd
  split at hd
  · rw [← Option.some.inj hd]
    exact h
  · split at hd
    · rename_i key value _ _
      rw [← Option.some.inj hd]
      exact h.call .plain now (.set key value none)
    · rw [← Option.some.inj hd]
      exact h.foldl (fun s key hs => hs.call .plain 0 (.del key)) _
    · rename_i key seconds _ _
      obtain ⟨sec, -, rfl⟩ := Option.map_eq_some_iff.mp hd
      exact h.call .plain now (.expire key sec)
    · rename_i key field value _ _
      rw [← Option.some.inj hd]
      exact h.call .plain 0 (.hset key field value)
    · rename_i key field _ _
      rw [← Option.some.inj hd]
      exact h.call .plain 0 (.hdel key field)
    · rename_i key _ _ _
      rw [← Option.some.inj hd]
      exact h.foldl (fun s item hs => hs.call .plain 0 (.lpush key item)) _
    · rename_i key _ _ _
      rw [← Option.some.inj hd]
      exact h.foldl (fun s item hs => hs.call .plain 0 (.rpush key item)) _
    · rw [← Option.some.inj hd]
      exact h.call .plain 0 .clear
    · rw [← Option.some.inj hd]
      exact h

/-- **Loading a log keeps the store reachable.** -/
theorem Reachable.loadIntoStore {lim : Limits} {clock : Nat → Time} {aof : AofManager}
    {r : Nat × KeyValueStore} (h : Reachable hash s)
    (hload : aof.loadIntoStore lim hash clock s = some r) : Reachable hash r.2 := by
  have hloop : ∀ (fuel : Nat) (st : IStream) (i replayed : Nat) (s : KeyValueStore),
      Reachable hash s → loadLoop lim hash clock fuel st i replayed s = some r →
        Reachable hash r.2 := by
    intro fuel st i replayed s h hr
    fun_induction loadLoop lim hash clock fuel st i replayed s with
    | case1 | case2 =>
      rw [← Option.some.inj hr]
      exact h
    | case3 _ _ _ _ _ _ _ _ _ _ ih => exact ih h hr
    | case4 => cases hr
    | case5 _ _ _ _ _ _ _ _ _ _ _ _ _ ih => exact ih h hr
    | case6 _ _ _ _ _ _ _ _ _ _ _ _ _ hd ih => exact ih (h.dispatch hd) hr
  unfold AofManager.loadIntoStore at hload
  split at hload
  · rw [← Option.some.inj hload]
    exact h
  · split at hload
    · rw [← Option.some.inj hload]
      exact h
    · exact hloop _ _ _ _ _ h hload

/-- **Every branch keeps the store reachable.** -/
theorem Reachable.command (h : Reachable hash s) (order : IterOrder) (now : Time)
    (tokens : List Bytes) (v : StoreVerb) :
    Reachable hash (Command.run hash order now tokens s v).store := by
  cases v <;> simp only [Command.run]
  case set =>
    unfold Command.set
    split
    · split
      · exact h
      · exact h.call order now (.set _ _ _)
    · exact h
  case setex =>
    unfold Command.setex
    split
    · split
      · exact h
      · exact h.call order now (.set _ _ _)
    · exact h
  case get =>
    unfold Command.get
    split
    · exact h.call order now (.get _)
    · exact h
  case mget =>
    unfold Command.mget
    split
    · exact h.mgetLoop now _
    · exact h
  case mset =>
    unfold Command.mset
    split
    · split
      · exact h
      · exact h.msetLoop now _
    · exact h
  case incr =>
    unfold Command.incr
    split
    · exact h.addToCounter now _ _ _
    · exact h
  case decr =>
    unfold Command.decr
    split
    · exact h.addToCounter now _ _ _
    · exact h
  case incrby =>
    unfold Command.incrby
    split
    · split
      · exact h
      · exact h.addToCounter now _ _ _
    · exact h
  case hset =>
    unfold Command.hset
    split
    · exact h.call order now (.hset _ _ _)
    · exact h
  case hdel =>
    unfold Command.hdel
    split
    · exact h.call order now (.hdel _ _)
    · exact h
  case lpush =>
    unfold Command.lpush Command.pushCommand
    split
    · exact h.pushLoop (fun s item hs => hs.call order now (.lpush _ item)) _
    · exact h
  case rpush =>
    unfold Command.rpush Command.pushCommand
    split
    · exact h.pushLoop (fun s item hs => hs.call order now (.rpush _ item)) _
    · exact h
  case lpop =>
    unfold Command.lpop Command.popCommand
    split
    · exact h.call order now (.lpop _)
    · exact h
  case rpop =>
    unfold Command.rpop Command.popCommand
    split
    · exact h.call order now (.rpop _)
    · exact h
  case del =>
    unfold Command.del
    split
    · exact h.delLoop _
    · exact h
  case expire =>
    unfold Command.expire
    split
    · split
      · exact h
      · exact h.call order now (.expire _ _)
    · exact h
  case ttl =>
    unfold Command.ttl
    split
    · exact h.call order now (.ttl _)
    · exact h
  case flushdb => exact h.call order now .clear
  case dbsize => exact h
  case hget =>
    unfold Command.hget
    split
    · exact h
    · exact h
  case hexists =>
    unfold Command.hexists
    split
    · exact h
    · exact h
  case hlen =>
    unfold Command.hlen
    split
    · exact h
    · exact h
  case hgetall =>
    unfold Command.hgetall
    split
    · exact h
    · exact h
  case llen =>
    unfold Command.llen
    split
    · exact h
    · exact h
  case «exists» =>
    unfold Command.exists
    split
    · exact h
    · exact h
  case lrange =>
    unfold Command.lrange
    split
    · split <;> exact h
    · exact h

end Reach

/-- **A call keeps the store reachable.** -/
theorem Reachable.execute (h : Reachable ctx.hash db.store) (env : Env) (rawCommand : Bytes)
    (isAuthenticated : Bool) :
    Reachable ctx.hash (execute ctx env rawCommand db isAuthenticated).db.store := by
  cases execute_cases ctx env rawCommand db isAuthenticated with
  | idle hstore => rw [hstore]; exact h
  | rewrite _ _ _ _ hstore => rw [hstore]; exact h
  | store _ _ _ hstore => rw [hstore]; exact h.command env.order env.now _ _

/-! ## 3. Errors change nothing, changes are logged -/

/-- The commands that only read. -/
def readVerbs : List Verb :=
  [.store .get, .store .mget, .store .exists, .store .ttl, .store .dbsize, .info, .store .hget,
    .store .hexists, .store .hlen, .store .hgetall, .store .llen, .store .lrange]

section Logged

variable {now : Time} {F F' : FlatStore} {v : StoreVerb} {tokens record : List Bytes}

theorem Logged.record_ne_nil (h : Logged now F v tokens record F') : record ≠ [] := by
  cases h <;> simp

theorem counterArgs_eq_some {args : List Bytes} {key : Bytes} {delta : Int}
    (h : counterArgs v args = some (key, delta)) : v = .incr ∨ v = .decr ∨ v = .incrby := by
  unfold counterArgs at h
  split at h
  · exact Or.inl rfl
  · exact Or.inr (Or.inl rfl)
  · exact Or.inr (Or.inr rfl)
  · exact absurd h (by simp)

/-- A command that reads logs nothing. -/
theorem Logged.notMem_readVerbs (h : Logged now F v tokens record F') :
    Verb.store v ∉ readVerbs := by
  cases h with
  | counter w hargs hok =>
    rcases counterArgs_eq_some hargs with rfl | rfl | rfl <;> decide
  | _ => decide

end Logged

/-- What a call on an enabled log may do: `error` and `read` say when nothing changes, `logged`
that a change of the visible contents comes with exactly one record. -/
structure CleanCall (ctx : ServerCtx) (env : Env) (rawCommand : Bytes) (db : Db)
    (isAuthenticated : Bool) (aof : AofManager) (o : Outcome) : Prop where
  error : IsError o.result.response →
    (o.db.store.view ctx.hash).visible env.now = (db.store.view ctx.hash).visible env.now ∧
      o.db.aof = some aof ∧ o.isAuthenticated = isAuthenticated
  logged : (o.db.store.view ctx.hash).visible env.now ≠ (db.store.view ctx.hash).visible env.now →
    ∃ record, record ≠ [] ∧
      o.db.aof = some { aof with disk := aof.disk.extend (encodeRecord record) }
  read : ∀ v tokens, request? rawCommand = some (v, tokens) → v ∈ readVerbs →
    (o.db.store.view ctx.hash).visible env.now = (db.store.view ctx.hash).visible env.now ∧
      o.db.aof = some aof

theorem append_eq {aof : AofManager} (henabled : aof.enabled = true) (hopen : aof.isOpen = true)
    {record : List Bytes} (hne : record ≠ []) :
    aof.append record = { aof with disk := aof.disk.extend (encodeRecord record) } := by
  simp [AofManager.append, henabled, hopen, hne]

/-- **Error replies change nothing, visible changes are logged, reads change nothing.**  For
every request, password and session, at any instant, with the log enabled and its file operations
succeeding.  The store is a reachable one: there is no other, and one with an empty hash in it
would lose that to a command that logs nothing. -/
theorem execute_clean (hr : Reachable ctx.hash db.store) {aof : AofManager}
    (haof : db.aof = some aof) (henabled : aof.enabled = true) (hopen : aof.isOpen = true)
    (hio : env.io = .success) :
    CleanCall ctx env rawCommand db isAuthenticated aof
      (execute ctx env rawCommand db isAuthenticated) := by
  cases execute_cases ctx env rawCommand db isAuthenticated with
  | idle hstore haof' hauth =>
    rw [haof] at haof'
    have hvisible := congrArg (fun s => (s.view ctx.hash).visible env.now) hstore
    constructor
    · intro herr
      exact ⟨hvisible, haof', hauth herr⟩
    · intro hchange
      exact absurd hvisible hchange
    · intro _ _ _ _
      exact ⟨hvisible, haof'⟩
  | rewrite _ hreq haof' henabled' hstore _ hresponse =>
    have hvisible := congrArg (fun s => (s.view ctx.hash).visible env.now) hstore
    constructor
    · intro herr
      have hfalse := hresponse herr
      simp [AofManager.rewrite, AofManager.rewriteTo, hio, RewriteIo.success, henabled'] at hfalse
    · intro hchange
      exact absurd hvisible hchange
    · intro v tokens hv hread
      rw [hreq, Option.some.injEq, Prod.mk.injEq] at hv
      exact absurd (hv.1 ▸ hread) (by decide)
  | store _ hreq hresponse hstore haof' hauth =>
    rename_i v tokens
    cases run_effect env.order env.now v tokens hr.noEmpty with
    | quiet hrecord hvisible =>
      rw [← hstore] at hvisible
      rw [hrecord, haof] at haof'
      constructor
      · intro _
        exact ⟨hvisible, haof', hauth⟩
      · intro hchange
        exact absurd hvisible hchange
      · intro _ _ _ _
        exact ⟨hvisible, haof'⟩
    | logged record hrecord hlogged hok =>
      rw [hrecord, haof] at haof'
      constructor
      · intro herr
        rw [hresponse] at herr
        exact absurd herr hok
      · intro _
        refine ⟨record, hlogged.record_ne_nil, ?_⟩
        rw [haof']
        exact congrArg some (append_eq henabled hopen hlogged.record_ne_nil)
      · intro v' tokens' hv hread
        rw [hreq, Option.some.injEq, Prod.mk.injEq] at hv
        exact absurd (hv.1 ▸ hread) hlogged.notMem_readVerbs

/-- A first `SET`. -/
theorem execute_clean_set :
    CleanCall ⟨List.length, [], 8080, 4⟩ ⟨0, .plain, .success⟩ (bytes "SET k v\r\n")
      ⟨.empty, some ⟨true, true, ⟨some [], none⟩⟩, ⟨0, 0, 0, 0, 0, 0, 0, 0⟩⟩ true
      ⟨true, true, ⟨some [], none⟩⟩
      (execute ⟨List.length, [], 8080, 4⟩ ⟨0, .plain, .success⟩ (bytes "SET k v\r\n")
        ⟨.empty, some ⟨true, true, ⟨some [], none⟩⟩, ⟨0, 0, 0, 0, 0, 0, 0, 0⟩⟩ true) :=
  execute_clean Reachable.empty rfl rfl rfl rfl

end KeyValueDb
