/-
# The hash function does not show

Two servers configured alike, with different hash functions for their 64 shards, which meet
their maps in different iteration orders.  The same requests get the same replies from both,
but for `HGETALL`, whose pairs may come in another order; and as long as no request compacts
the log, both write the same log (`runs_alike`).  The runs are runs of requests: a pass of the
janitor between two of them looks at the first entries it meets, and that does show.

The store of one server is compared with that of the other through what both hold
(`KeyValueStore.view`), and a branch of the dispatcher through the calls it makes
(`Command.plan`).
-/
import KeyValueDb.Command.Plan
import KeyValueDb.Command.Run

namespace KeyValueDb

open Lib RespParser FlatStore

/-! ## 1. Two servers, two requests, two replies -/

/-- Two servers that differ in their hash function only. -/
structure ServerCtx.SameSettings (ctx ctx' : ServerCtx) : Prop where
  requirepass : ctx'.requirepass = ctx.requirepass
  port : ctx'.port = ctx.port
  threadCount : ctx'.threadCount = ctx.threadCount

/-- The same request at the same instant, met in another iteration order. -/
structure Request.SameButOrder (req req' : Request) : Prop where
  raw : req'.raw = req.raw
  isAuthenticated : req'.isAuthenticated = req.isAuthenticated
  now : req'.env.now = req.env.now
  io : req'.env.io = req.env.io

/-- The reply to `HGETALL`. -/
def serializePairs (ps : List (Bytes × Bytes)) : Bytes :=
  serializeArray (ps.flatMap fun p => [p.1, p.2])

/-- The same reply, or the same pairs in another order. -/
inductive SamePairs : Bytes → Bytes → Prop
  | refl (response : Bytes) : SamePairs response response
  | pairs {ps ps' : List (Bytes × Bytes)} (h : ps.Perm ps') :
      SamePairs (serializePairs ps) (serializePairs ps')

/-- Two databases that hold the same, with logs that are switched on or off alike. -/
structure Paired (hash hash' : Bytes → Nat) (db db' : Db) : Prop where
  reachable : Reachable hash db.store
  reachable' : Reachable hash' db'.store
  view : db'.store.view hash' = db.store.view hash
  metrics : db'.metrics = db.metrics
  aof : db'.aof.map (fun aof => (aof.enabled, aof.isOpen)) =
    db.aof.map fun aof => (aof.enabled, aof.isOpen)

/-- What two servers made of one request.  `shows` says that it was an `HGETALL`. -/
structure Outcome.Alike (hash hash' : Bytes → Nat) (shows : Prop) (o o' : Outcome) : Prop where
  response : SamePairs o.result.response o'.result.response
  exact : ¬ shows → o'.result.response = o.result.response
  shouldClose : o'.result.shouldClose = o.result.shouldClose
  isAuthenticated : o'.isAuthenticated = o.isAuthenticated
  db : Paired hash hash' o.db o'.db

variable {hash hash' : Bytes → Nat} {shows : Prop} {db db' : Db} {isAuthenticated : Bool}

theorem paired_empty (hash hash' : Bytes → Nat) (aof : Option AofManager) (metrics : Metrics) :
    Paired hash hash' ⟨.empty, aof, metrics⟩ ⟨.empty, aof, metrics⟩ :=
  ⟨Reachable.empty, Reachable.empty, rfl, rfl, rfl⟩

theorem Paired.answer (h : Paired hash hash' db db') (response : Bytes) :
    Outcome.Alike hash hash' shows (answer response db isAuthenticated)
      (answer response db' isAuthenticated) :=
  ⟨.refl _, fun _ => rfl, rfl, rfl, h⟩

theorem Paired.onCommandProcessed (h : Paired hash hash' db db') :
    Paired hash hash' { db with metrics := db.metrics.onCommandProcessed }
      { db' with metrics := db'.metrics.onCommandProcessed } :=
  ⟨h.reachable, h.reachable', h.view, congrArg Metrics.onCommandProcessed h.metrics, h.aof⟩

/-! ## 2. A branch on the store -/

theorem within_univ {c : Call} (hc : c ≠ .getSnapshot) : c.Within Set.univ := by
  cases c <;> first | exact trivial | exact Or.inl rfl | exact Or.inr ⟨rfl, rfl⟩ |
    exact absurd rfl hc

/-- A branch on two stores that hold the same. -/
structure Reply.SameButOrder (hash hash' : Bytes → Nat) (v : StoreVerb) (r r' : Reply) : Prop where
  response : SamePairs r.response r'.response
  exact : v ≠ .hgetall → r'.response = r.response
  view : r'.store.view hash' = r.store.view hash
  record : r'.record = r.record
  reads : r'.reads = r.reads
  writes : r'.writes = r.writes

section Branch

variable {s s' : KeyValueStore} {tokens : List Bytes}

/-- The results of the calls are all that the answer depends on. -/
theorem run_same {v : StoreVerb} {p : Plan} {order order' : IterOrder} {now : Time}
    (hview : s'.view hash' = s.view hash)
    (hresults : (s.makeCalls hash order now p.calls).1 =
      (s'.makeCalls hash' order' now p.calls).1) :
    Reply.SameButOrder hash hash' v (p.run hash order now s) (p.run hash' order' now s') := by
  have hviews : SameOn Set.univ (s.view hash) (s'.view hash') := by
    rw [hview]
    exact SameOn.refl _ _
  have hresponse : (p.run hash' order' now s').response = (p.run hash order now s).response := by
    simp only [Plan.run, Answer.reply, hresults]
  refine ⟨?_, fun _ => hresponse, ?_, ?_, ?_, ?_⟩
  · rw [hresponse]
    exact .refl _
  · exact (makeCalls_sameOn hviews p.calls order order' now).eq.symm
  all_goals simp only [Plan.run, Answer.reply, hresults]

/-- **A branch does not depend on the hash function.** -/
theorem branch_same (h : Reachable hash s) (h' : Reachable hash' s')
    (hview : s'.view hash' = s.view hash) (v : StoreVerb) (tokens : List Bytes)
    (order order' : IterOrder) (now : Time) :
    Reply.SameButOrder hash hash' v (Command.run hash order now tokens s v)
      (Command.run hash' order' now tokens s' v) := by
  have hviews : SameOn Set.univ (s.view hash) (s'.view hash') := by
    rw [hview]
    exact SameOn.refl _ _
  by_cases hv : v = .hgetall
  · -- the one branch whose calls show an order
    subst hv
    simp only [Command.run, Command.hgetall]
    split
    · rename_i word key
      exact ⟨.pairs (hgetall_perm (hviews key trivial) order order'), fun hne => absurd rfl hne,
        hview, rfl, rfl, rfl⟩
    · exact ⟨.refl _, fun _ => rfl, hview, rfl, rfl, rfl⟩
  · rw [Command.run_eq_plan hash order, Command.run_eq_plan hash' order']
    refine run_same hview (makeCalls_same h.wellPlaced h'.wellPlaced hviews ?_ order order' now)
    intro c hc
    have hadmits := Command.admits_of_mem_calls v c hc
    exact ⟨within_univ hadmits.snapshot, hadmits.shows hv⟩

end Branch

theorem append_switches (aof : AofManager) (tokens : List Bytes) :
    ((aof.append tokens).enabled, (aof.append tokens).isOpen) = (aof.enabled, aof.isOpen) := by
  unfold AofManager.append
  split <;> rfl

/-- What is counted and logged. -/
theorem Paired.apply (h : Paired hash hash' db db') {v : StoreVerb} {r r' : Reply}
    (hr : Reply.SameButOrder hash hash' v r r') (hreach : Reachable hash r.store)
    (hreach' : Reachable hash' r'.store) : Paired hash hash' (db.apply r) (db'.apply r') := by
  refine ⟨hreach, hreach', hr.view, ?_, ?_⟩
  · simp only [Db.apply, h.metrics, hr.reads, hr.writes]
  · simp only [Db.apply, hr.record]
    cases r.record with
    | none => exact h.aof
    | some record =>
      simp only [Option.map_map, Function.comp_def, append_switches]
      exact h.aof

/-! ## 3. The dispatcher -/

section Dispatcher

variable {ctx ctx' : ServerCtx} {env env' : Env}

/-- Whether a rewrite succeeds, and whether it leaves the log open, is up to the files. -/
theorem rewriteTo_switches {aof aof' : AofManager}
    (hswitches : (aof'.enabled, aof'.isOpen) = (aof.enabled, aof.isOpen)) (io : RewriteIo)
    (image image' : Bytes) :
    (aof'.rewriteTo io image').1 = (aof.rewriteTo io image).1 ∧
      ((aof'.rewriteTo io image').2.enabled, (aof'.rewriteTo io image').2.isOpen) =
        ((aof.rewriteTo io image).2.enabled, (aof.rewriteTo io image).2.isOpen) := by
  obtain ⟨henabled, hopen⟩ := Prod.mk.inj hswitches
  unfold AofManager.rewriteTo
  rw [henabled]
  split
  · exact ⟨rfl, by rw [hopen, henabled]⟩
  · split
    · exact ⟨rfl, by rw [hopen, henabled]⟩
    · cases io.renames <;> cases io.renamesAgain <;> exact ⟨rfl, rfl⟩

theorem Paired.executeRewrite (h : Paired hash hash' db db') (hio : env'.io = env.io) :
    Outcome.Alike hash hash' shows (executeRewrite env db isAuthenticated)
      (executeRewrite env' db' isAuthenticated) := by
  have haof := h.aof
  unfold KeyValueDb.executeRewrite
  cases hlog : db.aof with
  | none =>
    rw [hlog, Option.map_none, Option.map_eq_none_iff] at haof
    rw [haof]
    exact h.answer _
  | some aof =>
    rw [hlog, Option.map_some] at haof
    obtain ⟨aof', hlog', hswitches⟩ := Option.map_eq_some_iff.mp haof
    obtain ⟨hresult, hleft⟩ := rewriteTo_switches hswitches env.io
      (rewriteImage (db.store.getSnapshot env.order env.now))
      (rewriteImage (db'.store.getSnapshot env'.order env'.now))
    simp only [hlog', AofManager.rewrite, hio, (Prod.mk.inj hswitches).1, hresult]
    split
    · exact h.answer _
    · have hpaired : Paired hash hash'
          { db with aof := some (aof.rewrite env.io env.order env.now db.store).2 }
          { db' with aof := some (aof'.rewrite env.io env'.order env'.now db'.store).2 } :=
        ⟨h.reachable, h.reachable', h.view, h.metrics, congrArg some hleft⟩
      exact hpaired.answer _

theorem Paired.executeInfo (h : Paired ctx.hash ctx'.hash db db')
    (hctx : ctx.SameSettings ctx') (hnow : env'.now = env.now) :
    Outcome.Alike ctx.hash ctx'.hash shows (executeInfo ctx env db isAuthenticated)
      (executeInfo ctx' env' db' isAuthenticated) := by
  have hsize : db'.store.size env.now = db.store.size env.now := by
    rw [h.reachable.wellPlaced.size_eq, h.reachable'.wellPlaced.size_eq, h.view]
  unfold KeyValueDb.executeInfo
  rw [hnow, h.metrics, hctx.port, hctx.threadCount, hsize]
  exact h.answer _

theorem Paired.executeAuth (h : Paired ctx.hash ctx'.hash db db') (hctx : ctx.SameSettings ctx')
    (args : List Bytes) :
    Outcome.Alike ctx.hash ctx'.hash shows (executeAuth ctx args db isAuthenticated)
      (executeAuth ctx' args db' isAuthenticated) := by
  unfold KeyValueDb.executeAuth
  rw [hctx.requirepass]
  split
  · split <;> exact h.answer _
  · exact h.answer _

theorem Paired.executeGated (h : Paired ctx.hash ctx'.hash db db') (hctx : ctx.SameSettings ctx')
    (word : Bytes) (args : List Bytes) :
    Outcome.Alike ctx.hash ctx'.hash shows (executeGated ctx word args db)
      (executeGated ctx' word args db') := by
  unfold KeyValueDb.executeGated
  rw [hctx.requirepass]
  split
  · split <;> exact h.answer _
  · exact ⟨.refl _, fun _ => rfl, rfl, rfl, h⟩
  · exact h.answer _

theorem Paired.executeOpen (h : Paired ctx.hash ctx'.hash db db') (hctx : ctx.SameSettings ctx')
    (hnow : env'.now = env.now) (hio : env'.io = env.io) (word : Bytes) (args : List Bytes)
    (hshows : Verb.ofWord (toUpper word) = some (.store .hgetall) → shows) :
    Outcome.Alike ctx.hash ctx'.hash shows (executeOpen ctx env word args db isAuthenticated)
      (executeOpen ctx' env' word args db' isAuthenticated) := by
  unfold KeyValueDb.executeOpen
  split
  · exact h.executeAuth hctx args
  · cases args <;> exact h.answer _
  · exact h.executeRewrite hio
  · exact h.executeInfo hctx hnow
  · exact ⟨.refl _, fun _ => rfl, rfl, rfl, h⟩
  · rename_i v hverb
    rw [hnow]
    have hbranch := branch_same h.reachable h.reachable' h.view v (word :: args) env.order
      env'.order env.now
    refine ⟨hbranch.response, fun hne => hbranch.exact ?_, rfl, rfl, ?_⟩
    · rintro rfl
      exact hne (hshows hverb)
    · exact h.apply hbranch (h.reachable.command _ _ _ _) (h.reachable'.command _ _ _ _)
  · exact h.answer _

/-- **One request.** -/
theorem Paired.execute (h : Paired ctx.hash ctx'.hash db db') (hctx : ctx.SameSettings ctx')
    {req req' : Request} (hreq : req.SameButOrder req') :
    Outcome.Alike ctx.hash ctx'.hash (∃ tokens, req.Asks ctx (.store .hgetall) tokens)
      (execute ctx req.env req.raw db req.isAuthenticated)
      (execute ctx' req'.env req'.raw db' req'.isAuthenticated) := by
  unfold KeyValueDb.execute
  rw [hreq.raw, hreq.isAuthenticated, hctx.requirepass]
  split
  · exact ⟨.refl _, fun _ => rfl, rfl, rfl, h⟩
  · rename_i word args hparse
    dsimp only
    split
    · exact h.onCommandProcessed.executeGated hctx word args
    · rename_i hgate
      have hadm : Admitted ctx req.isAuthenticated := by rwa [gated_iff, not_not] at hgate
      refine h.onCommandProcessed.executeOpen hctx hreq.now hreq.io word args fun hverb => ?_
      exact ⟨word :: args, hadm, by simp only [request?, hparse, hverb, Option.map_some]⟩

/-- **Without a compaction both servers log the same.** -/
theorem Paired.log (h : Paired ctx.hash ctx'.hash db db') (hctx : ctx.SameSettings ctx')
    {req req' : Request} (hreq : req.SameButOrder req') (hlog : db'.aof = db.aof)
    (hrewrite : ∀ tokens, ¬ req.Asks ctx .bgrewriteaof tokens) :
    (serve ctx' db' req').aof = (serve ctx db req).aof := by
  have hadm : Admitted ctx' req'.isAuthenticated ↔ Admitted ctx req.isAuthenticated := by
    rw [Admitted, hctx.requirepass, hreq.isAuthenticated, Admitted]
  cases execute_cases ctx req.env req.raw db req.isAuthenticated with
  | idle _ haof _ hidle =>
    cases execute_cases ctx' req'.env req'.raw db' req'.isAuthenticated with
    | idle _ haof' => exact haof'.trans (hlog.trans haof.symm)
    | rewrite hadm' hasks' =>
      rw [hreq.raw] at hasks'
      exact absurd ⟨hadm.mp hadm', hasks'⟩ (hrewrite _)
    | store hadm' hasks' =>
      rw [hreq.raw] at hasks'
      exact (hidle (hadm.mp hadm') _ _ hasks').elim
  | rewrite hadm' hasks' => exact absurd ⟨hadm', hasks'⟩ (hrewrite _)
  | store hadm₁ hasks _ _ haof =>
    cases execute_cases ctx' req'.env req'.raw db' req'.isAuthenticated with
    | idle _ _ _ hidle =>
      rw [hreq.raw] at hidle
      exact (hidle (hadm.mpr hadm₁) _ _ hasks).elim
    | rewrite hadm' hasks' =>
      rw [hreq.raw] at hasks'
      exact absurd ⟨hadm.mp hadm', hasks'⟩ (hrewrite _)
    | store _ hasks' _ _ haof' =>
      rw [hreq.raw, hasks, Option.some.injEq, Prod.mk.injEq] at hasks'
      obtain ⟨hv, rfl⟩ := hasks'
      obtain rfl := Verb.store.inj hv
      rw [hreq.now, hlog, (branch_same h.reachable h.reachable' h.view _ _ req.env.order
        req'.env.order req.env.now).record] at haof'
      exact haof'.trans haof.symm

/-! ## 4. Runs -/

/-- One request on both servers. -/
def serveBoth (ctx ctx' : ServerCtx) (st : Db × Db) (p : Request × Request) : Db × Db :=
  (serve ctx st.1 p.1, serve ctx' st.2 p.2)

/-- Both servers answer the request alike, leave its session alike and hold the same after it. -/
def AnswersAlike (ctx ctx' : ServerCtx) (st : Db × Db) (p : Request × Request) : Prop :=
  Outcome.Alike ctx.hash ctx'.hash (∃ tokens, p.1.Asks ctx (.store .hgetall) tokens)
    (execute ctx p.1.env p.1.raw st.1 p.1.isAuthenticated)
    (execute ctx' p.2.env p.2.raw st.2 p.2.isAuthenticated)

section Runs

variable {reqs : List (Request × Request)} {metrics : Metrics}

theorem always_paired (hctx : ctx.SameSettings ctx') (hreqs : ∀ p ∈ reqs, p.1.SameButOrder p.2)
    (aof : Option AofManager) (metrics : Metrics) :
    Always (serveBoth ctx ctx') (fun st => Paired ctx.hash ctx'.hash st.1 st.2) reqs
      (⟨.empty, aof, metrics⟩, ⟨.empty, aof, metrics⟩) :=
  always_of_steps (fun _ _ h hreq => (h.execute hctx hreq).db) (paired_empty _ _ _ _)
    (steps_of_forall hreqs _)

/-- **The hash function and the iteration orders do not show.**  In every run of two servers
from empty stores, each request gets the same reply from both, but for the order of the pairs
of an `HGETALL`, and what they hold, count and let in stays the same.  No pass of the janitor falls
between the requests. -/
theorem runs_alike (hctx : ctx.SameSettings ctx') (hreqs : ∀ p ∈ reqs, p.1.SameButOrder p.2)
    (aof : Option AofManager) (metrics : Metrics) :
    Steps (serveBoth ctx ctx') (AnswersAlike ctx ctx') reqs
      (⟨.empty, aof, metrics⟩, ⟨.empty, aof, metrics⟩) :=
  (always_paired hctx hreqs aof metrics).steps_of (fun _ _ h hreq => h.execute hctx hreq)
    (steps_of_forall hreqs _)

/-- All keys in one shard or spread by their length, the pairs of the hash met in one order or
in the other. -/
theorem runs_alike_hgetall :
    let ctx : ServerCtx := ⟨List.length, [], 8080, 4⟩
    let ctx' : ServerCtx := ⟨fun _ => 0, [], 8080, 4⟩
    let env : Env := ⟨0, .plain, .success⟩
    let env' : Env := ⟨0, ⟨List.reverse, fun es => es.reverse_perm⟩, .success⟩
    let texts := ["HSET h a 1\r\n", "HSET h b 2\r\n", "HGETALL h\r\n", "DBSIZE\r\n"]
    Steps (serveBoth ctx ctx') (AnswersAlike ctx ctx')
      (texts.map fun text => (⟨env, bytes text, true⟩, ⟨env', bytes text, true⟩))
      (.fresh ⟨0, 0, 0, 0, 0, 0, 0, 0⟩, .fresh ⟨0, 0, 0, 0, 0, 0, 0, 0⟩) := by
  intro ctx ctx' env env' texts
  have hctx : ctx.SameSettings ctx' := ⟨rfl, rfl, rfl⟩
  refine runs_alike hctx (fun p hp => ?_) _ _
  obtain ⟨text, -, rfl⟩ := List.mem_map.mp hp
  exact ⟨rfl, rfl, rfl, rfl⟩

/-- **...and neither do they show in the log**, until it is compacted or the janitor makes a
pass. -/
theorem logs_alike (hctx : ctx.SameSettings ctx') (hreqs : ∀ p ∈ reqs, p.1.SameButOrder p.2)
    (hrewrite : ∀ p ∈ reqs, ∀ tokens, ¬ p.1.Asks ctx .bgrewriteaof tokens)
    (aof : Option AofManager) (metrics : Metrics) :
    Always (serveBoth ctx ctx') (fun st => st.2.aof = st.1.aof) reqs
      (⟨.empty, aof, metrics⟩, ⟨.empty, aof, metrics⟩) := by
  have hrun : Always (serveBoth ctx ctx')
      (fun st => Paired ctx.hash ctx'.hash st.1 st.2 ∧ st.2.aof = st.1.aof) reqs
      (⟨.empty, aof, metrics⟩, ⟨.empty, aof, metrics⟩) := by
    refine always_of_steps (fun st p h hp => ?_) ⟨paired_empty _ _ _ _, rfl⟩
      ((steps_of_forall hreqs _).and (steps_of_forall hrewrite _))
    exact ⟨(h.1.execute hctx hp.1).db, h.1.log hctx hp.1 h.2 hp.2⟩
  exact hrun.mono fun _ h => h.2

/-- One request that is logged. -/
theorem logs_alike_set :
    let ctx : ServerCtx := ⟨List.length, [], 8080, 4⟩
    let ctx' : ServerCtx := ⟨fun _ => 0, [], 8080, 4⟩
    let req : Request := ⟨⟨0, .plain, .success⟩, bytes "SET k v\r\n", true⟩
    Always (serveBoth ctx ctx') (fun st => st.2.aof = st.1.aof) [(req, req)]
      (.fresh ⟨0, 0, 0, 0, 0, 0, 0, 0⟩, .fresh ⟨0, 0, 0, 0, 0, 0, 0, 0⟩) := by
  intro ctx ctx' req
  have hctx : ctx.SameSettings ctx' := ⟨rfl, rfl, rfl⟩
  refine logs_alike hctx (fun p hp => ?_) (fun p hp tokens hasks => ?_) _ _
  · obtain rfl := List.mem_singleton.mp hp
    exact ⟨rfl, rfl, rfl, rfl⟩
  · obtain rfl := List.mem_singleton.mp hp
    have hset : request? (bytes "SET k v\r\n") =
        some (.store .set, [bytes "SET", bytes "k", bytes "v"]) := by decide
    have hrequest := hset.symm.trans hasks.2
    simp at hrequest

end Runs

end Dispatcher

end KeyValueDb
