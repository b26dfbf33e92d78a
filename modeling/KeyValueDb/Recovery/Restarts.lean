/-
# Restarts do not show

Two servers get the same requests, and one of them is stopped between two of them and started
again on the files it left, as often as one likes.  As long as no command is dropped and none
gives a string a deadline, every start succeeds, both hold the same values and a client cannot
tell them apart, but by `INFO` and by the order of the pairs of an `HGETALL`
(`restarts_invisible`).

A run is one of requests and restarts.  An eviction by the janitor leaves no record, so the
server that is started again would have the key back.

The time of a restart is of no account either: the instants at which the records are replayed
show nowhere when there are no deadlines (`replay_sameUndated`).
-/
import KeyValueDb.Aof.Calls
import KeyValueDb.Command.Keys
import KeyValueDb.Config.Startup
import KeyValueDb.Recovery.Values
import KeyValueDb.Store.Stamps

namespace KeyValueDb

open Lib RespParser FlatStore

/-! ## 1. Commands that give a deadline -/

/-- The commands that can give a string a deadline. -/
def dating : List StoreVerb := [.set, .setex, .expire]

section Plans

variable {tokens : List Bytes} {v : StoreVerb}

theorem timeless_of_mem_calls (hv : v ∉ dating) :
    ∀ c ∈ (Command.plan tokens v).calls, c.timeless = true := by
  cases v
  case set | setex | expire => exact absurd (by decide) hv
  case mget =>
    simp only [Command.plan, Command.planMget]
    split
    · intro c hc
      obtain ⟨key, -, rfl⟩ := List.mem_map.mp hc
      rfl
    · exact fun c hc => absurd hc List.not_mem_nil
  case mset =>
    simp only [Command.plan, Command.planMset]
    split
    · split
      · exact fun c hc => absurd hc List.not_mem_nil
      · intro c hc
        obtain ⟨key, -, value, -, rfl⟩ := Command.mem_msetCalls hc
        rfl
    · exact fun c hc => absurd hc List.not_mem_nil
  case del =>
    simp only [Command.plan, Command.planDel]
    split
    · intro c hc
      obtain ⟨key, -, rfl⟩ := List.mem_map.mp hc
      rfl
    · exact fun c hc => absurd hc List.not_mem_nil
  case hset =>
    simp only [Command.plan, Command.planHset]
    split
    · exact Command.calls_single rfl
    · exact fun c hc => absurd hc List.not_mem_nil
  case lrange =>
    simp only [Command.plan, Command.planLrange]
    split
    · split
      · exact Command.calls_single rfl
      · exact fun c hc => absurd hc List.not_mem_nil
    · exact fun c hc => absurd hc List.not_mem_nil
  case get | hlen | hgetall | lpop | rpop | llen | «exists» | ttl | incr | decr =>
    exact Command.calls_planKey fun _ _ _ => Command.calls_single rfl
  case incrby => exact Command.calls_planNumber fun _ _ _ _ _ => Command.calls_single rfl
  case hget | hdel | hexists =>
    exact Command.calls_planField fun _ _ _ _ => Command.calls_single rfl
  case lpush | rpush => exact Command.calls_planPush fun _ _ _ _ _ _ => rfl
  case dbsize | flushdb => exact Command.calls_single rfl

/-- ...and these make one call at most. -/
theorem calls_of_dating (hv : v ∈ dating) : (Command.plan tokens v).calls.dropLast = [] := by
  simp only [dating, List.mem_cons, List.not_mem_nil, or_false] at hv
  rcases hv with rfl | rfl | rfl
  · simp only [Command.plan, Command.planSet]
    split
    · split <;> rfl
    · rfl
  · simp only [Command.plan, Command.planSetex]
    split
    · split <;> rfl
    · rfl
  · simp only [Command.plan, Command.planNumber, Command.planField]
    split
    · split <;> rfl
    · rfl

/-- No call but the last gives a deadline. -/
theorem timeless_dropLast (tokens : List Bytes) (v : StoreVerb) :
    ∀ c ∈ (Command.plan tokens v).calls.dropLast, c.timeless = true := by
  by_cases hv : v ∈ dating
  · rw [calls_of_dating hv]
    exact fun c hc => absurd hc List.not_mem_nil
  · exact fun c hc => timeless_of_mem_calls hv c (List.dropLast_subset _ hc)

end Plans

/-! ## 2. What is answered -/

/-- The same answer; `shows` says that it may have pairs in another order. -/
structure Outcome.SameAnswer (shows : Prop) (o o' : Outcome) : Prop where
  response : SamePairs o.result.response o'.result.response
  exact : ¬ shows → o'.result.response = o.result.response
  shouldClose : o'.result.shouldClose = o.result.shouldClose
  isAuthenticated : o'.isAuthenticated = o.isAuthenticated

/-- Two databases with the same values, no deadlines, and logs that are switched on alike. -/
structure SameValues (hash : Bytes → Nat) (live db : Db) : Prop where
  reachable : Reachable hash live.store
  reachable' : Reachable hash db.store
  view : SameUndated (live.store.view hash) (db.store.view hash)
  aof : db.aof.map (fun aof => (aof.enabled, aof.isOpen)) =
    live.aof.map fun aof => (aof.enabled, aof.isOpen)

section Answers

variable {ctx : ServerCtx} {hash : Bytes → Nat} {live db : Db} {shows : Prop}
  {isAuthenticated : Bool}

theorem sameAnswer_answer (response : Bytes) (live db : Db) (isAuthenticated : Bool) :
    Outcome.SameAnswer shows (answer response live isAuthenticated)
      (answer response db isAuthenticated) :=
  ⟨.refl _, fun _ => rfl, rfl, rfl⟩

/-- A branch on the store. -/
theorem SameValues.branch (h : SameValues hash live db) (v : StoreVerb) (tokens : List Bytes)
    (order order' : IterOrder) (now : Time) :
    SamePairs (Command.run hash order now tokens live.store v).response
        (Command.run hash order' now tokens db.store v).response ∧
      (v ≠ .hgetall → (Command.run hash order' now tokens db.store v).response =
        (Command.run hash order now tokens live.store v).response) := by
  by_cases hv : v = .hgetall
  · subst hv
    refine ⟨?_, fun hne => absurd rfl hne⟩
    simp only [Command.run, Command.hgetall]
    split
    · rename_i word key
      have hlists : Lists (live.store.hgetall hash order key)
          ((live.store.view hash).fieldsOf key) :=
        hgetall_lists live.store order key
      rw [← h.view.fieldsOf key] at hlists
      exact .pairs (hlists.perm (hgetall_lists db.store order' key))
    · exact .refl _
  · have hresults := SameUndated.results h.reachable.wellPlaced h.reachable'.wellPlaced h.view
      (fun c hc => (Command.admits_of_mem_calls v c hc).shows hv) (timeless_dropLast tokens v)
      order order' now now
    have hresponse : (Command.run hash order' now tokens db.store v).response =
        (Command.run hash order now tokens live.store v).response := by
      rw [Command.run_eq_plan hash order', Command.run_eq_plan hash order]
      simp only [Plan.run, Answer.reply, hresults]
    rw [hresponse]
    exact ⟨.refl _, fun _ => rfl⟩

theorem SameValues.executeRewrite (h : SameValues hash live db) {env env' : Env}
    (hio : env'.io = env.io) :
    Outcome.SameAnswer shows (executeRewrite env live isAuthenticated)
      (executeRewrite env' db isAuthenticated) := by
  have haof := h.aof
  unfold KeyValueDb.executeRewrite
  cases hlog : live.aof with
  | none =>
    rw [hlog, Option.map_none, Option.map_eq_none_iff] at haof
    rw [haof]
    exact sameAnswer_answer _ _ _ _
  | some aof =>
    rw [hlog, Option.map_some] at haof
    obtain ⟨aof', hlog', hswitches⟩ := Option.map_eq_some_iff.mp haof
    obtain ⟨hresult, -⟩ := rewriteTo_switches hswitches env.io
      (rewriteImage (live.store.getSnapshot env.order env.now))
      (rewriteImage (db.store.getSnapshot env'.order env'.now))
    simp only [hlog', AofManager.rewrite, hio, (Prod.mk.inj hswitches).1, hresult]
    split <;> exact sameAnswer_answer _ _ _ _

/-- **A request that does not ask for `INFO`**, whatever it asks for. -/
theorem SameValues.execute (h : SameValues ctx.hash live db) {req req' : Request}
    (hreq : req.SameButOrder req') (hinfo : ∀ tokens, ¬ req.Asks ctx .info tokens) :
    Outcome.SameAnswer (∃ tokens, req.Asks ctx (.store .hgetall) tokens)
      (execute ctx req.env req.raw live req.isAuthenticated)
      (execute ctx req'.env req'.raw db req'.isAuthenticated) := by
  unfold KeyValueDb.execute
  rw [hreq.raw, hreq.isAuthenticated]
  split
  · exact ⟨.refl _, fun _ => rfl, rfl, rfl⟩
  · rename_i word args hparse
    dsimp only
    have hcounted : SameValues ctx.hash
        { live with metrics := live.metrics.onCommandProcessed }
        { db with metrics := db.metrics.onCommandProcessed } :=
      ⟨h.reachable, h.reachable', h.view, h.aof⟩
    split
    · unfold executeGated
      split
      · split <;> exact sameAnswer_answer _ _ _ _
      · exact ⟨.refl _, fun _ => rfl, rfl, rfl⟩
      · exact sameAnswer_answer _ _ _ _
    · rename_i hgate
      rw [gated_iff, not_not] at hgate
      have hasks : ∀ {v : Verb}, Verb.ofWord (toUpper word) = some v →
          req.Asks ctx v (word :: args) := fun hverb =>
        ⟨hgate, by simp only [request?, hparse, hverb, Option.map_some]⟩
      unfold executeOpen
      split
      · unfold executeAuth
        split
        · split <;> exact sameAnswer_answer _ _ _ _
        · exact sameAnswer_answer _ _ _ _
      · cases args <;> exact sameAnswer_answer _ _ _ _
      · exact hcounted.executeRewrite hreq.io
      · rename_i hverb
        exact absurd (hasks hverb) (hinfo _)
      · exact ⟨.refl _, fun _ => rfl, rfl, rfl⟩
      · rename_i v hverb
        rw [hreq.now]
        obtain ⟨hresponse, hexact⟩ := hcounted.branch v (word :: args) req.env.order
          req'.env.order req.env.now
        refine ⟨hresponse, fun hno => hexact ?_, rfl, rfl⟩
        rintro rfl
        exact hno ⟨_, hasks hverb⟩
      · exact sameAnswer_answer _ _ _ _

end Answers

/-! ## 3. What is logged -/

section Records

variable {F G F' : FlatStore} {now : Time} {v : StoreVerb} {tokens record : List Bytes}

theorem FlatStore.SameButStamps.unexpired (h : SameUndated F G) (now : Time) : F.Unexpired now := by
  intro key e he
  rcases h.string key with ⟨hF, -⟩ | ⟨value, _, accessed, -, rfl, hF, -⟩
  · rw [hF] at he
    cases he
  · rw [hF, Option.some.injEq] at he
    subst he
    rfl

theorem FlatStore.SameButStamps.mirrors (h : SameUndated F G) (now : Time) : Mirrors now F G :=
  ⟨h.values, h.symm.unexpired now⟩

/-- Only a record of `EXPIRE` gives a deadline. -/
theorem timeless_recordCalls {word : Bytes} {args : List Bytes}
    (hword : Verb.ofWord word ≠ some (.store .expire)) :
    ∀ c ∈ recordCalls (word :: args), c.timeless = true := by
  unfold recordCalls
  split
  · exact fun c hc => absurd hc List.not_mem_nil
  · rename_i cmd args' heq
    obtain ⟨rfl, rfl⟩ := List.cons.inj heq
    split
    case h_3 hexpire => exact absurd hexpire hword
    case h_2 | h_6 | h_7 =>
      intro c hc
      obtain ⟨x, -, rfl⟩ := List.mem_map.mp hc
      rfl
    case h_9 => exact fun c hc => absurd hc List.not_mem_nil
    all_goals
      intro c hc
      rw [List.mem_singleton.mp hc]
      rfl

theorem ofWord_ne_expire {word : Bytes} {args : List Bytes} (h : Spells v (word :: args))
    (hv : v ≠ .expire) : Verb.ofWord word ≠ some (.store .expire) := by
  intro hexpire
  obtain rfl := Verb.word_of_ofWord hexpire
  have hword : Verb.ofWord (Verb.store .expire).word = some (.store v) := by
    rw [← Verb.toUpper_word (.store .expire)]
    exact h
  rw [Verb.ofWord_word, Option.some.injEq] at hword
  exact hv (Verb.store.inj hword).symm

/-- A command that gives no deadline has a record that gives none. -/
theorem Logged.timeless (h : Logged now F v tokens record F') (hword : Spells v tokens)
    (hcalls : ∀ c ∈ (Command.plan tokens v).calls, c.timeless = true) :
    ∀ c ∈ recordCalls record, c.timeless = true := by
  cases h with
  | expire w key hsec hok =>
    rename_i seconds sec
    have hcall : Call.expire key sec ∈ (Command.plan [w, key, seconds] .expire).calls := by
      simp [Command.plan, Command.planNumber, Command.planField, hsec, Plan.writeIf, Plan.single]
    exact absurd (hcalls _ hcall) (by simp [Call.timeless])
  | setex => exact timeless_recordCalls (by decide)
  | flushdb => exact timeless_recordCalls (by decide)
  | counter w hargs hok =>
    refine timeless_recordCalls (ofWord_ne_expire hword ?_)
    rcases counterArgs_eq_some hargs with rfl | rfl | rfl <;> simp
  | _ => exact timeless_recordCalls (ofWord_ne_expire hword (by simp))

theorem FlatStore.SameButStamps.foldCalls (h : SameUndated F G) {calls : List Call}
    (hcalls : ∀ c ∈ calls, c.timeless = true) (now now' : Time) :
    SameUndated (F.makeCalls now calls) (G.makeCalls now' calls) := by
  induction calls generalizing F G with
  | nil => exact h
  | cons c cs ih =>
    exact ih (h.call (Or.inr ⟨rfl, hcalls c List.mem_cons_self⟩)) fun d hd =>
      hcalls d (List.mem_cons_of_mem c hd)

/-- **The instants of a replay do not show.** -/
theorem replay_sameUndated {records : List (List Bytes)}
    (hrecords : ∀ r ∈ records, ∀ c ∈ recordCalls r, c.timeless = true) (h : SameUndated F G)
    (clock clock' : Nat → Time) (i i' : Nat) :
    SameUndated (F.replay clock i records) (G.replay clock' i' records) := by
  induction records generalizing F G i i' with
  | nil => exact h
  | cons r rs ih =>
    refine ih (fun r' hr' => hrecords r' (List.mem_cons_of_mem r hr')) ?_ (i + 1) (i' + 1)
    rw [dispatch_eq_makeCalls, dispatch_eq_makeCalls]
    exact h.foldCalls (hrecords r List.mem_cons_self) _ _

/-- What is dropped depends on the values. -/
theorem dropped_of_values (h : G.values = F.values) :
    G.Dropped v tokens → F.Dropped v tokens := by
  have hstring : ∀ key, (G.strings key).isSome = (F.strings key).isSome := fun key => by
    simpa [FlatStore.values] using
      congrArg Option.isSome (congrFun (congrArg Contents.strings h) key)
  unfold FlatStore.Dropped
  split
  case h_10 | h_11 | h_14 => exact id
  all_goals
    simp only [CounterMoves, h, hget_of_values h, elemsOf_of_values h, holds_of_values h, hstring]
    exact id

end Records

/-! ## 4. Requests that last -/

/-- The request is not dropped, gives no string a deadline, and its file operations succeed. -/
structure Request.Lasting (ctx : ServerCtx) (db : Db) (req : Request) : Prop where
  io : req.env.io = .success
  kept : Kept ctx db req
  timeless : ∀ c ∈ req.calls ctx, c.timeless = true

/-- Whenever the log is replayed, it gives back the values. -/
structure Restorable (hash : Bytes → Nat) (records : List (List Bytes)) (db : Db) : Prop where
  journal : Journal hash records db
  timeless : ∀ r ∈ records, ∀ c ∈ recordCalls r, c.timeless = true
  replays : ∀ clock, SameUndated (db.store.view hash) (FlatStore.empty.replay clock 0 records)

section Steps

variable {ctx : ServerCtx} {lim : Limits} {hash : Bytes → Nat} {live db : Db}
  {records : List (List Bytes)} {req : Request}

theorem restorable_fresh (hash : Bytes → Nat) (metrics : Metrics) :
    Restorable hash [] (.fresh metrics) where
  journal := journal_fresh hash metrics
  timeless _ h := absurd h List.not_mem_nil
  replays _ := sameButStamps_empty

/-- **A request.** -/
theorem Restorable.serve (h : Restorable ctx.hash records db) (hreq : req.Lasting ctx db) :
    ∃ records', Restorable ctx.hash records' (serve ctx db req) := by
  have hundated : SameUndated (db.store.view ctx.hash) (db.store.view ctx.hash) :=
    (h.replays fun _ => 0).left
  have hundated' : SameUndated ((KeyValueDb.serve ctx db req).store.view ctx.hash)
      ((KeyValueDb.serve ctx db req).store.view ctx.hash) := by
    rw [store_serve]
    exact SameUndated.makeCalls hundated hreq.timeless _ _ _ _
  obtain ⟨records', hjournal, hstep⟩ := h.journal.step hreq.io
  refine ⟨records', ?_⟩
  cases hstep with
  | quiet hvisible =>
    refine ⟨hjournal, h.timeless, fun clock => .of_values hundated' (h.replays clock).right ?_⟩
    rw [(h.replays clock).values]
    exact (values_of_visible hvisible (hundated'.unexpired _) (hundated.unexpired _)).symm
  | appended hasks hlogged =>
    rename_i v tokens record
    have hcalls := hlogged.timeless hasks.spells
      (by rw [← calls_of_asks hasks]; exact hreq.timeless)
    refine ⟨hjournal, List.forall_mem_append.mpr ⟨h.timeless, List.forall_mem_singleton.mpr hcalls⟩,
      fun clock => ?_⟩
    have hreplays := h.replays clock
    rw [FlatStore.replay_append]
    set G := FlatStore.empty.replay clock 0 records
    -- the record is replayed at another instant than that of the command
    have hmirrors := hlogged.mirrors hasks.spells (hundated.unexpired _) (hundated'.unexpired _)
      (hreplays.mirrors _) (hreq.kept _ _ hasks)
    have hinstants : SameUndated (G.dispatch req.env.now record)
        (G.replay clock (0 + records.length) [record]) := by
      simp only [FlatStore.replay, dispatch_eq_makeCalls]
      exact hreplays.right.foldCalls hcalls _ _
    exact .of_values hundated' hinstants.right (hinstants.values.trans hmirrors.values)
  | rewritten hasks hstore =>
    have htimeless : ∀ r ∈ snapshotRecords (db.store.getSnapshot req.env.order req.env.now),
        ∀ c ∈ recordCalls r, c.timeless = true := by
      intro r hr
      simp only [snapshotRecords, List.mem_append, List.mem_map, List.mem_flatMap] at hr
      rcases hr with (⟨entry, -, rfl⟩ | ⟨entry, -, pair, -, rfl⟩) | ⟨entry, -, rfl⟩ <;>
        exact timeless_recordCalls (by decide)
    refine ⟨hjournal, htimeless, fun clock => ?_⟩
    rw [hstore]
    exact .of_values hundated
      (replay_sameUndated htimeless sameButStamps_empty clock clock 0 0).left
      (mirrors_snapshot h.journal.reachable (hundated.unexpired _) _ clock).values

/-! ## 5. Restarts -/

/-- The process ends, and `main` starts it again on the files it left. -/
def Db.reboot (lim : Limits) (hash : Bytes → Nat) (clock : Nat → Time) (startTime : Time)
    (db : Db) : Option Db :=
  db.aof.bind fun aof => boot lim hash clock startTime true true aof.disk

/-- **A restart.** -/
theorem Restorable.reboot (h : Restorable hash records db) (hfits : db.Fits lim)
    (clock : Nat → Time) (startTime : Time) :
    ∃ again, db.reboot lim hash clock startTime = some again ∧ Restorable hash records again ∧
      SameUndated (db.store.view hash) (again.store.view hash) := by
  obtain ⟨tmp, hlog⟩ := h.journal.log
  have hholds := hfits records h.journal.nonempty (by rw [hlog]; rfl)
  set store := (replay hash clock 0 records (0, .empty)).2 with hstore
  have hview : store.view hash = FlatStore.empty.replay clock 0 records := by
    rw [hstore, view_replay, view_empty]
  have hload : (AofManager.construct true true ⟨some (encodeLog records), tmp⟩).loadIntoStore lim
      hash clock .empty = some (replay hash clock 0 records (0, .empty)) := by
    have hfile : (AofManager.construct true true ⟨some (encodeLog records), tmp⟩).disk.log =
        some (encodeLog records) := rfl
    rw [loadIntoStore_eq lim hash clock rfl hfile,
      readLog_encodeLog h.journal.nonempty hholds]
    rfl
  have hreach : Reachable hash store := Reachable.empty.loadIntoStore hload
  refine ⟨⟨store, some ⟨true, true, ⟨some (encodeLog records), tmp⟩⟩, .fresh startTime⟩, ?_,
    ⟨⟨hreach, h.journal.nonempty, tmp, rfl⟩, h.timeless, fun clock' => ?_⟩, ?_⟩
  · simp only [Db.reboot, hlog, Option.bind_some, boot, if_true, hload, Option.map_some]
    rfl
  · rw [hview]
    exact replay_sameUndated h.timeless sameButStamps_empty clock clock' 0 0
  · rw [hview]
    exact h.replays clock

/-- Two servers that start empty and get the same requests; the second one meets its maps in
orders of its own and is restarted now and then. -/
inductive Beside (ctx : ServerCtx) (lim : Limits) : Db → Db → Prop
  | fresh (metrics : Metrics) : Beside ctx lim (.fresh metrics) (.fresh metrics)
  | request {live db : Db} (h : Beside ctx lim live db) {req req' : Request}
      (hreq : req.SameButOrder req') (hlasting : req.Lasting ctx live) :
    Beside ctx lim (serve ctx live req) (serve ctx db req')
  | restart {live db again : Db} (h : Beside ctx lim live db) (hfits : db.Fits lim)
      (clock : Nat → Time) (startTime : Time)
      (hagain : db.reboot lim ctx.hash clock startTime = some again) :
    Beside ctx lim live again

/-- What is kept of two such servers. -/
structure Alongside (hash : Bytes → Nat) (live db : Db) : Prop where
  restorable : ∃ records, Restorable hash records live
  restorable' : ∃ records, Restorable hash records db
  view : SameUndated (live.store.view hash) (db.store.view hash)

theorem Alongside.sameValues (h : Alongside hash live db) : SameValues hash live db := by
  obtain ⟨records, hlive⟩ := h.restorable
  obtain ⟨records', hdb⟩ := h.restorable'
  refine ⟨hlive.journal.reachable, hdb.journal.reachable, h.view, ?_⟩
  obtain ⟨tmp, hlog⟩ := hlive.journal.log
  obtain ⟨tmp', hlog'⟩ := hdb.journal.log
  rw [hlog, hlog']
  rfl

/-- The same request lasts on either server. -/
theorem Request.Lasting.other {req req' : Request} (h : req.Lasting ctx live)
    (hreq : req.SameButOrder req')
    (hview : SameUndated (live.store.view ctx.hash) (db.store.view ctx.hash)) :
    req'.Lasting ctx db := by
  obtain ⟨env, raw, isAuthenticated⟩ := req
  obtain ⟨env', raw', isAuthenticated'⟩ := req'
  obtain ⟨rfl, rfl, -, hio⟩ := hreq
  exact ⟨hio.trans h.io, fun v tokens hasks hdropped =>
    h.kept v tokens hasks (dropped_of_values hview.values hdropped), h.timeless⟩

theorem Alongside.request (h : Alongside ctx.hash live db) {req req' : Request}
    (hreq : req.SameButOrder req') (hlasting : req.Lasting ctx live) :
    Alongside ctx.hash (serve ctx live req) (serve ctx db req') := by
  obtain ⟨records, hlive⟩ := h.restorable
  obtain ⟨records', hdb⟩ := h.restorable'
  have hlasting' := hlasting.other hreq h.view
  refine ⟨hlive.serve hlasting, hdb.serve hlasting', ?_⟩
  have hcalls : req'.calls ctx = req.calls ctx := by
    simp only [Request.calls, hreq.raw, hreq.isAuthenticated]
  rw [store_serve, store_serve, hcalls]
  exact h.view.makeCalls hlasting.timeless _ _ _ _

theorem alongside_of_beside (h : Beside ctx lim live db) : Alongside ctx.hash live db := by
  induction h with
  | fresh metrics =>
    exact ⟨⟨[], restorable_fresh _ _⟩, ⟨[], restorable_fresh _ _⟩, sameButStamps_empty⟩
  | request _ hreq hlasting ih => exact ih.request hreq hlasting
  | restart _ hfits clock startTime hagain ih =>
    obtain ⟨records, hdb⟩ := ih.restorable'
    obtain ⟨again, hreboot, hrestorable, hview⟩ := hdb.reboot hfits clock startTime
    obtain rfl := Option.some.inj (hreboot.symm.trans hagain)
    exact ⟨ih.restorable, ⟨records, hrestorable⟩, ih.view.trans hview⟩

/-- A client cannot tell the two servers apart, and the second one can be restarted at any time. -/
structure Unseen (ctx : ServerCtx) (lim : Limits) (live db : Db) : Prop where
  values : (db.store.view ctx.hash).values = (live.store.view ctx.hash).values
  answers : ∀ req req' : Request, req.SameButOrder req' → (∀ tokens, ¬ req.Asks ctx .info tokens) →
    Outcome.SameAnswer (∃ tokens, req.Asks ctx (.store .hgetall) tokens)
      (execute ctx req.env req.raw live req.isAuthenticated)
      (execute ctx req'.env req'.raw db req'.isAuthenticated)
  restarts : db.Fits lim → ∀ clock startTime, (db.reboot lim ctx.hash clock startTime).isSome

/-- **Restarts do not show.**  In every run of two servers of which one is restarted any number of
times, at any instants, as long as the requests last and no pass of the janitor falls between
them. -/
theorem restarts_invisible (h : Beside ctx lim live db) : Unseen ctx lim live db := by
  have hkept := alongside_of_beside h
  refine ⟨hkept.view.values, fun req req' hreq hinfo => hkept.sameValues.execute hreq hinfo, ?_⟩
  intro hfits clock startTime
  obtain ⟨records, hdb⟩ := hkept.restorable'
  obtain ⟨again, hreboot, -⟩ := hdb.reboot hfits clock startTime
  rw [hreboot]
  rfl

/-- A restart between a string and a list. -/
theorem restarts_invisible_rpush :
    let ctx : ServerCtx := ⟨List.length, [], 8080, 4⟩
    let lim : Limits := ⟨99, 99, by decide, by decide⟩
    let set : Request := ⟨⟨0, .plain, .success⟩, bytes "SET k v\r\n", true⟩
    let rpush : Request := ⟨⟨9, .plain, .success⟩, bytes "RPUSH l a b\r\n", true⟩
    let live := serve ctx (.fresh (.fresh 0)) set
    ∃ again, live.reboot lim ctx.hash (fun _ => 7) 7 = some again ∧
      Unseen ctx lim (serve ctx live rpush) (serve ctx again rpush) := by
  intro ctx lim set rpush live
  have hset : Beside ctx lim live live := .request (.fresh (.fresh 0)) ⟨rfl, rfl, rfl, rfl⟩
    ⟨rfl, kept_of_word (v := .set) rfl (by decide), by decide⟩
  obtain ⟨again, hagain⟩ : ∃ again, live.reboot lim ctx.hash (fun _ => 7) 7 = some again :=
    Option.isSome_iff_exists.mp (by decide)
  have hfits : live.Fits lim := fits_of_length (by decide) (by decide)
  refine ⟨again, hagain, restarts_invisible ?_⟩
  exact (hset.restart hfits _ _ hagain).request ⟨rfl, rfl, rfl, rfl⟩
    ⟨rfl, kept_of_word (v := .rpush) rfl (by decide), by decide⟩

end Steps

end KeyValueDb
