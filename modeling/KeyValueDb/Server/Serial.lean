/-
# The event loop is serial

However the bytes of the clients come in, the commands take effect one after the other: the
trace of a run is a timeline (`Timeline`), in which each call of `execute` works on what the
call before it left, of whichever client, and the `n`-th call takes `env n` from outside.

So a run does to the store and to the log what a sequence of calls of `execute` does, in the order
of the trace and each under the flag of its own connection, and every client gets the replies of
its calls (`serial`).  The one difference is that `INFO` counts connections.  The sequence is no
client: a `QUIT` ends one connection and an `AUTH` lets one in, and the calls of the others go on.
-/
import KeyValueDb.Command.Keys
import KeyValueDb.Server.Client

namespace KeyValueDb

open Lib RespParser

/-! ## 1. Timelines -/

/-- Calls of `execute` from the `n`-th on, each on the database that the one before it left. -/
inductive Follows (ctx : ServerCtx) (env : Nat → Env) :
    Nat → Db → List Execution → Nat → Db → Prop
  | nil (n : Nat) (db : Db) : Follows ctx env n db [] n db
  | cons (x : Execution) {n n' : Nat} (henv : x.env = env n) {xs : List Execution} {db' : Db}
      (rest : Follows ctx env (n + 1) (x.outcome ctx).db xs n' db') :
      Follows ctx env n x.db (x :: xs) n' db'

/-- What happened from the `n`-th call on, each event to the database that the one before it
left. -/
inductive Timeline (ctx : ServerCtx) (env : Nat → Env) :
    Nat → Db → List Event → Nat → Db → Prop
  | nil (n : Nat) (db : Db) : Timeline ctx env n db [] n db
  | accepted (fd : Fd) {n n' : Nat} {db db' : Db} {es : List Event}
      (rest : Timeline ctx env n { db with metrics := db.metrics.onClientConnected } es n' db') :
      Timeline ctx env n db (.accepted fd :: es) n' db'
  | closed (fd : Fd) {n n' : Nat} {db db' : Db} {es : List Event}
      (rest : Timeline ctx env n { db with metrics := db.metrics.onClientDisconnected } es
        n' db') :
      Timeline ctx env n db (.closed fd :: es) n' db'
  | read (fd : Fd) (chunk : Bytes) {n n' n'' : Nat} {db db' db'' : Db} {xs : List Execution}
      {es : List Event} (hfollows : Follows ctx env n db xs n' db')
      (rest : Timeline ctx env n' db' es n'' db'') :
      Timeline ctx env n db (.read fd chunk xs :: es) n'' db''

variable {ctx : ServerCtx} {env : Nat → Env} {n n' n'' : Nat} {db db' db'' : Db}

theorem Timeline.append {es fs : List Event} (h : Timeline ctx env n db es n' db')
    (h' : Timeline ctx env n' db' fs n'' db'') : Timeline ctx env n db (es ++ fs) n'' db'' := by
  induction h with
  | nil => exact h'
  | accepted fd _ ih => exact .accepted fd (ih h')
  | closed fd _ ih => exact .closed fd (ih h')
  | read fd chunk hfollows _ ih => exact .read fd chunk hfollows (ih h')

theorem Timeline.split {es fs : List Event} (h : Timeline ctx env n db (es ++ fs) n'' db'') :
    ∃ n' db', Timeline ctx env n db es n' db' ∧ Timeline ctx env n' db' fs n'' db'' := by
  induction es generalizing n db with
  | nil => exact ⟨n, db, .nil n db, h⟩
  | cons e es ih =>
    cases h with
    | accepted fd rest =>
      obtain ⟨n', db', hes, hfs⟩ := ih rest
      exact ⟨n', db', .accepted fd hes, hfs⟩
    | closed fd rest =>
      obtain ⟨n', db', hes, hfs⟩ := ih rest
      exact ⟨n', db', .closed fd hes, hfs⟩
    | read fd chunk hfollows rest =>
      obtain ⟨n', db', hes, hfs⟩ := ih rest
      exact ⟨n', db', .read fd chunk hfollows hes, hfs⟩

theorem Follows.split {xs ys : List Execution} (h : Follows ctx env n db (xs ++ ys) n'' db'') :
    ∃ n' db', Follows ctx env n db xs n' db' ∧ Follows ctx env n' db' ys n'' db'' := by
  induction xs generalizing n db with
  | nil => exact ⟨n, db, .nil n db, h⟩
  | cons x xs ih =>
    cases h with
    | cons _ henv rest =>
      obtain ⟨n', db', hxs, hys⟩ := ih rest
      exact ⟨n', db', .cons x henv hxs, hys⟩

/-- The handler, run over lines. -/
theorem follows_runUntil (ctx : ServerCtx) (env : Nat → Env) (lines : List Bytes) (s : Serving) :
    ∃ new, (runUntil (handle ctx env) lines s).1.executions = s.executions ++ new ∧
      Follows ctx env s.served s.db new (runUntil (handle ctx env) lines s).1.served
        (runUntil (handle ctx env) lines s).1.db := by
  induction lines generalizing s with
  | nil => exact ⟨[], by simp [runUntil], .nil _ _⟩
  | cons line lines ih =>
    set x : Execution := ⟨line, env s.served, s.db, s.isAuthenticated⟩
    have hhandle : handle ctx env s line =
        (⟨(x.outcome ctx).db, (x.outcome ctx).isAuthenticated, s.served + 1,
          s.executions ++ [x]⟩, x.closes ctx) := rfl
    simp only [runUntil, hhandle]
    split
    · exact ⟨[x], rfl, .cons x rfl (.nil _ _)⟩
    · obtain ⟨new, hnew, hfollows⟩ := ih ⟨(x.outcome ctx).db, (x.outcome ctx).isAuthenticated,
        s.served + 1, s.executions ++ [x]⟩
      refine ⟨x :: new, ?_, .cons x rfl hfollows⟩
      rw [hnew, List.append_assoc, List.singleton_append]

/-- A read. -/
theorem follows_onChunk (chunk : Bytes) (session : ClientSession) (db : Db) (served : Nat) :
    let r := onChunk ctx env chunk session db served
    Follows ctx env served db r.executions r.served r.db := by
  intro r
  obtain ⟨hserving, -, -⟩ := drainLines_eq lf (handle ctx env) (session.buffer ++ chunk).length
    (session.buffer ++ chunk) ⟨db, session.isAuthenticated, served, []⟩ (Nat.le_refl _)
  obtain ⟨new, hnew, hfollows⟩ := follows_runUntil ctx env
    (splitLines lf (session.buffer ++ chunk)).1 ⟨db, session.isAuthenticated, served, []⟩
  rw [List.nil_append, ← hserving] at hnew
  rw [← hserving, ← hnew] at hfollows
  exact hfollows

/-! ## 2. The trace is a timeline -/

/-- The trace of a server that started with `db` and called `execute` with what `env` gives. -/
def Timed (ctx : ServerCtx) (env : Nat → Env) (db : Db) (s : TcpServer) : Prop :=
  Timeline ctx env 0 db s.trace s.served s.db

section Timed

variable {s : TcpServer}

theorem Timed.acceptClient (h : Timed ctx env db s) (fd : Fd) :
    Timed ctx env db (s.acceptClient ctx fd) :=
  Timeline.append h (.accepted fd (.nil _ _))

theorem Timed.acceptClients (h : Timed ctx env db s) (round : Round) :
    Timed ctx env db (s.acceptClients ctx round) := by
  unfold TcpServer.acceptClients
  split
  · generalize round.accepted = fds
    induction fds generalizing s with
    | nil => exact h
    | cons fd fds ih => exact ih (h.acceptClient fd)
  · exact h

theorem Timed.disconnect (h : Timed ctx env db s) (fd : Fd) :
    Timed ctx env db (s.disconnect fd) :=
  Timeline.append h (.closed fd (.nil _ _))

theorem Timed.onReadable (h : Timed ctx env db s) (fd : Fd) (chunk : Bytes) :
    Timed ctx env db (s.onReadable ctx env fd chunk).1 := by
  set r := onChunk ctx env chunk (s.session fd) s.db s.served with hr
  have hread : Timed ctx env db
      { s with
        sessions := s.sessions.insert fd r.session
        db := r.db
        served := r.served
        trace := s.trace ++ [.read fd chunk r.executions] } :=
    Timeline.append h (.read fd chunk (follows_onChunk chunk (s.session fd) s.db s.served)
      (.nil _ _))
  unfold TcpServer.onReadable
  rw [← hr]
  dsimp only
  split
  · exact hread.disconnect fd
  · exact hread

theorem Timed.serveClient (h : Timed ctx env db s) (round : Round) (p : PollFd) :
    Timed ctx env db (s.serveClient ctx env round p).1 := by
  unfold TcpServer.serveClient
  split
  · exact h.disconnect p.fd
  · split
    · split
      · exact h.disconnect p.fd
      · exact h.onReadable p.fd (round.recv p.fd)
    · exact h

theorem Timed.sweep (h : Timed ctx env db s) (round : Round) (kept todo : List PollFd) :
    Timed ctx env db (TcpServer.sweep ctx env round kept todo s) := by
  induction todo generalizing kept s with
  | nil => exact h
  | cons p todo ih =>
    simp only [TcpServer.sweep]
    split
    · exact ih (h.serveClient round p) kept
    · exact ih (h.serveClient round p) (kept ++ [p])

/-- **One turn of the event loop.** -/
theorem Timed.turn (h : Timed ctx env db s) (round : Round) :
    Timed ctx env db (s.turn ctx env round) := by
  have hpoll : Timed ctx env db (s.poll round) := h
  rw [TcpServer.turn_eq_sweep]
  exact (hpoll.acceptClients round).sweep round _ _

end Timed

/-- **Every run of the event loop.** -/
theorem timed_run (ctx : ServerCtx) (env : Nat → Env) (rounds : List Round) (db : Db) :
    Always (TcpServer.turn ctx env) (Timed ctx env db) rounds (.start db) :=
  always_of_steps (fun _ round h (_ : True) => h.turn round) (Timeline.nil 0 db)
    (steps_of_forall (C := fun _ => True) (fun _ _ => trivial) _)

/-! ## 3. The counters of connections -/

/-- The database without the two counters of connections. -/
def Db.withoutClients (db : Db) : Db :=
  { db with metrics := { db.metrics with totalConnections := 0, activeConnections := 0 } }

/-- What a call is with and without these counters. -/
structure Outcome.SameButInfo (info : Prop) (o o' : Outcome) : Prop where
  db : o'.db.withoutClients = o.db.withoutClients
  isAuthenticated : o'.isAuthenticated = o.isAuthenticated
  shouldClose : o'.result.shouldClose = o.result.shouldClose
  response : ¬ info → o'.result.response = o.result.response

section Counters

variable {env : Env} {word : Bytes} {args : List Bytes} {isAuthenticated : Bool} {info : Prop}

theorem withoutClients_eq_iff :
    db'.withoutClients = db.withoutClients ↔
      ∃ total active, db' = { db with
        metrics :=
          { db.metrics with totalConnections := total, activeConnections := active } } := by
  constructor
  · intro h
    refine ⟨db'.metrics.totalConnections, db'.metrics.activeConnections, ?_⟩
    obtain ⟨store, aof, metrics⟩ := db
    obtain ⟨store', aof', metrics'⟩ := db'
    simp only [Db.withoutClients, Db.mk.injEq, Metrics.mk.injEq, true_and] at h
    obtain ⟨rfl, rfl, hstart, hcommands, hreads, hwrites, hexpired, hevicted⟩ := h
    simp only [← hstart, ← hcommands, ← hreads, ← hwrites, ← hexpired, ← hevicted]
  · rintro ⟨total, active, rfl⟩
    rfl

theorem SameButInfo.answer (h : db'.withoutClients = db.withoutClients) {response response' : Bytes}
    (hresponse : ¬ info → response' = response) (isAuthenticated : Bool) :
    Outcome.SameButInfo info (answer response db isAuthenticated)
      (answer response' db' isAuthenticated) :=
  ⟨h, rfl, rfl, hresponse⟩

theorem SameButInfo.executeGated (h : db'.withoutClients = db.withoutClients) :
    Outcome.SameButInfo info (executeGated ctx word args db) (executeGated ctx word args db') := by
  unfold KeyValueDb.executeGated
  split
  · split <;> exact SameButInfo.answer h (fun _ => rfl) _
  · exact ⟨h, rfl, rfl, fun _ => rfl⟩
  · exact SameButInfo.answer h (fun _ => rfl) _

theorem SameButInfo.executeAuth (h : db'.withoutClients = db.withoutClients) :
    Outcome.SameButInfo info (executeAuth ctx args db isAuthenticated)
      (executeAuth ctx args db' isAuthenticated) := by
  unfold KeyValueDb.executeAuth
  split
  · split <;> exact SameButInfo.answer h (fun _ => rfl) _
  · exact SameButInfo.answer h (fun _ => rfl) _

theorem SameButInfo.executeRewrite (h : db'.withoutClients = db.withoutClients) :
    Outcome.SameButInfo info (executeRewrite env db isAuthenticated)
      (executeRewrite env db' isAuthenticated) := by
  obtain ⟨total, active, rfl⟩ := withoutClients_eq_iff.mp h
  unfold KeyValueDb.executeRewrite
  dsimp only
  split
  · exact SameButInfo.answer h (fun _ => rfl) _
  · split
    · exact SameButInfo.answer h (fun _ => rfl) _
    · exact SameButInfo.answer (withoutClients_eq_iff.mpr ⟨total, active, rfl⟩) (fun _ => rfl) _

theorem SameButInfo.executeOpen (h : db'.withoutClients = db.withoutClients)
    (hinfo : Verb.ofWord (toUpper word) = some .info → info) :
    Outcome.SameButInfo info (executeOpen ctx env word args db isAuthenticated)
      (executeOpen ctx env word args db' isAuthenticated) := by
  unfold KeyValueDb.executeOpen
  split
  · exact SameButInfo.executeAuth h
  · cases args <;> exact SameButInfo.answer h (fun _ => rfl) _
  · exact SameButInfo.executeRewrite h
  · rename_i hverb
    exact SameButInfo.answer h (fun hno => absurd (hinfo hverb) hno) _
  · exact ⟨h, rfl, rfl, fun _ => rfl⟩
  · obtain ⟨total, active, rfl⟩ := withoutClients_eq_iff.mp h
    exact SameButInfo.answer (withoutClients_eq_iff.mpr ⟨total, active, rfl⟩) (fun _ => rfl) _
  · exact SameButInfo.answer h (fun _ => rfl) _

/-- **Nothing but `INFO` reads them.** -/
theorem execute_withoutClients (ctx : ServerCtx) (h : db'.withoutClients = db.withoutClients)
    (req : Request) :
    Outcome.SameButInfo (∃ tokens, req.Asks ctx .info tokens)
      (execute ctx req.env req.raw db req.isAuthenticated)
      (execute ctx req.env req.raw db' req.isAuthenticated) := by
  unfold execute
  split
  · exact ⟨h, rfl, rfl, fun _ => rfl⟩
  · rename_i word args hparse
    have hcounted : { db' with metrics := db'.metrics.onCommandProcessed }.withoutClients =
        { db with metrics := db.metrics.onCommandProcessed }.withoutClients := by
      obtain ⟨total, active, rfl⟩ := withoutClients_eq_iff.mp h
      rfl
    dsimp only
    split
    · exact SameButInfo.executeGated hcounted
    · rename_i hgate
      refine SameButInfo.executeOpen hcounted fun hverb => ⟨word :: args, ?_, ?_⟩
      · rwa [gated_iff, not_not] at hgate
      · simp only [request?, hparse, hverb, Option.map_some]

end Counters

/-! ## 4. One client that sends it all -/

def Execution.request (x : Execution) : Request := ⟨x.env, x.line, x.isAuthenticated⟩

def Event.executions : Event → List Execution
  | .read _ _ executions => executions
  | _ => []

/-- All that was executed, in order. -/
def TcpServer.executions (s : TcpServer) : List Execution := s.trace.flatMap Event.executions

/-- The request of the execution, with the reply it got; the one to `INFO` may be another. -/
def RepliedAlike (ctx : ServerCtx) (x : Execution) (y : Request × Bytes) : Prop :=
  y.1 = x.request ∧
    ((∀ tokens, ¬ x.request.Asks ctx .info tokens) → y.2 = x.response ctx)

/-- The executions of a run from `db` to `db'`, beside one run of their requests from `d`. -/
structure RunsAlike (ctx : ServerCtx) (d : Db) (xs : List Execution) (db' : Db) : Prop where
  replies : List.Forall₂ (RepliedAlike ctx) xs (transcript ctx (xs.map Execution.request) d)
  db : ((xs.map Execution.request).foldl (serve ctx) d).withoutClients = db'.withoutClients

theorem transcript_append (reqs reqs' : List Request) (db : Db) :
    transcript ctx (reqs ++ reqs') db =
      transcript ctx reqs db ++ transcript ctx reqs' (reqs.foldl (serve ctx) db) := by
  induction reqs generalizing db with
  | nil => rfl
  | cons req reqs ih => simp only [List.cons_append, transcript, List.foldl_cons, ih]

theorem RunsAlike.append {d : Db} {xs ys : List Execution} (h : RunsAlike ctx d xs db')
    (h' : RunsAlike ctx ((xs.map Execution.request).foldl (serve ctx) d) ys db'') :
    RunsAlike ctx d (xs ++ ys) db'' := by
  constructor
  · rw [List.map_append, transcript_append]
    exact List.rel_append h.replies h'.replies
  · rw [List.map_append, List.foldl_append]
    exact h'.db

theorem Follows.runsAlike {xs : List Execution} (h : Follows ctx env n db xs n' db') {d : Db}
    (hd : d.withoutClients = db.withoutClients) : RunsAlike ctx d xs db' := by
  induction h generalizing d with
  | nil => exact ⟨.nil, hd⟩
  | cons x henv _ ih =>
    obtain ⟨hdb, -, -, hresponse⟩ := execute_withoutClients ctx hd x.request
    obtain ⟨hreplies, hlast⟩ := ih hdb
    refine ⟨.cons ⟨rfl, fun hinfo => ?_⟩ hreplies, hlast⟩
    exact hresponse fun ⟨tokens, h⟩ => hinfo tokens h

theorem Timeline.runsAlike {es : List Event} (h : Timeline ctx env n db es n' db') {d : Db}
    (hd : d.withoutClients = db.withoutClients) :
    RunsAlike ctx d (es.flatMap Event.executions) db' := by
  induction h generalizing d with
  | nil => exact ⟨.nil, hd⟩
  | accepted fd _ ih => exact ih hd
  | closed fd _ ih => exact ih hd
  | read fd chunk hfollows _ ih =>
    have hread := hfollows.runsAlike hd
    exact hread.append (ih hread.db)

/-- The calls are numbered one after the other. -/
theorem Follows.calls {xs : List Execution} (h : Follows ctx env n db xs n' db') :
    n' = n + xs.length ∧ xs.map Execution.env = (List.range' n xs.length).map env := by
  induction h with
  | nil => exact ⟨rfl, rfl⟩
  | cons x henv _ ih =>
    obtain ⟨hn, hcalls⟩ := ih
    refine ⟨by rw [hn, List.length_cons]; omega, ?_⟩
    rw [List.map_cons, List.length_cons, List.range'_succ, List.map_cons, henv, hcalls]

theorem Timeline.calls {es : List Event} (h : Timeline ctx env n db es n' db') :
    let xs := es.flatMap Event.executions
    n' = n + xs.length ∧ xs.map Execution.env = (List.range' n xs.length).map env := by
  induction h with
  | nil => exact ⟨rfl, rfl⟩
  | accepted fd _ ih => exact ih
  | closed fd _ ih => exact ih
  | read fd chunk hfollows _ ih =>
    obtain ⟨hn, hcalls⟩ := hfollows.calls
    obtain ⟨hn', hcalls'⟩ := ih
    subst hn
    simp only [List.flatMap_cons, Event.executions, List.length_append, List.map_append]
    refine ⟨by rw [hn']; omega, ?_⟩
    rw [hcalls, hcalls', ← List.range'_append_1, List.map_append]

/-- What was executed for a connection was executed in this order. -/
theorem executed_sublist (es : List Event) :
    ∀ c ∈ es.foldl record [], c.executed.Sublist (es.flatMap Event.executions) := by
  induction es using List.reverseRecOn with
  | nil => exact fun c h => absurd h List.not_mem_nil
  | append_singleton es e ih =>
    intro c hc
    rw [List.foldl_append, List.foldl_cons, List.foldl_nil] at hc
    rw [List.flatMap_append, List.flatMap_singleton]
    cases e with
    | accepted fd =>
      rcases List.mem_cons.mp hc with rfl | hc
      · exact List.nil_sublist _
      · exact (ih c hc).trans (List.sublist_append_left _ _)
    | closed fd =>
      rcases mem_updateNewest hc with hc | ⟨d, hd, rfl⟩
      · exact (ih c hc).trans (List.sublist_append_left _ _)
      · exact (ih d (List.mem_of_find?_eq_some hd)).trans (List.sublist_append_left _ _)
    | read fd chunk executions =>
      rcases mem_updateNewest hc with hc | ⟨d, hd, rfl⟩
      · exact (ih c hc).trans (List.sublist_append_left _ _)
      · exact (ih d (List.mem_of_find?_eq_some hd)).append (List.Sublist.refl _)

/-- What a state of the server owes to a sequence of calls of `execute` that starts with `db`, in
the order in which they were executed and each under the flag of its own connection: the same
replies but to `INFO`, the same store, log and counters but those of connections.  The order is
that of each connection, and the `n`-th call got `env n`. -/
structure Serial (ctx : ServerCtx) (env : Nat → Env) (db : Db) (s : TcpServer) : Prop where
  runsAlike : RunsAlike ctx db s.executions s.db
  calls : s.executions.map Execution.env = (List.range s.served).map env
  order : ∀ c ∈ s.connections, c.executed.Sublist s.executions

/-- **The event loop is serial**, in every state of every run, for any number of clients: it makes
one call of `execute` after the other. -/
theorem serial (ctx : ServerCtx) (env : Nat → Env) (rounds : List Round) (db : Db) :
    Always (TcpServer.turn ctx env) (Serial ctx env db) rounds (.start db) := by
  apply (timed_run ctx env rounds db).mono
  intro s h
  obtain ⟨hserved, hcalls⟩ := h.calls
  refine ⟨h.runsAlike rfl, ?_, executed_sublist s.trace⟩
  rw [hserved, Nat.zero_add, List.range_eq_range']
  exact hcalls

end KeyValueDb
