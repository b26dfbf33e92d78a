/-
# The service

What the server is for its clients: one flat store, commands that are served one after the
other, each of them by its calls on that store, and for every client whether it has given the
password (`Answers`).  There is no hash function in it and no shard, no order of iteration, no
chunk and no buffer, no log and no counter.

A call of `execute` is a step of the service (`execute_answers`), and a run of the event loop is a
run of it (`server_refines_service`): the lines of a connection are the commands of one client, up
to the first `QUIT`, and the responses it gets are the replies of the service.
-/
import KeyValueDb.Lib.Linearize
import KeyValueDb.Server.Descriptors

namespace KeyValueDb

open Lib RespParser

/-! ## 1. The service -/

/-- A command: when it is served, and whether its client has given the password. -/
structure ServiceCall where
  now : Time
  tokens : List Bytes
  isAuthenticated : Bool

/-- The reply, and whether the client has given the password now. -/
structure ServiceReply where
  response : Bytes
  isAuthenticated : Bool

namespace Service

/-- The reply to a command word and its arguments, if it is not about the data: to `AUTH`, `QUIT`
and `PING`, to unknown words, and to everything else while the password is not given. -/
def talk (requirepass : Bytes) (isAuthenticated : Bool) (word : Bytes) (args : List Bytes) :
    Option Verb → Option ServiceReply
  | some .quit => some ⟨ok, isAuthenticated⟩
  | some .auth =>
    if (requirepass = [] ∨ isAuthenticated = true) ∧ args.length ≠ 1 then
      some ⟨serializeError (bytes "wrong number of arguments for 'auth' command"),
        isAuthenticated⟩
    else if requirepass = [] ∨ args = [requirepass] then some ⟨ok, true⟩
    else some ⟨serializeError (bytes "invalid password"), isAuthenticated⟩
  | verb =>
    if requirepass = [] ∨ isAuthenticated = true then
      match verb with
      | none =>
        some ⟨serializeError (bytes "unknown command '" ++ word ++ bytes "'"), isAuthenticated⟩
      | some .ping =>
        some ⟨(args.head?.map serializeBulkString).getD (serializeSimpleString (bytes "PONG")),
          isAuthenticated⟩
      | _ => none
    else some ⟨bytes "-NOAUTH Authentication required.\r\n", isAuthenticated⟩

/-- ...and to a blank line. -/
def converse (requirepass : Bytes) (isAuthenticated : Bool) : List Bytes → Option ServiceReply
  | [] => some ⟨[], isAuthenticated⟩
  | word :: args => talk requirepass isAuthenticated word args (Verb.ofWord (toUpper word))

def verb? (c : ServiceCall) : Option Verb :=
  c.tokens.head?.bind fun word => Verb.ofWord (toUpper word)

/-- What a compaction can be answered with. -/
def compactionReplies : List Bytes :=
  [serializeSimpleString (bytes "Background append only file rewriting finished successfully"),
    serializeError (bytes "rewriting failed"), serializeError (bytes "AOF is not enabled")]

/-- The results that calls made one after the other have, and the store they leave. -/
inductive Gives (now : Time) : FlatStore → List Call → List CallResult → FlatStore → Prop
  | nil (F : FlatStore) : Gives now F [] [] F
  | cons {F G : FlatStore} {c : Call} {cs : List Call} {result : CallResult}
      {results : List CallResult} (h : result.Agrees (F.call now c).1)
      (rest : Gives now (F.call now c).2 cs results G) :
    Gives now F (c :: cs) (result :: results) G

/-- **The service.**  What a report says, and how a compaction ends, is left open. -/
inductive Answers (requirepass : Bytes) :
    FlatStore → ServiceCall → ServiceReply → FlatStore → Prop
  | conversed {F : FlatStore} {c : ServiceCall} {reply : ServiceReply}
      (h : converse requirepass c.isAuthenticated c.tokens = some reply) :
    Answers requirepass F c reply F
  | reported {F : FlatStore} {c : ServiceCall}
      (h : converse requirepass c.isAuthenticated c.tokens = none)
      (hverb : verb? c = some .info) (text : Bytes) :
    Answers requirepass F c ⟨serializeBulkString text, c.isAuthenticated⟩ F
  | compacted {F : FlatStore} {c : ServiceCall}
      (h : converse requirepass c.isAuthenticated c.tokens = none)
      (hverb : verb? c = some .bgrewriteaof) {response : Bytes}
      (hresponse : response ∈ compactionReplies) :
    Answers requirepass F c ⟨response, c.isAuthenticated⟩ F
  | served {F G : FlatStore} {c : ServiceCall} {v : StoreVerb} {results : List CallResult}
      (h : converse requirepass c.isAuthenticated c.tokens = none)
      (hverb : verb? c = some (.store v))
      (hgives : Gives c.now F (Command.plan c.tokens v).calls results G) :
    Answers requirepass F c
      ⟨((Command.plan c.tokens v).answer results).response, c.isAuthenticated⟩ G

end Service

open Service

variable {ctx : ServerCtx} {env : Nat → Env} {db db' : Db} {isAuthenticated : Bool}

/-! ## 2. A call of execute -/

theorem WellPlaced.gives {hash : Bytes → Nat} {s : KeyValueStore} (h : WellPlaced hash s)
    (order : IterOrder) (now : Time) (calls : List Call) :
    Gives now (s.view hash) calls (s.makeCalls hash order now calls).1
      ((s.makeCalls hash order now calls).2.view hash) := by
  induction calls generalizing s with
  | nil => exact .nil _
  | cons c cs ih =>
    obtain ⟨hresult, hview⟩ := h.call_refines order now c
    refine .cons hresult ?_
    rw [← hview]
    exact ih (h.call order now c)

section Talk

variable {word : Bytes} {args : List Bytes}

/-- What an outcome is for the service. -/
def Outcome.reply (o : Outcome) : ServiceReply := ⟨o.result.response, o.isAuthenticated⟩

/-- Before the password is given. -/
theorem converse_gated (h : ¬ Admitted ctx isAuthenticated) (db : Db) :
    converse ctx.requirepass isAuthenticated (word :: args) =
      some (executeGated ctx word args db).reply := by
  have hclosed : ¬ (ctx.requirepass = [] ∨ isAuthenticated = true) := h
  obtain ⟨hpass, rfl⟩ := gated_iff.mpr h
  cases hverb : Verb.ofWord (toUpper word) with
  | none => simp only [converse, executeGated, hverb, talk, hclosed, if_false]; rfl
  | some verb =>
    cases verb with
    | auth =>
      have hnot : ¬ ((ctx.requirepass = [] ∨ false = true) ∧ args.length ≠ 1) := fun h =>
        hclosed h.1
      simp only [converse, executeGated, hverb, talk]
      rw [if_neg hnot]
      by_cases hargs : args = [ctx.requirepass]
      · rw [if_pos (Or.inr hargs), if_pos hargs]
        rfl
      · rw [if_neg (not_or.mpr ⟨hpass, hargs⟩), if_neg hargs]
        rfl
    | quit => simp only [converse, executeGated, hverb, talk]; rfl
    | _ => simp only [converse, executeGated, hverb, talk, hclosed, if_false]; rfl

/-- The password, once it is given or if none is wanted. -/
theorem talk_auth (h : Admitted ctx isAuthenticated) (word : Bytes) (args : List Bytes) (db : Db) :
    talk ctx.requirepass isAuthenticated word args (some .auth) =
      some (executeAuth ctx args db isAuthenticated).reply := by
  have hopen : ctx.requirepass = [] ∨ isAuthenticated = true := h
  unfold executeAuth
  simp only [talk, hopen, true_and]
  rcases args with _ | ⟨password, _ | ⟨arg, rest⟩⟩
  · rfl
  · simp only [List.length_singleton, ne_eq, not_true_eq_false, if_false, List.cons.injEq, and_true]
    split <;> rfl
  · rw [if_pos (by simp)]
    rfl

end Talk

theorem executeRewrite_reply (env : Env) (db : Db) (isAuthenticated : Bool) :
    (executeRewrite env db isAuthenticated).result.response ∈ compactionReplies ∧
      (executeRewrite env db isAuthenticated).isAuthenticated = isAuthenticated ∧
      (executeRewrite env db isAuthenticated).db.store = db.store := by
  unfold executeRewrite
  split
  · exact ⟨by simp [compactionReplies, answer], rfl, rfl⟩
  · split
    · exact ⟨by simp [compactionReplies, answer], rfl, rfl⟩
    · refine ⟨?_, rfl, rfl⟩
      dsimp only [answer]
      split <;> simp [compactionReplies]

/-- A branch on the store. -/
theorem run_gives {s : KeyValueStore} {hash : Bytes → Nat} (h : WellPlaced hash s)
    (order : IterOrder) (now : Time) (tokens : List Bytes) (v : StoreVerb) :
    ∃ results, Gives now (s.view hash) (Command.plan tokens v).calls results
        ((Command.run hash order now tokens s v).store.view hash) ∧
      (Command.run hash order now tokens s v).response =
        ((Command.plan tokens v).answer results).response := by
  rw [Command.run_eq_plan]
  exact ⟨_, h.gives order now _, rfl⟩

/-- Past the password. -/
theorem executeOpen_answers (h : WellPlaced ctx.hash db.store)
    (hadm : Admitted ctx isAuthenticated) (env : Env) (word : Bytes) (args : List Bytes) :
    Answers ctx.requirepass (db.store.view ctx.hash) ⟨env.now, word :: args, isAuthenticated⟩
      (executeOpen ctx env word args db isAuthenticated).reply
      ((executeOpen ctx env word args db isAuthenticated).db.store.view ctx.hash) := by
  have hopen : ctx.requirepass = [] ∨ isAuthenticated = true := hadm
  -- whatever its verb is, this is the command
  have hcommand : ∀ verb, Verb.ofWord (toUpper word) = some verb →
      verb? ⟨env.now, word :: args, isAuthenticated⟩ = some verb := fun _ hverb => hverb
  unfold executeOpen
  cases hverb : Verb.ofWord (toUpper word) with
  | none => exact .conversed (by simp [converse, hverb, talk, hopen, Outcome.reply, answer])
  | some verb =>
    cases verb with
    | auth =>
      simp only [(db_executeAuth ctx args db isAuthenticated).1]
      refine .conversed ?_
      simp only [converse, hverb]
      exact talk_auth hadm word args db
    | ping =>
      have hping : converse ctx.requirepass isAuthenticated (word :: args) =
          some (executePing args db isAuthenticated).reply := by
        simp only [converse, hverb, talk, if_pos hopen]
        cases args <;> rfl
      cases args <;> exact .conversed hping
    | quit => exact .conversed (by simp only [converse, hverb, talk]; rfl)
    | bgrewriteaof =>
      obtain ⟨hresponse, hflag, hstore⟩ := executeRewrite_reply env db isAuthenticated
      have hreply : (executeRewrite env db isAuthenticated).reply =
          ⟨(executeRewrite env db isAuthenticated).result.response, isAuthenticated⟩ := by
        rw [Outcome.reply, hflag]
      simp only [hstore, hreply]
      exact .compacted (by simp only [converse, hverb, talk, if_pos hopen]) (hcommand _ hverb)
        hresponse
    | info =>
      exact .reported (by simp only [converse, hverb, talk, if_pos hopen]) (hcommand _ hverb) _
    | store v =>
      obtain ⟨results, hgives, hresponse⟩ := run_gives h env.order env.now (word :: args) v
      have hnone : converse ctx.requirepass isAuthenticated (word :: args) = none := by
        simp only [converse, hverb, talk, if_pos hopen]
      have hserved := Answers.served (c := ⟨env.now, word :: args, isAuthenticated⟩) hnone
        (hcommand _ hverb) hgives
      rw [← hresponse] at hserved
      exact hserved

/-- **A call of execute** is a step of the service. -/
theorem execute_answers (h : WellPlaced ctx.hash db.store) (env : Env) (line : Bytes)
    (isAuthenticated : Bool) :
    Answers ctx.requirepass (db.store.view ctx.hash) ⟨env.now, parseRequest line, isAuthenticated⟩
      (execute ctx env line db isAuthenticated).reply
      ((execute ctx env line db isAuthenticated).db.store.view ctx.hash) := by
  unfold execute
  cases parseRequest line with
  | nil => exact .conversed rfl
  | cons word args =>
    dsimp only
    split
    · rename_i hgate
      rw [db_executeGated]
      exact .conversed (converse_gated (gated_iff.mp hgate) _)
    · rename_i hgate
      have hadm : Admitted ctx isAuthenticated := by rwa [gated_iff, not_not] at hgate
      have hcounted : WellPlaced ctx.hash
          { db with metrics := db.metrics.onCommandProcessed }.store := h
      exact executeOpen_answers hcounted hadm env word args

/-! ## 3. A run of the event loop -/

/-- What an execution is for the service. -/
def Execution.exchange (ctx : ServerCtx) (x : Execution) : ServiceCall × ServiceReply :=
  (⟨x.env.now, x.tokens, x.isAuthenticated⟩, (x.outcome ctx).reply)

/-- The number of the newest connection of a descriptor; the first one accepted is number 0. -/
def numberOf (fd : Fd) : List Connection → Nat
  | [] => 0
  | c :: cs => if c.fd = fd then cs.length else numberOf fd cs

/-- What an event is for the service, with the number of the client. -/
def exchangesOf (ctx : ServerCtx) (cs : List Connection) :
    Event → List (Nat × ServiceCall × ServiceReply)
  | .read fd _ executions =>
    (executions.map (Execution.exchange ctx)).map (Prod.mk (numberOf fd cs))
  | _ => []

/-- What a trace is for the service. -/
def exchanges (ctx : ServerCtx) (es : List Event) : List (Nat × ServiceCall × ServiceReply) :=
  outputs record (exchangesOf ctx) es []

section Legal

/-- Executions one after the other. -/
theorem Follows.legal {n n' : Nat} {xs : List Execution} (h : Follows ctx env n db xs n' db')
    (hreach : Reachable ctx.hash db.store) (i : Nat) :
    Reachable ctx.hash db'.store ∧ LegalSequence (Answers ctx.requirepass)
      (db.store.view ctx.hash) ((xs.map (Execution.exchange ctx)).map (Prod.mk i))
      (db'.store.view ctx.hash) := by
  induction h with
  | nil => exact ⟨hreach, .nil⟩
  | cons x henv _ ih =>
    obtain ⟨hlast, hrest⟩ := ih (hreach.execute x.env x.line x.isAuthenticated)
    exact ⟨hlast, .cons i (execute_answers hreach.wellPlaced x.env x.line x.isAuthenticated) hrest⟩

/-- **A timeline** is a run of the service. -/
theorem Timeline.legal {n n' : Nat} {es : List Event} (h : Timeline ctx env n db es n' db')
    (hreach : Reachable ctx.hash db.store) (cs : List Connection) :
    LegalSequence (Answers ctx.requirepass) (db.store.view ctx.hash)
      (outputs record (exchangesOf ctx) es cs) (db'.store.view ctx.hash) := by
  induction h generalizing cs with
  | nil => exact .nil
  | accepted fd _ ih => exact ih hreach _
  | closed fd _ ih => exact ih hreach _
  | read fd chunk hfollows _ ih =>
    obtain ⟨hlast, hlegal⟩ := hfollows.legal hreach (numberOf fd cs)
    exact hlegal.append (ih hlast _)

theorem map_snd_exchanges (ctx : ServerCtx) (es : List Event) (cs : List Connection) :
    (outputs record (exchangesOf ctx) es cs).map Prod.snd =
      (es.flatMap Event.executions).map (Execution.exchange ctx) := by
  induction es generalizing cs with
  | nil => rfl
  | cons e es ih =>
    rw [outputs, List.map_append, ih, List.flatMap_cons, List.map_append]
    cases e <;> simp [exchangesOf, Event.executions, Function.comp_def]

end Legal

section Numbers

variable {fd : Fd} {f : Connection → Connection} {cs : List Connection} {c : Connection}

theorem getElem?_reverse_cons (c : Connection) (cs : List Connection) (i : Nat) :
    (c :: cs).reverse[i]? = if i = cs.length then some c else cs.reverse[i]? := by
  rw [List.reverse_cons, List.getElem?_append, List.length_reverse]
  split
  · rename_i hlt
    rw [if_neg (by omega)]
  · rename_i hge
    split
    · rename_i heq
      rw [heq, Nat.sub_self]
      rfl
    · rw [List.getElem?_eq_none (by simp; omega), List.getElem?_eq_none (by simp; omega)]

theorem length_updateNewest (fd : Fd) (f : Connection → Connection) (cs : List Connection) :
    (updateNewest fd f cs).length = cs.length := by
  induction cs with
  | nil => rfl
  | cons c cs ih =>
    simp only [updateNewest]
    split
    · rfl
    · rw [List.length_cons, List.length_cons, ih]

theorem numberOf_lt (h : newest fd cs = some c) : numberOf fd cs < cs.length := by
  induction cs with
  | nil => cases h
  | cons d ds ih =>
    simp only [numberOf, List.length_cons]
    split
    · exact Nat.lt_succ_self _
    · rename_i hd
      have hds : newest fd ds = some c := by simpa [newest, hd] using h
      exact Nat.lt_succ_of_lt (ih hds)

/-- **Only the newest connection of the descriptor changes.** -/
theorem getElem?_updateNewest (h : newest fd cs = some c) (i : Nat) :
    (updateNewest fd f cs).reverse[i]? =
      if i = numberOf fd cs then cs.reverse[i]?.map f else cs.reverse[i]? := by
  induction cs with
  | nil => cases h
  | cons d ds ih =>
    by_cases hd : d.fd = fd
    · have hnumber : numberOf fd (d :: ds) = ds.length := if_pos hd
      simp only [updateNewest, if_pos hd, hnumber, getElem?_reverse_cons]
      split <;> rfl
    · have hds : newest fd ds = some c := by simpa [newest, hd] using h
      have hlt := numberOf_lt hds
      have hnumber : numberOf fd (d :: ds) = numberOf fd ds := if_neg hd
      simp only [updateNewest, if_neg hd, hnumber, getElem?_reverse_cons, length_updateNewest,
        ih hds]
      split
      · rw [if_neg (by omega)]
      · rfl

end Numbers

section Shares

variable {es : List Event} {fd : Fd} {f : Connection → Connection}

/-- The exchanges of a trace, share by share: each is of a connection, and what was executed of a
connection is its share. -/
structure SharedOut (ctx : ServerCtx) (es : List Event) : Prop where
  newest : ∀ fd ∈ es.foldl table [], ∃ c, newest fd (es.foldl record []) = some c
  owned : ∀ x ∈ exchanges ctx es, x.1 < (es.foldl record []).length
  share : ∀ i c, (es.foldl record []).reverse[i]? = some c →
    ofThread i (exchanges ctx es) = c.executed.map (Execution.exchange ctx)

/-- A connection that is yet to come has no share. -/
theorem SharedOut.share_next (h : SharedOut ctx es) :
    ofThread (es.foldl record []).length (exchanges ctx es) = [] :=
  List.filterMap_eq_nil_iff.mpr fun x hx => if_neg (Nat.ne_of_lt (h.owned x hx))

/-- A new connection. -/
theorem SharedOut.accepted (h : SharedOut ctx es) (fd : Fd) :
    SharedOut ctx (es ++ [Event.accepted fd]) := by
  have hrecord : (es ++ [Event.accepted fd]).foldl record [] =
      ⟨fd, [], [], true⟩ :: es.foldl record [] := by
    rw [List.foldl_append]
    rfl
  have hexchanges : exchanges ctx (es ++ [Event.accepted fd]) = exchanges ctx es := by
    simp only [exchanges, outputs_append, outputs, exchangesOf, List.append_nil]
  constructor
  · intro fd' hfd'
    rw [List.foldl_append] at hfd'
    rw [hrecord]
    by_cases hne : fd = fd'
    · exact ⟨_, List.find?_cons_of_pos (by simpa using hne)⟩
    · obtain ⟨c, hc⟩ := h.newest fd' ((List.mem_cons.mp hfd').resolve_left (Ne.symm hne))
      exact ⟨c, (List.find?_cons_of_neg (by simpa using hne)).trans hc⟩
  · rw [hexchanges, hrecord]
    exact fun x hx => Nat.lt_succ_of_lt (h.owned x hx)
  · intro i c hc
    rw [hrecord, getElem?_reverse_cons] at hc
    rw [hexchanges]
    split at hc
    · rename_i hi
      obtain rfl := Option.some.inj hc
      rw [hi]
      exact h.share_next
    · exact h.share i c hc

/-- The newest connection of a descriptor executes something, or nothing. -/
theorem SharedOut.updated (h : SharedOut ctx es) {e : Event} (xs : List Execution)
    (hfd : fd ∈ es.foldl table [])
    (hrecord : ∀ cs, record cs e = updateNewest fd f cs)
    (hexchanges : ∀ cs, exchangesOf ctx cs e =
      (xs.map (Execution.exchange ctx)).map (Prod.mk (numberOf fd cs)))
    (htable : ∀ fds, table fds e ⊆ fds) (hf : ∀ c, (f c).fd = c.fd)
    (hexecuted : ∀ c, (f c).executed = c.executed ++ xs) : SharedOut ctx (es ++ [e]) := by
  obtain ⟨d, hd⟩ := h.newest fd hfd
  have hconnections : (es ++ [e]).foldl record [] = updateNewest fd f (es.foldl record []) := by
    rw [List.foldl_append]
    exact hrecord _
  have hmore : exchanges ctx (es ++ [e]) = exchanges ctx es ++
      (xs.map (Execution.exchange ctx)).map (Prod.mk (numberOf fd (es.foldl record []))) := by
    simp only [exchanges, outputs_append, outputs, hexchanges, List.append_nil]
  constructor
  · intro fd' hfd'
    rw [List.foldl_append] at hfd'
    obtain ⟨c, hc⟩ := h.newest fd' (htable _ hfd')
    rw [hconnections]
    by_cases hne : fd' = fd
    · subst hne
      exact ⟨f c, newest_update hf hc⟩
    · exact ⟨c, (newest_update_ne hf hne).trans hc⟩
  · rw [hmore, hconnections, length_updateNewest]
    intro x hx
    rcases List.mem_append.mp hx with hx | hx
    · exact h.owned x hx
    · obtain ⟨y, -, rfl⟩ := List.mem_map.mp hx
      exact numberOf_lt hd
  · intro i c hc
    rw [hconnections, getElem?_updateNewest hd] at hc
    rw [hmore, ofThread_append]
    split at hc
    · rename_i hi
      obtain ⟨c', hc', rfl⟩ := Option.map_eq_some_iff.mp hc
      rw [h.share i c' hc', hi, ofThread_self, hexecuted, List.map_append]
    · rename_i hi
      rw [h.share i c hc, ofThread_ne (Ne.symm hi), List.append_nil]

/-- **A legal trace** is shared out among its connections. -/
theorem shared_of_legal (h : Steps table Legal es []) : SharedOut ctx es := by
  induction es using List.reverseRecOn with
  | nil =>
    exact ⟨fun _ h => absurd h List.not_mem_nil, fun _ h => absurd h List.not_mem_nil,
      fun i c h => by simp at h⟩
  | append_singleton es e ih =>
    obtain ⟨hlegal, hstep, -⟩ := steps_append.mp h
    have hshared := ih hlegal
    cases e with
    | accepted fd => exact hshared.accepted fd
    | read fd chunk executions =>
      exact hshared.updated executions hstep (fun _ => rfl) (fun _ => rfl)
        (fun _ => List.Subset.refl _) (fun _ => rfl) fun _ => rfl
    | closed fd =>
      exact hshared.updated [] hstep (fun _ => rfl) (fun _ => rfl)
        (fun _ => List.erase_subset) (fun _ => rfl) fun c => (List.append_nil c.executed).symm

end Shares

/-! ## 4. The server -/

/-- From one flag on, each exchange is under the flag that the one before it left. -/
inductive Conversation : Bool → List (ServiceCall × ServiceReply) → Prop
  | nil (flag : Bool) : Conversation flag []
  | cons (x : ServiceCall × ServiceReply) {xs : List (ServiceCall × ServiceReply)}
      (rest : Conversation x.2.isAuthenticated xs) : Conversation x.1.isAuthenticated (x :: xs)

theorem Threaded.conversation {xs : List Execution} {a b : Bool} (h : Threaded ctx a xs b) :
    Conversation a (xs.map (Execution.exchange ctx)) := by
  induction h with
  | nil flag => exact .nil flag
  | cons x _ ih => exact .cons (x.exchange ctx) ih

/-- What the share of a client is to its connection: it asks what its lines say, up to the first
`QUIT`, the responses are the replies, and it starts without the password. -/
structure Connection.Converses (ctx : ServerCtx) (c : Connection)
    (share : List (ServiceCall × ServiceReply)) : Prop where
  asked : share.map (fun x => x.1.tokens) =
    upToQuit ((splitLines lf c.received).1.map parseRequest)
  replied : share.map (fun x => x.2.response) = c.executed.map (Execution.response ctx)
  conversation : Conversation (decide (ctx.requirepass = [])) share

/-- What a state of the server owes to the service that started with the store `F`: what has
happened so far is a run of the service, up to the store that there is now, each command at the
instant at which it was executed; and every client has its share in it. -/
structure RefinesService (ctx : ServerCtx) (env : Nat → Env) (F : FlatStore) (s : TcpServer) :
    Prop where
  legal : LegalSequence (Answers ctx.requirepass) F (exchanges ctx s.trace)
    (s.db.store.view ctx.hash)
  clock : (exchanges ctx s.trace).map (fun x => x.2.1.now) =
    (List.range s.served).map fun n => (env n).now
  owned : ∀ x ∈ exchanges ctx s.trace, x.1 < s.connections.length
  client : ∀ (i : Nat) (c : Connection), s.connections.reverse[i]? = some c →
    c.Converses ctx (ofThread i (exchanges ctx s.trace))

theorem Timed.refinesService {s : TcpServer} (htimed : Timed ctx env db s)
    (hreach : Reachable ctx.hash db.store) {pollFds : List PollFd}
    (hdisciplined : Disciplined pollFds s) (hsound : Sound ctx pollFds s) :
    RefinesService ctx env (db.store.view ctx.hash) s := by
  have hshared : SharedOut ctx s.trace := shared_of_legal hdisciplined.legal
  refine ⟨Timeline.legal htimed hreach [], ?_, hshared.owned, fun i c hc => ?_⟩
  · obtain ⟨hserved, hcalls⟩ := Timeline.calls htimed
    have hnow : (exchanges ctx s.trace).map (fun x => x.2.1.now) =
        ((s.trace.flatMap Event.executions).map Execution.env).map Env.now := by
      have hsnd := congrArg (List.map fun x => x.1.now) (map_snd_exchanges ctx s.trace [])
      simpa [exchanges, Function.comp_def, Execution.exchange] using hsnd
    rw [hnow, hcalls, hserved, Nat.zero_add, List.range_eq_range', List.map_map]
    rfl
  · have hmem : c ∈ s.connections := List.mem_reverse.mp (List.mem_of_getElem? hc)
    obtain ⟨closed, flag, hran, hthreaded⟩ := hsound.orderly c hmem
    rw [hshared.share i c hc]
    refine ⟨?_, ?_, hthreaded.conversation⟩
    · rw [List.map_map, ← hran.tokens]
      rfl
    · rw [List.map_map]
      rfl

/-- **The server is the service**, in every state of every run of the event loop, whatever the
hash function and the iteration orders, for any number of clients and however their bytes come
in.  No other thread changes the store between the calls, the janitor included. -/
theorem server_refines_service {rounds : List Round} (hreach : Reachable ctx.hash db.store)
    (hfresh : Steps (TcpServer.turn ctx env) FreshAccepts rounds (.start db)) :
    Always (TcpServer.turn ctx env) (RefinesService ctx env (db.store.view ctx.hash)) rounds
      (.start db) :=
  Always.mono (fun _ h => h.1.refinesService hreach h.2.1 h.2.2)
    ((timed_run ctx env rounds db).and (disciplined_run hfresh))

/-- Two clients, one of which gives the password and then asks in two pieces. -/
theorem server_refines_service_two :
    let idle : Revents := ⟨false, false, false, false⟩
    let readable : Revents := ⟨true, false, false, false⟩
    let ctx : ServerCtx := ⟨List.length, bytes "pw", 8080, 4⟩
    let env : Nat → Env := fun n => ⟨n, .plain, .success⟩
    let rounds : List Round :=
      [⟨fun _ => idle, true, [5, 6], fun _ => [], fun _ => by decide⟩,
        ⟨fun _ => readable, false, [],
          fun fd => if fd = 5 then bytes "AUTH pw\nSET k" else bytes "GET k\n",
          fun fd => by split <;> decide⟩,
        ⟨fun _ => readable, false, [], fun fd => if fd = 5 then bytes " v\nGET k\n" else [],
          fun fd => by split <;> decide⟩]
    Always (TcpServer.turn ctx env) (RefinesService ctx env .empty) rounds
      (.start (.fresh ⟨0, 0, 0, 0, 0, 0, 0, 0⟩)) := by
  intro idle readable ctx env rounds
  have hfresh : Steps (TcpServer.turn ctx env) FreshAccepts rounds
      (.start (.fresh ⟨0, 0, 0, 0, 0, 0, 0, 0⟩)) :=
    ⟨⟨by decide, fun fd _ => AList.notMem_empty fd⟩,
      ⟨List.nodup_nil, fun _ h => absurd h List.not_mem_nil⟩,
      ⟨List.nodup_nil, fun _ h => absurd h List.not_mem_nil⟩, trivial⟩
  have hempty : Reachable ctx.hash (Db.fresh ⟨0, 0, 0, 0, 0, 0, 0, 0⟩).store := .empty
  exact server_refines_service hempty hfresh

end KeyValueDb
