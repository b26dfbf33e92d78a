/-
# What INFO reports

`to_info_string` writes a text of headings and fields; a client that knows the format reads every
field of it back (`readInfo_toInfoString`).

The counters behind it are right: in every state of every run they count the connections that
were accepted, those that are open, and the commands that were executed (`counters_right`), and
what a client reads in the reply to `INFO` is what had happened before it, this command and this
client included (`info_reports`).
-/
import KeyValueDb.Lib.Fields
import KeyValueDb.Server.Descriptors

namespace KeyValueDb

open Lib RespParser

/-! ## 1. The text -/

/-- `':'`. -/
abbrev colon : UInt8 := 58

/-- What a client reads in the text of `INFO`. -/
def readInfo (text : Bytes) : List (Bytes × Bytes) := readFields colon cr lf text

section Text

variable (now : Time) (port threadCount totalKeys : Nat) (m : Metrics)

/-- The fields of the text, section by section. -/
def Metrics.infoFields : List (Bytes × Bytes) :=
  [(bytes "redis_version", bytes "2.0.0-cpp20"),
    (bytes "os", bytes "Linux/POSIX"),
    (bytes "arch_bits", bytes "64"),
    (bytes "tcp_port", dec port),
    (bytes "uptime_in_seconds", dec (m.uptimeSeconds now)),
    (bytes "configured_workers", dec threadCount),
    (bytes "connected_clients", stdToString m.activeConnections),
    (bytes "total_connections_received", dec m.totalConnections.toNat),
    (bytes "total_commands_processed", dec m.totalCommands.toNat),
    (bytes "total_reads", dec m.totalReads.toNat),
    (bytes "total_writes", dec m.totalWrites.toNat),
    (bytes "expired_keys", dec m.keysExpired.toNat),
    (bytes "evicted_keys", dec m.keysEvicted.toNat),
    (bytes "db0", bytes "keys=" ++ dec totalKeys ++ bytes ",shards=64")]

/-- The lines of the text. -/
def Metrics.infoLines : List (TextLine UInt8) :=
  let fields := (m.infoFields now port threadCount totalKeys).map fun f => TextLine.field f.1 f.2
  [.heading (bytes "# Server")] ++ fields.take 6 ++
    [.heading [], .heading (bytes "# Clients")] ++ (fields.drop 6).take 2 ++
    [.heading [], .heading (bytes "# Stats")] ++ (fields.drop 8).take 5 ++
    [.heading [], .heading (bytes "# Keyspace")] ++ fields.drop 13

/-- The literals of the source, cut where a line, a name or a value ends. -/
theorem info_literals :
    bytes "# Server\r\n" = bytes "# Server" ++ crlf ∧
      bytes "redis_version:2.0.0-cpp20\r\n" =
        bytes "redis_version" ++ colon :: (bytes "2.0.0-cpp20" ++ crlf) ∧
      bytes "os:Linux/POSIX\r\n" = bytes "os" ++ colon :: (bytes "Linux/POSIX" ++ crlf) ∧
      bytes "arch_bits:64\r\n" = bytes "arch_bits" ++ colon :: (bytes "64" ++ crlf) ∧
      bytes "tcp_port:" = bytes "tcp_port" ++ [colon] ∧
      bytes "uptime_in_seconds:" = bytes "uptime_in_seconds" ++ [colon] ∧
      bytes "configured_workers:" = bytes "configured_workers" ++ [colon] ∧
      bytes "\r\n\r\n" = crlf ++ crlf ∧
      bytes "# Clients\r\n" = bytes "# Clients" ++ crlf ∧
      bytes "connected_clients:" = bytes "connected_clients" ++ [colon] ∧
      bytes "total_connections_received:" = bytes "total_connections_received" ++ [colon] ∧
      bytes "# Stats\r\n" = bytes "# Stats" ++ crlf ∧
      bytes "total_commands_processed:" = bytes "total_commands_processed" ++ [colon] ∧
      bytes "total_reads:" = bytes "total_reads" ++ [colon] ∧
      bytes "total_writes:" = bytes "total_writes" ++ [colon] ∧
      bytes "expired_keys:" = bytes "expired_keys" ++ [colon] ∧
      bytes "evicted_keys:" = bytes "evicted_keys" ++ [colon] ∧
      bytes "# Keyspace\r\n" = bytes "# Keyspace" ++ crlf ∧
      bytes "db0:keys=" = bytes "db0" ++ colon :: bytes "keys=" ∧
      bytes ",shards=64\r\n" = bytes ",shards=64" ++ crlf := by
  decide +kernel

theorem toInfoString_eq :
    m.toInfoString now port threadCount totalKeys =
      (m.infoLines now port threadCount totalKeys).flatMap (TextLine.encode colon cr lf) := by
  obtain ⟨hserver, hversion, hos, hbits, hport, huptime, hworkers, hblank, hclients, hactive,
    htotal, hstats, hcommands, hreads, hwrites, hexpired, hevicted, hkeyspace, hkeys, hshards⟩ :=
    info_literals
  unfold Metrics.toInfoString
  rw [hserver, hversion, hos, hbits, hport, huptime, hworkers, hblank, hclients, hactive, htotal,
    hstats, hcommands, hreads, hwrites, hexpired, hevicted, hkeyspace, hkeys, hshards]
  simp only [Metrics.infoLines, Metrics.infoFields, TextLine.encode, List.map_cons, List.map_nil,
    List.take_succ_cons, List.take_zero, List.drop_succ_cons, List.drop_zero, List.flatMap_cons,
    List.flatMap_nil, List.cons_append, List.nil_append, List.append_assoc, List.append_nil]

theorem notMem_stdToString (n : Int) : cr ∉ stdToString n ∧ lf ∉ stdToString n := by
  unfold stdToString
  split
  · simp only [List.mem_cons, not_or]
    exact ⟨⟨by decide, cr_notMem_dec _⟩, by decide, lf_notMem_dec _⟩
  · exact ⟨cr_notMem_dec _, lf_notMem_dec _⟩

/-- No name has a colon in it, no line a line end. -/
theorem plain_infoLines :
    ∀ line ∈ m.infoLines now port threadCount totalKeys, line.Plain colon cr lf := by
  have hdec : ∀ n, cr ∉ dec n ∧ lf ∉ dec n := fun n => ⟨cr_notMem_dec n, lf_notMem_dec n⟩
  have hkeys : cr ∉ bytes "keys=" ++ dec totalKeys ++ bytes ",shards=64" ∧
      lf ∉ bytes "keys=" ++ dec totalKeys ++ bytes ",shards=64" := by
    simp only [List.mem_append, not_or]
    exact ⟨⟨⟨by decide, (hdec _).1⟩, by decide⟩, ⟨by decide, (hdec _).2⟩, by decide⟩
  simp only [Metrics.infoLines, Metrics.infoFields, List.map_cons, List.map_nil,
    List.take_succ_cons, List.take_zero, List.drop_succ_cons, List.drop_zero, List.cons_append,
    List.nil_append, List.forall_mem_cons, List.not_mem_nil, false_imp_iff, implies_true,
    TextLine.Plain, hdec, hkeys, notMem_stdToString, not_false_eq_true, and_true]
  and_intros <;> decide +kernel

/-- **The text is read back, field by field.** -/
theorem readInfo_toInfoString :
    readInfo (m.toInfoString now port threadCount totalKeys) =
      m.infoFields now port threadCount totalKeys := by
  rw [toInfoString_eq]
  exact readFields_encode (by decide) (by decide) (by decide)
    (plain_infoLines now port threadCount totalKeys m)

end Text

/-! ## 2. The counters -/

def Event.isAccepted : Event → Bool
  | .accepted _ => true
  | _ => false

/-- The line is not blank. -/
def Execution.isCommand (x : Execution) : Bool := !(parseRequest x.line).isEmpty

/-- The counters after so many connections and commands, while these descriptors are open. -/
structure Counted (m : Metrics) (startTime : Time) (fds : List Fd) (accepted commands : Nat) :
    Prop where
  startTime : m.startTime = startTime
  total : m.totalConnections = UInt64.ofNat accepted
  active : m.activeConnections = wrap64 fds.length
  commands : m.totalCommands = UInt64.ofNat commands

theorem counted_fresh (startTime : Time) : Counted (.fresh startTime) startTime [] 0 0 :=
  ⟨rfl, rfl, rfl, rfl⟩

section Counted

variable {m : Metrics} {startTime : Time} {fds : List Fd} {accepted commands : Nat}
  {ctx : ServerCtx} {env : Nat → Env} {n n' : Nat} {db db' : Db}

theorem Counted.onClientConnected (h : Counted m startTime fds accepted commands) (fd : Fd) :
    Counted m.onClientConnected startTime (fd :: fds) (accepted + 1) commands := by
  refine ⟨h.startTime, ?_, ?_, h.commands⟩
  · simp only [Metrics.onClientConnected, h.total, UInt64.ofNat_add]
    rfl
  · simp only [Metrics.onClientConnected, h.active, wrap64, Int.bmod_add_bmod, List.length_cons,
      Nat.cast_add, Nat.cast_one]

theorem Counted.onClientDisconnected (h : Counted m startTime fds accepted commands) {fd : Fd}
    (hfd : fd ∈ fds) :
    Counted m.onClientDisconnected startTime (fds.erase fd) accepted commands := by
  refine ⟨h.startTime, h.total, ?_, h.commands⟩
  have hpos : 1 ≤ fds.length := List.length_pos_of_mem hfd
  simp only [Metrics.onClientDisconnected, h.active, wrap64, Int.bmod_sub_bmod,
    List.length_erase_of_mem hfd, Nat.cast_sub hpos, Nat.cast_one]

theorem Counted.outcome {x : Execution}
    (h : Counted x.db.metrics startTime fds accepted commands) :
    Counted (x.outcome ctx).db.metrics startTime fds accepted
      (commands + if x.isCommand then 1 else 0) := by
  obtain ⟨hstart, htotal, hactive, hcommands, -⟩ :=
    execute_metrics ctx x.env x.line x.db x.isAuthenticated
  refine ⟨hstart.trans h.startTime, htotal.trans h.total, hactive.trans h.active, ?_⟩
  unfold Execution.outcome Execution.isCommand
  rw [hcommands, h.commands, UInt64.ofNat_add]
  cases (parseRequest x.line).isEmpty <;> rfl

/-- A read. -/
theorem Follows.counted {xs : List Execution} (h : Follows ctx env n db xs n' db')
    (hcounted : Counted db.metrics startTime fds accepted commands) :
    Counted db'.metrics startTime fds accepted (commands + xs.countP Execution.isCommand) := by
  induction h generalizing commands with
  | nil => exact hcounted
  | cons x _ _ ih =>
    rw [List.countP_cons, Nat.add_comm (List.countP _ _), ← Nat.add_assoc]
    exact ih hcounted.outcome

/-- **A legal trace is counted.** -/
theorem Timeline.counted {es : List Event} (h : Timeline ctx env n db es n' db')
    (hlegal : Steps table Legal es fds)
    (hcounted : Counted db.metrics startTime fds accepted commands) :
    Counted db'.metrics startTime (es.foldl table fds) (accepted + es.countP Event.isAccepted)
      (commands + (es.flatMap Event.executions).countP Execution.isCommand) := by
  induction h generalizing fds accepted commands with
  | nil => exact hcounted
  | accepted fd _ ih =>
    rw [List.countP_cons, Nat.add_comm (List.countP _ _), ← Nat.add_assoc]
    exact ih hlegal.2 (hcounted.onClientConnected fd)
  | closed fd _ ih => exact ih hlegal.2 (hcounted.onClientDisconnected hlegal.1)
  | read fd chunk hfollows _ ih =>
    rw [List.flatMap_cons, List.countP_append, ← Nat.add_assoc]
    exact ih hlegal.2 (hfollows.counted hcounted)

/-- What a state of a server that started at `startTime` owes to its counters. -/
structure CountersRight (startTime : Time) (s : TcpServer) : Prop where
  totalConnections :
    s.db.metrics.totalConnections = UInt64.ofNat (s.trace.countP Event.isAccepted)
  activeConnections : s.db.metrics.activeConnections = wrap64 s.pollFds.length
  totalCommands :
    s.db.metrics.totalCommands = UInt64.ofNat (s.executions.countP Execution.isCommand)
  served : s.served = s.executions.length

/-- **The counters are right** in every state of every run of the event loop, as numbers of 64
bits. -/
theorem counters_right {rounds : List Round} {store : KeyValueStore} {aof : Option AofManager}
    (hfresh : Steps (TcpServer.turn ctx env) FreshAccepts rounds
      (.start ⟨store, aof, .fresh startTime⟩)) :
    Always (TcpServer.turn ctx env) (CountersRight startTime) rounds
      (.start ⟨store, aof, .fresh startTime⟩) := by
  apply ((timed_run ctx env rounds _).and (disciplined_run hfresh)).mono
  rintro s ⟨htimed, hdisciplined, -⟩
  have hcounted := htimed.counted hdisciplined.legal (counted_fresh startTime)
  simp only [Nat.zero_add] at hcounted
  refine ⟨hcounted.total, ?_, hcounted.commands, ?_⟩
  · rw [hcounted.active, hdisciplined.perm.length_eq, List.length_map]
  · rw [htimed.calls.1, Nat.zero_add]
    rfl

/-- Two connections, a blank line, a command, and one of them gone. -/
theorem counters_right_two :
    let idle : Revents := ⟨false, false, false, false⟩
    let readable : Revents := ⟨true, false, false, false⟩
    let rounds : List Round :=
      [⟨fun _ => idle, true, [5, 6], fun _ => [], fun _ => by decide⟩,
        ⟨fun fd => if fd = 5 then readable else idle, false, [], fun _ => bytes "\nPING\n",
          fun _ => by decide⟩,
        ⟨fun fd => if fd = 6 then readable else idle, false, [], fun _ => [], fun _ => by decide⟩]
    Always (TcpServer.turn ⟨List.length, [], 8080, 4⟩ fun _ => ⟨0, .plain, .success⟩)
      (CountersRight 0) rounds (.start ⟨.empty, none, .fresh 0⟩) :=
  counters_right ⟨⟨by decide, fun fd _ => AList.notMem_empty fd⟩,
    ⟨List.nodup_nil, fun _ h => absurd h List.not_mem_nil⟩,
    ⟨List.nodup_nil, fun _ h => absurd h List.not_mem_nil⟩, trivial⟩

/-! ## 3. The reply to INFO -/

theorem response_of_info {x : Execution} (h : ∃ tokens, x.request.Asks ctx .info tokens) :
    x.response ctx = serializeBulkString
      (x.db.metrics.onCommandProcessed.toInfoString x.env.now ctx.port ctx.threadCount
        (x.db.store.size x.env.now)) := by
  obtain ⟨tokens, hadmitted, hrequest⟩ := h
  obtain ⟨word, args, -, hparse, hverb⟩ := request?_eq_some hrequest
  have hgate : ¬ (ctx.requirepass ≠ [] ∧ x.isAuthenticated = false) := by
    rwa [gated_iff, not_not]
  have hline : parseRequest x.line = word :: args := hparse
  simp only [Execution.response, Execution.outcome, execute, hline, if_neg hgate, executeOpen,
    hverb, executeInfo, answer]

/-- What a state of a server that started at `startTime` owes to those who asked for `INFO`.
Before the command there were the events `es` and, of the same read, the executions `xs`: the
reply holds the fields of counters that are those of `es` and `xs` and of the command itself. -/
def InfoReports (ctx : ServerCtx) (startTime : Time) (s : TcpServer) : Prop :=
  ∀ es fd chunk xs x ys fs, s.trace = es ++ .read fd chunk (xs ++ x :: ys) :: fs →
    (∃ tokens, x.request.Asks ctx .info tokens) →
    fd ∈ es.foldl table [] ∧ ∃ text m, x.response ctx = serializeBulkString text ∧
      readInfo text =
        m.infoFields x.env.now ctx.port ctx.threadCount (x.db.store.size x.env.now) ∧
      Counted m startTime (es.foldl table []) (es.countP Event.isAccepted)
        ((es.flatMap Event.executions ++ xs).countP Execution.isCommand + 1)

/-- **`INFO` reports what happened before it**, in every run of the event loop.  The commands are
counted in 64 bits, and the number of keys is the one of `size`. -/
theorem info_reports {rounds : List Round} {store : KeyValueStore} {aof : Option AofManager}
    (hfresh : Steps (TcpServer.turn ctx env) FreshAccepts rounds
      (.start ⟨store, aof, .fresh startTime⟩)) :
    Always (TcpServer.turn ctx env) (InfoReports ctx startTime) rounds
      (.start ⟨store, aof, .fresh startTime⟩) := by
  apply ((timed_run ctx env rounds _).and (disciplined_run hfresh)).mono
  rintro s ⟨htimed, hdisciplined, -⟩ es fd chunk xs x ys fs htrace hinfo
  have hlegal := hdisciplined.legal
  rw [htrace, steps_append] at hlegal
  refine ⟨hlegal.2.1, _, _, response_of_info hinfo, readInfo_toInfoString _ _ _ _ _, ?_⟩
  unfold Timed at htimed
  rw [htrace] at htimed
  obtain ⟨n', mid, hes, hrest⟩ := htimed.split
  cases hrest with
  | read _ _ hfollows _ =>
    obtain ⟨n'', last, hxs, hx⟩ := hfollows.split
    cases hx with
    | cons _ _ _ =>
      have hbefore := hxs.counted (hes.counted hlegal.1 (counted_fresh startTime))
      rw [Nat.zero_add, Nat.zero_add, ← List.countP_append] at hbefore
      exact ⟨hbefore.startTime, hbefore.total, hbefore.active, by
        simp only [Metrics.onCommandProcessed, hbefore.commands, UInt64.ofNat_add]
        rfl⟩

/-- A client that asks twice in one read. -/
theorem info_reports_twice :
    let idle : Revents := ⟨false, false, false, false⟩
    let readable : Revents := ⟨true, false, false, false⟩
    let ctx : ServerCtx := ⟨List.length, [], 8080, 4⟩
    let rounds : List Round :=
      [⟨fun _ => idle, true, [5], fun _ => [], fun _ => by decide⟩,
        ⟨fun _ => readable, false, [], fun _ => bytes "INFO\nINFO\n", fun _ => by decide⟩]
    Always (TcpServer.turn ctx fun _ => ⟨0, .plain, .success⟩) (InfoReports ctx 0) rounds
      (.start ⟨.empty, none, .fresh 0⟩) :=
  info_reports ⟨⟨List.nodup_singleton 5, fun fd _ => AList.notMem_empty fd⟩,
    ⟨List.nodup_nil, fun _ h => absurd h List.not_mem_nil⟩, trivial⟩

end Counted

end KeyValueDb
