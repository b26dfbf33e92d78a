/-
# CommandParser::execute

The dispatcher: parse the request, ask for the password, then run the branch of the command.
`Db` is what a command can change besides its session: the store, the log and the counters of
`MetricsTracker`.  What a call takes from outside comes in `Env`: the reading of the clock,
the iteration order of the maps it walks, and the outcomes of the file operations of a
rewrite.
-/
import KeyValueDb.Aof.Rewrite
import KeyValueDb.Command.Commands

namespace KeyValueDb

open Lib RespParser

/-! ## 1. Counters -/

/-- `MetricsTracker`: atomic 64-bit counters, which wrap around. -/
structure Metrics where
  startTime : Time
  totalConnections : UInt64
  activeConnections : Int
  totalCommands : UInt64
  totalReads : UInt64
  totalWrites : UInt64
  keysExpired : UInt64
  keysEvicted : UInt64

namespace Metrics

/-- `MetricsTracker()`. -/
def fresh (startTime : Time) : Metrics := ⟨startTime, 0, 0, 0, 0, 0, 0, 0⟩

def onClientConnected (m : Metrics) : Metrics :=
  { m with
    totalConnections := m.totalConnections + 1
    activeConnections := wrap64 (m.activeConnections + 1) }

def onClientDisconnected (m : Metrics) : Metrics :=
  { m with activeConnections := wrap64 (m.activeConnections - 1) }

def onCommandProcessed (m : Metrics) : Metrics := { m with totalCommands := m.totalCommands + 1 }

def onReadOps (n : Nat) (m : Metrics) : Metrics :=
  { m with totalReads := m.totalReads + UInt64.ofNat n }

def onWriteOps (n : Nat) (m : Metrics) : Metrics :=
  { m with totalWrites := m.totalWrites + UInt64.ofNat n }

def uptimeSeconds (now : Time) (m : Metrics) : Nat :=
  toSize ((wrap64 (now - m.startTime)).tdiv 1000000000)

def toInfoString (now : Time) (port threadCount totalKeys : Nat) (m : Metrics) : Bytes :=
  bytes "# Server\r\n" ++
  bytes "redis_version:2.0.0-cpp20\r\n" ++
  bytes "os:Linux/POSIX\r\n" ++
  bytes "arch_bits:64\r\n" ++
  bytes "tcp_port:" ++ dec port ++ crlf ++
  bytes "uptime_in_seconds:" ++ dec (m.uptimeSeconds now) ++ crlf ++
  bytes "configured_workers:" ++ dec threadCount ++ bytes "\r\n\r\n" ++
  bytes "# Clients\r\n" ++
  bytes "connected_clients:" ++ stdToString m.activeConnections ++ crlf ++
  bytes "total_connections_received:" ++ dec m.totalConnections.toNat ++ bytes "\r\n\r\n" ++
  bytes "# Stats\r\n" ++
  bytes "total_commands_processed:" ++ dec m.totalCommands.toNat ++ crlf ++
  bytes "total_reads:" ++ dec m.totalReads.toNat ++ crlf ++
  bytes "total_writes:" ++ dec m.totalWrites.toNat ++ crlf ++
  bytes "expired_keys:" ++ dec m.keysExpired.toNat ++ crlf ++
  bytes "evicted_keys:" ++ dec m.keysEvicted.toNat ++ bytes "\r\n\r\n" ++
  bytes "# Keyspace\r\n" ++
  bytes "db0:keys=" ++ dec totalKeys ++ bytes ",shards=64\r\n"

end Metrics

/-! ## 2. What a command works on -/

/-- What the server was configured with. -/
structure ServerCtx where
  hash : Bytes → Nat
  requirepass : Bytes
  port : Nat
  threadCount : Nat

/-- What one call takes from outside. -/
structure Env where
  now : Time
  order : IterOrder
  io : RewriteIo

/-- The store, the log if there is one, and the counters. -/
structure Db where
  store : KeyValueStore
  aof : Option AofManager
  metrics : Metrics

structure CommandResult where
  response : Bytes
  shouldClose : Bool

/-- What `execute` returns, and what it leaves in the arguments it was given by reference. -/
structure Outcome where
  result : CommandResult
  db : Db
  isAuthenticated : Bool

/-- Counted, and logged if there is an enabled log; `append` makes that check itself. -/
def Db.apply (r : Reply) (db : Db) : Db where
  store := r.store
  aof := match r.record with
    | none => db.aof
    | some tokens => db.aof.map (AofManager.append tokens)
  metrics := (db.metrics.onReadOps r.reads).onWriteOps r.writes

/-! ## 3. The dispatcher -/

/-- An answer that changes nothing but, perhaps, the counters. -/
def answer (response : Bytes) (db : Db) (isAuthenticated : Bool) : Outcome :=
  ⟨⟨response, false⟩, db, isAuthenticated⟩

/-- The branches before the authentication is known. -/
def executeGated (ctx : ServerCtx) (word : Bytes) (args : List Bytes) (db : Db) : Outcome :=
  match Verb.ofWord (toUpper word) with
  | some .auth =>
    if args = [ctx.requirepass] then answer ok db true
    else answer (serializeError (bytes "invalid password")) db false
  | some .quit => ⟨⟨ok, true⟩, db, false⟩
  | _ => answer (bytes "-NOAUTH Authentication required.\r\n") db false

def executeAuth (ctx : ServerCtx) (args : List Bytes) (db : Db) (isAuthenticated : Bool) :
    Outcome :=
  match args with
  | [password] =>
    if ctx.requirepass = [] ∨ password = ctx.requirepass then answer ok db true
    else answer (serializeError (bytes "invalid password")) db isAuthenticated
  | _ =>
    answer (serializeError (bytes "wrong number of arguments for 'auth' command")) db
      isAuthenticated

def executePing (args : List Bytes) (db : Db) (isAuthenticated : Bool) : Outcome :=
  match args with
  | [] => answer (serializeSimpleString (bytes "PONG")) db isAuthenticated
  | arg :: _ => answer (serializeBulkString arg) db isAuthenticated

def executeRewrite (env : Env) (db : Db) (isAuthenticated : Bool) : Outcome :=
  match db.aof with
  | none => answer (serializeError (bytes "AOF is not enabled")) db isAuthenticated
  | some aof =>
    if aof.enabled = false then
      answer (serializeError (bytes "AOF is not enabled")) db isAuthenticated
    else
      let r := aof.rewrite env.io env.order env.now db.store
      answer
        (if r.1 then
          serializeSimpleString
            (bytes "Background append only file rewriting finished successfully")
        else serializeError (bytes "rewriting failed"))
        { db with aof := some r.2 } isAuthenticated

def executeInfo (ctx : ServerCtx) (env : Env) (db : Db) (isAuthenticated : Bool) : Outcome :=
  answer
    (serializeBulkString
      (db.metrics.toInfoString env.now ctx.port ctx.threadCount (db.store.size env.now)))
    db isAuthenticated

/-- The branches of an authenticated session. -/
def executeOpen (ctx : ServerCtx) (env : Env) (word : Bytes) (args : List Bytes) (db : Db)
    (isAuthenticated : Bool) : Outcome :=
  match Verb.ofWord (toUpper word) with
  | some .auth => executeAuth ctx args db isAuthenticated
  | some .ping => executePing args db isAuthenticated
  | some .bgrewriteaof => executeRewrite env db isAuthenticated
  | some .info => executeInfo ctx env db isAuthenticated
  | some .quit => ⟨⟨ok, true⟩, db, isAuthenticated⟩
  | some (.store v) =>
    let r := Command.run ctx.hash env.order env.now (word :: args) db.store v
    answer r.response (db.apply r) isAuthenticated
  | none =>
    answer (serializeError (bytes "unknown command '" ++ word ++ bytes "'")) db isAuthenticated

def execute (ctx : ServerCtx) (env : Env) (rawCommand : Bytes) (db : Db)
    (isAuthenticated : Bool) : Outcome :=
  match parseRequest rawCommand with
  | [] => ⟨⟨[], false⟩, db, isAuthenticated⟩
  | word :: args =>
    let db := { db with metrics := db.metrics.onCommandProcessed }
    if ctx.requirepass ≠ [] ∧ isAuthenticated = false then executeGated ctx word args db
    else executeOpen ctx env word args db isAuthenticated

end KeyValueDb
