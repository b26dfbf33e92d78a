import KeyValueDb.Lib.Decimal
import KeyValueDb.Lib.Cost
import KeyValueDb.Lib.Lines
import KeyValueDb.Lib.Framing
import KeyValueDb.Lib.InputStream
import KeyValueDb.Lib.Placement
import KeyValueDb.Lib.Resp2
import KeyValueDb.Lib.Sweep
import KeyValueDb.Text
import KeyValueDb.Resp
import KeyValueDb.Resp.RoundTrip
import KeyValueDb.Resp.Quoted
import KeyValueDb.Resp.Forward
import KeyValueDb.Store.Shard
import KeyValueDb.Store.KeyValueStore
import KeyValueDb.Store.Flat
import KeyValueDb.Store.View
import KeyValueDb.Store.Purge
import KeyValueDb.Store.Invisible
import KeyValueDb.Store.Sections
import KeyValueDb.Store.Interleaved
import KeyValueDb.Store.Refine
import KeyValueDb.Store.Contents
import KeyValueDb.Store.KeyCount
import KeyValueDb.Store.Lifetime
import KeyValueDb.Store.Counter
import KeyValueDb.Store.Slice
import KeyValueDb.Command.Verb
import KeyValueDb.Aof.Manager
import KeyValueDb.Aof.Loader
import KeyValueDb.Aof.Replay
import KeyValueDb.Aof.Dispatched
import KeyValueDb.Aof.Torn
import KeyValueDb.Aof.SafeCut
import KeyValueDb.Aof.Reopened
import KeyValueDb.Aof.Recovered
import KeyValueDb.Aof.Image
import KeyValueDb.Aof.Rewrite
import KeyValueDb.Aof.AllOrNothing
import KeyValueDb.Aof.Bounds
import KeyValueDb.Command.Commands
import KeyValueDb.Command.Effect
import KeyValueDb.Command.Execute
import KeyValueDb.Command.Step
import KeyValueDb.Command.Replies
import KeyValueDb.Command.Deadline
import KeyValueDb.Command.Integers
import KeyValueDb.Command.Spelling
import KeyValueDb.Command.Run
import KeyValueDb.Command.Grammar
import KeyValueDb.Command.Truncated
import KeyValueDb.Recovery.Mirrors
import KeyValueDb.Recovery.Dropped
import KeyValueDb.Recovery.Values
import KeyValueDb.Recovery.Deadlines
import KeyValueDb.Recovery.Spelling
import KeyValueDb.Recovery.Containers
import KeyValueDb.Server.Session
import KeyValueDb.Server.Outgoing
import KeyValueDb.Server.TcpServer
import KeyValueDb.Server.History
import KeyValueDb.Server.Gate
import KeyValueDb.Server.Framing
import KeyValueDb.Lib.Mutex
import KeyValueDb.ThreadPool.Pool
import KeyValueDb.ThreadPool.Invariant
import KeyValueDb.ThreadPool.Served
import KeyValueDb.ThreadPool.Shutdown
import KeyValueDb.Lib.Reorder
import KeyValueDb.Store.Updates
import KeyValueDb.Concurrent.Writers
import KeyValueDb.Concurrent.Alone
import KeyValueDb.Concurrent.Reload
import KeyValueDb.Concurrent.LogOrder
import KeyValueDb.Concurrent.Snapshot
import KeyValueDb.Concurrent.Compaction
import KeyValueDb.Concurrent.MultiKey
import KeyValueDb.Janitor.Limit
import KeyValueDb.Janitor.Eviction
import KeyValueDb.Janitor.Oldest
import KeyValueDb.Janitor.Progress
import KeyValueDb.Store.Keys
import KeyValueDb.Store.Texts
import KeyValueDb.Aof.Calls
import KeyValueDb.Aof.Minimal
import KeyValueDb.Command.Plan
import KeyValueDb.Command.Unordered
import KeyValueDb.Command.Keys
import KeyValueDb.Server.Words
import KeyValueDb.Server.Client
import KeyValueDb.Recovery.Words
import KeyValueDb.Lib.Fields
import KeyValueDb.Lib.Runs
import KeyValueDb.Lib.SharedMutex
import KeyValueDb.Lib.Linearize
import KeyValueDb.Store.Stamps
import KeyValueDb.Server.Serial
import KeyValueDb.Server.Descriptors
import KeyValueDb.Server.Delivered
import KeyValueDb.Server.Service
import KeyValueDb.Server.Outsiders
import KeyValueDb.Server.Counters
import KeyValueDb.Config.ServerConfig
import KeyValueDb.Config.Startup
import KeyValueDb.Recovery.Restarts
import KeyValueDb.Server.Survives
import KeyValueDb.Janitor.Thread
import KeyValueDb.Concurrent.Locked
import KeyValueDb.Concurrent.Linearizable
