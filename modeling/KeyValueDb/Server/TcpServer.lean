/-
# TcpServer: the event loop

`start` polls, accepts, and then goes through the poll entries by index, reading one chunk
from each descriptor that is readable and erasing the entry at the index when a connection
ends, in which case the index stays.  A `Round` is what the system answers in one turn of that
loop.

The index loop over a vector that shrinks under it visits every entry once, in order
(`ioLoop_eq_sweep`); everything else is proved about `sweep`.

`trace` records what happened, in order; nothing in the loop reads it.
-/
import KeyValueDb.Server.Session

namespace KeyValueDb

open Lib

/-! ## 1. State -/

structure Revents where
  pollin : Bool
  pollerr : Bool
  pollhup : Bool
  pollnval : Bool

structure PollFd where
  fd : Fd
  revents : Revents

/-- What happened to a descriptor: `read` is a read with the executions it led to. -/
inductive Event
  | accepted (fd : Fd)
  | read (fd : Fd) (chunk : Bytes) (executions : List Execution)
  | closed (fd : Fd)

/-- `pollFds` are the entries behind the one of the listening socket. -/
structure TcpServer where
  pollFds : List PollFd
  sessions : AList fun _ : Fd => ClientSession
  db : Db
  served : Nat
  trace : List Event

/-- What the system answers in one turn: the events that `poll` reports, whether the listening
socket is readable, the descriptors that `accept` returns, and the bytes that `recv` delivers
from each descriptor, none when it returns zero or fails. -/
structure Round where
  revents : Fd → Revents
  listening : Bool
  accepted : List Fd
  recv : Fd → Bytes
  recv_le : ∀ fd, (recv fd).length ≤ 4096

namespace TcpServer

/-! ## 2. One turn of the loop -/

def start (db : Db) : TcpServer := ⟨[], ∅, db, 0, []⟩

def poll (round : Round) (s : TcpServer) : TcpServer :=
  { s with pollFds := s.pollFds.map fun p => { p with revents := round.revents p.fd } }

/-- A new entry has no events yet. -/
def acceptClient (ctx : ServerCtx) (s : TcpServer) (fd : Fd) : TcpServer :=
  { s with
    sessions := s.sessions.insert fd (.fresh ctx fd)
    pollFds := s.pollFds ++ [⟨fd, ⟨false, false, false, false⟩⟩]
    db := { s.db with metrics := s.db.metrics.onClientConnected }
    trace := s.trace ++ [.accepted fd] }

/-- The descriptor is closed and its session erased. -/
def disconnect (fd : Fd) (s : TcpServer) : TcpServer :=
  { s with
    sessions := s.sessions.erase fd
    db := { s.db with metrics := s.db.metrics.onClientDisconnected }
    trace := s.trace ++ [.closed fd] }

/-- `sessions_[fd]`, which makes an entry where there is none. -/
def session (fd : Fd) (s : TcpServer) : ClientSession :=
  (s.sessions.lookup fd).getD ⟨0, [], false⟩

/-- A chunk arrived. -/
def onReadable (ctx : ServerCtx) (env : Nat → Env) (fd : Fd) (chunk : Bytes) (s : TcpServer) :
    TcpServer × Bool :=
  let r := onChunk ctx env chunk (s.session fd) s.db s.served
  let s : TcpServer :=
    { s with
      sessions := s.sessions.insert fd r.session
      db := r.db
      served := r.served
      trace := s.trace ++ [.read fd chunk r.executions] }
  if r.clientClosed then (s.disconnect fd, true) else (s, false)

/-- What the loop does for one poll entry, and whether its connection ended. -/
def serveClient (ctx : ServerCtx) (env : Nat → Env) (round : Round) (p : PollFd)
    (s : TcpServer) : TcpServer × Bool :=
  if p.revents.pollerr || p.revents.pollhup || p.revents.pollnval then
    (s.disconnect p.fd, true)
  else if p.revents.pollin then
    if round.recv p.fd = [] then (s.disconnect p.fd, true)
    else s.onReadable ctx env p.fd (round.recv p.fd)
  else (s, false)

/-- The loop over the entries, at index `i`. -/
def ioLoop (ctx : ServerCtx) (env : Nat → Env) (round : Round) : Nat → Nat → TcpServer → TcpServer
  | 0, _, s => s
  | fuel + 1, i, s =>
    match s.pollFds[i]? with
    | none => s
    | some p =>
      let r := s.serveClient ctx env round p
      if r.2 then ioLoop ctx env round fuel i { r.1 with pollFds := r.1.pollFds.eraseIdx i }
      else ioLoop ctx env round fuel (i + 1) r.1

/-- The new connections of a turn. -/
def acceptClients (ctx : ServerCtx) (round : Round) (s : TcpServer) : TcpServer :=
  if round.listening then round.accepted.foldl (acceptClient ctx) s else s

/-- One turn. -/
def turn (ctx : ServerCtx) (env : Nat → Env) (s : TcpServer) (round : Round) : TcpServer :=
  let s := (s.poll round).acceptClients ctx round
  s.ioLoop ctx env round s.pollFds.length 0

/-! ## 3. The index loop, entry by entry -/

variable {ctx : ServerCtx} {env : Nat → Env} {round : Round}

/-- The entries one after the other: those kept so far, and those to come. -/
def sweep (ctx : ServerCtx) (env : Nat → Env) (round : Round) :
    List PollFd → List PollFd → TcpServer → TcpServer
  | kept, [], s => { s with pollFds := kept }
  | kept, p :: todo, s =>
    let r := s.serveClient ctx env round p
    if r.2 then sweep ctx env round kept todo r.1
    else sweep ctx env round (kept ++ [p]) todo r.1

theorem serveClient_pollFds (p : PollFd) (s : TcpServer) :
    (s.serveClient ctx env round p).1.pollFds = s.pollFds := by
  unfold serveClient onReadable
  split
  · rfl
  · split
    · split
      · rfl
      · dsimp only
        split <;> rfl
    · rfl

/-- The vector of entries plays no part in serving one of them. -/
theorem serveClient_setPollFds (p : PollFd) (pollFds : List PollFd) (s : TcpServer) :
    { s with pollFds := pollFds }.serveClient ctx env round p =
      ({ (s.serveClient ctx env round p).1 with pollFds := pollFds },
        (s.serveClient ctx env round p).2) := by
  unfold serveClient onReadable
  split
  · rfl
  · split
    · split
      · rfl
      · have hsession : ({ s with pollFds := pollFds } : TcpServer).session p.fd =
            s.session p.fd := rfl
        simp only [hsession]
        split <;> rfl
    · rfl

theorem sweep_setPollFds (kept todo pollFds : List PollFd) (s : TcpServer) :
    sweep ctx env round kept todo { s with pollFds := pollFds } =
      sweep ctx env round kept todo s := by
  induction todo generalizing kept pollFds s with
  | nil => rfl
  | cons p todo ih =>
    simp only [sweep, serveClient_setPollFds, ih]

/-- **Every entry is served once, in order.** -/
theorem ioLoop_eq_sweep (kept todo : List PollFd) (fuel : Nat) (s : TcpServer)
    (hs : s.pollFds = kept ++ todo) (hfuel : todo.length ≤ fuel) :
    s.ioLoop ctx env round fuel kept.length = sweep ctx env round kept todo s := by
  induction todo generalizing kept fuel s with
  | nil =>
    rw [List.append_nil] at hs
    have hend : s.pollFds[kept.length]? = none := by rw [hs]; simp
    have hsweep : sweep ctx env round kept [] s = s := by rw [sweep, ← hs]
    rw [hsweep]
    cases fuel with
    | zero => rfl
    | succ fuel => rw [ioLoop, hend]
  | cons p todo ih =>
    obtain ⟨fuel, rfl⟩ : ∃ m, fuel = m + 1 := by
      apply Nat.exists_eq_succ_of_ne_zero
      rintro rfl
      exact absurd hfuel (Nat.not_succ_le_zero _)
    have hlen : todo.length ≤ fuel := by simpa using hfuel
    have hat : s.pollFds[kept.length]? = some p := by rw [hs]; simp
    have hpoll : (s.serveClient ctx env round p).1.pollFds = kept ++ p :: todo := by
      rw [serveClient_pollFds, hs]
    simp only [ioLoop, hat, sweep]
    split
    · have herase : (kept ++ p :: todo).eraseIdx kept.length = kept ++ todo := by
        rw [List.eraseIdx_append_of_length_le (Nat.le_refl _)]
        simp
      rw [hpoll, herase, ih kept fuel _ rfl hlen, sweep_setPollFds]
    · have hnext := ih (kept ++ [p]) fuel (s.serveClient ctx env round p).1
        (by rw [hpoll]; simp) hlen
      rw [List.length_append, List.length_singleton] at hnext
      exact hnext

theorem turn_eq_sweep (s : TcpServer) :
    s.turn ctx env round =
      sweep ctx env round [] ((s.poll round).acceptClients ctx round).pollFds
        ((s.poll round).acceptClients ctx round) :=
  ioLoop_eq_sweep [] _ _ _ rfl (Nat.le_refl _)

end TcpServer

end KeyValueDb
