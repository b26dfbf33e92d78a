/-
# The descriptors of the event loop

The trace of a run is also a run of the table of open descriptors: `accept` adds one, `close`
takes one away.  No step of it reads or closes a descriptor that is not in the table, and the
entries and the sessions of the server are the table at every moment
(`descriptors_disciplined`).

A turn of the loop is fair: it deals with every entry once, in the order of the entries, by what
`poll` and `recv` say of its descriptor alone (`turn_fair`).
-/
import KeyValueDb.Server.Serial

namespace KeyValueDb

open Lib

/-! ## 1. The table of open descriptors -/

/-- What an event makes of the descriptors that are open. -/
def table (fds : List Fd) : Event → List Fd
  | .accepted fd => fd :: fds
  | .read _ _ _ => fds
  | .closed fd => fds.erase fd

/-- A descriptor is accepted while it is not open, read and closed while it is. -/
def Legal (fds : List Fd) : Event → Prop
  | .accepted fd => fd ∉ fds
  | .read fd _ _ => fd ∈ fds
  | .closed fd => fd ∈ fds

/-- The trace of the server is a legal run of the table, which ends in its entries. -/
structure Disciplined (pollFds : List PollFd) (s : TcpServer) : Prop where
  legal : Steps table Legal s.trace []
  perm : (s.trace.foldl table []).Perm (pollFds.map PollFd.fd)

section Step

variable {ctx : ServerCtx} {env : Nat → Env} {round : Round} {pollFds : List PollFd}
  {s s' : TcpServer} {p : PollFd} {kept todo : List PollFd}

/-- One more event. -/
theorem Disciplined.event (h : Disciplined pollFds s) {e : Event}
    (htrace : s'.trace = s.trace ++ [e]) (hlegal : Legal (s.trace.foldl table []) e)
    {pollFds' : List PollFd}
    (hperm : (table (s.trace.foldl table []) e).Perm (pollFds'.map PollFd.fd)) :
    Disciplined pollFds' s' := by
  constructor
  · rw [htrace, steps_append]
    exact ⟨h.legal, hlegal, trivial⟩
  · rw [htrace, List.foldl_append]
    exact hperm

theorem Disciplined.acceptClient (h : Disciplined s.pollFds s) {fd : Fd}
    (hfd : fd ∉ s.pollFds.map PollFd.fd) :
    Disciplined (s.acceptClient ctx fd).pollFds (s.acceptClient ctx fd) := by
  refine h.event (e := .accepted fd) rfl (fun hmem => hfd (h.perm.mem_iff.mp hmem)) ?_
  simp only [table, TcpServer.acceptClient, List.map_append, List.map_cons, List.map_nil]
  exact (h.perm.cons fd).trans (List.perm_append_singleton fd _).symm

theorem Disciplined.disconnect (h : Disciplined (kept ++ p :: todo) s) :
    Disciplined (kept ++ todo) (s.disconnect p.fd) := by
  have hperm : (s.trace.foldl table []).Perm (p.fd :: (kept ++ todo).map PollFd.fd) :=
    h.perm.trans (List.perm_middle.map PollFd.fd)
  refine h.event (e := .closed p.fd) rfl (hperm.mem_iff.mpr List.mem_cons_self) ?_
  have herase := hperm.erase p.fd
  rwa [List.erase_cons_head] at herase

theorem Disciplined.onReadable (h : Disciplined (kept ++ p :: todo) s) (chunk : Bytes) :
    Disciplined
      (if (s.onReadable ctx env p.fd chunk).2 then kept ++ todo else kept ++ p :: todo)
      (s.onReadable ctx env p.fd chunk).1 := by
  set r := onChunk ctx env chunk (s.session p.fd) s.db s.served with hr
  have hmem : p.fd ∈ s.trace.foldl table [] := h.perm.mem_iff.mpr (by simp)
  have hread : Disciplined (kept ++ p :: todo)
      { s with
        sessions := s.sessions.insert p.fd r.session
        db := r.db
        served := r.served
        trace := s.trace ++ [.read p.fd chunk r.executions] } :=
    h.event (e := .read p.fd chunk r.executions) rfl hmem h.perm
  unfold TcpServer.onReadable
  rw [← hr]
  dsimp only
  split
  · rw [if_pos rfl]
    exact hread.disconnect
  · rw [if_neg Bool.false_ne_true]
    exact hread

theorem Disciplined.serveClient (ctx : ServerCtx) (env : Nat → Env) (round : Round)
    (h : Disciplined (kept ++ p :: todo) s) :
    Disciplined (if (s.serveClient ctx env round p).2 then kept ++ todo else kept ++ p :: todo)
      (s.serveClient ctx env round p).1 := by
  unfold TcpServer.serveClient
  split
  · exact h.disconnect
  · split
    · split
      · exact h.disconnect
      · exact h.onReadable (round.recv p.fd)
    · exact h

theorem Disciplined.sweep (h : Disciplined (kept ++ todo) s) :
    Disciplined (TcpServer.sweep ctx env round kept todo s).pollFds
      (TcpServer.sweep ctx env round kept todo s) := by
  induction todo generalizing kept s with
  | nil =>
    rw [List.append_nil] at h
    exact ⟨h.legal, h.perm⟩
  | cons p todo ih =>
    have hserve := h.serveClient ctx env round
    simp only [TcpServer.sweep]
    split
    · rename_i hclosed
      rw [if_pos hclosed] at hserve
      exact ih hserve
    · rename_i hclosed
      rw [if_neg hclosed] at hserve
      exact ih (by simpa using hserve)

theorem Disciplined.acceptClients (h : Disciplined s.pollFds s) (hsound : Sound ctx s.pollFds s)
    (hfresh : FreshAccepts s round) :
    Disciplined (s.acceptClients ctx round).pollFds (s.acceptClients ctx round) := by
  unfold TcpServer.acceptClients
  split
  · obtain ⟨hnodup, hnew⟩ := hfresh
    generalize round.accepted = fds at hnodup hnew
    induction fds generalizing s with
    | nil => exact h
    | cons fd fds ih =>
      rw [List.nodup_cons] at hnodup
      have hfd := hnew fd List.mem_cons_self
      refine ih (h.acceptClient fun hmem => hfd ((hsound.keys fd).mpr hmem))
        (hsound.acceptClient hfd) hnodup.2 fun fd' hfd' hmem => ?_
      simp only [TcpServer.acceptClient, AList.mem_insert] at hmem
      rcases hmem with rfl | hmem
      · exact hnodup.1 hfd'
      · exact hnew fd' (List.mem_cons_of_mem fd hfd') hmem
  · exact h

/-- **One turn of the event loop.** -/
theorem Disciplined.turn (h : Disciplined s.pollFds s) (hsound : Sound ctx s.pollFds s)
    (hfresh : FreshAccepts s round) :
    Disciplined (s.turn ctx env round).pollFds (s.turn ctx env round) := by
  have hpoll : Disciplined (s.poll round).pollFds (s.poll round) := by
    refine ⟨h.legal, ?_⟩
    simpa [TcpServer.poll, Function.comp_def] using h.perm
  have haccept : Disciplined ([] ++ ((s.poll round).acceptClients ctx round).pollFds)
      ((s.poll round).acceptClients ctx round) :=
    hpoll.acceptClients (hsound.poll round) hfresh
  rw [TcpServer.turn_eq_sweep]
  exact haccept.sweep

end Step

/-- What a state of the server owes to its descriptors: the trace is legal, and those that are
open have one entry and one session each. -/
structure Descriptors (s : TcpServer) : Prop where
  legal : Steps table Legal s.trace []
  nodup : (s.trace.foldl table []).Nodup
  entries : (s.trace.foldl table []).Perm (s.pollFds.map PollFd.fd)
  sessions : ∀ fd, fd ∈ s.sessions ↔ fd ∈ s.trace.foldl table []

theorem disciplined_run {ctx : ServerCtx} {env : Nat → Env} {rounds : List Round} {db : Db}
    (hfresh : Steps (TcpServer.turn ctx env) FreshAccepts rounds (.start db)) :
    Always (TcpServer.turn ctx env)
      (fun s => Disciplined s.pollFds s ∧ Sound ctx s.pollFds s) rounds (.start db) :=
  always_of_steps
    (fun _ _ h hround => ⟨h.1.turn h.2 hround, h.2.turn env hround⟩)
    ⟨⟨trivial, List.Perm.refl _⟩, sound_start ctx db⟩ hfresh

/-- **No descriptor is used that is not open**, in every state of every run of the event loop:
none is read or closed after it was closed, none is closed twice, and none that is open is
forgotten. -/
theorem descriptors_disciplined {ctx : ServerCtx} {env : Nat → Env} {rounds : List Round}
    {db : Db} (hfresh : Steps (TcpServer.turn ctx env) FreshAccepts rounds (.start db)) :
    Always (TcpServer.turn ctx env) Descriptors rounds (.start db) := by
  apply (disciplined_run hfresh).mono
  rintro s ⟨h, hsound⟩
  refine ⟨h.legal, h.perm.nodup_iff.mpr hsound.nodup, h.perm, fun fd => ?_⟩
  rw [hsound.keys, h.perm.mem_iff]

/-- A descriptor that is closed and accepted again. -/
theorem descriptors_disciplined_again :
    let idle : Revents := ⟨false, false, false, false⟩
    let hangup : Revents := ⟨true, false, true, false⟩
    let rounds : List Round :=
      [⟨fun _ => idle, true, [5], fun _ => [], fun _ => by decide⟩,
        ⟨fun _ => hangup, false, [], fun _ => bytes "PING\n", fun _ => by decide⟩,
        ⟨fun _ => idle, true, [5], fun _ => [], fun _ => by decide⟩]
    Always (TcpServer.turn ⟨List.length, [], 8080, 4⟩ fun _ => ⟨0, .plain, .success⟩)
      Descriptors rounds (.start ⟨.empty, none, ⟨0, 0, 0, 0, 0, 0, 0, 0⟩⟩) :=
  descriptors_disciplined ⟨⟨List.nodup_singleton 5, fun fd _ => AList.notMem_empty fd⟩,
    ⟨List.nodup_nil, fun _ h => absurd h List.not_mem_nil⟩,
    ⟨List.nodup_singleton 5, by decide⟩, trivial⟩

/-! ## 2. Fairness -/

def Revents.failed (r : Revents) : Bool := r.pollerr || r.pollhup || r.pollnval

/-- What a turn does for a descriptor with these events, on which these bytes have come: what it
adds to the trace. -/
inductive Dealt (ctx : ServerCtx) (revents : Revents) (chunk : Bytes) (fd : Fd) :
    List Event → Prop
  | failed (h : revents.failed = true) : Dealt ctx revents chunk fd [.closed fd]
  | ended (h : revents.failed = false) (hin : revents.pollin = true) (hchunk : chunk = []) :
    Dealt ctx revents chunk fd [.closed fd]
  | read (h : revents.failed = false) (hin : revents.pollin = true) (hchunk : chunk ≠ [])
      {xs : List Execution} (hopen : ∀ x ∈ xs, x.closes ctx = false) :
    Dealt ctx revents chunk fd [.read fd chunk xs]
  | quit (h : revents.failed = false) (hin : revents.pollin = true) (hchunk : chunk ≠ [])
      {xs : List Execution} {x : Execution} (hopen : ∀ x ∈ xs, x.closes ctx = false)
      (hclose : x.closes ctx = true) :
    Dealt ctx revents chunk fd [.read fd chunk (xs ++ [x]), .closed fd]
  | quiet (h : revents.failed = false) (hin : revents.pollin = false) :
    Dealt ctx revents chunk fd []

section Fair

variable {ctx : ServerCtx} {env : Nat → Env} {round : Round} {s : TcpServer}

theorem dealt_serveClient (ctx : ServerCtx) (env : Nat → Env) (round : Round) (p : PollFd)
    (s : TcpServer) :
    ∃ events, Dealt ctx p.revents (round.recv p.fd) p.fd events ∧
      (s.serveClient ctx env round p).1.trace = s.trace ++ events := by
  unfold TcpServer.serveClient
  split
  · rename_i hfailed
    exact ⟨_, .failed hfailed, rfl⟩
  · rename_i hfailed
    rw [Bool.not_eq_true] at hfailed
    split
    · rename_i hin
      split
      · rename_i hchunk
        exact ⟨_, .ended hfailed hin hchunk, rfl⟩
      · rename_i hchunk
        obtain ⟨hran, -, -⟩ :=
          onChunk_spec ctx env (round.recv p.fd) (s.session p.fd) s.db s.served
        unfold TcpServer.onReadable
        dsimp only
        split
        · rename_i hclosed
          rw [hclosed] at hran
          obtain ⟨init, last, hexecutions, hlast, hinit⟩ := hran.last
          refine ⟨_, .quit hfailed hin hchunk hinit hlast, ?_⟩
          simp only [TcpServer.disconnect, hexecutions, List.append_assoc, List.cons_append,
            List.nil_append]
        · rename_i hclosed
          rw [Bool.not_eq_true] at hclosed
          rw [hclosed] at hran
          exact ⟨_, .read hfailed hin hchunk hran.all.2, rfl⟩
    · rename_i hin
      rw [Bool.not_eq_true] at hin
      exact ⟨_, .quiet hfailed hin, (List.append_nil _).symm⟩

theorem dealt_sweep (ctx : ServerCtx) (env : Nat → Env) (round : Round)
    (kept todo : List PollFd) (s : TcpServer) :
    ∃ dealt,
      List.Forall₂ (fun p => Dealt ctx p.revents (round.recv p.fd) p.fd) todo dealt ∧
      (TcpServer.sweep ctx env round kept todo s).trace = s.trace ++ dealt.flatten := by
  induction todo generalizing kept s with
  | nil => exact ⟨[], .nil, (List.append_nil _).symm⟩
  | cons p todo ih =>
    obtain ⟨events, hevents, htrace⟩ := dealt_serveClient ctx env round p s
    have hrest := fun kept => ih kept (s.serveClient ctx env round p).1
    simp only [TcpServer.sweep]
    split
    · obtain ⟨dealt, hdealt, hend⟩ := hrest kept
      refine ⟨events :: dealt, .cons hevents hdealt, ?_⟩
      rw [hend, htrace, List.flatten_cons, List.append_assoc]
    · obtain ⟨dealt, hdealt, hend⟩ := hrest (kept ++ [p])
      refine ⟨events :: dealt, .cons hevents hdealt, ?_⟩
      rw [hend, htrace, List.flatten_cons, List.append_assoc]

/-- The connections a turn accepts. -/
def Round.arrivals (round : Round) : List Fd := if round.listening then round.accepted else []

theorem acceptClients_eq (ctx : ServerCtx) (round : Round) (s : TcpServer) :
    (s.acceptClients ctx round).pollFds = s.pollFds ++ round.arrivals.map
        (fun fd => ⟨fd, ⟨false, false, false, false⟩⟩) ∧
      (s.acceptClients ctx round).trace = s.trace ++ round.arrivals.map Event.accepted := by
  unfold TcpServer.acceptClients Round.arrivals
  split
  · generalize round.accepted = fds
    induction fds generalizing s with
    | nil => simp
    | cons fd fds ih =>
      obtain ⟨hpollFds, htrace⟩ := ih (s.acceptClient ctx fd)
      rw [List.foldl_cons, hpollFds, htrace]
      simp [TcpServer.acceptClient]
  · simp

/-- Nothing is done for an entry without events. -/
theorem flatten_dealt_idle {fds : List Fd} {dealt : List (List Event)}
    (h : List.Forall₂ (fun p : PollFd => Dealt ctx p.revents (round.recv p.fd) p.fd)
      (fds.map fun fd => ⟨fd, ⟨false, false, false, false⟩⟩) dealt) : dealt.flatten = [] := by
  induction fds generalizing dealt with
  | nil =>
    cases h
    rfl
  | cons fd fds ih =>
    rw [List.map_cons] at h
    cases h with
    | cons hevents hrest =>
      rw [List.flatten_cons, ih hrest, List.append_nil]
      cases hevents with
      | failed hfailed => exact absurd hfailed Bool.false_ne_true
      | ended _ hin _ => exact absurd hin Bool.false_ne_true
      | read _ hin _ _ => exact absurd hin Bool.false_ne_true
      | quit _ hin _ _ _ => exact absurd hin Bool.false_ne_true
      | quiet _ _ => rfl

/-- **A turn deals with every client once**, in the order of the entries, after it has accepted
those that wait: it reads one chunk of each that has something to say, whatever the others do. -/
theorem turn_fair (ctx : ServerCtx) (env : Nat → Env) (round : Round) (s : TcpServer) :
    ∃ dealt,
      List.Forall₂ (fun fd => Dealt ctx (round.revents fd) (round.recv fd) fd)
        (s.pollFds.map PollFd.fd) dealt ∧
      (s.turn ctx env round).trace =
        s.trace ++ round.arrivals.map Event.accepted ++ dealt.flatten := by
  obtain ⟨hpollFds, htrace⟩ := acceptClients_eq ctx round (s.poll round)
  obtain ⟨dealt, hdealt, hend⟩ := dealt_sweep ctx env round []
    ((s.poll round).acceptClients ctx round).pollFds ((s.poll round).acceptClients ctx round)
  rw [← TcpServer.turn_eq_sweep, htrace] at hend
  rw [hpollFds] at hdealt
  have hold := (List.forall₂_take_append _ _ _ hdealt.flip).flip
  have hnew := (List.forall₂_drop_append _ _ _ hdealt.flip).flip
  refine ⟨dealt.take (s.poll round).pollFds.length, ?_, ?_⟩
  · exact List.forall₂_map_left_iff.mpr (List.forall₂_map_left_iff.mp hold)
  · have hflat : dealt.flatten = (dealt.take (s.poll round).pollFds.length).flatten := by
      conv_lhs => rw [← List.take_append_drop (s.poll round).pollFds.length dealt]
      rw [List.flatten_append, flatten_dealt_idle hnew, List.append_nil]
    rw [hend, hflat]
    rfl

end Fair

end KeyValueDb
