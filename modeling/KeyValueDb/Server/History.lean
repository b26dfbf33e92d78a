/-
# Connections, and what becomes of their bytes

A descriptor names one connection after another, so the trace is read as a list of
connections, the newest first (`connections`): what each received, what was executed of it,
and whether it is still open.  `accept` never returns a descriptor that is open.  That what a
connection received is what `recv` delivered for it is `streams_grow` in `Server/Delivered.lean`.

The invariant (`Sound`) ties every open session to the newest connection of its descriptor.
From it: the lines executed for a connection are those of its own stream, in order, up to and
including the first whose result asks to close, however the stream was cut into reads and
whatever the other connections did in between (`connection_lines`).
-/
import KeyValueDb.Lib.Runs
import KeyValueDb.Server.TcpServer

namespace KeyValueDb

open Lib

/-! ## 1. Connections -/

/-- A connection since its `accept`. -/
structure Connection where
  fd : Fd
  received : Bytes
  executed : List Execution
  isOpen : Bool

/-- The newest connection of a descriptor. -/
def newest (fd : Fd) (cs : List Connection) : Option Connection := cs.find? fun c => c.fd = fd

/-- Change the newest connection of a descriptor. -/
def updateNewest (fd : Fd) (f : Connection → Connection) : List Connection → List Connection
  | [] => []
  | c :: cs => if c.fd = fd then f c :: cs else c :: updateNewest fd f cs

def Connection.read (chunk : Bytes) (executions : List Execution) (c : Connection) :
    Connection :=
  { c with received := c.received ++ chunk, executed := c.executed ++ executions }

def Connection.close (c : Connection) : Connection := { c with isOpen := false }

def record (cs : List Connection) : Event → List Connection
  | .accepted fd => ⟨fd, [], [], true⟩ :: cs
  | .read fd chunk executions => updateNewest fd (Connection.read chunk executions) cs
  | .closed fd => updateNewest fd Connection.close cs

/-- The connections of a server, the newest first. -/
def TcpServer.connections (s : TcpServer) : List Connection := s.trace.foldl record []

section Newest

variable {fd fd' : Fd} {f : Connection → Connection} {cs : List Connection} {c : Connection}

theorem newest_update (hf : ∀ c, (f c).fd = c.fd) (h : newest fd cs = some c) :
    newest fd (updateNewest fd f cs) = some (f c) := by
  induction cs with
  | nil => exact absurd h (by simp [newest])
  | cons d ds ih =>
    simp only [newest, List.find?_cons, updateNewest] at h ih ⊢
    by_cases hd : d.fd = fd
    · simp only [hd, decide_true] at h
      obtain rfl := Option.some.inj h
      simp [hd, hf]
    · simp only [hd, decide_false] at h
      simp [hd, ih h]

theorem newest_update_ne (hf : ∀ c, (f c).fd = c.fd) (hne : fd' ≠ fd) :
    newest fd' (updateNewest fd f cs) = newest fd' cs := by
  induction cs with
  | nil => rfl
  | cons d ds ih =>
    simp only [newest, updateNewest] at ih ⊢
    by_cases hd : d.fd = fd
    · simp [hd, hf, hne.symm]
    · rw [if_neg hd, List.find?_cons, List.find?_cons, ih]

theorem mem_updateNewest (h : c ∈ updateNewest fd f cs) :
    c ∈ cs ∨ ∃ d, newest fd cs = some d ∧ c = f d := by
  induction cs with
  | nil => exact absurd h List.not_mem_nil
  | cons d ds ih =>
    simp only [updateNewest] at h
    by_cases hd : d.fd = fd
    · rw [if_pos hd] at h
      rcases List.mem_cons.mp h with rfl | h
      · exact Or.inr ⟨d, by simp [newest, hd], rfl⟩
      · exact Or.inl (List.mem_cons_of_mem d h)
    · rw [if_neg hd] at h
      rcases List.mem_cons.mp h with rfl | h
      · exact Or.inl List.mem_cons_self
      · rcases ih h with h | ⟨e, he, heq⟩
        · exact Or.inl (List.mem_cons_of_mem d h)
        · exact Or.inr ⟨e, by simpa [newest, hd] using he, heq⟩

end Newest

/-! ## 2. The invariant -/

/-- What was executed of a connection is a run over its lines, each execution under the flag
that the one before it left. -/
def Connection.Orderly (ctx : ServerCtx) (c : Connection) : Prop :=
  ∃ closed flag, RanThrough ctx c.executed (splitLines lf c.received).1 closed ∧
    Threaded ctx (decide (ctx.requirepass = [])) c.executed flag

/-- The session of a descriptor, if it has one, tracks its newest connection, which is open. -/
def Tracked (ctx : ServerCtx) (s : TcpServer) (fd : Fd) : Prop :=
  ∀ session, s.sessions.lookup fd = some session →
    ∃ c, newest fd s.connections = some c ∧ c.isOpen = true ∧
      Tracks ctx c.received c.executed session

/-- The server with the entries `pollFds`, one for each session. -/
structure Arranged (ctx : ServerCtx) (pollFds : List PollFd) (s : TcpServer) : Prop where
  nodup : (pollFds.map PollFd.fd).Nodup
  keys : ∀ fd, fd ∈ s.sessions ↔ fd ∈ pollFds.map PollFd.fd
  orderly : ∀ c ∈ s.connections, c.Orderly ctx

/-- ...and every session tracks its connection. -/
structure Sound (ctx : ServerCtx) (pollFds : List PollFd) (s : TcpServer) : Prop
    extends Arranged ctx pollFds s where
  tracks : ∀ fd, Tracked ctx s fd

/-- `accept` returns descriptors that are not open, each once. -/
def FreshAccepts (s : TcpServer) (round : Round) : Prop :=
  round.accepted.Nodup ∧ ∀ fd ∈ round.accepted, fd ∉ s.sessions

section Step

variable {ctx : ServerCtx} {env : Nat → Env} {round : Round} {pollFds : List PollFd}
  {s : TcpServer} {p : PollFd} {kept todo : List PollFd}

theorem sound_start (ctx : ServerCtx) (db : Db) : Sound ctx [] (.start db) where
  nodup := List.nodup_nil
  keys fd := ⟨fun h => absurd h (AList.notMem_empty fd), fun h => absurd h List.not_mem_nil⟩
  orderly c h := absurd h List.not_mem_nil
  tracks fd session h := absurd h (by simp [TcpServer.start])

theorem connections_append (s : TcpServer) (e : Event) (pollFds : List PollFd)
    (sessions : AList fun _ : Fd => ClientSession) (db : Db) (served : Nat) :
    TcpServer.connections ⟨pollFds, sessions, db, served, s.trace ++ [e]⟩ =
      record s.connections e := by
  simp [TcpServer.connections]

/-- A new connection on a descriptor that is not open. -/
theorem Sound.acceptClient (h : Sound ctx s.pollFds s) {fd : Fd} (hfd : fd ∉ s.sessions) :
    Sound ctx (s.acceptClient ctx fd).pollFds (s.acceptClient ctx fd) := by
  have hconns : (s.acceptClient ctx fd).connections = ⟨fd, [], [], true⟩ :: s.connections :=
    connections_append s (.accepted fd) _ _ _ _
  have hnew : fd ∉ s.pollFds.map PollFd.fd := fun hmem => hfd ((h.keys fd).mpr hmem)
  refine ⟨⟨?_, ?_, ?_⟩, ?_⟩
  · simp only [TcpServer.acceptClient, List.map_append, List.map_cons, List.map_nil]
    exact List.nodup_append.mpr ⟨h.nodup, List.nodup_singleton _, fun a ha b hb => by
      rw [List.mem_singleton] at hb
      rintro rfl
      exact hnew (hb ▸ ha)⟩
  · intro fd'
    simp only [TcpServer.acceptClient, AList.mem_insert, h.keys, List.map_append, List.map_cons,
      List.map_nil, List.mem_append, List.mem_singleton]
    exact or_comm
  · intro c hc
    rw [hconns] at hc
    rcases List.mem_cons.mp hc with rfl | hc
    · exact ⟨false, _, .nil, .nil _⟩
    · exact h.orderly c hc
  · intro fd' session hlookup
    rw [hconns]
    by_cases hne : fd' = fd
    · subst hne
      simp only [TcpServer.acceptClient, AList.lookup_insert, Option.some.injEq] at hlookup
      exact ⟨⟨fd', [], [], true⟩, by simp [newest], rfl, hlookup ▸ tracks_fresh ctx fd'⟩
    · simp only [TcpServer.acceptClient, AList.lookup_insert_ne hne] at hlookup
      obtain ⟨c, hc, hopen, htracks⟩ := h.tracks fd' session hlookup
      exact ⟨c, by simpa [newest, Ne.symm hne] using hc, hopen, htracks⟩

theorem Sound.acceptClients (h : Sound ctx s.pollFds s) (hfresh : FreshAccepts s round) :
    Sound ctx (s.acceptClients ctx round).pollFds (s.acceptClients ctx round) := by
  unfold TcpServer.acceptClients
  split
  · obtain ⟨hnodup, hnew⟩ := hfresh
    generalize round.accepted = fds at hnodup hnew
    induction fds generalizing s with
    | nil => exact h
    | cons fd fds ih =>
      rw [List.nodup_cons] at hnodup
      apply ih (h.acceptClient (hnew fd List.mem_cons_self)) hnodup.2
      intro fd' hfd' hmem
      simp only [TcpServer.acceptClient, AList.mem_insert] at hmem
      rcases hmem with rfl | hmem
      · exact hnodup.1 hfd'
      · exact hnew fd' (List.mem_cons_of_mem fd hfd') hmem
  · exact h

/-- The end of a connection that has an entry. -/
theorem Arranged.disconnect (h : Arranged ctx (kept ++ p :: todo) s)
    (htracks : ∀ fd, fd ≠ p.fd → Tracked ctx s fd) :
    Sound ctx (kept ++ todo) (s.disconnect p.fd) := by
  have hconns : (s.disconnect p.fd).connections =
      updateNewest p.fd Connection.close s.connections :=
    connections_append s (.closed p.fd) _ _ _ _
  have hperm : (kept ++ p :: todo).Perm (p :: (kept ++ todo)) := List.perm_middle
  have hnodup := ((hperm.map PollFd.fd).nodup_iff).mp h.nodup
  rw [List.map_cons, List.nodup_cons] at hnodup
  refine ⟨⟨hnodup.2, ?_, ?_⟩, ?_⟩
  · intro fd
    have hkeys := h.keys fd
    rw [(hperm.map PollFd.fd).mem_iff, List.map_cons, List.mem_cons] at hkeys
    simp only [TcpServer.disconnect, AList.mem_erase, hkeys]
    constructor
    · rintro ⟨hne, heq | hmem⟩
      · exact absurd heq hne
      · exact hmem
    · intro hmem
      exact ⟨fun heq => hnodup.1 (heq ▸ hmem), Or.inr hmem⟩
  · intro c hc
    rw [hconns] at hc
    rcases mem_updateNewest hc with hc | ⟨d, hd, rfl⟩
    · exact h.orderly c hc
    · exact h.orderly d (List.mem_of_find?_eq_some hd)
  · intro fd session hlookup
    have hne : fd ≠ p.fd := by
      rintro rfl
      simp [TcpServer.disconnect] at hlookup
    simp only [TcpServer.disconnect, AList.lookup_erase_ne hne] at hlookup
    rw [hconns, newest_update_ne (f := Connection.close) (fun _ => rfl) hne]
    exact htracks fd hne session hlookup

/-- A read on a connection that has an entry. -/
theorem Sound.onReadable (h : Sound ctx (kept ++ p :: todo) s) (env : Nat → Env)
    (chunk : Bytes) :
    Sound ctx (if (s.onReadable ctx env p.fd chunk).2 then kept ++ todo else kept ++ p :: todo)
      (s.onReadable ctx env p.fd chunk).1 := by
  have hmem : p.fd ∈ s.sessions := (h.keys p.fd).mpr (by simp)
  obtain ⟨session, hlookup⟩ := Option.isSome_iff_exists.mp (AList.lookup_isSome.mpr hmem)
  obtain ⟨c, hc, hopen, htracks⟩ := h.tracks p.fd session hlookup
  have hsession : s.session p.fd = session := by simp [TcpServer.session, hlookup]
  unfold TcpServer.onReadable
  rw [hsession]
  obtain ⟨hran, hthread, hnext⟩ := htracks.onChunk env chunk s.db s.served
  set r := onChunk ctx env chunk session s.db s.served
  dsimp only
  set s' : TcpServer :=
    { s with
      sessions := s.sessions.insert p.fd r.session
      db := r.db
      served := r.served
      trace := s.trace ++ [.read p.fd chunk r.executions] } with hs'
  have hconns : s'.connections =
      updateNewest p.fd (Connection.read chunk r.executions) s.connections :=
    connections_append s (.read p.fd chunk r.executions) _ _ _ _
  have harranged : Arranged ctx (kept ++ p :: todo) s' := by
    refine ⟨h.nodup, ?_, ?_⟩
    · intro fd
      rw [hs']
      simp only [AList.mem_insert, h.keys]
      apply or_iff_right_of_imp
      intro heq
      simp [heq]
    · intro d hd
      rw [hconns] at hd
      rcases mem_updateNewest hd with hd | ⟨d', hd', rfl⟩
      · exact h.orderly d hd
      · obtain rfl := Option.some.inj (hd'.symm.trans hc)
        exact ⟨_, _, hran, hthread⟩
  have hothers : ∀ fd, fd ≠ p.fd → Tracked ctx s' fd := by
    intro fd hne session' hlookup'
    simp only [hs', AList.lookup_insert_ne hne] at hlookup'
    rw [hconns, newest_update_ne (f := Connection.read chunk r.executions) (fun _ => rfl) hne]
    exact h.tracks fd session' hlookup'
  by_cases hclosed : r.clientClosed = true
  · rw [if_pos hclosed]
    exact harranged.disconnect hothers
  · rw [if_neg hclosed]
    refine ⟨harranged, ?_⟩
    intro fd
    by_cases hne : fd = p.fd
    · subst hne
      intro session' hlookup'
      simp only [AList.lookup_insert, Option.some.injEq] at hlookup'
      rw [hconns, ← hlookup']
      exact ⟨_, newest_update (f := Connection.read chunk r.executions) (fun _ => rfl) hc, hopen,
        hnext (by simpa using hclosed)⟩
    · exact hothers fd hne

/-- One entry. -/
theorem Sound.serveClient (h : Sound ctx (kept ++ p :: todo) s) (env : Nat → Env)
    (round : Round) :
    Sound ctx (if (s.serveClient ctx env round p).2 then kept ++ todo else kept ++ p :: todo)
      (s.serveClient ctx env round p).1 := by
  have hend := h.toArranged.disconnect fun fd _ => h.tracks fd
  unfold TcpServer.serveClient
  split
  · exact hend
  · split
    · split
      · exact hend
      · exact h.onReadable env (round.recv p.fd)
    · exact h

theorem Sound.setPollFds (h : Sound ctx pollFds s) (pollFds' : List PollFd) :
    Sound ctx pollFds { s with pollFds := pollFds' } :=
  ⟨⟨h.nodup, h.keys, h.orderly⟩, h.tracks⟩

/-- All entries. -/
theorem Sound.sweep (h : Sound ctx (kept ++ todo) s) (env : Nat → Env) (round : Round) :
    Sound ctx (TcpServer.sweep ctx env round kept todo s).pollFds
      (TcpServer.sweep ctx env round kept todo s) := by
  induction todo generalizing kept s with
  | nil =>
    rw [List.append_nil] at h
    exact h.setPollFds kept
  | cons p todo ih =>
    have hserve := h.serveClient env round
    simp only [TcpServer.sweep]
    split
    · rename_i hclosed
      rw [if_pos hclosed] at hserve
      exact ih hserve
    · rename_i hclosed
      rw [if_neg hclosed] at hserve
      exact ih (by simpa using hserve)

theorem Sound.poll (h : Sound ctx s.pollFds s) (round : Round) :
    Sound ctx (s.poll round).pollFds (s.poll round) := by
  have hfds : (s.poll round).pollFds.map PollFd.fd = s.pollFds.map PollFd.fd := by
    simp [TcpServer.poll, Function.comp_def]
  exact ⟨⟨by rw [hfds]; exact h.nodup, fun fd => by rw [hfds]; exact h.keys fd, h.orderly⟩,
    h.tracks⟩

/-- **One turn of the event loop.** -/
theorem Sound.turn (h : Sound ctx s.pollFds s) (env : Nat → Env) (hfresh : FreshAccepts s round) :
    Sound ctx (s.turn ctx env round).pollFds (s.turn ctx env round) := by
  rw [TcpServer.turn_eq_sweep]
  have haccept : Sound ctx ([] ++ ((s.poll round).acceptClients ctx round).pollFds)
      ((s.poll round).acceptClients ctx round) := (h.poll round).acceptClients hfresh
  exact haccept.sweep env round

end Step

/-- **Every run of the event loop.** -/
theorem sound_run {ctx : ServerCtx} {env : Nat → Env} {rounds : List Round} {db : Db}
    (hfresh : Steps (TcpServer.turn ctx env) FreshAccepts rounds (.start db)) :
    Always (TcpServer.turn ctx env) (fun s => Sound ctx s.pollFds s) rounds (.start db) :=
  always_of_steps (fun _ _ h hround => h.turn env hround) (sound_start ctx db) hfresh

/-! ## 3. The lines of a connection -/

/-- What a state of the server owes to the streams of its connections.  For every connection
the executions are a run over the lines of its stream; for an open one they are all of them,
and the buffer of its session is the unterminated tail. -/
structure LinesInOrder (ctx : ServerCtx) (s : TcpServer) : Prop where
  connection : ∀ c ∈ s.connections, ∃ closed,
    RanThrough ctx c.executed (splitLines lf c.received).1 closed
  session : ∀ fd session, s.sessions.lookup fd = some session →
    ∃ c, newest fd s.connections = some c ∧ c.isOpen = true ∧
      RanThrough ctx c.executed (splitLines lf c.received).1 false ∧
      session.buffer = (splitLines lf c.received).2

/-- **Chunking and interleaving do not matter.**  In every state of every run of the event
loop, for any number of connections: the lines executed for a connection are the lines of its
own stream, in order, up to and including the first whose result asks to close.  The stream is
what `recv` delivered for it (`streams_grow`). -/
theorem connection_lines {ctx : ServerCtx} {env : Nat → Env} {rounds : List Round} {db : Db}
    (hfresh : Steps (TcpServer.turn ctx env) FreshAccepts rounds (.start db)) :
    Always (TcpServer.turn ctx env) (LinesInOrder ctx) rounds (.start db) := by
  apply (sound_run hfresh).mono
  intro s h
  constructor
  · intro c hc
    obtain ⟨closed, flag, hran, -⟩ := h.orderly c hc
    exact ⟨closed, hran⟩
  · intro fd session hlookup
    obtain ⟨c, hc, hopen, htracks⟩ := h.tracks fd session hlookup
    exact ⟨c, hc, hopen, htracks.ran, htracks.buffer⟩

/-- A request in two pieces, and half of another one. -/
theorem connection_lines_pieces :
    let idle : Revents := ⟨false, false, false, false⟩
    let readable : Revents := ⟨true, false, false, false⟩
    let rounds : List Round :=
      [⟨fun _ => idle, true, [5], fun _ => [], fun _ => by decide⟩,
        ⟨fun _ => readable, false, [], fun _ => bytes "PI", fun _ => by decide⟩,
        ⟨fun _ => readable, false, [], fun _ => bytes "NG\nPI", fun _ => by decide⟩]
    Always (TcpServer.turn ⟨List.length, [], 8080, 4⟩ fun _ => ⟨0, .plain, .success⟩)
      (LinesInOrder ⟨List.length, [], 8080, 4⟩) rounds
      (.start ⟨.empty, none, ⟨0, 0, 0, 0, 0, 0, 0, 0⟩⟩) :=
  connection_lines ⟨⟨List.nodup_singleton 5, fun fd _ => AList.notMem_empty fd⟩,
    ⟨List.nodup_nil, fun _ h => absurd h List.not_mem_nil⟩,
    ⟨List.nodup_nil, fun _ h => absurd h List.not_mem_nil⟩, trivial⟩

end KeyValueDb
