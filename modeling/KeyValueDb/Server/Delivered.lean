/-
# What the connections receive

The stream of a connection is read off the trace, which the loop writes itself.  Here it is held
against what the system delivers: in every turn of every run the stream of each open connection
grows by what `recv` gives for its descriptor, if `poll` says that there is something to read,
and no other stream changes (`streams_grow`).

A connection that was closed stays in the list and its descriptor is given out again, so this
rests on the table of descriptors: an event of the trace changes the one connection of its
descriptor that is open, and nothing else (`record_eq_map`).
-/
import KeyValueDb.Server.Descriptors

namespace KeyValueDb

open Lib

variable {ctx : ServerCtx} {env : Nat → Env} {round : Round} {s : TcpServer}
  {cs : List Connection} {es : List Event} {e : Event} {fd : Fd}

/-! ## 1. One event -/

/-- What a later event is for a connection. -/
def Connection.onEvent (c : Connection) : Event → Connection
  | .accepted _ => c
  | .read fd chunk executions =>
    if c.isOpen = true ∧ c.fd = fd then c.read chunk executions else c
  | .closed fd => if c.isOpen = true ∧ c.fd = fd then c.close else c

/-- Of the connections of a descriptor, only the newest may be open. -/
def OneOpen (cs : List Connection) : Prop :=
  cs.Pairwise fun newer older => older.fd = newer.fd → older.isOpen = false

/-- The newest connection of a descriptor is the open one. -/
theorem OneOpen.updateNewest (h : OneOpen cs) (hopen : ∃ c ∈ cs, c.isOpen = true ∧ c.fd = fd)
    (f : Connection → Connection) :
    updateNewest fd f cs = cs.map fun c => if c.isOpen = true ∧ c.fd = fd then f c else c := by
  induction cs with
  | nil => rfl
  | cons d ds ih =>
    obtain ⟨hd, hds⟩ := List.pairwise_cons.mp h
    rw [List.map_cons, KeyValueDb.updateNewest]
    by_cases hfd : d.fd = fd
    · -- the others of this descriptor are closed
      have hclosed : ∀ c ∈ ds, ¬ (c.isOpen = true ∧ c.fd = fd) := by
        rintro c hc ⟨hcopen, hcfd⟩
        rw [hd c hc (hcfd.trans hfd.symm)] at hcopen
        cases hcopen
      have hdopen : d.isOpen = true := by
        obtain ⟨c, hc, hcopen⟩ := hopen
        rcases List.mem_cons.mp hc with rfl | hc
        · exact hcopen.1
        · exact absurd hcopen (hclosed c hc)
      rw [if_pos hfd, if_pos ⟨hdopen, hfd⟩]
      refine congrArg (f d :: ·) ?_
      rw [List.map_congr_left fun c hc => if_neg (hclosed c hc)]
      exact (List.map_id' ds).symm
    · rw [if_neg hfd, if_neg fun hself => hfd hself.2]
      refine congrArg (d :: ·) (ih hds ?_)
      obtain ⟨c, hc, hcopen⟩ := hopen
      rcases List.mem_cons.mp hc with rfl | hc
      · exact absurd hcopen.2 hfd
      · exact ⟨c, hc, hcopen⟩

theorem onEvent_fd (c : Connection) (e : Event) : (c.onEvent e).fd = c.fd := by
  cases e <;> simp only [Connection.onEvent] <;> split <;> rfl

theorem onEvent_isOpen (c : Connection) (e : Event) :
    (c.onEvent e).isOpen = true ↔ c.isOpen = true ∧ e ≠ .closed c.fd := by
  cases e with
  | accepted fd => simp [Connection.onEvent]
  | read fd chunk executions =>
    simp only [Connection.onEvent]
    split <;> simp [Connection.read]
  | closed fd =>
    simp only [Connection.onEvent]
    split
    · rename_i hself
      simp [Connection.close, hself.2]
    · rename_i hother
      simp only [ne_eq, Event.closed.injEq, iff_self_and]
      exact fun hopen heq => hother ⟨hopen, heq.symm⟩

/-- Nothing is opened again. -/
theorem OneOpen.map (h : OneOpen cs) (e : Event) : OneOpen (cs.map (·.onEvent e)) := by
  refine List.pairwise_map.mpr (h.imp fun {newer older} hclosed => ?_)
  rw [onEvent_fd, onEvent_fd]
  intro heq
  rw [Bool.eq_false_iff, ne_eq, onEvent_isOpen, hclosed heq]
  simp

/-! ## 2. A trace -/

/-- The open connections are those of the table. -/
structure Tabled (es : List Event) : Prop where
  one : OneOpen (es.foldl record [])
  nodup : (es.foldl table []).Nodup
  mem_iff : ∀ fd, fd ∈ es.foldl table [] ↔
    ∃ c ∈ es.foldl record [], c.isOpen = true ∧ c.fd = fd

/-- **An event changes the open connection of its descriptor**, and no other. -/
theorem Tabled.record_eq_map (h : Tabled es) (hlegal : Legal (es.foldl table []) e)
    (hold : ∀ fd, e ≠ .accepted fd) :
    record (es.foldl record []) e = (es.foldl record []).map (·.onEvent e) := by
  cases e with
  | accepted fd => exact absurd rfl (hold fd)
  | read fd chunk executions => exact h.one.updateNewest ((h.mem_iff fd).mp hlegal) _
  | closed fd => exact h.one.updateNewest ((h.mem_iff fd).mp hlegal) _

/-- An event that is no `accept` keeps the descriptors but the one it closes. -/
theorem mem_table {fds : List Fd} (h : fds.Nodup) (hold : ∀ fd, e ≠ .accepted fd) :
    fd ∈ table fds e ↔ fd ∈ fds ∧ e ≠ .closed fd := by
  cases e with
  | accepted fd => exact absurd rfl (hold fd)
  | read fd chunk executions => simp [table]
  | closed fd' =>
    rw [table, h.mem_erase_iff, and_comm]
    simp [eq_comm]

theorem Tabled.event (h : Tabled es) (hlegal : Legal (es.foldl table []) e)
    (hold : ∀ fd, e ≠ .accepted fd) : Tabled (es ++ [e]) := by
  have hmap := h.record_eq_map hlegal hold
  have hrecord : (es ++ [e]).foldl record [] = (es.foldl record []).map (·.onEvent e) := by
    rw [List.foldl_append, List.foldl_cons, List.foldl_nil, hmap]
  have htable : (es ++ [e]).foldl table [] = table (es.foldl table []) e := by
    rw [List.foldl_append, List.foldl_cons, List.foldl_nil]
  refine ⟨?_, ?_, fun fd => ?_⟩
  · rw [hrecord]
    exact h.one.map e
  · rw [htable]
    cases e with
    | accepted fd => exact absurd rfl (hold fd)
    | read fd chunk executions => exact h.nodup
    | closed fd => exact h.nodup.erase fd
  · rw [htable, hrecord, mem_table h.nodup hold, h.mem_iff]
    simp only [List.mem_map, exists_exists_and_eq_and, onEvent_isOpen, onEvent_fd]
    constructor
    · rintro ⟨⟨c, hc, hopen, rfl⟩, hne⟩
      exact ⟨c, hc, ⟨hopen, hne⟩, rfl⟩
    · rintro ⟨c, hc, ⟨hopen, hne⟩, rfl⟩
      exact ⟨⟨c, hc, hopen, rfl⟩, hne⟩

theorem tabled_of_legal (h : Steps table Legal es []) : Tabled es := by
  induction es using List.reverseRecOn with
  | nil => exact ⟨List.Pairwise.nil, List.nodup_nil, by simp⟩
  | append_singleton es e ih =>
    obtain ⟨hbefore, hlegal, -⟩ := steps_append.mp h
    have htabled := ih hbefore
    cases e with
    | accepted fd =>
      refine ⟨?_, ?_, fun fd' => ?_⟩
      · rw [List.foldl_append]
        refine List.pairwise_cons.mpr ⟨fun c hc hfd => ?_, htabled.one⟩
        by_contra hopen
        rw [Bool.not_eq_false] at hopen
        exact hlegal ((htabled.mem_iff fd).mpr ⟨c, hc, hopen, hfd⟩)
      · rw [List.foldl_append]
        exact List.nodup_cons.mpr ⟨hlegal, htabled.nodup⟩
      · rw [List.foldl_append, List.foldl_append]
        simp only [List.foldl_cons, List.foldl_nil, table, record, List.mem_cons,
          htabled.mem_iff, exists_eq_or_imp, true_and]
        exact or_congr_left eq_comm
    | read fd chunk executions => exact htabled.event hlegal fun _ => by simp
    | closed fd => exact htabled.event hlegal fun _ => by simp

/-- **A legal trace without an `accept`**, connection by connection. -/
theorem foldl_record_eq_map {fs : List Event} (h : Steps table Legal (es ++ fs) [])
    (hold : ∀ fd, .accepted fd ∉ fs) :
    (es ++ fs).foldl record [] =
      (es.foldl record []).map fun c => fs.foldl Connection.onEvent c := by
  induction fs using List.reverseRecOn with
  | nil => simp
  | append_singleton fs e ih =>
    rw [← List.append_assoc] at h ⊢
    obtain ⟨hbefore, hlegal, -⟩ := steps_append.mp h
    have hfs : ∀ fd, .accepted fd ∉ fs := fun fd hmem => hold fd (List.mem_append_left _ hmem)
    have he : ∀ fd, e ≠ .accepted fd := by
      rintro fd rfl
      exact hold fd (List.mem_append_right _ List.mem_cons_self)
    have hmap := (tabled_of_legal hbefore).record_eq_map hlegal he
    rw [List.foldl_append, List.foldl_cons, List.foldl_nil, hmap, ih hbefore hfs, List.map_map]
    simp [Function.comp_def]

/-! ## 3. A turn -/

/-- What a turn delivers to a descriptor. -/
def Round.delivered (round : Round) (fd : Fd) : Bytes :=
  if (round.revents fd).failed = false ∧ (round.revents fd).pollin = true then round.recv fd
  else []

/-- What a turn does for a descriptor leaves the other connections alone. -/
theorem Dealt.other {revents : Revents} {chunk : Bytes} {events : List Event}
    (h : Dealt ctx revents chunk fd events) {c : Connection} (hc : ¬ (c.isOpen = true ∧ c.fd = fd)) :
    events.foldl Connection.onEvent c = c := by
  cases h with
  | failed | ended | read => exact if_neg hc
  | quit hfailed hin hchunk hopen hclose =>
    simp [Connection.onEvent, hc]
  | quiet => rfl

/-- The connection of the descriptor receives what is delivered. -/
theorem Dealt.self {events : List Event}
    (h : Dealt ctx (round.revents fd) (round.recv fd) fd events) {c : Connection}
    (hopen : c.isOpen = true) (hfd : c.fd = fd) :
    (events.foldl Connection.onEvent c).fd = fd ∧
      (events.foldl Connection.onEvent c).received = c.received ++ round.delivered fd := by
  cases h with
  | failed hfailed =>
    simp [Connection.onEvent, Connection.close, Round.delivered, hopen, hfd, hfailed]
  | ended hfailed hin hchunk =>
    simp [Connection.onEvent, Connection.close, Round.delivered, hopen, hfd, hchunk]
  | read hfailed hin =>
    simp [Connection.onEvent, Connection.read, Round.delivered, hopen, hfd, hfailed, hin]
  | quit hfailed hin =>
    simp [Connection.onEvent, Connection.read, Connection.close, Round.delivered, hopen, hfd,
      hfailed, hin]
  | quiet hfailed hin => simp [Round.delivered, hfd, hin]

/-- A connection that is closed, or of none of the descriptors. -/
theorem dealt_others {fds : List Fd} {dealt : List (List Event)}
    (h : List.Forall₂ (fun fd => Dealt ctx (round.revents fd) (round.recv fd) fd) fds dealt)
    {c : Connection} (hc : c.isOpen = true → c.fd ∉ fds) :
    dealt.flatten.foldl Connection.onEvent c = c := by
  induction h with
  | nil => rfl
  | cons hevents _ ih =>
    rw [List.flatten_cons, List.foldl_append, hevents.other, ih]
    · exact fun hopen hmem => hc hopen (List.mem_cons_of_mem _ hmem)
    · rintro ⟨hopen, hfd⟩
      exact hc hopen (hfd ▸ List.mem_cons_self)

/-- **What a turn does for all descriptors**, at one connection. -/
theorem received_dealt {fds : List Fd} {dealt : List (List Event)}
    (h : List.Forall₂ (fun fd => Dealt ctx (round.revents fd) (round.recv fd) fd) fds dealt)
    (hnodup : fds.Nodup) {c : Connection} (hc : c.isOpen = true → c.fd ∈ fds) :
    (dealt.flatten.foldl Connection.onEvent c).fd = c.fd ∧
      (dealt.flatten.foldl Connection.onEvent c).received =
        c.received ++ if c.isOpen then round.delivered c.fd else [] := by
  by_cases hopen : c.isOpen = true
  · have hmem := hc hopen
    rw [if_pos hopen]
    induction h with
    | nil => exact absurd hmem List.not_mem_nil
    | @cons fd events fds dealt hevents hrest ih =>
      rw [List.nodup_cons] at hnodup
      rw [List.flatten_cons, List.foldl_append]
      by_cases hfd : c.fd = fd
      · -- its turn comes first, and only once
        obtain ⟨hself, hreceived⟩ := hevents.self hopen hfd
        rw [dealt_others hrest fun _ => hself ▸ hnodup.1, hself, hreceived, hfd]
        exact ⟨rfl, rfl⟩
      · rw [hevents.other fun hself => hfd hself.2]
        have hlater := (List.mem_cons.mp hmem).resolve_left hfd
        exact ih hnodup.2 (fun _ => hlater) hlater
  · rw [dealt_others h fun ho => absurd ho hopen, if_neg hopen, List.append_nil]
    exact ⟨rfl, rfl⟩

theorem foldl_record_accepted (fds : List Fd) (cs : List Connection) :
    (fds.map Event.accepted).foldl record cs =
      (fds.map fun fd => ⟨fd, [], [], true⟩).reverse ++ cs := by
  induction fds generalizing cs with
  | nil => rfl
  | cons fd fds ih => simp [ih, record]

/-- The turn adds to the stream of each open connection what it delivers to its descriptor, and
the connections that it accepts have received nothing. -/
def StreamsGrow (ctx : ServerCtx) (env : Nat → Env) (s : TcpServer) (round : Round) : Prop :=
  (s.turn ctx env round).connections.map (fun c => (c.fd, c.received)) =
    (round.arrivals.map fun fd => (fd, [])).reverse ++
      s.connections.map fun c =>
        (c.fd, c.received ++ if c.isOpen then round.delivered c.fd else [])

theorem accepted_notMem_dealt {fds : List Fd} {dealt : List (List Event)}
    (h : List.Forall₂ (fun fd => Dealt ctx (round.revents fd) (round.recv fd) fd) fds dealt)
    (fd : Fd) : .accepted fd ∉ dealt.flatten := by
  induction h with
  | nil => exact List.not_mem_nil
  | cons hevents _ ih =>
    rw [List.flatten_cons, List.mem_append, not_or]
    refine ⟨?_, ih⟩
    cases hevents <;> simp

theorem Disciplined.streamsGrow (h : Disciplined s.pollFds s) (hsound : Sound ctx s.pollFds s)
    (hfresh : FreshAccepts s round) : StreamsGrow ctx env s round := by
  obtain ⟨dealt, hdealt, htrace⟩ := turn_fair ctx env round s
  have hturn : Disciplined (s.turn ctx env round).pollFds (s.turn ctx env round) :=
    h.turn hsound hfresh
  have hlegal := hturn.legal
  rw [htrace] at hlegal
  have hmap := foldl_record_eq_map hlegal (accepted_notMem_dealt hdealt)
  have haccepted : (s.trace ++ round.arrivals.map Event.accepted).foldl record [] =
      (round.arrivals.map fun fd => ⟨fd, [], [], true⟩).reverse ++ s.connections := by
    rw [List.foldl_append, foldl_record_accepted]
    rfl
  rw [haccepted] at hmap
  have harrived : ∀ fd ∈ round.arrivals, fd ∉ s.pollFds.map PollFd.fd := by
    intro fd hfd hmem
    unfold Round.arrivals at hfd
    split at hfd
    · exact hfresh.2 fd hfd ((hsound.keys fd).mpr hmem)
    · exact absurd hfd List.not_mem_nil
  have htabled := tabled_of_legal h.legal
  have hopen : ∀ c ∈ s.connections, c.isOpen = true → c.fd ∈ s.pollFds.map PollFd.fd :=
    fun c hc hopen => h.perm.mem_iff.mp ((htabled.mem_iff c.fd).mpr ⟨c, hc, hopen, rfl⟩)
  unfold StreamsGrow TcpServer.connections
  rw [htrace, hmap, List.map_map, List.map_append, List.map_reverse, List.map_map]
  refine congrArg₂ (· ++ ·) (congrArg List.reverse (List.map_congr_left fun fd hfd => ?_))
    (List.map_congr_left fun c hc => ?_)
  · simp only [Function.comp_apply]
    rw [dealt_others hdealt fun _ => harrived fd hfd]
  · obtain ⟨hfd, hreceived⟩ := received_dealt hdealt hsound.nodup (hopen c hc)
    simp only [Function.comp_apply]
    rw [hfd, hreceived]

/-- **The streams are what `recv` delivers**, in every turn of every run of the event loop. -/
theorem streams_grow {rounds : List Round} {db : Db}
    (hfresh : Steps (TcpServer.turn ctx env) FreshAccepts rounds (.start db)) :
    Steps (TcpServer.turn ctx env) (StreamsGrow ctx env) rounds (.start db) :=
  (disciplined_run hfresh).steps_of (fun _ _ h hround => h.1.streamsGrow h.2 hround) hfresh

end KeyValueDb
