/-
# The replies on their way out

The line loop hands each reply to a non-blocking `::send` and does not look at what it returns.
The socket may take any part of a reply, or none of it, and the rest is dropped: the next reply
follows in its place.

`Outgoing` keeps the replies beside the bytes that the socket took.  Over any run of commands
on a connection the one stays a prefix of the other as long as no send takes a byte behind one
that did not take its whole reply (`intact_of_gapless`).
-/
import KeyValueDb.Lib.Runs
import KeyValueDb.Server.Session

namespace KeyValueDb

open Lib RespParser

/-! ## 1. Sends -/

/-- What `::send` does on a non-blocking socket: it takes the first `n` bytes, all of them if
there are no more, or fails with `EWOULDBLOCK`. -/
inductive SendOutcome
  | accepts (n : Nat)
  | wouldBlock

def SendOutcome.taken (response : Bytes) : SendOutcome → Bytes
  | .accepts n => response.take n
  | .wouldBlock => []

/-- The replies of a connection, one behind the other, and what its socket took. -/
structure Outgoing where
  replies : Bytes
  accepted : Bytes

namespace Outgoing

def start : Outgoing := ⟨[], []⟩

/-- An empty response is not sent. -/
def send (response : Bytes) (outcome : SendOutcome) (out : Outgoing) : Outgoing where
  replies := out.replies ++ response
  accepted := if response = [] then out.accepted else out.accepted ++ outcome.taken response

/-- One command of the connection and the send of its reply. -/
def step (ctx : ServerCtx) (out : Outgoing) (x : Execution × SendOutcome) : Outgoing :=
  out.send (x.1.outcome ctx).result.response x.2

/-- The socket took a prefix of the replies. -/
def Intact (out : Outgoing) : Prop := out.accepted <+: out.replies

instance : DecidablePred Intact := fun out =>
  inferInstanceAs (Decidable (out.accepted <+: out.replies))

/-- The socket takes the whole reply. -/
def Whole (ctx : ServerCtx) (x : Execution × SendOutcome) : Prop :=
  x.2.taken (x.1.outcome ctx).result.response = (x.1.outcome ctx).result.response

/-- The socket takes nothing of it. -/
def Refused (ctx : ServerCtx) (x : Execution × SendOutcome) : Prop :=
  x.2.taken (x.1.outcome ctx).result.response = []

instance (ctx : ServerCtx) : DecidablePred (Whole ctx) := fun _ =>
  inferInstanceAs (Decidable (_ = _))

instance (ctx : ServerCtx) : DecidablePred (Refused ctx) := fun _ =>
  inferInstanceAs (Decidable (_ = _))

/-- No send takes a byte behind one that did not take its whole reply. -/
def Gapless (ctx : ServerCtx) (run : List (Execution × SendOutcome)) : Prop :=
  run.Pairwise fun earlier later => Whole ctx earlier ∨ Refused ctx later

instance (ctx : ServerCtx) : DecidablePred (Gapless ctx) := fun run =>
  inferInstanceAs (Decidable (run.Pairwise _))

end Outgoing

/-! ## 2. The line loop with its sends -/

structure Sending where
  serving : Serving
  out : Outgoing

/-- One turn of the line loop: `sends n` is the outcome of the send after the `n`-th call. -/
def handleSending (ctx : ServerCtx) (env : Nat → Env) (sends : Nat → SendOutcome) (s : Sending)
    (line : Bytes) : Sending × Bool :=
  let x : Execution := ⟨line, env s.serving.served, s.serving.db, s.serving.isAuthenticated⟩
  let r := handle ctx env s.serving line
  (⟨r.1, s.out.send (x.outcome ctx).result.response (sends s.serving.served)⟩, r.2)

/-- A read of `chunk`, with its sends. -/
def onChunkSending (ctx : ServerCtx) (env : Nat → Env) (sends : Nat → SendOutcome)
    (chunk : Bytes) (session : ClientSession) (db : Db) (served : Nat) (out : Outgoing) :
    Bytes × Sending × Bool :=
  let buffer := session.buffer ++ chunk
  drainLines lf (handleSending ctx env sends) buffer.length buffer
    ⟨⟨db, session.isAuthenticated, served, []⟩, out⟩

/-- The executions with the outcomes of their sends. -/
def withSends (sends : Nat → SendOutcome) (served : Nat) (xs : List Execution) :
    List (Execution × SendOutcome) :=
  (xs.zipIdx served).map fun x => (x.1, sends x.2)

variable {ctx : ServerCtx} {env : Nat → Env} {sends : Nat → SendOutcome}

/-- **The sends change nothing else**: the loop with its sends is the loop without them, and
the replies of its executions sent in turn. -/
theorem runUntil_handleSending (ctx : ServerCtx) (env : Nat → Env) (sends : Nat → SendOutcome)
    (lines : List Bytes) (s : Serving) (out : Outgoing) :
    ∃ new, (runUntil (handle ctx env) lines s).1.executions = s.executions ++ new ∧
      runUntil (handleSending ctx env sends) lines ⟨s, out⟩ =
        (⟨(runUntil (handle ctx env) lines s).1,
          (withSends sends s.served new).foldl (Outgoing.step ctx) out⟩,
          (runUntil (handle ctx env) lines s).2) := by
  induction lines generalizing s out with
  | nil => exact ⟨[], (List.append_nil _).symm, rfl⟩
  | cons line lines ih =>
    set x : Execution := ⟨line, env s.served, s.db, s.isAuthenticated⟩ with hx
    have hhandle : handle ctx env s line =
        (⟨(x.outcome ctx).db, (x.outcome ctx).isAuthenticated, s.served + 1,
          s.executions ++ [x]⟩, x.closes ctx) := rfl
    have hsending : handleSending ctx env sends ⟨s, out⟩ line =
        (⟨(handle ctx env s line).1, out.step ctx (x, sends s.served)⟩, x.closes ctx) := rfl
    simp only [runUntil, hsending, hhandle]
    split
    · exact ⟨[x], rfl, rfl⟩
    · obtain ⟨new, hnew, hrun⟩ := ih ⟨(x.outcome ctx).db, (x.outcome ctx).isAuthenticated,
        s.served + 1, s.executions ++ [x]⟩ (out.step ctx (x, sends s.served))
      refine ⟨x :: new, ?_, by rw [hrun]; rfl⟩
      rw [hnew, List.append_assoc, List.singleton_append]

/-- **A read sends the replies of its executions, in order.** -/
theorem onChunkSending_eq (chunk : Bytes) (session : ClientSession) (db : Db) (served : Nat)
    (out : Outgoing) :
    (onChunkSending ctx env sends chunk session db served out).2.1.out =
      (withSends sends served (onChunk ctx env chunk session db served).executions).foldl
        (Outgoing.step ctx) out := by
  obtain ⟨hsending, -, -⟩ := drainLines_eq lf (handleSending ctx env sends)
    (session.buffer ++ chunk).length (session.buffer ++ chunk)
    ⟨⟨db, session.isAuthenticated, served, []⟩, out⟩ (Nat.le_refl _)
  obtain ⟨hserving, -, -⟩ := drainLines_eq lf (handle ctx env)
    (session.buffer ++ chunk).length (session.buffer ++ chunk)
    ⟨db, session.isAuthenticated, served, []⟩ (Nat.le_refl _)
  obtain ⟨new, hnew, hrun⟩ := runUntil_handleSending ctx env sends
    (splitLines lf (session.buffer ++ chunk)).1 ⟨db, session.isAuthenticated, served, []⟩ out
  rw [List.nil_append] at hnew
  have hexec : (onChunk ctx env chunk session db served).executions = new :=
    (congrArg Serving.executions hserving).trans hnew
  rw [hrun] at hsending
  rw [hexec]
  exact congrArg Sending.out hsending

/-! ## 3. Runs -/

namespace Outgoing

theorem prefix_taken (response : Bytes) (outcome : SendOutcome) :
    outcome.taken response <+: response := by
  cases outcome with
  | accepts n => exact List.take_prefix n response
  | wouldBlock => exact List.nil_prefix

/-- One send, an empty reply included. -/
theorem step_eq (ctx : ServerCtx) (out : Outgoing) (x : Execution × SendOutcome) :
    out.step ctx x = ⟨out.replies ++ (x.1.outcome ctx).result.response,
      out.accepted ++ x.2.taken (x.1.outcome ctx).result.response⟩ := by
  have htaken := prefix_taken (x.1.outcome ctx).result.response x.2
  rw [step, send]
  split
  · rename_i hempty
    rw [hempty] at htaken ⊢
    rw [List.prefix_nil.mp htaken, List.append_nil, List.append_nil]
  · rfl

theorem intact_of_eq {out : Outgoing} (h : out.accepted = out.replies) : out.Intact := by
  rw [Intact, h]

/-- **A send behind whole ones** leaves the replies intact, and nothing missing if it is whole,
too. -/
theorem intact_step (ctx : ServerCtx) {out : Outgoing} (h : out.accepted = out.replies)
    (x : Execution × SendOutcome) :
    (out.step ctx x).Intact ∧
      (Whole ctx x → (out.step ctx x).accepted = (out.step ctx x).replies) := by
  rw [step_eq, Intact, h]
  refine ⟨?_, fun hwhole => congrArg (out.replies ++ ·) hwhole⟩
  exact (List.prefix_append_right_inj _).mpr (prefix_taken _ _)

/-- **Once something is missing nothing more may be taken**, and the replies stay intact. -/
theorem always_intact_of_refused {out : Outgoing} (h : out.Intact)
    {run : List (Execution × SendOutcome)} (hrun : ∀ x ∈ run, Refused ctx x) :
    Always (step ctx) Intact run out := by
  refine always_of_steps (C := fun _ x => Refused ctx x) (fun out x hout hx => ?_) h
    (steps_of_forall hrun out)
  rw [step_eq, Intact, show x.2.taken _ = [] from hx, List.append_nil]
  exact hout.trans (List.prefix_append _ _)

/-- **The bytes a socket took are at all times a prefix of the replies** in the runs in which no
send takes a byte behind one that did not take its whole reply. -/
theorem intact_of_gapless (ctx : ServerCtx) (run : List (Execution × SendOutcome))
    (h : Gapless ctx run) : Always (step ctx) Intact run start := by
  suffices hall : ∀ out : Outgoing, out.accepted = out.replies →
      Always (step ctx) Intact run out from hall start rfl
  induction run with
  | nil => exact fun out hout => intact_of_eq hout
  | cons x run ih =>
    intro out hout
    obtain ⟨hx, hrun⟩ := List.pairwise_cons.mp h
    obtain ⟨hintact, hnone⟩ := intact_step ctx hout x
    refine ⟨intact_of_eq hout, ?_⟩
    by_cases hwhole : Whole ctx x
    · exact ih hrun _ (hnone hwhole)
    · exact always_intact_of_refused hintact fun later hlater =>
        (hx later hlater).resolve_left hwhole

/-- Two pings in one read: the socket takes the whole of the first reply and three bytes of the
second. -/
theorem intact_of_gapless_pings :
    let ctx : ServerCtx := ⟨fun _ => 0, [], 8080, 4⟩
    let env : Nat → Env := fun _ => ⟨0, .plain, .success⟩
    let sends : Nat → SendOutcome := fun n => if n = 0 then .accepts 7 else .accepts 3
    let db : Db := ⟨.empty, none, ⟨0, 0, 0, 0, 0, 0, 0, 0⟩⟩
    let chunk := bytes "PING\r\nPING\r\n"
    Always (step ctx) Intact
      (withSends sends 0 (onChunk ctx env chunk (.fresh ctx 5) db 0).executions) start :=
  intact_of_gapless _ _ (by decide)

/-- The condition is not necessary: of two equal replies the first is dropped, and the second stands
in its place. -/
theorem intact_by_accident :
    let ctx : ServerCtx := ⟨fun _ => 0, [], 8080, 4⟩
    let env : Nat → Env := fun _ => ⟨0, .plain, .success⟩
    let sends : Nat → SendOutcome := fun n => if n = 0 then .wouldBlock else .accepts 7
    let db : Db := ⟨.empty, none, ⟨0, 0, 0, 0, 0, 0, 0, 0⟩⟩
    let chunk := bytes "PING\r\nPING\r\n"
    let run := withSends sends 0 (onChunk ctx env chunk (.fresh ctx 5) db 0).executions
    ¬ Gapless ctx run ∧ Always (step ctx) Intact run start := by
  decide

/-- **Two pings in one read**: the socket takes three bytes of the first reply and the whole of
the second. -/
theorem not_intact_of_short :
    let ctx : ServerCtx := ⟨fun _ => 0, [], 8080, 4⟩
    let env : Nat → Env := fun _ => ⟨0, .plain, .success⟩
    let sends : Nat → SendOutcome := fun n => if n = 0 then .accepts 3 else .accepts 7
    let db : Db := ⟨.empty, none, ⟨0, 0, 0, 0, 0, 0, 0, 0⟩⟩
    let chunk := bytes "PING\r\nPING\r\n"
    let run := withSends sends 0 (onChunk ctx env chunk (.fresh ctx 5) db 0).executions
    (onChunkSending ctx env sends chunk (.fresh ctx 5) db 0 start).2.1.out =
        ⟨bytes "+PONG\r\n+PONG\r\n", bytes "+PO+PONG\r\n"⟩ ∧
      ¬ Always (step ctx) Intact run start := by
  intro ctx env sends db chunk run
  constructor
  · rfl
  · decide

end Outgoing

end KeyValueDb
