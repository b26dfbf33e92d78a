/-
# One connection

What the event loop does with the bytes of one connection: append them to the buffer of the
session, cut at every line feed, and hand each line to `execute` until one asks to close.

Two relations say what comes of it, whatever the bytes and however they were cut:

* `RanThrough`: the lines executed are those of the stream, in order, up to and including the
  first whose result asks to close;
* `Threaded`: each line is executed under the flag that the one before it left.
-/
import KeyValueDb.Command.Execute

namespace KeyValueDb

open Lib RespParser

/-! ## 1. The model -/

/-- A socket descriptor. -/
abbrev Fd := Nat

structure ClientSession where
  fd : Fd
  buffer : Bytes
  isAuthenticated : Bool

/-- One call of `execute` on a line. -/
structure Execution where
  line : Bytes
  env : Env
  db : Db
  isAuthenticated : Bool

namespace Execution

def outcome (ctx : ServerCtx) (x : Execution) : Outcome :=
  execute ctx x.env x.line x.db x.isAuthenticated

/-- The result asks to close the connection. -/
def closes (ctx : ServerCtx) (x : Execution) : Bool := (x.outcome ctx).result.shouldClose

end Execution

/-- What the line loop works on; `served` counts the calls of `execute` since the start. -/
structure Serving where
  db : Db
  isAuthenticated : Bool
  served : Nat
  executions : List Execution

/-- One turn of the line loop: the state it leaves, and whether it closed the connection.
`env n` is what the `n`-th call takes from outside. -/
def handle (ctx : ServerCtx) (env : Nat → Env) (s : Serving) (line : Bytes) : Serving × Bool :=
  let x : Execution := ⟨line, env s.served, s.db, s.isAuthenticated⟩
  let o := x.outcome ctx
  (⟨o.db, o.isAuthenticated, s.served + 1, s.executions ++ [x]⟩, o.result.shouldClose)

/-- What a read leaves. -/
structure Drained where
  session : ClientSession
  db : Db
  served : Nat
  executions : List Execution
  clientClosed : Bool

/-- A read of `chunk`: append, cut, execute. -/
def onChunk (ctx : ServerCtx) (env : Nat → Env) (chunk : Bytes) (session : ClientSession)
    (db : Db) (served : Nat) : Drained :=
  let buffer := session.buffer ++ chunk
  let r := drainLines lf (handle ctx env) buffer.length buffer
    ⟨db, session.isAuthenticated, served, []⟩
  ⟨{ session with buffer := r.1, isAuthenticated := r.2.1.isAuthenticated }, r.2.1.db,
    r.2.1.served, r.2.1.executions, r.2.2⟩

/-! ## 2. Lines in order, flags in turn -/

/-- Lines are executed one after the other until one asks to close: the executions, the lines,
and whether it came to that. -/
inductive RanThrough (ctx : ServerCtx) : List Execution → List Bytes → Bool → Prop
  | nil : RanThrough ctx [] [] false
  | next (x : Execution) (h : x.closes ctx = false) {xs : List Execution} {lines : List Bytes}
      {closed : Bool} (rest : RanThrough ctx xs lines closed) :
      RanThrough ctx (x :: xs) (x.line :: lines) closed
  | stop (x : Execution) (h : x.closes ctx = true) (lines : List Bytes) :
      RanThrough ctx [x] (x.line :: lines) true

/-- From one flag to another, each execution under the flag that the one before it left. -/
inductive Threaded (ctx : ServerCtx) : Bool → List Execution → Bool → Prop
  | nil (flag : Bool) : Threaded ctx flag [] flag
  | cons (x : Execution) {xs : List Execution} {flag : Bool}
      (rest : Threaded ctx (x.outcome ctx).isAuthenticated xs flag) :
      Threaded ctx x.isAuthenticated (x :: xs) flag

variable {ctx : ServerCtx} {env : Nat → Env}

theorem RanThrough.append {xs ys : List Execution} {lines lines' : List Bytes} {closed : Bool}
    (h : RanThrough ctx xs lines false) (h' : RanThrough ctx ys lines' closed) :
    RanThrough ctx (xs ++ ys) (lines ++ lines') closed := by
  generalize hb : false = b at h
  induction h with
  | nil => exact h'
  | next x hx _ ih => exact .next x hx (ih hb)
  | stop x hx lines => exact absurd hb (by simp)

theorem Threaded.append {xs ys : List Execution} {a b c : Bool} (h : Threaded ctx a xs b)
    (h' : Threaded ctx b ys c) : Threaded ctx a (xs ++ ys) c := by
  induction h with
  | nil => exact h'
  | cons x _ ih => exact .cons x (ih h')

/-- The executions are of the first lines. -/
theorem RanThrough.isPrefix {xs : List Execution} {lines : List Bytes} {closed : Bool}
    (h : RanThrough ctx xs lines closed) : xs.map Execution.line <+: lines := by
  induction h with
  | nil => exact List.prefix_refl _
  | next x _ _ ih => exact List.cons_prefix_cons.mpr ⟨rfl, ih⟩
  | stop x _ lines => exact ⟨lines, rfl⟩

/-- Nothing closed: they are all executed, and none asked to close. -/
theorem RanThrough.all {xs : List Execution} {lines : List Bytes}
    (h : RanThrough ctx xs lines false) :
    xs.map Execution.line = lines ∧ ∀ x ∈ xs, x.closes ctx = false := by
  generalize hb : false = b at h
  induction h with
  | nil => exact ⟨rfl, fun x hx => absurd hx List.not_mem_nil⟩
  | next x hx _ ih =>
    obtain ⟨hlines, hall⟩ := ih hb
    refine ⟨by rw [List.map_cons, hlines], ?_⟩
    intro y hy
    rcases List.mem_cons.mp hy with rfl | hy
    · exact hx.trans hb
    · exact hall y hy
  | stop x hx lines => exact absurd hb (by simp)

/-- The last one closed. -/
theorem RanThrough.last {xs : List Execution} {lines : List Bytes}
    (h : RanThrough ctx xs lines true) :
    ∃ init last, xs = init ++ [last] ∧ last.closes ctx = true ∧
      ∀ x ∈ init, x.closes ctx = false := by
  generalize hb : true = b at h
  induction h with
  | nil => exact absurd hb (by simp)
  | next x hx _ ih =>
    obtain ⟨init, last, rfl, hlast, hall⟩ := ih hb
    refine ⟨x :: init, last, rfl, hlast, ?_⟩
    intro y hy
    rcases List.mem_cons.mp hy with rfl | hy
    · exact hx
    · exact hall y hy
  | stop x hx lines => exact ⟨[], x, rfl, hx, fun y hy => absurd hy List.not_mem_nil⟩

/-! ## 3. A read -/

/-- The handler, run over lines. -/
theorem runUntil_handle (ctx : ServerCtx) (env : Nat → Env) (lines : List Bytes) (s : Serving) :
    ∃ new, (runUntil (handle ctx env) lines s).1.executions = s.executions ++ new ∧
      RanThrough ctx new lines (runUntil (handle ctx env) lines s).2.2 ∧
      Threaded ctx s.isAuthenticated new
        (runUntil (handle ctx env) lines s).1.isAuthenticated := by
  induction lines generalizing s with
  | nil => exact ⟨[], by simp [runUntil], .nil, .nil _⟩
  | cons line lines ih =>
    set x : Execution := ⟨line, env s.served, s.db, s.isAuthenticated⟩ with hx
    have hhandle : handle ctx env s line =
        (⟨(x.outcome ctx).db, (x.outcome ctx).isAuthenticated, s.served + 1,
          s.executions ++ [x]⟩, x.closes ctx) := rfl
    simp only [runUntil, hhandle]
    split
    · rename_i hcloses
      exact ⟨[x], rfl, .stop x hcloses lines, .cons x (.nil _)⟩
    · rename_i hcloses
      rw [Bool.not_eq_true] at hcloses
      obtain ⟨new, hnew, hran, hthread⟩ := ih ⟨(x.outcome ctx).db, (x.outcome ctx).isAuthenticated,
        s.served + 1, s.executions ++ [x]⟩
      refine ⟨x :: new, ?_, .next x hcloses hran, .cons x hthread⟩
      rw [hnew, List.append_assoc, List.singleton_append]

/-- **A read executes the lines of the buffer and leaves its tail.** -/
theorem onChunk_spec (ctx : ServerCtx) (env : Nat → Env) (chunk : Bytes)
    (session : ClientSession) (db : Db) (served : Nat) :
    let r := onChunk ctx env chunk session db served
    RanThrough ctx r.executions (splitLines lf (session.buffer ++ chunk)).1 r.clientClosed ∧
      Threaded ctx session.isAuthenticated r.executions r.session.isAuthenticated ∧
      (r.clientClosed = false →
        r.session.buffer = (splitLines lf (session.buffer ++ chunk)).2) := by
  intro r
  obtain ⟨hserving, hclosed, htail⟩ := drainLines_eq lf (handle ctx env)
    (session.buffer ++ chunk).length (session.buffer ++ chunk)
    ⟨db, session.isAuthenticated, served, []⟩ (Nat.le_refl _)
  obtain ⟨new, hnew, hran, hthread⟩ := runUntil_handle ctx env
    (splitLines lf (session.buffer ++ chunk)).1 ⟨db, session.isAuthenticated, served, []⟩
  rw [List.nil_append] at hnew
  have hexec : r.executions = new := (congrArg Serving.executions hserving).trans hnew
  have hflag : r.session.isAuthenticated = _ := congrArg Serving.isAuthenticated hserving
  have hcl : r.clientClosed = _ := hclosed
  rw [hexec, hflag, hcl]
  exact ⟨hran, hthread, fun h => htail (hclosed.trans h)⟩

/-! ## 4. A connection so far -/

/-- A session as it is born. -/
def ClientSession.fresh (ctx : ServerCtx) (fd : Fd) : ClientSession :=
  ⟨fd, [], decide (ctx.requirepass = [])⟩

/-- What an open session owes to what its connection received and executed: all lines are
executed, the buffer is the tail, the flag is the one they left. -/
structure Tracks (ctx : ServerCtx) (received : Bytes) (executed : List Execution)
    (session : ClientSession) : Prop where
  ran : RanThrough ctx executed (splitLines lf received).1 false
  buffer : session.buffer = (splitLines lf received).2
  threaded : Threaded ctx (decide (ctx.requirepass = [])) executed session.isAuthenticated

theorem tracks_fresh (ctx : ServerCtx) (fd : Fd) : Tracks ctx [] [] (.fresh ctx fd) :=
  ⟨.nil, rfl, .nil _⟩

/-- **One more read.** -/
theorem Tracks.onChunk {received : Bytes} {executed : List Execution} {session : ClientSession}
    (h : Tracks ctx received executed session) (env : Nat → Env) (chunk : Bytes) (db : Db)
    (served : Nat) :
    let r := onChunk ctx env chunk session db served
    RanThrough ctx (executed ++ r.executions) (splitLines lf (received ++ chunk)).1
        r.clientClosed ∧
      Threaded ctx (decide (ctx.requirepass = [])) (executed ++ r.executions)
        r.session.isAuthenticated ∧
      (r.clientClosed = false →
        Tracks ctx (received ++ chunk) (executed ++ r.executions) r.session) := by
  intro r
  obtain ⟨hran, hthread, htail⟩ := onChunk_spec ctx env chunk session db served
  have hsplit := splitLines_append lf received chunk
  rw [h.buffer] at hran htail
  have hran' := h.ran.append hran
  have hthread' := h.threaded.append hthread
  rw [hsplit]
  refine ⟨hran', hthread', fun hopen => ⟨?_, ?_, hthread'⟩⟩
  · rw [hsplit, ← hopen]
    exact hran'
  · rw [hsplit]
    exact htail hopen

end KeyValueDb
