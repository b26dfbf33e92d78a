/-
# ThreadPool

The pool as its atomic steps: those of a worker (take the lock, evaluate the wait predicate,
block, wake, pop, run), of a caller of `enqueue` and of the destructor.  A schedule is a list of
steps in the order in which they happen; a step that cannot happen, such as taking a lock that
is held, leaves the state as it is.

A notification reaches only workers that are blocked already, no worker wakes up on its own,
and every task ends.  `stop_` is an atomic of its own: storing it takes no lock, and neither
does `notify_all`.

A task is a `std::function`, which may hold nothing; such a task is popped and dropped.  The
last five fields of the state are no part of the program.  They record, for each caller, the
calls it has begun and how those that are over ended, and for the pool what was pushed and by
whom, what was popped, and what was called.
-/
import KeyValueDb.Lib.Runs
import Mathlib.Data.Fintype.Basic

namespace KeyValueDb

open Lib Function

/-! ## 1. Program counters -/

/-- `std::function<void()>`: what it calls, if anything. -/
abbrev Task (τ : Type) := Option τ

/-- Where a worker is in its loop. -/
inductive WorkerPc (τ : Type)
  /-- At the top of the loop, about to take the lock. -/
  | lock
  /-- With the lock, about to evaluate the wait predicate. -/
  | predicate
  /-- The predicate was false: about to release the lock and block, in one step. -/
  | block
  /-- Blocked in `cv_.wait`. -/
  | waiting
  /-- Notified, about to take the lock again. -/
  | notified
  /-- `cv_.wait` has returned, with the lock. -/
  | take
  /-- With a task it popped, and without the lock. -/
  | holds (task : Task τ)
  | running
  | exited

/-- Where a caller of `enqueue` is. -/
inductive EnqueuerPc (τ : Type)
  | idle
  /-- About to take the lock. -/
  | lock (task : Task τ)
  /-- With the lock, about to look at `stop_`. -/
  | check (task : Task τ)
  /-- `stop_` was not set: about to push. -/
  | push (task : Task τ)
  /-- The lock is released: about to call `notify_one`, and to return. -/
  | notify (task : Task τ)

/-- How a call of `enqueue` ended. -/
inductive CallOutcome
  | returned | threw
  deriving DecidableEq

/-- Where the destructor is, if it was called. -/
inductive DestructorPc
  | alive | notifyAll | join | done
  deriving DecidableEq

inductive Holder (n : Nat) (E : Type)
  | worker (w : Fin n)
  | enqueuer (e : E)
  deriving DecidableEq

def WorkerPc.isWaiting {τ : Type} : WorkerPc τ → Bool
  | .waiting => true
  | _ => false

def WorkerPc.hasExited {τ : Type} : WorkerPc τ → Bool
  | .exited => true
  | _ => false

/-- What `notify_all` makes of a worker. -/
def WorkerPc.wake {τ : Type} (pc : WorkerPc τ) : WorkerPc τ :=
  if pc.isWaiting then .notified else pc

/-! ## 2. States and steps -/

structure ThreadPool (n : Nat) (E τ : Type) where
  tasks : List (Task τ)
  queueMutex : Option (Holder n E)
  stop : Bool
  workers : Fin n → WorkerPc τ
  enqueuers : E → EnqueuerPc τ
  destructor : DestructorPc
  calls : E → List (Task τ)
  ended : E → List (Task τ × CallOutcome)
  accepted : List (E × Task τ)
  popped : List (Task τ)
  started : List τ

/-- The number of workers the constructor creates. -/
def threadCount (numThreads : Nat) : Nat := if numThreads = 0 then 2 else numThreads

namespace ThreadPool

variable {n : Nat} {E τ : Type}

/-- The pool as the constructor leaves it. -/
def construct (numThreads : Nat) : ThreadPool (threadCount numThreads) E τ :=
  ⟨[], none, false, fun _ => .lock, fun _ => .idle, .alive, fun _ => [], fun _ => [], [], [], []⟩

def setWorker (w : Fin n) (pc : WorkerPc τ) (s : ThreadPool n E τ) : ThreadPool n E τ :=
  { s with workers := update s.workers w pc }

/-- The next step of a worker. -/
def workerStep (w : Fin n) (s : ThreadPool n E τ) : Option (ThreadPool n E τ) :=
  match s.workers w with
  | .lock | .notified =>
    if s.queueMutex.isNone then
      some { s.setWorker w .predicate with queueMutex := some (.worker w) }
    else none
  | .predicate =>
    some (s.setWorker w (if s.stop || !s.tasks.isEmpty then .take else .block))
  | .block => some { s.setWorker w .waiting with queueMutex := none }
  | .waiting => none
  | .take =>
    if s.stop && s.tasks.isEmpty then some { s.setWorker w .exited with queueMutex := none }
    else match s.tasks with
      | [] => none
      | task :: rest =>
        some { s.setWorker w (.holds task) with
          tasks := rest, popped := s.popped ++ [task], queueMutex := none }
  | .holds none => some (s.setWorker w .lock)
  | .holds (some f) => some { s.setWorker w .running with started := s.started ++ [f] }
  | .running => some (s.setWorker w .lock)
  | .exited => none

/-- The next step of the destructor. -/
def destructorStep (s : ThreadPool n E τ) : Option (ThreadPool n E τ) :=
  match s.destructor with
  | .alive => some { s with stop := true, destructor := .notifyAll }
  | .notifyAll => some { s with workers := fun w => (s.workers w).wake, destructor := .join }
  | .join =>
    if ∀ w, (s.workers w).hasExited = true then some { s with destructor := .done } else none
  | .done => none

section Enqueuer

variable [DecidableEq E]

def setEnqueuer (e : E) (pc : EnqueuerPc τ) (s : ThreadPool n E τ) : ThreadPool n E τ :=
  { s with enqueuers := update s.enqueuers e pc }

/-- A call of `enqueue` or `enqueue_detach`. -/
def call (e : E) (task : Task τ) (s : ThreadPool n E τ) : Option (ThreadPool n E τ) :=
  match s.enqueuers e with
  | .idle =>
    some { s.setEnqueuer e (.lock task) with
      calls := update s.calls e (s.calls e ++ [task]) }
  | _ => none

/-- The call is over. -/
def endCall (e : E) (task : Task τ) (outcome : CallOutcome) (s : ThreadPool n E τ) :
    ThreadPool n E τ :=
  { s.setEnqueuer e .idle with
    ended := update s.ended e (s.ended e ++ [(task, outcome)]) }

/-- The next step of such a call.  `notify_one` wakes the worker `woken`, which has to be
blocked, or nobody when none is. -/
def enqueuerStep (e : E) (woken : Fin n) (s : ThreadPool n E τ) : Option (ThreadPool n E τ) :=
  match s.enqueuers e with
  | .idle => none
  | .lock task =>
    if s.queueMutex.isNone then
      some { s.setEnqueuer e (.check task) with queueMutex := some (.enqueuer e) }
    else none
  | .check task =>
    if s.stop then some { s.endCall e task .threw with queueMutex := none }
    else some (s.setEnqueuer e (.push task))
  | .push task =>
    some { s.setEnqueuer e (.notify task) with
      tasks := s.tasks ++ [task], accepted := s.accepted ++ [(e, task)], queueMutex := none }
  | .notify task =>
    if (s.workers woken).isWaiting then
      some ((s.endCall e task .returned).setWorker woken .notified)
    else if ∀ w, (s.workers w).isWaiting = false then some (s.endCall e task .returned)
    else none

/-- Who takes a step. -/
inductive Event (n : Nat) (E τ : Type)
  | worker (w : Fin n)
  | call (e : E) (task : Task τ)
  | enqueuer (e : E) (woken : Fin n)
  | destructor

/-- The step, if it can be taken. -/
def step? (s : ThreadPool n E τ) : Event n E τ → Option (ThreadPool n E τ)
  | .worker w => s.workerStep w
  | .call e task => s.call e task
  | .enqueuer e woken => s.enqueuerStep e woken
  | .destructor => s.destructorStep

def step (s : ThreadPool n E τ) (ev : Event n E τ) : ThreadPool n E τ := (s.step? ev).getD s

end Enqueuer

/-! ## 3. What a step can do -/

variable [DecidableEq E]

/-- The steps, one for each point of the program. -/
inductive Stepped (s : ThreadPool n E τ) : Event n E τ → ThreadPool n E τ → Prop
  | acquire {w : Fin n} (hpc : s.workers w = .lock ∨ s.workers w = .notified)
      (hfree : s.queueMutex = none) :
      Stepped s (.worker w) { s.setWorker w .predicate with queueMutex := some (.worker w) }
  | ready {w : Fin n} (hpc : s.workers w = .predicate) (h : s.stop = true ∨ s.tasks ≠ []) :
      Stepped s (.worker w) (s.setWorker w .take)
  | notReady {w : Fin n} (hpc : s.workers w = .predicate) (hstop : s.stop = false)
      (htasks : s.tasks = []) : Stepped s (.worker w) (s.setWorker w .block)
  | block {w : Fin n} (hpc : s.workers w = .block) :
      Stepped s (.worker w) { s.setWorker w .waiting with queueMutex := none }
  | exit {w : Fin n} (hpc : s.workers w = .take) (hstop : s.stop = true) (htasks : s.tasks = []) :
      Stepped s (.worker w) { s.setWorker w .exited with queueMutex := none }
  | pop {w : Fin n} (hpc : s.workers w = .take) {task : Task τ} {rest : List (Task τ)}
      (htasks : s.tasks = task :: rest) :
      Stepped s (.worker w) { s.setWorker w (.holds task) with
        tasks := rest, popped := s.popped ++ [task], queueMutex := none }
  | skip {w : Fin n} (hpc : s.workers w = .holds none) :
      Stepped s (.worker w) (s.setWorker w .lock)
  | run {w : Fin n} {f : τ} (hpc : s.workers w = .holds (some f)) :
      Stepped s (.worker w) { s.setWorker w .running with started := s.started ++ [f] }
  | finish {w : Fin n} (hpc : s.workers w = .running) :
      Stepped s (.worker w) (s.setWorker w .lock)
  | call {e : E} (task : Task τ) (hpc : s.enqueuers e = .idle) :
      Stepped s (.call e task) { s.setEnqueuer e (.lock task) with
        calls := update s.calls e (s.calls e ++ [task]) }
  | enter {e : E} {woken : Fin n} {task : Task τ} (hpc : s.enqueuers e = .lock task)
      (hfree : s.queueMutex = none) :
      Stepped s (.enqueuer e woken)
        { s.setEnqueuer e (.check task) with queueMutex := some (.enqueuer e) }
  | reject {e : E} {woken : Fin n} {task : Task τ} (hpc : s.enqueuers e = .check task)
      (hstop : s.stop = true) :
      Stepped s (.enqueuer e woken) { s.endCall e task .threw with queueMutex := none }
  | accept {e : E} {woken : Fin n} {task : Task τ} (hpc : s.enqueuers e = .check task)
      (hstop : s.stop = false) : Stepped s (.enqueuer e woken) (s.setEnqueuer e (.push task))
  | push {e : E} {woken : Fin n} {task : Task τ} (hpc : s.enqueuers e = .push task) :
      Stepped s (.enqueuer e woken) { s.setEnqueuer e (.notify task) with
        tasks := s.tasks ++ [task], accepted := s.accepted ++ [(e, task)], queueMutex := none }
  | notifyOne {e : E} {woken : Fin n} {task : Task τ} (hpc : s.enqueuers e = .notify task)
      (hwaiting : s.workers woken = .waiting) :
      Stepped s (.enqueuer e woken) ((s.endCall e task .returned).setWorker woken .notified)
  | notifyNobody {e : E} {woken : Fin n} {task : Task τ} (hpc : s.enqueuers e = .notify task)
      (hnobody : ∀ w, s.workers w ≠ .waiting) :
      Stepped s (.enqueuer e woken) (s.endCall e task .returned)
  | stop (hpc : s.destructor = .alive) :
      Stepped s .destructor { s with stop := true, destructor := .notifyAll }
  | notifyAll (hpc : s.destructor = .notifyAll) :
      Stepped s .destructor
        { s with workers := fun w => (s.workers w).wake, destructor := .join }
  | join (hpc : s.destructor = .join) (hexited : ∀ w, s.workers w = .exited) :
      Stepped s .destructor { s with destructor := .done }

theorem isWaiting_iff {pc : WorkerPc τ} : pc.isWaiting = true ↔ pc = .waiting := by
  cases pc <;> simp [WorkerPc.isWaiting]

theorem isWaiting_eq_false_iff {pc : WorkerPc τ} : pc.isWaiting = false ↔ pc ≠ .waiting := by
  cases pc <;> simp [WorkerPc.isWaiting]

theorem hasExited_iff {pc : WorkerPc τ} : pc.hasExited = true ↔ pc = .exited := by
  cases pc <;> simp [WorkerPc.hasExited]

theorem stepped_worker {s s' : ThreadPool n E τ} {w : Fin n} (h : s.workerStep w = some s') :
    Stepped s (.worker w) s' := by
  unfold workerStep at h
  split at h
  · rename_i hpc
    split at h
    · rename_i hfree
      rw [← Option.some.inj h]
      exact .acquire (Or.inl hpc) (Option.isNone_iff_eq_none.mp hfree)
    · exact absurd h (by simp)
  · rename_i hpc
    split at h
    · rename_i hfree
      rw [← Option.some.inj h]
      exact .acquire (Or.inr hpc) (Option.isNone_iff_eq_none.mp hfree)
    · exact absurd h (by simp)
  · rename_i hpc
    rw [← Option.some.inj h]
    split
    · rename_i hready
      exact .ready hpc (by simpa using hready)
    · rename_i hready
      simp only [Bool.or_eq_true, Bool.not_eq_true', not_or, Bool.not_eq_true,
        Bool.not_eq_false, List.isEmpty_iff] at hready
      exact .notReady hpc hready.1 hready.2
  · rename_i hpc
    rw [← Option.some.inj h]
    exact .block hpc
  · exact absurd h (by simp)
  · rename_i hpc
    split at h
    · rename_i hexit
      rw [Bool.and_eq_true, List.isEmpty_iff] at hexit
      rw [← Option.some.inj h]
      exact .exit hpc hexit.1 hexit.2
    · split at h
      · exact absurd h (by simp)
      · rename_i htasks
        rw [← Option.some.inj h]
        exact .pop hpc htasks
  · rename_i hpc
    rw [← Option.some.inj h]
    exact .skip hpc
  · rename_i hpc
    rw [← Option.some.inj h]
    exact .run hpc
  · rename_i hpc
    rw [← Option.some.inj h]
    exact .finish hpc
  · exact absurd h (by simp)

theorem stepped_call {s s' : ThreadPool n E τ} {e : E} {task : Task τ}
    (h : s.call e task = some s') : Stepped s (.call e task) s' := by
  unfold ThreadPool.call at h
  split at h
  · rename_i hpc
    rw [← Option.some.inj h]
    exact .call task hpc
  · exact absurd h (by simp)

theorem stepped_enqueuer {s s' : ThreadPool n E τ} {e : E} {woken : Fin n}
    (h : s.enqueuerStep e woken = some s') : Stepped s (.enqueuer e woken) s' := by
  unfold enqueuerStep at h
  split at h
  · exact absurd h (by simp)
  · rename_i hpc
    split at h
    · rename_i hfree
      rw [← Option.some.inj h]
      exact .enter hpc (Option.isNone_iff_eq_none.mp hfree)
    · exact absurd h (by simp)
  · rename_i hpc
    split at h
    · rename_i hstop
      rw [← Option.some.inj h]
      exact .reject hpc hstop
    · rename_i hstop
      rw [← Option.some.inj h]
      exact .accept hpc (Bool.eq_false_iff.mpr hstop)
  · rename_i hpc
    rw [← Option.some.inj h]
    exact .push hpc
  · rename_i hpc
    split at h
    · rename_i hwaiting
      rw [← Option.some.inj h]
      exact .notifyOne hpc (isWaiting_iff.mp hwaiting)
    · split at h
      · rename_i hnobody
        rw [← Option.some.inj h]
        exact .notifyNobody hpc fun w => isWaiting_eq_false_iff.mp (hnobody w)
      · exact absurd h (by simp)

theorem stepped_destructor {s s' : ThreadPool n E τ} (h : s.destructorStep = some s') :
    Stepped s .destructor s' := by
  unfold destructorStep at h
  split at h
  · rename_i hpc
    rw [← Option.some.inj h]
    exact .stop hpc
  · rename_i hpc
    rw [← Option.some.inj h]
    exact .notifyAll hpc
  · rename_i hpc
    split at h
    · rename_i hexited
      rw [← Option.some.inj h]
      exact .join hpc fun w => hasExited_iff.mp (hexited w)
    · exact absurd h (by simp)
  · exact absurd h (by simp)

/-- **A step that can be taken is one of those.** -/
theorem stepped_of_step? {s s' : ThreadPool n E τ} {ev : Event n E τ} (h : s.step? ev = some s') :
    Stepped s ev s' := by
  cases ev with
  | worker w => exact stepped_worker h
  | call e task => exact stepped_call h
  | enqueuer e woken => exact stepped_enqueuer h
  | destructor => exact stepped_destructor h

theorem step_cases (s : ThreadPool n E τ) (ev : Event n E τ) :
    s.step ev = s ∨ Stepped s ev (s.step ev) := by
  unfold step
  rcases hstep : s.step? ev with _ | s'
  · exact Or.inl rfl
  · exact Or.inr (stepped_of_step? hstep)

end ThreadPool

end KeyValueDb
