/-
# A shutdown that hangs

`stop_` is stored and `notify_all` is called without the lock, so both can fall between a
worker's look at `stop_` and its going to sleep.  Such a worker is not blocked yet when the
notification goes out, blocks right after it, and nobody notifies it again: the destructor
waits for it in `join`.

This is the only way.  Once `stop_` is set no worker finds its predicate false, so when no
worker is on its way to block at the time of `notify_all`, none is blocked from then on.
-/
import KeyValueDb.ThreadPool.Pool

namespace KeyValueDb

open Lib Function

namespace ThreadPool

variable {n : Nat} {E τ : Type}

/-- The destructor has called `notify_all`. -/
def Notified (s : ThreadPool n E τ) : Prop := s.destructor = .join ∨ s.destructor = .done

/-- Some worker is blocked in `cv_.wait` although the destructor has called `notify_all`.  A
worker that was notified and has not woken up yet is no longer at `waiting`. -/
def Stuck (s : ThreadPool n E τ) : Prop := s.Notified ∧ ∃ w, s.workers w = .waiting

/-- A worker has found its predicate false and still has to block. -/
def Blocking (s : ThreadPool n E τ) : Prop := ∃ w, s.workers w = .block

/-- `notify_all` is not called while a worker is about to block. -/
def NotifiesInTime (s : ThreadPool n E τ) (ev : Event n E τ) : Prop :=
  ev = .destructor → s.destructor = .notifyAll → ¬ s.Blocking

/-- The invariant. -/
structure Draining (s : ThreadPool n E τ) : Prop where
  stop : s.destructor ≠ .alive → s.stop = true
  awake : s.Notified → ∀ w, s.workers w ≠ .block ∧ s.workers w ≠ .waiting

theorem Draining.not_stuck {s : ThreadPool n E τ} (h : s.Draining) : ¬ s.Stuck := by
  rintro ⟨hnotified, w, hw⟩
  exact (h.awake hnotified w).2 hw

theorem draining_construct (numThreads : Nat) :
    (construct numThreads : ThreadPool (threadCount numThreads) E τ).Draining where
  stop h := absurd rfl h
  awake := by
    rintro (h | h) <;> cases h

theorem Notified.stop {s : ThreadPool n E τ} (h : s.Draining) (hn : s.Notified) :
    s.stop = true := by
  refine h.stop fun halive => ?_
  rcases hn with hpc | hpc <;> rw [hpc] at halive <;> cases halive

variable [DecidableEq E] {s s' : ThreadPool n E τ} {w : Fin n}

/-- A worker that moves to a point where it neither is blocked nor is about to be. -/
theorem awake_setWorker {workers : Fin n → WorkerPc τ} {pc : WorkerPc τ}
    (h : ∀ w, workers w ≠ .block ∧ workers w ≠ .waiting) (hpc : pc ≠ .block ∧ pc ≠ .waiting)
    (v : Fin n) : update workers w pc v ≠ .block ∧ update workers w pc v ≠ .waiting := by
  by_cases hv : v = w
  · subst hv
    rw [update_self]
    exact hpc
  · rw [update_of_ne hv]
    exact h v

/-- **A step keeps the invariant**, unless it is a `notify_all` that comes too early. -/
theorem Draining.step (h : s.Draining) {ev : Event n E τ} (hev : s.NotifiesInTime ev) :
    (s.step ev).Draining := by
  rcases s.step_cases ev with heq | hs
  · rw [heq]
    exact h
  generalize s.step ev = s' at hs
  cases hs with
  | acquire | ready | exit | pop | skip | run | finish =>
    refine ⟨h.stop, fun hn => awake_setWorker (h.awake hn) ?_⟩
    simp
  | notReady hpc hstop =>
    -- with `stop_` set the predicate is true
    refine ⟨h.stop, fun hn => ?_⟩
    have hset := Notified.stop h hn
    rw [hstop] at hset
    cases hset
  | block hpc =>
    rename_i w
    exact ⟨h.stop, fun hn => absurd hpc (h.awake hn w).1⟩
  | call | enter | reject | accept | push | notifyNobody => exact ⟨h.stop, h.awake⟩
  | notifyOne => exact ⟨h.stop, fun hn => awake_setWorker (h.awake hn) (by simp)⟩
  | stop =>
    refine ⟨fun _ => rfl, ?_⟩
    rintro (hn | hn) <;> cases hn
  | join hpc => exact ⟨fun _ => h.stop (by simp [hpc]), fun _ => h.awake (Or.inl hpc)⟩
  | notifyAll hpc =>
    refine ⟨fun _ => h.stop (by simp [hpc]), fun _ w => ?_⟩
    have hblock : s.workers w ≠ .block := fun hw => hev rfl hpc ⟨w, hw⟩
    cases hw : s.workers w <;> simp_all [WorkerPc.wake, WorkerPc.isWaiting]

/-- **The destructor never waits for a blocked worker**, in every schedule whose `notify_all`
is not called while a worker is about to block. -/
theorem never_stuck (numThreads : Nat) (evs : List (Event (threadCount numThreads) E τ))
    (h : Steps step NotifiesInTime evs (construct numThreads)) :
    Always step (fun s => ¬ s.Stuck) evs (construct numThreads) := by
  have hinv : Always step Draining evs (construct numThreads) :=
    always_of_steps (fun _ _ hs hev => hs.step hev) (draining_construct numThreads) h
  exact hinv.mono fun _ hs => hs.not_stuck

/-- One worker goes to sleep, is notified, and leaves: the destructor returns. -/
theorem never_stuck_slept :
    let w : Fin (threadCount 1) := ⟨0, Nat.zero_lt_one⟩
    let evs : List (Event (threadCount 1) Unit Unit) :=
      [.worker w, .worker w, .worker w, .destructor, .destructor, .worker w, .worker w,
        .worker w, .destructor]
    Steps step NotifiesInTime evs (construct 1) ∧
      Always step (fun s => ¬ s.Stuck) evs (construct 1) ∧
      (evs.foldl step (construct 1)).destructor = .done := by
  intro w evs
  have hworker : ∀ s : ThreadPool (threadCount 1) Unit Unit, s.NotifiesInTime (.worker w) := by
    intro s hev
    cases hev
  have hcalm : ∀ s : ThreadPool (threadCount 1) Unit Unit, s.destructor ≠ .notifyAll →
      s.NotifiesInTime .destructor := fun s hne _ hpc => absurd hpc hne
  have hsteps : Steps step NotifiesInTime evs (construct 1) := by
    refine ⟨hworker _, hworker _, hworker _, hcalm _ (by decide), ?_, hworker _, hworker _,
      hworker _, hcalm _ (by decide), trivial⟩
    -- the only worker is blocked by now
    rintro - - ⟨v, hv⟩
    have hvw : v = w := Fin.ext (Nat.lt_one_iff.mp v.isLt)
    rw [hvw] at hv
    cases hv
  exact ⟨hsteps, never_stuck 1 evs hsteps, rfl⟩

/-- **A worker sleeps through the shutdown**: `stop_` and `notify_all` fall between its look
at `stop_` and its going to sleep. -/
theorem stuck_of_lost_wakeup :
    let w : Fin (threadCount 1) := ⟨0, Nat.zero_lt_one⟩
    let evs : List (Event (threadCount 1) Unit Unit) :=
      [.worker w, .worker w, .destructor, .destructor, .worker w]
    ¬ Always step (fun s => ¬ s.Stuck) evs (construct 1) ∧
      ∀ e, (evs.foldl step (construct 1)).enqueuers e = .idle := by
  intro w evs
  refine ⟨fun h => h.last ⟨Or.inl rfl, w, rfl⟩, fun _ => rfl⟩

omit [DecidableEq E] in
theorem workerStep_block (hw : s.workers w = .block) :
    s.workerStep w = some { s.setWorker w .waiting with queueMutex := none } := by
  unfold workerStep
  rw [hw]

/-- **Every `notify_all` that comes too early** is one step away from a state that is stuck. -/
theorem stuck_of_early (hpc : s.destructor = .notifyAll) (hw : s.workers w = .block) :
    ((s.step .destructor).step (.worker w)).Stuck := by
  have hnotify : s.step .destructor =
      { s with workers := fun w => (s.workers w).wake, destructor := .join } := by
    simp [ThreadPool.step, step?, destructorStep, hpc]
  have hblock : (s.step .destructor).workers w = .block := by
    rw [hnotify]
    simp [hw, WorkerPc.wake, WorkerPc.isWaiting]
  have hsleep : (s.step .destructor).step (.worker w) =
      { (s.step .destructor).setWorker w .waiting with queueMutex := none } :=
    congrArg (fun o => Option.getD o (s.step .destructor)) (workerStep_block hblock)
  rw [hsleep]
  refine ⟨Or.inl (by rw [hnotify]; rfl), w, ?_⟩
  simp [setWorker]

end ThreadPool

end KeyValueDb
