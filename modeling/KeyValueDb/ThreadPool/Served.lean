/-
# Every accepted task is served

What the invariant says at the ends of runs: when no worker and no call can take a step, or when
all workers have exited, every task was popped and every function called (`drained`).  The steps
of workers and calls use up a measure (`work`), so they do come to such an end, unless new calls
come in (`runs_out`).
-/
import KeyValueDb.ThreadPool.Invariant

namespace KeyValueDb

open Lib Function

/-- A bound on the steps a worker can take before it is blocked again, new tasks apart. -/
def WorkerPc.work {τ : Type} : WorkerPc τ → Nat
  | .waiting | .exited => 0
  | .block => 1
  | .take => 2
  | .predicate => 3
  | .lock | .notified => 4
  | .running => 5
  | .holds _ => 6

/-- The same for a call, with those of the worker that takes the task. -/
def EnqueuerPc.work {τ : Type} : EnqueuerPc τ → Nat
  | .idle => 0
  | .notify _ => 5
  | .push _ => 11
  | .check _ => 12
  | .lock _ => 13

namespace ThreadPool

variable {n : Nat} {E τ : Type} [DecidableEq E]
variable {s s' : ThreadPool n E τ} {w : Fin n} {e : E} {ev : Event n E τ}

/-! ## 1. Who can take a step -/

/-- A worker, or a caller in its call, takes a step. -/
def Moves (s : ThreadPool n E τ) : Event n E τ → Prop
  | .worker w => (s.workerStep w).isSome = true
  | .enqueuer e woken => (s.enqueuerStep e woken).isSome = true
  | .call _ _ | .destructor => False

/-- No worker can take a step, and no caller in its call. -/
def AtRest (s : ThreadPool n E τ) : Prop := ∀ ev, ¬ s.Moves ev

theorem Moves.stepped (h : s.Moves ev) : Stepped s ev (s.step ev) := by
  have hsome : ∃ s', s.step? ev = some s' := by
    cases ev with
    | worker w => exact Option.isSome_iff_exists.mp h
    | enqueuer e woken => exact Option.isSome_iff_exists.mp h
    | call e task => cases h
    | destructor => cases h
  obtain ⟨s', hs'⟩ := hsome
  unfold step
  rw [hs']
  exact stepped_of_step? hs'

omit [DecidableEq E] in
/-- A worker that cannot take a step is blocked, has left, or wants the lock. -/
theorem stays_worker (hsees : s.Sees (s.workers w)) (h : s.workerStep w = none) :
    s.workers w = .waiting ∨ s.workers w = .exited ∨
      (s.queueMutex ≠ none ∧ (s.workers w).inside = false) := by
  unfold workerStep at h
  split at h
  · rename_i hpc
    refine Or.inr (Or.inr ⟨fun hfree => ?_, by rw [hpc]; rfl⟩)
    simp [hfree] at h
  · rename_i hpc
    refine Or.inr (Or.inr ⟨fun hfree => ?_, by rw [hpc]; rfl⟩)
    simp [hfree] at h
  · exact absurd h (by simp)
  · exact absurd h (by simp)
  · rename_i hpc
    exact Or.inl hpc
  · rename_i hpc
    split at h
    · exact absurd h (by simp)
    · rename_i hexit
      rw [hpc] at hsees
      split at h
      · rename_i hempty
        rcases hsees with hstop | hne
        · simp [hstop, hempty] at hexit
        · exact absurd hempty hne
      · exact absurd h (by simp)
  · exact absurd h (by simp)
  · exact absurd h (by simp)
  · exact absurd h (by simp)
  · rename_i hpc
    exact Or.inr (Or.inl hpc)

/-- A caller that cannot take a step is in no call, or wants the lock. -/
theorem stays_enqueuer (hn : 0 < n) (h : ∀ woken, s.enqueuerStep e woken = none) :
    s.enqueuers e = .idle ∨ (s.queueMutex ≠ none ∧ (s.enqueuers e).inside = false) := by
  cases hpc : s.enqueuers e with
  | idle => exact Or.inl rfl
  | lock task =>
    refine Or.inr ⟨fun hfree => ?_, rfl⟩
    have hstep := h ⟨0, hn⟩
    simp [enqueuerStep, hpc, hfree] at hstep
  | check task =>
    have hstep := h ⟨0, hn⟩
    unfold enqueuerStep at hstep
    rw [hpc] at hstep
    dsimp only at hstep
    split at hstep <;> exact absurd hstep (by simp)
  | push task =>
    have hstep := h ⟨0, hn⟩
    simp [enqueuerStep, hpc] at hstep
  | notify task =>
    -- `notify_one` wakes somebody, or there is nobody to wake
    by_cases hany : ∃ w, (s.workers w).isWaiting = true
    · obtain ⟨w, hw⟩ := hany
      have hstep := h w
      simp [enqueuerStep, hpc, hw] at hstep
    · have hnobody : ∀ w, (s.workers w).isWaiting = false := fun w =>
        Bool.eq_false_iff.mpr fun hw => hany ⟨w, hw⟩
      have hstep := h ⟨0, hn⟩
      simp [enqueuerStep, hpc, hnobody] at hstep

/-- **A pool at rest has done everything**: whoever holds the lock could take a step, so nobody
holds it, and then only blocked workers and callers outside their calls are left. -/
theorem AtRest.done (hn : 0 < n) (h : s.Inv) (hrest : s.AtRest) :
    (∀ w, s.workers w = .waiting ∨ s.workers w = .exited) ∧ ∀ e, s.enqueuers e = .idle := by
  have hworkers := fun w => stays_worker (h.sees w)
    (Option.not_isSome_iff_eq_none.mp (hrest (.worker w)))
  have henqueuers := fun e => stays_enqueuer (s := s) (e := e) hn fun woken =>
    Option.not_isSome_iff_eq_none.mp (hrest (.enqueuer e woken))
  have hfree : s.queueMutex = none := by
    rcases hmutex : s.queueMutex with _ | holder
    · rfl
    have hin := (h.mutex holder).mpr hmutex
    cases holder with
    | worker w =>
      have hin' : (s.workers w).inside = true := hin
      rcases hworkers w with hpc | hpc | ⟨-, hout⟩
      · rw [hpc] at hin'
        cases hin'
      · rw [hpc] at hin'
        cases hin'
      · rw [hout] at hin'
        cases hin'
    | enqueuer e =>
      have hin' : (s.enqueuers e).inside = true := hin
      rcases henqueuers e with hpc | ⟨-, hout⟩
      · rw [hpc] at hin'
        cases hin'
      · rw [hout] at hin'
        cases hin'
  refine ⟨fun w => ?_, fun e => ?_⟩
  · rcases hworkers w with hpc | hpc | ⟨hheld, -⟩
    · exact Or.inl hpc
    · exact Or.inr hpc
    · exact absurd hfree hheld
  · rcases henqueuers e with hpc | ⟨hheld, -⟩
    · exact hpc
    · exact absurd hfree hheld

/-! ## 2. How long the steps can go on -/

section Work

variable [Fintype E]

/-- A bound on the steps left before the pool is at rest. -/
def work (s : ThreadPool n E τ) : Nat :=
  5 * s.tasks.length + ∑ w, (s.workers w).work + ∑ e, (s.enqueuers e).work

omit [DecidableEq E] in
/-- A worker moves on, and nothing else happens that counts. -/
theorem work_worker_lt {pc : WorkerPc τ} (hworkers : s'.workers = update s.workers w pc)
    (htasks : s'.tasks = s.tasks) (henqueuers : s'.enqueuers = s.enqueuers)
    (h : pc.work < (s.workers w).work) : s'.work < s.work := by
  have hsum := sum_update WorkerPc.work s.workers w pc
  simp only [work, hworkers, htasks, henqueuers]
  omega

/-- The same for a call. -/
theorem work_enqueuer_lt {pc : EnqueuerPc τ} (henqueuers : s'.enqueuers = update s.enqueuers e pc)
    (htasks : s'.tasks = s.tasks) (hworkers : s'.workers = s.workers)
    (h : pc.work < (s.enqueuers e).work) : s'.work < s.work := by
  have hsum := sum_update EnqueuerPc.work s.enqueuers e pc
  simp only [work, hworkers, htasks, henqueuers]
  omega

/-- **Every step of a worker or of a call uses up some of it.** -/
theorem work_lt (h : s.Moves ev) : (s.step ev).work < s.work := by
  have hs := h.stepped
  generalize s.step ev = s' at hs
  cases hs with
  | acquire hpc =>
    refine work_worker_lt (by rfl) (by rfl) (by rfl) ?_
    rcases hpc with hpc | hpc <;> simp [hpc, WorkerPc.work]
  | ready hpc | notReady hpc | block hpc | exit hpc | skip hpc | run hpc | finish hpc =>
    exact work_worker_lt (by rfl) (by rfl) (by rfl) (by simp [hpc, WorkerPc.work])
  | enter hpc | reject hpc | accept hpc | notifyNobody hpc =>
    exact work_enqueuer_lt (by rfl) (by rfl) (by rfl) (by simp [hpc, EnqueuerPc.work])
  | pop hpc htasks =>
    -- the worker has more to do, the queue less
    rename_i w task rest
    have hsum := sum_update WorkerPc.work s.workers w (.holds task)
    rw [hpc] at hsum
    change _ + 2 = ∑ v, (s.workers v).work + 6 at hsum
    simp only [work, setWorker, htasks, List.length_cons]
    omega
  | push hpc =>
    rename_i e _ task
    have hsum := sum_update EnqueuerPc.work s.enqueuers e (.notify task)
    rw [hpc] at hsum
    change _ + 11 = ∑ f, (s.enqueuers f).work + 5 at hsum
    simp only [work, setEnqueuer, List.length_append, List.length_singleton]
    omega
  | notifyOne hpc hwaiting =>
    -- the call is over, and a worker has something to do
    rename_i e woken task
    have hcall := sum_update EnqueuerPc.work s.enqueuers e .idle
    have hwoken := sum_update WorkerPc.work s.workers woken .notified
    rw [hpc] at hcall
    rw [hwaiting] at hwoken
    change _ + 5 = ∑ f, (s.enqueuers f).work + 0 at hcall
    change _ + 0 = ∑ v, (s.workers v).work + 4 at hwoken
    simp only [work, setWorker, endCall, setEnqueuer]
    omega
  | call | stop | notifyAll | join => cases h

end Work

/-! ## 3. What the pool owes -/

/-- What the pool owes for the tasks it accepted. -/
structure Serves (s : ThreadPool n E τ) : Prop where
  /-- What the calls of each caller came to: the tasks of those that returned are the tasks
  accepted from it. -/
  account : ∀ e, s.Account e
  /-- A caller that finds `stop_` set throws and leaves the queue alone. -/
  rejects : ∀ e task woken, s.enqueuers e = .check task → s.stop = true →
    (s.step (.enqueuer e woken)).tasks = s.tasks ∧
      (s.step (.enqueuer e woken)).accepted = s.accepted ∧
      (s.step (.enqueuer e woken)).ended e = s.ended e ++ [(task, .threw)] ∧
      (s.step (.enqueuer e woken)).enqueuers e = .idle
  /-- Popped in the order in which they were pushed, each of them once. -/
  fifo : s.popped ++ s.tasks = s.accepted.map Prod.snd
  /-- A pop finds a task. -/
  nonempty : ∀ w, s.workers w = .take → ¬ (s.stop = true ∧ s.tasks = []) → s.tasks ≠ []
  /-- A function that was popped was called, once, or some worker holds it. -/
  called : (s.popped.filterMap id : Multiset τ) = s.started + ∑ w, (s.workers w).held
  /-- A worker that holds a function calls it. -/
  calls : ∀ w f, s.workers w = .holds (some f) →
    (s.step (.worker w)).started = s.started ++ [f] ∧ (s.step (.worker w)).workers w = .running
  /-- While there is a task, some caller is about to notify or some worker will look. -/
  awake : s.tasks ≠ [] → s.Notifying ∨ ∃ w, (s.workers w).active = true
  /-- When no worker and no call can take a step, or all workers have exited, every accepted task
  was popped, and called if it holds a function. -/
  drained : s.AtRest ∨ (∀ w, s.workers w = .exited) →
    s.popped = s.accepted.map Prod.snd ∧
      s.started.Perm ((s.accepted.map Prod.snd).filterMap id)
  /-- When no worker and no call can take a step, every call is over. -/
  answered : s.AtRest → ∀ e, s.calls e = (s.ended e).map Prod.fst

/-- Nothing is left in the queue of a pool whose workers are all blocked or gone. -/
theorem Inv.drained (h : s.Inv) (htasks : s.tasks = [])
    (hidle : ∀ w, s.workers w = .waiting ∨ s.workers w = .exited) :
    s.popped = s.accepted.map Prod.snd ∧
      s.started.Perm ((s.accepted.map Prod.snd).filterMap id) := by
  have hpopped : s.popped = s.accepted.map Prod.snd := by
    rw [← h.fifo, htasks, List.append_nil]
  refine ⟨hpopped, ?_⟩
  have hheld : ∑ w, (s.workers w).held = 0 :=
    Finset.sum_eq_zero fun w _ => by rcases hidle w with hw | hw <;> rw [hw] <;> rfl
  have hcalled := h.called
  rw [hheld, add_zero, hpopped] at hcalled
  exact (Multiset.coe_eq_coe.mp hcalled).symm

theorem Inv.serves (hn : 0 < n) (h : s.Inv) : s.Serves where
  account := h.account
  rejects e task woken hpc hstop := by
    simp [ThreadPool.step, step?, enqueuerStep, hpc, hstop, endCall, setEnqueuer]
  fifo := h.fifo
  nonempty w hpc hexit hempty := by
    have hw := h.sees w
    rw [hpc] at hw
    rcases hw with hstop | hne
    · exact hexit ⟨hstop, hempty⟩
    · exact hne hempty
  called := h.called
  calls w f hpc := by simp [ThreadPool.step, step?, workerStep, hpc, setWorker]
  awake := h.awake
  drained := by
    rintro (hrest | hexited)
    · obtain ⟨hidle, hcallers⟩ := hrest.done hn h
      refine h.drained (by_contra fun htasks => ?_) hidle
      rcases h.awake htasks with ⟨e, task, hpc⟩ | ⟨w, hw⟩
      · rw [hcallers e] at hpc
        cases hpc
      · rcases hidle w with hpc | hpc <;> rw [hpc] at hw <;> cases hw
    · have hclosed := h.sees ⟨0, hn⟩
      rw [hexited] at hclosed
      exact h.drained (Closed.tasks hclosed) fun w => Or.inr (hexited w)
  answered hrest e := by
    have hcalls := (h.account e).calls
    rw [(hrest.done hn h).2 e] at hcalls
    simpa [EnqueuerPc.inCall] using hcalls

/-- **Every accepted task runs exactly once**: for any number of workers, any callers and any
schedule, in every state reached. -/
theorem always_serves (numThreads : Nat) (evs : List (Event (threadCount numThreads) E τ)) :
    Always step Serves evs (construct numThreads) :=
  (always_inv numThreads evs).mono fun _ h => h.serves (threadCount_pos numThreads)

/-- **The workers get to every task**: after any schedule, the steps of the workers and of the
calls that are under way come to an end, and then every accepted task was popped and called. -/
theorem runs_out [Fintype E] (numThreads : Nat)
    (evs : List (Event (threadCount numThreads) E τ)) :
    let s := evs.foldl step (construct numThreads)
    (∀ more, Steps step Moves more s → more.length ≤ s.work) ∧
      ∃ more, Steps step Moves more s ∧ (more.foldl step s).AtRest ∧
        (more.foldl step s).popped = (more.foldl step s).accepted.map Prod.snd ∧
        (more.foldl step s).started.Perm
          (((more.foldl step s).accepted.map Prod.snd).filterMap id) := by
  intro s
  have hwork : ∀ (s : ThreadPool (threadCount numThreads) E τ) ev, s.Moves ev →
      (s.step ev).work < s.work := fun _ _ h => work_lt h
  refine ⟨fun more h => Nat.le_of_add_right_le (length_add_le work hwork h), ?_⟩
  obtain ⟨more, hmoves, hrest⟩ := exists_steps work hwork s
  have hserves := (always_serves numThreads (evs ++ more)).last
  rw [List.foldl_append] at hserves
  exact ⟨more, hmoves, hrest, hserves.drained (Or.inl hrest)⟩

/-- One call, one worker, one task. -/
example :
    let w : Fin (threadCount 1) := ⟨0, Nat.zero_lt_one⟩
    let evs : List (Event (threadCount 1) Unit Unit) :=
      [.call () (some ()), .enqueuer () w, .enqueuer () w, .enqueuer () w, .enqueuer () w,
        .worker w, .worker w, .worker w, .worker w]
    (evs.foldl step (construct 1)).ended () = [(some (), .returned)] ∧
      (evs.foldl step (construct 1)).started = [()] :=
  ⟨rfl, rfl⟩

end ThreadPool

end KeyValueDb
