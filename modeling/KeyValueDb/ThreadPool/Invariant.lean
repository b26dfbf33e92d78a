/-
# The invariant of the pool

Over all schedules.  The lock is held by whoever is between taking and releasing it, so what a
worker or a caller has found out about the queue stays true until it acts on it (`Sees`).  From
this follow what the calls of each caller came to (`Account`), the order of the tasks (`fifo`),
the account of the functions that were popped (`called`), and that a task in the queue never
waits for nobody (`awake`): some caller is about to notify, or some worker is on its way to look.
-/
import KeyValueDb.Lib.Mutex
import KeyValueDb.ThreadPool.Pool
import Mathlib.Algebra.BigOperators.Fin
import Mathlib.Algebra.Order.BigOperators.Group.Multiset

namespace KeyValueDb

open Lib Function

/-! ## 1. What a program counter stands for -/

section Pc

variable {τ : Type}

def WorkerPc.inside : WorkerPc τ → Bool
  | .predicate | .block | .take => true
  | _ => false

def EnqueuerPc.inside : EnqueuerPc τ → Bool
  | .check _ | .push _ => true
  | _ => false

/-- The worker will look at the queue before it blocks or exits. -/
def WorkerPc.active : WorkerPc τ → Bool
  | .block | .waiting | .exited => false
  | _ => true

/-- The function a worker has popped and not called yet. -/
def WorkerPc.held : WorkerPc τ → Multiset τ
  | .holds (some f) => {f}
  | _ => 0

@[simp] theorem inside_wake (pc : WorkerPc τ) : pc.wake.inside = pc.inside := by
  cases pc <;> rfl

@[simp] theorem held_wake (pc : WorkerPc τ) : pc.wake.held = pc.held := by
  cases pc <;> rfl

theorem active_wake {pc : WorkerPc τ} (h : pc.active = true) : pc.wake.active = true := by
  cases pc <;> simp_all [WorkerPc.active, WorkerPc.wake, WorkerPc.isWaiting]

/-- The task a caller is in a call with. -/
def EnqueuerPc.inCall : EnqueuerPc τ → Option (Task τ)
  | .idle => none
  | .lock task | .check task | .push task | .notify task => some task

/-- The task it has pushed in that call. -/
def EnqueuerPc.pushed : EnqueuerPc τ → Option (Task τ)
  | .notify task => some task
  | _ => none

end Pc

namespace ThreadPool

variable {n : Nat} {E τ : Type}

/-- Who is between taking the lock and releasing it. -/
def inside (s : ThreadPool n E τ) : Holder n E → Bool
  | .worker w => (s.workers w).inside
  | .enqueuer e => (s.enqueuers e).inside

/-- Nothing is left to do, and nothing will come. -/
structure Closed (s : ThreadPool n E τ) : Prop where
  stop : s.stop = true
  tasks : s.tasks = []
  noPush : ∀ e task, s.enqueuers e ≠ .push task

/-- What a worker knows at a point of its loop. -/
def Sees (s : ThreadPool n E τ) : WorkerPc τ → Prop
  | .block => s.tasks = []
  | .take => s.stop = true ∨ s.tasks ≠ []
  | .exited => s.Closed
  | _ => True

/-- Some caller is about to call `notify_one`. -/
def Notifying (s : ThreadPool n E τ) : Prop := ∃ e task, s.enqueuers e = .notify task

section Accounts

variable [DecidableEq E]

/-- The tasks one caller has pushed. -/
def acceptedFrom (e : E) (s : ThreadPool n E τ) : List (Task τ) :=
  (s.accepted.filter fun entry => entry.1 = e).map Prod.snd

/-- The tasks of its calls that returned. -/
def returnedFrom (e : E) (s : ThreadPool n E τ) : List (Task τ) :=
  ((s.ended e).filter fun call => call.2 = .returned).map Prod.fst

/-- What the calls of one caller came to. -/
structure Account (s : ThreadPool n E τ) (e : E) : Prop where
  /-- Every call has returned or thrown, except the one the caller is in. -/
  calls : s.calls e = (s.ended e).map Prod.fst ++ (s.enqueuers e).inCall.toList
  /-- The calls that returned have pushed their task, those that threw have not. -/
  accepted : s.acceptedFrom e = s.returnedFrom e ++ (s.enqueuers e).pushed.toList
  /-- A call throws only if the pool was stopped. -/
  threw : ∀ call ∈ s.ended e, call.2 = .threw → s.stop = true

/-- The invariant. -/
structure Inv (s : ThreadPool n E τ) : Prop where
  mutex : Guarded s.inside s.queueMutex
  sees : ∀ w, s.Sees (s.workers w)
  account : ∀ e, s.Account e
  fifo : s.popped ++ s.tasks = s.accepted.map Prod.snd
  called : (s.popped.filterMap id : Multiset τ) = s.started + ∑ w, (s.workers w).held
  awake : s.tasks ≠ [] → s.Notifying ∨ ∃ w, (s.workers w).active = true

theorem inv_construct (numThreads : Nat) :
    (construct numThreads : ThreadPool (threadCount numThreads) E τ).Inv where
  mutex := Guarded.free fun
    | .worker _ => rfl
    | .enqueuer _ => rfl
  sees _ := trivial
  account _ := ⟨rfl, rfl, fun _ hcall => absurd hcall List.not_mem_nil⟩
  fifo := rfl
  called := by simp [construct, WorkerPc.held]
  awake h := absurd rfl h

end Accounts

variable {s s' : ThreadPool n E τ} {w : Fin n} {e : E} {ev : Event n E τ}

/-! ## 2. The lock -/

section Lock

variable [DecidableEq E]

theorem inside_setWorker (pc : WorkerPc τ) :
    (s.setWorker w pc).inside = update s.inside (.worker w) pc.inside := by
  funext h
  cases h with
  | worker v =>
    by_cases hv : v = w
    · subst hv
      simp [inside, setWorker]
    · have hne : (Holder.worker v : Holder n E) ≠ .worker w := fun he => hv (Holder.worker.inj he)
      rw [update_of_ne hne]
      simp [inside, setWorker, update_of_ne hv]
  | enqueuer e => simp [inside, setWorker]

theorem inside_setEnqueuer (pc : EnqueuerPc τ) :
    (s.setEnqueuer e pc).inside = update s.inside (.enqueuer e) pc.inside := by
  funext h
  cases h with
  | worker v => simp [inside, setEnqueuer]
  | enqueuer f =>
    by_cases hf : f = e
    · subst hf
      simp [inside, setEnqueuer]
    · have hne : (Holder.enqueuer f : Holder n E) ≠ .enqueuer e :=
        fun he => hf (Holder.enqueuer.inj he)
      rw [update_of_ne hne]
      simp [inside, setEnqueuer, update_of_ne hf]

/-- The lock is held by whoever is inside. -/
theorem guarded_step (h : Guarded s.inside s.queueMutex) (hs : Stepped s ev s') :
    Guarded s'.inside s'.queueMutex := by
  have hworker : ∀ {w pc}, s.workers w = pc → s.inside (.worker w) = pc.inside :=
    fun hpc => congrArg WorkerPc.inside hpc
  have henqueuer : ∀ {e pc}, s.enqueuers e = pc → s.inside (.enqueuer e) = pc.inside :=
    fun hpc => congrArg EnqueuerPc.inside hpc
  cases hs with
  | acquire hpc hfree =>
    rw [hfree] at h
    exact (inside_setWorker (s := s) .predicate) ▸ h.acquire _
  | enter hpc hfree =>
    rw [hfree] at h
    exact (inside_setEnqueuer (s := s) (.check _)) ▸ h.acquire _
  | block hpc => exact (inside_setWorker (s := s) .waiting) ▸ h.release (hworker hpc)
  | exit hpc => exact (inside_setWorker (s := s) .exited) ▸ h.release (hworker hpc)
  | pop hpc => exact (inside_setWorker (s := s) (.holds _)) ▸ h.release (hworker hpc)
  | reject hpc => exact (inside_setEnqueuer (s := s) .idle) ▸ h.release (henqueuer hpc)
  | push hpc => exact (inside_setEnqueuer (s := s) (.notify _)) ▸ h.release (henqueuer hpc)
  | ready hpc => exact (inside_setWorker (s := s) .take) ▸ h.stay (hworker hpc).symm
  | notReady hpc => exact (inside_setWorker (s := s) .block) ▸ h.stay (hworker hpc).symm
  | skip hpc => exact (inside_setWorker (s := s) .lock) ▸ h.stay (hworker hpc).symm
  | run hpc => exact (inside_setWorker (s := s) .running) ▸ h.stay (hworker hpc).symm
  | finish hpc => exact (inside_setWorker (s := s) .lock) ▸ h.stay (hworker hpc).symm
  | call task hpc => exact (inside_setEnqueuer (s := s) (.lock task)) ▸ h.stay (henqueuer hpc).symm
  | accept hpc => exact (inside_setEnqueuer (s := s) (.push _)) ▸ h.stay (henqueuer hpc).symm
  | notifyNobody hpc => exact (inside_setEnqueuer (s := s) .idle) ▸ h.stay (henqueuer hpc).symm
  | notifyOne hpc hwaiting =>
    rename_i e woken task
    have hone : Guarded (s.endCall e task .returned).inside s.queueMutex :=
      (inside_setEnqueuer (s := s) .idle) ▸ h.stay (henqueuer hpc).symm
    refine (inside_setWorker (s := s.endCall e task .returned) .notified) ▸ hone.stay ?_
    exact (hworker hwaiting).symm
  | notifyAll =>
    intro holder
    rw [← h holder]
    cases holder with
    | worker w => simp [inside]
    | enqueuer e => rfl
  | stop => exact h
  | join => exact h

end Lock

/-! ## 3. What the workers know -/

/-- A step that leaves the queue alone, never takes a stop back, and lets nobody push who has
not looked at `stop_`. -/
theorem Sees.frame {pc : WorkerPc τ} (h : s.Sees pc) (htasks : s'.tasks = s.tasks)
    (hstop : s.stop = true → s'.stop = true)
    (hpush : s.stop = true → ∀ e task, s'.enqueuers e = .push task → s.enqueuers e = .push task) :
    s'.Sees pc := by
  cases pc with
  | block => exact htasks.trans h
  | take => exact h.imp hstop fun hne he => hne (htasks.symm.trans he)
  | exited =>
    obtain ⟨hs, ht, hp⟩ := h
    exact ⟨hstop hs, htasks.trans ht, fun e task he => hp e task (hpush hs e task he)⟩
  | _ => trivial

/-- What the workers know after one of them moved on. -/
theorem sees_setWorker {pc : WorkerPc τ} (hworkers : s'.workers = update s.workers w pc)
    (hpc : s'.Sees pc) (h : ∀ v, v ≠ w → s'.Sees (s.workers v)) (v : Fin n) :
    s'.Sees (s'.workers v) := by
  rw [hworkers]
  by_cases hv : v = w
  · subst hv
    rw [update_self]
    exact hpc
  · rw [update_of_ne hv]
    exact h v hv

/-- Nobody else is inside. -/
theorem not_inside_of_ne (hm : Guarded s.inside s.queueMutex) (holder other : Holder n E)
    (hin : s.inside holder = true) (hne : other ≠ holder) : s.inside other = false := by
  rw [Bool.eq_false_iff]
  exact fun ho => hne (hm.unique ho hin)

/-- A worker that is not inside knows something about the queue only when it has exited. -/
theorem Sees.of_not_inside {pc : WorkerPc τ} (hin : pc.inside = false) (hpc : pc ≠ .exited) :
    s'.Sees pc := by
  cases pc with
  | predicate | block | take => exact absurd hin (by simp [WorkerPc.inside])
  | exited => exact absurd rfl hpc
  | _ => trivial

variable [DecidableEq E]

theorem pusher_setEnqueuer {pc : EnqueuerPc τ} (hpc : ∀ task, pc ≠ .push task) :
    ∀ f task, (s.setEnqueuer e pc).enqueuers f = .push task → s.enqueuers f = .push task := by
  intro f task hf
  by_cases hfe : f = e
  · subst hfe
    simp only [setEnqueuer, update_self] at hf
    exact absurd hf (hpc task)
  · simpa only [setEnqueuer, update_of_ne hfe] using hf

theorem sees_step (hm : Guarded s.inside s.queueMutex) (h : ∀ w, s.Sees (s.workers w))
    (hs : Stepped s ev s') (v : Fin n) : s'.Sees (s'.workers v) := by
  -- what the others know when the step touches neither the queue, nor `stop_`, nor a caller
  have hframe : ∀ {s' : ThreadPool n E τ}, s'.tasks = s.tasks → s'.stop = s.stop →
      s'.enqueuers = s.enqueuers → ∀ v, s'.Sees (s.workers v) := by
    intro s' htasks hstop henqueuers v
    refine (h v).frame htasks (fun hset => hstop.trans hset) fun _ e task he => ?_
    rwa [henqueuers] at he
  cases hs with
  | acquire | skip | run | finish | block =>
    refine sees_setWorker (by rfl) ?_ (fun v _ => hframe (by rfl) (by rfl) (by rfl) v) v
    trivial
  | ready hpc hready =>
    refine sees_setWorker (by rfl) ?_ (fun v _ => hframe (by rfl) (by rfl) (by rfl) v) v
    exact hready
  | notReady hpc hstop htasks =>
    refine sees_setWorker (by rfl) ?_ (fun v _ => hframe (by rfl) (by rfl) (by rfl) v) v
    exact htasks
  | exit hpc hstop htasks =>
    rename_i w
    -- it holds the lock, so no caller is between its check and its push
    have hclosed : ∀ e task, s.enqueuers e ≠ .push task := by
      intro e task he
      have hother := not_inside_of_ne hm (.worker w) (.enqueuer e)
        (congrArg WorkerPc.inside hpc) (by simp)
      rw [show s.inside (.enqueuer e) = true from congrArg EnqueuerPc.inside he] at hother
      exact absurd hother (by decide)
    refine sees_setWorker (by rfl) ?_ (fun v _ => hframe (by rfl) (by rfl) (by rfl) v) v
    exact Closed.mk hstop htasks hclosed
  | pop hpc htasks =>
    rename_i w task rest
    refine sees_setWorker (by rfl) ?_ (fun v hvw => ?_) v
    · trivial
    have hother := not_inside_of_ne hm (.worker w) (.worker v)
      (congrArg WorkerPc.inside hpc) (fun he => hvw (Holder.worker.inj he))
    refine Sees.of_not_inside hother fun hexited => ?_
    have hv := h v
    rw [hexited] at hv
    have hempty : s.tasks = [] := Closed.tasks hv
    rw [htasks] at hempty
    exact absurd hempty (by simp)
  | push hpc =>
    rename_i e _ task
    have hother := not_inside_of_ne hm (.enqueuer e) (.worker v)
      (congrArg EnqueuerPc.inside hpc) (by simp)
    refine Sees.of_not_inside hother fun hexited => ?_
    have hv := h v
    rw [show s.workers v = .exited from hexited] at hv
    exact Closed.noPush hv e task hpc
  | call task hpc =>
    exact (h v).frame rfl id fun _ => pusher_setEnqueuer fun _ => by simp
  | enter hpc hfree =>
    exact (h v).frame rfl id fun _ => pusher_setEnqueuer fun _ => by simp
  | reject hpc hstop =>
    exact (h v).frame rfl id fun _ => pusher_setEnqueuer fun _ => by simp
  | accept hpc hstop =>
    refine (h v).frame rfl id fun hset => ?_
    rw [hstop] at hset
    exact absurd hset (by decide)
  | notifyOne hpc hwaiting =>
    rename_i e woken task
    have hone : ∀ w, (s.setEnqueuer e .idle).Sees (s.workers w) := fun w =>
      (h w).frame rfl id fun _ => pusher_setEnqueuer fun _ => by simp
    refine sees_setWorker (s := s.endCall e task .returned) (by rfl) ?_ (fun v _ => ?_) v
    · trivial
    · exact (hone v).frame rfl id fun _ _ _ => id
  | notifyNobody hpc hnobody =>
    exact (h v).frame rfl id fun _ => pusher_setEnqueuer fun _ => by simp
  | stop hpc => exact (h v).frame rfl (fun _ => rfl) fun _ _ _ => id
  | notifyAll hpc =>
    have hv : ThreadPool.Sees { s with
        workers := fun w => (s.workers w).wake, destructor := .join } (s.workers v) :=
      (h v).frame rfl id fun _ _ _ => id
    dsimp only
    unfold WorkerPc.wake
    split
    · trivial
    · exact hv
  | join hpc hexited => exact (h v).frame rfl id fun _ _ _ => id

/-! ## 4. The calls -/

/-- A step that ends no call of the caller and pushes nothing for it. -/
theorem Account.frame (h : s.Account e) (hcalls : s'.calls e = s.calls e)
    (hended : s'.ended e = s.ended e) (haccepted : s'.acceptedFrom e = s.acceptedFrom e)
    (hin : (s'.enqueuers e).inCall = (s.enqueuers e).inCall)
    (hpushed : (s'.enqueuers e).pushed = (s.enqueuers e).pushed)
    (hstop : s.stop = true → s'.stop = true) : s'.Account e where
  calls := by rw [hcalls, hended, hin, h.calls]
  accepted := by rw [haccepted, hpushed, h.accepted, returnedFrom, returnedFrom, hended]
  threw call hcall hthrew := by
    rw [hended] at hcall
    exact hstop (h.threw call hcall hthrew)

/-- A call ends as it should: having pushed its task if it returns, and with the pool stopped and
nothing pushed if it throws. -/
theorem account_endCall (h : ∀ e, s.Account e) (task : Task τ) (outcome : CallOutcome)
    (hin : (s.enqueuers e).inCall = some task)
    (hpushed : (s.enqueuers e).pushed = if outcome = .returned then some task else none)
    (hstop : outcome = .threw → s.stop = true) (f : E) :
    (s.endCall e task outcome).Account f := by
  by_cases hf : f = e
  · subst hf
    refine ⟨?_, ?_, fun call hcall hthrew => ?_⟩
    · have hcalls := (h f).calls
      rw [hin] at hcalls
      simpa [endCall, setEnqueuer, EnqueuerPc.inCall] using hcalls
    · have haccepted := (h f).accepted
      rw [hpushed] at haccepted
      cases outcome <;>
        simpa [acceptedFrom, returnedFrom, endCall, setEnqueuer, EnqueuerPc.pushed]
          using haccepted
    · simp only [endCall, update_self, List.mem_append, List.mem_singleton] at hcall
      rcases hcall with hcall | rfl
      · exact (h f).threw call hcall hthrew
      · exact hstop hthrew
  · refine (h f).frame rfl (update_of_ne hf ..) rfl ?_ ?_ id
    · exact congrArg EnqueuerPc.inCall (update_of_ne hf ..)
    · exact congrArg EnqueuerPc.pushed (update_of_ne hf ..)

/-- A caller moves on within its call. -/
theorem account_setEnqueuer (h : ∀ e, s.Account e) (e : E) (pc : EnqueuerPc τ)
    (hin : pc.inCall = (s.enqueuers e).inCall) (hpushed : pc.pushed = (s.enqueuers e).pushed)
    (f : E) : (s.setEnqueuer e pc).Account f := by
  by_cases hf : f = e
  · subst hf
    refine (h f).frame rfl rfl rfl ?_ ?_ id
    · simpa only [setEnqueuer, update_self] using hin
    · simpa only [setEnqueuer, update_self] using hpushed
  · refine (h f).frame rfl rfl rfl ?_ ?_ id
    · exact congrArg EnqueuerPc.inCall (update_of_ne hf ..)
    · exact congrArg EnqueuerPc.pushed (update_of_ne hf ..)

theorem account_step (h : ∀ e, s.Account e) (hs : Stepped s ev s') (f : E) : s'.Account f := by
  cases hs with
  | acquire | ready | notReady | block | exit | pop | skip | run | finish | notifyAll | join =>
    exact (h f).frame rfl rfl rfl rfl rfl id
  | stop => exact (h f).frame rfl rfl rfl rfl rfl fun _ => rfl
  | call task hpc =>
    rename_i e
    by_cases hf : f = e
    · subst hf
      have hcalls := (h f).calls
      have haccepted := (h f).accepted
      rw [hpc] at hcalls haccepted
      refine ⟨?_, ?_, (h f).threw⟩
      · simpa [setEnqueuer, EnqueuerPc.inCall] using hcalls
      · simpa [setEnqueuer, EnqueuerPc.pushed, acceptedFrom, returnedFrom] using haccepted
    · refine (h f).frame (update_of_ne hf ..) rfl rfl ?_ ?_ id
      · exact congrArg EnqueuerPc.inCall (update_of_ne hf ..)
      · exact congrArg EnqueuerPc.pushed (update_of_ne hf ..)
  | enter hpc hfree =>
    rename_i e _ task
    have hmoved := account_setEnqueuer h e (.check task) (by rw [hpc]; rfl) (by rw [hpc]; rfl) f
    exact hmoved.frame rfl rfl rfl rfl rfl id
  | accept hpc hstop =>
    rename_i e _ task
    exact account_setEnqueuer h e (.push task) (by rw [hpc]; rfl) (by rw [hpc]; rfl) f
  | reject hpc hstop =>
    rename_i e _ task
    have hended := account_endCall h task .threw (by rw [hpc]; rfl) (by rw [hpc]; rfl)
      (fun _ => hstop) f
    exact hended.frame rfl rfl rfl rfl rfl id
  | push hpc =>
    rename_i e _ task
    by_cases hf : f = e
    · subst hf
      have hcalls := (h f).calls
      have haccepted := (h f).accepted
      rw [hpc] at hcalls haccepted
      refine ⟨?_, ?_, (h f).threw⟩
      · simpa [setEnqueuer, EnqueuerPc.inCall] using hcalls
      · simpa [setEnqueuer, EnqueuerPc.pushed, acceptedFrom, returnedFrom] using haccepted
    · refine (h f).frame rfl rfl ?_ ?_ ?_ id
      · simp [acceptedFrom, List.filter_append, Ne.symm hf]
      · exact congrArg EnqueuerPc.inCall (update_of_ne hf ..)
      · exact congrArg EnqueuerPc.pushed (update_of_ne hf ..)
  | notifyOne hpc hwaiting =>
    rename_i e woken task
    have hended := account_endCall h task .returned (by rw [hpc]; rfl) (by rw [hpc]; rfl)
      (fun hthrew => by cases hthrew) f
    exact hended.frame rfl rfl rfl rfl rfl id
  | notifyNobody hpc hnobody =>
    rename_i task
    exact account_endCall h task .returned (by rw [hpc]; rfl) (by rw [hpc]; rfl)
      (fun hthrew => by cases hthrew) f

/-! ## 5. The tasks -/

theorem fifo_step (h : s.popped ++ s.tasks = s.accepted.map Prod.snd) (hs : Stepped s ev s') :
    s'.popped ++ s'.tasks = s'.accepted.map Prod.snd := by
  cases hs with
  | pop hpc htasks =>
    rw [htasks] at h
    simpa [setWorker] using h
  | push hpc =>
    dsimp only [setEnqueuer]
    rw [← List.append_assoc, h, List.map_append]
    rfl
  | _ => exact h

/-- What the threads have between them, after one of them moved on. -/
theorem sum_update {ι P M : Type*} [Fintype ι] [DecidableEq ι] [AddCommMonoid M] (f : P → M)
    (g : ι → P) (i : ι) (p : P) :
    ∑ j, f (update g i p j) + f (g i) = ∑ j, f (g j) + f p := by
  have hsplit : ∀ k : ι → P, ∑ j, f (k j) = f (k i) + ∑ j ∈ Finset.univ.erase i, f (k j) :=
    fun k => (Finset.add_sum_erase Finset.univ (fun j => f (k j)) (Finset.mem_univ i)).symm
  have hothers : ∑ j ∈ Finset.univ.erase i, f (update g i p j) =
      ∑ j ∈ Finset.univ.erase i, f (g j) :=
    Finset.sum_congr rfl fun j hj => by rw [update_of_ne (Finset.ne_of_mem_erase hj)]
  rw [hsplit (update g i p), hsplit g, hothers, update_self]
  rw [add_comm, add_comm (f p), add_assoc]

theorem sum_held_same {workers : Fin n → WorkerPc τ} {pc : WorkerPc τ}
    (h : pc.held = (workers w).held) :
    ∑ v, (update workers w pc v).held = ∑ v, (workers v).held := by
  have hsum := sum_update WorkerPc.held workers w pc
  rw [h] at hsum
  exact add_right_cancel hsum

theorem called_step
    (h : (s.popped.filterMap id : Multiset τ) = s.started + ∑ w, (s.workers w).held)
    (hs : Stepped s ev s') :
    (s'.popped.filterMap id : Multiset τ) = s'.started + ∑ w, (s'.workers w).held := by
  cases hs with
  | pop hpc htasks =>
    rename_i w task rest
    have hsum := sum_update WorkerPc.held s.workers w (.holds task)
    rw [hpc, show (WorkerPc.take : WorkerPc τ).held = 0 from rfl, add_zero] at hsum
    dsimp only [setWorker]
    rw [hsum, List.filterMap_append, ← Multiset.coe_add, h, add_assoc]
    cases task <;> rfl
  | run hpc =>
    rename_i w f
    have hsum := sum_update WorkerPc.held s.workers w .running
    rw [hpc, show (WorkerPc.running : WorkerPc τ).held = 0 from rfl, add_zero] at hsum
    dsimp only [setWorker]
    rw [h, ← hsum, ← Multiset.coe_add, add_comm (∑ v, _), ← add_assoc]
    rfl
  | acquire hpc =>
    refine h.trans (congrArg _ (sum_held_same ?_).symm)
    rcases hpc with hpc | hpc <;> rw [hpc] <;> rfl
  | ready hpc | notReady hpc | block hpc | exit hpc | skip hpc | finish hpc =>
    exact h.trans (congrArg _ (sum_held_same (by rw [hpc]; rfl)).symm)
  | notifyOne hpc hwaiting =>
    exact h.trans (congrArg _ (sum_held_same (by rw [hwaiting]; rfl)).symm)
  | notifyAll hpc => simpa using h
  | call | enter | reject | accept | push | notifyNobody | stop | join => exact h

/-! ## 6. No task waits for nobody -/

omit [DecidableEq E] in
/-- A worker that is not blocked finds the tasks of the queue. -/
theorem active_of_sees (h : s.Sees (s.workers w)) (htasks : s.tasks ≠ [])
    (hwaiting : s.workers w ≠ .waiting) : (s.workers w).active = true := by
  cases hpc : s.workers w with
  | block =>
    rw [hpc] at h
    exact absurd h htasks
  | exited =>
    rw [hpc] at h
    exact absurd (Closed.tasks h) htasks
  | waiting => exact absurd hpc hwaiting
  | _ => rfl

theorem awake_step (hn : 0 < n) (hsees : ∀ w, s.Sees (s.workers w))
    (h : s.tasks ≠ [] → s.Notifying ∨ ∃ w, (s.workers w).active = true)
    (hs : Stepped s ev s') (htasks : s'.tasks ≠ []) :
    s'.Notifying ∨ ∃ w, (s'.workers w).active = true := by
  -- a worker that moves to a point where it is active
  have hmoved : ∀ {s' : ThreadPool n E τ} {w : Fin n} {pc : WorkerPc τ},
      s'.workers = update s.workers w pc → pc.active = true →
      s'.Notifying ∨ ∃ w, (s'.workers w).active = true := by
    intro s' w pc hworkers hpc
    exact Or.inr ⟨w, by rw [hworkers, update_self]; exact hpc⟩
  -- a caller that was not about to notify
  have hcaller : ∀ {s' : ThreadPool n E τ} {e : E} {pc : EnqueuerPc τ},
      s'.enqueuers = update s.enqueuers e pc → (∀ task, s.enqueuers e ≠ .notify task) →
      s'.workers = s.workers → s.tasks ≠ [] →
      s'.Notifying ∨ ∃ w, (s'.workers w).active = true := by
    intro s' e pc henqueuers hpc hworkers hqueue
    rw [hworkers]
    refine (h hqueue).imp ?_ id
    rintro ⟨f, task, hf⟩
    refine ⟨f, task, ?_⟩
    rw [henqueuers, update_of_ne]
    · exact hf
    · rintro rfl
      exact hpc task hf
  cases hs with
  | acquire => exact hmoved rfl rfl
  | ready => exact hmoved rfl rfl
  | notReady hpc hstop hempty => exact absurd hempty htasks
  | block hpc =>
    rename_i w
    have hw := hsees w
    rw [hpc] at hw
    exact absurd hw htasks
  | exit hpc hstop hempty => exact absurd hempty htasks
  | pop => exact hmoved rfl rfl
  | skip => exact hmoved rfl rfl
  | run => exact hmoved rfl rfl
  | finish => exact hmoved rfl rfl
  | call task hpc => exact hcaller rfl (by simp [hpc]) rfl htasks
  | enter hpc => exact hcaller rfl (by simp [hpc]) rfl htasks
  | reject hpc => exact hcaller rfl (by simp [hpc]) rfl htasks
  | accept hpc => exact hcaller rfl (by simp [hpc]) rfl htasks
  | push hpc =>
    rename_i e _ task
    exact Or.inl ⟨e, task, by simp [setEnqueuer]⟩
  | notifyOne hpc hwaiting =>
    rename_i e woken task
    exact Or.inr ⟨woken, by simp [setWorker, WorkerPc.active]⟩
  | notifyNobody hpc hnobody =>
    -- nobody is blocked, so everybody is active, and there is somebody
    have hqueue : s.tasks ≠ [] := htasks
    have hactive := active_of_sees (hsees ⟨0, hn⟩) hqueue (hnobody ⟨0, hn⟩)
    exact Or.inr ⟨⟨0, hn⟩, hactive⟩
  | stop => exact h htasks
  | notifyAll =>
    refine (h htasks).imp id ?_
    rintro ⟨w, hw⟩
    exact ⟨w, active_wake hw⟩
  | join => exact h htasks

/-- **Every step keeps the invariant.** -/
theorem Inv.step (hn : 0 < n) (h : s.Inv) (ev : Event n E τ) : (s.step ev).Inv := by
  rcases s.step_cases ev with heq | hs
  · rw [heq]
    exact h
  · exact ⟨guarded_step h.mutex hs, sees_step h.mutex h.sees hs, account_step h.account hs,
      fifo_step h.fifo hs, called_step h.called hs, awake_step hn h.sees h.awake hs⟩

theorem threadCount_pos (numThreads : Nat) : 0 < threadCount numThreads := by
  unfold threadCount
  split
  · exact Nat.zero_lt_two
  · rename_i h
    exact Nat.pos_of_ne_zero h

theorem always_inv (numThreads : Nat) (evs : List (Event (threadCount numThreads) E τ)) :
    Always step Inv evs (construct numThreads) :=
  always_of_steps (C := fun _ _ => True)
    (fun _ ev h _ => h.step (threadCount_pos numThreads) ev) (inv_construct numThreads)
    (steps_of_forall (C := fun _ => True) (fun _ _ => trivial) _)

end ThreadPool

end KeyValueDb
