/-
# Sections under shared mutexes

Resources with a readers-writer lock each, and threads that work on them in sections: a section
takes one lock, shared or exclusively, works step by step and gives the lock back.  Between two
steps of one thread any others can come (`FineStep`).

If sections under a shared lock leave their resource alone, such a run is a run in which every
section happens at once, in the order in which the locks are given back (`fine_refines`): the
resources that nobody holds exclusively and the threads between two sections cannot tell.
-/
import Mathlib.Data.List.Basic
import Mathlib.Logic.Function.Basic

namespace KeyValueDb.Lib

open Function

variable {T ι σ α L : Type*}

/-! ## 1. Sections -/

/-- What a thread does under the lock of one resource, to what it carries and to the resource.
Under a shared lock it leaves the resource alone. -/
structure LockedSection (ι σ α : Type*) where
  resource : ι
  exclusive : Bool
  steps : List (α × σ → α × σ)
  reads : exclusive = false → ∀ f ∈ steps, ∀ x, (f x).2 = x.2

namespace LockedSection

/-- Steps one after the other. -/
def runSteps (steps : List (α × σ → α × σ)) (x : α × σ) : α × σ := steps.foldl (fun x f => f x) x

/-- The whole section. -/
def run (sec : LockedSection ι σ α) (x : α × σ) : α × σ := runSteps sec.steps x

theorem runSteps_append (steps : List (α × σ → α × σ)) (f : α × σ → α × σ) (x : α × σ) :
    runSteps (steps ++ [f]) x = f (runSteps steps x) := by
  simp [runSteps]

theorem runSteps_reads {steps : List (α × σ → α × σ)} (h : ∀ f ∈ steps, ∀ x, (f x).2 = x.2)
    (x : α × σ) : (runSteps steps x).2 = x.2 := by
  induction steps generalizing x with
  | nil => rfl
  | cons f fs ih =>
    exact (ih (fun g hg => h g (List.mem_cons_of_mem f hg)) (f x)).trans (h f List.mem_cons_self x)

end LockedSection

open LockedSection

/-- Where a thread is: between two sections, or in one, with the steps that are left of it.  The
label says which section of the program it is. -/
inductive LockPlace (ι σ α L : Type*)
  | outside (a : α)
  | inside (label : L) (sec : LockedSection ι σ α) (todo : List (α × σ → α × σ)) (a : α)

/-- The resources and the threads. -/
structure FineState (T ι σ α L : Type*) where
  resources : ι → σ
  places : T → LockPlace ι σ α L

/-- The same with every thread between two sections. -/
structure CoarseState (T ι σ α : Type*) where
  resources : ι → σ
  locals : T → α

/-- The thread holds the lock of the resource in a way that keeps the section out. -/
def LockPlace.KeepsOut (sec : LockedSection ι σ α) : LockPlace ι σ α L → Prop
  | .outside _ => False
  | .inside _ held _ _ => held.resource = sec.resource ∧
      (held.exclusive = true ∨ sec.exclusive = true)

/-! ## 2. Steps -/

section Steps

variable [DecidableEq T] [DecidableEq ι] (moves : T → L → α → α → Prop)
  (enters : T → L → α → LockedSection ι σ α → Prop)

/-- A move of a thread that is between two sections, or a section at once. -/
inductive CoarseStep : CoarseState T ι σ α → L → CoarseState T ι σ α → Prop
  | move {st : CoarseState T ι σ α} (t : T) {l : L} {b : α} (h : moves t l (st.locals t) b) :
    CoarseStep st l { st with locals := update st.locals t b }
  | «section» {st : CoarseState T ι σ α} (t : T) {l : L} {sec : LockedSection ι σ α}
      (h : enters t l (st.locals t) sec) :
    CoarseStep st l
      ⟨update st.resources sec.resource (sec.run (st.locals t, st.resources sec.resource)).2,
        update st.locals t (sec.run (st.locals t, st.resources sec.resource)).1⟩

/-- A move, a lock taken, one step of a section, or a lock given back.  The label of a section
shows when the lock is given back. -/
inductive FineStep : FineState T ι σ α L → Option L → FineState T ι σ α L → Prop
  | move {st : FineState T ι σ α L} (t : T) {l : L} {a b : α} (ht : st.places t = .outside a)
      (h : moves t l a b) :
    FineStep st (some l) { st with places := update st.places t (.outside b) }
  | acquire {st : FineState T ι σ α L} (t : T) {l : L} {a : α} {sec : LockedSection ι σ α}
      (ht : st.places t = .outside a) (h : enters t l a sec)
      (hfree : ∀ u, ¬ (st.places u).KeepsOut sec) :
    FineStep st none { st with places := update st.places t (.inside l sec sec.steps a) }
  | work {st : FineState T ι σ α L} (t : T) {l : L} {sec : LockedSection ι σ α}
      {f : α × σ → α × σ} {todo : List (α × σ → α × σ)} {a : α}
      (ht : st.places t = .inside l sec (f :: todo) a) :
    FineStep st none
      ⟨update st.resources sec.resource (f (a, st.resources sec.resource)).2,
        update st.places t (.inside l sec todo (f (a, st.resources sec.resource)).1)⟩
  | release {st : FineState T ι σ α L} (t : T) {l : L} {sec : LockedSection ι σ α} {a : α}
      (ht : st.places t = .inside l sec [] a) :
    FineStep st (some l) { st with places := update st.places t (.outside a) }

/-- A run of steps, with the labels that show. -/
inductive CoarseRun (st : CoarseState T ι σ α) : List L → CoarseState T ι σ α → Prop
  | nil : CoarseRun st [] st
  | snoc {ls : List L} {l : L} {st' st'' : CoarseState T ι σ α} (h : CoarseRun st ls st')
      (hstep : CoarseStep moves enters st' l st'') : CoarseRun st (ls ++ [l]) st''

inductive FineRun (st : FineState T ι σ α L) : List L → FineState T ι σ α L → Prop
  | nil : FineRun st [] st
  | snoc {ls : List L} {l : Option L} {st' st'' : FineState T ι σ α L} (h : FineRun st ls st')
      (hstep : FineStep moves enters st' l st'') : FineRun st (ls ++ l.toList) st''

end Steps

/-! ## 3. Refinement -/

/-- A thread in a section has done the first steps of it to what it carried and to its resource;
nobody whom its lock keeps out is there. -/
structure Refines (enters : T → L → α → LockedSection ι σ α → Prop) (st : FineState T ι σ α L)
    (ct : CoarseState T ι σ α) : Prop where
  outside : ∀ t a, st.places t = .outside a → ct.locals t = a
  inside : ∀ t l sec todo a, st.places t = .inside l sec todo a →
    enters t l (ct.locals t) sec ∧ ∃ done, sec.steps = done ++ todo ∧
      runSteps done (ct.locals t, ct.resources sec.resource) = (a, st.resources sec.resource)
  shared : ∀ i, (∀ t l sec todo a, st.places t = .inside l sec todo a → sec.resource = i →
    sec.exclusive = false) → st.resources i = ct.resources i
  alone : ∀ t u l sec todo a, st.places t = .inside l sec todo a → u ≠ t →
    ¬ (st.places u).KeepsOut sec

/-- All threads between two sections. -/
theorem refines_start (enters : T → L → α → LockedSection ι σ α → Prop)
    (ct : CoarseState T ι σ α) :
    Refines enters ⟨ct.resources, fun t => .outside (ct.locals t)⟩ ct where
  outside t a h := by cases h; rfl
  inside t l sec todo a h := by cases h
  shared _ _ := rfl
  alone t u l sec todo a h := by cases h

section Simulation

variable {enters : T → L → α → LockedSection ι σ α → Prop} {st st' : FineState T ι σ α L}
  {ct : CoarseState T ι σ α} {t u : T} {l l' : L} {sec sec' : LockedSection ι σ α}
  {todo todo' : List (α × σ → α × σ)} {a b c : α}

/-- Two threads under one lock both hold it shared. -/
theorem Refines.both_shared (h : Refines enters st ct) (ht : st.places t = .inside l sec todo a)
    (hu : st.places u = .inside l' sec' todo' b) (hut : u ≠ t)
    (hres : sec'.resource = sec.resource) : sec.exclusive = false := by
  by_contra hexcl
  refine h.alone t u l sec todo a ht hut ?_
  rw [hu]
  exact ⟨hres, Or.inr (by simpa using hexcl)⟩

variable {places : T → LockPlace ι σ α L} {locals : T → α}

/-- A thread in a section is not one between two. -/
theorem ne_of_outside (ht : places t = .outside a) (hu : places u = .inside l sec todo c) :
    u ≠ t := by
  rintro rfl
  rw [ht] at hu
  cases hu

variable [DecidableEq T]

theorem inside_of_update_outside (hu : update places t (.outside b) u = .inside l sec todo c) :
    u ≠ t ∧ places u = .inside l sec todo c := by
  by_cases hut : u = t
  · subst hut
    rw [update_self] at hu
    cases hu
  · rw [update_of_ne hut] at hu
    exact ⟨hut, hu⟩

theorem outside_of_update_inside
    (hu : update places t (.inside l sec todo b) u = .outside c) :
    places u = .outside c := by
  by_cases hut : u = t
  · subst hut
    rw [update_self] at hu
    cases hu
  · rwa [update_of_ne hut] at hu

theorem locals_of_update_outside (h : ∀ t a, places t = .outside a → locals t = a)
    (hu : update places t (.outside b) u = .outside c) : update locals t b u = c := by
  by_cases hut : u = t
  · subst hut
    rw [update_self] at hu ⊢
    cases hu
    rfl
  · rw [update_of_ne hut] at hu ⊢
    exact h u c hu

/-- A thread between two sections keeps nobody out. -/
theorem not_keepsOut_update
    (h : u ≠ t → ¬ (places u).KeepsOut sec) :
    ¬ (update places t (.outside b) u).KeepsOut sec := by
  by_cases hut : u = t
  · subst hut
    rw [update_self]
    exact id
  · rw [update_of_ne hut]
    exact h hut

/-- A thread between two sections stays there. -/
theorem Refines.move (h : Refines enters st ct) (ht : st.places t = .outside a) :
    Refines enters { st with places := update st.places t (.outside b) }
      { ct with locals := update ct.locals t b } := by
  constructor
  · exact fun u c hu => locals_of_update_outside h.outside hu
  · intro u l sec todo c hu
    obtain ⟨hut, hu⟩ := inside_of_update_outside hu
    dsimp only
    rw [update_of_ne hut]
    exact h.inside u l sec todo c hu
  · intro i hi
    refine h.shared i fun u l sec todo c hu => hi u l sec todo c ?_
    exact (update_of_ne (ne_of_outside ht hu) _ _).trans hu
  · intro u v l sec todo c hu hvu
    obtain ⟨-, hu⟩ := inside_of_update_outside hu
    exact not_keepsOut_update fun _ => h.alone u v l sec todo c hu hvu

/-- A thread takes a lock. -/
theorem Refines.acquire (h : Refines enters st ct) (ht : st.places t = .outside a)
    (henter : enters t l a sec) (hfree : ∀ u, ¬ (st.places u).KeepsOut sec) :
    Refines enters { st with places := update st.places t (.inside l sec sec.steps a) } ct := by
  constructor
  · exact fun u c hu => h.outside u c (outside_of_update_inside hu)
  · intro u l' sec' todo c hu
    dsimp only at hu ⊢
    by_cases hut : u = t
    · subst hut
      rw [update_self] at hu
      cases hu
      -- nobody holds the lock exclusively, so the resource is as it was given back
      have hres : st.resources sec.resource = ct.resources sec.resource := by
        refine h.shared _ fun v l' held todo c hv hres => ?_
        by_contra hexcl
        refine hfree v ?_
        rw [hv]
        exact ⟨hres, Or.inl (by simpa using hexcl)⟩
      rw [h.outside u a ht, hres]
      exact ⟨henter, [], rfl, rfl⟩
    · rw [update_of_ne hut] at hu
      exact h.inside u l' sec' todo c hu
  · intro i hi
    refine h.shared i fun u l' sec' todo c hu => hi u l' sec' todo c ?_
    exact (update_of_ne (ne_of_outside ht hu) _ _).trans hu
  · intro u v l' sec' todo c hu hvu
    dsimp only at hu ⊢
    by_cases hut : u = t
    · subst hut
      rw [update_self] at hu
      cases hu
      rw [update_of_ne hvu]
      exact hfree v
    · rw [update_of_ne hut] at hu
      by_cases hvt : v = t
      · subst hvt
        rw [update_self]
        rintro ⟨hres, hexcl⟩
        refine hfree u ?_
        rw [hu]
        exact ⟨hres.symm, hexcl.symm⟩
      · rw [update_of_ne hvt]
        exact h.alone u v l' sec' todo c hu hvu

variable [DecidableEq ι] {moves : T → L → α → α → Prop}

/-- A thread does a step of its section. -/
theorem Refines.work (h : Refines enters st ct) {f : α × σ → α × σ}
    (ht : st.places t = .inside l sec (f :: todo) a) :
    Refines enters
      ⟨update st.resources sec.resource (f (a, st.resources sec.resource)).2,
        update st.places t (.inside l sec todo (f (a, st.resources sec.resource)).1)⟩ ct := by
  obtain ⟨henter, done, hsteps, hdone⟩ := h.inside t l sec (f :: todo) a ht
  have hreads : sec.exclusive = false →
      (f (a, st.resources sec.resource)).2 = st.resources sec.resource := fun hshared =>
    sec.reads hshared f (by rw [hsteps]; simp) _
  -- under a shared lock, and elsewhere, the resource is as it was
  have hkept : ∀ i, (i = sec.resource → sec.exclusive = false) →
      update st.resources sec.resource (f (a, st.resources sec.resource)).2 i =
        st.resources i := by
    intro i hi
    by_cases hir : i = sec.resource
    · subst hir
      rw [update_self, hreads (hi rfl)]
    · rw [update_of_ne hir]
  constructor
  · exact fun u c hu => h.outside u c (outside_of_update_inside hu)
  · intro u l' sec' todo' c hu
    dsimp only at hu ⊢
    by_cases hut : u = t
    · subst hut
      rw [update_self] at hu
      cases hu
      refine ⟨henter, done ++ [f], by rw [hsteps]; simp, ?_⟩
      rw [runSteps_append, hdone, update_self]
    · rw [update_of_ne hut] at hu
      rw [hkept sec'.resource fun hres => h.both_shared ht hu hut hres]
      exact h.inside u l' sec' todo' c hu
  · intro i hi
    dsimp only at hi ⊢
    have hshared : i = sec.resource → sec.exclusive = false := fun hir =>
      hi t l sec todo _ (update_self t _ _) hir.symm
    rw [hkept i hshared]
    refine h.shared i fun u l' sec' todo' c hu hres => ?_
    by_cases hut : u = t
    · subst hut
      rw [ht] at hu
      cases hu
      exact hshared hres.symm
    · exact hi u l' sec' todo' c ((update_of_ne hut _ _).trans hu) hres
  · intro u v l' sec' todo' c hu hvu
    dsimp only at hu ⊢
    have hold : ∃ todo'' c', st.places u = .inside l' sec' todo'' c' := by
      by_cases hut : u = t
      · subst hut
        rw [update_self] at hu
        cases hu
        exact ⟨_, _, ht⟩
      · rw [update_of_ne hut] at hu
        exact ⟨_, _, hu⟩
    obtain ⟨todo'', c', hold⟩ := hold
    have halone := h.alone u v l' sec' todo'' c' hold hvu
    by_cases hvt : v = t
    · subst hvt
      rw [ht] at halone
      rw [update_self]
      exact halone
    · rw [update_of_ne hvt]
      exact halone

/-- A thread gives a lock back: the section takes place. -/
theorem Refines.release (h : Refines enters st ct)
    (ht : st.places t = .inside l sec [] a) :
    enters t l (ct.locals t) sec ∧
      Refines enters { st with places := update st.places t (.outside a) }
        ⟨update ct.resources sec.resource
            (sec.run (ct.locals t, ct.resources sec.resource)).2,
          update ct.locals t (sec.run (ct.locals t, ct.resources sec.resource)).1⟩ := by
  obtain ⟨henter, done, hsteps, hdone⟩ := h.inside t l sec [] a ht
  refine ⟨henter, ?_⟩
  have hrun : sec.run (ct.locals t, ct.resources sec.resource) =
      (a, st.resources sec.resource) := by
    rw [LockedSection.run, hsteps, List.append_nil, hdone]
  rw [hrun]
  constructor
  · exact fun u c hu => locals_of_update_outside h.outside hu
  · intro u l' sec' todo c hu
    obtain ⟨hut, hu⟩ := inside_of_update_outside hu
    have hkept : update ct.resources sec.resource (st.resources sec.resource) sec'.resource =
        ct.resources sec'.resource := by
      by_cases hres : sec'.resource = sec.resource
      · have hshared := h.both_shared ht hu hut hres
        have hread := runSteps_reads (sec.reads hshared) (ct.locals t, ct.resources sec.resource)
        rw [show runSteps sec.steps _ = sec.run _ from rfl, hrun] at hread
        rw [hres, update_self]
        exact hread
      · rw [update_of_ne hres]
    dsimp only
    rw [update_of_ne hut, hkept]
    exact h.inside u l' sec' todo c hu
  · intro i hi
    dsimp only
    by_cases hir : i = sec.resource
    · subst hir
      rw [update_self]
    · rw [update_of_ne hir]
      refine h.shared i fun u l' sec' todo c hu hres => ?_
      have hut : u ≠ t := by
        rintro rfl
        rw [ht] at hu
        cases hu
        exact hir hres.symm
      exact hi u l' sec' todo c ((update_of_ne hut _ _).trans hu) hres
  · intro u v l' sec' todo c hu hvu
    obtain ⟨-, hu⟩ := inside_of_update_outside hu
    exact not_keepsOut_update fun _ => h.alone u v l' sec' todo c hu hvu

/-- **One step.** -/
theorem Refines.step (h : Refines enters st ct) {label : Option L}
    (hstep : FineStep moves enters st label st') :
    ∃ ct', CoarseRun moves enters ct label.toList ct' ∧ Refines enters st' ct' := by
  cases hstep with
  | move t ht hmove =>
    rw [← h.outside t _ ht] at hmove
    exact ⟨_, .snoc .nil (.move t hmove), h.move ht⟩
  | acquire t ht henter hfree => exact ⟨ct, .nil, h.acquire ht henter hfree⟩
  | work t ht => exact ⟨ct, .nil, h.work ht⟩
  | release t ht =>
    obtain ⟨henter, hafter⟩ := h.release ht
    exact ⟨_, .snoc .nil (.section t henter), hafter⟩

theorem CoarseRun.append {ls ls' : List L} {ct' ct'' : CoarseState T ι σ α}
    (h : CoarseRun moves enters ct ls ct') (h' : CoarseRun moves enters ct' ls' ct'') :
    CoarseRun moves enters ct (ls ++ ls') ct'' := by
  induction h' with
  | nil =>
    rw [List.append_nil]
    exact h
  | snoc _ hstep ih =>
    rw [← List.append_assoc]
    exact .snoc ih hstep

/-- **A run.**  With the same labels in the same order, every section happens at once. -/
theorem fine_refines {ls : List L}
    (hrun : FineRun moves enters ⟨ct.resources, fun t => .outside (ct.locals t)⟩ ls st) :
    ∃ ct', CoarseRun moves enters ct ls ct' ∧ Refines enters st ct' := by
  induction hrun with
  | nil => exact ⟨ct, .nil, refines_start enters ct⟩
  | snoc _ hstep ih =>
    obtain ⟨ct', hcoarse, hrefines⟩ := ih
    obtain ⟨ct'', hmore, hrefines'⟩ := hrefines.step hstep
    exact ⟨ct'', hcoarse.append hmore, hrefines'⟩

end Simulation

end KeyValueDb.Lib
