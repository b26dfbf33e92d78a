/-
# Runs of a deterministic machine

A machine takes one input after the other.  `Always` says that a property holds in every state
of a run and `Steps` that every step of it meets a condition on the state it starts in.

A property that is not inductive on its own may hold in all states of exactly the runs whose
steps meet a condition.  `always_iff_steps` is the rule for this: an invariant that implies the
property and that the good steps keep, and no bad step that keeps the property.  Steps that use
up a measure come to an end (`length_add_le`, `exists_steps`).
-/
import Mathlib.Data.List.Basic
import Mathlib.Logic.Function.Iterate

namespace KeyValueDb.Lib

variable {σ : Type*} {α : Type*} (step : σ → α → σ)

/-! ## 1. Properties of all states, conditions on all steps -/

/-- The property holds in every state of the run, the first and the last one included. -/
def Always (P : σ → Prop) : List α → σ → Prop
  | [], s => P s
  | a :: as, s => P s ∧ Always P as (step s a)

/-- Every step of the run meets the condition. -/
def Steps (C : σ → α → Prop) : List α → σ → Prop
  | [], _ => True
  | a :: as, s => C s a ∧ Steps C as (step s a)

instance Always.decidable {P : σ → Prop} [DecidablePred P] :
    (as : List α) → (s : σ) → Decidable (Always step P as s)
  | [], s => inferInstanceAs (Decidable (P s))
  | a :: as, s =>
    have := Always.decidable (P := P) as (step s a)
    inferInstanceAs (Decidable (P s ∧ Always step P as (step s a)))

instance Steps.decidable {C : σ → α → Prop} [∀ s a, Decidable (C s a)] :
    (as : List α) → (s : σ) → Decidable (Steps step C as s)
  | [], _ => inferInstanceAs (Decidable True)
  | a :: as, s =>
    have := Steps.decidable (C := C) as (step s a)
    inferInstanceAs (Decidable (C s a ∧ Steps step C as (step s a)))

variable {step}

theorem Always.mono {P Q : σ → Prop} (hPQ : ∀ s, P s → Q s) {as : List α} {s : σ}
    (h : Always step P as s) : Always step Q as s := by
  induction as generalizing s with
  | nil => exact hPQ s h
  | cons a as ih => exact ⟨hPQ s h.1, ih h.2⟩

theorem Always.and {P Q : σ → Prop} {as : List α} {s : σ} (hP : Always step P as s)
    (hQ : Always step Q as s) : Always step (fun s => P s ∧ Q s) as s := by
  induction as generalizing s with
  | nil => exact ⟨hP, hQ⟩
  | cons a as ih => exact ⟨⟨hP.1, hQ.1⟩, ih hP.2 hQ.2⟩

theorem Always.head {P : σ → Prop} {as : List α} {s : σ} (h : Always step P as s) : P s := by
  cases as with
  | nil => exact h
  | cons a as => exact h.1

theorem Always.last {P : σ → Prop} {as : List α} {s : σ} (h : Always step P as s) :
    P (as.foldl step s) := by
  induction as generalizing s with
  | nil => exact h
  | cons a as ih => exact ih h.2

/-- A property of all states is one of the state before and the state after each step. -/
theorem Always.steps {P : σ → Prop} {as : List α} {s : σ} (h : Always step P as s) :
    Steps step (fun s a => P s ∧ P (step s a)) as s := by
  induction as generalizing s with
  | nil => trivial
  | cons a as ih => exact ⟨⟨h.1, h.2.head⟩, ih h.2⟩

theorem Steps.and {C D : σ → α → Prop} {as : List α} {s : σ} (hC : Steps step C as s)
    (hD : Steps step D as s) : Steps step (fun s a => C s a ∧ D s a) as s := by
  induction as generalizing s with
  | nil => trivial
  | cons a as ih => exact ⟨⟨hC.1, hD.1⟩, ih hC.2 hD.2⟩

theorem steps_append {C : σ → α → Prop} {as bs : List α} {s : σ} :
    Steps step C (as ++ bs) s ↔ Steps step C as s ∧ Steps step C bs (as.foldl step s) := by
  induction as generalizing s with
  | nil => exact (true_and _).to_iff.symm
  | cons a as ih => exact (and_congr_right fun _ => ih).trans and_assoc.symm

/-- A condition on the inputs alone. -/
theorem steps_of_forall {C : α → Prop} {as : List α} (h : ∀ a ∈ as, C a) (s : σ) :
    Steps step (fun _ a => C a) as s := by
  induction as generalizing s with
  | nil => trivial
  | cons a as ih =>
    exact ⟨h a List.mem_cons_self, ih (fun b hb => h b (List.mem_cons_of_mem a hb)) _⟩

/-- What the steps of a run put out, one step after the other. -/
def outputs {β : Type*} (step : σ → α → σ) (out : σ → α → List β) : List α → σ → List β
  | [], _ => []
  | a :: as, s => out s a ++ outputs step out as (step s a)

theorem outputs_append {β : Type*} {out : σ → α → List β} {as bs : List α} {s : σ} :
    outputs step out (as ++ bs) s =
      outputs step out as s ++ outputs step out bs (as.foldl step s) := by
  induction as generalizing s with
  | nil => rfl
  | cons a as ih => simp only [List.cons_append, outputs, ih, List.append_assoc, List.foldl_cons]

/-- **A part of the machine alone**: the same input again and again does what the part does until
it is done. -/
theorem exists_replicate_of_iterate {τ : Type*} {f : τ → τ} (embed : τ → σ) (done : τ → Prop)
    {a : α} (hstep : ∀ x, ¬ done x → step (embed x) a = embed (f x))
    (hdone : ∀ x, done x → f x = x) {n : Nat} {x y : τ} (h : f^[n] x = y) :
    ∃ m, (List.replicate m a).foldl step (embed x) = embed y := by
  induction n generalizing x with
  | zero => exact ⟨0, congrArg embed h⟩
  | succ n ih =>
    rw [Function.iterate_succ_apply] at h
    by_cases hx : done x
    · rw [hdone x hx] at h
      exact ih h
    · obtain ⟨m, hm⟩ := ih h
      refine ⟨m + 1, ?_⟩
      rw [List.replicate_succ, List.foldl_cons, hstep x hx]
      exact hm

/-! ## 2. The rules -/

/-- **Runs whose steps are good keep the invariant.** -/
theorem always_of_steps {I : σ → Prop} {C : σ → α → Prop}
    (hstep : ∀ s a, I s → C s a → I (step s a)) {as : List α} {s : σ} (h0 : I s)
    (h : Steps step C as s) : Always step I as s := by
  induction as generalizing s with
  | nil => exact h0
  | cons a as ih => exact ⟨h0, ih (hstep s a h0 h.1) h.2⟩

/-- **What every step from the invariant has**, every step of such a run has. -/
theorem Always.steps_of {I : σ → Prop} {H C : σ → α → Prop}
    (hstep : ∀ s a, I s → H s a → C s a) {as : List α} {s : σ} (h : Always step I as s)
    (hH : Steps step H as s) : Steps step C as s := by
  induction as generalizing s with
  | nil => trivial
  | cons a as ih => exact ⟨hstep s a h.1 hH.1, ih h.2 hH.2⟩

/-- **Two conditions on the steps say the same of a run** if they say the same of a step that
starts in the invariant, and such a step keeps it. -/
theorem steps_iff_steps {I : σ → Prop} {H P C : σ → α → Prop}
    (hiff : ∀ s a, I s → H s a → (P s a ↔ C s a))
    (hkeep : ∀ s a, I s → H s a → C s a → I (step s a)) {as : List α} {s : σ} (h0 : I s)
    (hH : Steps step H as s) : Steps step P as s ↔ Steps step C as s := by
  induction as generalizing s with
  | nil => exact Iff.rfl
  | cons a as ih =>
    have hone := hiff s a h0 hH.1
    constructor
    · intro h
      have hC := hone.mp h.1
      exact ⟨hC, (ih (hkeep s a h0 hH.1 hC) hH.2).mp h.2⟩
    · intro h
      exact ⟨hone.mpr h.1, (ih (hkeep s a h0 hH.1 h.1) hH.2).mpr h.2⟩

/-- **The property holds throughout exactly the runs whose steps are good.**  `H` is what is
known of every step, good or bad. -/
theorem always_iff_steps {I P : σ → Prop} {H C : σ → α → Prop} (hP : ∀ s, I s → P s)
    (hgood : ∀ s a, I s → H s a → C s a → I (step s a))
    (hbad : ∀ s a, I s → H s a → ¬ C s a → ¬ P (step s a)) {as : List α} {s : σ} (h0 : I s)
    (hH : Steps step H as s) : Always step P as s ↔ Steps step C as s := by
  induction as generalizing s with
  | nil => exact ⟨fun _ => trivial, fun _ => hP s h0⟩
  | cons a as ih =>
    by_cases hC : C s a
    · have hrest := ih (hgood s a h0 hH.1 hC) hH.2
      exact ⟨fun h => ⟨hC, hrest.mp h.2⟩, fun h => ⟨hP s h0, hrest.mpr h.2⟩⟩
    · exact ⟨fun h => absurd h.2.head (hbad s a h0 hH.1 hC), fun h => absurd h.1 hC⟩

/-! ## 3. A measure -/

/-- A run is no longer than the measure its good steps use up. -/
theorem length_add_le {C : σ → α → Prop} (m : σ → Nat)
    (hlt : ∀ s a, C s a → m (step s a) < m s) {as : List α} {s : σ} (h : Steps step C as s) :
    as.length + m (as.foldl step s) ≤ m s := by
  induction as generalizing s with
  | nil => exact Nat.le_of_eq (Nat.zero_add _)
  | cons a as ih =>
    have hrest := ih h.2
    have hone := hlt s a h.1
    rw [List.length_cons, List.foldl_cons]
    omega

/-- Good steps can be taken until there is none left to take. -/
theorem exists_steps {C : σ → α → Prop} (m : σ → Nat)
    (hlt : ∀ s a, C s a → m (step s a) < m s) (s : σ) :
    ∃ as, Steps step C as s ∧ ∀ a, ¬ C (as.foldl step s) a := by
  induction hm : m s using Nat.strongRecOn generalizing s with
  | ind k ih =>
    by_cases hany : ∃ a, C s a
    · obtain ⟨a, ha⟩ := hany
      obtain ⟨as, has, hrest⟩ := ih (m (step s a)) (hm ▸ hlt s a ha) (step s a) rfl
      exact ⟨a :: as, ⟨ha, has⟩, hrest⟩
    · exact ⟨[], trivial, fun a ha => hany ⟨a, ha⟩⟩

end KeyValueDb.Lib
