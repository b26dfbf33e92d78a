/-
# Linearizability

Threads call operations of an object and get answers.  The object is what its specification says,
in spite of all the threads, if every call takes effect at one instant between the two: there is
one sequence of operations, each of them legal after those before it, that gives each thread what
it was answered (`Explains`).

The sequence of a run goes on from that of any earlier part of it (`StronglyLinearizable`), so an
operation that was answered before another one was called comes before it.

The rule is `Linearizes.stronglyLinearizable`: a relation between the state of the machine and
the state of the specification, the operations that take effect at each step, and for each thread
the phase of its call.
-/
import KeyValueDb.Lib.Runs
import Mathlib.Logic.Function.Basic

namespace KeyValueDb.Lib

variable {C L T O A S : Type*}

/-! ## 1. Histories -/

/-- What is seen of a thread from outside. -/
inductive CallEvent (O A : Type*)
  | called (op : O)
  | answered (answer : A)

@[simp] def CallEvent.op? : CallEvent O A → Option O
  | .called op => some op
  | .answered _ => none

@[simp] def CallEvent.answer? : CallEvent O A → Option A
  | .called _ => none
  | .answered answer => some answer

/-- The share of one thread. -/
def ofThread {β : Type*} [DecidableEq T] (t : T) (xs : List (T × β)) : List β :=
  xs.filterMap fun x => if x.1 = t then some x.2 else none

/-- A machine whose steps are made by one thread each. -/
structure CallMachine (C L T O A : Type*) where
  step : C → L → C
  actor : L → T
  seen : C → L → List (CallEvent O A)

/-- What is seen of a run. -/
def CallMachine.history (M : CallMachine C L T O A) : List L → C → List (T × CallEvent O A) :=
  outputs M.step fun c l => (M.seen c l).map (Prod.mk (M.actor l))

/-! ## 2. Linearizability -/

section Definitions

variable (spec : S → O → A → S → Prop)

/-- Operations one after the other, as the specification allows them. -/
inductive LegalSequence : S → List (T × O × A) → S → Prop
  | nil {F : S} : LegalSequence F [] F
  | cons {F G H : S} (t : T) {op : O} {answer : A} {rest : List (T × O × A)}
      (h : spec F op answer G) (hrest : LegalSequence G rest H) :
    LegalSequence F ((t, op, answer) :: rest) H

variable [DecidableEq T]

/-- The sequence explains what is seen.  The operations a thread has there are its calls, in their
order, and its answers are those it has there; calls may be missing from it that have no answer,
and operations may be in it that have none yet. -/
structure Explains (F : S) (history : List (T × CallEvent O A)) (ops : List (T × O × A)) :
    Prop where
  legal : ∃ G, LegalSequence spec F ops G
  called : ∀ t, (ofThread t ops).map Prod.fst <+: (ofThread t history).filterMap CallEvent.op?
  answered : ∀ t,
    (ofThread t history).filterMap CallEvent.answer? <+: (ofThread t ops).map Prod.snd

/-- Every run of allowed steps can be explained, and what has taken effect stays. -/
def CallMachine.StronglyLinearizable (M : CallMachine C L T O A) (allowed : L → Prop) (c : C)
    (F : S) : Prop :=
  ∃ ops : List L → List (T × O × A), (∀ ls ls', ops ls <+: ops (ls ++ ls')) ∧
    ∀ ls, (∀ l ∈ ls, allowed l) → Explains spec F (M.history ls c) (ops ls)

end Definitions

/-! ## 3. The phases of a call -/

/-- A thread is in no call; in one that has not taken effect; or in one that has, with the
answer it will get. -/
inductive CallPhase (O A : Type*)
  | idle
  | pending (op : O)
  | decided (answer : A)

/-- What one step of a thread can do: the calls and the answers that are seen, and the operations
that take effect. -/
inductive Advances :
    CallPhase O A → List (CallEvent O A) → List (O × A) → CallPhase O A → Prop
  | stay {phase : CallPhase O A} : Advances phase [] [] phase
  | call (op : O) : Advances .idle [.called op] [] (.pending op)
  | decide (op : O) (answer : A) : Advances (.pending op) [] [(op, answer)] (.decided answer)
  | answer (answer : A) : Advances (.decided answer) [.answered answer] [] .idle
  | finish (op : O) (answer : A) :
    Advances (.pending op) [.answered answer] [(op, answer)] .idle
  | once (op : O) (answer : A) :
    Advances .idle [.called op, .answered answer] [(op, answer)] .idle

/-- What a thread has called, what it has been answered, and its operations so far. -/
inductive Tally : CallPhase O A → List O → List A → List (O × A) → Prop
  | idle (ops : List (O × A)) : Tally .idle (ops.map Prod.fst) (ops.map Prod.snd) ops
  | pending (ops : List (O × A)) (op : O) :
    Tally (.pending op) (ops.map Prod.fst ++ [op]) (ops.map Prod.snd) ops
  | decided (ops : List (O × A)) (op : O) (answer : A) :
    Tally (.decided answer) ((ops ++ [(op, answer)]).map Prod.fst) (ops.map Prod.snd)
      (ops ++ [(op, answer)])

section Tallies

variable {phase phase' : CallPhase O A} {calls : List O} {answers : List A} {ops : List (O × A)}
  {events : List (CallEvent O A)} {more : List (O × A)}

theorem Tally.called (h : Tally phase calls answers ops) : ops.map Prod.fst <+: calls := by
  cases h with
  | idle => exact List.prefix_rfl
  | pending => exact List.prefix_append _ _
  | decided => exact List.prefix_rfl

theorem Tally.answered (h : Tally phase calls answers ops) : answers <+: ops.map Prod.snd := by
  cases h with
  | idle => exact List.prefix_rfl
  | pending => exact List.prefix_rfl
  | decided =>
    rw [List.map_append]
    exact List.prefix_append _ _

/-- **One step of the thread.** -/
theorem Tally.advance (h : Tally phase calls answers ops)
    (hstep : Advances phase events more phase') :
    Tally phase' (calls ++ events.filterMap CallEvent.op?)
      (answers ++ events.filterMap CallEvent.answer?) (ops ++ more) := by
  cases hstep with
  | stay => simpa using h
  | call op =>
    cases h
    simpa [List.filterMap_cons] using Tally.pending ops op
  | decide op answer =>
    cases h
    simpa using Tally.decided ops op answer
  | answer answer =>
    cases h with
    | decided ops op =>
      simpa [List.filterMap_cons] using Tally.idle (ops ++ [(op, answer)])
  | finish op answer =>
    cases h
    simpa [List.filterMap_cons] using Tally.idle (ops ++ [(op, answer)])
  | once op answer =>
    cases h
    simpa [List.filterMap_cons] using Tally.idle (ops ++ [(op, answer)])

end Tallies

/-! ## 4. The rule -/

theorem LegalSequence.append {spec : S → O → A → S → Prop} {F G H : S}
    {ops more : List (T × O × A)} (h : LegalSequence spec F ops G)
    (h' : LegalSequence spec G more H) : LegalSequence spec F (ops ++ more) H := by
  induction h with
  | nil => exact h'
  | cons t hop _ ih => exact .cons t hop (ih h')

/-- Each operation is legal where it stands. -/
theorem LegalSequence.exists_of_mem {spec : S → O → A → S → Prop} {F G : S}
    {ops : List (T × O × A)} (h : LegalSequence spec F ops G) {x : T × O × A} (hx : x ∈ ops) :
    ∃ H K, spec H x.2.1 x.2.2 K := by
  induction h with
  | nil => exact absurd hx List.not_mem_nil
  | cons t hop _ ih =>
    rcases List.mem_cons.mp hx with rfl | hx
    · exact ⟨_, _, hop⟩
    · exact ih hx

/-- Operations that change nothing can be left out. -/
theorem LegalSequence.filter {spec : S → O → A → S → Prop} {F G : S} {ops : List (T × O × A)}
    (h : LegalSequence spec F ops G) {keep : T × O × A → Bool}
    (hidle : ∀ x ∈ ops, keep x = false → ∀ H K, spec H x.2.1 x.2.2 K → K = H) :
    LegalSequence spec F (ops.filter keep) G := by
  induction h with
  | nil => exact .nil
  | cons t hop _ ih =>
    have hrest := ih fun x hx => hidle x (List.mem_cons_of_mem _ hx)
    rw [List.filter_cons]
    split
    · exact .cons t hop hrest
    · rename_i hkeep
      rwa [hidle _ List.mem_cons_self (Bool.eq_false_iff.mpr hkeep) _ _ hop] at hrest

section OfThread

variable [DecidableEq T] {β : Type*}

theorem ofThread_append (t : T) (xs ys : List (T × β)) :
    ofThread t (xs ++ ys) = ofThread t xs ++ ofThread t ys := List.filterMap_append

theorem mem_ofThread {t : T} {x : β} {xs : List (T × β)} : x ∈ ofThread t xs ↔ (t, x) ∈ xs := by
  simp [ofThread]

theorem ofThread_self (t : T) (xs : List β) : ofThread t (xs.map (Prod.mk t)) = xs := by
  simp [ofThread, List.filterMap_map]

theorem ofThread_ne {t u : T} (h : u ≠ t) (xs : List β) :
    ofThread t (xs.map (Prod.mk u)) = [] := by
  simp [ofThread, h]

end OfThread

/-- The operations that take effect in a run. -/
def CallMachine.effects (M : CallMachine C L T O A) (points : C → L → List (O × A)) :
    List L → C → List (T × O × A) :=
  outputs M.step fun c l => (points c l).map (Prod.mk (M.actor l))

/-- What a step has to do. -/
structure Linearizes (M : CallMachine C L T O A) (spec : S → O → A → S → Prop)
    (allowed : L → Prop) (phase : C → T → CallPhase O A) (points : C → L → List (O × A))
    (R : C → S → Prop) : Prop where
  legal : ∀ c F l, R c F → allowed l →
    ∃ G, LegalSequence spec F ((points c l).map (Prod.mk (M.actor l))) G ∧ R (M.step c l) G
  advances : ∀ c F l, R c F → allowed l →
    Advances (phase c (M.actor l)) (M.seen c l) (points c l) (phase (M.step c l) (M.actor l))
  others : ∀ c l t, t ≠ M.actor l → phase (M.step c l) t = phase c t

namespace Linearizes

variable {M : CallMachine C L T O A} {spec : S → O → A → S → Prop} {allowed : L → Prop}
  {phase : C → T → CallPhase O A} {points : C → L → List (O × A)} {R : C → S → Prop}
  {ls : List L} {c : C} {F : S}

theorem run_legal (h : Linearizes M spec allowed phase points R) (hR : R c F)
    (hls : ∀ l ∈ ls, allowed l) : ∃ G, LegalSequence spec F (M.effects points ls c) G := by
  induction ls generalizing c F with
  | nil => exact ⟨F, .nil⟩
  | cons l ls ih =>
    obtain ⟨G, hlegal, hnext⟩ := h.legal c F l hR (hls l List.mem_cons_self)
    obtain ⟨H, hrest⟩ := ih hnext fun l' hl' => hls l' (List.mem_cons_of_mem l hl')
    exact ⟨H, hlegal.append hrest⟩

variable [DecidableEq T] {t : T} {calls : List O} {answers : List A} {ops : List (O × A)}

/-- One step, for one thread. -/
theorem tally_step (h : Linearizes M spec allowed phase points R) (hR : R c F) {l : L}
    (hl : allowed l) (htally : Tally (phase c t) calls answers ops) :
    Tally (phase (M.step c l) t)
      (calls ++ (ofThread t ((M.seen c l).map (Prod.mk (M.actor l)))).filterMap CallEvent.op?)
      (answers ++ (ofThread t ((M.seen c l).map (Prod.mk (M.actor l)))).filterMap
        CallEvent.answer?)
      (ops ++ ofThread t ((points c l).map (Prod.mk (M.actor l)))) := by
  by_cases ht : t = M.actor l
  · subst ht
    rw [ofThread_self, ofThread_self]
    exact htally.advance (h.advances c F l hR hl)
  · rw [ofThread_ne (Ne.symm ht), ofThread_ne (Ne.symm ht), h.others c l t ht]
    simpa using htally

theorem run_tally (h : Linearizes M spec allowed phase points R) (hR : R c F)
    (hls : ∀ l ∈ ls, allowed l) (htally : Tally (phase c t) calls answers ops) :
    ∃ phase', Tally phase'
      (calls ++ (ofThread t (M.history ls c)).filterMap CallEvent.op?)
      (answers ++ (ofThread t (M.history ls c)).filterMap CallEvent.answer?)
      (ops ++ ofThread t (M.effects points ls c)) := by
  induction ls generalizing c F calls answers ops with
  | nil =>
    refine ⟨phase c t, ?_⟩
    simpa [CallMachine.history, CallMachine.effects, outputs, ofThread] using htally
  | cons l ls ih =>
    have hl := hls l List.mem_cons_self
    obtain ⟨G, -, hnext⟩ := h.legal c F l hR hl
    obtain ⟨phase', hrest⟩ := ih hnext (fun l' hl' => hls l' (List.mem_cons_of_mem l hl'))
      (h.tally_step hR hl htally)
    refine ⟨phase', ?_⟩
    simpa only [CallMachine.history, CallMachine.effects, outputs, ofThread_append,
      List.filterMap_append, List.append_assoc] using hrest

/-- **A machine whose steps do this** is strongly linearizable. -/
theorem stronglyLinearizable (h : Linearizes M spec allowed phase points R) (hR : R c F)
    (hidle : ∀ t, phase c t = .idle) : M.StronglyLinearizable spec allowed c F := by
  refine ⟨fun ls => M.effects points ls c, fun ls ls' => ?_, fun ls hls => ?_⟩
  · dsimp only [CallMachine.effects]
    rw [outputs_append]
    exact List.prefix_append _ _
  · have htally : ∀ t, ∃ phase', Tally phase'
        ((ofThread t (M.history ls c)).filterMap CallEvent.op?)
        ((ofThread t (M.history ls c)).filterMap CallEvent.answer?)
        (ofThread t (M.effects points ls c)) := by
      intro t
      have hstart : Tally (phase c t) [] [] ([] : List (O × A)) := by
        rw [hidle t]
        exact .idle []
      exact h.run_tally hR hls hstart
    refine ⟨h.run_legal hR hls, fun t => ?_, fun t => ?_⟩
    · obtain ⟨phase', hphase⟩ := htally t
      exact hphase.called
    · obtain ⟨phase', hphase⟩ := htally t
      exact hphase.answered

end Linearizes

end KeyValueDb.Lib
