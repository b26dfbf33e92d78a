/-
# A mutex and the threads inside it

Threads that follow a lock discipline are inside a critical section exactly when they hold the
lock (`Guarded`).  The three things a step can do to that are to take the lock when it is free,
to release it from inside, and to leave it alone; each keeps the discipline, and under it no
two threads are inside at once.
-/
import Mathlib.Logic.Function.Basic

namespace KeyValueDb.Lib

open Function

variable {T : Type*}

/-- A thread is inside exactly when it holds the lock. -/
def Guarded (inside : T → Bool) (holder : Option T) : Prop :=
  ∀ t, inside t = true ↔ holder = some t

namespace Guarded

variable {inside : T → Bool} {holder : Option T} {t u : T}

/-- Nobody is inside, nobody holds the lock. -/
theorem free (h : ∀ t, inside t = false) : Guarded inside none := by
  intro t
  rw [h t]
  simp

theorem unique (h : Guarded inside holder) (ht : inside t = true) (hu : inside u = true) :
    t = u :=
  Option.some.inj (((h t).mp ht).symm.trans ((h u).mp hu))

theorem not_inside (h : Guarded inside none) (t : T) : inside t = false := by
  rw [Bool.eq_false_iff]
  exact fun ht => absurd ((h t).mp ht) (by simp)

variable [DecidableEq T]

theorem acquire (h : Guarded inside none) (t : T) :
    Guarded (update inside t true) (some t) := by
  intro u
  by_cases hu : u = t
  · subst hu
    simp
  · rw [update_of_ne hu, h.not_inside u]
    simp [Ne.symm hu]

theorem release (h : Guarded inside holder) (ht : inside t = true) :
    Guarded (update inside t false) none := by
  refine free fun u => ?_
  by_cases hu : u = t
  · subst hu
    simp
  · rw [update_of_ne hu, Bool.eq_false_iff]
    exact fun hin => hu (h.unique hin ht)

/-- A step that stays inside, or outside. -/
theorem stay (h : Guarded inside holder) {b : Bool} (hb : b = inside t) :
    Guarded (update inside t b) holder := by
  rw [hb, update_eq_self]
  exact h

end Guarded

end KeyValueDb.Lib
