/-
# Operations in another order

Two operations commute when their order makes no difference in any state.  A history of
operations is then more than one sequence: as long as what is moved commutes with what it is
moved past, the outcome stays (`foldl_filter_or`).

The operations that matter here change a map at one key (`changeAt`); at different keys they
always commute.
-/
import Mathlib.Data.List.Basic
import Mathlib.Logic.Function.Basic

namespace KeyValueDb.Lib

open Function

/-! ## 1. Commuting operations -/

section Commutes

variable {σ : Type*} {α : Type*} {op : σ → α → σ} {a b : α}

/-- The order of the two makes no difference. -/
def Commutes (op : σ → α → σ) (a b : α) : Prop := ∀ s, op (op s a) b = op (op s b) a

theorem Commutes.symm (h : Commutes op a b) : Commutes op b a := fun s => (h s).symm

/-- An operation can be moved from the front to the end of what it commutes with. -/
theorem foldl_of_commutes {l : List α} (h : ∀ b ∈ l, Commutes op a b) (s : σ) :
    l.foldl op (op s a) = op (l.foldl op s) a := by
  induction l generalizing s with
  | nil => rfl
  | cons b l ih =>
    rw [List.foldl_cons, List.foldl_cons, h b List.mem_cons_self s,
      ih (fun c hc => h c (List.mem_cons_of_mem b hc))]

/-- **Two parts of a history, one after the other.**  The operations that pass `p` or `q`, in
the order of the history, have the same outcome as first those that pass `p` and then those
that pass `q`, if every one of the latter commutes with all of the former that come after
it. -/
theorem foldl_filter_or {p q : α → Bool} {l : List α} (hdisjoint : ∀ a ∈ l, p a → ¬ q a)
    (h : l.Pairwise fun a b => q a = true → p b = true → Commutes op a b) (s : σ) :
    (l.filter fun a => p a || q a).foldl op s =
      (l.filter q).foldl op ((l.filter p).foldl op s) := by
  induction l generalizing s with
  | nil => rfl
  | cons a l ih =>
    obtain ⟨ha, hl⟩ := List.pairwise_cons.mp h
    have hrest := ih (fun b hb => hdisjoint b (List.mem_cons_of_mem a hb)) hl
    by_cases hp : p a = true
    · have hq := hdisjoint a List.mem_cons_self hp
      simp only [List.filter_cons, hp, hq, Bool.true_or, if_true, List.foldl_cons]
      exact hrest (op s a)
    · by_cases hq : q a = true
      · simp only [List.filter_cons, hp, hq, Bool.or_true, if_true, List.foldl_cons]
        rw [hrest (op s a), foldl_of_commutes]
        · rfl
        · intro b hb
          obtain ⟨hmem, hpb⟩ := List.mem_filter.mp hb
          exact ha b hmem hq hpb
      · simp only [List.filter_cons, hp, hq, Bool.or_self, Bool.false_eq_true, if_false]
        exact hrest s

end Commutes

/-! ## 2. Operations at one key -/

section ChangeAt

variable {K : Type*} {V : Type*} [DecidableEq K] {k k' : K} {g g' : V → V} {f f' : K → V}

/-- Change what a map holds under a key. -/
def changeAt (k : K) (g : V → V) (f : K → V) : K → V := update f k (g (f k))

theorem changeAt_self : changeAt k g f k = g (f k) := update_self ..

theorem changeAt_of_ne (h : k' ≠ k) : changeAt k g f k' = f k' := update_of_ne h ..

/-- What a key holds afterwards depends on what it held before. -/
theorem changeAt_congr (h : f k' = f' k') : changeAt k g f k' = changeAt k g f' k' := by
  by_cases hk : k' = k
  · subst hk
    rw [changeAt_self, changeAt_self, h]
  · rw [changeAt_of_ne hk, changeAt_of_ne hk, h]

theorem changeAt_comm_of_ne (h : k ≠ k') :
    changeAt k g (changeAt k' g' f) = changeAt k' g' (changeAt k g f) := by
  unfold changeAt
  rw [update_of_ne h, update_of_ne h.symm, update_comm h]

theorem changeAt_changeAt : changeAt k g (changeAt k g' f) = changeAt k (g ∘ g') f := by
  unfold changeAt
  rw [update_self, update_idem, comp_apply]

end ChangeAt

end KeyValueDb.Lib
