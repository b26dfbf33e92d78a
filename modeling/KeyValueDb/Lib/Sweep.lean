/-
# Sweeping the front of a list

A sweep looks at the first `k` elements of a list and drops the bad ones among them.  Swept
again and again, a list loses every bad element exactly when none has `k` good ones before it
(`sweeps_clear_iff`): the good elements at the front stay where they are, and what lies beyond
the first `k` of them is never looked at.
-/
import Mathlib.Data.List.Basic
import Mathlib.Logic.Function.Iterate

namespace KeyValueDb.Lib

variable {α : Type*} (bad : α → Bool)

/-- One sweep: the bad ones among the first `k` go. -/
def sweep (k : Nat) (xs : List α) : List α := (xs.take k).filter (!bad ·) ++ xs.drop k

/-- What lies beyond the first `k` good elements. -/
def beyond : Nat → List α → List α
  | 0, xs => xs
  | _ + 1, [] => []
  | k + 1, x :: xs => if bad x then beyond (k + 1) xs else beyond k xs

variable {bad} {k : Nat} {xs : List α}

@[simp] theorem beyond_zero (xs : List α) : beyond bad 0 xs = xs := by cases xs <;> rfl

/-- **A sweep leaves what lies beyond.** -/
theorem beyond_sweep {j : Nat} (hj : j ≤ k) : beyond bad k (sweep bad j xs) = beyond bad k xs := by
  unfold sweep
  induction xs generalizing j k with
  | nil => simp
  | cons x xs ih =>
    cases j with
    | zero => simp
    | succ j =>
      obtain ⟨k, rfl⟩ : ∃ k', k = k' + 1 := ⟨k - 1, by omega⟩
      rw [List.take_succ_cons, List.drop_succ_cons, beyond]
      split
      · rename_i hx
        rw [List.filter_cons_of_neg (by simp [hx])]
        exact ih (by omega)
      · rename_i hx
        rw [List.filter_cons_of_pos (by simp [hx]), List.cons_append, beyond, if_neg hx]
        exact ih (by omega)

theorem beyond_sublist (k : Nat) (xs : List α) : (beyond bad k xs).Sublist xs := by
  fun_induction beyond bad k xs with
  | case1 xs => exact List.Sublist.refl xs
  | case2 => exact List.Sublist.refl []
  | case3 k x xs _ ih => exact ih.cons x
  | case4 k x xs _ ih => exact ih.cons x

/-- With nothing bad among the first `k`, beyond them is the rest. -/
theorem beyond_of_good (h : ∀ x ∈ xs.take k, bad x = false) : beyond bad k xs = xs.drop k := by
  induction xs generalizing k with
  | nil => cases k <;> rfl
  | cons x xs ih =>
    cases k with
    | zero => rfl
    | succ k =>
      rw [List.take_succ_cons] at h
      have hx : bad x = false := h x List.mem_cons_self
      rw [beyond, if_neg (by simp [hx]), List.drop_succ_cons]
      exact ih fun y hy => h y (List.mem_cons_of_mem x hy)

/-- **A bad element that is within reach** makes the sweep shorten the list. -/
theorem length_sweep_lt (hbeyond : ∀ x ∈ beyond bad k xs, bad x = false) {x : α} (hx : x ∈ xs)
    (hbad : bad x = true) : (sweep bad k xs).length < xs.length := by
  have htake : ∃ y ∈ xs.take k, bad y = true := by
    by_contra hnone
    have hgood : ∀ y ∈ xs.take k, bad y = false := fun y hy =>
      Bool.eq_false_iff.mpr fun h => hnone ⟨y, hy, h⟩
    rw [beyond_of_good hgood] at hbeyond
    rw [← List.take_append_drop k xs] at hx
    rcases List.mem_append.mp hx with hx | hx
    · exact hnone ⟨x, hx, hbad⟩
    · rw [hbeyond x hx] at hbad
      cases hbad
  obtain ⟨y, hy, hybad⟩ := htake
  have hfilter : ((xs.take k).filter (!bad ·)).length < (xs.take k).length :=
    List.length_filter_lt_length_iff_exists.mpr ⟨y, hy, by simp [hybad]⟩
  have hlength := congrArg List.length (List.take_append_drop k xs)
  rw [List.length_append] at hlength
  rw [sweep, List.length_append]
  omega

theorem beyond_sweeps (k n : Nat) (xs : List α) :
    beyond bad k ((sweep bad k)^[n] xs) = beyond bad k xs := by
  induction n with
  | zero => rfl
  | succ n ih => rw [Function.iterate_succ_apply', beyond_sweep (Nat.le_refl k), ih]

/-- Some number of sweeps clears the list exactly when nothing bad lies beyond reach. -/
theorem sweeps_clear_iff_beyond (k : Nat) (xs : List α) :
    (∃ n, ∀ x ∈ (sweep bad k)^[n] xs, bad x = false) ↔ ∀ x ∈ beyond bad k xs, bad x = false := by
  constructor
  · rintro ⟨n, hn⟩ x hx
    rw [← beyond_sweeps k n xs] at hx
    exact hn x ((beyond_sublist k _).mem hx)
  · intro h
    induction hlength : xs.length using Nat.strongRecOn generalizing xs with
    | ind m ih =>
      by_cases hall : ∀ x ∈ xs, bad x = false
      · exact ⟨0, hall⟩
      · push Not at hall
        obtain ⟨x, hx, hbad⟩ := hall
        have hlt := length_sweep_lt h hx ((Bool.not_eq_false _).mp hbad)
        obtain ⟨n, hn⟩ := ih _ (hlength ▸ hlt) (sweep bad k xs)
          (by rwa [beyond_sweep (Nat.le_refl k)]) rfl
        exact ⟨n + 1, hn⟩

/-- Nothing bad lies beyond reach exactly when none has `k` good elements before it. -/
theorem beyond_good_iff : (∀ x ∈ beyond bad k xs, bad x = false) ↔
    ∀ before x after, xs = before ++ x :: after → bad x = true → before.countP (!bad ·) < k := by
  induction xs generalizing k with
  | nil => cases k <;> simp [beyond]
  | cons y ys ih =>
    cases k with
    | zero =>
      constructor
      · rintro h before x after heq hbad
        rw [beyond_zero, heq] at h
        rw [h x (List.mem_append_right before List.mem_cons_self)] at hbad
        cases hbad
      · intro h x hx
        rw [beyond_zero] at hx
        obtain ⟨before, after, heq⟩ := List.append_of_mem hx
        exact Bool.eq_false_iff.mpr fun hbad => Nat.not_lt_zero _ (h before x after heq hbad)
    | succ k =>
      have hcons : ∀ {m : Nat}, (bad y = true → m = k + 1) → (bad y = false → m = k) →
          ((∀ before x after, ys = before ++ x :: after → bad x = true →
            before.countP (!bad ·) < m) ↔
          ∀ before x after, y :: ys = before ++ x :: after → bad x = true →
            before.countP (!bad ·) < k + 1) := by
        intro m hbad hgood
        constructor
        · rintro h (_ | ⟨z, before⟩) x after heq hx
          · exact Nat.succ_pos k
          · obtain ⟨rfl, htail⟩ := List.cons.inj heq
            have hcount := h before x after htail hx
            rw [List.countP_cons]
            cases hy : bad y with
            | true =>
              rw [hbad hy] at hcount
              simpa using hcount
            | false =>
              rw [hgood hy] at hcount
              simpa using hcount
        · intro h before x after heq hx
          have hcount := h (y :: before) x after (by rw [heq]; rfl) hx
          rw [List.countP_cons] at hcount
          cases hy : bad y with
          | true =>
            rw [hbad hy]
            simpa [hy] using hcount
          | false =>
            rw [hgood hy]
            simpa [hy] using hcount
      rw [beyond]
      split
      · rename_i hy
        exact ih.trans (hcons (fun _ => rfl) fun h => by rw [hy] at h; cases h)
      · rename_i hy
        exact ih.trans (hcons (fun h => absurd h hy) fun _ => rfl)

/-- **Some number of sweeps clears the list** exactly when no bad element has `k` good ones before
it. -/
theorem sweeps_clear_iff (k : Nat) (xs : List α) :
    (∃ n, ∀ x ∈ (sweep bad k)^[n] xs, bad x = false) ↔
      ∀ before x after, xs = before ++ x :: after → bad x = true →
        before.countP (!bad ·) < k :=
  (sweeps_clear_iff_beyond k xs).trans beyond_good_iff

end KeyValueDb.Lib
