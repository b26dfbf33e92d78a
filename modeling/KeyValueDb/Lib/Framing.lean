/-
# A cut through a sequence of framed records

A log is the concatenation of the encodings of its records.  Cut it after any number of
bytes: what is left is some whole records and a proper piece of the next one
(`take_flatMap_eq`).  Nothing here depends on the encoding.
-/
import Mathlib.Data.List.Basic

namespace KeyValueDb.Lib

variable {α β : Type}

/-- How many whole records the first `n` symbols of the log hold, and how many symbols of the
next record they hold besides. -/
def wholeFrames (enc : β → List α) : List β → Nat → Nat × Nat
  | [], _ => (0, 0)
  | x :: xs, n =>
    if (enc x).length ≤ n then
      ((wholeFrames enc xs (n - (enc x).length)).1 + 1,
        (wholeFrames enc xs (n - (enc x).length)).2)
    else (0, n)

/-- The record the cut goes through, if it goes through one. -/
theorem wholeFrames_snd_lt {enc : β → List α} {xs : List β} {n : Nat} {x : β}
    (h : xs[(wholeFrames enc xs n).1]? = some x) :
    (wholeFrames enc xs n).2 < (enc x).length := by
  induction xs generalizing n with
  | nil => simp at h
  | cons y ys ih =>
    simp only [wholeFrames] at h ⊢
    split at h
    · rename_i hle
      rw [if_pos hle]
      exact ih (by simpa using h)
    · rename_i hle
      rw [if_neg hle]
      simp only [List.getElem?_cons_zero, Option.some.injEq] at h
      rw [← h]
      omega

/-- **A cut log is whole records and a piece of the next.** -/
theorem take_flatMap_eq (enc : β → List α) (xs : List β) (n : Nat) :
    (xs.flatMap enc).take n =
      (xs.take (wholeFrames enc xs n).1).flatMap enc ++
        (xs[(wholeFrames enc xs n).1]?.elim [] fun x => (enc x).take (wholeFrames enc xs n).2) := by
  induction xs generalizing n with
  | nil => simp [wholeFrames]
  | cons x xs ih =>
    simp only [wholeFrames, List.flatMap_cons]
    split
    · rename_i h
      rw [List.take_append, List.take_of_length_le h, ih (n - (enc x).length)]
      simp [List.append_assoc]
    · rename_i h
      rw [List.take_append_of_le_length (by omega)]
      simp

/-- The whole records in front, and the cut in what follows them. -/
theorem wholeFrames_append (enc : β → List α) (xs ys : List β) (n : Nat) :
    wholeFrames enc (xs ++ ys) (n + (xs.flatMap enc).length) =
      ((wholeFrames enc ys n).1 + xs.length, (wholeFrames enc ys n).2) := by
  induction xs with
  | nil => simp
  | cons x xs ih =>
    have hle : (enc x).length ≤ n + ((x :: xs).flatMap enc).length := by
      rw [List.flatMap_cons, List.length_append]
      omega
    have hrest : n + ((x :: xs).flatMap enc).length - (enc x).length =
        n + (xs.flatMap enc).length := by
      rw [List.flatMap_cons, List.length_append]
      omega
    rw [List.cons_append, wholeFrames, if_pos hle, hrest, ih, List.length_cons]
    rfl

/-- A cut in front of the last record goes through one of those before it. -/
theorem wholeFrames_append_of_lt (enc : β → List α) {xs : List β} (ys : List β) {n : Nat}
    (h : n < (xs.flatMap enc).length) :
    wholeFrames enc (xs ++ ys) n = wholeFrames enc xs n := by
  induction xs generalizing n with
  | nil => exact absurd h (Nat.not_lt_zero n)
  | cons x xs ih =>
    rw [List.flatMap_cons, List.length_append] at h
    rw [List.cons_append, wholeFrames, wholeFrames]
    split
    · rw [ih (by omega)]
    · rfl

/-- A cut before the end goes through some record. -/
theorem wholeFrames_fst_lt {enc : β → List α} {xs : List β} {n : Nat}
    (h : n < (xs.flatMap enc).length) : (wholeFrames enc xs n).1 < xs.length := by
  induction xs generalizing n with
  | nil => exact absurd h (Nat.not_lt_zero n)
  | cons x xs ih =>
    rw [List.flatMap_cons, List.length_append] at h
    simp only [wholeFrames]
    split
    · exact Nat.succ_lt_succ (ih (by omega))
    · exact Nat.succ_pos _

end KeyValueDb.Lib
