/-
# An input file stream

`std::ifstream` as far as `getline` and `read` are concerned: the bytes not read yet and
whether the stream is still good.  Reaching the end of the file while reading clears `good`,
and nothing can be read from a stream that is not good; a last line without a terminator is
still delivered.
-/
import KeyValueDb.Lib.Lines

namespace KeyValueDb.Lib

structure IStream where
  rest : List UInt8
  good : Bool

namespace IStream

/-- `std::getline(in, line)`; `none` when it fails. -/
def getline (st : IStream) : Option (List UInt8) × IStream :=
  if st.good = false then (none, st)
  else match cutLine 10 st.rest with
    | some (line, rest) => (some line.dropLast, ⟨rest, true⟩)
    | none => (if st.rest = [] then none else some st.rest, ⟨[], false⟩)

/-- `in.read(buf, n)`: the bytes that arrived, at most `n`. -/
def read (n : Nat) (st : IStream) : List UInt8 × IStream :=
  if st.good = false then ([], st)
  else if n ≤ st.rest.length then (st.rest.take n, ⟨st.rest.drop n, true⟩)
  else (st.rest, ⟨[], false⟩)

variable {body rest : List UInt8}

theorem getline_line (h : (10 : UInt8) ∉ body) (rest : List UInt8) :
    getline ⟨body ++ 10 :: rest, true⟩ = (some body, ⟨rest, true⟩) := by
  simp [getline, cutLine_line 10 h]

theorem getline_last (h : (10 : UInt8) ∉ body) (hne : body ≠ []) :
    getline ⟨body, true⟩ = (some body, ⟨[], false⟩) := by
  simp [getline, cutLine_eq_none 10 h, hne]

theorem getline_nil : getline ⟨[], true⟩ = (none, ⟨[], false⟩) := rfl

theorem read_append (n : Nat) (h : body.length = n) :
    read n ⟨body ++ rest, true⟩ = (body, ⟨rest, true⟩) := by
  subst h
  simp [read]

theorem read_short (n : Nat) (h : body.length < n) :
    read n ⟨body, true⟩ = (body, ⟨[], false⟩) := by
  simp [read, Nat.not_le.mpr h]

theorem read_bad (n : Nat) (xs : List UInt8) : read n ⟨xs, false⟩ = ([], ⟨xs, false⟩) := rfl

/-- A read that goes beyond a piece takes the symbol behind it. -/
theorem mem_read {c : UInt8} {n : Nat} (h : body.length < n) (rest : List UInt8) :
    c ∈ (read n ⟨body ++ c :: rest, true⟩).1 := by
  rw [read, if_neg (by simp)]
  split
  · obtain ⟨k, rfl⟩ : ∃ k, n = body.length + (k + 1) := ⟨n - body.length - 1, by omega⟩
    rw [List.take_length_add_append, List.take_succ_cons]
    simp
  · simp

/-- A line that was delivered took something off the stream. -/
theorem getline_length_lt {st st' : IStream} {line : List UInt8}
    (h : st.getline = (some line, st')) : st'.rest.length < st.rest.length := by
  unfold getline at h
  split at h
  · exact absurd h (by simp)
  · split at h
    · rename_i hcut
      simp only [Prod.mk.injEq] at h
      rw [← h.2]
      exact cutLine_length_lt 10 hcut
    · simp only [Prod.mk.injEq, ite_eq_iff, reduceCtorEq, and_false, false_or] at h
      rw [← h.2]
      exact List.length_pos_iff.mpr h.1.1

/-- What a line leaves on the stream is the end of what was there. -/
theorem getline_suffix (st : IStream) : st.getline.2.rest <:+ st.rest := by
  unfold getline
  split
  · exact List.suffix_refl _
  · split
    · rename_i hcut
      exact cutLine_suffix 10 hcut
    · exact List.nil_suffix

theorem read_suffix (n : Nat) (st : IStream) : (st.read n).2.rest <:+ st.rest := by
  unfold read
  split
  · exact List.suffix_refl _
  · split
    · exact List.drop_suffix n st.rest
    · exact List.nil_suffix

/-- Two reads in a row take what one would. -/
theorem read_read_rest (n k : Nat) (xs : List UInt8) :
    ((read n ⟨xs, true⟩).2.read k).2.rest = xs.drop (n + k) := by
  rcases Nat.lt_or_ge xs.length n with hshort | hlong
  · have hdrop : xs.drop (n + k) = [] := List.drop_eq_nil_of_le (by omega)
    rw [read_short n hshort, read_bad, hdrop]
  · have hread : (read n ⟨xs, true⟩).2 = ⟨xs.drop n, true⟩ := by simp [read, hlong]
    rw [hread]
    rcases Nat.lt_or_ge (xs.drop n).length k with h | h
    · have hdrop : xs.drop (n + k) = [] := by
        rw [List.length_drop] at h
        exact List.drop_eq_nil_of_le (by omega)
      rw [read_short k h, hdrop]
    · simp only [read, Bool.true_eq_false, if_false, if_pos h, List.drop_drop]

/-- The symbols of a line come from the stream, and are not on it any more. -/
theorem count_getline_le (c : UInt8) {st st' : IStream} {line : List UInt8}
    (h : st.getline = (some line, st')) :
    line.count c + st'.rest.count c ≤ st.rest.count c := by
  unfold getline at h
  split at h
  · exact absurd h (by simp)
  · split at h
    · rename_i cut rest hcut
      simp only [Prod.mk.injEq, Option.some.injEq] at h
      rw [← h.1, ← h.2, ← cutLine_append 10 hcut, List.count_append]
      exact Nat.add_le_add_right ((List.dropLast_sublist cut).count_le c) _
    · simp only [Prod.mk.injEq, ite_eq_iff, reduceCtorEq, and_false, false_or,
        Option.some.injEq] at h
      rw [← h.1.2, ← h.2]
      exact Nat.le_refl _

/-- All lines that `getline` delivers, at most as many as the fuel. -/
def getlines : Nat → IStream → List (List UInt8)
  | 0, _ => []
  | fuel + 1, st =>
    match st.getline with
    | (none, _) => []
    | (some line, st) => line :: getlines fuel st

/-- The lines of a file, without their terminators; a last line may have none. -/
def fileLines (file : List UInt8) : List (List UInt8) :=
  (splitLines 10 file).1.map List.dropLast ++
    (if (splitLines 10 file).2 = [] then [] else [(splitLines 10 file).2])

/-- **`getline` delivers the lines of the file**, and the fuel is enough. -/
theorem getlines_eq {fuel : Nat} {file : List UInt8} (h : file.length < fuel) :
    getlines fuel ⟨file, true⟩ = fileLines file := by
  induction fuel generalizing file with
  | zero => exact absurd h (Nat.not_lt_zero _)
  | succ fuel ih =>
    unfold getlines getline
    rw [if_neg (by simp)]
    cases hcut : cutLine 10 file with
    | none =>
      rw [fileLines, splitLines_of_cutLine_none 10 hcut]
      by_cases hnil : file = []
      · simp [hnil]
      · have hend : getlines fuel ⟨[], false⟩ = [] := by cases fuel <;> rfl
        simp [hnil, hend]
    | some cut =>
      obtain ⟨line, rest⟩ := cut
      have hlt := cutLine_length_lt 10 hcut
      rw [fileLines, splitLines_of_cutLine 10 hcut]
      dsimp only
      rw [ih (by omega), fileLines, List.map_cons, List.cons_append]

end IStream

end KeyValueDb.Lib
