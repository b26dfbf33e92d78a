/-
# Decimal numerals over ASCII bytes

A length-prefixed format writes its lengths as decimal text and reads them back with a
numeral scanner, so every argument about such a format rests on three facts proved here:
reading the text of `n` gives `n` back (`ofDec_dec`), the text consists of digits only
(`isDigit_of_mem_dec`), and cutting the text short never gives a larger number
(`ofDec_take_dec_le`).  The last one is what an argument about torn files needs.
-/
import Mathlib.Data.Nat.Digits.Defs
import Mathlib.Tactic.IntervalCases

namespace KeyValueDb.Lib

/-! ## 1. Digits -/

/-- The bytes `'0'` to `'9'`. -/
def isDigit (c : UInt8) : Bool := 48 ≤ c && c ≤ 57

/-- The value of a digit byte. -/
def digitVal (c : UInt8) : Nat := c.toNat - 48

/-- The byte of a digit. -/
def digitByte (d : Nat) : UInt8 := UInt8.ofNat (48 + d)

theorem digitVal_digitByte {d : Nat} (h : d < 10) : digitVal (digitByte d) = d := by
  interval_cases d <;> rfl

theorem isDigit_digitByte {d : Nat} (h : d < 10) : isDigit (digitByte d) = true := by
  interval_cases d <;> rfl

/-! ## 2. Text of a number, number of a text -/

/-- The decimal text of `n`, most significant digit first. -/
def dec (n : Nat) : List UInt8 :=
  if n = 0 then [digitByte 0] else (Nat.digits 10 n).reverse.map digitByte

/-- The number a digit text denotes. -/
def ofDec (ds : List UInt8) : Nat := ds.foldl (fun acc c => 10 * acc + digitVal c) 0

theorem ofDec_append_singleton (ds : List UInt8) (c : UInt8) :
    ofDec (ds ++ [c]) = 10 * ofDec ds + digitVal c := by
  simp [ofDec, List.foldl_append]

/-- A one-digit number is its digit. -/
theorem dec_of_lt {n : Nat} (h : n < 10) : dec n = [digitByte n] := by
  unfold dec
  split
  · rename_i h0; rw [h0]
  · rename_i h0; simp [Nat.digits_of_lt 10 n h0 h]

/-- A longer number is the text of its tens followed by its last digit. -/
theorem dec_of_le {n : Nat} (h : 10 ≤ n) : dec n = dec (n / 10) ++ [digitByte (n % 10)] := by
  unfold dec
  rw [if_neg (by omega), if_neg (by omega), Nat.digits_def' (by omega) (by omega)]
  simp

theorem dec_ne_nil (n : Nat) : dec n ≠ [] := by
  rcases Nat.lt_or_ge n 10 with h | h
  · simp [dec_of_lt h]
  · simp [dec_of_le h]

theorem dec_length_pos (n : Nat) : 0 < (dec n).length :=
  List.length_pos_iff.mpr (dec_ne_nil n)

/-- The text of `n` is never longer than `n + 1`. -/
theorem dec_length_le (n : Nat) : (dec n).length ≤ n + 1 := by
  induction n using Nat.strongRecOn with
  | _ n ih =>
    rcases Nat.lt_or_ge n 10 with h | h
    · simp [dec_of_lt h]
    · have hdiv := ih (n / 10) (by omega)
      rw [dec_of_le h, List.length_append, List.length_singleton]
      omega

theorem lt_pow_length_dec (n : Nat) : n < 10 ^ (dec n).length := by
  induction n using Nat.strongRecOn with
  | ind n ih =>
    by_cases h : n < 10
    · rw [dec_of_lt h]
      simpa using h
    · have hrest := ih (n / 10) (by omega)
      rw [dec_of_le (by omega), List.length_append, List.length_singleton, Nat.pow_succ]
      omega

theorem length_dec_le_of_lt {n k : Nat} (hk : 0 < k) (h : n < 10 ^ k) : (dec n).length ≤ k := by
  induction n using Nat.strongRecOn generalizing k with
  | ind n ih =>
    by_cases hn : n < 10
    · rw [dec_of_lt hn]
      exact hk
    · obtain ⟨k, rfl⟩ := Nat.exists_eq_succ_of_ne_zero (Nat.pos_iff_ne_zero.mp hk)
      rw [Nat.pow_succ] at h
      have hk' : 0 < k := by
        rw [Nat.pos_iff_ne_zero]
        rintro rfl
        omega
      have hrest := ih (n / 10) (by omega) hk' (by omega)
      rw [dec_of_le (by omega), List.length_append, List.length_singleton]
      omega

/-- A smaller number is no longer. -/
theorem length_dec_mono {m n : Nat} (h : m ≤ n) : (dec m).length ≤ (dec n).length :=
  length_dec_le_of_lt (dec_length_pos n) (Nat.lt_of_le_of_lt h (lt_pow_length_dec n))

/-- A sum is no longer than its summands together. -/
theorem length_dec_add_le (m n : Nat) : (dec (m + n)).length ≤ (dec m).length + (dec n).length := by
  have hpos := dec_length_pos m
  have hm := lt_pow_length_dec m
  have hn := lt_pow_length_dec n
  have hten : ∀ k, 0 < k → 10 ≤ 10 ^ k := fun k hk => Nat.le_self_pow (Nat.pos_iff_ne_zero.mp hk) 10
  have hm' := hten _ hpos
  have hn' := hten _ (dec_length_pos n)
  refine length_dec_le_of_lt (Nat.add_pos_left hpos _) ?_
  rw [Nat.pow_add]
  generalize 10 ^ (dec m).length = a at hm hm'
  generalize 10 ^ (dec n).length = b at hn hn'
  nlinarith

/-- Every byte of a decimal text is a digit. -/
theorem isDigit_of_mem_dec (n : Nat) : ∀ c ∈ dec n, isDigit c = true := by
  induction n using Nat.strongRecOn with
  | _ n ih =>
    intro c hc
    rcases Nat.lt_or_ge n 10 with h | h
    · rw [dec_of_lt h, List.mem_singleton] at hc
      rw [hc]; exact isDigit_digitByte h
    · rw [dec_of_le h, List.mem_append, List.mem_singleton] at hc
      rcases hc with hc | rfl
      · exact ih (n / 10) (by omega) c hc
      · exact isDigit_digitByte (Nat.mod_lt n (by omega))

/-- **Reading undoes writing.** -/
@[simp] theorem ofDec_dec (n : Nat) : ofDec (dec n) = n := by
  induction n using Nat.strongRecOn with
  | _ n ih =>
    rcases Nat.lt_or_ge n 10 with h | h
    · rw [dec_of_lt h]
      simp [ofDec, digitVal_digitByte h]
    · rw [dec_of_le h, ofDec_append_singleton, ih (n / 10) (by omega),
        digitVal_digitByte (Nat.mod_lt n (by omega))]
      omega

/-! ## 3. A numeral cut short -/

/-- Reading on only makes the number larger. -/
theorem ofDec_le_append (ds es : List UInt8) : ofDec ds ≤ ofDec (ds ++ es) := by
  induction es generalizing ds with
  | nil => simp
  | cons c es ih =>
    have h := ih (ds ++ [c])
    rw [List.append_assoc, List.singleton_append, ofDec_append_singleton] at h
    omega

/-- **A numeral cut short denotes at most the number it was cut from.** -/
theorem ofDec_take_dec_le (n i : Nat) : ofDec ((dec n).take i) ≤ n := by
  have h := ofDec_le_append ((dec n).take i) ((dec n).drop i)
  rwa [List.take_append_drop, ofDec_dec] at h

/-- Every further digit makes the number ten times as large. -/
theorem ofDec_mul_ten_le (ds : List UInt8) {es : List UInt8} (hne : es ≠ []) :
    10 * ofDec ds ≤ ofDec (ds ++ es) := by
  obtain ⟨c, es, rfl⟩ := List.exists_cons_of_ne_nil hne
  have hfirst := ofDec_append_singleton ds c
  have hrest := ofDec_le_append (ds ++ [c]) es
  rw [List.append_assoc, List.singleton_append] at hrest
  omega

/-- The first digit of a positive number is not zero. -/
theorem ofDec_take_one_pos {n : Nat} (h : 0 < n) : 0 < ofDec ((dec n).take 1) := by
  induction n using Nat.strongRecOn with
  | _ n ih =>
    rcases Nat.lt_or_ge n 10 with h10 | h10
    · have ht : (dec n).take 1 = dec n := by simp [dec_of_lt h10]
      rw [ht, ofDec_dec]; exact h
    · rw [dec_of_le h10, List.take_append_of_le_length (dec_length_pos _)]
      exact ih (n / 10) (by omega) (by omega)

/-- ...so no non-empty cut of it reads as zero. -/
theorem ofDec_take_dec_pos {n i : Nat} (hn : 0 < n) (hi : 0 < i) :
    0 < ofDec ((dec n).take i) := by
  have h1 : (dec n).take 1 = ((dec n).take i).take 1 := by
    rw [List.take_take, Nat.min_eq_left hi]
  have h2 := ofDec_le_append (((dec n).take i).take 1) (((dec n).take i).drop 1)
  rw [List.take_append_drop, ← h1] at h2
  exact Nat.lt_of_lt_of_le (ofDec_take_one_pos hn) h2

/-- **A numeral that lost a digit denotes less.** -/
theorem ofDec_take_dec_lt {n i : Nat} (hi : 0 < i) (h : i < (dec n).length) :
    ofDec ((dec n).take i) < n := by
  have hn : 0 < n := by
    rcases Nat.eq_zero_or_pos n with rfl | hn
    · rw [dec_of_lt (by omega), List.length_singleton] at h
      omega
    · exact hn
  have hpos := ofDec_take_dec_pos hn hi
  have hten := @ofDec_mul_ten_le ((dec n).take i) ((dec n).drop i)
    (by rw [Ne, List.drop_eq_nil_iff]; omega)
  rw [List.take_append_drop, ofDec_dec] at hten
  omega

end KeyValueDb.Lib
