/-
# Byte strings and the numerals of the standard library

`std::string` holds arbitrary bytes, so a string of the program is a list of bytes here.  The
character tests are those of the "C" locale, and `stoll`, `stoi` and `stoul` follow the C++
standard: skip white space, take an optional sign, then digits as far as they go, ignore the
rest, and throw (`none`) when there is no digit or the value does not fit.  In particular
`stoul` accepts a minus sign and negates modulo `2 ^ 64`.
-/
import KeyValueDb.Lib.Decimal
import Mathlib.Data.List.TakeWhile

namespace KeyValueDb

open Lib

/-- A `std::string`. -/
abbrev Bytes := List UInt8

/-- The bytes of a literal of the source (all of them are ASCII). -/
def bytes (s : String) : Bytes := s.toList.map fun c => UInt8.ofNat c.toNat

/-! ## 1. Characters -/

/-- `'\r'`. -/
abbrev cr : UInt8 := 13

/-- `'\n'`. -/
abbrev lf : UInt8 := 10

/-- `"\r\n"`. -/
abbrev crlf : Bytes := [cr, lf]

/-- `'*'`. -/
abbrev star : UInt8 := 42

/-- `'$'`. -/
abbrev dollar : UInt8 := 36

/-- `std::isspace`. -/
def isspace (c : UInt8) : Bool := c == 32 || (9 ≤ c && c ≤ 13)

/-- `std::toupper`. -/
def toupper (c : UInt8) : UInt8 := if 97 ≤ c && c ≤ 122 then c - 32 else c

/-- `CommandParser::to_upper`. -/
def toUpper (str : Bytes) : Bytes := str.map toupper

theorem isspace_of_isDigit {c : UInt8} (h : isDigit c = true) : isspace c = false := by
  grind [isDigit, isspace]

theorem ne_of_isDigit {c d : UInt8} (h : isDigit c = true) (hd : isDigit d = false) : c ≠ d :=
  fun e => by rw [e, hd] at h; exact absurd h (by simp)

/-- A numeral holds no line terminator. -/
theorem lf_notMem_dec (n : Nat) : lf ∉ dec n :=
  fun h => absurd (isDigit_of_mem_dec n lf h) (by decide)

theorem cr_notMem_dec (n : Nat) : cr ∉ dec n :=
  fun h => absurd (isDigit_of_mem_dec n cr h) (by decide)

/-! ## 2. Integers -/

/-- A signed 64-bit result, with wrap-around. -/
def wrap64 (x : Int) : Int := x.bmod (2 ^ 64)

/-- The values of an `int64_t`. -/
def IsInt64 (x : Int) : Prop := -2 ^ 63 ≤ x ∧ x < 2 ^ 63

instance (x : Int) : Decidable (IsInt64 x) := inferInstanceAs (Decidable (_ ∧ _))

theorem isInt64_wrap64 (x : Int) : IsInt64 (wrap64 x) :=
  ⟨Int.le_bmod (by decide), Int.bmod_lt (by decide)⟩

/-- A result in range does not wrap around. -/
theorem wrap64_eq_self_iff {x : Int} : wrap64 x = x ↔ IsInt64 x := by
  constructor
  · intro h
    rw [← h]
    exact isInt64_wrap64 x
  · rintro ⟨hle, hlt⟩
    exact Int.bmod_eq_of_le (by omega) (by omega)

/-- The optional sign of a numeral: whether it is a minus, and what follows. -/
def takeSign : Bytes → Bool × Bytes
  | [] => (false, [])
  | c :: rest =>
    if c = 45 then (true, rest) else if c = 43 then (false, rest) else (false, c :: rest)

/-- What `strtol` reads: the sign and the digits, as far as they go. -/
def scanInt (str : Bytes) : Option (Bool × Nat) :=
  let signed := takeSign (str.dropWhile isspace)
  let digits := signed.2.takeWhile isDigit
  if digits = [] then none else some (signed.1, ofDec digits)

/-- The value `strtol` read. -/
def signedValue (neg : Bool) (n : Nat) : Int := if neg then -(n : Int) else n

/-- `std::stoll`. -/
def stoll (str : Bytes) : Option Int :=
  (scanInt str).bind fun (neg, n) =>
    if -2 ^ 63 ≤ signedValue neg n ∧ signedValue neg n < 2 ^ 63 then some (signedValue neg n)
    else none

/-- `std::stoi`. -/
def stoi (str : Bytes) : Option Int :=
  (scanInt str).bind fun (neg, n) =>
    if -2 ^ 31 ≤ signedValue neg n ∧ signedValue neg n < 2 ^ 31 then some (signedValue neg n)
    else none

/-- `std::stoul`, with a 64-bit `unsigned long`. -/
def stoul (str : Bytes) : Option Nat :=
  (scanInt str).bind fun (neg, n) =>
    if n < 2 ^ 64 then some (if neg then (2 ^ 64 - n) % 2 ^ 64 else n) else none

/-- `std::to_string` of a signed integer. -/
def stdToString (v : Int) : Bytes := if v < 0 then 45 :: dec v.natAbs else dec v.natAbs

/-- Digits are read up to the first byte that is none. -/
theorem scanInt_append {ds rest : Bytes} (hne : ds ≠ []) (h : ∀ c ∈ ds, isDigit c = true)
    (hrest : rest.takeWhile isDigit = []) : scanInt (ds ++ rest) = some (false, ofDec ds) := by
  cases ds with
  | nil => exact absurd rfl hne
  | cons d ds =>
    have hd : isDigit d = true := h d List.mem_cons_self
    have hdrop : (d :: ds ++ rest).dropWhile isspace = d :: ds ++ rest := by
      simp [isspace_of_isDigit hd]
    have hsign : takeSign (d :: ds ++ rest) = (false, d :: ds ++ rest) := by
      simp [takeSign, ne_of_isDigit hd (show isDigit 45 = false from rfl),
        ne_of_isDigit hd (show isDigit 43 = false from rfl)]
    have htake : (d :: ds ++ rest).takeWhile isDigit = d :: ds := by
      rw [List.takeWhile_append_of_pos h, hrest, List.append_nil]
    simp only [scanInt, hdrop, hsign, htake]
    simp

/-- A non-empty digit text is read whole. -/
theorem scanInt_of_digits {ds : Bytes} (hne : ds ≠ []) (h : ∀ c ∈ ds, isDigit c = true) :
    scanInt ds = some (false, ofDec ds) := by
  rw [← List.append_nil ds, scanInt_append hne h rfl, List.append_nil]

theorem stoul_of_digits {ds : Bytes} (hne : ds ≠ []) (h : ∀ c ∈ ds, isDigit c = true)
    (hlt : ofDec ds < 2 ^ 64) : stoul ds = some (ofDec ds) := by
  simp only [stoul, scanInt_of_digits hne h, Option.bind_some, if_pos hlt, Bool.false_eq_true,
    if_false]

theorem stoul_dec {n : Nat} (h : n < 2 ^ 64) : stoul (dec n) = some n := by
  rw [stoul_of_digits (dec_ne_nil n) (isDigit_of_mem_dec n) (by rwa [ofDec_dec]), ofDec_dec]

theorem stoi_of_scanInt {str : Bytes} {neg : Bool} {n : Nat}
    (hscan : scanInt str = some (neg, n))
    (hrange : -2 ^ 31 ≤ signedValue neg n ∧ signedValue neg n < 2 ^ 31) :
    stoi str = some (signedValue neg n) := by
  simp only [stoi, hscan, Option.bind_some]
  rw [if_pos hrange]

theorem stoi_dec {n : Nat} (h : n < 2 ^ 31) : stoi (dec n) = some (n : Int) := by
  have hscan : scanInt (dec n) = some (false, n) := by
    rw [scanInt_of_digits (dec_ne_nil n) (isDigit_of_mem_dec n), ofDec_dec]
  have hrange : -2 ^ 31 ≤ signedValue false n ∧ signedValue false n < 2 ^ 31 := by
    simp only [signedValue, Bool.false_eq_true, if_false]
    omega
  exact stoi_of_scanInt hscan hrange

theorem scanInt_stdToString (v : Int) :
    scanInt (stdToString v) = some (decide (v < 0), v.natAbs) := by
  unfold stdToString
  split
  · rename_i hneg
    have hall := isDigit_of_mem_dec v.natAbs
    have htake : (dec v.natAbs).takeWhile isDigit = dec v.natAbs :=
      List.takeWhile_eq_self_iff.mpr hall
    have hspace : (45 :: dec v.natAbs).dropWhile isspace = 45 :: dec v.natAbs := rfl
    simp only [scanInt, hspace, takeSign, if_true, htake, if_neg (dec_ne_nil v.natAbs), ofDec_dec,
      decide_eq_true hneg]
  · rename_i hpos
    rw [scanInt_of_digits (dec_ne_nil _) (isDigit_of_mem_dec _), ofDec_dec, decide_eq_false hpos]

theorem signedValue_natAbs (v : Int) : signedValue (decide (v < 0)) v.natAbs = v := by
  unfold signedValue
  split
  · rename_i hneg
    rw [decide_eq_true_eq] at hneg
    omega
  · rename_i hpos
    rw [decide_eq_true_eq] at hpos
    omega

/-- **Reading back what was printed.** -/
theorem stoll_stdToString {v : Int} (h : IsInt64 v) : stoll (stdToString v) = some v := by
  simp only [stoll, scanInt_stdToString, Option.bind_some, signedValue_natAbs]
  exact if_pos h

theorem stoi_stdToString {v : Int} (h : -2 ^ 31 ≤ v ∧ v < 2 ^ 31) :
    stoi (stdToString v) = some v := by
  have hread := stoi_of_scanInt (scanInt_stdToString v) (by rwa [signedValue_natAbs])
  rwa [signedValue_natAbs] at hread

/-- A cut numeral is still a numeral. -/
theorem stoul_take_dec {n i : Nat} (h : n < 2 ^ 64) (hi : 0 < i) :
    stoul ((dec n).take i) = some (ofDec ((dec n).take i)) := by
  refine stoul_of_digits ?_ ?_ (Nat.lt_of_le_of_lt (ofDec_take_dec_le n i) h)
  · intro e
    rw [List.take_eq_nil_iff] at e
    rcases e with e | e
    · omega
    · exact dec_ne_nil n e
  · exact fun c hc => isDigit_of_mem_dec n c (List.mem_of_mem_take hc)

end KeyValueDb
