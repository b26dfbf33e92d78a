/-
# RESP2 replies on the wire

The values a server of this protocol answers with, their encoding, and a reader that takes one
value off a stream.  Lengths are announced before payloads, so a bulk string may hold any
bytes; a simple string or an error ends with its line, so it may hold neither `'\r'` nor
`'\n'` (`WellFormed`).  Under that condition the reader takes exactly the value off that was
written and leaves what follows (`read_encode`), and a stream of values is read back value by
value (`readAll_encode`).
-/
import KeyValueDb.Lib.Decimal

namespace KeyValueDb.Lib.Resp2

/-! ## 1. Values and their encoding -/

/-- A reply; an item of an array is a bulk string or null. -/
inductive Value
  | simple (text : List UInt8)
  | error (text : List UInt8)
  | integer (n : Int)
  | bulk (payload : List UInt8)
  | null
  | array (items : List (Option (List UInt8)))
  deriving DecidableEq

/-- Carriage return and line feed. -/
def eol : List UInt8 := [13, 10]

/-- The decimal text of a signed number. -/
def decInt (n : Int) : List UInt8 := if n < 0 then 45 :: dec n.natAbs else dec n.natAbs

/-- A bulk string, or null. -/
def encodeItem : Option (List UInt8) → List UInt8
  | none => [36, 45, 49] ++ eol
  | some payload => 36 :: dec payload.length ++ eol ++ payload ++ eol

namespace Value

def encode : Value → List UInt8
  | simple text => 43 :: text ++ eol
  | error text => 45 :: text ++ eol
  | integer n => 58 :: decInt n ++ eol
  | bulk payload => encodeItem (some payload)
  | null => encodeItem none
  | array items => 42 :: dec items.length ++ eol ++ items.flatMap encodeItem

/-- A text that ends with its line holds no line end. -/
def WellFormed : Value → Prop
  | simple text | error text => 13 ∉ text ∧ 10 ∉ text
  | _ => True

theorem encode_ne_nil (v : Value) : v.encode ≠ [] := by
  cases v <;> simp [encode, encodeItem]

end Value

/-! ## 2. The reader -/

/-- The text up to the next line end, and what follows it.  A lone `'\r'` or `'\n'` is not
accepted. -/
def readLine : List UInt8 → Option (List UInt8 × List UInt8)
  | [] => none
  | c :: rest =>
    if c = 13 then if rest.head? = some 10 then some ([], rest.tail) else none
    else if c = 10 then none
    else (readLine rest).map fun r => (c :: r.1, r.2)

def readNat (text : List UInt8) : Option Nat :=
  if text ≠ [] ∧ text.all isDigit then some (ofDec text) else none

def readInt : List UInt8 → Option Int
  | 45 :: digits => (readNat digits).map fun n => -Int.ofNat n
  | digits => (readNat digits).map Int.ofNat

/-- The payload of an announced length, and its line end. -/
def readPayload (n : Nat) (xs : List UInt8) : Option (List UInt8 × List UInt8) :=
  if (xs.drop n).take 2 = eol then some (xs.take n, xs.drop (n + 2)) else none

/-- What follows the mark of a bulk string. -/
def readItem (xs : List UInt8) : Option (Option (List UInt8) × List UInt8) :=
  (readLine xs).bind fun header =>
    if header.1 = [45, 49] then some (none, header.2)
    else (readNat header.1).bind fun n =>
      (readPayload n header.2).map fun r => (some r.1, r.2)

def readItems : Nat → List UInt8 → Option (List (Option (List UInt8)) × List UInt8)
  | 0, xs => some ([], xs)
  | n + 1, xs =>
    if xs.head? = some 36 then
      (readItem xs.tail).bind fun r =>
        (readItems n r.2).map fun rs => (r.1 :: rs.1, rs.2)
    else none

/-- One value off the stream. -/
def read : List UInt8 → Option (Value × List UInt8)
  | [] => none
  | mark :: xs =>
    if mark = 43 then (readLine xs).map fun r => (.simple r.1, r.2)
    else if mark = 45 then (readLine xs).map fun r => (.error r.1, r.2)
    else if mark = 58 then
      (readLine xs).bind fun r => (readInt r.1).map fun n => (.integer n, r.2)
    else if mark = 36 then
      (readItem xs).map fun r => (r.1.elim .null .bulk, r.2)
    else if mark = 42 then
      (readLine xs).bind fun header =>
        (readNat header.1).bind fun n => (readItems n header.2).map fun r => (.array r.1, r.2)
    else none

/-- The values of a whole stream; every value takes something off it. -/
def readAll : Nat → List UInt8 → Option (List Value)
  | _, [] => some []
  | 0, _ :: _ => none
  | n + 1, x :: xs => (read (x :: xs)).bind fun r => (readAll n r.2).map fun vs => r.1 :: vs

/-! ## 3. Reading undoes writing -/

theorem readLine_append {text : List UInt8} (hcr : 13 ∉ text) (hlf : 10 ∉ text)
    (rest : List UInt8) : readLine (text ++ eol ++ rest) = some (text, rest) := by
  induction text with
  | nil => rfl
  | cons c text ih =>
    have hc : c ≠ 13 := fun e => hcr (e ▸ List.mem_cons_self)
    have hl : c ≠ 10 := fun e => hlf (e ▸ List.mem_cons_self)
    have hrest := ih (fun h => hcr (List.mem_cons_of_mem c h))
      (fun h => hlf (List.mem_cons_of_mem c h))
    simp only [List.cons_append, readLine]
    rw [if_neg hc, if_neg hl, hrest, Option.map_some]

theorem not_mem_dec {c : UInt8} (hc : isDigit c = false) (n : Nat) : c ∉ dec n := by
  intro h
  rw [isDigit_of_mem_dec n c h] at hc
  exact absurd hc (by decide)

theorem readLine_dec (n : Nat) (rest : List UInt8) :
    readLine (dec n ++ eol ++ rest) = some (dec n, rest) :=
  readLine_append (not_mem_dec rfl n) (not_mem_dec rfl n) rest

@[simp] theorem readNat_dec (n : Nat) : readNat (dec n) = some n := by
  have hall : (dec n).all isDigit = true := List.all_eq_true.mpr (isDigit_of_mem_dec n)
  simp [readNat, dec_ne_nil, hall]

theorem readInt_dec (n : Nat) : readInt (dec n) = some (Int.ofNat n) := by
  unfold readInt
  split
  · rename_i digits h
    exact absurd (h ▸ List.mem_cons_self : (45 : UInt8) ∈ dec n) (not_mem_dec rfl n)
  · rw [readNat_dec, Option.map_some]

@[simp] theorem readInt_decInt (n : Int) : readInt (decInt n) = some n := by
  unfold decInt
  split
  · rename_i h
    have habs : -Int.ofNat n.natAbs = n := by
      rw [Int.ofNat_eq_natCast]
      omega
    rw [readInt, readNat_dec, Option.map_some, habs]
  · rename_i h
    have habs : Int.ofNat n.natAbs = n := by
      rw [Int.ofNat_eq_natCast]
      omega
    rw [readInt_dec, habs]

theorem not_mem_decInt {c : UInt8} (hc : isDigit c = false) (hsign : c ≠ 45) (n : Int) :
    c ∉ decInt n := by
  unfold decInt
  split
  · simp [hsign, not_mem_dec hc]
  · exact not_mem_dec hc _

theorem readPayload_append (payload rest : List UInt8) :
    readPayload payload.length (payload ++ eol ++ rest) = some (payload, rest) := by
  have hdrop : (payload ++ (eol ++ rest)).drop (payload.length + 2) = rest := by
    rw [← List.drop_drop, List.drop_left]
    rfl
  rw [List.append_assoc, readPayload, List.drop_left, List.take_left, hdrop, if_pos (by rfl)]

theorem readItem_encodeItem (item : Option (List UInt8)) (rest : List UInt8) :
    readItem ((encodeItem item).tail ++ rest) = some (item, rest) := by
  cases item with
  | none => rfl
  | some payload =>
    have hsplit : (encodeItem (some payload)).tail ++ rest =
        dec payload.length ++ eol ++ (payload ++ eol ++ rest) := by simp [encodeItem]
    have hdec : dec payload.length ≠ [45, 49] := fun h =>
      not_mem_dec (c := 45) rfl payload.length (h ▸ List.mem_cons_self)
    rw [hsplit, readItem, readLine_dec]
    simp only [Option.bind_some, if_neg hdec, readNat_dec, readPayload_append,
      Option.map_some]

theorem encodeItem_eq (item : Option (List UInt8)) :
    encodeItem item = 36 :: (encodeItem item).tail := by
  cases item <;> simp [encodeItem]

theorem readItems_encode (items : List (Option (List UInt8))) (rest : List UInt8) :
    readItems items.length (items.flatMap encodeItem ++ rest) = some (items, rest) := by
  induction items with
  | nil => rfl
  | cons item items ih =>
    have hsplit : (item :: items).flatMap encodeItem ++ rest =
        36 :: ((encodeItem item).tail ++ (items.flatMap encodeItem ++ rest)) := by
      rw [List.flatMap_cons, encodeItem_eq item]
      simp
    rw [hsplit, List.length_cons, readItems]
    simp only [List.head?_cons, List.tail_cons, if_true, readItem_encodeItem, Option.bind_some,
      ih, Option.map_some]

section Marks

variable (xs : List UInt8)

theorem read_simple : read (43 :: xs) = (readLine xs).map fun r => (.simple r.1, r.2) := rfl

theorem read_error : read (45 :: xs) = (readLine xs).map fun r => (.error r.1, r.2) := rfl

theorem read_integer : read (58 :: xs) =
    (readLine xs).bind fun r => (readInt r.1).map fun n => (.integer n, r.2) := rfl

theorem read_item : read (36 :: xs) =
    (readItem xs).map fun r => (r.1.elim .null .bulk, r.2) := rfl

theorem read_array : read (42 :: xs) =
    (readLine xs).bind fun header => (readNat header.1).bind fun n =>
      (readItems n header.2).map fun r => (.array r.1, r.2) := rfl

end Marks

/-- **The reader takes off what was written.** -/
theorem read_encode {v : Value} (h : v.WellFormed) (rest : List UInt8) :
    read (v.encode ++ rest) = some (v, rest) := by
  cases v with
  | simple text =>
    have hline := readLine_append h.1 h.2 rest
    rw [Value.encode, List.cons_append, List.cons_append, read_simple, hline, Option.map_some]
  | error text =>
    have hline := readLine_append h.1 h.2 rest
    rw [Value.encode, List.cons_append, List.cons_append, read_error, hline, Option.map_some]
  | integer n =>
    have hline := readLine_append (not_mem_decInt (c := 13) rfl (by decide) n)
      (not_mem_decInt (c := 10) rfl (by decide) n) rest
    rw [Value.encode, List.cons_append, List.cons_append, read_integer, hline,
      Option.bind_some, readInt_decInt, Option.map_some]
  | bulk payload =>
    rw [Value.encode, encodeItem_eq, List.cons_append, read_item, readItem_encodeItem]
    rfl
  | null =>
    rw [Value.encode, encodeItem_eq, List.cons_append, read_item, readItem_encodeItem]
    rfl
  | array items =>
    have hsplit : (Value.array items).encode ++ rest =
        42 :: (dec items.length ++ eol ++ (items.flatMap encodeItem ++ rest)) := by
      simp [Value.encode]
    rw [hsplit, read_array, readLine_dec]
    simp only [Option.bind_some, readNat_dec, readItems_encode, Option.map_some]

/-- **A stream of values is read back value by value.** -/
theorem readAll_encode {vs : List Value} (h : ∀ v ∈ vs, v.WellFormed) {n : Nat}
    (hn : vs.length ≤ n) : readAll n (vs.flatMap Value.encode) = some vs := by
  induction vs generalizing n with
  | nil => cases n <;> rfl
  | cons v vs ih =>
    obtain ⟨n, rfl⟩ : ∃ m, n = m + 1 := ⟨n - 1, by simp only [List.length_cons] at hn; omega⟩
    obtain ⟨c, rest, hcons⟩ := List.exists_cons_of_ne_nil v.encode_ne_nil
    have hread := read_encode (h v List.mem_cons_self) (vs.flatMap Value.encode)
    have hrest := ih (fun w hw => h w (List.mem_cons_of_mem v hw)) (n := n)
      (by simp only [List.length_cons] at hn; omega)
    rw [List.flatMap_cons]
    rw [hcons, List.cons_append] at hread ⊢
    rw [readAll, hread, Option.bind_some, hrest, Option.map_some]

theorem length_le_encode (vs : List Value) : vs.length ≤ (vs.flatMap Value.encode).length := by
  induction vs with
  | nil => exact Nat.le_refl _
  | cons v vs ih =>
    have := List.length_pos_iff.mpr v.encode_ne_nil
    simp only [List.flatMap_cons, List.length_append, List.length_cons]
    omega

end KeyValueDb.Lib.Resp2
