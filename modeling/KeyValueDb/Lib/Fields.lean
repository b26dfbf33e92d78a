/-
# Texts of headings and fields

A text of lines of two kinds: headings, and fields, a name and a value with a separator between
them.  Every line ends in two symbols, the second of which ends no other line of it.

`readFields` reads such a text without knowing what is in it, and finds its fields in order
(`readFields_encode`): headings are passed over, and a value may hold the separator again.
-/
import KeyValueDb.Lib.Lines
import Mathlib.Data.List.TakeWhile

namespace KeyValueDb.Lib

variable {α : Type}

/-- A line of the text. -/
inductive TextLine (α : Type)
  | heading (text : List α)
  | field (name value : List α)

namespace TextLine

variable (sep cr nl : α)

def encode : TextLine α → List α
  | .heading text => text ++ [cr, nl]
  | .field name value => name ++ sep :: (value ++ [cr, nl])

/-- The symbols of the format stand where the format puts them. -/
def Plain : TextLine α → Prop
  | .heading text => sep ∉ text ∧ nl ∉ text
  | .field name value => sep ∉ name ∧ nl ∉ name ∧ cr ∉ value ∧ nl ∉ value

def field? : TextLine α → Option (List α × List α)
  | .heading _ => none
  | .field name value => some (name, value)

variable {sep cr nl}

theorem isLine_encode (hcr : cr ≠ nl) (hnl : sep ≠ nl) {e : TextLine α}
    (h : e.Plain sep cr nl) : IsLine nl (e.encode sep cr nl) := by
  cases e with
  | heading text =>
    refine ⟨text ++ [cr], ?_, by simp [encode]⟩
    simp [h.2, hcr.symm]
  | field name value =>
    obtain ⟨-, hname, -, hvalue⟩ := h
    refine ⟨name ++ sep :: (value ++ [cr]), ?_, by simp [encode]⟩
    simp [hname, hvalue, hcr.symm, hnl.symm]

end TextLine

variable [DecidableEq α] (sep cr nl : α)

/-- One line: what stands before the first separator, and from there to the end of the line. -/
def readField (line : List α) : Option (List α × List α) :=
  match line.dropWhile (· ≠ sep) with
  | [] => none
  | _ :: rest => some (line.takeWhile (· ≠ sep), rest.takeWhile (· ≠ cr))

def readFields (text : List α) : List (List α × List α) :=
  (splitLines nl text).1.filterMap (readField sep cr)

variable {sep cr nl}

theorem takeWhile_ne_append {xs ys : List α} {x : α} (h : x ∉ xs) :
    (xs ++ x :: ys).takeWhile (· ≠ x) = xs := by
  rw [List.takeWhile_append_of_pos fun y hy => by
    simpa using fun heq : y = x => h (heq ▸ hy)]
  simp

theorem dropWhile_ne_append {xs ys : List α} {x : α} (h : x ∉ xs) :
    (xs ++ x :: ys).dropWhile (· ≠ x) = x :: ys := by
  rw [List.dropWhile_append_of_pos fun y hy => by
    simpa using fun heq : y = x => h (heq ▸ hy)]
  simp

/-- **One line is read back.** -/
theorem readField_encode (hcr : sep ≠ cr) (hnl : sep ≠ nl) {e : TextLine α}
    (h : e.Plain sep cr nl) : readField sep cr (e.encode sep cr nl) = e.field? := by
  cases e with
  | heading text =>
    have hnone : (text ++ [cr, nl]).dropWhile (· ≠ sep) = [] := by
      rw [List.dropWhile_eq_nil_iff]
      intro y hy
      rcases List.mem_append.mp hy with hy | hy
      · simpa using fun heq : y = sep => h.1 (heq ▸ hy)
      · simp only [List.mem_cons, List.not_mem_nil, or_false] at hy
        rcases hy with rfl | rfl
        · simpa using hcr.symm
        · simpa using hnl.symm
    simp only [readField, TextLine.encode, hnone, TextLine.field?]
  | field name value =>
    obtain ⟨hname, -, hvalue, -⟩ := h
    simp only [readField, TextLine.encode, dropWhile_ne_append hname, takeWhile_ne_append hname,
      takeWhile_ne_append hvalue, TextLine.field?]

/-- **A text is read back**, whatever its headings and fields. -/
theorem readFields_encode (hsep : sep ≠ cr) (hnl : sep ≠ nl) (hcr : cr ≠ nl)
    {entries : List (TextLine α)} (h : ∀ e ∈ entries, e.Plain sep cr nl) :
    readFields sep cr nl (entries.flatMap (TextLine.encode sep cr nl)) =
      entries.filterMap TextLine.field? := by
  unfold readFields
  rw [splitLines_flatMap nl fun e he => TextLine.isLine_encode hcr hnl (h e he)]
  dsimp only
  rw [List.filterMap_map]
  exact List.filterMap_congr fun e he => readField_encode hsep hnl (h e he)

end KeyValueDb.Lib
