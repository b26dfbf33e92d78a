/-
# Quoted arguments

The plain-text scan takes what stands between double quotes as it is, blanks and single quotes
included, so a client can send any argument without line ends and double quotes that way.  A
token is kept only if it has a character: an empty argument is dropped, and the arguments
behind it move up (`parseRequest_quotedLine`).  The arguments arrive as they were sent exactly
when none of them is empty (`quoted_iff`).
-/
import KeyValueDb.Resp

namespace KeyValueDb

open Lib

namespace RespParser

/-! ## 1. A line of quoted arguments -/

/-- `'"'`. -/
abbrev dquote : UInt8 := 34

/-- The argument in double quotes. -/
def quote (arg : Bytes) : Bytes := dquote :: arg ++ [dquote]

/-- The arguments in quotes, a blank between two of them, and the end of the line. -/
def quotedLine (args : List Bytes) : Bytes := List.intercalate [32] (args.map quote) ++ [lf]

/-- The argument can stand between double quotes in one line. -/
def Quotable (arg : Bytes) : Prop := cr ∉ arg ∧ lf ∉ arg ∧ dquote ∉ arg

instance (arg : Bytes) : Decidable (Quotable arg) := inferInstanceAs (Decidable (_ ∧ _ ∧ _))

/-! ## 2. The scan -/

/-- The tokens, with the current one if it has a character. -/
def Scan.flush (st : Scan) : List Bytes :=
  if st.current = [] then st.tokens else st.tokens ++ [st.current]

theorem parsePlainText_eq (input : Bytes) :
    parsePlainText input = (input.foldl scanChar ⟨[], [], false, 0⟩).flush := rfl

/-- **Between the quotes** every character goes into the token. -/
theorem scan_inQuotes {arg : Bytes} (h : Quotable arg) (tokens : List Bytes) (current : Bytes) :
    arg.foldl scanChar ⟨tokens, current, true, dquote⟩ =
      ⟨tokens, current ++ arg, true, dquote⟩ := by
  induction arg generalizing current with
  | nil => rw [List.append_nil, List.foldl_nil]
  | cons c arg ih =>
    simp only [Quotable, List.mem_cons, not_or] at h
    obtain ⟨⟨hcr, hcrs⟩, ⟨hlf, hlfs⟩, ⟨hquote, hquotes⟩⟩ := h
    have hchar : scanChar ⟨tokens, current, true, dquote⟩ c =
        ⟨tokens, current ++ [c], true, dquote⟩ := by
      simp [scanChar, Ne.symm hcr, Ne.symm hlf, Ne.symm hquote]
    rw [List.foldl_cons, hchar, ih ⟨hcrs, hlfs, hquotes⟩, List.append_assoc,
      List.singleton_append]

/-- One quoted argument. -/
theorem scan_quote {arg : Bytes} (h : Quotable arg) (tokens : List Bytes) (current : Bytes)
    (quoteChar : UInt8) :
    (quote arg).foldl scanChar ⟨tokens, current, false, quoteChar⟩ =
      ⟨tokens, current ++ arg, false, 0⟩ := by
  have hopen : scanChar ⟨tokens, current, false, quoteChar⟩ dquote =
      ⟨tokens, current, true, dquote⟩ := rfl
  have hclose : scanChar ⟨tokens, current ++ arg, true, dquote⟩ dquote =
      ⟨tokens, current ++ arg, false, 0⟩ := rfl
  rw [quote, List.cons_append, List.foldl_cons, List.foldl_append, hopen, scan_inQuotes h,
    List.foldl_cons, List.foldl_nil, hclose]

/-- The blank behind an argument. -/
theorem scan_blank (tokens : List Bytes) (current : Bytes) (quoteChar : UInt8) :
    scanChar ⟨tokens, current, false, quoteChar⟩ 32 =
      ⟨Scan.flush ⟨tokens, current, false, quoteChar⟩, [], false, quoteChar⟩ := by
  cases current <;> rfl

theorem flush_tokens (tokens : List Bytes) (arg : Bytes) (inQuotes : Bool) (quoteChar : UInt8) :
    Scan.flush ⟨tokens, arg, inQuotes, quoteChar⟩ =
      tokens ++ [arg].filter fun t => t ≠ [] := by
  cases arg with
  | nil => simp [Scan.flush]
  | cons c arg => simp [Scan.flush]

/-- **All arguments of a line**, from a token boundary on: those that are not empty are
kept. -/
theorem scan_quoted {args : List Bytes} (h : ∀ arg ∈ args, Quotable arg) (tokens : List Bytes)
    (quoteChar : UInt8) :
    Scan.flush ((List.intercalate [32] (args.map quote)).foldl scanChar
      ⟨tokens, [], false, quoteChar⟩) = tokens ++ args.filter fun t => t ≠ [] := by
  induction args generalizing tokens quoteChar with
  | nil => simp [List.intercalate, Scan.flush]
  | cons arg args ih =>
    have harg : Quotable arg := h arg List.mem_cons_self
    have hscan := scan_quote harg tokens [] quoteChar
    rw [List.nil_append] at hscan
    cases args with
    | nil => rw [List.map_singleton, List.intercalate_singleton, hscan, flush_tokens]
    | cons next args =>
      have hrest := ih (fun a ha => h a (List.mem_cons_of_mem arg ha))
        (Scan.flush ⟨tokens, arg, false, 0⟩) 0
      have hline : List.intercalate [32] ((arg :: next :: args).map quote) =
          quote arg ++ 32 :: List.intercalate [32] ((next :: args).map quote) := by
        simp [List.intercalate_cons_cons]
      rw [hline, List.foldl_append, List.foldl_cons, hscan, scan_blank, hrest, flush_tokens,
        List.append_assoc, ← List.filter_append, List.singleton_append]

/-! ## 3. The request -/

/-- What the decoder makes of a quoted line. -/
theorem parseRequest_quotedLine {args : List Bytes} (h : ∀ arg ∈ args, Quotable arg) :
    parseRequest (quotedLine args) = args.filter fun t => t ≠ [] := by
  have hplain : parseRequest (quotedLine args) = parsePlainText (quotedLine args) := by
    match args with
    | [] => rfl
    | [_] => rfl
    | _ :: _ :: _ =>
      rw [quotedLine, List.map_cons, List.map_cons, List.intercalate_cons_cons]
      rfl
  have hend : ∀ st : Scan, scanChar st lf = st := fun st => by simp [scanChar]
  have hscan := scan_quoted h [] 0
  rw [List.nil_append] at hscan
  rw [hplain, parsePlainText_eq, quotedLine, List.foldl_append, List.foldl_cons, List.foldl_nil,
    hend, hscan]

/-- **Quoted arguments arrive as they were sent** exactly when none of them is empty. -/
theorem quoted_iff (args : List Bytes) (h : ∀ arg ∈ args, Quotable arg) :
    parseRequest (quotedLine args) = args ↔ [] ∉ args := by
  rw [parseRequest_quotedLine h, List.filter_eq_self]
  simp only [decide_eq_true_eq]
  constructor
  · exact fun hall hempty => hall [] hempty rfl
  · rintro hempty arg harg rfl
    exact hempty harg

/-- Blanks, single quotes and a byte beyond ASCII. -/
theorem quoted_iff_blanks :
    parseRequest (quotedLine [bytes "SET", bytes "it's  a\tkey", [255]]) =
      [bytes "SET", bytes "it's  a\tkey", [255]] :=
  (quoted_iff _ (by decide)).mpr (by decide)

/-- **An empty value is lost**: `SET k ""` arrives as two tokens. -/
theorem not_quoted_of_empty :
    quotedLine [bytes "SET", bytes "k", []] = bytes "\"SET\" \"k\" \"\"\n" ∧
      (∀ arg ∈ [bytes "SET", bytes "k", []], Quotable arg) ∧
      parseRequest (quotedLine [bytes "SET", bytes "k", []]) = [bytes "SET", bytes "k"] ∧
      parseRequest (quotedLine [bytes "SET", bytes "k", []]) ≠ [bytes "SET", bytes "k", []] := by
  decide

end RespParser

end KeyValueDb
