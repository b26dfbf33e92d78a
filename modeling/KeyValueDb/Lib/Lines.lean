/-
# Cutting a stream into terminated lines

A reader that is handed a stream in pieces keeps a buffer, cuts a line off it each time a
terminator shows up, and hands the lines to a handler that may ask to stop.  Whether such a
reader depends on where the pieces were cut is a question about lists only, and it is settled
here for any alphabet, any terminator and any handler:

* `splitLines` says what the lines and the unterminated tail of a stream are;
* `splitLines_append`: appending a piece to the tail and splitting again loses nothing;
* `drainLines_eq`: the cut-and-handle loop on a buffer is the handler run over the lines of
  the buffer (`runUntil`), and leaves the tail when it was not stopped.
-/
import Mathlib.Data.List.Basic

namespace KeyValueDb.Lib

variable {α β : Type} {σ : Type*}

/-! ## 1. Lines and tail of a stream -/

section Split

variable [DecidableEq α] (nl : α)

/-- The lines of a stream, each with its terminator, and what follows the last of them. -/
def splitLines : List α → List (List α) × List α
  | [] => ([], [])
  | c :: cs =>
    if c = nl then ([c] :: (splitLines cs).1, (splitLines cs).2)
    else match (splitLines cs).1 with
      | [] => ([], c :: (splitLines cs).2)
      | l :: ls => ((c :: l) :: ls, (splitLines cs).2)

/-- Cut the first line off a buffer, terminator included. -/
def cutLine : List α → Option (List α × List α)
  | [] => none
  | c :: cs =>
    if c = nl then some ([c], cs)
    else (cutLine cs).map fun p => (c :: p.1, p.2)

/-- Lines and tail together are the stream. -/
theorem splitLines_flatten (xs : List α) :
    (splitLines nl xs).1.flatten ++ (splitLines nl xs).2 = xs := by
  induction xs with
  | nil => rfl
  | cons c cs ih =>
    simp only [splitLines]
    split
    · simp [ih]
    · split
      · rename_i h
        rw [h] at ih
        simpa using ih
      · rename_i h
        rw [h] at ih
        simpa using ih

/-- What `cutLine` cuts off is the first of the lines. -/
theorem splitLines_of_cutLine {xs line rest : List α} (h : cutLine nl xs = some (line, rest)) :
    splitLines nl xs = (line :: (splitLines nl rest).1, (splitLines nl rest).2) := by
  induction xs generalizing line with
  | nil => simp [cutLine] at h
  | cons c cs ih =>
    simp only [cutLine] at h
    split at h
    · rename_i hc
      simp only [Option.some.injEq, Prod.mk.injEq] at h
      obtain ⟨rfl, rfl⟩ := h
      simp [splitLines, hc]
    · rename_i hc
      obtain ⟨⟨l, r⟩, hcut, heq⟩ := Option.map_eq_some_iff.mp h
      simp only [Prod.mk.injEq] at heq
      obtain ⟨rfl, rfl⟩ := heq
      simp [splitLines, hc, ih hcut]

/-- A buffer nothing can be cut off holds no line: it is all tail. -/
theorem splitLines_of_cutLine_none {xs : List α} (h : cutLine nl xs = none) :
    splitLines nl xs = ([], xs) := by
  induction xs with
  | nil => rfl
  | cons c cs ih =>
    simp only [cutLine] at h
    split at h
    · exact absurd h (by simp)
    · rename_i hc
      simp [splitLines, hc, ih (Option.map_eq_none_iff.mp h)]

/-- Cutting a line makes the buffer shorter. -/
theorem cutLine_length_lt {xs line rest : List α} (h : cutLine nl xs = some (line, rest)) :
    rest.length < xs.length := by
  induction xs generalizing line with
  | nil => simp [cutLine] at h
  | cons c cs ih =>
    simp only [cutLine] at h
    split at h
    · simp only [Option.some.injEq, Prod.mk.injEq] at h
      simp [← h.2]
    · obtain ⟨⟨l, r⟩, hcut, heq⟩ := Option.map_eq_some_iff.mp h
      simp only [Prod.mk.injEq] at heq
      obtain ⟨rfl, rfl⟩ := heq
      have := ih hcut
      simp only [List.length_cons]
      omega

theorem cutLine_append {xs line rest : List α} (h : cutLine nl xs = some (line, rest)) :
    line ++ rest = xs := by
  induction xs generalizing line with
  | nil => simp [cutLine] at h
  | cons c cs ih =>
    simp only [cutLine] at h
    split at h
    · simp only [Option.some.injEq, Prod.mk.injEq] at h
      rw [← h.1, ← h.2]
      rfl
    · obtain ⟨⟨l, r⟩, hcut, heq⟩ := Option.map_eq_some_iff.mp h
      simp only [Prod.mk.injEq] at heq
      obtain ⟨rfl, rfl⟩ := heq
      rw [List.cons_append, ih hcut]

theorem cutLine_suffix {xs line rest : List α} (h : cutLine nl xs = some (line, rest)) :
    rest <:+ xs := ⟨line, cutLine_append nl h⟩

/-- **Splitting may be done piece by piece**: the lines of `xs ++ ys` are those of `xs`, then
those of the tail of `xs` with `ys` appended. -/
theorem splitLines_append (xs ys : List α) :
    splitLines nl (xs ++ ys) =
      ((splitLines nl xs).1 ++ (splitLines nl ((splitLines nl xs).2 ++ ys)).1,
        (splitLines nl ((splitLines nl xs).2 ++ ys)).2) := by
  induction xs with
  | nil => simp [splitLines]
  | cons c cs ih =>
    simp only [List.cons_append, splitLines, ih]
    split
    · simp
    · rename_i hc
      split
      · rename_i h
        obtain ⟨h1, h2⟩ := List.append_eq_nil_iff.mp h
        rw [h1]
        simp [splitLines, hc, h2]
      · rename_i l ls h
        cases h1 : (splitLines nl cs).1 with
        | nil =>
          rw [h1, List.nil_append] at h
          simp [splitLines, hc, h]
        | cons m ms =>
          rw [h1, List.cons_append, List.cons.injEq] at h
          simp [← h.1, ← h.2]

theorem cutLine_line {body : List α} (h : nl ∉ body) (rest : List α) :
    cutLine nl (body ++ nl :: rest) = some (body ++ [nl], rest) := by
  induction body with
  | nil => simp [cutLine]
  | cons c cs ih =>
    have hc : c ≠ nl := fun e => h (e ▸ List.mem_cons_self)
    have hcs : nl ∉ cs := fun e => h (List.mem_cons_of_mem c e)
    simp [cutLine, hc, ih hcs]

theorem cutLine_eq_none {body : List α} (h : nl ∉ body) : cutLine nl body = none := by
  induction body with
  | nil => rfl
  | cons c cs ih =>
    have hc : c ≠ nl := fun e => h (e ▸ List.mem_cons_self)
    have hcs : nl ∉ cs := fun e => h (List.mem_cons_of_mem c e)
    simp [cutLine, hc, ih hcs]

/-- A block without a terminator, then the terminator, is one line. -/
theorem splitLines_line {body : List α} (h : nl ∉ body) (rest : List α) :
    splitLines nl (body ++ nl :: rest) =
      ((body ++ [nl]) :: (splitLines nl rest).1, (splitLines nl rest).2) :=
  splitLines_of_cutLine nl (cutLine_line nl h rest)

/-- A stream that ends with the terminator leaves no tail. -/
theorem splitLines_snd_of_terminated (xs : List α) : (splitLines nl (xs ++ [nl])).2 = [] := by
  induction xs with
  | nil => simp [splitLines]
  | cons c cs ih =>
    simp only [List.cons_append, splitLines]
    split
    · exact ih
    · split
      · rename_i h
        have hf := splitLines_flatten nl (cs ++ [nl])
        rw [h, ih] at hf
        simp at hf
      · exact ih

/-- A line: its terminator is at its end and nowhere else. -/
def IsLine (line : List α) : Prop := ∃ body, nl ∉ body ∧ line = body ++ [nl]

/-- The lines of a stream are lines. -/
theorem isLine_of_mem {xs line : List α} (h : line ∈ (splitLines nl xs).1) : IsLine nl line := by
  induction xs generalizing line with
  | nil => exact absurd h List.not_mem_nil
  | cons c cs ih =>
    simp only [splitLines] at h
    split at h
    · rename_i hc
      rcases List.mem_cons.mp h with rfl | h
      · exact ⟨[], List.not_mem_nil, by rw [hc, List.nil_append]⟩
      · exact ih h
    · rename_i hc
      split at h
      · exact absurd h List.not_mem_nil
      · rename_i l ls hlines
        rw [hlines] at ih
        rcases List.mem_cons.mp h with rfl | h
        · obtain ⟨body, hbody, rfl⟩ := ih List.mem_cons_self
          refine ⟨c :: body, ?_, rfl⟩
          rw [List.mem_cons, not_or]
          exact ⟨Ne.symm hc, hbody⟩
        · exact ih (List.mem_cons_of_mem l h)

/-- **What is sent line by line is received line by line.** -/
theorem splitLines_flatMap {enc : β → List α} {xs : List β} (h : ∀ x ∈ xs, IsLine nl (enc x)) :
    splitLines nl (xs.flatMap enc) = (xs.map enc, []) := by
  induction xs with
  | nil => rfl
  | cons x xs ih =>
    obtain ⟨body, hbody, henc⟩ := h x List.mem_cons_self
    have hstream : (x :: xs).flatMap enc = body ++ nl :: xs.flatMap enc := by
      rw [List.flatMap_cons, henc, List.append_assoc, List.singleton_append]
    rw [hstream, splitLines_line nl hbody, ih fun y hy => h y (List.mem_cons_of_mem x hy),
      List.map_cons, henc]

end Split

/-! ## 2. A handler run over lines until it asks to stop -/

/-- Run a handler over a list until it asks to stop: the state it leaves, the items it
handled, whether it stopped. -/
def runUntil (handle : σ → β → σ × Bool) : List β → σ → σ × List β × Bool
  | [], s => (s, [], false)
  | x :: xs, s =>
    if (handle s x).2 then ((handle s x).1, [x], true)
    else
      let r := runUntil handle xs (handle s x).1
      (r.1, x :: r.2.1, r.2.2)

/-! ## 3. The cut-and-handle loop -/

section Drain

variable [DecidableEq α] (nl : α)

/-- Cut a line off the buffer and handle it, while there is one and nobody asked to stop.
The fuel bounds the number of lines; a buffer holds at most as many as it has symbols. -/
def drainLines (handle : σ → List α → σ × Bool) : Nat → List α → σ → List α × σ × Bool
  | 0, buf, s => (buf, s, false)
  | n + 1, buf, s =>
    match cutLine nl buf with
    | none => (buf, s, false)
    | some (line, rest) =>
      if (handle s line).2 then (rest, (handle s line).1, true)
      else drainLines handle n rest (handle s line).1

/-- **The loop is the handler run over the lines of the buffer**, and when nobody asked to
stop it leaves the tail. -/
theorem drainLines_eq (handle : σ → List α → σ × Bool) (n : Nat) (buf : List α) (s : σ)
    (hn : buf.length ≤ n) :
    (drainLines nl handle n buf s).2.1 = (runUntil handle (splitLines nl buf).1 s).1 ∧
      (drainLines nl handle n buf s).2.2 = (runUntil handle (splitLines nl buf).1 s).2.2 ∧
      ((drainLines nl handle n buf s).2.2 = false →
        (drainLines nl handle n buf s).1 = (splitLines nl buf).2) := by
  induction n generalizing buf s with
  | zero =>
    obtain rfl := List.length_eq_zero_iff.mp (Nat.le_zero.mp hn)
    simp [drainLines, splitLines, runUntil]
  | succ n ih =>
    simp only [drainLines]
    split
    · rename_i h
      simp [splitLines_of_cutLine_none nl h, runUntil]
    · rename_i line rest h
      have hlt := cutLine_length_lt nl h
      rw [splitLines_of_cutLine nl h]
      simp only [runUntil]
      split
      · simp
      · exact ih rest _ (by omega)

end Drain

end KeyValueDb.Lib
