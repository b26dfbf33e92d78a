/-
# What a line can say

The event loop hands `execute` one line at a time, terminator included, and the only line feed
of a line is its last character.  So the decoder never completes an array: every line is read as
plain text (`parseRequest_line`), and a request is a list of words, none of them empty, none with
a line end in it.

Any such list can be sent (`sendable_iff`): each character between quotes of the kind that it is
not.
-/
import KeyValueDb.Command.Replies
import KeyValueDb.Resp.Quoted

namespace KeyValueDb

open Lib RespParser

/-- What plain text can hold as a token. -/
structure IsWord (token : Bytes) : Prop where
  ne_nil : token ≠ []
  oneLine : OneLine token

instance (token : Bytes) : Decidable (IsWord token) :=
  decidable_of_iff (token ≠ [] ∧ OneLine token)
    ⟨fun h => ⟨h.1, h.2⟩, fun h => ⟨h.ne_nil, h.oneLine⟩⟩

namespace RespParser

/-! ## 1. Lines are plain text -/

/-- The only line end of a line is at its end. -/
theorem findCrlfFrom_line {body : Bytes} (hbody : lf ∉ body) :
    ∀ {i j : Nat}, findCrlfFrom (body ++ [lf]) i = some j → j + 2 = i + body.length + 1 := by
  induction body with
  | nil => intro i j h; cases h
  | cons c body ih =>
    intro i j h
    rw [List.mem_cons, not_or] at hbody
    cases body with
    | nil =>
      simp only [List.singleton_append, findCrlfFrom] at h
      split at h
      · obtain rfl := Option.some.inj h
        simp
      · cases h
    | cons d body =>
      have hd : d ≠ lf := fun he => hbody.2 (he ▸ List.mem_cons_self)
      simp only [List.cons_append, findCrlfFrom, hd, and_false, if_false] at h
      have hrest := ih hbody.2 h
      simp only [List.length_cons] at hrest ⊢
      omega

/-- Behind its line end there is nothing to read an element from. -/
theorem parseRespArray_line {body : Bytes} (hbody : lf ∉ body) :
    parseRespArray (body ++ [lf]) = [] := by
  unfold parseRespArray
  split
  · rfl
  · cases hcrlf : findCrlf (body ++ [lf]) 1 with
    | none => rfl
    | some j =>
      dsimp only
      split
      · rfl
      · rename_i count _
        have hend : (body ++ [lf])[j + 2]? = none := by
          cases body with
          | nil => cases hcrlf
          | cons c body =>
            rw [List.mem_cons, not_or] at hbody
            have hj := findCrlfFrom_line hbody.2 (i := 1) (j := j) hcrlf
            rw [List.getElem?_eq_none_iff]
            simp only [List.length_append, List.length_cons, List.length_nil]
            omega
        cases count.toNat with
        | zero => rfl
        | succ n =>
          rw [parseElements, hend]
          rfl

/-- The blanks before the first word. -/
theorem scan_blanks (quoteChar : UInt8) (input : Bytes) :
    (input.dropWhile isspace).foldl scanChar ⟨[], [], false, quoteChar⟩ =
      input.foldl scanChar ⟨[], [], false, quoteChar⟩ := by
  induction input with
  | nil => rfl
  | cons c input ih =>
    by_cases hspace : isspace c = true
    · have hquote : c ≠ 34 ∧ c ≠ 39 := by
        constructor <;> rintro rfl <;> exact absurd hspace (by decide)
      have hchar : scanChar ⟨[], [], false, quoteChar⟩ c = ⟨[], [], false, quoteChar⟩ := by
        simp [scanChar, hquote.1, hquote.2, hspace]
      rw [List.dropWhile_cons_of_pos hspace, List.foldl_cons, hchar, ih]
    · rw [List.dropWhile_cons_of_neg hspace]

/-- **A line is read as plain text.** -/
theorem parseRequest_line {line : Bytes} (h : IsLine lf line) :
    parseRequest line = parsePlainText line := by
  obtain ⟨body, hbody, rfl⟩ := h
  have hplain : parsePlainText ((body ++ [lf]).dropWhile isspace) =
      parsePlainText (body ++ [lf]) := by
    rw [parsePlainText_eq, parsePlainText_eq, scan_blanks]
  have harray : parseRespArray ((body ++ [lf]).dropWhile isspace) = [] := by
    rw [List.dropWhile_append]
    split
    · rfl
    · exact parseRespArray_line fun hmem =>
        hbody ((List.dropWhile_suffix isspace).subset hmem)
  rw [← hplain]
  unfold parseRequest
  dsimp only
  -- with `harray` the branch of the arrays falls back to plain text
  split
  · rename_i hnil
    rw [hnil]
    rfl
  · split <;> rfl

/-! ## 2. The words of a line -/

/-- The scan so far: whole words, and a beginning of one. -/
structure Scan.Wordy (st : Scan) : Prop where
  tokens : ∀ token ∈ st.tokens, IsWord token
  current : OneLine st.current

theorem Scan.Wordy.flush {st : Scan} (h : st.Wordy) : ∀ token ∈ st.flush, IsWord token := by
  unfold Scan.flush
  split
  · exact h.tokens
  · rename_i hcurrent
    intro token hmem
    rcases List.mem_append.mp hmem with hmem | hmem
    · exact h.tokens token hmem
    · rw [List.mem_singleton.mp hmem]
      exact ⟨hcurrent, h.current⟩

theorem wordy_scanChar {st : Scan} (h : st.Wordy) (c : UInt8) : (scanChar st c).Wordy := by
  unfold scanChar
  split
  · exact h
  · rename_i hends
    rw [not_or] at hends
    split
    · exact ⟨h.tokens, h.current⟩
    · split
      · split
        · exact h
        · rename_i hcurrent
          refine ⟨?_, List.not_mem_nil, List.not_mem_nil⟩
          have hflush := h.flush
          rwa [Scan.flush, if_neg hcurrent] at hflush
      · refine ⟨h.tokens, h.current.append ?_⟩
        constructor
        · rw [List.mem_singleton]
          exact Ne.symm hends.1
        · rw [List.mem_singleton]
          exact Ne.symm hends.2

theorem wordy_foldl {st : Scan} (h : st.Wordy) (input : Bytes) :
    (input.foldl scanChar st).Wordy := by
  induction input generalizing st with
  | nil => exact h
  | cons c input ih => exact ih (wordy_scanChar h c)

/-- **Plain text is words**: none is empty, none has a line end in it. -/
theorem isWord_of_mem_plainText {input token : Bytes} (h : token ∈ parsePlainText input) :
    IsWord token := by
  have hstart : Scan.Wordy ⟨[], [], false, 0⟩ :=
    ⟨fun _ hmem => absurd hmem List.not_mem_nil, List.not_mem_nil, List.not_mem_nil⟩
  rw [parsePlainText_eq] at h
  exact (wordy_foldl hstart input).flush token h

/-! ## 3. Any words can be sent -/

/-- A character between quotes of the other kind. -/
def quoteByte (c : UInt8) : Bytes := if c = dquote then [39, c, 39] else [dquote, c, dquote]

def quoteWord (word : Bytes) : Bytes := word.flatMap quoteByte

/-- The words, a blank between two of them, and the end of the line. -/
def wordLine (words : List Bytes) : Bytes := List.intercalate [32] (words.map quoteWord) ++ [lf]

/-- One character goes into the token as it is. -/
theorem scan_quoteByte {c : UInt8} (hcr : c ≠ cr) (hlf : c ≠ lf) (tokens : List Bytes)
    (current : Bytes) (quoteChar : UInt8) :
    (quoteByte c).foldl scanChar ⟨tokens, current, false, quoteChar⟩ =
      ⟨tokens, current ++ [c], false, 0⟩ := by
  have hscan : ∀ q : UInt8, q = 34 ∨ q = 39 → c ≠ q →
      [q, c, q].foldl scanChar ⟨tokens, current, false, quoteChar⟩ =
        ⟨tokens, current ++ [c], false, 0⟩ := by
    intro q hq hne
    have hends : q ≠ cr ∧ q ≠ lf := by rcases hq with rfl | rfl <;> decide
    simp [scanChar, hends.1, hends.2, hq, hcr, hlf, hne]
  unfold quoteByte
  split
  · rename_i hc
    exact hscan 39 (Or.inr rfl) (by rw [hc]; decide)
  · rename_i hc
    exact hscan dquote (Or.inl rfl) hc

theorem scan_quoteWord {word : Bytes} (h : OneLine word) (tokens : List Bytes) (current : Bytes)
    (quoteChar : UInt8) :
    ∃ quoteChar', (quoteWord word).foldl scanChar ⟨tokens, current, false, quoteChar⟩ =
      ⟨tokens, current ++ word, false, quoteChar'⟩ := by
  induction word generalizing current quoteChar with
  | nil => exact ⟨quoteChar, by rw [List.append_nil]; rfl⟩
  | cons c word ih =>
    simp only [OneLine, List.mem_cons, not_or] at h
    obtain ⟨⟨hcr, hcrs⟩, hlf, hlfs⟩ := h
    obtain ⟨quoteChar', hrest⟩ := ih ⟨hcrs, hlfs⟩ (current ++ [c]) 0
    refine ⟨quoteChar', ?_⟩
    rw [quoteWord, List.flatMap_cons, List.foldl_append,
      scan_quoteByte (Ne.symm hcr) (Ne.symm hlf)]
    rw [List.append_assoc, List.singleton_append] at hrest
    exact hrest

/-- **All words of a line**, from a token boundary on. -/
theorem scan_words {words : List Bytes} (h : ∀ word ∈ words, IsWord word) (tokens : List Bytes)
    (quoteChar : UInt8) :
    Scan.flush ((List.intercalate [32] (words.map quoteWord)).foldl scanChar
      ⟨tokens, [], false, quoteChar⟩) = tokens ++ words := by
  induction words generalizing tokens quoteChar with
  | nil => simp [List.intercalate, Scan.flush]
  | cons word words ih =>
    obtain ⟨hne, hline⟩ := h word List.mem_cons_self
    obtain ⟨quoteChar', hscan⟩ := scan_quoteWord hline tokens [] quoteChar
    rw [List.nil_append] at hscan
    have hflush : ∀ inQuotes q, Scan.flush ⟨tokens, word, inQuotes, q⟩ = tokens ++ [word] := by
      intro inQuotes q
      rw [Scan.flush, if_neg hne]
    cases words with
    | nil => rw [List.map_singleton, List.intercalate_singleton, hscan, hflush]
    | cons next words =>
      have hrest := ih (fun w hw => h w (List.mem_cons_of_mem word hw)) (tokens ++ [word])
        quoteChar'
      have hstream : List.intercalate [32] ((word :: next :: words).map quoteWord) =
          quoteWord word ++ 32 :: List.intercalate [32] ((next :: words).map quoteWord) := by
        simp [List.intercalate_cons_cons]
      rw [hstream, List.foldl_append, List.foldl_cons, hscan, scan_blank, hflush, hrest,
        List.append_assoc, List.singleton_append]

theorem isLine_wordLine {words : List Bytes} (h : ∀ word ∈ words, IsWord word) :
    IsLine lf (wordLine words) := by
  have hquoteByte : ∀ c : UInt8, c ≠ lf → lf ∉ quoteByte c := by
    intro c hc
    unfold quoteByte
    have hquotes : lf ≠ 34 ∧ lf ≠ 39 := by decide
    split <;> simp [Ne.symm hc, hquotes.1, hquotes.2]
  have hquoteWord : ∀ word ∈ words.map quoteWord, lf ∉ word := by
    intro _ hmem hlf
    obtain ⟨word, hword, rfl⟩ := List.mem_map.mp hmem
    obtain ⟨c, hc, hlf⟩ := List.mem_flatMap.mp hlf
    exact hquoteByte c (fun heq => (h word hword).oneLine.2 (heq ▸ hc)) hlf
  refine ⟨_, ?_, rfl⟩
  generalize words.map quoteWord = quoted at hquoteWord
  induction quoted with
  | nil => exact List.not_mem_nil
  | cons word quoted ih =>
    cases quoted with
    | nil =>
      rw [List.intercalate_singleton]
      exact hquoteWord word List.mem_cons_self
    | cons next quoted =>
      rw [List.intercalate_cons_cons]
      have hrest := ih fun w hw => hquoteWord w (List.mem_cons_of_mem word hw)
      have hword := hquoteWord word List.mem_cons_self
      simp only [List.mem_append, not_or]
      exact ⟨⟨hword, by decide⟩, hrest⟩

/-- **The words arrive as they were sent.** -/
theorem parseRequest_wordLine {words : List Bytes} (h : ∀ word ∈ words, IsWord word) :
    parseRequest (wordLine words) = words := by
  have hend : ∀ st : Scan, scanChar st lf = st := fun st => by simp [scanChar]
  rw [parseRequest_line (isLine_wordLine h), parsePlainText_eq, wordLine, List.foldl_append,
    List.foldl_cons, List.foldl_nil, hend, scan_words h, List.nil_append]

/-- **What a client can say in one line**: any list of words, and nothing else. -/
theorem sendable_iff (tokens : List Bytes) :
    (∃ line, IsLine lf line ∧ parseRequest line = tokens) ↔ ∀ token ∈ tokens, IsWord token := by
  constructor
  · rintro ⟨line, hline, rfl⟩ token hmem
    rw [parseRequest_line hline] at hmem
    exact isWord_of_mem_plainText hmem
  · exact fun h => ⟨wordLine tokens, isLine_wordLine h, parseRequest_wordLine h⟩

end RespParser

end KeyValueDb
