/-
# A torn log taken up again

After a crash the log is opened for appending as it is: nothing cuts the torn record off, and
nothing ends its line.  The next record is written right behind the piece, so the loader takes
the mark of that record for a part of the torn one.

What it makes of the piece has as many tokens as the piece announces (`announced`), and what
is left to read has lost a mark (`readRecord_glued`).  The loader reads no more vectors than
there are marks (`length_le_count_star`), and where there is none it skips to the end of the
line (`readLog_skip`).
-/
import KeyValueDb.Aof.SafeCut

namespace KeyValueDb

open Lib

variable {lim : Limits}

/-! ## 1. Marks -/

theorem popCr_sublist (line : Bytes) : (popCr line).Sublist line := by
  unfold popCr
  split
  · exact List.dropLast_sublist line
  · exact List.Sublist.refl line

/-- A vector is read where a line begins with a mark. -/
theorem star_mem_of_readRecord {line : Bytes} {st : IStream} {tokens : List Bytes}
    (h : (readRecord lim line st).1 = some tokens) : star ∈ line := by
  unfold readRecord at h
  split at h
  · exact absurd h (by simp)
  · rename_i hhead
    exact (popCr_sublist line).subset (List.mem_of_mem_head? (not_not.mp hhead))

/-- **No more vectors are read than there are marks.** -/
theorem length_le_count_star {fuel : Nat} {st : IStream} {read : List (List Bytes)}
    (h : readLog lim fuel st = some read) : read.length ≤ st.rest.count star := by
  induction fuel generalizing st read with
  | zero =>
    obtain rfl := Option.some.inj h
    exact Nat.zero_le _
  | succ fuel ih =>
    rw [readLog] at h
    rcases hget : st.getline with ⟨_ | line, st'⟩
    · rw [hget] at h
      obtain rfl := Option.some.inj h
      exact Nat.zero_le _
    · rw [hget] at h
      dsimp only at h
      have hline := IStream.count_getline_le star hget
      have hrest := (readRecord_suffix lim line st').sublist.count_le star
      rcases hrecord : readRecord lim line st' with ⟨_ | _ | ⟨t, ts⟩, st''⟩
      · rw [hrecord] at h hrest
        have hle := ih h
        dsimp only at hrest
        omega
      · rw [hrecord] at h
        exact absurd h (by simp)
      · rw [hrecord] at h hrest
        obtain ⟨tail, htail, rfl⟩ := Option.map_eq_some_iff.mp h
        have hle := ih htail
        dsimp only at hrest
        have hmark : 0 < line.count star :=
          List.count_pos_iff.mpr (star_mem_of_readRecord (congrArg Prod.fst hrecord))
        rw [List.length_cons]
        omega

/-- **Lines without a mark are skipped.** -/
theorem readLog_skip {junk : Bytes} (hstar : star ∉ junk) (hend : junk.getLast? = some lf)
    (rest : Bytes) {fuel : Nat} (hfuel : (junk ++ rest).length < fuel) :
    readLog lim fuel ⟨junk ++ rest, true⟩ = readLog lim (rest.length + 1) ⟨rest, true⟩ := by
  induction hn : junk.length using Nat.strongRecOn generalizing junk fuel with
  | _ n ih =>
    obtain ⟨line, junk', rfl, hline⟩ :=
      List.eq_append_cons_of_mem (List.mem_of_getLast? hend)
    obtain ⟨fuel, rfl⟩ : ∃ f, fuel = f + 1 := ⟨fuel - 1, by omega⟩
    have hskip : ∀ st, readRecord lim line st = (none, st) := by
      intro st
      rw [readRecord, if_pos]
      intro hhead
      exact hstar (List.mem_append_left _
        ((popCr_sublist line).subset (List.mem_of_mem_head? hhead)))
    rw [readLog, List.append_assoc, List.cons_append, IStream.getline_line hline]
    simp only [hskip]
    have hlen : (junk' ++ rest).length < fuel := by
      simp only [List.length_append, List.length_cons] at hfuel ⊢
      omega
    rcases List.eq_nil_or_concat' junk' with rfl | ⟨xs, x, rfl⟩
    · -- that was the last of them
      rw [List.nil_append] at hlen ⊢
      exact readLog_enough lim hlen
    · refine ih _ ?_ (fun hm => hstar (by simp [hm])) ?_ hlen rfl
      · simp only [List.length_append, List.length_cons] at hn ⊢
        omega
      · rw [← hend, List.getLast?_concat, ← List.cons_append, ← List.append_assoc,
          List.getLast?_concat]

/-! ## 2. A piece of a token and the mark behind it -/

/-- The number of tokens that the first `m` bytes of a record announce; the digits of the
count may be cut. -/
def announced (tokens : List Bytes) (m : Nat) : Nat :=
  ofDec ((dec tokens.length).take (m - 1))

/-- The number in a cut line: the mark behind the piece ends its digits. -/
theorem stoul_cut {n : Nat} (hn : n < 2 ^ 64) (i : Nat) (rest : Bytes) :
    stoul ((dec n ++ [cr]).take i ++ star :: rest) =
      if i = 0 then none else some (ofDec ((dec n).take i)) := by
  have hle := ofDec_take_dec_le n i
  have hscan : ∀ {str : Bytes}, scanInt str = some (false, ofDec ((dec n).take i)) →
      stoul str = some (ofDec ((dec n).take i)) := by
    intro str hstr
    simp only [stoul, hstr, Option.bind_some, Bool.false_eq_true, if_false]
    exact if_pos (by omega)
  rcases Nat.eq_zero_or_pos i with rfl | hpos
  · rfl
  rw [if_neg (by omega)]
  apply hscan
  rcases Nat.lt_or_ge (dec n).length i with hcr | hdigits
  · have htake : (dec n ++ [cr]).take i = dec n ++ [cr] :=
      List.take_of_length_le (by simp; omega)
    rw [htake, List.append_assoc, List.take_of_length_le (Nat.le_of_lt hcr)]
    exact scanInt_append (dec_ne_nil n) (isDigit_of_mem_dec n) rfl
  · rw [List.take_append_of_le_length hdigits]
    refine scanInt_append ?_ (fun c hc => isDigit_of_mem_dec n c (List.mem_of_mem_take hc)) rfl
    rw [Ne, List.take_eq_nil_iff, not_or]
    exact ⟨by omega, dec_ne_nil n⟩

/-- A line that was cut goes on to the end of the line behind it. -/
theorem getline_glued {c : UInt8} (hc : c ≠ lf) (n i count : Nat) (more : Bytes) :
    IStream.getline ⟨c :: (dec n ++ [cr]).take i ++ star :: (dec count ++ crlf ++ more), true⟩ =
      (some (c :: ((dec n ++ [cr]).take i ++ star :: dec count) ++ [cr]), ⟨more, true⟩) := by
  have hnolf : (10 : UInt8) ∉ c :: ((dec n ++ [cr]).take i ++ star :: dec count) ++ [cr] := by
    simp only [List.cons_append, List.mem_cons, List.mem_append, not_or]
    have hline := lf_notMem_take_dec hc n i
    rw [List.mem_cons, not_or] at hline
    exact ⟨hline.1, ⟨hline.2, by decide, lf_notMem_dec count⟩, by decide, List.not_mem_nil⟩
  rw [← IStream.getline_line hnolf more]
  simp

variable {t : Bytes} {i n : Nat} {acc read : List Bytes} {more : Bytes}

/-- The line of the length goes on to the end of the line behind the piece. -/
theorem readTokens_gluedLength (h : t.length ≤ lim.str) (hi : i ≤ (dec t.length).length + 1)
    (n : Nat) (acc : List Bytes) (count : Nat) (more : Bytes) :
    readTokens lim (n + 1)
        ⟨(encodeToken t).take (i + 1) ++ star :: (dec count ++ crlf ++ more), true⟩ acc =
      if i = 0 then (none, ⟨more, true⟩)
      else
        let len := ofDec ((dec t.length).take i)
        let value := IStream.read len ⟨more, true⟩
        readTokens lim n (value.2.read 2).2 (acc ++ [padTo len value.1]) := by
  have hlt : t.length < 2 ^ 64 := by have := lim.str_lt; omega
  rw [take_encodeToken_line hi, readTokens, getline_glued (by decide)]
  have hle := ofDec_take_dec_le t.length i
  by_cases hzero : i = 0
  · simp only [popCr_append_cr, List.head?_cons, ne_eq, not_true_eq_false, if_false, List.tail_cons,
      stoul_cut hlt, if_pos hzero]
  · simp only [popCr_append_cr, List.head?_cons, ne_eq, not_true_eq_false, if_false, List.tail_cons,
      stoul_cut hlt, if_neg hzero]
    rw [if_neg (by omega)]

/-- The value goes on behind the piece. -/
theorem readTokens_gluedValue (h : t.length ≤ lim.str) (i n : Nat) (acc : List Bytes)
    (more : Bytes) :
    readTokens lim (n + 1)
        ⟨(encodeToken t).take ((dec t.length).length + 3 + i) ++ more, true⟩ acc =
      let value := IStream.read t.length ⟨(t ++ crlf).take i ++ more, true⟩
      readTokens lim n (value.2.read 2).2 (acc ++ [padTo t.length value.1]) := by
  have hlt : t.length < 2 ^ 64 := by have := lim.str_lt; omega
  rw [take_encodeToken_value, List.append_assoc, readTokens, getline_count (by decide)]
  simp only [popCr_cons_cr, List.head?_cons, ne_eq, not_true_eq_false, if_false, List.tail_cons,
    stoul_dec hlt]
  rw [if_neg (by omega)]

/-- **The tokens of a piece swallow the mark behind it.** -/
theorem readTokens_glued_suffix (h : t.length ≤ lim.str) {m : Nat}
    (hm : m < (encodeToken t).length) (n : Nat) (acc : List Bytes) (count : Nat) (more : Bytes) :
    (readTokens lim (n + 1)
        ⟨(encodeToken t).take m ++ star :: (dec count ++ crlf ++ more), true⟩ acc).2.rest <:+
      dec count ++ crlf ++ more := by
  rw [length_encodeToken] at hm
  rcases Nat.lt_or_ge m ((dec t.length).length + 3) with hline | hvalue
  · -- inside the line of the length
    have hget := readTokens_suffix_getline lim n
      ⟨(encodeToken t).take m ++ star :: (dec count ++ crlf ++ more), true⟩ acc
    refine List.IsSuffix.trans ?_ (List.suffix_append (dec count ++ crlf) more)
    rcases Nat.eq_zero_or_pos m with rfl | hpos
    · rw [List.take_zero, List.nil_append, ← List.cons_append, ← List.cons_append,
        getline_count (by decide)] at hget
      exact hget
    · obtain ⟨i, rfl⟩ : ∃ i, m = i + 1 := ⟨m - 1, by omega⟩
      rw [take_encodeToken_line (by omega), getline_glued (by decide)] at hget
      rw [take_encodeToken_line (by omega)]
      exact hget
  · -- inside the value or the line end after it
    obtain ⟨i, rfl⟩ : ∃ i, m = (dec t.length).length + 3 + i :=
      ⟨m - ((dec t.length).length + 3), by omega⟩
    have hlen : ((t ++ crlf).take i).length = i := by
      rw [List.length_take, List.length_append, List.length_cons, List.length_singleton]
      omega
    obtain ⟨j, hj⟩ : ∃ j, t.length + 2 = i + (j + 1) := ⟨t.length + 1 - i, by omega⟩
    have hdrop : ((t ++ crlf).take i ++ star :: (dec count ++ crlf ++ more)).drop
        (t.length + 2) = (dec count ++ crlf ++ more).drop j := by
      rw [hj, ← List.drop_drop, List.drop_left' hlen, List.drop_succ_cons]
    rw [readTokens_gluedValue h]
    refine (readTokens_suffix lim n _ _).trans ?_
    rw [IStream.read_read_rest, hdrop]
    exact List.drop_suffix j _

/-- A line that begins with what is left of a number ends the tokens. -/
theorem readTokens_digits (c k n : Nat) (acc : List Bytes) (more : Bytes) :
    readTokens lim (n + 1) ⟨(dec c).drop k ++ crlf ++ more, true⟩ acc =
      (some acc, ⟨more, true⟩) := by
  have hdigit : ∀ d ∈ (dec c).drop k, isDigit d = true := fun d hd =>
    isDigit_of_mem_dec c d (List.mem_of_mem_drop hd)
  have hnolf : (10 : UInt8) ∉ (dec c).drop k ++ [cr] := by
    intro hmem
    rcases List.mem_append.mp hmem with hmem | hmem
    · exact absurd (hdigit _ hmem) (by decide)
    · exact absurd (List.mem_singleton.mp hmem) (by decide)
  have hget := IStream.getline_line hnolf more
  have hfile : (dec c).drop k ++ [cr] ++ 10 :: more = (dec c).drop k ++ crlf ++ more := by simp
  have hhead : ((dec c).drop k).head? ≠ some dollar := by
    intro hhead
    exact absurd (hdigit _ (List.mem_of_mem_head? hhead)) (by decide)
  rw [hfile] at hget
  rw [readTokens, hget]
  simp only [popCr_append_cr]
  rw [if_pos hhead]

/-- Tokens that were read stay. -/
theorem prefix_readTokens {st : IStream} (h : (readTokens lim n st acc).1 = some read) :
    acc <+: read := by
  induction n generalizing st acc with
  | zero =>
    obtain rfl := Option.some.inj h
    exact List.prefix_refl _
  | succ n ih =>
    rw [readTokens] at h
    split at h
    · obtain rfl := Option.some.inj h
      exact List.prefix_refl _
    · split at h
      · obtain rfl := Option.some.inj h
        exact List.prefix_refl _
      · split at h
        · exact absurd h (by simp)
        · split at h
          · exact absurd h (by simp)
          · exact (List.prefix_append acc _).trans (ih h)

/-- No byte of a token is missing among its first `m`. -/
def CompleteToken (t : Bytes) (m : Nat) : Prop :=
  1 + (dec t.length).length ≤ m ∧ t.length ≤ m - ((dec t.length).length + 3)

instance : DecidableRel CompleteToken := fun _ _ => inferInstanceAs (Decidable (_ ∧ _))

/-- **A complete token is read as it is**, and the next line begins with what is left of a
number: that of the mark, or that of the length of the token behind it. -/
theorem readTokens_complete (h : t.length ≤ lim.str) {m : Nat} (hm : m < (encodeToken t).length)
    (hcomplete : CompleteToken t m) (n : Nat) (acc : List Bytes) (count : Nat) (u more : Bytes) :
    ∃ c k left, (left = encodeToken u ++ more ∨ left = u ++ crlf ++ more) ∧
      readTokens lim (n + 1)
          ⟨(encodeToken t).take m ++ star :: (dec count ++ crlf ++ (encodeToken u ++ more)),
            true⟩ acc =
        readTokens lim n ⟨(dec c).drop k ++ crlf ++ left, true⟩ (acc ++ [t]) := by
  obtain ⟨hdigits, hvalue⟩ := hcomplete
  rw [length_encodeToken] at hm
  rcases Nat.lt_or_ge m ((dec t.length).length + 3) with hline | hbody
  · -- an empty token, cut behind its length
    obtain rfl : t = [] := List.eq_nil_of_length_eq_zero (by omega)
    obtain ⟨i, rfl⟩ : ∃ i, m = i + 1 := ⟨m - 1, by omega⟩
    have hdec : dec ([] : Bytes).length = [48] := by decide
    rw [hdec, List.length_singleton] at hdigits hline
    refine ⟨u.length, 1, u ++ crlf ++ more, Or.inr rfl, ?_⟩
    rw [readTokens_gluedLength h (by rw [hdec, List.length_singleton]; omega), if_neg (by omega)]
    have hlen : ofDec ((dec ([] : Bytes).length).take i) = 0 := by
      rw [hdec, List.take_of_length_le (by rw [List.length_singleton]; omega)]
      rfl
    obtain ⟨d, ds, hds⟩ := List.exists_cons_of_ne_nil (dec_ne_nil u.length)
    have hread : IStream.read 2 ⟨encodeToken u ++ more, true⟩ =
        ([dollar, d], ⟨(dec u.length).drop 1 ++ crlf ++ (u ++ crlf ++ more), true⟩) := by
      have hu : encodeToken u ++ more =
          [dollar, d] ++ ((dec u.length).drop 1 ++ crlf ++ (u ++ crlf ++ more)) := by
        simp [encodeToken, hds]
      rw [hu]
      exact IStream.read_append 2 rfl
    have hnone : IStream.read 0 ⟨encodeToken u ++ more, true⟩ =
        ([], ⟨encodeToken u ++ more, true⟩) := by simp [IStream.read]
    simp only [hlen, hnone, hread]
    rfl
  · -- the value is there
    obtain ⟨i, rfl⟩ : ∃ i, m = (dec t.length).length + 3 + i :=
      ⟨m - ((dec t.length).length + 3), by omega⟩
    set rest := dec count ++ crlf ++ (encodeToken u ++ more) with hrest
    have htake : (t ++ crlf).take i ++ star :: rest =
        t ++ (crlf.take (i - t.length) ++ star :: rest) := by
      rw [List.take_append, List.take_of_length_le (by omega), List.append_assoc]
    have hread : IStream.read t.length ⟨t ++ (crlf.take (i - t.length) ++ star :: rest), true⟩ =
        (t, ⟨crlf.take (i - t.length) ++ star :: rest, true⟩) := IStream.read_append t.length rfl
    rw [readTokens_gluedValue h, htake]
    simp only [hread, padTo_self]
    rcases Nat.eq_or_lt_of_le (show t.length ≤ i by omega) with hlen | hlen
    · obtain ⟨d, ds, hds⟩ := List.exists_cons_of_ne_nil (dec_ne_nil count)
      have hend : IStream.read 2 ⟨crlf.take (i - t.length) ++ star :: rest, true⟩ =
          ([star, d], ⟨(dec count).drop 1 ++ crlf ++ (encodeToken u ++ more), true⟩) := by
        have hstar : crlf.take (i - t.length) ++ star :: rest =
            [star, d] ++ ((dec count).drop 1 ++ crlf ++ (encodeToken u ++ more)) := by
          simp [hrest, hlen, hds]
        rw [hstar]
        exact IStream.read_append 2 rfl
      exact ⟨count, 1, _, Or.inl rfl, by rw [hend]⟩
    · have hend : IStream.read 2 ⟨crlf.take (i - t.length) ++ star :: rest, true⟩ =
          ([cr, star], ⟨(dec count).drop 0 ++ crlf ++ (encodeToken u ++ more), true⟩) := by
        have hcr : crlf.take (i - t.length) ++ star :: rest =
            [cr, star] ++ ((dec count).drop 0 ++ crlf ++ (encodeToken u ++ more)) := by
          rw [show i - t.length = 1 by omega, hrest]
          rfl
        rw [hcr]
        exact IStream.read_append 2 rfl
      exact ⟨count, 0, _, Or.inl rfl, by rw [hend]⟩

theorem mem_padTo {c : UInt8} {len : Nat} {arrived : Bytes} (h : c ∈ arrived) :
    c ∈ padTo len arrived := List.mem_append_left _ h

/-- The tokens hold neither a mark of a record nor that of a token. -/
def PlainRecord (tokens : List Bytes) : Prop := ∀ t ∈ tokens, star ∉ t ∧ dollar ∉ t

instance : DecidablePred PlainRecord := fun _ => inferInstanceAs (Decidable (∀ _ ∈ _, _))

/-- **Nothing else can pass for a record of plain tokens**: unless it is complete, the token
that is cut takes in a mark, and a record that has more of them loses its next line. -/
theorem complete_of_plain (h : t.length ≤ lim.str) {m : Nat} (hm : m < (encodeToken t).length)
    {count : Nat} {u : Bytes}
    (hread : (readTokens lim (n + 1) ⟨(encodeToken t).take m ++
      star :: (dec count ++ crlf ++ (encodeToken u ++ more)), true⟩ acc).1 = some read)
    (hlen : read.length = acc.length + (n + 1)) (hplain : PlainRecord read) :
    n = 0 ∧ CompleteToken t m ∧ read = acc ++ [t] := by
  -- a token that was read with a mark in it is one of the record
  have hmark : ∀ {n : Nat} {st : IStream} {len : Nat} {arrived : Bytes},
      (readTokens lim n st (acc ++ [padTo len arrived])).1 = some read →
        star ∉ arrived ∧ dollar ∉ arrived := by
    intro n st len arrived hst
    have hmem : padTo len arrived ∈ read := (prefix_readTokens hst).subset (by simp)
    exact ⟨fun hs => (hplain _ hmem).1 (mem_padTo hs), fun hd => (hplain _ hmem).2 (mem_padTo hd)⟩
  by_cases hcomplete : CompleteToken t m
  · obtain ⟨c, k, left, -, heq⟩ := readTokens_complete h hm hcomplete n acc count u more
    rw [heq] at hread
    cases n with
    | zero => exact ⟨rfl, hcomplete, (Option.some.inj hread).symm⟩
    | succ n =>
      rw [readTokens_digits] at hread
      rw [← Option.some.inj hread, List.length_append, List.length_singleton] at hlen
      omega
  · exfalso
    rw [CompleteToken] at hcomplete
    have hdigits := dec_length_pos t.length
    rcases Nat.lt_or_ge m ((dec t.length).length + 3) with hline | hbody
    · rcases Nat.eq_zero_or_pos m with rfl | hpos
      · -- the mark alone begins the line
        rw [List.take_zero, List.nil_append, readTokens, ← List.cons_append, ← List.cons_append,
          getline_count (by decide)] at hread
        simp only [popCr_cons_cr, List.head?_cons, Option.some.injEq, ne_eq,
          show ¬ star = dollar by decide, not_false_eq_true, if_true] at hread
        rw [← hread] at hlen
        omega
      · obtain ⟨i, rfl⟩ : ∃ i, m = i + 1 := ⟨m - 1, by omega⟩
        rw [readTokens_gluedLength h (by omega)] at hread
        split at hread
        · exact absurd hread (by simp)
        · have hlen' : 0 < ofDec ((dec t.length).take i) := by
            rcases Nat.eq_zero_or_pos t.length with ht | ht
            · rw [ht] at hcomplete
              have hone : (dec 0).length = 1 := by decide
              omega
            · exact ofDec_take_dec_pos ht (by omega)
          exact (hmark hread).2 (@IStream.mem_read [] dollar _ hlen' _)
    · obtain ⟨i, rfl⟩ : ∃ i, m = (dec t.length).length + 3 + i :=
        ⟨m - ((dec t.length).length + 3), by omega⟩
      rw [readTokens_gluedValue h] at hread
      refine (hmark hread).1 (IStream.mem_read ?_ _)
      rw [List.length_take]
      omega

/-! ## 3. A piece of a record and the mark behind it -/

variable {tokens : List Bytes} {m : Nat}

/-- No byte of its last token is missing among the first `m` bytes of a record. -/
def CompleteCut (tokens : List Bytes) (m : Nat) : Prop :=
  CompleteToken (tokens.getLastD []) (m - beforeLast tokens)

instance : DecidableRel CompleteCut := fun _ _ => inferInstanceAs (Decidable (CompleteToken _ _))

/-- A cut in the count line: what is read behind the line is a record of as many tokens as the
digits announce. -/
theorem readRecord_gluedCount (h : lim.Holds tokens) (hi : i ≤ (dec tokens.length).length + 1)
    (count : Nat) (more : Bytes) :
    ∃ line, IStream.getline ⟨(encodeRecord tokens).take (i + 1) ++
          star :: (dec count ++ crlf ++ more), true⟩ = (some line, ⟨more, true⟩) ∧
      readRecord lim line ⟨more, true⟩ =
        if i = 0 then (none, ⟨more, true⟩)
        else
          let r := readTokens lim (announced tokens (i + 1)) ⟨more, true⟩ []
          (r.1.filter fun read => read.length == announced tokens (i + 1), r.2) := by
  have hlt : tokens.length < 2 ^ 64 := by have := lim.vec_lt; have := h.count; omega
  rw [take_encodeRecord_line hi, getline_glued (by decide)]
  refine ⟨_, rfl, ?_⟩
  have hle := ofDec_take_dec_le tokens.length i
  have hcount := h.count
  unfold readRecord
  by_cases hzero : i = 0
  · simp only [popCr_append_cr, List.head?_cons, ne_eq, not_true_eq_false, if_false, List.tail_cons,
      stoul_cut hlt, if_pos hzero]
  · simp only [popCr_append_cr, List.head?_cons, ne_eq, not_true_eq_false, if_false, List.tail_cons,
      stoul_cut hlt, if_neg hzero, announced, Nat.add_sub_cancel]
    rw [if_neg (by omega)]

/-- A cut among the tokens: the whole ones, then the piece of one and what is behind it. -/
theorem readRecord_gluedTokens (h : lim.Holds tokens) {i : Nat}
    (hget : tokens[(wholeFrames encodeToken tokens i).1]? = some t) (more : Bytes) :
    ∃ line st, IStream.getline ⟨(encodeRecord tokens).take
          ((dec tokens.length).length + 3 + i) ++ more, true⟩ = (some line, st) ∧
      readRecord lim line st =
        let cut := wholeFrames encodeToken tokens i
        let r := readTokens lim (tokens.length - cut.1 - 1 + 1)
          ⟨(encodeToken t).take cut.2 ++ more, true⟩ (tokens.take cut.1)
        (r.1.filter fun read => read.length == tokens.length, r.2) := by
  have hlt : tokens.length < 2 ^ 64 := by have := lim.vec_lt; have := h.count; omega
  have hcount := h.count
  have hcut := (List.getElem?_eq_some_iff.mp hget).1
  have hn : tokens.length = (tokens.take (wholeFrames encodeToken tokens i).1).length +
      (tokens.length - (wholeFrames encodeToken tokens i).1 - 1 + 1) := by
    rw [List.length_take]; omega
  have hwhole : ∀ u ∈ tokens.take (wholeFrames encodeToken tokens i).1, u.length ≤ lim.str :=
    fun u hu => h.each u (List.mem_of_mem_take hu)
  have hread := readTokens_tokens hwhole
    (tokens.length - (wholeFrames encodeToken tokens i).1 - 1 + 1)
    ((encodeToken t).take (wholeFrames encodeToken tokens i).2 ++ more) []
  rw [← hn, ← List.append_assoc, List.nil_append] at hread
  have hpiece : (tokens.flatMap encodeToken).take i =
      (tokens.take (wholeFrames encodeToken tokens i).1).flatMap encodeToken ++
        (encodeToken t).take (wholeFrames encodeToken tokens i).2 := by
    rw [take_flatMap_eq, hget, Option.elim_some]
  rw [take_encodeRecord_body, List.append_assoc, getline_count (by decide)]
  refine ⟨_, _, rfl, ?_⟩
  simp only [readRecord, popCr_cons_cr, List.head?_cons, ne_eq, not_true_eq_false, if_false,
    List.tail_cons, stoul_dec hlt, hpiece, hread]
  rw [if_neg (by omega)]

/-- The digits of the count arrived, at least one of them, but not the end of their line. -/
def CountCut (tokens : List Bytes) (m : Nat) : Prop :=
  2 ≤ m ∧ m < (dec tokens.length).length + 3

instance : DecidableRel CountCut := fun _ _ => inferInstanceAs (Decidable (_ ∧ _))

/-- The cut goes through the last token when all others are whole. -/
theorem wholeFrames_last {init : List Bytes} {last : Bytes} {i : Nat}
    (h : (wholeFrames encodeToken (init ++ [last]) i).1 + 1 = (init ++ [last]).length) :
    (wholeFrames encodeToken (init ++ [last]) i).2 =
      (dec (init ++ [last]).length).length + 3 + i - beforeLast (init ++ [last]) := by
  rw [beforeLast, List.dropLast_concat]
  rcases Nat.lt_or_ge i (init.flatMap encodeToken).length with hearly | hlast
  · have hfst := wholeFrames_fst_lt hearly
    rw [wholeFrames_append_of_lt encodeToken [last] hearly, List.length_append,
      List.length_singleton] at h
    omega
  · obtain ⟨k, rfl⟩ : ∃ k, i = k + (init.flatMap encodeToken).length :=
      ⟨i - (init.flatMap encodeToken).length, by omega⟩
    rw [wholeFrames_append, wholeFrames] at h ⊢
    split at h
    · rename_i hwhole
      rw [wholeFrames] at h
      simp at h
    · rename_i hwhole
      rw [if_neg hwhole]
      dsimp only
      omega

/-- **What is made of a piece with a record behind it.**  A mark is gone; and a vector of plain
tokens comes out only of a piece that announced its length and no more, or of one that is
complete, and then it is the record that was cut. -/
theorem readRecord_glued (h : lim.Holds tokens) (hpos : 0 < m)
    (hm : m < (encodeRecord tokens).length) (count : Nat) (u more : Bytes) :
    ∃ line st, IStream.getline ⟨(encodeRecord tokens).take m ++
          star :: (dec count ++ crlf ++ (encodeToken u ++ more)), true⟩ = (some line, st) ∧
      (readRecord lim line st).2.rest <:+ dec count ++ crlf ++ (encodeToken u ++ more) ∧
      ∀ read, (readRecord lim line st).1 = some read → PlainRecord read →
        CountCut tokens m ∧ announced tokens m = read.length ∨
          CompleteCut tokens m ∧ read = tokens := by
  rcases Nat.lt_or_ge m ((dec tokens.length).length + 3) with hline | hbody
  · -- the cut is in the count line
    obtain ⟨i, rfl⟩ : ∃ i, m = i + 1 := ⟨m - 1, by omega⟩
    obtain ⟨line, hget, hrecord⟩ := readRecord_gluedCount h (show i ≤ _ by omega) count
      (encodeToken u ++ more)
    refine ⟨line, _, hget, (readRecord_suffix lim _ _).trans (List.suffix_append _ _), ?_⟩
    intro read hread _
    rw [hrecord] at hread
    split at hread
    · exact absurd hread (by simp)
    · have hlen := (Option.filter_eq_some_iff.mp hread).2
      exact Or.inl ⟨⟨by omega, hline⟩, (beq_iff_eq.mp hlen).symm⟩
  · -- the count is there, and some of the tokens
    obtain ⟨i, rfl⟩ : ∃ i, m = (dec tokens.length).length + 3 + i :=
      ⟨m - ((dec tokens.length).length + 3), by omega⟩
    have hi : i < (tokens.flatMap encodeToken).length := by
      rw [length_encodeRecord] at hm
      omega
    have hcut := wholeFrames_fst_lt hi
    have hpiece := List.getElem?_eq_getElem hcut
    set t := tokens[(wholeFrames encodeToken tokens i).1] with ht
    have hshort : t.length ≤ lim.str := h.each t (List.getElem_mem hcut)
    have hlt := wholeFrames_snd_lt hpiece
    obtain ⟨line, st, hget, hrecord⟩ := readRecord_gluedTokens h hpiece
      (star :: (dec count ++ crlf ++ (encodeToken u ++ more)))
    refine ⟨line, st, hget, ?_, ?_⟩
    · rw [hrecord]
      exact readTokens_glued_suffix hshort hlt _ _ count _
    · intro read hread hplain
      rw [hrecord] at hread
      obtain ⟨htokens, hlen⟩ := Option.filter_eq_some_iff.mp hread
      have htake : (tokens.take (wholeFrames encodeToken tokens i).1).length =
          (wholeFrames encodeToken tokens i).1 := by
        rw [List.length_take]; omega
      obtain ⟨hn, hcomplete, rfl⟩ := complete_of_plain hshort hlt htokens
        (by rw [beq_iff_eq.mp hlen, htake]; omega) hplain
      have hall : tokens.take (wholeFrames encodeToken tokens i).1 ++ [t] = tokens := by
        rw [ht, List.take_append_getElem hcut]
        exact List.take_of_length_le (by omega)
      have hlast := @wholeFrames_last (tokens.take (wholeFrames encodeToken tokens i).1) t i
      have hend : tokens.getLastD [] = t := by
        rw [← hall, List.getLastD_concat]
      rw [hall] at hlast
      refine Or.inr ⟨?_, hall⟩
      rw [CompleteCut, hend, ← hlast (by omega)]
      exact hcomplete

/-- **A complete piece is read as the record it is of**; what follows it on the stream begins with
what is left of a number. -/
theorem readRecord_complete (hne : tokens ≠ []) (h : lim.Holds tokens)
    (hm : m < (encodeRecord tokens).length) (hcut : CompleteCut tokens m) (count : Nat)
    (u more : Bytes) :
    ∃ c k left line st, (left = encodeToken u ++ more ∨ left = u ++ crlf ++ more) ∧
      IStream.getline ⟨(encodeRecord tokens).take m ++
          star :: (dec count ++ crlf ++ (encodeToken u ++ more)), true⟩ = (some line, st) ∧
      readRecord lim line st = (some tokens, ⟨(dec c).drop k ++ crlf ++ left, true⟩) := by
  obtain ⟨init, last, rfl⟩ := exists_last hne
  rw [CompleteCut, List.getLastD_concat] at hcut
  have hbefore : beforeLast (init ++ [last]) =
      (dec (init ++ [last]).length).length + 3 + (init.flatMap encodeToken).length := by
    rw [beforeLast, List.dropLast_concat]
  rw [length_encodeRecord_last] at hm
  have hpos := hcut.1
  obtain ⟨i, rfl⟩ : ∃ i, m = (dec (init ++ [last]).length).length + 3 +
      (i + (init.flatMap encodeToken).length) := ⟨m - beforeLast (init ++ [last]), by omega⟩
  have hi : (dec (init ++ [last]).length).length + 3 + (i + (init.flatMap encodeToken).length) -
      beforeLast (init ++ [last]) = i := by omega
  rw [hi] at hcut
  have hframes : wholeFrames encodeToken (init ++ [last]) (i + (init.flatMap encodeToken).length) =
      (init.length, i) := by
    rw [wholeFrames_append, wholeFrames, if_neg (by omega), Nat.zero_add]
  obtain ⟨line, st, hget, hrecord⟩ := readRecord_gluedTokens h (t := last)
    (i := i + (init.flatMap encodeToken).length) (by rw [hframes]; simp)
    (star :: (dec count ++ crlf ++ (encodeToken u ++ more)))
  obtain ⟨c, k, left, hleft, hread⟩ := readTokens_complete (h.each last (by simp))
    (show i < (encodeToken last).length by omega) hcut 0 init count u more
  refine ⟨c, k, left, line, st, hleft, hget, ?_⟩
  have hn : (init ++ [last]).length - init.length - 1 + 1 = 0 + 1 := by simp
  rw [hrecord, hframes]
  dsimp only
  rw [hn, List.take_left, hread, readTokens]
  simp

end KeyValueDb
