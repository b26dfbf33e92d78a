/-
# A log cut short by a crash

A crash in the middle of an append leaves the records before it and a piece of the one being
written.  The loader does not always notice the piece: when the cut is inside the last token,
or inside the line that announces its length, the loop ends with as many tokens as were
announced, the last of them padded with zero bytes, and the record is dispatched.

`tornRecord` says exactly which record that is, `readLog_take` that the loader dispatches the
whole records before the cut and this one and nothing else.
-/
import KeyValueDb.Aof.Replay
import KeyValueDb.Lib.Framing

namespace KeyValueDb

open Lib

/-! ## 1. What is left of a token and of a record -/

/-- The token that the loader makes of the first `m` bytes of one; none when it gives up.
Inside the digits of the length it takes the number as far as it goes. -/
def tornToken (token : Bytes) (m : Nat) : Option Bytes :=
  if m < 2 then none
  else if m ≤ (dec token.length).length then
    some (padTo (ofDec ((dec token.length).take (m - 1))) [])
  else some (padTo token.length (token.take (m - ((dec token.length).length + 3))))

/-- The record that the loader makes of the first `m` bytes of one; none when it skips it.
All tokens but the last must be there. -/
def tornRecord (tokens : List Bytes) (m : Nat) : Option (List Bytes) :=
  if m < (dec tokens.length).length + 3 then none
  else
    let cut := wholeFrames encodeToken tokens (m - ((dec tokens.length).length + 3))
    if cut.1 + 1 = tokens.length then
      (tokens[cut.1]?.bind fun token => tornToken token cut.2).map fun token =>
        tokens.take cut.1 ++ [token]
    else none

/-- The records of a log that are whole within its first `n` bytes. -/
def wholeRecords (records : List (List Bytes)) (n : Nat) : List (List Bytes) :=
  records.take (wholeFrames encodeRecord records n).1

/-- The record that the loader makes of what follows them. -/
def tornTail (records : List (List Bytes)) (n : Nat) : Option (List Bytes) :=
  let cut := wholeFrames encodeRecord records n
  records[cut.1]?.bind fun tokens => tornRecord tokens cut.2

/-! ## 2. Reading a piece of a token -/

variable {lim : Limits}

theorem length_encodeToken (t : Bytes) :
    (encodeToken t).length = (dec t.length).length + 3 + (t.length + 2) := by
  simp [encodeToken]
  omega

/-- A piece that ends in the line of the length. -/
theorem take_encodeToken_line {t : Bytes} {i : Nat} (hi : i ≤ (dec t.length).length + 1) :
    (encodeToken t).take (i + 1) = dollar :: (dec t.length ++ [cr]).take i := by
  have henc : encodeToken t = dollar :: ((dec t.length ++ [cr]) ++ (lf :: (t ++ crlf))) := by
    simp [encodeToken]
  rw [henc, List.take_succ_cons, List.take_append_of_le_length (by simp; omega)]

/-- A piece that ends behind it. -/
theorem take_encodeToken_value (t : Bytes) (i : Nat) :
    (encodeToken t).take ((dec t.length).length + 3 + i) =
      dollar :: dec t.length ++ crlf ++ (t ++ crlf).take i := by
  have henc : encodeToken t = (dollar :: dec t.length ++ crlf) ++ (t ++ crlf) := by
    simp [encodeToken]
  have hlen : (dollar :: dec t.length ++ crlf).length = (dec t.length).length + 3 := by simp
  rw [henc, List.take_append, List.take_of_length_le (by omega), hlen, Nat.add_sub_cancel_left]

/-- Nothing more comes from a stream that went bad. -/
@[simp] theorem readTokens_bad (n : Nat) (tokens : List Bytes) :
    readTokens lim n ⟨[], false⟩ tokens = (some tokens, ⟨[], false⟩) := by
  cases n <;> rfl

/-- A length line at the very end of the file: the number goes as far as its digits, and no
byte of the value arrives. -/
theorem readTokens_lastLine {line : Bytes} {len n : Nat} {tokens : List Bytes}
    (hline : lf ∉ line) (hdollar : (popCr line).head? = some dollar)
    (hlen : stoul (popCr line).tail = some len) (hle : len ≤ lim.str) :
    readTokens lim (n + 1) ⟨line, true⟩ tokens =
      (some (tokens ++ [padTo len []]), ⟨[], false⟩) := by
  have hne : line ≠ [] := by rintro rfl; simp [popCr] at hdollar
  rw [readTokens, IStream.getline_last hline hne]
  simp only [hdollar, ne_eq, not_true_eq_false, if_false, hlen, IStream.read_bad]
  rw [if_neg (by omega), readTokens_bad]

theorem lf_notMem_take_dec {c : UInt8} (hc : c ≠ lf) (n i : Nat) :
    lf ∉ c :: (dec n ++ [cr]).take i := by
  intro hm
  rcases List.mem_cons.mp hm with he | he
  · exact hc he.symm
  · rcases List.mem_append.mp (List.mem_of_mem_take he) with he | he
    · exact lf_notMem_dec n he
    · exact absurd (List.mem_singleton.mp he) (by decide)

/-- A cut in the length line of a token. -/
theorem readTokens_cutLength {t : Bytes} (h : t.length ≤ lim.str) {i : Nat}
    (hi : i ≤ (dec t.length).length + 1) (n : Nat) (tokens : List Bytes) :
    readTokens lim (n + 1) ⟨dollar :: (dec t.length ++ [cr]).take i, true⟩ tokens =
      (if i = 0 then none else some (tokens ++ (tornToken t (i + 1)).toList),
        ⟨[], false⟩) := by
  have hlt : t.length < 2 ^ 64 := by have := lim.str_lt; omega
  have hline := lf_notMem_take_dec (show dollar ≠ lf by decide) t.length i
  rcases Nat.lt_or_ge (dec t.length).length i with hcr | hdigits
  · -- the whole line but its end
    have hi' : i = (dec t.length).length + 1 := by omega
    have htake : (dec t.length ++ [cr]).take i = dec t.length ++ [cr] :=
      List.take_of_length_le (by simp [hi'])
    rw [htake] at hline ⊢
    rw [readTokens_lastLine hline (by rw [popCr_cons_cr]; rfl)
      (by rw [popCr_cons_cr]; exact stoul_dec hlt) h]
    have : ¬ i + 1 ≤ (dec t.length).length := by omega
    have hzero : i + 1 - ((dec t.length).length + 3) = 0 := by omega
    simp [tornToken, this, hzero, show i ≠ 0 by omega, show ¬ i + 1 < 2 by omega]
  · have htake : (dec t.length ++ [cr]).take i = (dec t.length).take i :=
      List.take_append_of_le_length hdigits
    have hpop : popCr (dollar :: (dec t.length).take i) = dollar :: (dec t.length).take i :=
      popCr_digits (by decide) fun d hd => isDigit_of_mem_dec _ d (List.mem_of_mem_take hd)
    rw [htake] at hline ⊢
    rcases Nat.eq_zero_or_pos i with rfl | hpos
    · -- the mark alone: no number
      rw [readTokens, IStream.getline_last hline (by simp)]
      simp only [hpop]
      rfl
    · rw [readTokens_lastLine hline (by rw [hpop]; rfl)
        (by rw [hpop]; exact stoul_take_dec hlt hpos)
        (Nat.le_trans (ofDec_take_dec_le _ _) h), if_neg (by omega)]
      rcases Nat.lt_or_ge i (dec t.length).length with hi' | hi'
      · simp [tornToken, show ¬ i + 1 < 2 by omega, show i + 1 ≤ (dec t.length).length by omega]
      · -- all the digits
        have hfull : (dec t.length).take i = dec t.length := List.take_of_length_le hi'
        have hzero : i + 1 - ((dec t.length).length + 3) = 0 := by omega
        simp [tornToken, hfull, hzero, show ¬ i + 1 < 2 by omega,
          show ¬ i + 1 ≤ (dec t.length).length by omega]

/-- A cut in the value of a token, or in the line end after it. -/
theorem readTokens_cutValue {t : Bytes} (h : t.length ≤ lim.str) {i : Nat}
    (hi : i < t.length + 2) (n : Nat) (tokens : List Bytes) :
    readTokens lim (n + 1)
        ⟨dollar :: dec t.length ++ crlf ++ (t ++ crlf).take i, true⟩ tokens =
      (some (tokens ++ [padTo t.length (t.take i)]), ⟨[], false⟩) := by
  have hlt : t.length < 2 ^ 64 := by have := lim.str_lt; omega
  rw [readTokens, getline_count (by decide)]
  simp only [popCr_cons_cr, List.head?_cons, ne_eq, not_true_eq_false, if_false, List.tail_cons,
    stoul_dec hlt]
  rw [if_neg (by omega)]
  rcases Nat.lt_or_ge i t.length with hshort | hlong
  · have htake : (t ++ crlf).take i = t.take i :=
      List.take_append_of_le_length (by omega)
    have hread : IStream.read t.length ⟨t.take i, true⟩ = (t.take i, ⟨[], false⟩) :=
      IStream.read_short t.length (by rw [List.length_take]; omega)
    rw [htake, hread]
    simp only [IStream.read_bad, readTokens_bad]
  · have htake : (t ++ crlf).take i = t ++ crlf.take (i - t.length) := by
      rw [List.take_append, List.take_of_length_le hlong]
    have hread : IStream.read t.length ⟨t ++ crlf.take (i - t.length), true⟩ =
        (t, ⟨crlf.take (i - t.length), true⟩) := IStream.read_append t.length rfl
    have hend : IStream.read 2 ⟨crlf.take (i - t.length), true⟩ =
        (crlf.take (i - t.length), ⟨[], false⟩) :=
      IStream.read_short 2 (by rw [List.length_take]; simp; omega)
    rw [htake, hread]
    simp only [hend, readTokens_bad, List.take_of_length_le hlong]

/-- **A piece of a token.** -/
theorem readTokens_cut {t : Bytes} (h : t.length ≤ lim.str) {m : Nat}
    (hm : m < (encodeToken t).length) (n : Nat) (tokens : List Bytes) :
    readTokens lim (n + 1) ⟨(encodeToken t).take m, true⟩ tokens =
      (if m = 1 then none else some (tokens ++ (tornToken t m).toList), ⟨[], false⟩) := by
  rw [length_encodeToken] at hm
  rcases Nat.eq_zero_or_pos m with rfl | hpos
  · simp [readTokens, IStream.getline_nil, tornToken]
  · rcases Nat.lt_or_ge m ((dec t.length).length + 3) with hline | hvalue
    · obtain ⟨i, rfl⟩ : ∃ i, m = i + 1 := ⟨m - 1, by omega⟩
      rw [take_encodeToken_line (by omega), readTokens_cutLength h (by omega)]
      simp
    · obtain ⟨i, rfl⟩ : ∃ i, m = (dec t.length).length + 3 + i :=
        ⟨m - ((dec t.length).length + 3), by omega⟩
      rw [take_encodeToken_value, readTokens_cutValue h (by omega)]
      have h1 : ¬ (dec t.length).length + 3 + i < 2 := by omega
      have h2 : ¬ (dec t.length).length + 3 + i ≤ (dec t.length).length := by omega
      have h3 : (dec t.length).length + 3 + i ≠ 1 := by omega
      simp [tornToken, h1, h2, h3]

/-! ## 3. Reading a piece of a record -/

theorem length_encodeRecord (tokens : List Bytes) :
    (encodeRecord tokens).length =
      (dec tokens.length).length + 3 + (tokens.flatMap encodeToken).length := by
  simp [encodeRecord]
  omega

/-- A piece that ends in the count line. -/
theorem take_encodeRecord_line {tokens : List Bytes} {i : Nat}
    (hi : i ≤ (dec tokens.length).length + 1) :
    (encodeRecord tokens).take (i + 1) = star :: (dec tokens.length ++ [cr]).take i := by
  have henc : encodeRecord tokens = star :: ((dec tokens.length ++ [cr]) ++
      (lf :: tokens.flatMap encodeToken)) := by simp [encodeRecord]
  rw [henc, List.take_succ_cons, List.take_append_of_le_length (by simp; omega)]

/-- A piece that ends among the tokens. -/
theorem take_encodeRecord_body (tokens : List Bytes) (i : Nat) :
    (encodeRecord tokens).take ((dec tokens.length).length + 3 + i) =
      star :: dec tokens.length ++ crlf ++ (tokens.flatMap encodeToken).take i := by
  have henc : encodeRecord tokens =
      (star :: dec tokens.length ++ crlf) ++ tokens.flatMap encodeToken := by
    simp [encodeRecord]
  have hlen : (star :: dec tokens.length ++ crlf).length = (dec tokens.length).length + 3 := by
    simp
  rw [henc, List.take_append, List.take_of_length_le (by omega), hlen, Nat.add_sub_cancel_left]

/-- A cut among the tokens of a record. -/
theorem readTokens_cutTokens {ts : List Bytes} (h : ∀ t ∈ ts, t.length ≤ lim.str) {m : Nat}
    (hm : m < (ts.flatMap encodeToken).length) :
    readTokens lim ts.length ⟨(ts.flatMap encodeToken).take m, true⟩ [] =
      (if (wholeFrames encodeToken ts m).2 = 1 then none
        else some (ts.take (wholeFrames encodeToken ts m).1 ++
          (ts[(wholeFrames encodeToken ts m).1]?.bind fun t =>
            tornToken t (wholeFrames encodeToken ts m).2).toList), ⟨[], false⟩) := by
  have hi := wholeFrames_fst_lt hm
  have hget := List.getElem?_eq_getElem hi
  have hlen : ts.length = (ts.take (wholeFrames encodeToken ts m).1).length +
      (ts.length - (wholeFrames encodeToken ts m).1 - 1 + 1) := by
    rw [List.length_take]; omega
  rw [take_flatMap_eq encodeToken ts m, hget, Option.elim_some, hlen,
    readTokens_tokens (fun u hu => h u (List.mem_of_mem_take hu)), List.nil_append,
    readTokens_cut (h _ (List.getElem_mem hi)) (wholeFrames_snd_lt hget), Option.bind_some]

/-- A count line at the very end of the file announces tokens that do not come. -/
theorem readRecord_cutCount {tokens : List Bytes} (hne : tokens ≠ []) (h : lim.Holds tokens)
    {i : Nat} (hi : i ≤ (dec tokens.length).length + 1) :
    readRecord lim (star :: (dec tokens.length ++ [cr]).take i) ⟨[], false⟩ =
      (none, ⟨[], false⟩) := by
  have hpos : 0 < tokens.length := List.length_pos_iff.mpr hne
  have hvec := lim.vec_lt
  have hcount := h.count
  have hlt : tokens.length < 2 ^ 64 := by omega
  unfold readRecord
  rcases Nat.lt_or_ge (dec tokens.length).length i with hcr | hdigits
  · have htake : (dec tokens.length ++ [cr]).take i = dec tokens.length ++ [cr] :=
      List.take_of_length_le (by simp; omega)
    simp only [htake, popCr_cons_cr, List.head?_cons, ne_eq, not_true_eq_false, if_false,
      List.tail_cons, stoul_dec hlt, readTokens_bad]
    rw [if_neg (by omega)]
    simp [Option.filter, hpos.ne]
  · have htake : (dec tokens.length ++ [cr]).take i = (dec tokens.length).take i :=
      List.take_append_of_le_length hdigits
    have hpop : popCr (star :: (dec tokens.length).take i) = star :: (dec tokens.length).take i :=
      popCr_digits (by decide) fun d hd => isDigit_of_mem_dec _ d (List.mem_of_mem_take hd)
    simp only [htake, hpop, List.head?_cons, ne_eq, not_true_eq_false, if_false, List.tail_cons]
    rcases Nat.eq_zero_or_pos i with rfl | hipos
    · rfl
    · -- a shorter count, but not zero
      have hle := ofDec_take_dec_le tokens.length i
      have hnz := ofDec_take_dec_pos hpos hipos
      simp only [stoul_take_dec hlt hipos, readTokens_bad]
      rw [if_neg (by omega)]
      simp [Option.filter, hnz.ne]

theorem tornToken_one (t : Bytes) : tornToken t 1 = none := rfl

/-- A record whose count line is there and some of its tokens. -/
theorem readRecord_cutTokens {tokens : List Bytes} (h : lim.Holds tokens) {i : Nat}
    (hi : i < (tokens.flatMap encodeToken).length) :
    readRecord lim (star :: (dec tokens.length ++ [cr]))
        ⟨(tokens.flatMap encodeToken).take i, true⟩ =
      (tornRecord tokens ((dec tokens.length).length + 3 + i), ⟨[], false⟩) := by
  have hvec := lim.vec_lt
  have hcount := h.count
  have hlt : tokens.length < 2 ^ 64 := by omega
  have hcut := wholeFrames_fst_lt hi
  have hget := List.getElem?_eq_getElem hcut
  have hvec' : ¬ lim.vec < tokens.length := by omega
  have hline : ¬ (dec tokens.length).length + 3 + i < (dec tokens.length).length + 3 := by omega
  simp only [readRecord, popCr_cons_cr, List.head?_cons, ne_eq, not_true_eq_false, if_false,
    List.tail_cons, stoul_dec hlt, readTokens_cutTokens h.each hi, tornRecord,
    Nat.add_sub_cancel_left, hvec', hline, hget, Option.bind_some]
  generalize wholeFrames encodeToken tokens i = cut at hcut ⊢
  refine Prod.ext ?_ rfl
  have htake : (tokens.take cut.1).length = cut.1 := by rw [List.length_take]; omega
  rcases Nat.eq_or_lt_of_le (show cut.1 + 1 ≤ tokens.length from hcut) with hlast | hmore
  · -- the last token is cut
    rw [if_pos hlast]
    by_cases h1 : cut.2 = 1
    · simp [h1, tornToken_one]
    · rw [if_neg h1]
      cases tornToken tokens[cut.1] cut.2 with
      | none => simp [Option.filter, htake, show cut.1 ≠ tokens.length by omega]
      | some t => simp [Option.filter, htake, hlast]
  · -- an earlier one: too few tokens
    rw [if_neg hmore.ne]
    by_cases h1 : cut.2 = 1
    · simp [h1]
    · rw [if_neg h1]
      cases tornToken tokens[cut.1] cut.2 with
      | none => simp [Option.filter, htake, show cut.1 ≠ tokens.length by omega]
      | some t => simp [Option.filter, htake, hmore.ne]

theorem tornRecord_ne_nil {tokens torn : List Bytes} {m : Nat}
    (h : tornRecord tokens m = some torn) : torn ≠ [] := by
  unfold tornRecord at h
  split at h
  · exact absurd h (by simp)
  · dsimp only at h
    split at h
    · obtain ⟨t, -, rfl⟩ := Option.map_eq_some_iff.mp h
      simp
    · exact absurd h (by simp)

/-- **A piece of a record** is dispatched as `tornRecord` says, or not at all. -/
theorem readLog_cutRecord {tokens : List Bytes} (hne : tokens ≠ []) (h : lim.Holds tokens)
    {m : Nat} (hm : m < (encodeRecord tokens).length) (fuel : Nat) :
    readLog lim (fuel + 1) ⟨(encodeRecord tokens).take m, true⟩ =
      some (tornRecord tokens m).toList := by
  rcases Nat.lt_or_ge m ((dec tokens.length).length + 3) with hline | hbody
  · -- the cut is in the count line
    rw [show tornRecord tokens m = none from if_pos hline, Option.toList_none]
    rcases Nat.eq_zero_or_pos m with rfl | hmpos
    · rfl
    · obtain ⟨i, rfl⟩ : ∃ i, m = i + 1 := ⟨m - 1, by omega⟩
      have hnolf := lf_notMem_take_dec (show star ≠ lf by decide) tokens.length i
      rw [take_encodeRecord_line (by omega), readLog, IStream.getline_last hnolf (by simp)]
      simp only [readRecord_cutCount hne h (show i ≤ _ by omega), readLog_nil]
  · -- the count is there, and some of the tokens
    obtain ⟨i, rfl⟩ : ∃ i, m = (dec tokens.length).length + 3 + i :=
      ⟨m - ((dec tokens.length).length + 3), by omega⟩
    have hi : i < (tokens.flatMap encodeToken).length := by
      rw [length_encodeRecord] at hm
      omega
    rw [take_encodeRecord_body, readLog, getline_count (by decide)]
    simp only [readRecord_cutTokens h hi]
    cases htorn : tornRecord tokens ((dec tokens.length).length + 3 + i) with
    | none => simp
    | some torn =>
      obtain ⟨t, ts, rfl⟩ := List.exists_cons_of_ne_nil (tornRecord_ne_nil htorn)
      simp

/-! ## 4. Reading a cut log -/

theorem length_encodeLog_take_add (records : List (List Bytes)) (n : Nat) :
    (wholeRecords records n).length ≤ ((encodeLog records).take n).length := by
  have hcut := congrArg List.length (take_flatMap_eq encodeRecord records n)
  have := length_le_encodeLog (wholeRecords records n)
  rw [List.length_append] at hcut
  unfold wholeRecords encodeLog at *
  omega

/-- **A cut log**: the whole records before the cut are dispatched, and the one that
`tornTail` makes of the piece. -/
theorem readLog_take {records : List (List Bytes)} (hne : ∀ r ∈ records, r ≠ [])
    (h : ∀ r ∈ records, lim.Holds r) (n : Nat) :
    readLog lim (((encodeLog records).take n).length + 1) ⟨(encodeLog records).take n, true⟩ =
      some (wholeRecords records n ++ (tornTail records n).toList) := by
  have hfuel := length_encodeLog_take_add records n
  obtain ⟨fuel, hf⟩ : ∃ fuel, ((encodeLog records).take n).length + 1 =
      (wholeRecords records n).length + (fuel + 1) :=
    ⟨((encodeLog records).take n).length - (wholeRecords records n).length, by omega⟩
  rw [hf]
  have hcut := take_flatMap_eq encodeRecord records n
  rw [show records.flatMap encodeRecord = encodeLog records from rfl] at hcut
  rw [hcut, show (records.take (wholeFrames encodeRecord records n).1).flatMap encodeRecord =
    encodeLog (wholeRecords records n) from rfl]
  unfold wholeRecords tornTail
  rw [readLog_append (fun r hr => hne r (List.mem_of_mem_take hr))
    (fun r hr => h r (List.mem_of_mem_take hr))]
  rcases hget : records[(wholeFrames encodeRecord records n).1]? with _ | r
  · simp [hget]
  · have hmem : r ∈ records := List.mem_of_getElem? hget
    rw [Option.elim_some, readLog_cutRecord (hne r hmem) (h r hmem) (wholeFrames_snd_lt hget)]
    simp [hget]

/-! ## 5. What a crash leaves -/

/-- A manager just opened on a file. -/
def AofManager.openOn (file : Bytes) : AofManager := ⟨true, true, ⟨some file, none⟩⟩

variable {hash : Bytes → Nat} {clock : Nat → Time}

/-- **Loading a cut log** replays the whole records before the cut, then what `tornTail` makes
of the piece. -/
theorem load_take (hash : Bytes → Nat) (clock : Nat → Time) {records : List (List Bytes)}
    (hne : ∀ r ∈ records, r ≠ []) (h : ∀ r ∈ records, lim.Holds r) (n : Nat)
    (store : KeyValueStore) :
    (AofManager.openOn ((encodeLog records).take n)).loadIntoStore lim hash clock store =
      some (replay hash clock 0 (wholeRecords records n ++ (tornTail records n).toList)
        (0, store)) := by
  rw [loadIntoStore_eq lim hash clock rfl rfl, readLog_take hne h n, Option.map_some]

end KeyValueDb
