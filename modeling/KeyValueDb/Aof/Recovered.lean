/-
# When appended records come back

A crash left a log with a piece of a record at its end, the log was opened again, and more
records were appended to it.  They come back when there is no piece.  Behind a piece they come
back only in the few cases of `HarmlessPiece`; for records of plain texts that is exact
(`recovered_of_recoverable`), while a text that holds marks of its own may put the loader back
on its way.  Whatever is appended comes back exactly when the cut was between two records
(`forall_recovered_iff`).
-/
import KeyValueDb.Aof.Reopened

namespace KeyValueDb

open Lib

variable {lim : Limits} {σ : Type} {disp : Dispatcher σ} {s : σ} {tmp : Option Bytes}
  {records rs : List (List Bytes)} {n : Nat}

/-! ## 1. What comes back -/

/-- Append `rs` to what a crash left of the log of `records`, load the file: after the whole
records every vector of `rs` is dispatched, in order, and no vector that was never
appended. -/
def Recovered (lim : Limits) (disp : Dispatcher σ) (s : σ) (tmp : Option Bytes)
    (records : List (List Bytes)) (n : Nat) (rs : List (List Bytes)) : Prop :=
  ∃ load extra,
    ((AofManager.construct true true ⟨some ((encodeLog records).take n), tmp⟩).appends
        rs).loadWith lim disp s = some load ∧
      load.dispatched = wholeRecords records n ++ extra ∧
      rs.Sublist extra ∧ ∀ tokens ∈ extra, tokens ∈ records ∨ tokens ∈ rs

/-- The piece of a record at the end of the log. -/
def tornPiece (records : List (List Bytes)) (n : Nat) : Bytes :=
  let cut := wholeFrames encodeRecord records n
  records[cut.1]?.elim [] fun tokens => (encodeRecord tokens).take cut.2

/-- What is read behind the whole records is what has to come back. -/
theorem recovered_iff_piece (hne : ∀ r ∈ records, r ≠ []) (h : ∀ r ∈ records, lim.Holds r)
    (hrs : ∀ r ∈ rs, r ≠ []) :
    Recovered lim disp s tmp records n rs ↔
      ∃ extra, readLog lim ((tornPiece records n ++ encodeLog rs).length + 1)
          ⟨tornPiece records n ++ encodeLog rs, true⟩ = some extra ∧
        rs.Sublist extra ∧ ∀ tokens ∈ extra, tokens ∈ records ∨ tokens ∈ rs := by
  have hread : readLog lim (((encodeLog records).take n ++ encodeLog rs).length + 1)
      ⟨(encodeLog records).take n ++ encodeLog rs, true⟩ =
        (readLog lim ((tornPiece records n ++ encodeLog rs).length + 1)
          ⟨tornPiece records n ++ encodeLog rs, true⟩).map fun extra =>
            wholeRecords records n ++ extra := by
    have hsplit : (encodeLog records).take n ++ encodeLog rs =
        encodeLog (wholeRecords records n) ++ (tornPiece records n ++ encodeLog rs) := by
      rw [← List.append_assoc]
      exact congrArg (· ++ encodeLog rs) (take_flatMap_eq encodeRecord records n)
    have hle := length_le_encodeLog (wholeRecords records n)
    have hfuel : ((encodeLog records).take n ++ encodeLog rs).length + 1 =
        (wholeRecords records n).length +
          ((encodeLog (wholeRecords records n)).length - (wholeRecords records n).length +
            ((tornPiece records n ++ encodeLog rs).length + 1)) := by
      have hlen := congrArg List.length hsplit
      rw [@List.length_append _ (encodeLog _)] at hlen
      omega
    have hmem : ∀ r ∈ wholeRecords records n, r ∈ records := fun r hr => List.mem_of_mem_take hr
    rw [hfuel, hsplit, readLog_append (fun r hr => hne r (hmem r hr))
      (fun r hr => h r (hmem r hr))]
    congr 1
    refine readLog_enough lim ?_
    dsimp only
    omega
  unfold Recovered
  rw [loadWith_appends lim disp s hrs, hread, Option.map_map]
  constructor
  · rintro ⟨load, extra, hload, hdisp, hextra⟩
    obtain ⟨tail, htail, rfl⟩ := Option.map_eq_some_iff.mp hload
    rw [Function.comp_apply, dispatched_foldl, Load.start, List.nil_append] at hdisp
    obtain rfl := List.append_cancel_left hdisp
    exact ⟨_, htail, hextra⟩
  · rintro ⟨extra, htail, hextra⟩
    refine ⟨_, extra, by rw [htail, Option.map_some], ?_, hextra⟩
    rw [Function.comp_apply, dispatched_foldl, Load.start, List.nil_append]

/-! ## 2. Where the cut may be -/

/-- The first `m` bytes of a record do no harm to `rs` behind them.  With nothing behind them
they must be skipped, or padded to the record.  Otherwise they end in the count line and
announce as many tokens as the first record behind them has; or no byte of their last token is
missing, and the first record behind them is the one that was cut, written once more. -/
def HarmlessPiece (tokens : List Bytes) (m : Nat) : List (List Bytes) → Prop
  | [] => SkippedCut tokens m ∨ PaddedCut tokens m
  | r :: _ => CountCut tokens m ∧ announced tokens m = r.length ∨
      CompleteCut tokens m ∧ r = tokens ∧ ∀ t ∈ tokens, star ∉ t

/-- The cut is between two records, or the piece it left does no harm. -/
def Recoverable (records : List (List Bytes)) (n : Nat) (rs : List (List Bytes)) : Prop :=
  let cut := wholeFrames encodeRecord records n
  ∀ tokens ∈ records[cut.1]?, cut.2 = 0 ∨ HarmlessPiece tokens cut.2 rs

instance (tokens : List Bytes) (m : Nat) : DecidablePred (HarmlessPiece tokens m)
  | [] => inferInstanceAs (Decidable (_ ∨ _))
  | _ :: _ => inferInstanceAs (Decidable (_ ∨ _))

instance (records : List (List Bytes)) (n : Nat) : DecidablePred (Recoverable records n) :=
  fun _ => inferInstanceAs
    (Decidable (∀ tokens ∈ records[(wholeFrames encodeRecord records n).1]?, _))

/-- One turn of the loop that reads a record. -/
theorem readLog_of_record {file line : Bytes} {st st' : IStream} {r : List Bytes}
    {read : List (List Bytes)} (hget : IStream.getline ⟨file, true⟩ = (some line, st))
    (hrecord : readRecord lim line st = (some r, st')) (hne : r ≠ [])
    (hread : readLog lim (st'.rest.length + 1) st' = some read) :
    readLog lim (file.length + 1) ⟨file, true⟩ = some (r :: read) := by
  obtain ⟨t, ts, rfl⟩ := List.exists_cons_of_ne_nil hne
  have hlt := IStream.getline_length_lt hget
  have hle := (readRecord_suffix lim line st).length_le
  rw [hrecord] at hle
  dsimp only at hlt hle
  rw [readLog, hget]
  simp only [hrecord]
  rw [readLog_enough lim (show st'.rest.length < file.length by omega), hread, Option.map_some]

theorem star_notMem_dec (n : Nat) : star ∉ dec n := fun h =>
  absurd (isDigit_of_mem_dec n _ h) (by decide)

theorem encodeRecord_cons (u : Bytes) (us : List Bytes) (more : Bytes) :
    encodeRecord (u :: us) ++ more = star :: (dec (u :: us).length ++ crlf ++
      (encodeToken u ++ (us.flatMap encodeToken ++ more))) := by
  simp [encodeRecord]

theorem encodeLog_cons (r : List Bytes) (rs : List (List Bytes)) :
    encodeLog (r :: rs) = encodeRecord r ++ encodeLog rs := rfl

/-- Tokens without marks and what follows them, to the end of the last line. -/
theorem star_notMem_encodeToken {u : Bytes} (h : star ∉ u) : star ∉ encodeToken u := by
  simp only [encodeToken, List.cons_append, List.mem_cons, List.mem_append, not_or]
  exact ⟨by decide, ⟨⟨star_notMem_dec _, by decide, by decide, List.not_mem_nil⟩, h⟩, by decide,
    by decide, List.not_mem_nil⟩

theorem star_notMem_flatMap {us : List Bytes} (h : ∀ u ∈ us, star ∉ u) :
    star ∉ us.flatMap encodeToken := by
  intro hm
  obtain ⟨u, hu, hm⟩ := List.mem_flatMap.mp hm
  exact star_notMem_encodeToken (h u hu) hm

theorem getLast_append_crlf (xs : Bytes) : (xs ++ crlf).getLast? = some lf := by
  rw [List.getLast?_append]
  rfl

theorem getLast_flatMap_encodeToken (head : Bytes) (hhead : head.getLast? = some lf)
    (us : List Bytes) : (head ++ us.flatMap encodeToken).getLast? = some lf := by
  rcases List.eq_nil_or_concat' us with rfl | ⟨us, u, rfl⟩
  · rw [List.flatMap_nil, List.append_nil, hhead]
  · have hend : head ++ (us ++ [u]).flatMap encodeToken =
        head ++ us.flatMap encodeToken ++ dollar :: dec u.length ++ crlf ++ u ++ [cr] ++ [lf] := by
      simp [encodeToken]
    rw [hend, List.getLast?_concat]

/-- Behind a piece that announces its length, a record is read whole. -/
theorem readLog_announced {tokens r : List Bytes} (h : lim.Holds tokens) {m : Nat}
    (hcut : CountCut tokens m) (hr : announced tokens m = r.length) (hrs : ∀ r' ∈ r :: rs, r' ≠ [])
    (hlim : ∀ r' ∈ r :: rs, lim.Holds r') :
    readLog lim (((encodeRecord tokens).take m ++ encodeLog (r :: rs)).length + 1)
      ⟨(encodeRecord tokens).take m ++ encodeLog (r :: rs), true⟩ = some (r :: rs) := by
  obtain ⟨hlow, hhigh⟩ := hcut
  obtain ⟨i, rfl⟩ : ∃ i, m = i + 1 := ⟨m - 1, by omega⟩
  have hfile : (encodeRecord tokens).take (i + 1) ++ encodeLog (r :: rs) =
      (encodeRecord tokens).take (i + 1) ++
        star :: (dec r.length ++ crlf ++ (r.flatMap encodeToken ++ encodeLog rs)) := by
    simp [encodeLog, encodeRecord]
  obtain ⟨line, hget, hrecord⟩ := readRecord_gluedCount h (show i ≤ _ by omega) r.length
    (r.flatMap encodeToken ++ encodeLog rs)
  have hread := readTokens_tokens (hlim r List.mem_cons_self).each 0 (encodeLog rs) []
  rw [Nat.add_zero, readTokens, List.nil_append] at hread
  rw [if_neg (by omega), hr, hread] at hrecord
  simp only [Option.filter_some, beq_self_eq_true, if_true] at hrecord
  rw [hfile]
  exact readLog_of_record hget hrecord (hrs r List.mem_cons_self)
    (readLog_encodeLog (fun r' hr' => hrs r' (List.mem_cons_of_mem r hr'))
      fun r' hr' => hlim r' (List.mem_cons_of_mem r hr'))

/-- A complete piece is read as the record it is of, the rest of the record behind it is
skipped. -/
theorem readLog_complete {r : List Bytes} {m : Nat} (hm : m < (encodeRecord r).length)
    (hcut : CompleteCut r m) (hstar : ∀ t ∈ r, star ∉ t) (hrs : ∀ r' ∈ r :: rs, r' ≠ [])
    (hlim : ∀ r' ∈ r :: rs, lim.Holds r') :
    readLog lim (((encodeRecord r).take m ++ encodeLog (r :: rs)).length + 1)
      ⟨(encodeRecord r).take m ++ encodeLog (r :: rs), true⟩ = some (r :: rs) := by
  have hne := hrs r List.mem_cons_self
  obtain ⟨u, us, hr⟩ := List.exists_cons_of_ne_nil hne
  obtain ⟨c, k, left, line, st, hleft, hget, hrecord⟩ := readRecord_complete hne
    (hlim r List.mem_cons_self) hm hcut r.length u (us.flatMap encodeToken ++ encodeLog rs)
  have hfile : encodeLog (r :: rs) = star :: (dec r.length ++ crlf ++
      (encodeToken u ++ (us.flatMap encodeToken ++ encodeLog rs))) := by
    rw [encodeLog_cons]
    subst hr
    exact encodeRecord_cons u us _
  -- what is left of the record behind the piece
  obtain ⟨value, hvalue, hmark, hend⟩ : ∃ value,
      left = value ++ (us.flatMap encodeToken ++ encodeLog rs) ∧ star ∉ value ∧
        value.getLast? = some lf := by
    have hu : star ∉ u := hstar u (by simp [hr])
    rcases hleft with rfl | rfl
    · exact ⟨encodeToken u, rfl, star_notMem_encodeToken hu, getLast_append_crlf _⟩
    · exact ⟨u ++ crlf, rfl, fun hm => (List.mem_append.mp hm).elim hu (by decide),
        getLast_append_crlf u⟩
  have hjunk : star ∉ (dec c).drop k ++ crlf ++ value ++ us.flatMap encodeToken := by
    simp only [List.mem_append, not_or]
    refine ⟨⟨⟨fun hm => star_notMem_dec c (List.mem_of_mem_drop hm), by decide⟩, hmark⟩, ?_⟩
    exact star_notMem_flatMap fun t ht => hstar t (by simp [hr, ht])
  have hlast := getLast_flatMap_encodeToken ((dec c).drop k ++ crlf ++ value)
    (by rw [List.getLast?_append, hend]; rfl) us
  have hrest : (dec c).drop k ++ crlf ++ left =
      (dec c).drop k ++ crlf ++ value ++ us.flatMap encodeToken ++ encodeLog rs := by
    simp [hvalue]
  rw [hrest] at hrecord
  rw [hfile]
  refine readLog_of_record hget hrecord hne ?_
  exact (readLog_skip hjunk hlast (encodeLog rs) (Nat.lt_succ_self _)).trans
    (readLog_encodeLog (fun r' hr' => hrs r' (List.mem_cons_of_mem r hr'))
      fun r' hr' => hlim r' (List.mem_cons_of_mem r hr'))

/-- **Where nothing is lost.** -/
theorem Recoverable.recovered (hcut : Recoverable records n rs) (disp : Dispatcher σ) (s : σ)
    (tmp : Option Bytes) (hne : ∀ r ∈ records, r ≠ []) (h : ∀ r ∈ records, lim.Holds r)
    (hrs : ∀ r ∈ rs, r ≠ []) (hlim : ∀ r ∈ rs, lim.Holds r) :
    Recovered lim disp s tmp records n rs := by
  rw [recovered_iff_piece hne h hrs]
  -- what is appended is all that is read
  have hall : readLog lim ((tornPiece records n ++ encodeLog rs).length + 1)
        ⟨tornPiece records n ++ encodeLog rs, true⟩ = some rs →
      ∃ extra, readLog lim ((tornPiece records n ++ encodeLog rs).length + 1)
          ⟨tornPiece records n ++ encodeLog rs, true⟩ = some extra ∧
        rs.Sublist extra ∧ ∀ tokens ∈ extra, tokens ∈ records ∨ tokens ∈ rs := fun hread =>
    ⟨rs, hread, List.Sublist.refl rs, fun _ => Or.inr⟩
  have hwhole := readLog_encodeLog hrs hlim
  rcases hget : records[(wholeFrames encodeRecord records n).1]? with _ | tokens
  · refine hall ?_
    rw [tornPiece, hget]
    exact hwhole
  have hmem := List.mem_of_getElem? hget
  have hlt := wholeFrames_snd_lt hget
  have hpiece : tornPiece records n =
      (encodeRecord tokens).take (wholeFrames encodeRecord records n).2 := by
    rw [tornPiece, hget]
    rfl
  rcases hcut tokens hget with hzero | hharmless
  · refine hall ?_
    rw [hpiece, hzero]
    exact hwhole
  cases rs with
  | nil =>
    have hread := readLog_cutRecord (hne tokens hmem) (h tokens hmem) hlt
      (tornPiece records n).length
    rw [← hpiece] at hread
    refine ⟨_, (List.append_nil (tornPiece records n)).symm ▸ hread, List.nil_sublist _, ?_⟩
    obtain ⟨init, last, rfl⟩ := exists_last (hne tokens hmem)
    rcases hharmless with hskipped | hpadded
    · rw [(tornRecord_eq_none_iff hlt).mpr hskipped]
      exact fun _ hm => absurd hm List.not_mem_nil
    · rw [(tornRecord_eq_self_iff hlt).mpr hpadded]
      intro r hr
      rw [List.mem_singleton.mp hr]
      exact Or.inl hmem
  | cons r rs =>
    refine hall ?_
    rw [hpiece]
    rcases hharmless with ⟨hcount, hr⟩ | ⟨hcomplete, rfl, hstar⟩
    · exact readLog_announced (h tokens hmem) hcount hr hrs hlim
    · exact readLog_complete hlt hcomplete hstar hrs hlim

/-! ## 3. And where something is -/

theorem count_star_encodeRecord {r : List Bytes} (h : ∀ t ∈ r, star ∉ t) :
    (encodeRecord r).count star = 1 := by
  have hline : (dec r.length ++ crlf).count star = 0 :=
    List.count_eq_zero.mpr fun hm =>
      (List.mem_append.mp hm).elim (star_notMem_dec _) (by decide)
  rw [encodeRecord, List.cons_append, List.cons_append, List.count_cons_self, List.count_append,
    hline, List.count_eq_zero.mpr (star_notMem_flatMap h)]

/-- There are as many marks as records. -/
theorem count_star_encodeLog (h : ∀ r ∈ rs, ∀ t ∈ r, star ∉ t) :
    (encodeLog rs).count star = rs.length := by
  induction rs with
  | nil => rfl
  | cons r rs ih =>
    rw [encodeLog_cons, List.count_append, count_star_encodeRecord (h r List.mem_cons_self),
      ih fun r' hr' => h r' (List.mem_cons_of_mem r hr'), List.length_cons, Nat.add_comm]

/-- The texts are plain: no marks in what is appended, and where nothing is, no zero bytes in
the log. -/
structure PlainTexts (records rs : List (List Bytes)) : Prop where
  appended : ∀ r ∈ rs, PlainRecord r
  log : rs = [] → ZeroFree records

/-- **Where the texts are plain, nothing else comes back.** -/
theorem recoverable_of_recovered (hplain : PlainTexts records rs)
    (hne : ∀ r ∈ records, r ≠ []) (h : ∀ r ∈ records, lim.Holds r) (hrs : ∀ r ∈ rs, r ≠ [])
    (hrec : Recovered lim disp s tmp records n rs) : Recoverable records n rs := by
  rw [recovered_iff_piece hne h hrs] at hrec
  obtain ⟨extra, hread, hsub, hold⟩ := hrec
  intro tokens hget
  refine or_iff_not_imp_left.mpr fun hzero => ?_
  have hmem := List.mem_of_getElem? hget
  have hlt := wholeFrames_snd_lt hget
  have hpos : 0 < (wholeFrames encodeRecord records n).2 := Nat.pos_of_ne_zero hzero
  have hpiece : tornPiece records n =
      (encodeRecord tokens).take (wholeFrames encodeRecord records n).2 := by
    rw [tornPiece, Option.mem_def.mp hget]
    rfl
  rw [hpiece] at hread
  cases rs with
  | nil =>
    rw [show encodeLog [] = [] from rfl, List.append_nil,
      readLog_cutRecord (hne tokens hmem) (h tokens hmem) hlt, Option.some.injEq] at hread
    obtain ⟨init, last, rfl⟩ := exists_last (hne tokens hmem)
    cases htorn : tornRecord (init ++ [last]) (wholeFrames encodeRecord records n).2 with
    | none => exact Or.inl ((tornRecord_eq_none_iff hlt).mp htorn)
    | some torn =>
      obtain ⟨token, k, htoken, rfl⟩ := tornRecord_eq_append hlt htorn
      rw [htorn, Option.toList_some] at hread
      -- a padded token would be one of the texts of the log
      have hsame : token = last := by
        by_contra hpadded
        rcases hold (init ++ [token]) (by rw [← hread]; exact List.mem_cons_self) with hin | hin
        · exact hplain.log rfl _ hin token (by simp) (zero_mem_of_tornToken htoken hpadded)
        · exact absurd hin List.not_mem_nil
      rw [hsame] at htorn
      exact Or.inr ((tornRecord_eq_self_iff hlt).mp htorn)
  | cons r rs =>
    have hstars : ∀ r' ∈ r :: rs, ∀ t ∈ r', star ∉ t := fun r' hr' t ht =>
      (hplain.appended r' hr' t ht).1
    obtain ⟨u, us, hr⟩ := List.exists_cons_of_ne_nil (hrs r List.mem_cons_self)
    have hfile : encodeLog (r :: rs) = star :: (dec r.length ++ crlf ++
        (encodeToken u ++ (us.flatMap encodeToken ++ encodeLog rs))) := by
      rw [encodeLog_cons]
      subst hr
      exact encodeRecord_cons u us _
    have hcount := count_star_encodeLog hstars
    rw [hfile, List.count_cons_self, List.length_cons] at hcount
    obtain ⟨line, st, hline, hrest, hmade⟩ := readRecord_glued (h tokens hmem) hpos hlt r.length u
      (us.flatMap encodeToken ++ encodeLog rs)
    have hmarks := hrest.sublist.count_le star
    have hlen := hsub.length_le
    rw [List.length_cons] at hlen
    rw [hfile, readLog, hline] at hread
    dsimp only at hread
    rcases hrecord : readRecord lim line st with ⟨_ | _ | ⟨t, ts⟩, st'⟩
    · -- a mark is gone, so one record at least does not come back
      rw [hrecord] at hread hmarks
      have hle := length_le_count_star hread
      dsimp only at hmarks
      omega
    · rw [hrecord] at hread
      exact absurd hread (by simp)
    · rw [hrecord] at hread hmarks hmade
      obtain ⟨tail, htail, rfl⟩ := Option.map_eq_some_iff.mp hread
      have hle := length_le_count_star htail
      dsimp only at hmarks
      -- what was made of the piece has to be the first of them
      have hsame := hsub.eq_of_length_le (by rw [List.length_cons, List.length_cons]; omega)
      have hfirst := (List.cons.inj hsame).1
      rcases hmade r (congrArg some hfirst.symm) (hplain.appended r List.mem_cons_self)
        with hcut | ⟨hcut, rfl⟩
      · exact Or.inl hcut
      · exact Or.inr ⟨hcut, rfl, hstars r List.mem_cons_self⟩

/-- **When what is appended after a crash comes back**: when the cut was between two records or
left a piece that does no harm.  For plain texts that is exact. -/
theorem recovered_of_recoverable (disp : Dispatcher σ) (s : σ) (tmp : Option Bytes)
    (hne : ∀ r ∈ records, r ≠ []) (h : ∀ r ∈ records, lim.Holds r) (hrs : ∀ r ∈ rs, r ≠ [])
    (hlim : ∀ r ∈ rs, lim.Holds r) (n : Nat) :
    (Recoverable records n rs → Recovered lim disp s tmp records n rs) ∧
      (PlainTexts records rs → Recovered lim disp s tmp records n rs →
        Recoverable records n rs) :=
  ⟨fun hcut => hcut.recovered disp s tmp hne h hrs hlim,
    fun hplain hrec => recoverable_of_recovered hplain hne h hrs hrec⟩

/-- The count line of a `SET` was cut behind its number, and the next record has three tokens,
too. -/
theorem recovered_of_recoverable_count :
    Recovered ⟨8, 8, by decide, by decide⟩ (storeDispatch List.length fun _ => 0) .empty none
      [[bytes "SET", bytes "k", bytes "abc"]] 2 [[bytes "SET", bytes "l", bytes "*1\r\n$1"]] :=
  (recovered_of_recoverable _ _ none (by decide) (by decide) (by decide) (by decide) 2).1
    (by decide)

/-- The texts have to be plain for the converse: a `SET` cut inside its value, and what is appended
is the very vector that is made of the piece and the mark behind it. -/
theorem recovered_by_accident :
    ¬ Recoverable [[bytes "SET", bytes "k", bytes "abc"]] 25
        [[bytes "SET", bytes "k", bytes "a*3"]] ∧
      Recovered ⟨8, 8, by decide, by decide⟩ (storeDispatch List.length fun _ => 0) .empty none
        [[bytes "SET", bytes "k", bytes "abc"]] 25 [[bytes "SET", bytes "k", bytes "a*3"]] := by
  refine ⟨by decide, ?_⟩
  rw [recovered_iff_piece (by decide) (by decide) (by decide)]
  exact ⟨[[bytes "SET", bytes "k", bytes "a*3"]], by decide, List.Sublist.refl _, fun _ => Or.inr⟩

/-- A `SET` cut inside its value: the announced length swallows the mark of the record that is
appended after the restart, and that record is not replayed. -/
theorem not_recovered_of_cut :
    ¬ ∀ (lim : Limits) (disp : Dispatcher KeyValueStore) (s : KeyValueStore)
        (records : List (List Bytes)) (n : Nat) (rs : List (List Bytes)),
        (∀ r ∈ records, r ≠ []) → (∀ r ∈ records, lim.Holds r) → (∀ r ∈ rs, r ≠ []) →
        (∀ r ∈ rs, lim.Holds r) → Recovered lim disp s none records n rs := by
  intro hall
  have hrec := hall ⟨8, 8, by decide, by decide⟩ (storeDispatch List.length fun _ => 0) .empty
    [[bytes "SET", bytes "k", bytes "abc"]] 25 [[bytes "SET", bytes "l", bytes "d"]]
    (by decide) (by decide) (by decide) (by decide)
  rw [recovered_iff_piece (by decide) (by decide) (by decide)] at hrec
  obtain ⟨extra, hread, hsub, -⟩ := hrec
  have hloaded : readLog ⟨8, 8, by decide, by decide⟩
      ((tornPiece [[bytes "SET", bytes "k", bytes "abc"]] 25 ++
        encodeLog [[bytes "SET", bytes "l", bytes "d"]]).length + 1)
      ⟨tornPiece [[bytes "SET", bytes "k", bytes "abc"]] 25 ++
        encodeLog [[bytes "SET", bytes "l", bytes "d"]], true⟩ =
      some [[bytes "SET", bytes "k", bytes "a*3"]] := by decide
  rw [hloaded] at hread
  have hextra : extra = [[bytes "SET", bytes "k", bytes "a*3"]] := (Option.some.inj hread).symm
  rw [hextra] at hsub
  exact absurd hsub (by decide)

/-! ## 4. Whatever is appended -/

/-- A vector of one or two empty tokens that does not have `k` of them. -/
def probe (k : Nat) : List Bytes := if k = 1 then [[], []] else [[]]

theorem length_probe_ne (k : Nat) : (probe k).length ≠ k := by
  unfold probe
  split
  · rename_i hk
    rw [hk]
    decide
  · rename_i hk
    exact fun h => hk h.symm

theorem probe_ne_nil (k : Nat) : probe k ≠ [] := by
  unfold probe
  split <;> simp

theorem holds_probe (hvec : 2 ≤ lim.vec) (k : Nat) : lim.Holds (probe k) := by
  unfold probe
  split
  · exact ⟨hvec, by simp⟩
  · exact ⟨Nat.le_of_succ_le hvec, by simp⟩

theorem plainRecord_probe (k : Nat) : PlainRecord (probe k) := by
  unfold probe
  split <;> decide

/-- **Only a cut between two records is safe for whatever is appended later.** -/
theorem forall_recovered_iff (hvec : 2 ≤ lim.vec) (disp : Dispatcher σ) (s : σ)
    (tmp : Option Bytes) (hne : ∀ r ∈ records, r ≠ []) (h : ∀ r ∈ records, lim.Holds r)
    (n : Nat) :
    (∀ rs : List (List Bytes), (∀ r ∈ rs, r ≠ []) → (∀ r ∈ rs, lim.Holds r) →
      Recovered lim disp s tmp records n rs) ↔
    ∀ tokens ∈ records[(wholeFrames encodeRecord records n).1]?,
      (wholeFrames encodeRecord records n).2 = 0 := by
  constructor
  · intro hall tokens hget
    set m := (wholeFrames encodeRecord records n).2
    have hrec := hall [probe (announced tokens m)]
      (fun r hr => by rw [List.mem_singleton.mp hr]; exact probe_ne_nil _)
      (fun r hr => by rw [List.mem_singleton.mp hr]; exact holds_probe hvec _)
    have hcut := recoverable_of_recovered
      ⟨fun r hr => by rw [List.mem_singleton.mp hr]; exact plainRecord_probe _, by simp⟩ hne h
      (fun r hr => by rw [List.mem_singleton.mp hr]; exact probe_ne_nil _) hrec
    rcases hcut tokens hget with hzero | ⟨-, hlen⟩ | ⟨hcomplete, hprobe, -⟩
    · exact hzero
    · exact absurd hlen.symm (length_probe_ne _)
    · -- the count is there, so it is announced
      have hcount : announced tokens m = tokens.length := by
        have hlow := hcomplete.1
        rw [beforeLast] at hlow
        rw [announced, List.take_of_length_le (by omega), ofDec_dec]
      have hlen := length_probe_ne (announced tokens m)
      rw [hprobe, hcount] at hlen
      exact absurd rfl hlen
  · intro hcut rs hrs hlim
    exact Recoverable.recovered (fun tokens hget => Or.inl (hcut tokens hget)) disp s tmp hne h
      hrs hlim

end KeyValueDb
