/-
# What the loader reads

Reading does not depend on the store, so the loop splits in two: `readLog` is the list of
records it dispatches and `replay` dispatches them (`loadLoop_eq`).  On an intact log reading
undoes writing, whatever bytes the tokens hold (`readLog_encodeLog`): the length of a token is
read before the token, so a token may hold line ends, `'*'` or `'$'`.

A turn of the loop takes a line off the file, so the loop of the model ends before its fuel
does (`readLog_enough`).  The one assumption is that the machine can allocate again what it
held when it wrote the record (`Limits.Holds`).
-/
import KeyValueDb.Aof.Manager

namespace KeyValueDb

open Lib

/-! ## 1. Reading and replaying apart -/

/-- The records that the loop dispatches, in order. -/
def readLog (lim : Limits) : Nat → IStream → Option (List (List Bytes))
  | 0, _ => some []
  | fuel + 1, st =>
    match st.getline with
    | (none, _) => some []
    | (some line, st) =>
      match readRecord lim line st with
      | (none, st) => readLog lim fuel st
      | (some [], _) => none
      | (some tokens, st) => (readLog lim fuel st).map fun records => tokens :: records

/-- Dispatch one record, counting it unless it threw. -/
def replayRecord (hash : Bytes → Nat) (now : Time) (tokens : List Bytes)
    (acc : Nat × KeyValueStore) : Nat × KeyValueStore :=
  match dispatch hash now tokens acc.2 with
  | none => acc
  | some store => (acc.1 + 1, store)

/-- Dispatch records one after the other, the first of them as number `i`. -/
def replay (hash : Bytes → Nat) (clock : Nat → Time) :
    Nat → List (List Bytes) → Nat × KeyValueStore → Nat × KeyValueStore
  | _, [], acc => acc
  | i, tokens :: records, acc =>
    replay hash clock (i + 1) records (replayRecord hash (clock i) tokens acc)

theorem replay_append (hash : Bytes → Nat) (clock : Nat → Time) (i : Nat)
    (rs rs' : List (List Bytes)) (acc : Nat × KeyValueStore) :
    replay hash clock i (rs ++ rs') acc =
      replay hash clock (i + rs.length) rs' (replay hash clock i rs acc) := by
  induction rs generalizing i acc with
  | nil => rfl
  | cons r rs ih =>
    simp only [List.cons_append, replay, List.length_cons, ih]
    rw [Nat.add_right_comm, Nat.add_assoc]

/-- **The loop dispatches what it reads.** -/
theorem loadLoop_eq (lim : Limits) (hash : Bytes → Nat) (clock : Nat → Time) (fuel : Nat)
    (st : IStream) (i replayed : Nat) (store : KeyValueStore) :
    loadLoop lim hash clock fuel st i replayed store =
      (readLog lim fuel st).map fun records =>
        replay hash clock i records (replayed, store) := by
  induction fuel generalizing st i replayed store with
  | zero => rfl
  | succ fuel ih =>
    rw [loadLoop, readLog]
    rcases st.getline with ⟨_ | line, st'⟩
    · rfl
    · simp only
      rcases readRecord lim line st' with ⟨_ | _ | ⟨t, ts⟩, st''⟩
      · exact ih st'' i replayed store
      · rfl
      · simp only [Option.map_map]
        cases hd : dispatch hash (clock i) (t :: ts) store with
        | none => simp only [ih, Function.comp_def, replay, replayRecord, hd]
        | some store' => simp only [ih, Function.comp_def, replay, replayRecord, hd]

/-- Nothing is read from a stream that is used up. -/
@[simp] theorem readLog_nil (lim : Limits) (fuel : Nat) (g : Bool) :
    readLog lim fuel ⟨[], g⟩ = some [] := by
  cases fuel with
  | zero => rfl
  | succ fuel => cases g <;> rfl

/-! ## 2. There is fuel for every line -/

/-- One token, when the tokens after it take nothing but the end of what is left. -/
theorem readTokens_succ_suffix (lim : Limits) {n : Nat}
    (hrest : ∀ (st : IStream) (tokens : List Bytes),
      (readTokens lim n st tokens).2.rest <:+ st.rest) (st : IStream) (tokens : List Bytes) :
    (readTokens lim (n + 1) st tokens).2.rest <:+ st.getline.2.rest := by
  rw [readTokens]
  rcases hget : st.getline with ⟨_ | line, st'⟩
  · exact List.suffix_refl _
  · dsimp only
    split
    · exact List.suffix_refl _
    · split
      · exact List.suffix_refl _
      · rename_i len _
        split
        · exact List.suffix_refl _
        · have hvalue := IStream.read_suffix len st'
          have hend := IStream.read_suffix 2 (st'.read len).2
          exact (hrest _ _).trans (hend.trans hvalue)

theorem readTokens_suffix (lim : Limits) (n : Nat) (st : IStream) (tokens : List Bytes) :
    (readTokens lim n st tokens).2.rest <:+ st.rest := by
  induction n generalizing st tokens with
  | zero => exact List.suffix_refl _
  | succ n ih =>
    exact (readTokens_succ_suffix lim (fun st tokens => ih st tokens) st tokens).trans
      st.getline_suffix

/-- The line of a token is taken in any case. -/
theorem readTokens_suffix_getline (lim : Limits) (n : Nat) (st : IStream)
    (tokens : List Bytes) :
    (readTokens lim (n + 1) st tokens).2.rest <:+ st.getline.2.rest :=
  readTokens_succ_suffix lim (readTokens_suffix lim n) st tokens

theorem readRecord_suffix (lim : Limits) (line : Bytes) (st : IStream) :
    (readRecord lim line st).2.rest <:+ st.rest := by
  unfold readRecord
  split
  · exact List.suffix_refl _
  · split
    · exact List.suffix_refl _
    · rename_i tokenCount _
      split
      · exact List.suffix_refl _
      · exact readTokens_suffix lim tokenCount st []

/-- Every turn of the loop takes a line off the file. -/
theorem readLog_fuel (lim : Limits) {fuel : Nat} {st : IStream} (h : st.rest.length < fuel) :
    readLog lim (fuel + 1) st = readLog lim fuel st := by
  induction fuel generalizing st with
  | zero => exact absurd h (Nat.not_lt_zero _)
  | succ fuel ih =>
    rw [readLog, readLog]
    rcases hline : st.getline with ⟨_ | line, st'⟩
    · rfl
    · have hlt := IStream.getline_length_lt hline
      have hle := (readRecord_suffix lim line st').length_le
      dsimp only
      rcases hrecord : readRecord lim line st' with ⟨record, st''⟩
      rw [hrecord] at hle
      have hrest : st''.rest.length < fuel := by
        have : st''.rest.length ≤ st'.rest.length := hle
        omega
      rcases record with _ | _ | ⟨t, ts⟩
      · exact ih hrest
      · rfl
      · dsimp only
        rw [ih hrest]

/-- **The loop ends before its fuel does**: with more of it the same is read. -/
theorem readLog_enough (lim : Limits) {fuel : Nat} {st : IStream} (h : st.rest.length < fuel) :
    readLog lim fuel st = readLog lim (st.rest.length + 1) st := by
  obtain ⟨more, rfl⟩ := Nat.exists_eq_add_of_lt h
  induction more with
  | zero => rfl
  | succ more ih =>
    rw [← ih (by omega)]
    exact readLog_fuel lim (by omega)

/-! ## 3. Lines of a record -/

@[simp] theorem popCr_append_cr (xs : Bytes) : popCr (xs ++ [cr]) = xs := by
  simp [popCr]

theorem popCr_cons_cr (c : UInt8) (xs : Bytes) : popCr (c :: (xs ++ [cr])) = c :: xs :=
  popCr_append_cr (c :: xs)

/-- A mark and digits: nothing to pop. -/
theorem popCr_digits {c : UInt8} {ds : Bytes} (hc : c ≠ cr) (hds : ∀ d ∈ ds, isDigit d = true) :
    popCr (c :: ds) = c :: ds := by
  unfold popCr
  rw [if_neg]
  intro h
  have hmem : cr ∈ c :: ds := List.mem_of_getLast? h
  rcases List.mem_cons.mp hmem with he | he
  · exact hc he.symm
  · exact absurd (hds cr he) (by decide)

/-- The first line of a block: a mark, a number, the line end. -/
theorem getline_count {c : UInt8} (hc : c ≠ lf) (n : Nat) (rest : Bytes) :
    IStream.getline ⟨c :: dec n ++ crlf ++ rest, true⟩ =
      (some (c :: (dec n ++ [cr])), ⟨rest, true⟩) := by
  have h : (10 : UInt8) ∉ c :: (dec n ++ [cr]) := by
    intro hm
    rcases List.mem_cons.mp hm with he | he
    · exact hc he.symm
    · rcases List.mem_append.mp he with he | he
      · exact lf_notMem_dec n he
      · exact absurd (List.mem_singleton.mp he) (by decide)
  have := IStream.getline_line h rest
  simpa [crlf] using this

/-! ## 4. Whole tokens and records -/

/-- The record can be allocated. -/
structure Limits.Holds (lim : Limits) (tokens : List Bytes) : Prop where
  count : tokens.length ≤ lim.vec
  each : ∀ t ∈ tokens, t.length ≤ lim.str

instance (lim : Limits) (tokens : List Bytes) : Decidable (lim.Holds tokens) :=
  decidable_of_iff (tokens.length ≤ lim.vec ∧ ∀ t ∈ tokens, t.length ≤ lim.str)
    ⟨fun h => ⟨h.1, h.2⟩, fun h => ⟨h.1, h.2⟩⟩

variable {lim : Limits}

@[simp] theorem padTo_self (t : Bytes) : padTo t.length t = t := by simp [padTo]

/-- One whole token is read whole. -/
theorem readTokens_token {t : Bytes} (h : t.length ≤ lim.str) (n : Nat) (rest : Bytes)
    (acc : List Bytes) :
    readTokens lim (n + 1) ⟨encodeToken t ++ rest, true⟩ acc =
      readTokens lim n ⟨rest, true⟩ (acc ++ [t]) := by
  have henc : encodeToken t ++ rest = dollar :: dec t.length ++ crlf ++ (t ++ crlf ++ rest) := by
    simp [encodeToken]
  have hlt : t.length < 2 ^ 64 := by have := lim.str_lt; omega
  have hread : IStream.read t.length ⟨t ++ crlf ++ rest, true⟩ = (t, ⟨crlf ++ rest, true⟩) := by
    rw [List.append_assoc]
    exact IStream.read_append t.length rfl
  have hcrlf : IStream.read 2 ⟨crlf ++ rest, true⟩ = (crlf, ⟨rest, true⟩) :=
    IStream.read_append 2 rfl
  rw [henc, readTokens, getline_count (by decide)]
  simp only [popCr_cons_cr, List.head?_cons, ne_eq, not_true_eq_false, if_false, List.tail_cons,
    stoul_dec hlt, hread, hcrlf, padTo_self]
  rw [if_neg (by omega)]

/-- Whole tokens, one after the other. -/
theorem readTokens_tokens {ts : List Bytes} (h : ∀ t ∈ ts, t.length ≤ lim.str) (n : Nat)
    (rest : Bytes) (acc : List Bytes) :
    readTokens lim (ts.length + n) ⟨ts.flatMap encodeToken ++ rest, true⟩ acc =
      readTokens lim n ⟨rest, true⟩ (acc ++ ts) := by
  induction ts generalizing acc with
  | nil => simp
  | cons t ts ih =>
    have hn : (t :: ts).length + n = ts.length + n + 1 := by simp only [List.length_cons]; omega
    rw [hn, List.flatMap_cons, List.append_assoc, readTokens_token (h t List.mem_cons_self),
      ih (fun u hu => h u (List.mem_cons_of_mem t hu))]
    simp

/-- **Reading a record undoes writing it.** -/
theorem readRecord_encode {tokens : List Bytes} (h : lim.Holds tokens) (rest : Bytes) :
    readRecord lim (star :: (dec tokens.length ++ [cr]))
        ⟨tokens.flatMap encodeToken ++ rest, true⟩ = (some tokens, ⟨rest, true⟩) := by
  have hlt : tokens.length < 2 ^ 64 := by have := lim.vec_lt; have := h.count; omega
  have hread := readTokens_tokens h.each 0 rest []
  simp only [Nat.add_zero, readTokens, List.nil_append] at hread
  unfold readRecord
  simp only [popCr_cons_cr, List.head?_cons, ne_eq, not_true_eq_false, if_false, List.tail_cons,
    stoul_dec hlt, hread]
  rw [if_neg (by have := h.count; omega)]
  simp

/-! ## 5. Whole logs -/

/-- The whole records at the front of a log are read first. -/
theorem readLog_append {records : List (List Bytes)} (hne : ∀ r ∈ records, r ≠ [])
    (h : ∀ r ∈ records, lim.Holds r) (rest : Bytes) (fuel : Nat) :
    readLog lim (records.length + fuel) ⟨encodeLog records ++ rest, true⟩ =
      (readLog lim fuel ⟨rest, true⟩).map fun tail => records ++ tail := by
  induction records with
  | nil => simp [encodeLog]
  | cons r rs ih =>
    obtain ⟨t, ts, rfl⟩ := List.exists_cons_of_ne_nil (hne r List.mem_cons_self)
    have hih := ih (fun r' hr => hne r' (List.mem_cons_of_mem _ hr))
      (fun r' hr => h r' (List.mem_cons_of_mem _ hr))
    have hn : ((t :: ts) :: rs).length + fuel = rs.length + fuel + 1 := by
      simp only [List.length_cons]; omega
    have henc : encodeLog ((t :: ts) :: rs) ++ rest =
        star :: dec (t :: ts).length ++ crlf ++
          ((t :: ts).flatMap encodeToken ++ (encodeLog rs ++ rest)) := by
      simp [encodeLog, encodeRecord]
    rw [hn, henc, readLog, getline_count (by decide)]
    simp only [readRecord_encode (h _ List.mem_cons_self), hih, Option.map_map]
    rfl

theorem length_encodeRecord_pos (tokens : List Bytes) : 0 < (encodeRecord tokens).length := by
  simp [encodeRecord]

/-- There is fuel for every record. -/
theorem length_le_encodeLog (records : List (List Bytes)) :
    records.length ≤ (encodeLog records).length := by
  induction records with
  | nil => exact Nat.le_refl _
  | cons r rs ih =>
    have := length_encodeRecord_pos r
    simp only [encodeLog, List.flatMap_cons, List.length_append, List.length_cons] at ih ⊢
    omega

theorem length_le_encodeRecord (tokens : List Bytes) :
    tokens.length ≤ (encodeRecord tokens).length ∧
      ∀ t ∈ tokens, t.length ≤ (encodeRecord tokens).length := by
  have htoken : ∀ t : Bytes, t.length + 1 ≤ (encodeToken t).length := by
    intro t
    simp only [encodeToken, List.length_append, List.length_cons]
    omega
  suffices h : tokens.length ≤ (tokens.flatMap encodeToken).length ∧
      ∀ t ∈ tokens, t.length ≤ (tokens.flatMap encodeToken).length by
    simp only [encodeRecord, List.length_append, List.length_cons]
    refine ⟨by omega, ?_⟩
    intro t ht
    have := h.2 t ht
    omega
  induction tokens with
  | nil => simp
  | cons t ts ih =>
    have ht := htoken t
    simp only [List.flatMap_cons, List.length_append, List.length_cons]
    refine ⟨by omega, ?_⟩
    intro u hu
    rcases List.mem_cons.mp hu with rfl | hu
    · omega
    · have := ih.2 u hu
      omega

/-- The records of a log that is short enough can be allocated. -/
theorem holds_of_length {records : List (List Bytes)}
    (hvec : (encodeLog records).length ≤ lim.vec) (hstr : (encodeLog records).length ≤ lim.str) :
    ∀ r ∈ records, lim.Holds r := by
  intro r hr
  obtain ⟨hcount, heach⟩ := length_le_encodeRecord r
  have hle : (encodeRecord r).length ≤ (encodeLog records).length :=
    (List.sublist_flatten_of_mem (List.mem_map.mpr ⟨r, hr, rfl⟩)).length_le
  refine ⟨by omega, ?_⟩
  intro t ht
  have := heach t ht
  omega

/-- **Reading a log undoes writing it.** -/
theorem readLog_encodeLog {records : List (List Bytes)} (hne : ∀ r ∈ records, r ≠ [])
    (h : ∀ r ∈ records, lim.Holds r) :
    readLog lim ((encodeLog records).length + 1) ⟨encodeLog records, true⟩ = some records := by
  have hfuel : (encodeLog records).length + 1 =
      records.length + ((encodeLog records).length + 1 - records.length) := by
    have := length_le_encodeLog records
    omega
  have := readLog_append hne h [] ((encodeLog records).length + 1 - records.length)
  rw [hfuel]
  simpa using this

/-- The load of a file is the replay of what was read. -/
theorem loadIntoStore_eq (lim : Limits) (hash : Bytes → Nat) (clock : Nat → Time)
    {aof : AofManager} {file : Bytes} (hen : aof.enabled = true) (hlog : aof.disk.log = some file)
    (store : KeyValueStore) :
    aof.loadIntoStore lim hash clock store =
      (readLog lim (file.length + 1) ⟨file, true⟩).map fun records =>
        replay hash clock 0 records (0, store) := by
  simp [AofManager.loadIntoStore, hen, hlog, loadLoop_eq]

end KeyValueDb
