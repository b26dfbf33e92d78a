/-
# Where a crash may cut the log

Only some bytes of a record may be the last ones that arrive.  Up to the mark of its last
token the loader skips the piece (`SkippedCut`).  Behind the digits of that token's length,
with no byte of its value missing but zeros, what the loader makes of the piece is the record
itself (`PaddedCut`).  Anywhere else it dispatches a vector that nobody appended
(`dispatched_take_iff`).

At a safe byte the log loads as whole records do (`load_take_safe`).  The converse holds
wherever the record that was cut is one whose last token is stored (`landing`) and the log
holds no zero bytes; in general it does not, because the loader may ignore the vector it made
up, or be led back by it to contents it had before.
-/
import KeyValueDb.Aof.Calls
import KeyValueDb.Aof.Dispatched
import KeyValueDb.Aof.Torn

namespace KeyValueDb

open Lib Function

/-! ## 1. The bytes of a record -/

/-- The bytes of a record in front of its last token. -/
def beforeLast (tokens : List Bytes) : Nat :=
  (dec tokens.length).length + 3 + (tokens.dropLast.flatMap encodeToken).length

/-- The first `m` bytes of a record end at the latest with the mark of its last token. -/
def SkippedCut (tokens : List Bytes) (m : Nat) : Prop := m ≤ beforeLast tokens + 1

/-- The first `m` bytes of a token hold the digits of its length, and of its value all bytes
but zeros. -/
def PaddedToken (token : Bytes) (m : Nat) : Prop :=
  1 + (dec token.length).length ≤ m ∧
    ∀ b ∈ token.drop (m - ((dec token.length).length + 3)), b = 0

/-- They hold so much of the last token of the record. -/
def PaddedCut (tokens : List Bytes) (m : Nat) : Prop :=
  PaddedToken (tokens.getLastD []) (m - beforeLast tokens)

/-- The record that the cut goes through, if it goes through one, is cut where it may be. -/
def SafeCut (records : List (List Bytes)) (n : Nat) : Prop :=
  let cut := wholeFrames encodeRecord records n
  ∀ tokens ∈ records[cut.1]?, SkippedCut tokens cut.2 ∨ PaddedCut tokens cut.2

instance : DecidableRel SkippedCut := fun _ _ => inferInstanceAs (Decidable (_ ≤ _))

instance : DecidableRel PaddedToken := fun token m =>
  have := List.decidableBAll (· = 0) (token.drop (m - ((dec token.length).length + 3)))
  inferInstanceAs (Decidable (_ ∧ _))

instance : DecidableRel PaddedCut := fun _ _ => inferInstanceAs (Decidable (PaddedToken _ _))

instance : DecidableRel SafeCut := fun records n =>
  inferInstanceAs (Decidable (∀ tokens ∈ records[(wholeFrames encodeRecord records n).1]?, _))

/-! ## 2. What is made of a piece -/

theorem padTo_take_eq_iff {t : Bytes} {k : Nat} :
    padTo t.length (t.take k) = t ↔ ∀ b ∈ t.drop k, b = 0 := by
  have hlen : t.length - (t.take k).length = (t.drop k).length := by
    rw [List.length_take, List.length_drop]
    omega
  have hsplit : padTo t.length (t.take k) = t ↔
      t.take k ++ List.replicate (t.drop k).length 0 = t.take k ++ t.drop k := by
    rw [padTo, hlen, List.take_append_drop]
  rw [hsplit, List.append_right_inj, eq_comm, List.eq_replicate_iff]
  exact and_iff_right rfl

theorem tornToken_eq_none_iff {t : Bytes} {m : Nat} : tornToken t m = none ↔ m < 2 := by
  unfold tornToken
  split
  · rename_i h
    exact iff_of_true rfl h
  · rename_i h
    split <;> exact iff_of_false (by simp) h

/-- The token comes out as it was when its digits arrived and all its bytes but zeros. -/
theorem tornToken_eq_self_iff {t : Bytes} {m : Nat} :
    tornToken t m = some t ↔ PaddedToken t m := by
  have hdigits := dec_length_pos t.length
  unfold tornToken PaddedToken
  split
  · exact iff_of_false (by simp) fun h => by omega
  · split
    · rename_i hm hcut
      -- fewer digits, a shorter token
      refine iff_of_false (fun h => ?_) fun h => by omega
      have hlen := congrArg List.length (Option.some.inj h)
      have hlt := ofDec_take_dec_lt (n := t.length) (i := m - 1) (by omega) (by omega)
      rw [padTo, List.length_append, List.length_replicate, List.length_nil] at hlen
      omega
    · rename_i hm hcut
      rw [Option.some.injEq, padTo_take_eq_iff]
      exact (and_iff_right (by omega)).symm

/-- A record that is not empty, as its last token and those in front of it. -/
theorem exists_last {tokens : List Bytes} (hne : tokens ≠ []) :
    ∃ init last, tokens = init ++ [last] :=
  ⟨tokens.dropLast, tokens.getLast hne, (List.dropLast_append_getLast hne).symm⟩

section Last

variable {init : List Bytes} {last : Bytes} {m : Nat}

theorem length_encodeRecord_last (init : List Bytes) (last : Bytes) :
    (encodeRecord (init ++ [last])).length =
      beforeLast (init ++ [last]) + (encodeToken last).length := by
  have hflat : ((init ++ [last]).flatMap encodeToken).length =
      (init.flatMap encodeToken).length + (encodeToken last).length := by
    rw [List.flatMap_append, List.length_append, List.flatMap_singleton]
  rw [length_encodeRecord, beforeLast, List.dropLast_concat, hflat]
  omega

/-- **A piece of a record** makes a record when it reaches into the last token. -/
theorem tornRecord_last (hm : m < (encodeRecord (init ++ [last])).length) :
    tornRecord (init ++ [last]) m =
      if m < beforeLast (init ++ [last]) then none
      else (tornToken last (m - beforeLast (init ++ [last]))).map fun token => init ++ [token] := by
  have hlen := length_encodeRecord_last init last
  set line := (dec (init ++ [last]).length).length + 3 with hline
  have hbefore : beforeLast (init ++ [last]) = line + (init.flatMap encodeToken).length := by
    rw [beforeLast, List.dropLast_concat]
  unfold tornRecord
  rw [← hline]
  split
  · rw [if_pos (by omega)]
  · rename_i hbody
    dsimp only
    rcases Nat.lt_or_ge (m - line) (init.flatMap encodeToken).length with hearly | hlast
    · -- the cut goes through an earlier token
      have hfst := wholeFrames_fst_lt hearly
      rw [wholeFrames_append_of_lt encodeToken [last] hearly, if_neg, if_pos (by omega)]
      rw [List.length_append, List.length_singleton]
      omega
    · obtain ⟨k, hk⟩ : ∃ k, m - line = k + (init.flatMap encodeToken).length :=
        ⟨m - line - (init.flatMap encodeToken).length, by omega⟩
      have hcut : wholeFrames encodeToken [last] k = (0, k) := by
        rw [wholeFrames, if_neg (by omega)]
      rw [hk, wholeFrames_append, hcut, if_pos (by simp), if_neg (by omega),
        show m - beforeLast (init ++ [last]) = k by omega]
      simp

theorem tornRecord_eq_none_iff (hm : m < (encodeRecord (init ++ [last])).length) :
    tornRecord (init ++ [last]) m = none ↔ SkippedCut (init ++ [last]) m := by
  rw [tornRecord_last hm, SkippedCut]
  split
  · rename_i h
    exact iff_of_true rfl (by omega)
  · rw [Option.map_eq_none_iff, tornToken_eq_none_iff]
    omega

theorem tornRecord_eq_self_iff (hm : m < (encodeRecord (init ++ [last])).length) :
    tornRecord (init ++ [last]) m = some (init ++ [last]) ↔ PaddedCut (init ++ [last]) m := by
  rw [tornRecord_last hm, PaddedCut, List.getLastD_concat, ← tornToken_eq_self_iff]
  split
  · rename_i hbefore
    refine iff_of_false (by simp) fun h => ?_
    rw [Nat.sub_eq_zero_of_le (Nat.le_of_lt hbefore)] at h
    exact absurd h (by simp [tornToken])
  · simp

end Last

/-! ## 3. What is dispatched -/

variable {records : List (List Bytes)} {n : Nat} {lim : Limits} {hash : Bytes → Nat}
  {clock : Nat → Time} {σ : Type}

theorem wholeRecords_append_getElem {tokens : List Bytes}
    (hget : records[(wholeFrames encodeRecord records n).1]? = some tokens) :
    wholeRecords records n ++ [tokens] =
      records.take ((wholeFrames encodeRecord records n).1 + 1) := by
  rw [List.take_add_one, hget]
  rfl

/-- **What the loader makes of the piece is the record that was cut** at a safe byte, and only
there. -/
theorem safeCut_iff (hne : ∀ r ∈ records, r ≠ []) :
    SafeCut records n ↔ ∀ torn ∈ tornTail records n,
      records[(wholeFrames encodeRecord records n).1]? = some torn := by
  unfold SafeCut tornTail
  dsimp only
  rcases hget : records[(wholeFrames encodeRecord records n).1]? with _ | tokens
  · simp
  · obtain ⟨init, last, rfl⟩ := exists_last (hne _ (List.mem_of_getElem? hget))
    have hlt := wholeFrames_snd_lt hget
    rw [Option.bind_some]
    simp only [Option.mem_some_iff, forall_eq', ← tornRecord_eq_none_iff hlt,
      ← tornRecord_eq_self_iff hlt]
    cases tornRecord (init ++ [last]) (wholeFrames encodeRecord records n).2 with
    | none => simp
    | some torn => simp [eq_comm]

/-- **What is dispatched is some of the records, whole and in order,** exactly when the cut is
safe. -/
theorem wholeRecords_append_tornTail_iff (hne : ∀ r ∈ records, r ≠ []) :
    wholeRecords records n ++ (tornTail records n).toList <+: records ↔ SafeCut records n := by
  rw [safeCut_iff hne]
  have hwhole : wholeRecords records n <+: records := List.take_prefix _ _
  cases htorn : tornTail records n with
  | none => simpa using hwhole
  | some torn =>
    have hlen : (wholeRecords records n).length = (wholeFrames encodeRecord records n).1 := by
      obtain ⟨tokens, hget, -⟩ := Option.bind_eq_some_iff.mp htorn
      have hlt := (List.getElem?_eq_some_iff.mp hget).1
      rw [wholeRecords, List.length_take]
      omega
    simp only [Option.toList_some, Option.mem_some_iff, forall_eq']
    constructor
    · intro hprefix
      rw [← hlen, List.prefix_iff_getElem?.mp hprefix _ (by simp), Option.some.injEq]
      exact List.getElem_concat_length rfl _
    · intro hget
      rw [wholeRecords_append_getElem hget]
      exact List.take_prefix _ _

/-- **What reaches the dispatch from a cut log**: some of the records, whole and in order,
exactly when the cut is safe. -/
theorem dispatched_take_iff (disp : Dispatcher σ) (s : σ) (hne : ∀ r ∈ records, r ≠ [])
    (h : ∀ r ∈ records, lim.Holds r) (n : Nat) :
    ∃ load, (AofManager.openOn ((encodeLog records).take n)).loadWith lim disp s = some load ∧
      (load.dispatched <+: records ↔ SafeCut records n) := by
  rw [loadWith_eq lim disp rfl rfl s, readLog_take hne h n, Option.map_some]
  refine ⟨_, rfl, ?_⟩
  rw [dispatched_foldl, Load.start, List.nil_append]
  exact wholeRecords_append_tornTail_iff hne

/-- The file loads into an empty store as some of the records do, whole and in order. -/
def LoadsAsPrefix (lim : Limits) (hash : Bytes → Nat) (clock : Nat → Time)
    (records : List (List Bytes)) (file : Bytes) : Prop :=
  ∃ i count store,
    (AofManager.openOn file).loadIntoStore lim hash clock .empty = some (count, store) ∧
      (store.view hash).contents =
        ((replay hash clock 0 (records.take i) (0, .empty)).2.view hash).contents

/-- At a safe byte the log loads as some of its records do. -/
theorem SafeCut.loadsAsPrefix (hcut : SafeCut records n) (hne : ∀ r ∈ records, r ≠ [])
    (h : ∀ r ∈ records, lim.Holds r) :
    LoadsAsPrefix lim hash clock records ((encodeLog records).take n) := by
  have hprefix := (wholeRecords_append_tornTail_iff hne).mpr hcut
  refine ⟨(wholeRecords records n ++ (tornTail records n).toList).length, _, _,
    load_take hash clock hne h n .empty, ?_⟩
  rw [← List.prefix_iff_eq_take.mp hprefix]

/-! ## 4. Where the last token of a record goes -/

/-- A place in the contents to which a record writes its last token. -/
inductive Landing
  | string (key : Bytes)
  | field (key name : Bytes)
  | front (key : Bytes)
  | back (key : Bytes)

/-- What is there. -/
def Landing.text (C : Contents (Bytes × Option Time)) : Landing → Option Bytes
  | .string key => (C.strings key).map Prod.fst
  | .field key name => (C.hashes key).bind fun fields => fields name
  | .front key => (C.lists key).bind List.head?
  | .back key => (C.lists key).bind List.getLast?

/-- Where the loader writes the token that comes behind `init`, when it is the last one and is
stored at all. -/
def landing (init : List Bytes) : Option Landing :=
  match init with
  | [] => none
  | cmd :: args =>
    match Verb.ofWord cmd, args with
    | some (.store .set), [key] => some (.string key)
    | some (.store .hset), [key, field] => some (.field key field)
    | some (.store .lpush), key :: _ => some (.front key)
    | some (.store .rpush), key :: _ => some (.back key)
    | _, _ => none

theorem lists_lpushAll_concat (key token : Bytes) (items : List Bytes) (F : FlatStore) :
    (F.lpushAll key (items ++ [token])).lists key =
      some (token :: (F.lpushAll key items).elemsOf key) := by
  rw [FlatStore.lpushAll, List.foldl_concat]
  simp [FlatStore.lpush, FlatStore.putList, FlatStore.putListAt, FlatStore.lpushAll]

theorem lists_rpushAll_concat (key token : Bytes) (items : List Bytes) (F : FlatStore) :
    (F.rpushAll key (items ++ [token])).lists key =
      some ((F.rpushAll key items).elemsOf key ++ [token]) := by
  rw [FlatStore.rpushAll, List.foldl_concat]
  simp [FlatStore.rpush, FlatStore.putList, FlatStore.putListAt, FlatStore.rpushAll]

/-- **The last token of a record is in the store.** -/
theorem landing_dispatch {init : List Bytes} {place : Landing} (h : landing init = some place)
    (now : Time) (token : Bytes) (F : FlatStore) :
    place.text (F.dispatch now (init ++ [token])).contents = some token := by
  unfold landing at h
  split at h
  · exact absurd h (by simp)
  · rename_i cmd args
    split at h
    · rename_i key hcmd
      obtain rfl := Option.some.inj h
      simp [FlatStore.dispatch, hcmd, Landing.text, FlatStore.contents, FlatStore.set,
        FlatStore.putString]
    · rename_i key field hcmd
      obtain rfl := Option.some.inj h
      simp [FlatStore.dispatch, hcmd, Landing.text, FlatStore.contents, FlatStore.hset,
        FlatStore.putHash]
    · rename_i key items hcmd
      obtain rfl := Option.some.inj h
      have hpush : F.dispatch now (cmd :: key :: items ++ [token]) =
          F.lpushAll key (items ++ [token]) := by
        cases items <;> simp [FlatStore.dispatch, hcmd]
      change ((F.dispatch now (cmd :: key :: items ++ [token])).lists key).bind List.head? = _
      rw [hpush, lists_lpushAll_concat, Option.bind_some, List.head?_cons]
    · rename_i key items hcmd
      obtain rfl := Option.some.inj h
      have hpush : F.dispatch now (cmd :: key :: items ++ [token]) =
          F.rpushAll key (items ++ [token]) := by
        cases items <;> simp [FlatStore.dispatch, hcmd]
      change ((F.dispatch now (cmd :: key :: items ++ [token])).lists key).bind List.getLast? = _
      rw [hpush, lists_rpushAll_concat, Option.bind_some, List.getLast?_concat]
    · exact absurd h (by simp)

/-- What lies in such a place is one of the texts of the store. -/
theorem Landing.text_of_allTexts {P : Bytes → Prop} {F : FlatStore} (hF : F.AllTexts P)
    {place : Landing} {token : Bytes} (h : place.text F.contents = some token) : P token := by
  cases place with
  | string key =>
    obtain ⟨x, hx, rfl⟩ := Option.map_eq_some_iff.mp h
    obtain ⟨e, he, rfl⟩ := Option.map_eq_some_iff.mp hx
    exact (hF.strings key e he).2
  | field key name =>
    obtain ⟨fields, hfields, hname⟩ := Option.bind_eq_some_iff.mp h
    exact ((hF.hashes key fields hfields).2 name token hname).2
  | front key =>
    obtain ⟨items, hitems, hhead⟩ := Option.bind_eq_some_iff.mp h
    exact (hF.lists key items hitems).2 token (List.mem_of_mem_head? hhead)
  | back key =>
    obtain ⟨items, hitems, hlast⟩ := Option.bind_eq_some_iff.mp h
    exact (hF.lists key items hitems).2 token (List.mem_of_getLast? hlast)

/-! ## 5. When a crash invents no data -/

/-- No text of the log holds a zero byte. -/
def ZeroFree (records : List (List Bytes)) : Prop := ∀ r ∈ records, ∀ t ∈ r, (0 : UInt8) ∉ t

instance : DecidablePred ZeroFree := fun _ => inferInstanceAs (Decidable (∀ _ ∈ _, _))

theorem zero_notMem_stdToString (v : Int) : (0 : UInt8) ∉ stdToString v := by
  intro hmem
  have hdigit : (0 : UInt8) ∉ dec v.natAbs := fun h =>
    absurd (isDigit_of_mem_dec _ 0 h) (by decide)
  unfold stdToString at hmem
  split at hmem
  · rcases List.mem_cons.mp hmem with h | h
    · exact absurd h (by decide)
    · exact hdigit h
  · exact hdigit hmem

theorem zero_mem_padTo {len : Nat} {arrived : Bytes} (h : arrived.length < len) :
    (0 : UInt8) ∈ padTo len arrived := by
  rw [padTo, List.mem_append, List.mem_replicate]
  exact Or.inr ⟨by omega, rfl⟩

/-- A token that does not come out of a piece as it was has been padded. -/
theorem zero_mem_of_tornToken {t torn : Bytes} {m : Nat} (h : tornToken t m = some torn)
    (hne : torn ≠ t) : (0 : UInt8) ∈ torn := by
  unfold tornToken at h
  split at h
  · exact absurd h (by simp)
  · split at h
    · rename_i hm hcut
      obtain rfl := Option.some.inj h
      -- two digits at least, so the number is not zero
      have hlt := ofDec_take_dec_lt (n := t.length) (i := m - 1) (by omega) (by omega)
      exact zero_mem_padTo (ofDec_take_dec_pos (Nat.zero_lt_of_lt hlt) (by omega))
    · obtain rfl := Option.some.inj h
      refine zero_mem_padTo ?_
      rw [List.length_take]
      by_contra hlen
      refine hne ?_
      rw [List.take_of_length_le (by omega), padTo_self]

/-- The record that was cut writes its last token to the store. -/
def StoresTail (records : List (List Bytes)) (n : Nat) : Prop :=
  ∀ tokens ∈ records[(wholeFrames encodeRecord records n).1]?,
    (landing tokens.dropLast).isSome = true

instance : DecidableRel StoresTail := fun records n =>
  inferInstanceAs (Decidable (∀ tokens ∈ records[(wholeFrames encodeRecord records n).1]?, _))

/-- What is made of a piece is the record up to its last token, and that token. -/
theorem tornRecord_eq_append {init : List Bytes} {last : Bytes} {m : Nat} {torn : List Bytes}
    (hm : m < (encodeRecord (init ++ [last])).length)
    (h : tornRecord (init ++ [last]) m = some torn) :
    ∃ token k, tornToken last k = some token ∧ torn = init ++ [token] := by
  rw [tornRecord_last hm] at h
  split at h
  · exact absurd h (by simp)
  · obtain ⟨token, htoken, rfl⟩ := Option.map_eq_some_iff.mp h
    exact ⟨token, _, htoken, rfl⟩

/-- **A made-up text shows.**  In a log without zero bytes, a vector that was made up of a
record whose last token is stored leaves contents that no number of whole records leaves. -/
theorem not_loadsAsPrefix (hzero : ZeroFree records) (hstores : StoresTail records n)
    (hcut : ¬ SafeCut records n) (hne : ∀ r ∈ records, r ≠ []) (h : ∀ r ∈ records, lim.Holds r) :
    ¬ LoadsAsPrefix lim hash clock records ((encodeLog records).take n) := by
  rw [safeCut_iff hne] at hcut
  push Not at hcut
  obtain ⟨torn, htorn, hmade⟩ := hcut
  obtain ⟨tokens, hget, hrecord⟩ := Option.bind_eq_some_iff.mp htorn
  obtain ⟨init, last, rfl⟩ := exists_last (hne _ (List.mem_of_getElem? hget))
  obtain ⟨token, k, htoken, rfl⟩ := tornRecord_eq_append (wholeFrames_snd_lt hget) hrecord
  -- the last token was padded
  have hpadded : (0 : UInt8) ∈ token := by
    refine zero_mem_of_tornToken htoken fun hsame => hmade ?_
    rw [hsame]
    exact hget
  obtain ⟨place, hplace⟩ := Option.isSome_iff_exists.mp (hstores _ hget)
  rw [List.dropLast_concat] at hplace
  rintro ⟨i, count, store, hload, hcontents⟩
  rw [load_take hash clock hne h n, Option.some.injEq] at hload
  have hstore := congrArg (fun r => (r.2.view hash).contents) hload
  simp only [view_replay, view_empty, Option.mem_def.mp htorn, Option.toList_some,
    FlatStore.replay_append] at hstore hcontents
  -- it is in the store, where whole records never put it
  have hthere := landing_dispatch hplace (clock (0 + (wholeRecords records n).length)) token
    (FlatStore.empty.replay clock 0 (wholeRecords records n))
  rw [show FlatStore.dispatch _ _ _ = FlatStore.replay clock _ [init ++ [token]] _ from rfl,
    hstore, hcontents] at hthere
  have htexts : (FlatStore.empty.replay clock 0 (records.take i)).AllTexts
      fun t => (0 : UInt8) ∉ t :=
    (FlatStore.allTexts_empty _).replay zero_notMem_stdToString
      (fun r hr => hzero r (List.mem_of_mem_take hr)) clock 0
  exact Landing.text_of_allTexts htexts hthere hpadded

/-- **When a crash in the middle of an append invents no data**: when the last byte that arrived
is a safe one.  Everywhere else a vector reaches the dispatch that nobody appended; and where
the log holds no zero bytes and the record that was cut is one whose last token is stored, it
shows. -/
theorem load_take_safe (hne : ∀ r ∈ records, r ≠ []) (h : ∀ r ∈ records, lim.Holds r) (n : Nat) :
    (SafeCut records n →
        LoadsAsPrefix lim hash clock records ((encodeLog records).take n)) ∧
      (∃ load, (AofManager.openOn ((encodeLog records).take n)).loadWith lim
          (storeDispatch hash clock) .empty = some load ∧
        (load.dispatched <+: records ↔ SafeCut records n)) ∧
      (ZeroFree records → StoresTail records n →
        LoadsAsPrefix lim hash clock records ((encodeLog records).take n) →
          SafeCut records n) := by
  refine ⟨fun hcut => hcut.loadsAsPrefix hne h, dispatched_take_iff _ _ hne h n, ?_⟩
  intro hzero hstores hload
  by_contra hcut
  exact not_loadsAsPrefix hzero hstores hcut hne h hload

/-- Only the line end of the second record is missing. -/
theorem load_take_safe_lineEnd :
    LoadsAsPrefix ⟨8, 8, by decide, by decide⟩ List.length (fun _ => 0)
      [[bytes "FLUSHDB"], [bytes "SET", bytes "k", bytes "abc"]]
      ((encodeLog [[bytes "FLUSHDB"], [bytes "SET", bytes "k", bytes "abc"]]).take 44) :=
  (load_take_safe (by decide) (by decide) 44).1 (by decide)

/-- The last token has to be stored for the converse: a `DEL` cut in front of its key removes a key
that is not there. -/
theorem loadsAsPrefix_by_accident :
    ¬ SafeCut [[bytes "DEL", bytes "k"]] 17 ∧
      LoadsAsPrefix ⟨8, 8, by decide, by decide⟩ List.length (fun _ => 0)
        [[bytes "DEL", bytes "k"]] ((encodeLog [[bytes "DEL", bytes "k"]]).take 17) := by
  have hread : wholeRecords [[bytes "DEL", bytes "k"]] 17 ++
      (tornTail [[bytes "DEL", bytes "k"]] 17).toList = [[bytes "DEL", [0]]] := by decide
  have herased : FlatStore.empty.replay (fun _ => 0) 0 [[bytes "DEL", [0]]] =
      FlatStore.empty.erase [0] := rfl
  let load := replay List.length (fun _ => 0) 0 [[bytes "DEL", [0]]] (0, .empty)
  refine ⟨by decide, 0, load.1, load.2, ?_, ?_⟩
  · rw [load_take _ _ (by decide) (by decide) 17, hread]
  · rw [view_replay, view_replay, view_empty, herased]
    simp [FlatStore.erase, FlatStore.empty]

/-- The value of a `SET` cut after its first byte: the loader stores it padded with zeros,
which no record ever wrote. -/
theorem not_loadsAsPrefix_of_cut :
    ¬ ∀ (lim : Limits) (hash : Bytes → Nat) (clock : Nat → Time) (records : List (List Bytes))
        (n : Nat), (∀ r ∈ records, r ≠ []) → (∀ r ∈ records, lim.Holds r) →
        LoadsAsPrefix lim hash clock records ((encodeLog records).take n) := by
  intro hall
  obtain ⟨i, count, store, hload, hc⟩ := hall ⟨8, 8, by decide, by decide⟩ List.length
    (fun _ => 0) [[bytes "SET", bytes "k", bytes "abc"]] 25 (by decide) (by decide)
  rw [load_take _ _ (by decide) (by decide) 25, Option.some.injEq] at hload
  have hread : wholeRecords [[bytes "SET", bytes "k", bytes "abc"]] 25 ++
      (tornTail [[bytes "SET", bytes "k", bytes "abc"]] 25).toList =
        [[bytes "SET", bytes "k", [97, 0, 0]]] := by decide
  have hv := congrFun (congrArg Contents.strings hc) (bytes "k")
  rw [show store = (count, store).2 from rfl, ← hload, hread, view_replay, view_replay] at hv
  have hpadded : ((FlatStore.empty.replay (fun _ => 0) 0
      [[bytes "SET", bytes "k", [97, 0, 0]]]).contents.strings (bytes "k")) =
        some ([97, 0, 0], none) := rfl
  rw [view_empty, hpadded] at hv
  cases i with
  | zero => exact absurd hv (by simp [FlatStore.contents, FlatStore.empty])
  | succ i =>
    have hwhole : ((FlatStore.empty.replay (fun _ => 0) 0
        [[bytes "SET", bytes "k", bytes "abc"]]).contents.strings (bytes "k")) =
          some (bytes "abc", none) := rfl
    rw [List.take_succ_cons, List.take_nil, hwhole] at hv
    exact absurd hv (by decide)

end KeyValueDb
