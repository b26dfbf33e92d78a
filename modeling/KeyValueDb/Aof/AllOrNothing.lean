/-
# When compaction is all-or-nothing

Stop `rewrite` anywhere, under any outcomes of its steps: what is then on the disk is one of
three things (`fate`): the previous log, what was written of the image, or no log.  The last
two are not always what the caller was promised: a short write is not noticed, and the
fallback leaves a moment without a log.

Nothing is lost when the log is kept, when the file that replaced it was written out
(`WrittenOut`), or when there was nothing to lose (`NothingLost`).  Otherwise the promise is
kept only by accident: before `rewrite` returns, what is on the disk may happen to load as the
previous log did (`allOrNothing_of_nothingLost`).
-/
import KeyValueDb.Aof.Minimal
import KeyValueDb.Aof.SafeCut

namespace KeyValueDb

open Lib

variable {hash : Bytes → Nat} {lim : Limits} {clock : Nat → Time}

/-! ## 1. What becomes of the log -/

/-- What became of the log. -/
inductive Fate
  | kept | replaced | lost
  deriving DecidableEq

/-- What the outcomes make of the log within `n` steps. -/
def fate (enabled : Bool) (io : RewriteIo) (n : Nat) : Fate :=
  if enabled = false ∨ io.opens = false ∨ n < 3 then .kept
  else if io.renames then .replaced
  else if 5 ≤ n ∧ io.renamesAgain then .replaced
  else if 4 ≤ n ∧ io.removes then .lost
  else .kept

/-- The log is in place again and `rewrite` has returned. -/
def finished (io : RewriteIo) (n : Nat) : Bool := if io.renames then 4 ≤ n else 6 ≤ n

/-- Creating an empty log where there is none changes nothing that is loaded. -/
theorem loaded_create (log : Option Bytes) :
    loaded lim hash clock (some (log.getD [])) = loaded lim hash clock log := by
  cases log <;> rfl

theorem loaded_nil : loaded lim hash clock (some []) = loaded lim hash clock none := rfl

theorem loaded_none : loaded lim hash clock none = some FlatStore.empty.contents := rfl

/-- **The three fates.** -/
theorem loaded_run (lim : Limits) (hash : Bytes → Nat) (clock : Nat → Time) (io : RewriteIo)
    (image : Bytes) (n : Nat) (aof : AofManager) :
    loaded lim hash clock (RewriteState.run io image n (.start aof)).aof.disk.log =
      match fate aof.enabled io n with
      | .kept => loaded lim hash clock aof.disk.log
      | .replaced => loaded lim hash clock (some (io.write image))
      | .lost => loaded lim hash clock none := by
  obtain ⟨enabled, isOpen, log, tmp⟩ := aof
  cases enabled
  · rw [RewriteState.start, if_neg (by simp), RewriteState.run_done]
    rfl
  obtain ⟨opens, written, renames, removes, renamesAgain, reopens⟩ := io
  cases opens
  · rcases n with _ | n
    · rfl
    · change loaded lim hash clock (RewriteState.run _ _ n ⟨.done false, _⟩).aof.disk.log = _
      rw [RewriteState.run_done]
      simp only [fate, or_true, true_or, if_true]
      rfl
  -- only the reopening changes the log without changing what it loads as
  rcases Nat.lt_or_ge n 6 with hn | hn
  · cases renames <;> cases removes <;> cases renamesAgain <;> cases reopens <;>
      interval_cases n <;> rfl
  · obtain ⟨n, rfl⟩ : ∃ m, n = m + 6 := ⟨n - 6, by omega⟩
    have h3 : ¬ n + 6 < 3 := by omega
    have h4 : 4 ≤ n + 6 := by omega
    have h5 : 5 ≤ n + 6 := by omega
    rw [RewriteState.run_eq_rewrite]
    cases renames <;> cases removes <;> cases renamesAgain <;> cases reopens <;>
      simp [fate, AofManager.rewriteTo, Disk.rename, Disk.remove, Disk.create, loaded_create,
        loaded_nil, RewriteIo.write, h3, h4, h5]

/-- When `rewrite` has returned true. -/
theorem run_done_true_iff (io : RewriteIo) (image : Bytes) (n : Nat) (aof : AofManager) :
    (RewriteState.run io image n (.start aof)).pc = .done true ↔
      fate aof.enabled io n = .replaced ∧ finished io n = true := by
  obtain ⟨enabled, isOpen, log, tmp⟩ := aof
  cases enabled
  · rw [RewriteState.start, if_neg (by simp), RewriteState.run_done]
    simp [fate]
  obtain ⟨opens, written, renames, removes, renamesAgain, reopens⟩ := io
  cases opens
  · rcases n with _ | n
    · simp [RewriteState.run, RewriteState.start, fate]
    · change (RewriteState.run _ _ n ⟨.done false, _⟩).pc = _ ↔ _
      rw [RewriteState.run_done]
      simp [fate]
  rcases Nat.lt_or_ge n 6 with hn | hn
  · cases renames <;> cases removes <;> cases renamesAgain <;>
      interval_cases n <;> simp [RewriteState.run, RewriteState.start, RewriteState.step,
        RewriteState.setDisk, fate, finished]
  · obtain ⟨n, rfl⟩ : ∃ m, n = m + 6 := ⟨n - 6, by omega⟩
    have h3 : ¬ n + 6 < 3 := by omega
    have h4 : 4 ≤ n + 6 := by omega
    have h5 : 5 ≤ n + 6 := by omega
    rw [RewriteState.run_eq_rewrite]
    cases renames <;> cases removes <;> cases renamesAgain <;>
      simp [fate, finished, AofManager.rewriteTo, h3, h4, h5]

/-! ## 2. When nothing is lost -/

/-- The file replays to the previous log or to the snapshot; and to the snapshot, if `rewrite`
has returned true. -/
structure AllOrNothing (lim : Limits) (hash : Bytes → Nat) (clock : Nat → Time)
    (previous : Option Bytes) (snapshot : Contents (Bytes × Option Time))
    (st : RewriteState) : Prop where
  file : loaded lim hash clock st.aof.disk.log = loaded lim hash clock previous ∨
    loaded lim hash clock st.aof.disk.log = some snapshot
  ret : st.pc = .done true → loaded lim hash clock st.aof.disk.log = some snapshot

/-- What the first `n` bytes of the image of `records` load as. -/
noncomputable def partialImage (clock : Nat → Time) (records : List (List Bytes)) (n : Nat) :
    Contents (Bytes × Option Time) :=
  (FlatStore.empty.replay clock 0 (wholeRecords records n ++
    (tornTail records n).toList)).contents

/-- All of the image was written but, at most, its final line end and the zero bytes in front
of it. -/
def WrittenOut (records : List (List Bytes)) (n : Nat) : Prop :=
  let cut := wholeFrames encodeRecord records n
  ∀ tokens ∈ records[cut.1]?, cut.1 + 1 = records.length ∧ PaddedCut tokens cut.2

instance : DecidableRel WrittenOut := fun records n =>
  inferInstanceAs (Decidable (∀ tokens ∈ records[(wholeFrames encodeRecord records n).1]?, _))

/-- The outcomes under which nothing is lost.  A log that is kept is safe.  A temporary file
that took its place must have been written out.  To be left without a log is safe when there
was nothing to lose: nothing in the log, or nothing to write. -/
def NothingLost (io : RewriteIo) (n : Nat) (aof : AofManager) (records : List (List Bytes)) :
    Prop :=
  match fate aof.enabled io n with
  | .kept => True
  | .replaced => WrittenOut records (io.written.getD (encodeLog records).length)
  | .lost => aof.disk.log.getD [] = [] ∨ records = []

/-! ## 3. A file that was written out -/

theorem loaded_write (hash : Bytes → Nat) (clock : Nat → Time) {records : List (List Bytes)}
    (hne : ∀ r ∈ records, r ≠ []) (h : ∀ r ∈ records, lim.Holds r) (io : RewriteIo) :
    loaded lim hash clock (some (io.write (encodeLog records))) =
      some (partialImage clock records (io.written.getD (encodeLog records).length)) := by
  have hload := load_take hash clock hne h
    (io.written.getD (encodeLog records).length) .empty
  change ((AofManager.openOn _).loadIntoStore lim hash clock .empty).map _ = _
  rw [RewriteIo.write, hload, Option.map_some, view_replay]
  rfl

/-- The loader finds all records in a file that was written out. -/
theorem WrittenOut.records_eq {records : List (List Bytes)} {n : Nat}
    (h : WrittenOut records n) (hne : ∀ r ∈ records, r ≠ []) :
    wholeRecords records n ++ (tornTail records n).toList = records := by
  have hprefix := (wholeRecords_append_tornTail_iff hne).mpr fun tokens ht => Or.inr (h tokens ht).2
  refine hprefix.eq_of_length ?_
  rcases hget : records[(wholeFrames encodeRecord records n).1]? with _ | tokens
  · have hnone : tornTail records n = none := by rw [tornTail, hget]; rfl
    have hall := List.getElem?_eq_none_iff.mp hget
    rw [hnone, wholeRecords, Option.toList_none, List.append_nil, List.length_take]
    omega
  · obtain ⟨hlast, hpadded⟩ := h tokens hget
    obtain ⟨init, last, rfl⟩ := exists_last (hne tokens (List.mem_of_getElem? hget))
    have hsome : tornTail records n = some (init ++ [last]) := by
      rw [tornTail, hget]
      exact (tornRecord_eq_self_iff (wholeFrames_snd_lt hget)).mpr hpadded
    rw [hsome, wholeRecords, Option.toList_some, List.length_append, List.length_take,
      List.length_singleton]
    omega

/-- The last token of a record of the image is stored. -/
theorem landing_snapshotRecords (snap : StoreSnapshot) :
    ∀ r ∈ snapshotRecords snap, (landing r.dropLast).isSome = true := by
  intro r hr
  simp only [snapshotRecords, List.mem_append, List.mem_map, List.mem_flatMap,
    List.mem_filter] at hr
  rcases hr with (⟨e, -, rfl⟩ | ⟨e, -, f, -, rfl⟩) | ⟨⟨k, items⟩, ⟨-, hne⟩, rfl⟩
  · rfl
  · rfl
  · obtain ⟨init, last, rfl⟩ : ∃ init last, items = init ++ [last] :=
      exists_last (by simpa using hne)
    have hlast : (rpushRecord (k, init ++ [last])).dropLast = bytes "RPUSH" :: k :: init :=
      @List.dropLast_concat _ (bytes "RPUSH" :: k :: init) last
    rw [hlast]
    rfl

/-- The vector made of the last record of a log is that record, if the log loads as all of it and
its last token is stored. -/
theorem paddedCut_of_replay {init : List Bytes} {last : Bytes} {m : Nat} {torn : List Bytes}
    (hm : m < (encodeRecord (init ++ [last])).length)
    (htorn : tornRecord (init ++ [last]) m = some torn) (hlanding : (landing init).isSome = true)
    {whole : List (List Bytes)}
    (hsame : (FlatStore.empty.replay clock 0 (whole ++ [torn])).contents =
      (FlatStore.empty.replay clock 0 (whole ++ [init ++ [last]])).contents) :
    PaddedCut (init ++ [last]) m := by
  obtain ⟨token, k, -, rfl⟩ := tornRecord_eq_append hm htorn
  obtain ⟨place, hplace⟩ := Option.isSome_iff_exists.mp hlanding
  have hthere : ∀ t, place.text (FlatStore.empty.replay clock 0
      (whole ++ [init ++ [t]])).contents = some t := by
    intro t
    rw [FlatStore.replay_append]
    exact landing_dispatch hplace _ t _
  have hmade := hthere token
  rw [hsame, hthere last, Option.some.injEq] at hmade
  rw [← hmade] at htorn
  exact (tornRecord_eq_self_iff hm).mp htorn

/-- A file that loads as a log does that cannot be shorter was written out. -/
theorem writtenOut_of_replay {records : List (List Bytes)} {n : Nat}
    (hne : ∀ r ∈ records, r ≠ [])
    (hlanding : ∀ r ∈ records, (landing r.dropLast).isSome = true)
    (hsame : partialImage clock records n = (FlatStore.empty.replay clock 0 records).contents)
    (hminimal : records.length ≤ (wholeRecords records n ++ (tornTail records n).toList).length) :
    WrittenOut records n := by
  intro tokens hget
  have hlt := (List.getElem?_eq_some_iff.mp hget).1
  simp only [List.length_append, wholeRecords, List.length_take] at hminimal
  -- so something was made of the last record
  obtain ⟨torn, htorn⟩ : ∃ torn, tornTail records n = some torn := by
    cases htorn : tornTail records n with
    | some torn => exact ⟨torn, rfl⟩
    | none =>
      rw [htorn, Option.toList_none, List.length_nil] at hminimal
      omega
  rw [htorn, Option.toList_some, List.length_singleton] at hminimal
  refine ⟨by omega, ?_⟩
  obtain ⟨init, last, rfl⟩ := exists_last (hne tokens (List.mem_of_getElem? hget))
  have hpiece : tornRecord (init ++ [last]) (wholeFrames encodeRecord records n).2 =
      some torn := by
    rw [tornTail, Option.mem_def.mp hget] at htorn
    exact htorn
  have hall : wholeRecords records n ++ [init ++ [last]] = records := by
    rw [wholeRecords_append_getElem hget]
    exact List.take_of_length_le (by omega)
  have hlast := hlanding _ (List.mem_of_getElem? hget)
  rw [List.dropLast_concat] at hlast
  rw [partialImage, htorn, Option.toList_some] at hsame
  refine paddedCut_of_replay (wholeFrames_snd_lt hget) hpiece hlast (hsame.trans ?_)
  rw [hall]

/-- **A file loads as the snapshot exactly when it was written out.** -/
theorem partialImage_eq_saved_iff {store : KeyValueStore} (hr : Reachable hash store)
    (order : IterOrder) (now : Time) (n : Nat) :
    partialImage clock (snapshotRecords (store.getSnapshot order now)) n =
        (store.view hash).saved now ↔
      WrittenOut (snapshotRecords (store.getSnapshot order now)) n := by
  have hshows := hr.wellPlaced.getSnapshot_shows order now
  have hwhole := replay_snapshotRecords hshows hr.noEmpty clock
  have hne := snapshotRecords_ne_nil (store.getSnapshot order now)
  constructor
  · intro hsame
    -- no shorter log loads as the snapshot
    have hminimal := snapshot_minimal recordCost_one hshows hr.noEmpty clock hsame
    refine writtenOut_of_replay hne (landing_snapshotRecords _) (hsame.trans hwhole.symm) ?_
    simpa using hminimal
  · intro hwritten
    rw [partialImage, hwritten.records_eq hne, hwhole]

/-- There is nothing to write exactly when the snapshot is empty. -/
theorem saved_eq_empty_iff {store : KeyValueStore} (hr : Reachable hash store)
    (order : IterOrder) (now : Time) :
    (store.view hash).saved now = FlatStore.empty.contents ↔
      snapshotRecords (store.getSnapshot order now) = [] := by
  have hshows := hr.wellPlaced.getSnapshot_shows order now
  constructor
  · intro hsaved
    have hempty : (FlatStore.empty.replay (fun _ => 0) 0 []).contents =
        (store.view hash).saved now := hsaved.symm
    have hcount := snapshot_minimal recordCost_one hshows hr.noEmpty (fun _ => 0) hempty
    simpa using hcount
  · intro hnil
    have hwhole := replay_snapshotRecords hshows hr.noEmpty fun _ => 0
    rw [hnil] at hwhole
    exact hwhole.symm

/-! ## 4. All or nothing -/

/-- **When `BGREWRITEAOF` is all-or-nothing**, at every point at which the process may stop and
under every outcome of the steps before it: when nothing is lost.  Otherwise `rewrite` has not
returned true, and what is left on the disk happens to load as the previous log did. -/
theorem allOrNothing_of_nothingLost {store : KeyValueStore} (hr : Reachable hash store)
    (order : IterOrder) (now : Time)
    (h : ∀ r ∈ snapshotRecords (store.getSnapshot order now), lim.Holds r)
    (io : RewriteIo) (n : Nat) (aof : AofManager) :
    let st := RewriteState.run io (rewriteImage (store.getSnapshot order now)) n (.start aof)
    let promised := AllOrNothing lim hash clock aof.disk.log ((store.view hash).saved now) st
    let records := snapshotRecords (store.getSnapshot order now)
    (NothingLost io n aof records → promised) ∧
      (promised → NothingLost io n aof records ∨ st.pc ≠ .done true ∧
        loaded lim hash clock st.aof.disk.log = loaded lim hash clock aof.disk.log) := by
  intro st promised records
  have hfile := loaded_run lim hash clock io
    (rewriteImage (store.getSnapshot order now)) n aof
  have hret := run_done_true_iff io (rewriteImage (store.getSnapshot order now)) n aof
  have hwrite := loaded_write hash clock (snapshotRecords_ne_nil _) h io
  have hout : partialImage clock records (io.written.getD (encodeLog records).length) =
        (store.view hash).saved now ↔
      WrittenOut records (io.written.getD (encodeLog records).length) :=
    partialImage_eq_saved_iff hr order now _
  rw [← rewriteImage_eq] at hwrite
  change loaded lim hash clock st.aof.disk.log = _ at hfile
  change st.pc = .done true ↔ _ at hret
  unfold NothingLost
  cases hf : fate aof.enabled io n with
  | kept =>
    rw [hf] at hfile hret
    have hnot : st.pc ≠ .done true := fun hd => absurd (hret.mp hd).1 (by simp)
    exact ⟨fun _ => ⟨Or.inl hfile, fun hd => absurd hd hnot⟩, fun _ => Or.inl trivial⟩
  | replaced =>
    rw [hf] at hfile
    dsimp only at hfile ⊢
    rw [hwrite, rewriteImage_eq] at hfile
    have hsnap : loaded lim hash clock st.aof.disk.log = some ((store.view hash).saved now) ↔
        WrittenOut records (io.written.getD (encodeLog records).length) := by
      rw [hfile, Option.some.injEq]
      exact hout
    constructor
    · intro hwritten
      exact ⟨Or.inr (hsnap.mpr hwritten), fun _ => hsnap.mpr hwritten⟩
    · rintro ⟨hor, hd⟩
      by_cases hdone : st.pc = .done true
      · exact Or.inl (hsnap.mp (hd hdone))
      · exact hor.symm.imp hsnap.mp fun hp => ⟨hdone, hp⟩
  | lost =>
    rw [hf] at hfile hret
    dsimp only at hfile ⊢
    have hnot : st.pc ≠ .done true := fun hd => absurd (hret.mp hd).1 (by simp)
    constructor
    · rintro (hprev | hnil)
      · refine ⟨Or.inl ?_, fun hd => absurd hd hnot⟩
        rw [hfile, ← loaded_create aof.disk.log, hprev, loaded_nil]
      · refine ⟨Or.inr ?_, fun hd => absurd hd hnot⟩
        rw [hfile, loaded_none, (saved_eq_empty_iff hr order now).mpr hnil]
    · rintro ⟨hp | hs, -⟩
      · exact Or.inr ⟨hnot, hp⟩
      · rw [hfile, loaded_none, Option.some.injEq] at hs
        exact Or.inl (Or.inr ((saved_eq_empty_iff hr order now).mp hs.symm))

/-- A store with one string. -/
def oneString : KeyValueStore := KeyValueStore.empty.set List.length 0 (bytes "k") (bytes "v") none

theorem reachable_oneString : Reachable List.length oneString :=
  Reachable.empty.call .plain 0 (.set (bytes "k") (bytes "v") none)

/-- The first rename fails and the log is removed, but the second rename succeeds; the final
line end was not written. -/
theorem allOrNothing_renamedAgain :
    AllOrNothing ⟨8, 8, by decide, by decide⟩ List.length (fun _ => 0) (some (bytes "*1\r\n"))
      ((oneString.view List.length).saved 0)
      (RewriteState.run ⟨true, some 25, false, true, true, true⟩
        (rewriteImage (oneString.getSnapshot .plain 0)) 6
        (.start ⟨true, true, ⟨some (bytes "*1\r\n"), none⟩⟩)) :=
  have hwritten : WrittenOut (snapshotRecords (oneString.getSnapshot .plain 0)) 25 := by decide
  (allOrNothing_of_nothingLost reachable_oneString .plain 0 (by decide) _ 6
    ⟨true, true, ⟨some (bytes "*1\r\n"), none⟩⟩).1 hwritten

theorem saved_oneString :
    ((oneString.view List.length).saved 0).strings (bytes "k") = some (bytes "v", none) := rfl

/-- Nothing of the image reaches the temporary file and every other step succeeds: `rewrite`
returns true and leaves an empty log. -/
theorem not_allOrNothing_of_shortWrite :
    ¬ ∀ (lim : Limits) (hash : Bytes → Nat) (clock : Nat → Time) (store : KeyValueStore)
        (order : IterOrder) (now : Time) (io : RewriteIo) (n : Nat) (aof : AofManager),
        Reachable hash store →
        (∀ r ∈ snapshotRecords (store.getSnapshot order now), lim.Holds r) →
        AllOrNothing lim hash clock aof.disk.log ((store.view hash).saved now)
          (RewriteState.run io (rewriteImage (store.getSnapshot order now)) n (.start aof)) := by
  intro hall
  have h := (hall ⟨8, 8, by decide, by decide⟩ List.length (fun _ => 0) oneString .plain 0
    ⟨true, some 0, true, true, true, true⟩ 6 ⟨true, true, ⟨none, none⟩⟩ reachable_oneString
    (by decide)).ret rfl
  have hempty : loaded ⟨8, 8, by decide, by decide⟩ List.length (fun _ => 0) (some []) =
      some FlatStore.empty.contents := rfl
  have hstrings := congrFun (congrArg Contents.strings (Option.some.inj (hempty.symm.trans h)))
    (bytes "k")
  rw [saved_oneString] at hstrings
  exact absurd hstrings (by simp [FlatStore.contents, FlatStore.empty])

end KeyValueDb
