/-
# Reloading

What the loader makes of the log when nobody is writing to it, and what the record of a write
command does in a replay: the updates that the command made, without their results
(`cells_dispatch`).  An update that finds nothing to remove changes nothing
(`onCells_of_not_logs`), so a command that removed nothing needs no record.
-/
import KeyValueDb.Concurrent.Writers

namespace KeyValueDb

open Lib Function

/-! ## 1. Records -/

theorem Reachable.update {hash : Bytes → Nat} {s : KeyValueStore} (h : Reachable hash s)
    (now : Time) (u : Update) : Reachable hash (u.run hash now s).2 := by
  obtain ⟨c, hc⟩ := u.run_eq_call hash now s .plain
  rw [hc]
  exact h.call .plain now c

/-- Updates one after the other on the reference store. -/
theorem cells_foldl (now : Time) (us : List Update) (F : FlatStore) :
    (us.foldl (Update.onFlat now) F).cells = us.foldl Update.onCells F.cells :=
  (List.foldl_hom FlatStore.cells fun F u => (Update.cells_onFlat now u F).symm).symm

theorem dispatch_tokens (now : Time) (w : Write) (F : FlatStore) :
    F.dispatch now w.tokens = w.updates.foldl (Update.onFlat now) F := by
  cases w with
  | set | hset | hdel => rfl
  | del key keys =>
    rw [Write.updates, List.foldl_map]
    rfl
  | lpush key item items =>
    rw [Write.updates, List.foldl_map]
    rfl
  | rpush key item items =>
    rw [Write.updates, List.foldl_map]
    rfl

/-- **The record of a command stands for its updates.** -/
theorem cells_dispatch (now : Time) (w : Write) (F : FlatStore) :
    (F.dispatch now w.tokens).cells = w.updates.foldl Update.onCells F.cells := by
  rw [dispatch_tokens, cells_foldl]

theorem cells_replay_append (clock : Nat → Time) (records : List (List Bytes)) (w : Write)
    (F : FlatStore) : (F.replay clock 0 (records ++ [w.tokens])).cells =
      w.updates.foldl Update.onCells (F.replay clock 0 records).cells := by
  rw [FlatStore.replay_append]
  exact cells_dispatch _ w _

/-! ## 2. Removing nothing -/

theorem onCells_del_of_not_holds {F : FlatStore} {k : Bytes} (h : ¬ F.holds k) :
    Update.onCells F.cells (.del k) = F.cells := by
  simp only [FlatStore.holds, not_or, Option.not_isSome_iff_eq_none] at h
  obtain ⟨hs, hh, hl⟩ := h
  have hcell : F.cells k = ⟨none, none, none⟩ := by simp [FlatStore.cells, hs, hh, hl]
  refine update_eq_iff.mpr ⟨?_, fun _ _ => rfl⟩
  exact hcell.symm

theorem onCells_hdel_of_none {F : FlatStore} {k f : Bytes} (hne : F.NoEmpty)
    (h : F.hget k f = none) : Update.onCells F.cells (.hdel k f) = F.cells := by
  refine update_eq_iff.mpr ⟨?_, fun _ _ => rfl⟩
  refine Cell.ext rfl ?_ rfl
  simp only [Update.onCell, Update.key, FlatStore.cells]
  cases hF : F.hashes k with
  | none => rfl
  | some fields =>
    have hf : fields f = none := by simpa [FlatStore.hget, hF] using h
    obtain ⟨g, v, hg⟩ := hne.hashes k fields hF
    have hsame : update fields f none = fields := by rw [← hf, update_eq_self]
    rw [Option.bind_some, Update.without, hsame]
    refine if_neg fun hall => ?_
    rw [hall g] at hg
    cases hg

/-- **A call after which the command is not to be logged** has changed nothing, and neither had
the command before it. -/
theorem onCells_of_not_logs {hash : Bytes → Nat} {now : Time} {s : KeyValueStore} {w : Write}
    {u : Update} {acc : Nat} (hu : u ∈ w.updates) (hne : (s.view hash).NoEmpty)
    (h : w.logs (w.note acc (u.run hash now s).1) = false) :
    Update.onCells (s.view hash).cells u = (s.view hash).cells ∧
      (w.logs acc = false ∨ w.updates = [u]) := by
  cases w with
  | del key keys =>
    obtain ⟨k, -, rfl⟩ := List.mem_map.mp hu
    have hres : (s.del hash k).1 = ((s.view hash).del k).1 :=
      congrArg Prod.fst (s.view_del hash k)
    have hcount : ¬ 0 < if (s.del hash k).1 = true then acc + 1 else acc := of_decide_eq_false h
    have hgone : (s.del hash k).1 = false := by
      by_contra hb
      rw [Bool.not_eq_false] at hb
      rw [if_pos hb] at hcount
      exact hcount (Nat.succ_pos acc)
    rw [if_neg (by simp [hgone])] at hcount
    rw [hgone] at hres
    refine ⟨onCells_del_of_not_holds ?_, Or.inl (decide_eq_false hcount)⟩
    simpa [FlatStore.del] using hres.symm
  | hdel key field =>
    obtain rfl : u = .hdel key field := List.mem_singleton.mp hu
    have hres : (s.hdel hash key field).1 = ((s.view hash).hdel key field).1 :=
      congrArg Prod.fst (s.view_hdel hash key field)
    have hcount : ¬ 0 < if (s.hdel hash key field).1 = true then 1 else 0 :=
      of_decide_eq_false h
    have hgone : (s.hdel hash key field).1 = false := by
      by_contra hb
      rw [Bool.not_eq_false] at hb
      rw [if_pos hb] at hcount
      exact hcount Nat.zero_lt_one
    rw [hgone] at hres
    refine ⟨onCells_hdel_of_none hne ?_, Or.inr rfl⟩
    unfold FlatStore.hdel at hres
    unfold FlatStore.hget
    split at hres
    · rename_i hF
      rw [hF]
      rfl
    · rename_i fields hF
      rw [hF]
      simpa using hres.symm
  | _ => cases h

/-! ## 3. Files -/

/-- The log is on and open, and is the encoding of these records. -/
def AofManager.Holds (aof : AofManager) (records : List (List Bytes)) : Prop :=
  (∀ r ∈ records, r ≠ []) ∧ ∃ tmp, aof = ⟨true, true, ⟨some (encodeLog records), tmp⟩⟩

theorem AofManager.Holds.append {aof : AofManager} {records : List (List Bytes)}
    (h : aof.Holds records) {tokens : List Bytes} (hne : tokens ≠ []) :
    (aof.append tokens).Holds (records ++ [tokens]) := by
  obtain ⟨hall, tmp, rfl⟩ := h
  refine ⟨?_, tmp, ?_⟩
  · intro r hr
    rcases List.mem_append.mp hr with hr | hr
    · exact hall r hr
    · rw [List.mem_singleton.mp hr]
      exact hne
  · simp [AofManager.append, hne, Disk.extend, encodeLog]

namespace Shared

variable {T : Type}

/-- Every record of the log can be allocated. -/
def Fits (lim : Limits) (st : Shared T) : Prop :=
  ∀ records, st.aof.Holds records → ∀ r ∈ records, lim.Holds r

theorem fits_of_length {lim : Limits} {st : Shared T}
    (hvec : (st.aof.disk.log.getD []).length ≤ lim.vec)
    (hstr : (st.aof.disk.log.getD []).length ≤ lim.str) : st.Fits lim := by
  rintro records ⟨-, tmp, haof⟩
  rw [haof] at hvec hstr
  exact holds_of_length hvec hstr

/-- The loader makes of the log a store with the values of the live one. -/
def Reloads (lim : Limits) (hash : Bytes → Nat) (clock : Nat → Time) (st : Shared T) : Prop :=
  ∃ replayed rebuilt, st.aof.loadIntoStore lim hash clock .empty = some (replayed, rebuilt) ∧
    (rebuilt.view hash).values = (st.store.view hash).values

/-- Reloading, key by key. -/
theorem Reloads.cells {lim : Limits} {hash : Bytes → Nat} {clock : Nat → Time} {st : Shared T}
    (h : st.Reloads lim hash clock) (key : Bytes) :
    (st.aof.loadIntoStore lim hash clock .empty).map (fun x => (x.2.view hash).cells key) =
      some ((st.store.view hash).cells key) := by
  obtain ⟨replayed, rebuilt, hload, hvalues⟩ := h
  rw [hload, Option.map_some, FlatStore.values_eq_iff.mp hvalues]

/-- **The log reloads exactly when it replays to the values of the store.** -/
theorem reloads_iff {lim : Limits} {hash : Bytes → Nat} {clock : Nat → Time} {st : Shared T}
    {records : List (List Bytes)} (h : st.aof.Holds records) (hfits : st.Fits lim) :
    st.Reloads lim hash clock ↔
      (FlatStore.empty.replay clock 0 records).cells = (st.store.view hash).cells := by
  have hload : st.aof.loadIntoStore lim hash clock .empty =
      some (replay hash clock 0 records (0, .empty)) := by
    have hholds := hfits records h
    obtain ⟨hne, tmp, haof⟩ := h
    rw [haof, loadIntoStore_eq lim hash clock rfl rfl, readLog_encodeLog hne hholds]
    rfl
  have hview : (replay hash clock 0 records (0, .empty)).2.view hash =
      FlatStore.empty.replay clock 0 records := by rw [view_replay, view_empty]
  rw [← FlatStore.values_eq_iff, ← hview]
  constructor
  · rintro ⟨replayed, rebuilt, hrebuilt, hvalues⟩
    rw [hload, Option.some.injEq] at hrebuilt
    rw [hrebuilt]
    exact hvalues
  · intro hvalues
    exact ⟨_, _, hload, hvalues⟩

end Shared

end KeyValueDb
