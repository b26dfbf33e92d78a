/-
# A thread that nobody interferes with

The steps of a thread, taken without the steps of others in between, are the program: a command
does what `CommandParser::execute` does (`writer_alone`), and the compaction what
`AofManager::rewrite` does (`rewriter_alone`).
-/
import KeyValueDb.Concurrent.Writers

namespace KeyValueDb

open Lib Function

namespace Shared

variable {T : Type} [DecidableEq T] {hash : Bytes → Nat} {st : Shared T} {t : T} {now : Time}
  {w : Write}

/-! ## 1. A command -/

/-- The calls of a command, from somewhere in the middle. -/
theorem storing_alone (hash : Bytes → Nat) (now : Time) {us : List Update} (hus : us ≠ [])
    {acc : Nat} (hpc : st.writers t = .storing w us acc) :
    let st' := (us.map fun _ => Action.storeCall t now).foldl (step hash) st
    let x := us.foldl (w.work hash now) (acc, st.store)
    st'.store = x.2 ∧ st'.aof = st.aof ∧ st'.writers t =
      if w.logs x.1 then .appending w x.1 else .returned (w.response x.1) := by
  induction us generalizing st acc with
  | nil => exact absurd rfl hus
  | cons u rest ih =>
    by_cases hrest : rest = []
    · subst hrest
      intro st' x
      have hst' : st' = st.step hash (.storeCall t now) := rfl
      by_cases hlogs : w.logs x.1 = true
      · have hstep : st' = (st.call hash t now u).setWriter t (.appending w x.1) := by
          rw [hst']
          simp only [step, hpc]
          exact (if_neg (by simp)).trans (if_pos hlogs)
        rw [hstep, if_pos hlogs]
        exact ⟨rfl, rfl, update_self ..⟩
      · have hstep : st' = { (st.call hash t now u).setWriter t (.returned (w.response x.1)) with
            history := settle t .dropped (st.call hash t now u).history } := by
          rw [hst']
          simp only [step, hpc]
          exact (if_neg (by simp)).trans (if_neg hlogs)
        rw [hstep, if_neg hlogs]
        exact ⟨rfl, rfl, update_self ..⟩
    · have hstep : st.step hash (.storeCall t now) = (st.call hash t now u).setWriter t
          (.storing w rest (w.note acc (u.run hash now st.store).1)) := by
        simp only [step, hpc, ne_eq, hrest, not_false_eq_true, if_true]
      have hnext : ((st.call hash t now u).setWriter t
          (.storing w rest (w.note acc (u.run hash now st.store).1))).writers t =
            .storing w rest (w.note acc (u.run hash now st.store).1) := update_self ..
      rw [List.map_cons, List.foldl_cons, hstep]
      exact ih hrest hnext

/-- **Alone, a thread does what `CommandParser::execute` does.** -/
theorem writer_alone (hash : Bytes → Nat) (order : IterOrder) (now : Time) (w : Write)
    (hpc : st.writers t = .idle ∨ ∃ response, st.writers t = .returned response) :
    let r := Command.run hash order now w.tokens st.store w.verb
    let evs := .request t w :: (w.updates.map fun _ => .storeCall t now) ++ [.append t]
    let st' := evs.foldl (step hash) st
    st'.store = r.store ∧ st'.writers t = .returned r.response ∧
      st'.aof = (r.record.map fun tokens => st.aof.append tokens).getD st.aof := by
  intro r evs st'
  obtain ⟨hresponse, hstore, hrecord⟩ := w.run_write hash order now st.store
  have hbegin : st.step hash (.request t w) = st.setWriter t (.storing w w.updates 0) := by
    rcases hpc with hpc | ⟨_, hpc⟩ <;> simp only [step, hpc]
  have hfirst : (st.setWriter t (.storing w w.updates 0)).writers t = .storing w w.updates 0 :=
    update_self ..
  have hcalls := storing_alone hash now w.updates_ne_nil hfirst
  set st₁ := (w.updates.map fun _ => Action.storeCall t now).foldl (step hash)
    (st.setWriter t (.storing w w.updates 0)) with hst₁
  obtain ⟨hs, haof, hw⟩ := hcalls
  have hend : st' = st₁.step hash (.append t) := by
    simp only [st', evs, List.foldl_cons, List.foldl_append, List.foldl_nil, hbegin, hst₁]
  rw [hend]
  by_cases hlogs : w.logs (w.updates.foldl (w.work hash now) (0, st.store)).1 = true
  · rw [if_pos hlogs] at hrecord
    have hpc₁ := hw.trans (if_pos hlogs)
    simp only [step, hpc₁, r, hresponse, hstore, hrecord]
    exact ⟨hs, update_self .., congrArg (AofManager.append w.tokens) haof⟩
  · rw [if_neg hlogs] at hrecord
    have hpc₁ := hw.trans (if_neg hlogs)
    simp only [step, hpc₁, r, hresponse, hstore, hrecord]
    exact ⟨hs, rfl, haof⟩

/-! ## 2. A compaction -/

omit [DecidableEq T] in
/-- The snapshot, from somewhere in the middle. -/
theorem snapshot_alone (order : IterOrder) (now now' : Time) (st : Shared T) (n : Nat)
    (i : Fin numShards) (hn : i.val + n + 1 = numShards) (snap : StoreSnapshot) :
    (rewriteStep now' order)^[n + 1] { st with rewriter := .snapshot now i snap } =
      { st with rewriter := .write (((List.finRange numShards).drop i).foldl
          (fun snap j => snap.append ((st.store.shards j).snapshot order now)) snap) } := by
  induction n generalizing i snap with
  | zero =>
    have hlast : ¬ i.val + 1 < numShards := by omega
    rw [zero_add, iterate_one, drop_finRange, List.drop_eq_nil_of_le (by simp; omega)]
    simp only [rewriteStep, dif_neg hlast, List.foldl_cons, List.foldl_nil]
  | succ n ih =>
    have hnext : i.val + 1 < numShards := by omega
    have hrest := ih ⟨i.val + 1, hnext⟩ (by simp only; omega)
      (snap.append ((st.store.shards i).snapshot order now))
    rw [iterate_succ_apply, drop_finRange, List.foldl_cons]
    simp only [rewriteStep, dif_pos hnext]
    exact hrest

omit [DecidableEq T] in
theorem rewriteStep_done (n : Nat) (order : IterOrder) (now : Time) (hdone : st.rewriter = .done) :
    (rewriteStep now order)^[n] st = st := by
  refine iterate_fixed ?_ n
  simp only [rewriteStep, hdone]

omit [DecidableEq T] in
/-- **Alone, the compaction does what `AofManager::rewrite` does.** -/
theorem rewriter_alone (order : IterOrder) (now : Time) (hready : st.rewriter = .ready) :
    (rewriteStep now order)^[numShards + 3] st =
      { st with aof := (st.aof.rewrite .success order now st.store).2, rewriter := .done } := by
  obtain ⟨store, ⟨enabled, isOpen, disk⟩, writers, rewriter, history⟩ := st
  obtain rfl : rewriter = .ready := hready
  cases enabled with
  | false =>
    rw [iterate_succ_apply]
    exact rewriteStep_done _ order now rfl
  | true =>
    have hsnap := snapshot_alone order now now
      ⟨store, ⟨true, isOpen, { disk with tmp := some [] }⟩, writers, .ready, history⟩
      (numShards - 1) 0 rfl StoreSnapshot.empty
    have hwhole : ((List.finRange numShards).drop (0 : Fin numShards)).foldl
        (fun snap j => snap.append ((store.shards j).snapshot order now)) StoreSnapshot.empty =
          store.getSnapshot order now :=
      foldl_append_snapshot (fun j => (store.shards j).snapshot order now) _ _
    dsimp only at hsnap
    rw [hwhole] at hsnap
    rw [iterate_succ_apply, show numShards + 2 = 2 + (numShards - 1 + 1) from rfl,
      iterate_add_apply]
    refine (congrArg (rewriteStep now order)^[2] hsnap).trans ?_
    have hwrite : (AofManager.rewrite .success order now store ⟨true, isOpen, disk⟩).2 =
        ⟨true, true, Disk.create
          (Disk.rename ⟨disk.log, some (rewriteImage (store.getSnapshot order now))⟩)⟩ := by
      rw [← write_success (rewriteImage (store.getSnapshot order now))]
      rfl
    rw [hwrite]
    rfl

end Shared

end KeyValueDb
