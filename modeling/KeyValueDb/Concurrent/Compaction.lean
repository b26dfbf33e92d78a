/-
# A compaction under writers

`AofManager::rewrite` runs while other threads write.  For every key there is a base, the value
that the new log will replay to: what the snapshot saw of the key, and from the rename on also
the records that were appended.  An update that was made after its shard was looked at is
*late*: the base does not have it.  The live value is the base with the late updates of the
command that is under way (`Agrees`), if no record is appended at the wrong time (`InTime`):

  * a late update appended before the rename is discarded with the old log;
  * a push that is not late, appended after the rename, is in the new log twice.  `SET` and
    `HSET` can be there twice, for the second time changes nothing.
-/
import KeyValueDb.Concurrent.Reload
import KeyValueDb.Concurrent.Snapshot
import KeyValueDb.Lib.Runs

namespace KeyValueDb

open Lib Function

/-! ## 1. Commands that add -/

namespace Write

/-- The commands that add values and remove none. -/
def adds : Write → Bool
  | .set .. | .hset .. | .rpush .. => true
  | _ => false

variable {w : Write} {u : Update}

theorem logs_of_adds (h : w.adds = true) (acc : Nat) : w.logs acc = true := by
  cases w <;> first | rfl | cases h

/-- A command is one `SET`, one `HSET` or pushes. -/
theorem updates_of_not_push (h : w.adds = true) (hu : u ∈ w.updates)
    (hpush : u.isPush = false) : w.updates = [u] := by
  cases w with
  | set | hset => rw [List.mem_singleton.mp hu]; rfl
  | rpush key item items =>
    obtain ⟨v, -, rfl⟩ := List.mem_map.mp hu
    cases hpush
  | _ => cases h

end Write

/-! ## 2. Who writes what, and when -/

section Late

variable {T : Type} [DecidableEq T] {t t' : T} {fate : LogFate} {e : Entry T} {h : List (Entry T)}

/-- The pending updates of a thread that the snapshot has missed. -/
def lateOf (t : T) (h : List (Entry T)) : List Update :=
  ((pendingOf t h).filter Entry.late).map Entry.update

theorem lateOf_concat (h : List (Entry T)) (he : e.isPending t = true) :
    lateOf t (h ++ [e]) = lateOf t h ++ if e.late then [e.update] else [] := by
  rw [lateOf, pendingOf, List.filter_append, List.filter_append, List.filter_singleton, he]
  cases hlate : e.late <;> simp [lateOf, pendingOf, hlate]

theorem lateOf_settle_of_ne (ht : t' ≠ t) (h : List (Entry T)) :
    lateOf t' (Shared.settle t fate h) = lateOf t' h := by
  rw [lateOf, pendingOf_settle_of_ne ht, lateOf]

theorem lateOf_settle_self (hfate : fate ≠ .pending) (h : List (Entry T)) :
    lateOf t (Shared.settle t fate h) = [] := by
  rw [lateOf, pendingOf_settle_self hfate]
  rfl

theorem lateOf_eq_nil (hnone : ∀ e ∈ pendingOf t h, e.late = false) : lateOf t h = [] := by
  rw [lateOf, List.map_eq_nil_iff, List.filter_eq_nil_iff]
  intro e he
  rw [hnone e he]
  exact Bool.false_ne_true

theorem lateOf_eq_all (hall : ∀ e ∈ pendingOf t h, e.late = true) :
    lateOf t h = (pendingOf t h).map Entry.update := by
  rw [lateOf, List.filter_eq_self.mpr hall]

end Late

section Conditions

variable {T : Type} [DecidableEq T]

/-- A thread executes `SET`, `HSET` and `RPUSH`, on keys of its own. -/
def Action.Owned (owner : Bytes → T) : Action T → Prop
  | .request t w => w.adds = true ∧ ∀ u ∈ w.updates, owner u.key = t
  | _ => True

def WriterPc.Owned (owner : Bytes → T) (t : T) : WriterPc → Prop
  | .storing w _ _ | .appending w _ => w.adds = true ∧ ∀ u ∈ w.updates, owner u.key = t
  | _ => True

/-- An update can be logged now: before the end of the compaction when the snapshot has it, and
after the end unless it is a push that the snapshot has. -/
def RewriterPc.accepts (e : Entry T) : RewriterPc → Bool
  | .done => e.late || !e.update.isPush
  | _ => !e.late

/-- The updates of a record that is appended can be logged. -/
def Shared.InTime (st : Shared T) : Action T → Prop
  | .append t => ∀ e ∈ pendingOf t st.history, st.rewriter.accepts e = true
  | _ => True

instance (owner : Bytes → T) (ev : Action T) : Decidable (ev.Owned owner) :=
  match ev with
  | .request t w =>
    inferInstanceAs (Decidable (w.adds = true ∧ ∀ u ∈ w.updates, owner u.key = t))
  | .storeCall .. | .append _ | .rewrite .. => isTrue trivial

instance (st : Shared T) (ev : Action T) : Decidable (st.InTime ev) :=
  match ev with
  | .append t =>
    inferInstanceAs (Decidable (∀ e ∈ pendingOf t st.history, st.rewriter.accepts e = true))
  | .request .. | .storeCall .. | .rewrite .. => isTrue trivial

end Conditions

/-! ## 3. The invariant -/

namespace Shared

variable {T : Type} [DecidableEq T]

/-- Where the snapshot is past, the live values are the base with the late updates. -/
def Agrees (hash : Bytes → Nat) (owner : Bytes → T) (base : Bytes → Cell) (st : Shared T) :
    Prop :=
  ∀ k, st.rewriter.passed (getShardIndex hash k) = true →
    (st.store.view hash).cells k = (lateOf (owner k) st.history).foldl Update.onCells base k

/-- What the compaction has, or has written, replays to the base. -/
def Holding (hash : Bytes → Nat) (base : Bytes → Cell) (st : Shared T) : Prop :=
  match st.rewriter with
  | .ready => True
  | .snapshot now i snap =>
    ∃ F, Taken now snap F ∧ F.cells = base ∧ ∀ k, i ≤ getShardIndex hash k → F.Lacks k
  | .write snap => ∃ now F, Taken now snap F ∧ F.cells = base
  | .rename =>
    ∃ snap now F, st.aof.disk.tmp = some (rewriteImage snap) ∧ Taken now snap F ∧ F.cells = base
  | .done =>
    ∃ records, st.aof.Holds records ∧
      ∀ clock, (FlatStore.empty.replay clock 0 records).cells = base

/-- The invariant. -/
structure Compacting (hash : Bytes → Nat) (owner : Bytes → T) (st : Shared T) : Prop where
  reachable : Reachable hash st.store
  undated : (st.store.view hash).Undated
  writable : st.aof.enabled = true ∧ st.aof.isOpen = true
  program : st.Programmed
  owned : ∀ t, (st.writers t).Owned owner t
  late : ∀ t, ∀ e ∈ pendingOf t st.history, e.late = true →
    st.rewriter.passed (getShardIndex hash e.update.key) = true
  /-- Making a pending `SET` or `HSET` a second time changes nothing. -/
  again : ∀ t, ∀ e ∈ pendingOf t st.history, e.update.isPush = false →
    Update.onCells (st.store.view hash).cells e.update = (st.store.view hash).cells
  base : ∃ base, st.Agrees hash owner base ∧ st.Holding hash base

variable {hash : Bytes → Nat} {owner : Bytes → T} {st : Shared T} {t t' : T} {w : Write}
  {u : Update} {rest : List Update} {acc : Nat} {e : Entry T}

theorem Compacting.owner_eq (h : st.Compacting hash owner) (hu : u ∈ (st.writers t).updates) :
    owner u.key = t := by
  have howned := h.owned t
  cases hpc : st.writers t <;> rw [hpc] at howned hu
  case storing | appending => exact howned.2 u hu
  all_goals cases hu

theorem Compacting.owner_pending (h : st.Compacting hash owner)
    (he : e ∈ pendingOf t st.history) : owner e.update.key = t := by
  refine h.owner_eq ?_
  rw [← h.program t]
  exact List.mem_append_left _ (List.mem_map_of_mem he)

theorem Compacting.storing (h : st.Compacting hash owner)
    (hpc : st.writers t = .storing w rest acc) :
    w.adds = true ∧ ∀ u ∈ w.updates, owner u.key = t := by
  have howned := h.owned t
  rwa [hpc] at howned

theorem Compacting.appending (h : st.Compacting hash owner)
    (hpc : st.writers t = .appending w acc) :
    w.adds = true ∧ ∀ u ∈ w.updates, owner u.key = t := by
  have howned := h.owned t
  rwa [hpc] at howned

theorem Compacting.owned_setWriter (h : st.Compacting hash owner) {pc : WriterPc}
    (hpc : pc.Owned owner t) (t' : T) : ((st.setWriter t pc).writers t').Owned owner t' := by
  by_cases ht : t' = t
  · subst ht
    rw [writers_self]
    exact hpc
  · rw [writers_of_ne ht]
    exact h.owned t'

theorem compacting_start (store : KeyValueStore) (hreachable : Reachable hash store)
    (hundated : (store.view hash).Undated) (disk : Disk) :
    (start store ⟨true, true, disk⟩ .ready : Shared T).Compacting hash owner where
  reachable := hreachable
  undated := hundated
  writable := ⟨rfl, rfl⟩
  program := programmed_start _ _ _
  owned _ := trivial
  late _ _ he := absurd he List.not_mem_nil
  again _ _ he := absurd he List.not_mem_nil
  base := ⟨FlatStore.empty.cells, fun _ hk => absurd hk Bool.false_ne_true, trivial⟩

/-! ## 4. A step of a writer -/

theorem Compacting.request (h : st.Compacting hash owner)
    (hpc : st.writers t = .idle ∨ ∃ response, st.writers t = .returned response)
    (hw : w.adds = true ∧ ∀ u ∈ w.updates, owner u.key = t) :
    (st.setWriter t (.storing w w.updates 0)).Compacting hash owner where
  reachable := h.reachable
  undated := h.undated
  writable := h.writable
  program := h.program.request hpc w
  owned := h.owned_setWriter hw
  late := h.late
  again := h.again
  base := h.base

section Call

variable (h : st.Compacting hash owner) (hpc : st.writers t = .storing w (u :: rest) acc)
  (now : Time)

include h hpc

theorem Compacting.owner_call : owner u.key = t := by
  refine h.owner_eq ?_
  rw [hpc, WriterPc.updates, ← h.program.storing hpc]
  simp

omit hpc in
theorem Compacting.late_call (he : e ∈ pendingOf t' (st.call hash t now u).history)
    (hlate : e.late = true) :
    st.rewriter.passed (getShardIndex hash e.update.key) = true := by
  by_cases ht : t' = t
  · subst ht
    rw [pendingOf_call_self] at he
    rcases List.mem_append.mp he with he | he
    · exact h.late t' e he hlate
    · rw [List.mem_singleton.mp he] at hlate ⊢
      exact hlate
  · rw [pendingOf_call_of_ne ht] at he
    exact h.late t' e he hlate

/-- What another thread has pending is about another key, and a command that is no push has
one update. -/
theorem Compacting.again_call (he : e ∈ pendingOf t' (st.call hash t now u).history)
    (hpush : e.update.isPush = false) :
    Update.onCells (Update.onCells (st.store.view hash).cells u) e.update =
      Update.onCells (st.store.view hash).cells u := by
  by_cases ht : t' = t
  · subst ht
    have hmem := h.program.storing hpc
    have he : e.update ∈ w.updates := by
      rw [pendingOf_call_self] at he
      rw [← hmem]
      rcases List.mem_append.mp he with he | he
      · exact List.mem_append_left _ (List.mem_map_of_mem he)
      · rw [List.mem_singleton.mp he]
        exact List.mem_append_right _ List.mem_cons_self
    rw [Write.updates_of_not_push (h.storing hpc).1 he hpush, List.append_eq_singleton_iff] at hmem
    have hu : u = e.update := by
      rcases hmem with ⟨-, hone⟩ | ⟨-, hnil⟩
      · exact (List.cons.inj hone).1
      · cases hnil
    rw [hu, Update.onCells_onCells hpush]
  · rw [pendingOf_call_of_ne ht] at he
    have hkeys : e.update.key ≠ u.key := by
      intro heq
      have howner := h.owner_pending he
      rw [heq, h.owner_call hpc] at howner
      exact ht howner.symm
    have hcomm : Update.onCells (Update.onCells (st.store.view hash).cells u) e.update =
        Update.onCells (Update.onCells (st.store.view hash).cells e.update) u :=
      changeAt_comm_of_ne hkeys
    rw [hcomm, h.again t' e he hpush]

theorem Compacting.agrees_call {base : Bytes → Cell} (hbase : st.Agrees hash owner base) :
    (st.call hash t now u).Agrees hash owner base := by
  intro k hk
  have hlive : ((st.call hash t now u).store.view hash).cells =
      Update.onCells (st.store.view hash).cells u := Update.cells_run u
  have hhistory : (st.call hash t now u).history = st.history ++ [st.entry hash t u] := rfl
  have hbefore := hbase k hk
  have howner := h.owner_call hpc
  rw [hlive, hhistory]
  by_cases ht : owner k = t
  · have hpending : (st.entry hash t u).isPending (owner k) = true := by
      simp [entry, Entry.isPending, ht]
    rw [lateOf_concat _ hpending]
    cases hlate : (st.entry hash t u).late with
    | true =>
      rw [if_pos rfl, List.foldl_append]
      exact changeAt_congr hbefore
    | false =>
      have hkey : k ≠ u.key := by
        rintro rfl
        exact Bool.false_ne_true (hlate.symm.trans hk)
      rw [if_neg Bool.false_ne_true, List.append_nil, ← hbefore]
      exact changeAt_of_ne hkey
  · have hkey : k ≠ u.key := by
      rintro rfl
      exact ht howner
    rw [← hhistory, lateOf, pendingOf_call_of_ne ht, ← lateOf, ← hbefore]
    exact changeAt_of_ne hkey

end Call

/-- **A call of the store.** -/
theorem Compacting.call (h : st.Compacting hash owner)
    (hpc : st.writers t = .storing w (u :: rest) acc) (now : Time) {pc : WriterPc}
    (hupdates : pc.updates = w.updates) (htodo : pc.todo = rest) (howned : pc.Owned owner t) :
    ((st.call hash t now u).setWriter t pc).Compacting hash owner where
  reachable := h.reachable.update now u
  undated := by
    have hview : (st.call hash t now u).store.view hash = u.onFlat now (st.store.view hash) :=
      Update.view_run u
    exact hview ▸ h.undated.update now u
  writable := h.writable
  program := h.program.call hpc now hupdates htodo
  owned := h.owned_setWriter howned
  late t' e he := h.late_call now he
  again t' e he hpush := by
    have hlive : ((st.call hash t now u).store.view hash).cells =
        Update.onCells (st.store.view hash).cells u := Update.cells_run u
    exact hlive ▸ h.again_call hpc now he hpush
  base := by
    obtain ⟨base, hagrees, hholding⟩ := h.base
    exact ⟨base, h.agrees_call hpc now hagrees, hholding⟩

section Append

variable {base : Bytes → Cell}

omit [DecidableEq T] in
/-- Before the end the log does not matter. -/
theorem Holding.of_tmp {st' : Shared T} (h : st.Holding hash base) (hpc : st.rewriter ≠ .done)
    (hrewriter : st'.rewriter = st.rewriter) (htmp : st'.aof.disk.tmp = st.aof.disk.tmp) :
    st'.Holding hash base := by
  unfold Holding at h ⊢
  rw [hrewriter, htmp]
  cases hrw : st.rewriter <;> rw [hrw] at h
  case done => exact absurd hrw hpc
  all_goals exact h

/-- Before the end of the compaction, when the snapshot has all of the command. -/
theorem Agrees.settle (h : st.Agrees hash owner base) (hnone : lateOf t st.history = []) {k : Bytes}
    (hk : st.rewriter.passed (getShardIndex hash k) = true) :
    (st.store.view hash).cells k =
      (lateOf (owner k) (settle t .logged st.history)).foldl Update.onCells base k := by
  rw [h k hk]
  by_cases ht : owner k = t
  · rw [ht, lateOf_settle_self (by simp), hnone]
  · rw [lateOf_settle_of_ne ht]

/-- After the end: the record is the late updates, or repeats what the base has. -/
theorem Compacting.agrees_append (h : st.Compacting hash owner)
    (hpc : st.writers t = .appending w acc) (hagrees : st.Agrees hash owner base)
    (htime : ∀ e ∈ pendingOf t st.history, e.late = true ∨ e.update.isPush = false) {k : Bytes}
    (hk : st.rewriter.passed (getShardIndex hash k) = true) :
    (st.store.view hash).cells k = (lateOf (owner k) (Shared.settle t .logged st.history)).foldl
      Update.onCells (w.updates.foldl Update.onCells base) k := by
  have hprogram := h.program.appending hpc
  have howned := h.appending hpc
  by_cases ht : owner k = t
  · subst ht
    rw [lateOf_settle_self (by simp), List.foldl_nil]
    by_cases hall : ∀ e ∈ pendingOf (owner k) st.history, e.late = true
    · rw [hagrees k hk, lateOf_eq_all hall, hprogram]
    · -- the one update is no push, and making it again changes nothing
      obtain ⟨e, he, hlate⟩ : ∃ e ∈ pendingOf (owner k) st.history, ¬ e.late = true := by
        simpa using hall
      have hpush := (htime e he).resolve_left hlate
      have hmem : e.update ∈ w.updates := hprogram ▸ List.mem_map_of_mem he
      have hupdates := Write.updates_of_not_push howned.1 hmem hpush
      have hone : pendingOf (owner k) st.history = [e] := by
        rw [hupdates, List.map_eq_singleton_iff] at hprogram
        obtain ⟨e', he', -⟩ := hprogram
        rw [he', List.mem_singleton] at he
        rw [he', he]
      have hnone : lateOf (owner k) st.history = [] := by
        refine lateOf_eq_nil ?_
        rw [hone]
        simpa using hlate
      have hbase : (st.store.view hash).cells k = base k := by rw [hagrees k hk, hnone]; rfl
      rw [hupdates, ← h.again (owner k) e he hpush]
      exact changeAt_congr hbase
  · rw [lateOf_settle_of_ne ht, hagrees k hk]
    refine Update.foldl_onCells_congr _ (Update.foldl_onCells_of_ne fun u hu hkey => ht ?_).symm
    rw [← hkey]
    exact howned.2 u hu

theorem Compacting.append_eq (h : st.Compacting hash owner) (w : Write) :
    st.aof.append w.tokens =
      { st.aof with disk := st.aof.disk.extend (encodeRecord w.tokens) } := by
  simp [AofManager.append, h.writable, w.tokens_ne_nil]

/-- **The base after an append.**  From the end of the compaction on it has the record. -/
theorem Compacting.base_append (h : st.Compacting hash owner)
    (hpc : st.writers t = .appending w acc) (htime : st.InTime (.append t)) (pc : WriterPc) :
    let st' : Shared T := { st.setWriter t pc with
      aof := st.aof.append w.tokens, history := Shared.settle t .logged st.history }
    ∃ base, st'.Agrees hash owner base ∧ st'.Holding hash base := by
  intro st'
  obtain ⟨base, hagrees, hholding⟩ := h.base
  have htime : ∀ e ∈ pendingOf t st.history, st.rewriter.accepts e = true := htime
  cases hrw : st.rewriter with
  | done =>
    simp only [hrw, RewriterPc.accepts, Bool.or_eq_true, Bool.not_eq_true'] at htime
    simp only [Holding, hrw] at hholding
    obtain ⟨records, hholds, hreplay⟩ := hholding
    refine ⟨w.updates.foldl Update.onCells base,
      fun k hk => h.agrees_append hpc hagrees htime hk, ?_⟩
    simp only [st', Holding, setWriter, hrw]
    refine ⟨records ++ [w.tokens], hholds.append w.tokens_ne_nil, fun clock => ?_⟩
    rw [cells_replay_append, hreplay]
  | _ =>
    simp only [hrw, RewriterPc.accepts, Bool.not_eq_true'] at htime
    have htmp : (st.aof.append w.tokens).disk.tmp = st.aof.disk.tmp := by
      rw [h.append_eq]
      rfl
    exact ⟨base, fun k hk => hagrees.settle (lateOf_eq_nil htime) hk,
      hholding.of_tmp (by simp [hrw]) rfl htmp⟩

end Append

/-- **An append in time.** -/
theorem Compacting.append (h : st.Compacting hash owner) (hpc : st.writers t = .appending w acc)
    (htime : st.InTime (.append t)) (response : Bytes) :
    Compacting hash owner { st.setWriter t (.returned response) with
      aof := st.aof.append w.tokens, history := settle t .logged st.history } := by
  have hpending : ∀ t', ∀ e ∈ pendingOf t' (settle t .logged st.history),
      e ∈ pendingOf t' st.history := by
    intro t' e he
    by_cases ht : t' = t
    · subst ht
      rw [pendingOf_settle_self (by simp)] at he
      cases he
    · rwa [pendingOf_settle_of_ne ht] at he
  have hreturned : (WriterPc.returned response).Owned owner t := trivial
  exact {
    reachable := h.reachable
    undated := h.undated
    writable := by
      simp only [h.append_eq]
      exact h.writable
    program := h.program.ends (by simp) (fun _ _ => rfl) rfl rfl
    owned := h.owned_setWriter hreturned
    late := fun t' e he => h.late t' e (hpending t' e he)
    again := fun t' e he => h.again t' e (hpending t' e he)
    base := h.base_append hpc htime _ }

/-! ## 5. A step of the compaction -/

section Rewrite

variable {now : Time} {i : Fin numShards} {snap : StoreSnapshot} {F : FlatStore} {k : Bytes}

omit [DecidableEq T] in
theorem passed_rewriteStep (st : Shared T) (now : Time) (order : IterOrder) {i : Fin numShards}
    (h : st.rewriter.passed i = true) : (st.rewriteStep now order).rewriter.passed i = true := by
  unfold rewriteStep
  cases hrw : st.rewriter <;> rw [hrw] at h
  case ready => cases h
  case snapshot now' j snap =>
    have hlt : i < j := of_decide_eq_true h
    dsimp only
    split
    · exact decide_eq_true (Nat.lt_succ_of_lt hlt)
    · rfl
  case done => rw [hrw]; rfl
  all_goals rfl

/-- **One more shard.** -/
theorem Compacting.taken_shard (h : st.Compacting hash owner) (htaken : Taken now snap F)
    (hlacks : ∀ k, i ≤ getShardIndex hash k → F.Lacks k) (order : IterOrder) :
    Taken now (snap.append ((st.store.shards i).snapshot order now))
      (F.or (st.store.shards i).flat) := by
  have hplaced := h.reachable.wellPlaced
  refine htaken.append ⟨StoreShard.snapshot_shows .., ?_, ?_⟩ fun k => ?_
  · exact hplaced.noEmpty_flat h.reachable.noEmpty i
  · exact hplaced.undated_flat h.undated i
  · by_cases hk : getShardIndex hash k = i
    · exact Or.inl (hlacks k (le_of_eq hk.symm))
    · exact Or.inr (hplaced.lacks hk)

/-- The values of the shard are live, and nothing that is late is about them. -/
theorem Compacting.agrees_shard (h : st.Compacting hash owner)
    (hpc : st.rewriter = .snapshot now i snap) (hagrees : st.Agrees hash owner F.cells)
    (hlacks : ∀ k, i ≤ getShardIndex hash k → F.Lacks k) (hk : getShardIndex hash k ≤ i) :
    (st.store.view hash).cells k = (lateOf (owner k) st.history).foldl Update.onCells
      (F.or (st.store.shards i).flat).cells k := by
  rcases lt_or_eq_of_le hk with hlt | heq
  · have hpassed : st.rewriter.passed (getShardIndex hash k) = true := by
      rw [hpc]
      exact decide_eq_true hlt
    rw [hagrees k hpassed]
    exact Update.foldl_onCells_congr _
      (FlatStore.cells_or_left (h.reachable.wellPlaced.lacks (ne_of_lt hlt))).symm
  · rw [Update.foldl_onCells_of_ne, FlatStore.cells_or_right (hlacks k (le_of_eq heq.symm)),
      cells_flat st.store heq]
    rintro u hu rfl
    obtain ⟨e, he, rfl⟩ := List.mem_map.mp hu
    obtain ⟨he, hlate⟩ := List.mem_filter.mp he
    have hpassed := h.late _ e he hlate
    rw [hpc, heq] at hpassed
    exact lt_irrefl i (of_decide_eq_true hpassed)

omit [DecidableEq T] in
theorem writable_rewriteStep (h : st.aof.enabled = true ∧ st.aof.isOpen = true) (now : Time)
    (order : IterOrder) : (st.rewriteStep now order).aof.enabled = true ∧
      (st.rewriteStep now order).aof.isOpen = true := by
  unfold rewriteStep
  split
  · rw [if_pos h.1]
    exact h
  · exact h
  · exact h
  · exact ⟨h.1, rfl⟩
  · exact h

/-- **The base after a step.**  It is what the snapshot has so far. -/
theorem Compacting.base_rewriteStep (h : st.Compacting hash owner) (now : Time)
    (order : IterOrder) : ∃ base, (st.rewriteStep now order).Agrees hash owner base ∧
      (st.rewriteStep now order).Holding hash base := by
  obtain ⟨base, hagrees, hholding⟩ := h.base
  unfold Holding at hholding
  cases hrw : st.rewriter <;> rw [hrw] at hholding
  case ready =>
    refine ⟨FlatStore.empty.cells, ?_, ?_⟩
    · simp only [Agrees, rewriteStep, hrw, h.writable.1, if_true]
      exact fun k hk => absurd hk (by simp [RewriterPc.passed])
    · simp only [Holding, rewriteStep, hrw, h.writable.1, if_true]
      exact ⟨FlatStore.empty, taken_empty now, rfl, fun _ _ => ⟨rfl, rfl, rfl⟩⟩
  case snapshot now' i snap =>
    obtain ⟨F, htaken, rfl, hlacks⟩ := hholding
    have htaken' := h.taken_shard htaken hlacks order
    refine ⟨(F.or (st.store.shards i).flat).cells, ?_⟩
    by_cases hnext : i.val + 1 < numShards
    · constructor
      · simp only [Agrees, rewriteStep, hrw, dif_pos hnext]
        exact fun k hk =>
          h.agrees_shard hrw hagrees hlacks (Nat.le_of_lt_succ (of_decide_eq_true hk))
      · simp only [Holding, rewriteStep, hrw, dif_pos hnext]
        refine ⟨_, htaken', rfl, fun k hk => ?_⟩
        have hlt : i < getShardIndex hash k := hk
        exact (hlacks k hlt.le).or (h.reachable.wellPlaced.lacks (ne_of_gt hlt))
    · constructor
      · simp only [Agrees, rewriteStep, hrw, dif_neg hnext]
        intro k _
        have hk := (getShardIndex hash k).isLt
        exact h.agrees_shard hrw hagrees hlacks (Fin.le_def.mpr (by omega))
      · simp only [Holding, rewriteStep, hrw, dif_neg hnext]
        exact ⟨now', _, htaken', rfl⟩
  case write snap =>
    obtain ⟨now', F, htaken, hF⟩ := hholding
    refine ⟨base, ?_, ?_⟩
    · simp only [Agrees, rewriteStep, hrw] at hagrees ⊢
      exact hagrees
    · simp only [Holding, rewriteStep, hrw]
      exact ⟨snap, now', F, rfl, htaken, hF⟩
  case rename =>
    obtain ⟨snap, now', F, htmp, htaken, hF⟩ := hholding
    refine ⟨base, ?_, ?_⟩
    · simp only [Agrees, rewriteStep, hrw] at hagrees ⊢
      exact hagrees
    · simp only [Holding, rewriteStep, hrw]
      refine ⟨snapshotRecords snap, ⟨snapshotRecords_ne_nil snap, none, ?_⟩, fun clock => ?_⟩
      · simp [h.writable.1, Disk.rename, Disk.create, htmp, rewriteImage_eq]
      · rw [htaken.replay clock, hF]
  case done =>
    have hstay : st.rewriteStep now order = st := by simp only [rewriteStep, hrw]
    rw [hstay]
    exact ⟨base, hagrees, by simpa only [Holding, hrw] using hholding⟩

end Rewrite

/-- **A step of the compaction.** -/
theorem Compacting.rewrite (h : st.Compacting hash owner) (now : Time) (order : IterOrder) :
    (st.rewriteStep now order).Compacting hash owner := by
  obtain ⟨hstore, hwriters, hhistory⟩ := st.rewriteStep_frame now order
  refine ⟨hstore ▸ h.reachable, hstore ▸ h.undated, writable_rewriteStep h.writable now order,
    fun t => ?_, fun t => ?_, fun t e he hlate => ?_, fun t e he hpush => ?_,
    h.base_rewriteStep now order⟩
  · rw [hwriters, hhistory]
    exact h.program t
  · rw [hwriters]
    exact h.owned t
  · rw [hhistory] at he
    exact passed_rewriteStep st now order (h.late t e he hlate)
  · rw [hhistory] at he
    rw [hstore]
    exact h.again t e he hpush

/-- **A step in time keeps the invariant.** -/
theorem Compacting.step (h : st.Compacting hash owner) {ev : Action T} (howned : ev.Owned owner)
    (htime : st.InTime ev) : (st.step hash ev).Compacting hash owner := by
  rcases st.step_cases hash ev with heq | hs
  · rw [heq]
    exact h
  generalize st.step hash ev = st' at hs
  cases hs with
  | request w hpc => exact h.request hpc howned
  | store hpc hrest => exact h.call hpc _ rfl rfl (h.storing hpc)
  | storeLast hpc hlogs => exact h.call hpc _ rfl rfl (h.storing hpc)
  | drop hpc hlogs =>
    rw [Write.logs_of_adds (h.storing hpc).1] at hlogs
    cases hlogs
  | append hpc => exact h.append hpc htime _
  | rewrite now order => exact h.rewrite now order

/-! ## 6. All interleavings -/

/-- **The compaction loses and duplicates no update**, in every interleaving in which no record
is appended at the wrong time: when it has ended and nobody is in a command, the log loads as
the strings, hashes and lists of the store. -/
theorem reloads_of_inTime (hash : Bytes → Nat) (lim : Limits) (clock : Nat → Time)
    (owner : Bytes → T) (store : KeyValueStore) (hreachable : Reachable hash store)
    (hundated : (store.view hash).Undated) (disk : Disk) (evs : List (Action T))
    (howned : ∀ ev ∈ evs, ev.Owned owner)
    (h : Steps (step hash) InTime evs (start store ⟨true, true, disk⟩ .ready)) :
    Always (step hash) (fun st => st.rewriter = .done → st.Quiet → st.Fits lim →
      st.Reloads lim hash clock) evs (start store ⟨true, true, disk⟩ .ready) := by
  have hinv : Always (step hash) (Compacting hash owner) evs
      (start store ⟨true, true, disk⟩ .ready) :=
    always_of_steps (fun _ _ hst hev => hst.step hev.1 hev.2)
      (compacting_start store hreachable hundated disk) ((steps_of_forall howned _).and h)
  refine hinv.mono fun st hst hdone hquiet hfits => ?_
  obtain ⟨base, hagrees, hholding⟩ := hst.base
  simp only [Holding, hdone] at hholding
  obtain ⟨records, hholds, hreplay⟩ := hholding
  rw [reloads_iff hholds hfits, hreplay]
  funext k
  have hnone : lateOf (owner k) st.history = [] := by
    rw [lateOf, hst.program.quiet (hquiet (owner k))]
    rfl
  have hk := hagrees k (by rw [hdone]; rfl)
  rw [hk, hnone]
  rfl

/-- A `SET` before the snapshot sees its shard and a push after it, both logged at the end. -/
theorem reloads_of_inTime_around :
    let hash : Bytes → Nat := fun _ => 0
    let lim : Limits := ⟨99, 99, by decide, by decide⟩
    let first : Shared Bool := start .empty ⟨true, true, ⟨some [], none⟩⟩ .ready
    let evs : List (Action Bool) :=
      [.rewrite 0 .plain, .request true (.set [107] [49] [] rfl), .storeCall true 0] ++
        List.replicate (numShards + 1) (.rewrite 0 .plain) ++
        [.request false (.rpush [108] [50] []), .storeCall false 0, .rewrite 0 .plain,
          .append false, .append true]
    Steps (step hash) InTime evs first ∧ (evs.foldl (step hash) first).rewriter = .done ∧
      (evs.foldl (step hash) first).Reloads lim hash fun _ => 0 := by
  intro hash lim first evs
  have hsteps : Steps (step hash) InTime evs first := by decide +kernel
  have howned : ∀ ev ∈ evs, ev.Owned fun key => key == [107] := by decide +kernel
  have hdone : (evs.foldl (step hash) first).rewriter = .done := by decide +kernel
  refine ⟨hsteps, hdone, (reloads_of_inTime hash lim (fun _ => 0) _ .empty Reachable.empty ?_ _
    evs howned hsteps).last hdone (by decide +kernel) ?_⟩
  · intro k e he
    cases he
  · exact fits_of_length (by decide +kernel) (by decide +kernel)

/-- **A `SET` between the snapshot and the rename**, whose record is discarded with the old log,
and an `RPUSH` that the snapshot has, whose record follows it in the new one. -/
theorem not_reloads_of_gap :
    let hash : Bytes → Nat := fun _ => 0
    let lim : Limits := ⟨99, 99, by decide, by decide⟩
    let first : Shared Unit := start .empty ⟨true, true, ⟨some [], none⟩⟩ .ready
    let lost : List (Action Unit) := List.replicate (numShards + 2) (.rewrite 0 .plain) ++
      [.request () (.set [107] [49] [] rfl), .storeCall () 0, .append (), .rewrite 0 .plain]
    let doubled : List (Action Unit) :=
      [.request () (.rpush [107] [50] []), .storeCall () 0] ++
        List.replicate (numShards + 3) (.rewrite 0 .plain) ++ [.append ()]
    (∀ ev ∈ lost ++ doubled, ev.Owned fun _ => ()) ∧
      ∀ evs ∈ [lost, doubled], ¬ Always (step hash) (fun st => st.rewriter = .done → st.Quiet →
        st.Fits lim → st.Reloads lim hash fun _ => 0) evs first := by
  intro hash lim first lost doubled
  refine ⟨by decide +kernel, fun evs hevs => ?_⟩
  have hcases : evs = lost ∨ evs = doubled := by simpa using hevs
  rcases hcases with rfl | rfl
  · intro h
    have hfits : (lost.foldl (step hash) first).Fits lim :=
      fits_of_length (by decide +kernel) (by decide +kernel)
    have hcell := (h.last (by decide +kernel) (by decide +kernel) hfits).cells [107]
    exact absurd (congrArg (Option.map Cell.string) hcell) (by decide +kernel)
  · intro h
    have hfits : (doubled.foldl (step hash) first).Fits lim :=
      fits_of_length (by decide +kernel) (by decide +kernel)
    have hcell := (h.last (by decide +kernel) (by decide +kernel) hfits).cells [107]
    exact absurd (congrArg (Option.map Cell.list) hcell) (by decide +kernel)

end Shared

end KeyValueDb
