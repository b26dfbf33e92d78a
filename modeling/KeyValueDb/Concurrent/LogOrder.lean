/-
# The order of the log

The store sees the updates of all threads in one order and the log gets the records in
another, for each command makes its updates first and appends its record later.  What the log
replays to is the outcome of the updates in the order of their records.

Where two logged commands have updates that conflict, made in one order and logged in the
other, the log is another history than the store's.  Where there are no such commands
(`InOrder`) the two have the same outcome: the updates of a record that is appended can be
moved past everything that was logged before it (`Inv.step`).
-/
import KeyValueDb.Concurrent.Reload
import KeyValueDb.Lib.Runs

namespace KeyValueDb

open Lib Function

/-! ## 1. Histories -/

section Histories

variable {T : Type}

noncomputable def Entry.onCells (C : Bytes → Cell) (e : Entry T) : Bytes → Cell :=
  Update.onCells C e.update

/-- What a history makes of nothing. -/
noncomputable def outcome (history : List (Entry T)) : Bytes → Cell :=
  history.foldl Entry.onCells FlatStore.empty.cells

theorem outcome_append (h h' : List (Entry T)) :
    outcome (h ++ h') = (h'.map Entry.update).foldl Update.onCells (outcome h) := by
  rw [outcome, List.foldl_append, List.foldl_map]
  rfl

def Entry.isLogged (e : Entry T) : Bool := e.fate = .logged

/-- Everything but what was dropped and what is pending of the threads in `S`. -/
def Entry.isKept (S : T → Bool) (e : Entry T) : Bool :=
  match e.fate with
  | .logged => true
  | .pending => !S e.thread
  | .dropped => false

variable [DecidableEq T] {t : T} {S : T → Bool} {fate : LogFate} {e : Entry T}

theorem isKept_settle_logged :
    (e.settle t .logged).isKept S = e.isKept (Function.update S t false) := by
  obtain ⟨thread, u, late, fate⟩ := e
  by_cases ht : thread = t
  · subst ht
    cases fate <;> simp [Entry.settle, Entry.isKept]
  · simp [Entry.settle, Entry.isKept, ht]

theorem isKept_settle_dropped :
    (e.settle t .dropped).isKept S = e.isKept (Function.update S t true) := by
  obtain ⟨thread, u, late, fate⟩ := e
  by_cases ht : thread = t
  · subst ht
    cases fate <;> simp [Entry.settle, Entry.isKept]
  · simp [Entry.settle, Entry.isKept, ht]

theorem isLogged_settle_logged :
    (e.settle t .logged).isLogged = (e.isLogged || e.isPending t) := by
  obtain ⟨thread, u, late, fate⟩ := e
  by_cases ht : thread = t <;> cases fate <;>
    simp [Entry.settle, Entry.isLogged, Entry.isPending, ht]

theorem isLogged_settle_dropped : (e.settle t .dropped).isLogged = e.isLogged := by
  obtain ⟨thread, u, late, fate⟩ := e
  by_cases ht : thread = t <;> cases fate <;>
    simp [Entry.settle, Entry.isLogged, ht]

/-- What passes a test in a settled history. -/
theorem outcome_filter_settle {p q : Entry T → Bool} (h : List (Entry T))
    (hpq : ∀ e, p (e.settle t fate) = q e) :
    outcome ((Shared.settle t fate h).filter p) = outcome (h.filter q) := by
  rw [outcome, Shared.settle, List.filter_map, List.foldl_map, outcome]
  congr 1
  · funext C e
    rw [Entry.onCells, update_settle]
    rfl
  · exact List.filter_congr fun e _ => hpq e

end Histories

/-! ## 2. The invariant -/

/-- The command is not to be logged for anything it has done so far. -/
def WriterPc.Void : WriterPc → Prop
  | .storing w rest acc => w.logs acc = false ∨ rest = w.updates
  | _ => False

namespace Shared

variable {T : Type} [DecidableEq T] {hash : Bytes → Nat} {st st' : Shared T} {t : T}

/-- A thread does not append its record when a command of another thread is logged already that
made a conflicting update after it. -/
def InOrder (st : Shared T) : Action T → Prop
  | .append t => st.history.Pairwise fun e later =>
      e.isPending t = true → later.isLogged = true → e.update.conflicts later.update = false
  | _ => True

instance (st : Shared T) (ev : Action T) : Decidable (st.InOrder ev) :=
  match ev with
  | .append t => inferInstanceAs (Decidable (st.history.Pairwise fun e later =>
      e.isPending t = true → later.isLogged = true → e.update.conflicts later.update = false))
  | .request .. | .storeCall .. | .rewrite .. => isTrue trivial

/-- The invariant.  A command that has removed nothing so far can be left out. -/
structure Inv (hash : Bytes → Nat) (st : Shared T) : Prop where
  reachable : Reachable hash st.store
  rewriter : st.rewriter = .done
  program : st.Programmed
  live : ∀ S : T → Bool, (∀ t, S t = true → (st.writers t).Void) →
    (st.store.view hash).cells = outcome (st.history.filter (Entry.isKept S))
  log : ∃ records, st.aof.Holds records ∧ ∀ clock,
    (FlatStore.empty.replay clock 0 records).cells =
      outcome (st.history.filter Entry.isLogged)

/-- An empty store and an empty log. -/
def fresh : Shared T := start .empty ⟨true, true, ⟨some [], none⟩⟩ .done

omit [DecidableEq T] in
theorem holds_fresh : (fresh : Shared T).aof.Holds [] :=
  ⟨fun _ h => absurd h List.not_mem_nil, none, rfl⟩

theorem inv_fresh (hash : Bytes → Nat) : (fresh : Shared T).Inv hash where
  reachable := Reachable.empty
  rewriter := rfl
  program := programmed_start _ _ _
  live _ _ := rfl
  log := ⟨[], holds_fresh, fun _ => rfl⟩

/-- The log of a quiet state is the history of the store. -/
theorem Inv.quiet (h : st.Inv hash) (hquiet : st.Quiet) :
    (st.store.view hash).cells = outcome (st.history.filter Entry.isLogged) := by
  rw [h.live (fun _ => false) (fun _ hS => absurd hS (by simp))]
  congr 1
  refine List.filter_congr fun e he => ?_
  have hnone : e.isPending e.thread = false := by
    have hnil := h.program.quiet (hquiet e.thread)
    rw [pendingOf, List.filter_eq_nil_iff] at hnil
    exact Bool.eq_false_iff.mpr (hnil e he)
  obtain ⟨thread, u, late, fate⟩ := e
  cases fate
  · simp [Entry.isPending] at hnone
  · rfl
  · rfl

/-! ## 3. A step -/

section Step

variable {now : Time} {w : Write} {u : Update} {rest : List Update} {acc : Nat}

/-- **A call of the store**, after which the command goes on or is to be logged. -/
theorem Inv.call (h : st.Inv hash) (hpc : st.writers t = .storing w (u :: rest) acc)
    {pc : WriterPc} (hupdates : pc.updates = w.updates) (htodo : pc.todo = rest)
    (hvoid : pc.Void → w.logs (w.note acc (u.run hash now st.store).1) = false ∧ rest ≠ []) :
    ((st.call hash t now u).setWriter t pc).Inv hash := by
  have hmem := h.program.storing hpc
  refine ⟨h.reachable.update now u, h.rewriter, h.program.call hpc now hupdates htodo, ?_, ?_⟩
  · intro S hS
    have hothers : ∀ t', t' ≠ t → S t' = true → (st.writers t').Void := by
      intro t' ht hSt
      have hv := hS t' hSt
      rwa [writers_of_ne ht] at hv
    have hcells : (((st.call hash t now u).setWriter t pc).store.view hash).cells =
        Update.onCells (st.store.view hash).cells u := Update.cells_run u
    have hhistory : ((st.call hash t now u).setWriter t pc).history =
        st.history ++ [st.entry hash t u] := rfl
    rw [hcells, hhistory, List.filter_append]
    by_cases hSt : S t = true
    · -- the command can be left out, so the call has changed nothing
      have hv := hS t hSt
      rw [writers_self] at hv
      obtain ⟨hlogs, hrest⟩ := hvoid hv
      obtain ⟨hsame, hbefore⟩ := onCells_of_not_logs (hmem ▸ by simp) h.reachable.noEmpty hlogs
      have hfirst : w.logs acc = false := by
        refine hbefore.resolve_right fun hone => ?_
        have hlen := congrArg List.length (hmem.trans hone)
        simp only [List.length_append, List.length_cons, List.length_nil] at hlen
        exact hrest (List.length_eq_zero_iff.mp (by omega))
      have hkept : [st.entry hash t u].filter (Entry.isKept S) = [] := by
        simp [entry, Entry.isKept, hSt]
      rw [hsame, hkept, List.append_nil]
      refine h.live S fun t' hSt' => ?_
      by_cases ht : t' = t
      · subst ht
        rw [hpc]
        exact Or.inl hfirst
      · exact hothers t' ht hSt'
    · have hkept : [st.entry hash t u].filter (Entry.isKept S) =
          [st.entry hash t u] := by simp [entry, Entry.isKept, hSt]
      rw [hkept, outcome_append]
      refine congrArg (Update.onCells · u) (h.live S fun t' hSt' => ?_)
      refine hothers t' ?_ hSt'
      rintro rfl
      exact hSt hSt'
  · obtain ⟨records, hholds, hreplay⟩ := h.log
    refine ⟨records, hholds, fun clock => ?_⟩
    have hlogged : ((st.call hash t now u).setWriter t pc).history.filter Entry.isLogged =
        st.history.filter Entry.isLogged := by
      simp [setWriter, Shared.call, entry, Entry.isLogged]
    rw [hlogged]
    exact hreplay clock

/-- **The last call of a command** that is not to be logged. -/
theorem Inv.drop (h : st.Inv hash) (hpc : st.writers t = .storing w [u] acc)
    (hlogs : w.logs (w.note acc (u.run hash now st.store).1) = false) (response : Bytes) :
    Inv hash { (st.call hash t now u).setWriter t (.returned response) with
      history := settle t .dropped (st.call hash t now u).history } := by
  have hmem := h.program.storing hpc
  obtain ⟨hsame, hbefore⟩ := onCells_of_not_logs (hmem ▸ by simp) h.reachable.noEmpty hlogs
  have hothers : ∀ t', t' ≠ t →
      pendingOf t' (st.call hash t now u).history = pendingOf t' st.history :=
    fun t' ht => pendingOf_call_of_ne ht now
  refine ⟨h.reachable.update now u, h.rewriter, h.program.ends (by simp) hothers rfl rfl, ?_, ?_⟩
  · intro S hS
    have hnew : [st.entry hash t u].filter
        (Entry.isKept (Function.update S t true)) = [] := by simp [entry, Entry.isKept]
    have hcells : ((st.call hash t now u).store.view hash).cells =
        Update.onCells (st.store.view hash).cells u := Update.cells_run u
    refine (hcells.trans hsame).trans ?_
    rw [outcome_filter_settle _ fun _ => isKept_settle_dropped, Shared.call, List.filter_append,
      hnew, List.append_nil]
    refine h.live _ fun t' hSt' => ?_
    by_cases ht : t' = t
    · subst ht
      rw [hpc]
      exact hbefore.imp id Eq.symm
    · rw [Function.update_of_ne ht] at hSt'
      have hv : (Function.update st.writers t (.returned response) t').Void := hS t' hSt'
      rwa [Function.update_of_ne ht] at hv
  · obtain ⟨records, hholds, hreplay⟩ := h.log
    refine ⟨records, hholds, fun clock => ?_⟩
    rw [outcome_filter_settle _ fun _ => isLogged_settle_dropped]
    simpa [Shared.call, entry, Entry.isLogged] using hreplay clock

/-- **An append**, in order. -/
theorem Inv.append (h : st.Inv hash) (hpc : st.writers t = .appending w acc)
    (horder : st.InOrder (.append t)) (response : Bytes) :
    Inv hash { st.setWriter t (.returned response) with
      aof := st.aof.append w.tokens, history := settle t .logged st.history } := by
  have hprogram := h.program.appending hpc
  refine ⟨h.reachable, h.rewriter, h.program.ends (by simp) (fun _ _ => rfl) rfl rfl, ?_, ?_⟩
  · intro S hS
    have hSt : S t = false := by
      by_contra hSt
      rw [Bool.not_eq_false] at hSt
      have hv : (Function.update st.writers t (.returned response) t).Void := hS t hSt
      rw [Function.update_self] at hv
      exact hv
    rw [outcome_filter_settle _ fun _ => isKept_settle_logged, ← hSt, Function.update_eq_self]
    refine h.live S fun t' hSt' => ?_
    have ht : t' ≠ t := by
      rintro rfl
      rw [hSt] at hSt'
      cases hSt'
    have hv : (Function.update st.writers t (.returned response) t').Void := hS t' hSt'
    rwa [Function.update_of_ne ht] at hv
  · obtain ⟨records, hholds, hreplay⟩ := h.log
    refine ⟨records ++ [w.tokens], hholds.append w.tokens_ne_nil, fun clock => ?_⟩
    have hmoved : outcome (st.history.filter fun e => e.isLogged || e.isPending t) =
        (st.history.filter (Entry.isPending t)).foldl Entry.onCells
          (outcome (st.history.filter Entry.isLogged)) := by
      refine foldl_filter_or ?_ (List.Pairwise.imp ?_ horder) _
      · intro e _ hlogged hpending
        simp [Entry.isLogged, Entry.isPending] at hlogged hpending
        rw [hlogged] at hpending
        exact absurd hpending.2 (by simp)
      · intro e later hconflicts hpending hlogged C
        exact Update.commutes_iff.mpr (hconflicts hpending hlogged) C
    rw [cells_replay_append, hreplay clock,
      outcome_filter_settle _ fun _ => isLogged_settle_logged, hmoved, ← hprogram, pendingOf,
      List.foldl_map]
    rfl

/-- A new command. -/
theorem Inv.request (h : st.Inv hash)
    (hpc : st.writers t = .idle ∨ ∃ response, st.writers t = .returned response) (w : Write) :
    (st.setWriter t (.storing w w.updates 0)).Inv hash := by
  have hnone := h.program.quiet hpc
  refine ⟨h.reachable, h.rewriter, h.program.request hpc w, ?_, h.log⟩
  · intro S hS
    have hkept : st.history.filter (Entry.isKept S) =
        st.history.filter (Entry.isKept (Function.update S t false)) := by
      refine List.filter_congr fun e he => ?_
      rw [pendingOf, List.filter_eq_nil_iff] at hnone
      have he := hnone e he
      obtain ⟨thread, u, late, fate⟩ := e
      cases fate
      · have ht : thread ≠ t := by simpa [Entry.isPending] using he
        simp [Entry.isKept, Function.update_of_ne ht]
      · rfl
      · rfl
    refine (h.live (Function.update S t false) fun t' hSt' => ?_).trans
      (congrArg outcome hkept.symm)
    have ht : t' ≠ t := by
      rintro rfl
      rw [Function.update_self] at hSt'
      cases hSt'
    rw [Function.update_of_ne ht] at hSt'
    have hv := hS t' hSt'
    rwa [writers_of_ne ht] at hv

/-- **A step in order keeps the invariant.** -/
theorem Inv.step (h : st.Inv hash) {ev : Action T} (hev : st.InOrder ev) :
    (st.step hash ev).Inv hash := by
  rcases st.step_cases hash ev with heq | hs
  · rw [heq]
    exact h
  generalize st.step hash ev = st' at hs
  cases hs with
  | request w hpc => exact h.request hpc w
  | store hpc hrest =>
    refine h.call hpc rfl rfl fun hvoid => ⟨hvoid.resolve_right fun hall => ?_, hrest⟩
    have hlen := congrArg List.length ((h.program.storing hpc).trans hall.symm)
    simp only [List.length_append, List.length_cons] at hlen
    omega
  | storeLast hpc hlogs => exact h.call hpc rfl rfl fun hvoid => absurd hvoid id
  | drop hpc hlogs => exact h.drop hpc hlogs _
  | append hpc => exact h.append hpc hev _
  | rewrite now order =>
    have hstay : st.rewriteStep now order = st := by simp only [rewriteStep, h.rewriter]
    rw [hstay]
    exact h

end Step

/-! ## 4. All interleavings -/

/-- **The log order is the store order**, in every interleaving in which no command is logged
after one that made a conflicting update later: whenever nobody is in a command, the log loads
as the strings, hashes and lists of the store. -/
theorem reloads_of_inOrder (hash : Bytes → Nat) (lim : Limits) (clock : Nat → Time)
    (evs : List (Action T)) (h : Steps (step hash) InOrder evs fresh) :
    Always (step hash) (fun st => st.Quiet → st.Fits lim → st.Reloads lim hash clock) evs
      fresh := by
  have hinv : Always (step hash) (Inv hash) evs fresh :=
    always_of_steps (fun _ _ hst hev => hst.step hev) (inv_fresh hash) h
  refine hinv.mono fun st hst hquiet hfits => ?_
  obtain ⟨records, hholds, hreplay⟩ := hst.log
  rw [reloads_iff hholds hfits, hreplay, hst.quiet hquiet]

/-- Two pushes at the two ends of a list, logged in the other order. -/
theorem reloads_of_inOrder_pushes :
    let hash : Bytes → Nat := fun _ => 0
    let lim : Limits := ⟨99, 99, by decide, by decide⟩
    let key : Bytes := [107]
    let evs : List (Action Bool) :=
      [.request true (.lpush key [49] []), .request false (.rpush key [50] []),
        .storeCall true 0, .storeCall false 0, .append false, .append true]
    Steps (step hash) InOrder evs fresh ∧
      (evs.foldl (step hash) fresh).Reloads lim hash fun _ => 0 := by
  intro hash lim key evs
  have hsteps : Steps (step hash) InOrder evs fresh := by decide
  refine ⟨hsteps, (reloads_of_inOrder hash lim (fun _ => 0) evs hsteps).last ?_ ?_⟩
  · intro t
    cases t <;> exact Or.inr ⟨_, rfl⟩
  · exact fits_of_length (by decide) (by decide)

/-- **Two `SET`s of one key**, made in one order and logged in the other. -/
theorem not_reloads_of_sets :
    let hash : Bytes → Nat := fun _ => 0
    let lim : Limits := ⟨99, 99, by decide, by decide⟩
    let key : Bytes := [107]
    let evs : List (Action Bool) :=
      [.request true (.set key [49] [] rfl), .request false (.set key [50] [] rfl),
        .storeCall true 0, .storeCall false 0, .append false, .append true]
    ¬ Always (step hash) (fun st => st.Quiet → st.Fits lim → st.Reloads lim hash fun _ => 0) evs
      fresh := by
  intro hash lim key evs h
  have hquiet : (evs.foldl (step hash) fresh).Quiet := by
    intro t
    cases t <;> exact Or.inr ⟨_, rfl⟩
  have hfits : (evs.foldl (step hash) fresh).Fits lim := fits_of_length (by decide) (by decide)
  have hfirst : ((fresh : Shared Bool).aof.append [bytes "SET", key, [50]]).Holds
      [[bytes "SET", key, [50]]] := holds_fresh.append (by simp)
  have hholds : (evs.foldl (step hash) fresh).aof.Holds
      [[bytes "SET", key, [50]], [bytes "SET", key, [49]]] := hfirst.append (by simp)
  have hcells := congrFun ((reloads_iff hholds hfits).mp (h.last hquiet hfits)) key
  have hreplayed : ((FlatStore.empty.replay (fun _ => 0) 0
      [[bytes "SET", key, [50]], [bytes "SET", key, [49]]]).cells key).string = some [49] := by rfl
  have hlive : (((evs.foldl (step hash) fresh).store.view hash).cells key).string = some [50] := by
    rfl
  rw [← hcells, hreplayed] at hlive
  exact absurd hlive (by decide)

end Shared

end KeyValueDb
