/-
# The locks of the shards

`Store/Sections.lean` lets a thread run a section at once.  Here it does what the code does: it
takes the `std::shared_mutex` of the shard, by `std::shared_lock` or by `std::unique_lock`, works
on the maps of the shard step by step while other threads work, and gives the mutex back.

How the body of a section is cut into steps is left open, so this holds for any granularity.  A
run at the level of the locks is a run of whole sections, in the order in which the mutexes are
given back (`locked_refines`), and what is proved of those holds of it.
-/
import KeyValueDb.Lib.SharedMutex
import KeyValueDb.Store.Sections

namespace KeyValueDb

open Lib Function

/-! ## 1. Which locks -/

/-- The sections under `std::unique_lock`; the others are under `std::shared_lock`. -/
def Section.exclusive : Section → Bool
  | .getPeek .. | .exists .. | .ttlPeek .. | .size .. | .getSnapshot .. => false
  | .getTouch .. | .getPurge .. | .ttlPurge .. | .purgeExpiredKeys .. | .set .. | .expire ..
  | .incrBy .. => true

/-- **Nothing is written under a shared lock.** -/
theorem Section.run_of_shared {sec : Section} (h : sec.exclusive = false) (order : IterOrder)
    (shard : StoreShard) : (sec.run order shard).2 = shard := by
  cases sec with
  | getPeek now key =>
    simp only [Section.run]
    split <;> rfl
  | ttlPeek now key =>
    simp only [Section.run]
    split <;> rfl
  | «exists» | size | getSnapshot => rfl
  | getTouch | getPurge | ttlPurge | purgeExpiredKeys | set | expire | incrBy => cases h

/-! ## 2. Threads that take locks -/

section Threads

variable {T : Type}

/-- A thread that is in no call makes one. -/
def Turn.Moves (t : T) : Turn T → Local → Local → Prop
  | .begin u now m, a, b => u = t ∧ (∀ sec, a ≠ .running sec) ∧ b = .running (m.begin now)
  | .section _ _, _, _ => False

/-- A thread runs its next section, cut into steps in some way. -/
def Turn.Enters (hash : Bytes → Nat) (t : T) :
    Turn T → Local → LockedSection (Fin numShards) StoreShard Local → Prop
  | .begin _ _ _, _, _ => False
  | .section u order, a, body => u = t ∧ ∃ sec, a = .running sec ∧
      body.resource = sec.shard hash ∧ body.exclusive = sec.exclusive ∧
        ∀ shard, body.run (a, shard) = sec.run order shard

/-- The shards, and threads that are in no call. -/
def lockedStart (T : Type) (s : KeyValueStore) :
    FineState T (Fin numShards) StoreShard Local (Turn T) :=
  ⟨s.shards, fun _ => .outside .idle⟩

/-- A section in one step. -/
def Section.whole (hash : Bytes → Nat) (order : IterOrder) (sec : Section) :
    LockedSection (Fin numShards) StoreShard Local where
  resource := sec.shard hash
  exclusive := sec.exclusive
  steps := [fun x => sec.run order x.2]
  reads h f hf x := by
    rw [List.mem_singleton.mp hf]
    exact Section.run_of_shared h order x.2

/-- The threads of `Store/Sections.lean`, between two sections. -/
def Threads.coarse (st : Threads T) : CoarseState T (Fin numShards) StoreShard Local :=
  ⟨st.store.shards, st.locals⟩

variable [DecidableEq T] {hash : Bytes → Nat}

/-- **One turn.** -/
theorem coarse_step {st : Threads T} {turn : Turn T}
    {ct : CoarseState T (Fin numShards) StoreShard Local}
    (h : CoarseStep Turn.Moves (Turn.Enters hash) st.coarse turn ct) :
    ct = (st.step hash turn).coarse := by
  cases h with
  | move t hmove =>
    cases turn with
    | «section» u order => exact absurd hmove id
    | begin u now m =>
      obtain ⟨rfl, hidle, rfl⟩ := hmove
      simp only [Threads.step]
      split
      · rename_i sec hrunning
        exact absurd hrunning (hidle sec)
      · rfl
  | «section» t henter =>
    cases turn with
    | begin u now m => exact absurd henter id
    | «section» u order =>
      obtain ⟨rfl, sec, hrunning, hresource, -, hrun⟩ := henter
      have hlocal : st.locals u = .running sec := hrunning
      rw [hrun, hresource]
      simp only [Threads.step, Threads.coarse, advance, hlocal]

/-- **A run of whole sections.** -/
theorem coarse_run {st : Threads T} {turns : List (Turn T)}
    {ct : CoarseState T (Fin numShards) StoreShard Local}
    (h : CoarseRun Turn.Moves (Turn.Enters hash) st.coarse turns ct) :
    ct = (turns.foldl (Threads.step hash) st).coarse := by
  induction h with
  | nil => rfl
  | snoc _ hstep ih =>
    rw [List.foldl_append, List.foldl_cons, List.foldl_nil]
    rw [ih] at hstep
    exact coarse_step hstep

/-- **Sections happen at once.**  In every run of any number of threads that take and give back
the mutexes and work step by step in between, there is a run of whole sections, those of the
mutexes that were given back, after which every thread that is in no section is where it is here,
and every shard that nobody holds exclusively is as it is here. -/
theorem locked_refines (hash : Bytes → Nat) (s : KeyValueStore) {turns : List (Turn T)}
    {st : FineState T (Fin numShards) StoreShard Local (Turn T)}
    (hrun : FineRun Turn.Moves (Turn.Enters hash) (lockedStart T s) turns st) :
    let whole := turns.foldl (Threads.step hash) (.start s)
    (∀ t a, st.places t = .outside a → whole.locals t = a) ∧
      ∀ i, (∀ t turn body todo a, st.places t = .inside turn body todo a → body.resource = i →
        body.exclusive = false) → st.resources i = whole.store.shards i := by
  intro whole
  let first : Threads T := .start s
  have hfirst : FineRun Turn.Moves (Turn.Enters hash)
      ⟨first.coarse.resources, fun t => .outside (first.coarse.locals t)⟩ turns st := hrun
  obtain ⟨ct, hcoarse, hrefines⟩ := fine_refines hfirst
  obtain rfl := coarse_run hcoarse
  exact ⟨hrefines.outside, hrefines.shared⟩

end Threads

/-- One thread is in the middle of a `set` while the other calls `get`. -/
theorem locked_refines_set :
    let whole := [Turn.begin true 0 (.set [107] [118] none), .begin false 0 (.get [107]),
      .section true .plain].foldl (Threads.step List.length) (.start .empty)
    whole.locals false = .running (.getPeek 0 [107]) ∧
      whole.locals true = .returned .unit := by
  intro whole
  let set : Section := .set 0 [107] [118] none
  have hset : Turn.Moves true (.begin true 0 (.set [107] [118] none)) .idle (.running set) :=
    ⟨rfl, by simp, rfl⟩
  have hget : Turn.Moves false (.begin false 0 (.get [107])) .idle
      (.running (.getPeek 0 [107])) := ⟨rfl, by simp, rfl⟩
  have henter : Turn.Enters List.length true (.section true .plain) (.running set)
      (set.whole List.length .plain) := ⟨rfl, set, rfl, rfl, rfl, fun _ => rfl⟩
  have hstart : FineRun Turn.Moves (Turn.Enters List.length) (lockedStart Bool .empty) []
      (lockedStart Bool .empty) := .nil
  have hbegin := hstart.snoc (.move true rfl hset)
  have hacquire := hbegin.snoc (.acquire true rfl henter (by rintro (_ | _) <;> exact id))
  have hboth := hacquire.snoc (.move false rfl hget)
  have hwork := hboth.snoc (.work true rfl)
  have hrelease := hwork.snoc (.release true rfl)
  obtain ⟨hplaces, -⟩ := locked_refines List.length .empty hrelease
  exact ⟨hplaces false _ rfl, hplaces true _ rfl⟩

end KeyValueDb
