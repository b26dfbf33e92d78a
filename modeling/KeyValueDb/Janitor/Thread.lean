/-
# janitor_thread among the other threads

The janitor sleeps, purges, measures, and evicts what is over the limit; what the two calls return
it adds to the counters of `INFO`.  Each call takes the lock of one shard after the other, and
between any two sections the other threads may do anything to the store.

The counters are exact all the same (`janitor_counts`): at every moment `expired_keys` and
`evicted_keys`, with what the call in progress has counted so far, are the numbers of string
entries that the purges and the evictions of this thread have erased.  And no eviction erases more
than what was measured over the limit.
-/
import KeyValueDb.Command.Run
import KeyValueDb.Janitor.Eviction

namespace KeyValueDb

open Lib Function

/-! ## 1. The thread -/

def Metrics.onKeyExpired (count : Nat) (m : Metrics) : Metrics :=
  { m with keysExpired := m.keysExpired + UInt64.ofNat count }

def Metrics.onKeyEvicted (count : Nat) (m : Metrics) : Metrics :=
  { m with keysEvicted := m.keysEvicted + UInt64.ofNat count }

/-- Where `janitor_thread` is: asleep, or in one of its three calls. -/
inductive JanitorPlace
  | sleeping
  | purging (call : Local)
  | measuring (call : Local)
  | evicting (keysToEvict : Nat) (call : Evictor)

/-- What the call in progress has purged. -/
def JanitorPlace.purged : JanitorPlace → Nat
  | .purging (.running (.purgeExpiredKeys _ _ _ purged)) => purged
  | .purging (.returned (.size purged)) => purged
  | _ => 0

/-- What the call in progress has evicted. -/
def JanitorPlace.evicted : JanitorPlace → Nat
  | .evicting _ (.erasing _ evicted) | .evicting _ (.done evicted) => evicted
  | _ => 0

structure Janitor where
  place : JanitorPlace
  db : Db

/-- The janitor wakes up, or runs a section, or goes on from what a call returned; or the other
threads leave the database as it is then. -/
inductive JanitorTurn
  | work (now : Time) (order : IterOrder) (sorter : SortOrder)
  | others (db : Db)

namespace Janitor

def start (db : Db) : Janitor := ⟨.sleeping, db⟩

section Step

variable (hash : Bytes → Nat) (maxKeys : Nat)

/-- A call of the store goes on.  `now` is read when a call begins. -/
def work (now : Time) (order : IterOrder) (sorter : SortOrder) (st : Janitor) : Janitor :=
  match st.place with
  | .sleeping => { st with place := .purging (.running (.purgeExpiredKeys now 20 0 0)) }
  | .purging (.returned (.size purged)) =>
    ⟨.measuring (.running (.size now 0 0)), { st.db with
      metrics := if 0 < purged then st.db.metrics.onKeyExpired purged else st.db.metrics }⟩
  | .purging call =>
    let r := advance hash order (call, st.db.store)
    ⟨.purging r.1, { st.db with store := r.2 }⟩
  | .measuring (.returned (.size currentSize)) =>
    if maxKeys < currentSize then
      { st with place := .evicting (currentSize - maxKeys) (.begin (currentSize - maxKeys)) }
    else { st with place := .sleeping }
  | .measuring call =>
    let r := advance hash order (call, st.db.store)
    ⟨.measuring r.1, { st.db with store := r.2 }⟩
  | .evicting _ (.done evicted) =>
    ⟨.sleeping, { st.db with
      metrics := if 0 < evicted then st.db.metrics.onKeyEvicted evicted else st.db.metrics }⟩
  | .evicting keysToEvict call =>
    let r := Evictor.step keysToEvict order sorter (call, st.db.store)
    ⟨.evicting keysToEvict r.1, { st.db with store := r.2 }⟩

/-- Nobody else counts expired or evicted keys. -/
def step (st : Janitor) : JanitorTurn → Janitor
  | .work now order sorter => st.work hash maxKeys now order sorter
  | .others db =>
    { st with db := { db with
        metrics := { db.metrics with
          keysExpired := st.db.metrics.keysExpired
          keysEvicted := st.db.metrics.keysEvicted } } }

/-- The number of string entries that a turn erases, if it is one of a purge. -/
def purgeLosses (st : Janitor) : JanitorTurn → List Nat
  | .others _ => []
  | .work now order sorter =>
    match st.place with
    | .purging _ => [st.db.store.stringEntries -
        (st.work hash maxKeys now order sorter).db.store.stringEntries]
    | _ => []

/-- ...and if it is one of an eviction. -/
def evictionLosses (st : Janitor) : JanitorTurn → List Nat
  | .others _ => []
  | .work now order sorter =>
    match st.place with
    | .evicting _ _ => [st.db.store.stringEntries -
        (st.work hash maxKeys now order sorter).db.store.stringEntries]
    | _ => []

end Step

end Janitor

/-- A request is a turn of the other threads. -/
theorem Janitor.step_serve (hash : Bytes → Nat) (maxKeys : Nat) (ctx : ServerCtx) (st : Janitor)
    (req : Request) :
    st.step hash maxKeys (.others (serve ctx st.db req)) = ⟨st.place, serve ctx st.db req⟩ := by
  obtain ⟨-, -, -, -, hexpired, hevicted⟩ :=
    execute_metrics ctx req.env req.raw st.db req.isAuthenticated
  simp only [Janitor.step]
  rw [← hexpired, ← hevicted]
  rfl

/-! ## 2. The thread alone -/

def JanitorTurn.IsWork : JanitorTurn → Prop
  | .work _ _ _ => True
  | .others _ => False

section Alone

variable {hash : Bytes → Nat} {maxKeys : Nat} {now : Time} {order : IterOrder}
  {sorter : SortOrder} {db : Db} {s : KeyValueStore}

/-- A method has returned. -/
def Local.Returned : Local → Prop
  | .running _ => False
  | _ => True

/-- From the one state to the other without turns of other threads. -/
def Janitor.Works (hash : Bytes → Nat) (maxKeys : Nat) (st st' : Janitor) : Prop :=
  ∃ turns : List JanitorTurn, (∀ turn ∈ turns, turn.IsWork) ∧
    turns.foldl (Janitor.step hash maxKeys) st = st'

theorem Janitor.Works.trans {st st' st'' : Janitor} (h : st.Works hash maxKeys st')
    (h' : st'.Works hash maxKeys st'') : st.Works hash maxKeys st'' := by
  obtain ⟨turns, hwork, rfl⟩ := h
  obtain ⟨turns', hwork', rfl⟩ := h'
  exact ⟨turns ++ turns', List.forall_mem_append.mpr ⟨hwork, hwork'⟩, List.foldl_append⟩

theorem works_work (hash : Bytes → Nat) (maxKeys : Nat) (st : Janitor) (now : Time)
    (order : IterOrder) (sorter : SortOrder) :
    st.Works hash maxKeys (st.work hash maxKeys now order sorter) :=
  ⟨[.work now order sorter], List.forall_mem_singleton.mpr trivial, rfl⟩

theorem works_replicate (now : Time) (order : IterOrder) (sorter : SortOrder) {st st' : Janitor}
    (h : ∃ m, (List.replicate m
    (JanitorTurn.work now order sorter)).foldl (Janitor.step hash maxKeys) st = st') :
    st.Works hash maxKeys st' := by
  obtain ⟨m, hm⟩ := h
  refine ⟨_, fun turn hturn => ?_, hm⟩
  rw [List.eq_of_mem_replicate hturn]
  trivial

/-- The turns of a purge, or of a `size`. -/
theorem calling_alone (now : Time) (sorter : SortOrder) {place : Local → JanitorPlace}
    (hwork : ∀ sec db, Janitor.work hash maxKeys now order sorter ⟨place (.running sec), db⟩ =
      ⟨place (advance hash order (.running sec, db.store)).1,
        { db with store := (advance hash order (.running sec, db.store)).2 }⟩)
    {n : Nat} {call next : Local}
    (h : (advance hash order)^[n] (call, db.store) = (next, s)) :
    Janitor.Works hash maxKeys ⟨place call, db⟩ ⟨place next, { db with store := s }⟩ := by
  refine works_replicate now order sorter ?_
  refine exists_replicate_of_iterate
    (fun x : Local × KeyValueStore => (⟨place x.1, { db with store := x.2 }⟩ : Janitor))
    (fun x => x.1.Returned) (fun x hx => ?_) (fun x hx => ?_) h
  · obtain ⟨_ | sec | result, s⟩ := x
    · exact absurd trivial hx
    · exact hwork sec { db with store := s }
    · exact absurd trivial hx
  · obtain ⟨_ | sec | result, s⟩ := x
    · rfl
    · exact absurd hx id
    · rfl

/-- The turns of an eviction. -/
theorem evicting_alone (now : Time) {n k : Nat} {call next : Evictor}
    (h : (Evictor.step k order sorter)^[n] (call, db.store) = (next, s)) :
    Janitor.Works hash maxKeys ⟨.evicting k call, db⟩
      ⟨.evicting k next, { db with store := s }⟩ := by
  refine works_replicate now order sorter ?_
  refine exists_replicate_of_iterate
    (fun x : Evictor × KeyValueStore => (⟨.evicting k x.1, { db with store := x.2 }⟩ : Janitor))
    (fun x => ∃ evicted, x.1 = .done evicted) (fun x hx => ?_) (fun x hx => ?_) h
  · obtain ⟨_ | _ | evicted, s⟩ := x
    · rfl
    · rfl
    · exact absurd ⟨evicted, rfl⟩ hx
  · obtain ⟨call, s⟩ := x
    obtain ⟨evicted, rfl⟩ := hx
    rfl

/-- **Alone, the turns of the thread are its passes.** -/
theorem janitor_alone (hash : Bytes → Nat) (maxKeys : Nat) (now : Time) (c : JanitorChoice)
    (db : Db) : ∃ metrics, (Janitor.start db).Works hash maxKeys
      ⟨.sleeping, { db with store := db.store.janitorPass now maxKeys c, metrics := metrics }⟩ := by
  set purged := db.store.purgeExpiredKeys c.purgeOrder now 20 with hpurged
  have hpurge := advance_alone hash c.purgeOrder now (.purgeExpiredKeys 20) db.store
  have hsize := advance_alone hash c.purgeOrder now .size purged.2
  have hbegin := works_work hash maxKeys (.start db) now c.purgeOrder c.sorter
  have hpurging := hbegin.trans (calling_alone now c.sorter (fun _ _ => rfl) hpurge)
  have hcounted := hpurging.trans (works_work hash maxKeys _ now c.purgeOrder c.sorter)
  have hmeasured := hcounted.trans (calling_alone now c.sorter (fun _ _ => rfl) hsize)
  have hwent := hmeasured.trans (works_work hash maxKeys _ now c.evictOrder c.sorter)
  unfold KeyValueStore.janitorPass
  rw [← hpurged]
  by_cases hover : maxKeys < purged.2.size now
  · set excess := purged.2.size now - maxKeys
    obtain ⟨m, hevict⟩ := evictor_alone excess c.evictOrder c.sorter purged.2
    simp only [Janitor.work, Method.alone, KeyValueStore.call, if_pos hover] at hwent
    have hevicting := hwent.trans (evicting_alone now hevict)
    have hdone := hevicting.trans (works_work hash maxKeys _ now c.evictOrder c.sorter)
    simp only [if_pos hover]
    exact ⟨_, hdone⟩
  · simp only [Janitor.work, Method.alone, KeyValueStore.call, if_neg hover] at hwent
    simp only [if_neg hover]
    exact ⟨_, hwent⟩

end Alone

/-! ## 3. What a section erases -/

section Sections

variable {now : Time}

theorem length_purgeScan (now : Time) (budget : Nat) {es : List (Sigma fun _ : Bytes => StoreEntry)}
    {m : Map StoreEntry} (hnodup : (es.map Sigma.fst).Nodup) (hmem : ∀ x ∈ es, x.1 ∈ m) :
    (StoreShard.purgeScan now budget es m).2.entries.length +
      (StoreShard.purgeScan now budget es m).1 = m.entries.length := by
  induction budget generalizing es m with
  | zero => rfl
  | succ budget ih =>
    cases es with
    | nil => rfl
    | cons x rest =>
      rw [List.map_cons, List.nodup_cons] at hnodup
      simp only [StoreShard.purgeScan]
      split
      · have hx : x.1 ∈ (⟨m, ∅, ∅⟩ : StoreShard).stringMap := hmem x List.mem_cons_self
        have herase : (m.erase x.1).entries.length + 1 = m.entries.length :=
          stringEntries_eraseString hx
        have hrest := ih (m := m.erase x.1) hnodup.2 fun y hy => AList.mem_erase.mpr
          ⟨fun hyx => hnodup.1 (hyx ▸ List.mem_map_of_mem hy), hmem y (List.mem_cons_of_mem x hy)⟩
        dsimp only
        omega
      · exact ih hnodup.2 fun y hy => hmem y (List.mem_cons_of_mem x hy)

/-- **A purge of a shard returns the number of entries it erased.** -/
theorem length_purgeExpiredKeys (order : IterOrder) (now : Time) (maxKeys : Nat)
    (sh : StoreShard) :
    (sh.purgeExpiredKeys order now maxKeys).2.stringMap.entries.length +
      (sh.purgeExpiredKeys order now maxKeys).1 = sh.stringMap.entries.length := by
  have hperm := order.perm sh.stringMap.entries
  refine length_purgeScan now maxKeys ?_ fun x hx => ?_
  · exact (hperm.map Sigma.fst).nodup_iff.mpr sh.stringMap.keys_nodup
  · exact AList.mem_keys.mpr (List.mem_map_of_mem (hperm.mem_iff.mp hx))

theorem stringEntries_update (s : KeyValueStore) (i : Fin numShards) (sh : StoreShard) :
    (KeyValueStore.mk (update s.shards i sh)).stringEntries +
      (s.shards i).stringMap.entries.length =
        s.stringEntries + sh.stringMap.entries.length := by
  have hsum := sum_update (fun j => (s.shards j).stringMap.entries.length) i
    sh.stringMap.entries.length
  rw [← field_update fun sh => sh.stringMap.entries.length] at hsum
  unfold KeyValueStore.stringEntries
  dsimp only
  omega

/-- **A victim is counted if it is erased.** -/
theorem count_evictOne (victim : KeyTimestamp) (acc : Nat × KeyValueStore) :
    (KeyValueStore.evictOne victim acc).2.stringEntries + (KeyValueStore.evictOne victim acc).1 =
      acc.2.stringEntries + acc.1 := by
  by_cases hthere : victim.key ∈ (acc.2.shards victim.shardIdx).stringMap
  · have hone := stringEntries_evictOne acc hthere
    have hcount : (KeyValueStore.evictOne victim acc).1 = acc.1 + 1 := by
      unfold KeyValueStore.evictOne
      exact if_pos (AList.lookup_isSome.mpr hthere)
    omega
  · have hcount : (KeyValueStore.evictOne victim acc).1 = acc.1 := by
      unfold KeyValueStore.evictOne
      exact if_neg fun hsome => hthere (AList.lookup_isSome.mp hsome)
    have hsame : (acc.2.shards victim.shardIdx).stringMap.erase victim.key =
        (acc.2.shards victim.shardIdx).stringMap := by
      rcases entries_erase_cases (acc.2.shards victim.shardIdx).stringMap victim.key with
        ⟨-, he⟩ | ⟨e, l, l', hl, -⟩
      · exact AList.ext he
      · exact absurd (AList.mem_keys.mpr (by simp [AList.keys, List.keys, hl])) hthere
    rw [hcount, evictOne_store, StoreShard.putString, hsame, update_eq_self]

/-- What a purge of a shard takes from the store. -/
theorem loss_purgeExpiredKeys (s : KeyValueStore) (order : IterOrder) (now : Time) (n : Nat)
    (i : Fin numShards) :
    s.stringEntries - (KeyValueStore.mk
      (update s.shards i ((s.shards i).purgeExpiredKeys order now n).2)).stringEntries =
        ((s.shards i).purgeExpiredKeys order now n).1 := by
  have hshard := length_purgeExpiredKeys order now n (s.shards i)
  have hstore := stringEntries_update s i ((s.shards i).purgeExpiredKeys order now n).2
  omega

/-- What a victim takes from the store: itself, if it is still there. -/
theorem loss_evictOne (victim : KeyTimestamp) (acc : Nat × KeyValueStore) :
    (KeyValueStore.evictOne victim acc).1 = acc.1 +
        (acc.2.stringEntries - (KeyValueStore.evictOne victim acc).2.stringEntries) ∧
      (KeyValueStore.evictOne victim acc).1 ≤ acc.1 + 1 := by
  have hcount := count_evictOne victim acc
  have hbounds : acc.1 ≤ (KeyValueStore.evictOne victim acc).1 ∧
      (KeyValueStore.evictOne victim acc).1 ≤ acc.1 + 1 := by
    unfold KeyValueStore.evictOne
    dsimp only
    split
    · exact ⟨Nat.le_succ _, Nat.le_refl _⟩
    · exact ⟨Nat.le_refl _, Nat.le_succ _⟩
  omega

end Sections

/-! ## 4. The accounts -/

/-- The places the thread can be at. -/
inductive JanitorPlace.Sane : JanitorPlace → Prop
  | sleeping : Sane .sleeping
  | purging (now : Time) (n : Nat) (i : Fin numShards) (purged : Nat) :
    Sane (.purging (.running (.purgeExpiredKeys now n i purged)))
  | purged (purged : Nat) : Sane (.purging (.returned (.size purged)))
  | measuring (now : Time) (i : Fin numShards) (total : Nat) :
    Sane (.measuring (.running (.size now i total)))
  | measured (total : Nat) : Sane (.measuring (.returned (.size total)))
  | sampling (n i : Nat) (candidates : List KeyTimestamp) :
    Sane (.evicting n (.sampling i candidates))
  | erasing {n evicted : Nat} {victims : List KeyTimestamp}
      (h : evicted + victims.length ≤ n) : Sane (.evicting n (.erasing victims evicted))
  | evicted {n evicted : Nat} (h : evicted ≤ n) : Sane (.evicting n (.done evicted))

/-- What the thread has counted, against what it has erased. -/
structure Janitor.Accounts (st : Janitor) (purged evicted : Nat) : Prop where
  place : st.place.Sane
  expired : st.db.metrics.keysExpired + UInt64.ofNat st.place.purged = UInt64.ofNat purged
  evicted : st.db.metrics.keysEvicted + UInt64.ofNat st.place.evicted = UInt64.ofNat evicted

section Accounts

variable {hash : Bytes → Nat} {maxKeys : Nat} {st : Janitor} {purged evicted : Nat}

theorem ofNat_add_counted {counter : UInt64} {a b n : Nat}
    (h : counter + UInt64.ofNat a = UInt64.ofNat b) :
    counter + UInt64.ofNat (a + n) = UInt64.ofNat (b + n) := by
  rw [UInt64.ofNat_add, UInt64.ofNat_add, ← UInt64.add_assoc, h]

/-- Where `nextShard` goes on, and what the janitor has then. -/
theorem sane_nextShard_purging (now : Time) (n : Nat) (i : Fin numShards) (purged : Nat) :
    let place := JanitorPlace.purging
      (Section.nextShard i (.purgeExpiredKeys now n · purged) (.size purged))
    place.Sane ∧ place.purged = purged ∧ place.evicted = 0 := by
  dsimp only [Section.nextShard]
  split
  · exact ⟨.purging _ _ _ _, rfl, rfl⟩
  · exact ⟨.purged _, rfl, rfl⟩

theorem sane_nextShard_measuring (now : Time) (i : Fin numShards) (total : Nat) :
    let place := JanitorPlace.measuring (Section.nextShard i (.size now · total) (.size total))
    place.Sane ∧ place.purged = 0 ∧ place.evicted = 0 := by
  dsimp only [Section.nextShard]
  split
  · exact ⟨.measuring _ _ _, rfl, rfl⟩
  · exact ⟨.measured _, rfl, rfl⟩

/-- What the purge returned goes to its counter, and to no other. -/
theorem reported_purge (metrics : Metrics) (n : Nat) :
    let reported := if 0 < n then metrics.onKeyExpired n else metrics
    reported.keysExpired + UInt64.ofNat 0 = metrics.keysExpired + UInt64.ofNat n ∧
      reported.keysEvicted = metrics.keysEvicted := by
  rcases Nat.eq_zero_or_pos n with rfl | hn
  · exact ⟨rfl, rfl⟩
  · rw [if_pos hn]
    exact ⟨UInt64.add_zero _, rfl⟩

/-- What the eviction returned. -/
theorem reported_eviction (metrics : Metrics) (n : Nat) :
    let reported := if 0 < n then metrics.onKeyEvicted n else metrics
    reported.keysEvicted + UInt64.ofNat 0 = metrics.keysEvicted + UInt64.ofNat n ∧
      reported.keysExpired = metrics.keysExpired := by
  rcases Nat.eq_zero_or_pos n with rfl | hn
  · exact ⟨rfl, rfl⟩
  · rw [if_pos hn]
    exact ⟨UInt64.add_zero _, rfl⟩

theorem sane_begin (n : Nat) :
    (JanitorPlace.evicting n (.begin n)).Sane ∧ (JanitorPlace.evicting n (.begin n)).purged = 0 ∧
      (JanitorPlace.evicting n (.begin n)).evicted = 0 := by
  unfold Evictor.begin
  split
  · exact ⟨.evicted (Nat.zero_le n), rfl, rfl⟩
  · exact ⟨.sampling _ _ _, rfl, rfl⟩

/-- **One turn.** -/
theorem Janitor.Accounts.step (h : st.Accounts purged evicted) (turn : JanitorTurn) :
    (st.step hash maxKeys turn).Accounts (purged + (st.purgeLosses hash maxKeys turn).sum)
      (evicted + (st.evictionLosses hash maxKeys turn).sum) := by
  obtain ⟨place, db⟩ := st
  obtain ⟨hplace, hexpired, hevicted⟩ := h
  cases turn with
  | others db' => exact ⟨hplace, hexpired, hevicted⟩
  | work now order sorter =>
    cases hplace with
    | sleeping => exact ⟨.purging _ _ _ _, hexpired, hevicted⟩
    | purging now' n i purgedSoFar =>
      obtain ⟨hsane, hpurged, hnone⟩ := sane_nextShard_purging now' n i
        (purgedSoFar + ((db.store.shards i).purgeExpiredKeys order now' n).1)
      have hlosses : ((⟨.purging (.running (.purgeExpiredKeys now' n i purgedSoFar)), db⟩ :
          Janitor).purgeLosses hash maxKeys (.work now order sorter)).sum =
            ((db.store.shards i).purgeExpiredKeys order now' n).1 := by
        simp only [Janitor.purgeLosses, Janitor.work, advance_running, Section.run, Section.shard,
          List.sum_singleton]
        exact loss_purgeExpiredKeys db.store order now' n i
      rw [hlosses]
      refine ⟨hsane, ?_, ?_⟩
      · exact (congrArg (fun n => _ + UInt64.ofNat n) hpurged).trans (ofNat_add_counted hexpired)
      · exact (congrArg (fun n => _ + UInt64.ofNat n) hnone).trans hevicted
    | purged purgedSoFar =>
      obtain ⟨hcounted, hother⟩ := reported_purge db.metrics purgedSoFar
      simp only [Janitor.step, Janitor.work, Janitor.purgeLosses, Janitor.evictionLosses,
        Nat.sub_self, List.sum_singleton, List.sum_nil, Nat.add_zero]
      exact ⟨.measuring _ _ _, hcounted.trans hexpired,
        (congrArg (fun n => n + _) hother).trans hevicted⟩
    | measuring now' i total =>
      obtain ⟨hsane, hpurged, hnone⟩ := sane_nextShard_measuring now' i
        (total + (db.store.shards i).size now')
      refine ⟨hsane, ?_, ?_⟩
      · exact (congrArg (fun n => _ + UInt64.ofNat n) hpurged).trans hexpired
      · exact (congrArg (fun n => _ + UInt64.ofNat n) hnone).trans hevicted
    | measured total =>
      simp only [Janitor.step, Janitor.work, Janitor.purgeLosses, Janitor.evictionLosses,
        List.sum_nil, Nat.add_zero]
      split
      · obtain ⟨hsane, hpurged, hnone⟩ := sane_begin (total - maxKeys)
        refine ⟨hsane, ?_, ?_⟩
        · exact (congrArg (fun n => _ + UInt64.ofNat n) hpurged).trans hexpired
        · exact (congrArg (fun n => _ + UInt64.ofNat n) hnone).trans hevicted
      · exact ⟨.sleeping, hexpired, hevicted⟩
    | sampling n i candidates =>
      simp only [Janitor.step, Janitor.work, Janitor.purgeLosses, Janitor.evictionLosses,
        Evictor.step]
      split
      · simp only [Nat.sub_self, List.sum_singleton, List.sum_nil, Nat.add_zero]
        exact ⟨.sampling _ _ _, hexpired, hevicted⟩
      · simp only [Nat.sub_self, List.sum_singleton, List.sum_nil, Nat.add_zero]
        exact ⟨.erasing (by simp), hexpired, hevicted⟩
    | @erasing n evictedSoFar victims hbound =>
      cases victims with
      | nil =>
        simp only [Janitor.step, Janitor.work, Janitor.purgeLosses, Janitor.evictionLosses,
          Evictor.step, Nat.sub_self, List.sum_singleton, List.sum_nil, Nat.add_zero]
        exact ⟨.evicted hbound, hexpired, hevicted⟩
      | cons v vs =>
        obtain ⟨hloss, hone⟩ := loss_evictOne v (evictedSoFar, db.store)
        simp only [Janitor.step, Janitor.work, Janitor.purgeLosses, Janitor.evictionLosses,
          Evictor.step, List.sum_singleton, List.sum_nil, Nat.add_zero]
        refine ⟨.erasing ?_, hexpired, ?_⟩
        · rw [List.length_cons] at hbound
          dsimp only at hone
          omega
        · exact (congrArg (fun n => _ + UInt64.ofNat n) hloss).trans (ofNat_add_counted hevicted)
    | @evicted n evictedSoFar hbound =>
      obtain ⟨hcounted, hother⟩ := reported_eviction db.metrics evictedSoFar
      simp only [Janitor.step, Janitor.work, Janitor.purgeLosses, Janitor.evictionLosses,
        Nat.sub_self, List.sum_singleton, List.sum_nil, Nat.add_zero]
      exact ⟨.sleeping, (congrArg (fun n => n + _) hother).trans hexpired,
        hcounted.trans hevicted⟩

/-- **A run.** -/
theorem Janitor.Accounts.run (hash : Bytes → Nat) (maxKeys : Nat)
    (h : st.Accounts purged evicted) (turns : List JanitorTurn) :
    (turns.foldl (Janitor.step hash maxKeys) st).Accounts
      (purged + (outputs (Janitor.step hash maxKeys) (Janitor.purgeLosses hash maxKeys) turns
        st).sum)
      (evicted + (outputs (Janitor.step hash maxKeys) (Janitor.evictionLosses hash maxKeys) turns
        st).sum) := by
  induction turns generalizing st purged evicted with
  | nil => exact h
  | cons turn turns ih =>
    simp only [outputs, List.sum_append, ← Nat.add_assoc]
    exact ih (h.step turn)

theorem accounts_start (startTime : Time) (store : KeyValueStore) (aof : Option AofManager) :
    (Janitor.start ⟨store, aof, .fresh startTime⟩).Accounts 0 0 :=
  ⟨.sleeping, rfl, rfl⟩

end Accounts

/-- What a state of the thread owes to its counters: they are what it has erased, but for the call
in progress, and that call evicts no more than it was asked to. -/
structure Janitor.CountersExact (st : Janitor) (purged evicted : Nat) : Prop where
  expired : st.db.metrics.keysExpired + UInt64.ofNat st.place.purged = UInt64.ofNat purged
  evicted : st.db.metrics.keysEvicted + UInt64.ofNat st.place.evicted = UInt64.ofNat evicted
  bounded : ∀ keysToEvict call, st.place = .evicting keysToEvict call →
    st.place.evicted ≤ keysToEvict

/-- **The counters of the janitor are exact**, in every state of every run of it, whatever the
other threads do to the store between its sections. -/
theorem janitor_counts (hash : Bytes → Nat) (maxKeys : Nat) (store : KeyValueStore)
    (aof : Option AofManager) (startTime : Time) (turns : List JanitorTurn) :
    let start := Janitor.start ⟨store, aof, .fresh startTime⟩
    (turns.foldl (Janitor.step hash maxKeys) start).CountersExact
      (outputs (Janitor.step hash maxKeys) (Janitor.purgeLosses hash maxKeys) turns start).sum
      (outputs (Janitor.step hash maxKeys) (Janitor.evictionLosses hash maxKeys) turns
        start).sum := by
  intro start
  have hrun := (accounts_start startTime store aof).run hash maxKeys turns
  rw [Nat.zero_add, Nat.zero_add] at hrun
  refine ⟨hrun.expired, hrun.evicted, fun keysToEvict call hcall => ?_⟩
  have hsane := hrun.place
  rw [hcall] at hsane ⊢
  cases hsane with
  | sampling => exact Nat.zero_le _
  | erasing hbound => exact Nat.le_of_add_right_le hbound
  | evicted hbound => exact hbound

end KeyValueDb
