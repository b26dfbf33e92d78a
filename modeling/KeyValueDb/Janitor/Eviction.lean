/-
# Evicting while clients work

`evict_lru_keys` samples shard by shard, sorts what it sampled, and takes the lock of a shard
once more for each victim.  Nothing says then that the entry under the key of the victim is
the one that was sampled: `string_map.erase` is given the key only.

An entry is known by its shard and its key (`KeyTimestamp.place`).  Every entry the call erases
is as it was sampled in the runs in which no client section writes or reads the value of an
entry that the call has sampled and may still erase (`asSampled_of_undisturbed`).
-/
import KeyValueDb.Janitor.Limit
import KeyValueDb.Store.Interleaved

namespace KeyValueDb

open Lib Function

/-! ## 1. The call in sections -/

/-- The shard and the key of a sampled entry. -/
def KeyTimestamp.place (v : KeyTimestamp) : Fin numShards × Bytes := (v.shardIdx, v.key)

/-- Where a call of `evict_lru_keys` is. -/
inductive Evictor
  | sampling (i : Nat) (candidates : List KeyTimestamp)
  | erasing (victims : List KeyTimestamp) (evicted : Nat)
  | done (evicted : Nat)

namespace Evictor

/-- Nothing to evict is nothing to do. -/
def begin (keysToEvict : Nat) : Evictor :=
  if keysToEvict = 0 then .done 0 else .sampling 0 []

/-- One section of the call: sample one shard, or erase one victim.  The candidates are sorted
after the last shard, under no lock. -/
def step (keysToEvict : Nat) (order : IterOrder) (sorter : SortOrder)
    (x : Evictor × KeyValueStore) : Evictor × KeyValueStore :=
  match x.1 with
  | .sampling i candidates =>
    if h : i < numShards then
      (.sampling (i + 1) (candidates ++ ((x.2.shards ⟨i, h⟩).sample order).map
        fun y => ⟨y.1, y.2, ⟨i, h⟩⟩), x.2)
    else (.erasing ((sorter.sort candidates).take keysToEvict) 0, x.2)
  | .erasing [] evicted => (.done evicted, x.2)
  | .erasing (victim :: victims) evicted =>
    let r := KeyValueStore.evictOne victim (evicted, x.2)
    (.erasing victims r.1, r.2)
  | .done _ => x

/-- The entries that the call has sampled, and has neither erased nor ruled out. -/
def pending : Evictor → List KeyTimestamp
  | .sampling _ candidates => candidates
  | .erasing victims _ => victims
  | .done _ => []

/-- The victim of the next section. -/
def victim? : Evictor → Option KeyTimestamp
  | .erasing (victim :: _) _ => some victim
  | _ => none

end Evictor

/-- The key whose value the section writes or reads. -/
def Section.uses (sh : StoreShard) : Section → Option Bytes
  | .set _ key _ _ => some key
  | .incrBy now key delta => if (sh.incrBy now key delta).1.1 then some key else none
  | .getPeek now key =>
    match sh.getPeek now key with
    | .fresh _ => some key
    | _ => none
  | .getTouch _ key _ => (sh.stringMap.lookup key).map fun _ => key
  | .getPurge now key => (sh.getPurge now key).1.map fun _ => key
  | _ => none

/-- A call of `evict_lru_keys` among clients.  `used` remembers the entries that a client has
written or read since they were sampled. -/
structure Eviction (T : Type) where
  threads : Threads T
  evictor : Evictor
  used : List (Fin numShards × Bytes)

/-- A client takes a turn, or runs the one section of `del`, or the call runs a section. -/
inductive EvictionTurn (T : Type)
  | client (turn : Turn T)
  | del (key : Bytes)
  | evict (order : IterOrder) (sorter : SortOrder)

namespace Eviction

variable {T : Type} [DecidableEq T]

def start (keysToEvict : Nat) (threads : Threads T) : Eviction T :=
  ⟨threads, .begin keysToEvict, []⟩

omit [DecidableEq T] in
/-- The entry whose value the turn writes or reads. -/
def usedBy (hash : Bytes → Nat) (st : Eviction T) :
    EvictionTurn T → Option (Fin numShards × Bytes)
  | .client (.section t _) =>
    match st.threads.locals t with
    | .running sec =>
      (sec.uses (st.threads.store.shards (sec.shard hash))).map fun key => (sec.shard hash, key)
    | _ => none
  | _ => none

def step (hash : Bytes → Nat) (keysToEvict : Nat) (st : Eviction T) (turn : EvictionTurn T) :
    Eviction T :=
  let used := match st.usedBy hash turn with
    | some place => if place ∈ st.evictor.pending.map (·.place) then place :: st.used else st.used
    | none => st.used
  match turn with
  | .client turn => ⟨st.threads.step hash turn, st.evictor, used⟩
  | .del key =>
    ⟨{ st.threads with store := (st.threads.store.del hash key).2 }, st.evictor, used⟩
  | .evict order sorter =>
    let r := Evictor.step keysToEvict order sorter (st.evictor, st.threads.store)
    ⟨{ st.threads with store := r.2 }, r.1, used⟩

omit [DecidableEq T] in
/-- The turn erases the entry `e` of a victim. -/
def Erases (st : Eviction T) (v : KeyTimestamp) (e : StoreEntry) : EvictionTurn T → Prop
  | .evict _ _ => st.evictor.victim? = some v ∧
      (st.threads.store.shards v.shardIdx).stringMap.lookup v.key = some e
  | _ => False

omit [DecidableEq T] in
/-- An entry that the turn erases bears the stamp that was sampled, and its value was not
written or read since. -/
def AsSampled (st : Eviction T) (turn : EvictionTurn T) : Prop :=
  ∀ v e, st.Erases v e turn → e.lastAccessed = v.lastAccessed ∧ v.place ∉ st.used

omit [DecidableEq T] in
/-- The turn does not write or read the value of an entry that the call has sampled and may
still erase. -/
def Undisturbed (hash : Bytes → Nat) (st : Eviction T) (turn : EvictionTurn T) : Prop :=
  ∀ place, st.usedBy hash turn = some place → place ∉ st.evictor.pending.map (·.place)

end Eviction

/-! ## 2. The call alone -/

section Alone

variable {order : IterOrder} {sorter : SortOrder} {n : Nat} {s : KeyValueStore}

theorem evictor_sampling (i : Nat) (hi : i ≤ numShards) :
    (Evictor.step n order sorter)^[i] (.sampling 0 [], s) =
      (.sampling i (((List.finRange numShards).take i).flatMap fun j =>
        ((s.shards j).sample order).map fun y => ⟨y.1, y.2, j⟩), s) := by
  induction i with
  | zero => rfl
  | succ i ih =>
    have hlt : i < numShards := hi
    rw [iterate_succ_apply', ih hlt.le, Evictor.step]
    dsimp only
    rw [dif_pos hlt, List.take_add_one, List.getElem?_eq_getElem (by simpa using hlt),
      List.flatMap_append]
    simp

/-- The victims, once all shards are sampled. -/
theorem evictor_sorted (n : Nat) (order : IterOrder) (sorter : SortOrder) (s : KeyValueStore) :
    (Evictor.step n order sorter)^[numShards + 1] (.sampling 0 [], s) =
      (.erasing ((sorter.sort (s.candidates order)).take n) 0, s) := by
  rw [iterate_succ_apply', evictor_sampling numShards le_rfl,
    List.take_of_length_le (by simp)]
  rfl

theorem evictor_erasing (victims : List KeyTimestamp) (acc : Nat × KeyValueStore) :
    (Evictor.step n order sorter)^[victims.length + 1] (.erasing victims acc.1, acc.2) =
      (.done (victims.foldl (fun acc v => KeyValueStore.evictOne v acc) acc).1,
        (victims.foldl (fun acc v => KeyValueStore.evictOne v acc) acc).2) := by
  induction victims generalizing acc with
  | nil => rfl
  | cons v vs ih =>
    rw [List.length_cons, iterate_succ_apply, List.foldl_cons]
    exact ih (KeyValueStore.evictOne v acc)

/-- **Alone, the sections do what `evict_lru_keys` does.** -/
theorem evictor_alone (n : Nat) (order : IterOrder) (sorter : SortOrder) (s : KeyValueStore) :
    ∃ m, (Evictor.step n order sorter)^[m] (.begin n, s) =
      (.done (s.evictLruKeys order sorter n).1, (s.evictLruKeys order sorter n).2) := by
  by_cases hn : n = 0
  · subst hn
    exact ⟨0, rfl⟩
  · refine ⟨((sorter.sort (s.candidates order)).take n).length + 1 + (numShards + 1), ?_⟩
    rw [iterate_add_apply, Evictor.begin, if_neg hn, evictor_sorted]
    exact evictor_erasing ((sorter.sort (s.candidates order)).take n) (0, s)

end Alone

/-! ## 3. What keeps a stamp -/

/-- What the second shard holds under the key, if anything, bears the stamp it has in the
first. -/
def StoreShard.StampKept (key : Bytes) (sh sh' : StoreShard) : Prop :=
  ∀ e', sh'.stringMap.lookup key = some e' →
    ∃ e, sh.stringMap.lookup key = some e ∧ e.lastAccessed = e'.lastAccessed

namespace StoreShard

variable {key k : Bytes} {sh sh' : StoreShard} {order : IterOrder}

theorem stampKept_of_sub (h : ∀ e, sh'.stringMap.lookup key = some e →
    sh.stringMap.lookup key = some e) : sh.StampKept key sh' :=
  fun e he => ⟨e, h e he, rfl⟩

theorem stampKept_refl (key : Bytes) (sh : StoreShard) : sh.StampKept key sh :=
  stampKept_of_sub fun _ he => he

theorem stampKept_putString_ne (hk : key ≠ k) (o : Option StoreEntry) :
    sh.StampKept key (sh.putString k o) :=
  stampKept_of_sub fun e he => by rwa [lookup_putString_ne hk] at he

theorem stampKept_erase (key k : Bytes) (sh : StoreShard) :
    sh.StampKept key (sh.putString k none) := by
  by_cases hk : key = k
  · subst hk
    intro e he
    rw [lookup_putString] at he
    cases he
  · exact stampKept_putString_ne hk none

theorem Purged.stampKept {now : Time} (h : sh.Purged now sh') (key : Bytes) :
    sh.StampKept key sh' := by
  refine stampKept_of_sub fun e he => ?_
  rcases h.strings key with heq | ⟨hnone, -⟩
  · rw [← heq]
    exact he
  · rw [hnone] at he
    cases he

/-- **A section that does not use the value of a key** leaves the entry its stamp, or takes it
away. -/
theorem stampKept_run {sec : Section} (h : sec.uses sh ≠ some key) :
    sh.StampKept key (sec.run order sh).2 := by
  cases sec with
  | getPeek now k =>
    simp only [Section.run]
    split <;> exact stampKept_refl key sh
  | getTouch now k val =>
    simp only [Section.uses] at h
    simp only [Section.run, getTouch]
    split
    · exact stampKept_refl key sh
    · rename_i e he
      rw [he, Option.map_some] at h
      exact stampKept_putString_ne (fun hk => h (congrArg some hk.symm))
        (some { e with lastAccessed := now })
  | getPurge now k =>
    simp only [Section.run, getPurge]
    split
    · exact stampKept_refl key sh
    · split
      · exact stampKept_erase key k sh
      · exact stampKept_refl key sh
  | «exists» => exact stampKept_refl key sh
  | ttlPeek now k =>
    simp only [Section.run]
    split <;> exact stampKept_refl key sh
  | ttlPurge now k => exact stampKept_erase key k sh
  | size => exact stampKept_refl key sh
  | getSnapshot => exact stampKept_refl key sh
  | purgeExpiredKeys now maxKeysPerShard =>
    exact (sh.purged_purgeExpiredKeys order now maxKeysPerShard).stampKept key
  | set now k value ttlSeconds =>
    exact stampKept_putString_ne (fun hk => h (congrArg some hk.symm))
      (some ⟨value, deadline now ttlSeconds, now⟩)
  | expire now k ttlSeconds =>
    simp only [Section.run, expire]
    split
    · exact stampKept_refl key sh
    · rename_i e he
      split
      · exact stampKept_erase key k sh
      · split
        · intro e' he'
          by_cases hk : key = k
          · subst hk
            refine ⟨e, he, ?_⟩
            rw [AList.lookup_insert, Option.some.injEq] at he'
            rw [← he']
          · rw [AList.lookup_insert_ne hk] at he'
            exact ⟨e', he', rfl⟩
        · exact stampKept_erase key k sh
  | incrBy now k delta =>
    simp only [Section.uses] at h
    simp only [Section.run, incrBy] at h ⊢
    split
    · rename_i hnone
      simp only [hnone, if_true] at h
      exact stampKept_putString_ne (fun hk => h (congrArg some hk.symm)) (some _)
    · rename_i e he
      simp only [he] at h
      split
      · rename_i hx
        simp only [hx, if_true] at h
        exact stampKept_putString_ne (fun hk => h (congrArg some hk.symm)) (some _)
      · rename_i hx
        simp only [hx, Bool.false_eq_true, if_false] at h
        split
        · exact stampKept_refl key sh
        · rename_i v hv
          simp only [hv, if_true] at h
          exact stampKept_putString_ne (fun hk => h (congrArg some hk.symm)) (some _)

end StoreShard

/-! ## 4. All interleavings -/

namespace Eviction

variable {T : Type} {hash : Bytes → Nat} {n : Nat} {st : Eviction T}

/-- The invariant: a pending entry that was not used since it was sampled bears the stamp that
was sampled. -/
def Stamped (st : Eviction T) : Prop :=
  ∀ v ∈ st.evictor.pending, ∀ e,
    (st.threads.store.shards v.shardIdx).stringMap.lookup v.key = some e →
      v.place ∉ st.used → e.lastAccessed = v.lastAccessed

/-- What is sampled is pending, with its stamp. -/
theorem lastAccessed_of_mem_sample {order : IterOrder} {sh : StoreShard} {y : Bytes × Time}
    {e : StoreEntry} (h : y ∈ sh.sample order) (he : sh.stringMap.lookup y.1 = some e) :
    e.lastAccessed = y.2 := by
  obtain ⟨x, hx, rfl⟩ := List.mem_map.mp h
  have hmem := AList.mem_lookup_iff.mpr ((order.perm _).mem_iff.mp (List.mem_of_mem_take hx))
  rw [Option.mem_def, he, Option.some.injEq] at hmem
  rw [hmem]

theorem mem_pending_of_victim {ev : Evictor} {v : KeyTimestamp} (h : ev.victim? = some v) :
    v ∈ ev.pending := by
  cases ev with
  | erasing victims evicted =>
    cases victims with
    | nil => cases h
    | cons w ws =>
      rw [← Option.some.inj h]
      exact List.mem_cons_self
  | sampling | done => cases h

variable [DecidableEq T]

theorem mem_used_step {turn : EvictionTurn T} {place : Fin numShards × Bytes} :
    place ∈ (st.step hash n turn).used ↔ place ∈ st.used ∨
      st.usedBy hash turn = some place ∧ place ∈ st.evictor.pending.map (·.place) := by
  have hused : (st.step hash n turn).used = match st.usedBy hash turn with
      | some place =>
        if place ∈ st.evictor.pending.map (·.place) then place :: st.used else st.used
      | none => st.used := by
    cases turn <;> rfl
  rw [hused]
  cases st.usedBy hash turn with
  | none => simp
  | some place' =>
    dsimp only
    split
    · rename_i hmem
      rw [List.mem_cons, Option.some.injEq]
      constructor
      · rintro (rfl | hin)
        · exact Or.inr ⟨rfl, hmem⟩
        · exact Or.inl hin
      · rintro (hin | ⟨rfl, -⟩)
        · exact Or.inr hin
        · exact Or.inl rfl
    · rename_i hmem
      rw [Option.some.injEq]
      constructor
      · exact Or.inl
      · rintro (hin | ⟨rfl, hin⟩)
        · exact hin
        · exact absurd hin hmem

/-- Sections of the call that no client turn comes between. -/
theorem foldl_evict (order : IterOrder) (sorter : SortOrder) (m : Nat) :
    (List.replicate m (.evict order sorter)).foldl (step hash n) st =
      ⟨{ st.threads with
          store := ((Evictor.step n order sorter)^[m] (st.evictor, st.threads.store)).2 },
        ((Evictor.step n order sorter)^[m] (st.evictor, st.threads.store)).1, st.used⟩ := by
  induction m generalizing st with
  | zero => rfl
  | succ m ih =>
    rw [List.replicate_succ, List.foldl_cons, ih, iterate_succ_apply]
    rfl

/-- A turn of a client keeps the stamps of the entries it does not use. -/
theorem Stamped.client (h : st.Stamped) (turn : Turn T) :
    (st.step hash n (.client turn)).Stamped := by
  intro v hv e he hunused
  rw [mem_used_step, not_or] at hunused
  obtain ⟨hunused, hnotnow⟩ := hunused
  cases turn with
  | begin t now m =>
    refine h v hv e ?_ hunused
    simp only [step, Threads.step] at he
    split at he <;> exact he
  | «section» t order =>
    by_cases hrun : ∃ sec, st.threads.locals t = .running sec
    · obtain ⟨sec, hsec⟩ := hrun
      simp only [step, Threads.step_running hsec] at he
      by_cases hi : v.shardIdx = sec.shard hash
      · -- the section took the lock of this shard
        rw [hi, update_self] at he
        have hne : sec.uses (st.threads.store.shards (sec.shard hash)) ≠ some v.key := by
          intro huse
          refine hnotnow ⟨?_, List.mem_map.mpr ⟨v, hv, rfl⟩⟩
          simp only [usedBy, hsec, huse, Option.map_some, KeyTimestamp.place, hi]
        obtain ⟨e₀, he₀, hstamp⟩ := StoreShard.stampKept_run hne e he
        rw [← hi] at he₀
        rw [← hstamp]
        exact h v hv e₀ he₀ hunused
      · rw [update_of_ne hi] at he
        exact h v hv e he hunused
    · refine h v hv e ?_ hunused
      simpa only [step, Threads.step_not_running fun sec hsec => hrun ⟨sec, hsec⟩] using he

theorem Stamped.del (h : st.Stamped) (key : Bytes) :
    (st.step hash n (.del key)).Stamped := by
  intro v hv e he hunused
  rw [mem_used_step, not_or] at hunused
  refine h v hv e ?_ hunused.1
  simp only [step, KeyValueStore.del, KeyValueStore.onShard, StoreShard.del] at he
  by_cases hi : v.shardIdx = getShardIndex hash key
  · rw [hi, update_self] at he
    rw [hi]
    by_cases hk : v.key = key
    · rw [hk, AList.lookup_erase] at he
      cases he
    · rwa [AList.lookup_erase_ne hk] at he
  · rwa [update_of_ne hi] at he

/-- A section of the call samples what is there, or drops pending entries. -/
theorem Stamped.evict (h : st.Stamped) (order : IterOrder) (sorter : SortOrder) :
    (st.step hash n (.evict order sorter)).Stamped := by
  intro v hv e he hunused
  rw [mem_used_step, not_or] at hunused
  replace hunused := hunused.1
  simp only [step] at hv he
  cases hev : st.evictor with
  | sampling i candidates =>
    simp only [hev, Evictor.step] at hv he
    split at hv
    · rename_i hi
      rw [dif_pos hi] at he
      rcases List.mem_append.mp hv with hold | hnew
      · exact h v (by rwa [hev]) e he hunused
      · obtain ⟨y, hy, rfl⟩ := List.mem_map.mp hnew
        exact lastAccessed_of_mem_sample hy he
    · rename_i hi
      rw [dif_neg hi] at he
      have hcand := (sorter.perm candidates).mem_iff.mp (List.mem_of_mem_take hv)
      exact h v (by rwa [hev]) e he hunused
  | erasing victims evicted =>
    cases victims with
    | nil =>
      simp only [hev, Evictor.step, Evictor.pending] at hv
      exact absurd hv List.not_mem_nil
    | cons w ws =>
      simp only [hev, Evictor.step, Evictor.pending] at hv he
      have hpending : v ∈ st.evictor.pending := by
        rw [hev]
        exact List.mem_cons_of_mem w hv
      exact h v hpending e (lookup_evictOne (evicted, st.threads.store) he) hunused
  | done evicted =>
    simp only [hev, Evictor.step, Evictor.pending] at hv
    exact absurd hv List.not_mem_nil

/-- **Every turn keeps the invariant.** -/
theorem Stamped.step (h : st.Stamped) (turn : EvictionTurn T) :
    (st.step hash n turn).Stamped := by
  cases turn with
  | client turn => exact h.client turn
  | del key => exact h.del key
  | evict order sorter => exact h.evict order sorter

/-- A turn that leaves the sampled entries alone uses none of them. -/
theorem used_step_of_undisturbed (hunused : st.used = []) {turn : EvictionTurn T}
    (h : st.Undisturbed hash turn) : (st.step hash n turn).used = [] := by
  refine List.eq_nil_iff_forall_not_mem.mpr fun place hplace => ?_
  rcases mem_used_step.mp hplace with hin | ⟨huse, hpending⟩
  · rw [hunused] at hin
    exact absurd hin List.not_mem_nil
  · exact h place huse hpending

omit [DecidableEq T] in
/-- What is erased now is as it was sampled when no sampled entry has been used. -/
theorem Stamped.asSampled (h : st.Stamped) (hunused : st.used = []) (turn : EvictionTurn T) :
    st.AsSampled turn := by
  intro v e he
  have hplace : v.place ∉ st.used := by
    rw [hunused]
    exact List.not_mem_nil
  cases turn with
  | client turn => exact absurd he id
  | del key => exact absurd he id
  | evict order sorter =>
    exact ⟨h v (mem_pending_of_victim he.1) e he.2 hplace, hplace⟩

omit [DecidableEq T] in
theorem stamped_start (n : Nat) (threads : Threads T) : (start n threads).Stamped := by
  intro v hv
  unfold start Evictor.begin at hv
  dsimp only at hv
  split at hv <;> exact absurd hv List.not_mem_nil

/-- **Every entry the call erases is as it was sampled** in the runs in which no client writes or
reads the value of an entry while it is sampled and not yet erased or ruled out. -/
theorem asSampled_of_undisturbed (hash : Bytes → Nat) (keysToEvict : Nat) (threads : Threads T)
    (turns : List (EvictionTurn T))
    (h : Steps (Eviction.step hash keysToEvict) (Undisturbed hash) turns
      (start keysToEvict threads)) :
    Steps (Eviction.step hash keysToEvict) AsSampled turns (start keysToEvict threads) := by
  have hinv : Always (Eviction.step hash keysToEvict) (fun st => st.Stamped ∧ st.used = []) turns
      (start keysToEvict threads) :=
    always_of_steps (fun _ turn hst hturn =>
      ⟨hst.1.step turn, used_step_of_undisturbed hst.2 hturn⟩)
      ⟨stamped_start keysToEvict threads, rfl⟩ h
  exact hinv.steps_of (fun _ turn hst _ => hst.1.asSampled hst.2 turn) h

/-- A store with one string, for the runs below. -/
def oneKey : KeyValueStore := KeyValueStore.empty.set (fun _ => 0) 0 [107] [49] none

/-- The sections that sample it. -/
def sampleOneKey : List (EvictionTurn Unit) :=
  List.replicate (numShards + 1) (.evict IterOrder.plain SortOrder.insertion)

theorem foldl_sampleOneKey :
    sampleOneKey.foldl (Eviction.step (fun _ => 0) 1) (start 1 (Threads.start oneKey)) =
      ⟨Threads.start oneKey, .erasing [⟨[107], 0, 0⟩] 0, []⟩ := by
  have hcand : SortOrder.insertion.sort (oneKey.candidates IterOrder.plain) = [⟨[107], 0, 0⟩] := by
    rfl
  have hsort := evictor_sorted 1 IterOrder.plain SortOrder.insertion oneKey
  rw [hcand, List.take_of_length_le (by simp)] at hsort
  have hstart : start 1 (Threads.start oneKey) =
      ⟨Threads.start (T := Unit) oneKey, .sampling 0 [], []⟩ := rfl
  rw [sampleOneKey, foldl_evict, hstart]
  dsimp only [Threads.start]
  rw [hsort]

/-- Sections of the call disturb nothing. -/
theorem steps_undisturbed_evict (hash : Bytes → Nat) (order : IterOrder) (sorter : SortOrder)
    (m : Nat) (st : Eviction T) :
    Steps (Eviction.step hash n) (Undisturbed hash) (List.replicate m (.evict order sorter))
      st := by
  induction m generalizing st with
  | zero => trivial
  | succ m ih => exact ⟨fun _ huse => absurd huse (by simp [usedBy]), ih _⟩

/-- A client writes another key after the shards were sampled. -/
theorem asSampled_of_undisturbed_other :
    Steps (Eviction.step (fun _ => 0) 1) AsSampled
      (sampleOneKey ++ [.client (.begin () 5 (.set [108] [50] none)),
        .client (.section () IterOrder.plain),
        .evict IterOrder.plain SortOrder.insertion])
      (start 1 (Threads.start oneKey)) := by
  refine asSampled_of_undisturbed (fun _ => 0) 1 (Threads.start oneKey) _ ?_
  refine steps_append.mpr ⟨steps_undisturbed_evict _ _ _ _ _, ?_⟩
  rw [foldl_sampleOneKey]
  refine ⟨fun _ huse => absurd huse (by simp [usedBy]), fun place huse => ?_,
    fun _ huse => absurd huse (by simp [usedBy]), trivial⟩
  obtain rfl := Option.some.inj huse
  decide

/-- **The value that was just written is the one removed**: a client writes the key after its
shard was sampled, and the call erases what it finds there. -/
theorem not_asSampled_of_set :
    let turns := sampleOneKey ++ [.client (.begin () 5 (.set [107] [50] none)),
      .client (.section () IterOrder.plain)]
    let erase := EvictionTurn.evict IterOrder.plain SortOrder.insertion
    let st := turns.foldl (Eviction.step (fun _ => 0) 1) (start 1 (Threads.start oneKey))
    ¬ Steps (Eviction.step (fun _ => 0) 1) AsSampled (turns ++ [erase])
        (start 1 (Threads.start oneKey)) ∧
      (st.threads.store.getShard (fun _ => 0) [107]).stringMap.lookup [107] =
        some ⟨[50], none, 5⟩ ∧
      ((st.step (fun _ => 0) 1 erase).threads.store.getShard (fun _ => 0) [107]).stringMap.lookup
        [107] = none := by
  intro turns erase st
  have hst : st = ⟨⟨oneKey.set (fun _ => 0) 5 [107] [50] none, fun _ => .returned .unit⟩,
      .erasing [⟨[107], 0, 0⟩] 0, [(0, [107])]⟩ := by
    simp only [st, turns, List.foldl_append, foldl_sampleOneKey]
    rfl
  refine ⟨fun h => ?_, by rw [hst]; rfl, by rw [hst]; rfl⟩
  have hlast : st.AsSampled erase := (steps_append.mp h).2.1
  rw [hst] at hlast
  have hstamp := (hlast ⟨[107], 0, 0⟩ ⟨[50], none, 5⟩ ⟨rfl, rfl⟩).1
  exact absurd hstamp (by decide)

end Eviction

end KeyValueDb
