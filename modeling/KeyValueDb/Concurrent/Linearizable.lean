/-
# The store under many threads

Any number of threads call `get`, `exists`, `set`, `expire` and `incr_by`, and meanwhile others
walk the shards, among them the one that purges.  Each of these five calls takes effect at one
instant between its call and its return, as the call of the reference store does, and a purge
does nothing but drop strings that have expired when it read the clock
(`keyValueStore_linearizable`).

`get` is the one with more than one section.  A value that is fresh under the shared lock decides
it there: the exclusive section after it only stamps the entry.  After a stale one it is decided
under the exclusive lock, where it looks again.

`ttl` is left out.  It erases under the exclusive lock what it has seen under the shared one, and
so it may erase what another call has written in between (`Store/Interleaved.lean`).
-/
import KeyValueDb.Lib.Linearize
import KeyValueDb.Store.Interleaved
import KeyValueDb.Store.Stamps

namespace KeyValueDb

open Lib Function FlatStore

/-! ## 1. What takes effect at once -/

/-- A call, with the clock reading it is made with; or the purge of one shard. -/
inductive AtomicOp
  | call (now : Time) (c : Call)
  | purge (now : Time)

/-- The second store lacks some expired strings of the first. -/
structure FlatStore.Purged (now : Time) (F G : FlatStore) : Prop where
  strings : ∀ key, G.strings key = F.strings key ∨
    G.strings key = none ∧ ∃ e, F.strings key = some e ∧ e.expired now = true
  hashes : G.hashes = F.hashes
  lists : G.lists = F.lists

/-- What the operations do to the reference store, and answer. -/
inductive AtomicOp.Does : FlatStore → AtomicOp → CallResult → FlatStore → Prop
  | call {F : FlatStore} {now : Time} {c : Call} {result : CallResult}
      (h : result.Agrees (F.call now c).1) : Does F (.call now c) result (F.call now c).2
  | purge {F G : FlatStore} {now : Time} (h : F.Purged now G) : Does F (.purge now) .unit G

/-- The call a method is, if it takes effect at once. -/
def Method.call? : Method → Option Call
  | .get key => some (.get key)
  | .exists key => some (.exists key)
  | .set key value ttlSeconds => some (.set key value ttlSeconds)
  | .expire key ttlSeconds => some (.expire key ttlSeconds)
  | .incrBy key delta => some (.incrBy key delta)
  | .ttl _ | .size | .getSnapshot | .purgeExpiredKeys _ => none

namespace Section

/-- The call a section belongs to. -/
def op? : Section → Option AtomicOp
  | .getPeek now key | .getTouch now key _ | .getPurge now key => some (.call now (.get key))
  | .exists now key => some (.call now (.exists key))
  | .set now key value ttlSeconds => some (.call now (.set key value ttlSeconds))
  | .expire now key ttlSeconds => some (.call now (.expire key ttlSeconds))
  | .incrBy now key delta => some (.call now (.incrBy key delta))
  | .ttlPeek _ _ | .ttlPurge _ _ | .size _ _ _ | .getSnapshot _ _ _
  | .purgeExpiredKeys _ _ _ _ => none

/-- The section is one of `ttl`. -/
def ofTtl : Section → Bool
  | .ttlPeek _ _ | .ttlPurge _ _ => true
  | _ => false

/-- Where the call of a thread is that is before the section. -/
def phase : Section → CallPhase AtomicOp CallResult
  | .getTouch _ _ val => .decided (.value (some val))
  | sec => match sec.op? with
    | some op => .pending op
    | none => .idle

/-- What is seen of a section that leads to `next`.  A purge is seen shard by shard. -/
def seen (next : Local) : Section → List (CallEvent AtomicOp CallResult)
  | .purgeExpiredKeys now _ _ _ => [.called (.purge now), .answered .unit]
  | sec => match sec.op?, next with
    | some _, .returned result => [.answered result]
    | _, _ => []

/-- What takes effect in a section that leads to `next`. -/
def points (next : Local) : Section → List (AtomicOp × CallResult)
  | .purgeExpiredKeys now _ _ _ => [(.purge now, .unit)]
  | .getTouch _ _ _ => []
  | sec => match sec.op?, next with
    | some op, .returned result => [(op, result)]
    | some op, .running (.getTouch _ _ val) => [(op, .value (some val))]
    | _, _ => []

end Section

def Local.phase : Local → CallPhase AtomicOp CallResult
  | .running sec => sec.phase
  | _ => .idle

namespace Threads

variable {T : Type}

/-- What is seen of a turn. -/
def seen (hash : Bytes → Nat) (st : Threads T) : Turn T → List (CallEvent AtomicOp CallResult)
  | .begin t now m =>
    match st.locals t, m.call? with
    | .running _, _ | _, none => []
    | _, some c => [.called (.call now c)]
  | .section t order =>
    match st.locals t with
    | .running sec => sec.seen (advance hash order (st.locals t, st.store)).1
    | _ => []

/-- What takes effect in a turn. -/
def points (hash : Bytes → Nat) (st : Threads T) : Turn T → List (AtomicOp × CallResult)
  | .begin _ _ _ => []
  | .section t order =>
    match st.locals t with
    | .running sec => sec.points (advance hash order (st.locals t, st.store)).1
    | _ => []

end Threads

def Turn.thread {T : Type} : Turn T → T
  | .begin t _ _ => t
  | .section t _ => t

/-- Nobody calls `ttl`. -/
def Turn.NoTtl {T : Type} : Turn T → Prop
  | .begin _ _ m => ∀ key, m ≠ .ttl key
  | .section _ _ => True

/-- The threads, as they are seen from outside. -/
def threadMachine (T : Type) [DecidableEq T] (hash : Bytes → Nat) :
    CallMachine (Threads T) (Turn T) T AtomicOp CallResult :=
  ⟨Threads.step hash, Turn.thread, Threads.seen hash⟩

/-! ## 2. Operations on stores that are the same but for the stamps -/

section Operations

variable {hash : Bytes → Nat} {order : IterOrder} {s s' : KeyValueStore} {F G : FlatStore}
  {now : Time} {key : Bytes} {result : CallResult}

theorem CallResult.Agrees.sameStamps {c : Call} (h : SameButStamps Set.univ F G)
    (hc : c ≠ .getSnapshot) (hresult : result.Agrees (F.call now c).1) :
    result.Agrees (G.call now c).1 := by
  rw [h.result hc (Or.inl rfl)]
  exact hresult

/-- The effect of an operation on the store, and of the same on the reference store. -/
def AtomicOp.Mirrored (hash : Bytes → Nat) (F : FlatStore) (op : AtomicOp) (result : CallResult)
    (s' : KeyValueStore) : Prop :=
  ∃ G, op.Does F result G ∧ SameButStamps Set.univ (s'.view hash) G

/-- A call that answers as on the view and leaves, but for stamps, what it leaves there. -/
theorem mirrored_call {c : Call} (h : SameButStamps Set.univ (s.view hash) F)
    (hc : c ≠ .getSnapshot) (hresult : result.Agrees ((s.view hash).call now c).1)
    (hview : SameButStamps Set.univ (s'.view hash) ((s.view hash).call now c).2) :
    AtomicOp.Mirrored hash F (.call now c) result s' :=
  ⟨(F.call now c).2, .call (hresult.sameStamps h hc), hview.trans (h.call (Or.inl ⟨rfl, rfl⟩))⟩

theorem sameButStamps_refl (F : FlatStore) : SameButStamps Set.univ F F := by
  refine ⟨fun key => ?_, rfl, rfl⟩
  cases F.strings key with
  | none => exact .absent
  | some e => exact .present e.value (Set.mem_univ _) e.lastAccessed e.lastAccessed

/-- Stamping an entry. -/
theorem sameButStamps_touch (hash : Bytes → Nat) (now : Time) (key : Bytes) (s : KeyValueStore) :
    SameButStamps Set.univ ((s.onShard hash key fun sh => ((), sh.getTouch now key)).2.view hash)
      (s.view hash) := by
  have honly : StringOnly key fun sh => ((), sh.getTouch now key) := by
    intro sh
    simp only [StoreShard.getTouch]
    split
    · exact Or.inl rfl
    · exact Or.inr ⟨some _, rfl⟩
  have hself := (sameButStamps_refl (s.view hash)).strings key
  rw [view_onShard_string honly]
  have hput : (s.view hash).putString key ((s.view hash).strings key) = s.view hash :=
    putString_self rfl
  nth_rewrite 2 [← hput]
  refine (sameButStamps_refl _).putString ?_
  rw [s.view_strings] at hself ⊢
  simp only [StoreShard.getTouch]
  cases he : (s.getShard hash key).stringMap.lookup key with
  | none =>
    rw [he]
    exact .absent
  | some e =>
    simp only [AList.lookup_insert]
    exact .present e.value (Set.mem_univ _) now e.lastAccessed

/-- The exclusive section of `get` after a stale entry is a `get` of its own. -/
theorem sameButStamps_getPurge (hash : Bytes → Nat) (now : Time) (key : Bytes)
    (s : KeyValueStore) :
    (s.onShard hash key (StoreShard.getPurge now key)).1 = ((s.view hash).get now key).1 ∧
      SameButStamps Set.univ ((s.onShard hash key (StoreShard.getPurge now key)).2.view hash)
        ((s.view hash).get now key).2 := by
  have honly : StringOnly key (StoreShard.getPurge now key) := by
    intro sh
    simp only [StoreShard.getPurge]
    split
    · exact Or.inl rfl
    · split
      · exact Or.inr ⟨none, rfl⟩
      · exact Or.inl rfl
  have hself := sameButStamps_refl (s.view hash)
  rw [view_onShard_string honly]
  simp only [KeyValueStore.onShard, StoreShard.getPurge, FlatStore.get, s.view_strings]
  cases he : (s.getShard hash key).stringMap.lookup key with
  | none =>
    dsimp only
    rw [he]
    exact ⟨rfl, by rw [putString_self (by rw [s.view_strings, he])]; exact hself⟩
  | some e =>
    dsimp only
    split
    · simp only [AList.lookup_erase]
      exact ⟨trivial, hself.putString .absent⟩
    · rw [he]
      exact ⟨rfl, hself.putString (.present e.value (Set.mem_univ _) e.lastAccessed now)⟩

/-- What a purge of a shard shows: some expired strings are gone, and nothing else. -/
theorem view_purged (hash : Bytes → Nat) {s : KeyValueStore} {i : Fin numShards} {sh : StoreShard}
    (hsh : (s.shards i).Purged now sh) :
    let view' := (KeyValueStore.mk (update s.shards i sh)).view hash
    (∀ key, view'.strings key = (s.view hash).strings key ∨ view'.strings key = none ∧
      ∃ e, (s.view hash).strings key = some e ∧ e.expired now = true) ∧
      view'.hashes = (s.view hash).hashes ∧ view'.lists = (s.view hash).lists := by
  have hshard : ∀ key, (getShardIndex hash key = i ∧
      (KeyValueStore.mk (update s.shards i sh)).getShard hash key = sh) ∨
        (KeyValueStore.mk (update s.shards i sh)).getShard hash key = s.getShard hash key := by
    intro key
    by_cases hi : getShardIndex hash key = i
    · exact Or.inl ⟨hi, by rw [KeyValueStore.getShard, hi]; exact update_self i sh s.shards⟩
    · exact Or.inr (update_of_ne hi _ _)
  refine ⟨fun key => ?_, funext fun key => ?_, funext fun key => ?_⟩ <;>
    simp only [KeyValueStore.view] <;> rcases hshard key with ⟨rfl, hself⟩ | hsame
  · rw [hself]
    exact hsh.strings key
  · exact Or.inl (by rw [hsame])
  · rw [hself, hsh.hashes]
    rfl
  · rw [hsame]
  · rw [hself, hsh.lists]
    rfl
  · rw [hsame]

/-- A purge of a shard drops expired strings. -/
theorem mirrored_purge (h : SameButStamps Set.univ (s.view hash) F) (i : Fin numShards)
    {sh : StoreShard} (hsh : (s.shards i).Purged now sh) :
    AtomicOp.Mirrored hash F (.purge now) .unit ⟨update s.shards i sh⟩ := by
  -- the reference store drops what the shard drops
  let G : FlatStore :=
    ⟨fun key => if ((KeyValueStore.mk (update s.shards i sh)).view hash).strings key = none
      then none else F.strings key, F.hashes, F.lists⟩
  obtain ⟨hstrings, hhashes, hlists⟩ := view_purged hash hsh
  refine ⟨G, .purge ⟨fun key => ?_, rfl, rfl⟩, fun key => ?_, ?_, ?_⟩
  · dsimp only [G]
    split
    · rename_i hnone
      rcases hstrings key with heq | ⟨-, e, he, hx⟩
      · rw [hnone] at heq
        rcases h.string key with ⟨-, hF⟩ | ⟨_, _, _, _, -, hs, -⟩
        · exact Or.inl hF.symm
        · rw [hs] at heq
          cases heq
      · rcases h.string key with ⟨hs, -⟩ | ⟨value, d, a, a', -, hs, hF⟩
        · rw [hs] at he
          cases he
        · rw [hs, Option.some.injEq] at he
          subst he
          exact Or.inr ⟨rfl, _, hF, hx⟩
    · exact Or.inl rfl
  · dsimp only [G]
    rcases hstrings key with heq | ⟨hnone, -⟩
    · rw [heq]
      split
      · rename_i hnone
        rw [hnone]
        exact .absent
      · exact h.strings key
    · rw [hnone]
      exact .absent
  · exact h.hashes.trans hhashes.symm
  · exact h.lists.trans hlists.symm

end Operations

/-! ## 3. Sections -/

section Sections

variable {hash : Bytes → Nat} {order : IterOrder} {s s' : KeyValueStore} {F : FlatStore}
  {now : Time} {key : Bytes} {result : CallResult} {op : AtomicOp} {sec : Section} {T : Type}

/-- A section in which nothing takes effect. -/
theorem legal_nil (h : SameButStamps Set.univ (s'.view hash) F) (t : T) :
    ∃ G, LegalSequence AtomicOp.Does F (([] : List (AtomicOp × CallResult)).map (Prod.mk t)) G ∧
      SameButStamps Set.univ (s'.view hash) G := ⟨F, .nil, h⟩

/-- A section in which an operation takes effect. -/
theorem AtomicOp.Mirrored.legal (h : op.Mirrored hash F result s') (t : T) :
    ∃ G, LegalSequence AtomicOp.Does F ([(op, result)].map (Prod.mk t)) G ∧
      SameButStamps Set.univ (s'.view hash) G := by
  obtain ⟨G, hdoes, hview⟩ := h
  exact ⟨G, .cons t hdoes .nil, hview⟩

/-- The shared section of `get` decides the call, or leaves it to the exclusive one. -/
theorem legal_getPeek (h : SameButStamps Set.univ (s.view hash) F) (order : IterOrder)
    (now : Time) (key : Bytes) (t : T) :
    let r := advance hash order (.running (.getPeek now key), s)
    ∃ G, LegalSequence AtomicOp.Does F
        (((Section.getPeek now key).points r.1).map (Prod.mk t)) G ∧
      SameButStamps Set.univ (r.2.view hash) G := by
  intro r
  have hself := sameButStamps_refl (s.view hash)
  have hr : r = advance hash order (.running (.getPeek now key), s) := rfl
  rw [advance_getPeek] at hr
  cases hpeek : (s.getShard hash key).getPeek now key with
  | stale =>
    rw [hpeek] at hr
    rw [hr]
    exact legal_nil h t
  | absent =>
    rw [hpeek] at hr
    rw [hr]
    have hnone : (s.view hash).strings key = none := by
      unfold StoreShard.getPeek at hpeek
      rw [s.view_strings]
      split at hpeek
      · assumption
      · split at hpeek <;> cases hpeek
    refine (mirrored_call h (c := .get key) (by simp) ?_ ?_).legal t
    · simp only [FlatStore.call, FlatStore.get, hnone, CallResult.Agrees]
    · simp only [FlatStore.call, FlatStore.get, hnone]
      exact hself
  | fresh val =>
    rw [hpeek] at hr
    rw [hr]
    obtain ⟨e, he, hfresh, rfl⟩ : ∃ e, (s.view hash).strings key = some e ∧
        e.expired now = false ∧ e.value = val := by
      unfold StoreShard.getPeek at hpeek
      rw [s.view_strings]
      split at hpeek
      · cases hpeek
      · rename_i e he
        split at hpeek
        · cases hpeek
        · rename_i hx
          exact ⟨e, he, Bool.eq_false_iff.mpr hx, StoreShard.Peek.fresh.inj hpeek⟩
    refine (mirrored_call h (c := .get key) (by simp) ?_ ?_).legal t
    · simp [FlatStore.call, FlatStore.get, he, hfresh, CallResult.Agrees]
    · simp only [FlatStore.call, FlatStore.get, he, hfresh, Bool.false_eq_true, if_false]
      nth_rewrite 1 [← putString_self he]
      exact hself.putString (.present e.value (Set.mem_univ _) e.lastAccessed now)

/-- **What takes effect in a section** is legal, and leads to the store it leaves. -/
theorem Section.legal (h : SameButStamps Set.univ (s.view hash) F) (hsec : sec.ofTtl = false)
    (order : IterOrder) (t : T) :
    let r := advance hash order (.running sec, s)
    ∃ G, LegalSequence AtomicOp.Does F ((sec.points r.1).map (Prod.mk t)) G ∧
      SameButStamps Set.univ (r.2.view hash) G := by
  have hself := sameButStamps_refl (s.view hash)
  cases sec with
  | getPeek now key => exact legal_getPeek h order now key t
  | getTouch now key val => exact legal_nil ((sameButStamps_touch hash now key s).trans h) t
  | getPurge now key =>
    obtain ⟨hvalue, hview⟩ := sameButStamps_getPurge hash now key s
    have hresult : CallResult.Agrees
        (.value (s.onShard hash key (StoreShard.getPurge now key)).1)
        ((s.view hash).call now (.get key)).1 := hvalue
    exact (mirrored_call h (by simp) hresult hview).legal t
  | «exists» now key =>
    intro r
    have hr : r = (.returned (.bool (s.exists hash now key)), s) := advance_same rfl
    rw [hr]
    have hresult : CallResult.Agrees (.bool (s.exists hash now key))
        ((s.view hash).call now (.exists key)).1 := s.exists_eq hash now key
    exact (mirrored_call h (by simp) hresult hself).legal t
  | set now key value ttlSeconds =>
    have hresult : CallResult.Agrees .unit
        ((s.view hash).call now (.set key value ttlSeconds)).1 := trivial
    have hview : ((s.set hash now key value ttlSeconds).view hash) =
        ((s.view hash).call now (.set key value ttlSeconds)).2 :=
      s.view_set hash now key value ttlSeconds
    exact (mirrored_call h (by simp) hresult (hview ▸ sameButStamps_refl _)).legal t
  | expire now key ttlSeconds =>
    obtain ⟨hanswer, hview⟩ := Prod.ext_iff.mp (s.view_expire hash now key ttlSeconds)
    have hresult : CallResult.Agrees (.bool (s.expire hash now key ttlSeconds).1)
        ((s.view hash).call now (.expire key ttlSeconds)).1 := hanswer
    have hview : (s.expire hash now key ttlSeconds).2.view hash =
        ((s.view hash).call now (.expire key ttlSeconds)).2 := hview
    exact (mirrored_call h (by simp) hresult (hview ▸ sameButStamps_refl _)).legal t
  | incrBy now key delta =>
    obtain ⟨hanswer, hview⟩ := Prod.ext_iff.mp (s.view_incrBy hash now key delta)
    have hresult : CallResult.Agrees (.counter (s.incrBy hash now key delta).1)
        ((s.view hash).call now (.incrBy key delta)).1 := hanswer
    have hview : (s.incrBy hash now key delta).2.view hash =
        ((s.view hash).call now (.incrBy key delta)).2 := hview
    exact (mirrored_call h (by simp) hresult (hview ▸ sameButStamps_refl _)).legal t
  | size now i total =>
    intro r
    have hr : r.2 = s := congrArg Prod.snd (advance_same rfl)
    rw [hr]
    exact legal_nil h t
  | getSnapshot now i snapshot =>
    intro r
    have hr : r.2 = s := congrArg Prod.snd (advance_same rfl)
    rw [hr]
    exact legal_nil h t
  | purgeExpiredKeys now maxKeysPerShard i purged =>
    exact (mirrored_purge h i (StoreShard.purged_purgeExpiredKeys order now maxKeysPerShard
      (s.shards i))).legal t
  | ttlPeek | ttlPurge => cases hsec

/-- **What a thread does in a section.** -/
theorem Section.advances (hsec : sec.ofTtl = false) (order : IterOrder) (s : KeyValueStore) :
    let next := (advance hash order (.running sec, s)).1
    Advances sec.phase (sec.seen next) (sec.points next) next.phase := by
  cases sec with
  | getPeek now key =>
    intro next
    have hnext : next = (advance hash order (.running (.getPeek now key), s)).1 := rfl
    rw [advance_getPeek] at hnext
    rw [hnext]
    cases (s.getShard hash key).getPeek now key with
    | absent => exact .finish _ _
    | fresh val => exact .decide _ _
    | stale => exact .stay
  | getTouch now key val => exact .answer _
  | getPurge | «exists» | set | expire | incrBy => exact .finish _ _
  | size now i total =>
    rw [advance_running]
    dsimp only [Section.run, Section.nextShard]
    split <;> exact .stay
  | getSnapshot now i snapshot =>
    rw [advance_running]
    dsimp only [Section.run, Section.nextShard]
    split <;> exact .stay
  | purgeExpiredKeys now maxKeysPerShard i purged =>
    rw [advance_running]
    dsimp only [Section.run, Section.nextShard]
    split <;> exact .once _ _
  | ttlPeek | ttlPurge => cases hsec

/-- Only `ttl` goes on to a section of `ttl`. -/
theorem Section.next_ofTtl (hsec : sec.ofTtl = false) {next : Section}
    (h : (advance hash order (.running sec, s)).1 = .running next) : next.ofTtl = false := by
  cases sec with
  | getPeek now key =>
    rw [advance_getPeek] at h
    split at h <;> cases h <;> rfl
  | getTouch | getPurge | «exists» | set | expire | incrBy => cases h
  | size | getSnapshot | purgeExpiredKeys =>
    rw [advance_running] at h
    dsimp only [Section.run, Section.nextShard] at h
    split at h
    · cases h
      rfl
    · cases h
  | ttlPeek | ttlPurge => cases hsec

end Sections

/-! ## 4. Threads -/

section Threads

variable {T : Type} [DecidableEq T] {hash : Bytes → Nat} {st : Threads T} {F : FlatStore}

/-- The store is the reference store but for stamps, and no thread is in `ttl`. -/
structure Threads.Stands (hash : Bytes → Nat) (st : Threads T) (F : FlatStore) : Prop where
  view : SameButStamps Set.univ (st.store.view hash) F
  noTtl : ∀ t sec, st.locals t = .running sec → sec.ofTtl = false

/-- The phase of the call of a thread. -/
def Threads.phase (st : Threads T) (t : T) : CallPhase AtomicOp CallResult := (st.locals t).phase

theorem phase_begin {now : Time} {m : Method} (hm : ∀ key, m ≠ .ttl key) :
    (m.begin now).phase = match m.call? with
      | some c => .pending (.call now c)
      | none => .idle := by
  cases m with
  | ttl key => exact absurd rfl (hm key)
  | _ => rfl

theorem ofTtl_begin {now : Time} {m : Method} (hm : ∀ key, m ≠ .ttl key) :
    (m.begin now).ofTtl = false := by
  cases m with
  | ttl key => exact absurd rfl (hm key)
  | _ => rfl

theorem noTtl_update {locals : T → Local} {t : T} {next : Local}
    (h : ∀ t sec, locals t = .running sec → sec.ofTtl = false)
    (hnext : ∀ sec, next = .running sec → sec.ofTtl = false) :
    ∀ u sec, update locals t next u = .running sec → sec.ofTtl = false := by
  intro u sec hu
  by_cases hut : u = t
  · subst hut
    rw [update_self] at hu
    exact hnext sec hu
  · rw [update_of_ne hut] at hu
    exact h u sec hu

/-- **One turn.** -/
theorem linearizes_threadMachine (T : Type) [DecidableEq T] (hash : Bytes → Nat) :
    Linearizes (threadMachine T hash) AtomicOp.Does Turn.NoTtl Threads.phase
      (Threads.points hash) (Threads.Stands hash) where
  legal st F turn h hturn := by
    cases turn with
    | begin t now m =>
      refine ⟨F, .nil, ?_⟩
      simp only [threadMachine, Threads.step]
      split
      · exact h
      · refine ⟨h.view, noTtl_update h.noTtl ?_⟩
        rintro - ⟨⟩
        exact ofTtl_begin hturn
    | «section» t order =>
      cases ht : st.locals t with
      | running sec =>
        have hsec := h.noTtl t sec ht
        obtain ⟨G, hlegal, hview⟩ := Section.legal h.view hsec order t
        simp only [threadMachine, Threads.step, Threads.points, ht]
        exact ⟨G, hlegal, hview, noTtl_update h.noTtl fun _ hnext => Section.next_ofTtl hsec hnext⟩
      | idle =>
        simp only [threadMachine, Threads.points, ht]
        rw [Threads.step_not_running (by simp [ht])]
        exact ⟨F, .nil, h⟩
      | returned result =>
        simp only [threadMachine, Threads.points, ht]
        rw [Threads.step_not_running (by simp [ht])]
        exact ⟨F, .nil, h⟩
  advances st F turn h hturn := by
    cases turn with
    | begin t now m =>
      simp only [threadMachine, Turn.thread, Threads.phase, Threads.seen, Threads.points,
        Threads.step]
      cases ht : st.locals t with
      | running sec =>
        simp only [ht]
        exact .stay
      | idle | returned =>
        simp only [update_self, Local.phase, phase_begin hturn]
        cases m.call? with
        | none => exact .stay
        | some c => exact .call _
    | «section» t order =>
      simp only [threadMachine, Turn.thread, Threads.phase, Threads.seen, Threads.points]
      cases ht : st.locals t with
      | running sec =>
        simp only [Threads.step, ht, update_self]
        exact Section.advances (h.noTtl t sec ht) order st.store
      | idle | returned =>
        rw [Threads.step_not_running (by simp [ht]), ht]
        exact .stay
  others st turn u hu := by
    cases turn with
    | begin t now m =>
      have hut : u ≠ t := hu
      simp only [threadMachine, Threads.phase, Threads.step]
      split
      · rfl
      · dsimp only
        rw [update_of_ne hut]
    | «section» t order =>
      have hut : u ≠ t := hu
      simp only [threadMachine, Threads.phase, Threads.step]
      rw [update_of_ne hut]

end Threads

/-- **The store is linearizable**, but for `ttl`.  In every run of any number of threads, the calls
of `get`, `exists`, `set`, `expire` and `incr_by` are those of the reference store in some order,
with the losses of expired strings that the purges make; the order goes on as the run goes on. -/
theorem keyValueStore_linearizable (T : Type) [DecidableEq T] (hash : Bytes → Nat)
    (s : KeyValueStore) :
    (threadMachine T hash).StronglyLinearizable AtomicOp.Does Turn.NoTtl (.start s)
      (s.view hash) :=
  (linearizes_threadMachine T hash).stronglyLinearizable
    ⟨sameButStamps_refl _, fun _ _ h => by cases h⟩ fun _ => rfl

end KeyValueDb
