/-
# The methods as critical sections

Several threads work on one store.  A method reads the clock when it is called and then takes
the lock of one shard after the other, and what happens under one lock is one step: `get` and
`ttl` have a shared section and maybe an exclusive one, `size`, `get_snapshot` and
`purge_expired_keys` have one section a shard, and the others have one.

`Section` is what a thread runs next, with the locals it carries from one section to the next.
A method whose sections meet no others does what the method of `KeyValueStore` does
(`advance_alone`).
-/
import KeyValueDb.Lib.Runs
import KeyValueDb.Store.View

namespace KeyValueDb

open Lib Function

/-! ## 1. The sections -/

/-- The shared section of `ttl`: the answer, or none for a string that has expired. -/
def StoreShard.ttlPeek (now : Time) (key : Bytes) (shard : StoreShard) : Option Int :=
  match shard.stringMap.lookup key with
  | none =>
    some (if (shard.hashMap.lookup key).isSome || (shard.listMap.lookup key).isSome then -1
      else -2)
  | some e =>
    match e.expiresAt with
    | none => some (-1)
    | some d =>
      if d ≤ now then none
      else
        let remaining := (wrap64 (d - now)).tdiv 1000000000
        some (if 0 ≤ remaining then remaining else -2)

/-- The shard's share of `get_snapshot`. -/
def StoreShard.snapshot (order : IterOrder) (now : Time) (shard : StoreShard) :
    StoreSnapshot where
  strings := ((order.iter shard.stringMap.entries).filter fun x => !x.2.expired now).map
    fun x => (x.1, x.2.value)
  hashes := (order.iter shard.hashMap.entries).map fun x => (x.1, StoreShard.pairs order x.2)
  lists := (order.iter shard.listMap.entries).map fun x => (x.1, x.2)

def StoreSnapshot.empty : StoreSnapshot := ⟨[], [], []⟩

def StoreSnapshot.append (snap more : StoreSnapshot) : StoreSnapshot :=
  ⟨snap.strings ++ more.strings, snap.hashes ++ more.hashes, snap.lists ++ more.lists⟩

/-- The methods that threads call. -/
inductive Method
  | get (key : Bytes)
  | «exists» (key : Bytes)
  | ttl (key : Bytes)
  | size
  | getSnapshot
  | purgeExpiredKeys (maxKeysPerShard : Nat)
  | set (key value : Bytes) (ttlSeconds : Option Int)
  | expire (key : Bytes) (ttlSeconds : Int)
  | incrBy (key : Bytes) (delta : Int)

/-- The section a thread runs next.  `now` is the clock reading of the call. -/
inductive Section
  | getPeek (now : Time) (key : Bytes)
  | getTouch (now : Time) (key val : Bytes)
  | getPurge (now : Time) (key : Bytes)
  | «exists» (now : Time) (key : Bytes)
  | ttlPeek (now : Time) (key : Bytes)
  | ttlPurge (now : Time) (key : Bytes)
  | size (now : Time) (i : Fin numShards) (total : Nat)
  | getSnapshot (now : Time) (i : Fin numShards) (snapshot : StoreSnapshot)
  | purgeExpiredKeys (now : Time) (maxKeysPerShard : Nat) (i : Fin numShards) (purged : Nat)
  | set (now : Time) (key value : Bytes) (ttlSeconds : Option Int)
  | expire (now : Time) (key : Bytes) (ttlSeconds : Int)
  | incrBy (now : Time) (key : Bytes) (delta : Int)

/-- Where a thread is. -/
inductive Local
  | idle
  | running (sec : Section)
  | returned (result : CallResult)

/-- The first section of a call made at `now`. -/
def Method.begin (now : Time) : Method → Section
  | .get key => .getPeek now key
  | .exists key => .exists now key
  | .ttl key => .ttlPeek now key
  | .size => .size now 0 0
  | .getSnapshot => .getSnapshot now 0 StoreSnapshot.empty
  | .purgeExpiredKeys maxKeysPerShard => .purgeExpiredKeys now maxKeysPerShard 0 0
  | .set key value ttlSeconds => .set now key value ttlSeconds
  | .expire key ttlSeconds => .expire now key ttlSeconds
  | .incrBy key delta => .incrBy now key delta

namespace Section

/-- The clock reading of the call. -/
def now : Section → Time
  | .getPeek now _ | .getTouch now _ _ | .getPurge now _ | .exists now _ | .ttlPeek now _
  | .ttlPurge now _ | .size now _ _ | .getSnapshot now _ _ | .purgeExpiredKeys now _ _ _
  | .set now _ _ _ | .expire now _ _ | .incrBy now _ _ => now

/-- The shard whose lock the section takes. -/
def shard (hash : Bytes → Nat) : Section → Fin numShards
  | .getPeek _ key | .getTouch _ key _ | .getPurge _ key | .exists _ key | .ttlPeek _ key
  | .ttlPurge _ key | .set _ key _ _ | .expire _ key _ | .incrBy _ key _ => getShardIndex hash key
  | .size _ i _ | .getSnapshot _ i _ | .purgeExpiredKeys _ _ i _ => i

/-- Go on to the next shard, or return after the last one. -/
def nextShard (i : Fin numShards) (sec : Fin numShards → Section) (result : CallResult) : Local :=
  if h : i.val + 1 < numShards then .running (sec ⟨i.val + 1, h⟩) else .returned result

/-- What happens under the lock. -/
def run (order : IterOrder) (shard : StoreShard) : Section → Local × StoreShard
  | .getPeek now key =>
    match shard.getPeek now key with
    | .absent => (.returned (.value none), shard)
    | .fresh val => (.running (.getTouch now key val), shard)
    | .stale => (.running (.getPurge now key), shard)
  | .getTouch now key val => (.returned (.value (some val)), shard.getTouch now key)
  | .getPurge now key =>
    (.returned (.value (shard.getPurge now key).1), (shard.getPurge now key).2)
  | .exists now key => (.returned (.bool (shard.exists now key)), shard)
  | .ttlPeek now key =>
    match shard.ttlPeek now key with
    | some answer => (.returned (.int answer), shard)
    | none => (.running (.ttlPurge now key), shard)
  | .ttlPurge _ key => (.returned (.int (-2)), shard.ttlPurge key)
  | .size now i total =>
    (nextShard i (.size now · (total + shard.size now)) (.size (total + shard.size now)), shard)
  | .getSnapshot now i snapshot =>
    let snapshot := snapshot.append (shard.snapshot order now)
    (nextShard i (.getSnapshot now · snapshot) (.snapshot snapshot), shard)
  | .purgeExpiredKeys now maxKeysPerShard i purged =>
    let r := shard.purgeExpiredKeys order now maxKeysPerShard
    (nextShard i (.purgeExpiredKeys now maxKeysPerShard · (purged + r.1)) (.size (purged + r.1)),
      r.2)
  | .set now key value ttlSeconds => (.returned .unit, shard.set now key value ttlSeconds)
  | .expire now key ttlSeconds =>
    (.returned (.bool (shard.expire now key ttlSeconds).1), (shard.expire now key ttlSeconds).2)
  | .incrBy now key delta =>
    (.returned (.counter (shard.incrBy now key delta).1), (shard.incrBy now key delta).2)

end Section

/-! ## 2. Threads -/

/-- One step of a thread that is in a call: run its section. -/
def advance (hash : Bytes → Nat) (order : IterOrder) (x : Local × KeyValueStore) :
    Local × KeyValueStore :=
  match x.1 with
  | .running sec =>
    let r := sec.run order (x.2.shards (sec.shard hash))
    (r.1, ⟨update x.2.shards (sec.shard hash) r.2⟩)
  | _ => x

/-- A store and the threads that work on it. -/
structure Threads (T : Type) where
  store : KeyValueStore
  locals : T → Local

/-- A thread calls a method, when the clock shows `now`, or runs its next section. -/
inductive Turn (T : Type)
  | begin (t : T) (now : Time) (m : Method)
  | «section» (t : T) (order : IterOrder)

namespace Threads

variable {T : Type} [DecidableEq T]

def start (s : KeyValueStore) : Threads T := ⟨s, fun _ => .idle⟩

def step (hash : Bytes → Nat) (st : Threads T) : Turn T → Threads T
  | .begin t now m =>
    match st.locals t with
    | .running _ => st
    | _ => { st with locals := update st.locals t (.running (m.begin now)) }
  | .section t order =>
    let r := advance hash order (st.locals t, st.store)
    ⟨r.2, update st.locals t r.1⟩

end Threads

/-! ## 3. A call that nobody interferes with -/

/-- The method of `KeyValueStore`, run at once. -/
def Method.alone (hash : Bytes → Nat) (order : IterOrder) (now : Time) (s : KeyValueStore) :
    Method → CallResult × KeyValueStore
  | .get key => s.call hash order now (.get key)
  | .exists key => s.call hash order now (.exists key)
  | .ttl key => s.call hash order now (.ttl key)
  | .size => s.call hash order now .size
  | .getSnapshot => s.call hash order now .getSnapshot
  | .purgeExpiredKeys maxKeysPerShard =>
    (.size (s.purgeExpiredKeys order now maxKeysPerShard).1,
      (s.purgeExpiredKeys order now maxKeysPerShard).2)
  | .set key value ttlSeconds => s.call hash order now (.set key value ttlSeconds)
  | .expire key ttlSeconds => s.call hash order now (.expire key ttlSeconds)
  | .incrBy key delta => s.call hash order now (.incrBy key delta)

variable {hash : Bytes → Nat} {order : IterOrder} {now : Time} {key : Bytes}

theorem StoreShard.shardTtl_eq (shard : StoreShard) (now : Time) (key : Bytes) :
    shard.ttl now key = match shard.ttlPeek now key with
      | some answer => (answer, shard)
      | none => (-2, shard.ttlPurge key) := by
  unfold StoreShard.ttl StoreShard.ttlPeek
  rcases shard.stringMap.lookup key with _ | ⟨value, _ | d, lastAccessed⟩
  · rfl
  · rfl
  · by_cases hd : d ≤ now
    · simp only [if_pos hd]
    · simp only [if_neg hd]

theorem advance_running (sec : Section) (s : KeyValueStore) :
    advance hash order (.running sec, s) =
      ((sec.run order (s.shards (sec.shard hash))).1,
        ⟨update s.shards (sec.shard hash) (sec.run order (s.shards (sec.shard hash))).2⟩) := rfl

theorem advance_returned (n : Nat) (result : CallResult) (s : KeyValueStore) :
    (advance hash order)^[n] (.returned result, s) = (.returned result, s) :=
  iterate_fixed rfl n

/-- A section that changes nothing. -/
theorem advance_same {sec : Section} {s : KeyValueStore} {next : Local}
    (h : sec.run order (s.shards (sec.shard hash)) = (next, s.shards (sec.shard hash))) :
    advance hash order (.running sec, s) = (next, s) := by
  rw [advance_running, h, update_eq_self]

section Walk

variable {α : Type} {sec : Fin numShards → α → Section} {visit : α → StoreShard → α}
  {leave : StoreShard → StoreShard} {result : α → CallResult}

/-- The store in the middle of a walk: what `leave` makes of the shards before the `i`-th. -/
def walked (leave : StoreShard → StoreShard) (s : KeyValueStore) (i : Nat) : KeyValueStore :=
  ⟨fun j => if j.val < i then leave (s.shards j) else s.shards j⟩

theorem walked_zero (s : KeyValueStore) : walked leave s 0 = s := by
  simp [walked]

theorem walked_all (s : KeyValueStore) :
    walked leave s numShards = ⟨fun j => leave (s.shards j)⟩ := by
  simp [walked]

theorem walked_succ (s : KeyValueStore) (i : Fin numShards) :
    ⟨update (walked leave s i).shards i (leave (s.shards i))⟩ = walked leave s (i.val + 1) := by
  refine congrArg KeyValueStore.mk (funext fun j => ?_)
  by_cases hj : j = i
  · subst hj
    simp
  · have hval : j.val ≠ i.val := fun h => hj (Fin.ext h)
    have hiff : j.val < i.val ↔ j.val < i.val + 1 := by omega
    simp only [walked, update_of_ne hj, hiff]

/-- One shard of a walk: `visit` is what it learns from the shard, `leave` what it makes of
it. -/
theorem advance_shard (hshard : ∀ i a, (sec i a).shard hash = i)
    (hrun : ∀ i a sh, (sec i a).run order sh =
      (Section.nextShard i (sec · (visit a sh)) (result (visit a sh)), leave sh))
    (s : KeyValueStore) (i : Fin numShards) (a : α) :
    advance hash order (.running (sec i a), walked leave s i) =
      (Section.nextShard i (sec · (visit a (s.shards i))) (result (visit a (s.shards i))),
        walked leave s (i.val + 1)) := by
  have hhere : (walked leave s i).shards i = s.shards i := by simp [walked]
  rw [advance_running, hshard, hrun, hhere, walked_succ]

theorem drop_finRange (i : Fin numShards) :
    (List.finRange numShards).drop i = i :: (List.finRange numShards).drop (i.val + 1) := by
  rw [List.drop_eq_getElem_cons (by simp), List.getElem_finRange]
  rfl

/-- The rest of a walk. -/
theorem advance_walk (hshard : ∀ i a, (sec i a).shard hash = i)
    (hrun : ∀ i a sh, (sec i a).run order sh =
      (Section.nextShard i (sec · (visit a sh)) (result (visit a sh)), leave sh))
    (s : KeyValueStore) (n : Nat) (i : Fin numShards) (hn : i.val + n + 1 = numShards) (a : α) :
    (advance hash order)^[n + 1] (.running (sec i a), walked leave s i) =
      (.returned (result (((List.finRange numShards).drop i).foldl
          (fun a j => visit a (s.shards j)) a)), walked leave s numShards) := by
  induction n generalizing i a with
  | zero =>
    have hlast : ¬ i.val + 1 < numShards := by omega
    rw [zero_add, iterate_one, advance_shard hshard hrun, drop_finRange,
      List.drop_eq_nil_of_le (by simp; omega), Section.nextShard, dif_neg hlast,
      show i.val + 1 = numShards by omega]
    rfl
  | succ n ih =>
    have hnext : i.val + 1 < numShards := by omega
    have hrest := ih ⟨i.val + 1, hnext⟩ (by simp only; omega) (visit a (s.shards i))
    rw [iterate_succ_apply, advance_shard hshard hrun, Section.nextShard, dif_pos hnext,
      drop_finRange, List.foldl_cons]
    exact hrest

/-- A whole walk. -/
theorem advance_walk_all (hash : Bytes → Nat) (order : IterOrder)
    (sec : Fin numShards → α → Section) (visit : α → StoreShard → α)
    (leave : StoreShard → StoreShard) (result : α → CallResult)
    (hshard : ∀ i a, (sec i a).shard hash = i)
    (hrun : ∀ i a sh, (sec i a).run order sh =
      (Section.nextShard i (sec · (visit a sh)) (result (visit a sh)), leave sh))
    (s : KeyValueStore) (a : α) :
    (advance hash order)^[numShards] (.running (sec 0 a), s) =
      (.returned (result ((List.finRange numShards).foldl (fun a j => visit a (s.shards j)) a)),
        ⟨fun j => leave (s.shards j)⟩) := by
  have hwalk := advance_walk hshard hrun s (numShards - 1) 0 rfl a
  rw [show ((0 : Fin numShards) : Nat) = 0 from rfl, walked_zero, walked_all] at hwalk
  exact hwalk

end Walk

theorem foldl_append_snapshot (f : Fin numShards → StoreSnapshot) (l : List (Fin numShards))
    (snap : StoreSnapshot) :
    l.foldl (fun snap i => snap.append (f i)) snap =
      ⟨snap.strings ++ l.flatMap fun i => (f i).strings,
        snap.hashes ++ l.flatMap fun i => (f i).hashes,
        snap.lists ++ l.flatMap fun i => (f i).lists⟩ := by
  induction l generalizing snap with
  | nil => simp
  | cons i l ih =>
    rw [List.foldl_cons, ih]
    simp [StoreSnapshot.append]

theorem foldl_add (f : Fin numShards → Nat) (l : List (Fin numShards)) :
    l.foldl (fun total i => total + f i) 0 = (l.map f).sum := by
  rw [List.sum_eq_foldl, List.foldl_map]

/-- A method with one section. -/
theorem advance_one (n : Nat) {sec : Section} {s s' : KeyValueStore} {result : CallResult}
    (h : advance hash order (.running sec, s) = (.returned result, s')) :
    (advance hash order)^[n + 1] (.running sec, s) = (.returned result, s') := by
  rw [iterate_succ_apply, h, advance_returned]

/-- A method whose shared section is followed by an exclusive one. -/
theorem advance_two (n : Nat) {sec next : Section} {s s' : KeyValueStore} {result : CallResult}
    (h : advance hash order (.running sec, s) = (.running next, s))
    (h' : advance hash order (.running next, s) = (.returned result, s')) :
    (advance hash order)^[n + 2] (.running sec, s) = (.returned result, s') := by
  rw [iterate_succ_apply, h, advance_one n h']

theorem onShard_eq {α : Type} {f : StoreShard → α × StoreShard} {s : KeyValueStore} {x : α}
    {sh : StoreShard} (h : f (s.getShard hash key) = (x, sh)) :
    s.onShard hash key f = (x, ⟨update s.shards (getShardIndex hash key) sh⟩) := by
  unfold KeyValueStore.onShard
  rw [h]

/-- The shared section of `get` changes nothing. -/
theorem advance_getPeek (hash : Bytes → Nat) (order : IterOrder) (now : Time) (key : Bytes)
    (s : KeyValueStore) :
    advance hash order (.running (.getPeek now key), s) =
      match (s.getShard hash key).getPeek now key with
      | .absent => (.returned (.value none), s)
      | .fresh val => (.running (.getTouch now key val), s)
      | .stale => (.running (.getPurge now key), s) := by
  rw [advance_running]
  simp only [Section.run, Section.shard]
  rw [show s.shards (getShardIndex hash key) = s.getShard hash key from rfl]
  cases (s.getShard hash key).getPeek now key <;> simp [KeyValueStore.getShard]

/-- `get` has two sections at most. -/
theorem advance_get_two (hash : Bytes → Nat) (order : IterOrder) (now : Time) (key : Bytes)
    (n : Nat) (s : KeyValueStore) :
    (advance hash order)^[n + 2] (.running (.getPeek now key), s) =
      (.returned (.value (s.get hash now key).1), (s.get hash now key).2) := by
  have hget : s.get hash now key = s.onShard hash key (StoreShard.get now key) := rfl
  have hpeek := advance_getPeek hash order now key s
  have hshard : (s.getShard hash key).get now key =
      match (s.getShard hash key).getPeek now key with
      | .absent => (none, s.getShard hash key)
      | .fresh val => (some val, (s.getShard hash key).getTouch now key)
      | .stale => (s.getShard hash key).getPurge now key := rfl
  cases hcase : (s.getShard hash key).getPeek now key with
  | absent =>
    rw [hcase] at hpeek hshard
    rw [advance_one _ hpeek, hget, onShard_eq hshard, KeyValueStore.getShard, update_eq_self]
  | fresh val =>
    rw [hcase] at hpeek hshard
    rw [advance_two _ hpeek rfl, hget, onShard_eq hshard]
    rfl
  | stale =>
    rw [hcase] at hpeek hshard
    rw [advance_two _ hpeek rfl, hget, onShard_eq hshard]
    rfl

theorem advance_ttl (s : KeyValueStore) :
    (advance hash order)^[numShards] (.running (.ttlPeek now key), s) =
      (.returned (.int (s.ttl hash now key).1), (s.ttl hash now key).2) := by
  have httl : s.ttl hash now key = s.onShard hash key (StoreShard.ttl now key) := rfl
  have hpeek : advance hash order (.running (.ttlPeek now key), s) =
      match (s.getShard hash key).ttlPeek now key with
      | some answer => (.returned (.int answer), s)
      | none => (.running (.ttlPurge now key), s) := by
    rw [advance_running]
    simp only [Section.run, Section.shard]
    rw [show s.shards (getShardIndex hash key) = s.getShard hash key from rfl]
    cases (s.getShard hash key).ttlPeek now key <;> simp [KeyValueStore.getShard]
  have hshard := (s.getShard hash key).shardTtl_eq now key
  cases hcase : (s.getShard hash key).ttlPeek now key with
  | some answer =>
    rw [hcase] at hpeek hshard
    rw [advance_one _ hpeek, httl, onShard_eq hshard, KeyValueStore.getShard, update_eq_self]
  | none =>
    rw [hcase] at hpeek hshard
    rw [advance_two _ hpeek rfl, httl, onShard_eq hshard]
    rfl

/-- **Alone, the sections of a method do what the method does.** -/
theorem advance_alone (hash : Bytes → Nat) (order : IterOrder) (now : Time) (m : Method)
    (s : KeyValueStore) :
    (advance hash order)^[numShards] (.running (m.begin now), s) =
      (.returned (m.alone hash order now s).1, (m.alone hash order now s).2) := by
  cases m with
  | get key => exact advance_get_two hash order now key _ s
  | «exists» key => exact advance_one _ (advance_same rfl)
  | ttl key => exact advance_ttl s
  | size =>
    have hwalk := advance_walk_all hash order (.size now)
      (fun total sh => total + sh.size now) id .size (fun _ _ => rfl) (fun _ _ _ => rfl) s 0
    rw [foldl_add] at hwalk
    exact hwalk
  | getSnapshot =>
    have hwalk := advance_walk_all hash order (.getSnapshot now)
      (fun snap sh => snap.append (sh.snapshot order now)) id .snapshot (fun _ _ => rfl)
      (fun _ _ _ => rfl) s StoreSnapshot.empty
    rw [foldl_append_snapshot] at hwalk
    exact hwalk
  | purgeExpiredKeys maxKeysPerShard =>
    have hwalk := advance_walk_all hash order (.purgeExpiredKeys now maxKeysPerShard)
      (fun purged sh => purged + (sh.purgeExpiredKeys order now maxKeysPerShard).1)
      (fun sh => (sh.purgeExpiredKeys order now maxKeysPerShard).2) .size (fun _ _ => rfl)
      (fun _ _ _ => rfl) s 0
    rw [foldl_add] at hwalk
    exact hwalk
  | set key value ttlSeconds => exact advance_one _ rfl
  | expire key ttlSeconds => exact advance_one _ rfl
  | incrBy key delta => exact advance_one _ rfl

end KeyValueDb
