/-
# When purging is invisible

Clients issue calls, and the background thread purges in between, at times and with limits of
its own.  `purges_invisible_iff` says when the clients cannot tell: purges inserted anywhere
leave every reply as it is exactly when no `del` meets an expired string that is all its key
has, and no `ttl` one whose key has a hash or a list besides.

One direction carries `Purged` through both runs, with the clock; the other inserts one purge,
large enough for every shard, right before the call.
-/
import KeyValueDb.Lib.Runs
import KeyValueDb.Store.Purge

namespace KeyValueDb

open Lib Function

variable {hash : Bytes → Nat}

/-! ## 1. One call -/

/-- The same reply; the strings of a snapshot may come in another order, since the maps they
are read from are not the same. -/
def CallResult.Same : CallResult → CallResult → Prop
  | .snapshot a, .snapshot b =>
    a.strings.Perm b.strings ∧ a.hashes = b.hashes ∧ a.lists = b.lists
  | a, b => a = b

theorem CallResult.Same.refl (r : CallResult) : r.Same r := by
  cases r with
  | snapshot snap => exact ⟨List.Perm.refl _, rfl, rfl⟩
  | _ => rfl

/-- The calls whose reply depends on whether an expired string was purged. -/
def KeyValueStore.Reveals (hash : Bytes → Nat) (now : Time) (c : Call) (s : KeyValueStore) :
    Prop :=
  match c with
  | .del key =>
    (s.getShard hash key).Stale now key ∧ ¬ (s.getShard hash key).HasOther key
  | .ttl key => (s.getShard hash key).Stale now key ∧ (s.getShard hash key).HasOther key
  | _ => False

/-- **One call**: unless it gives a purge away, the reply is the same and the stores go on
differing in expired strings only. -/
theorem KeyValueStore.Purged.call {now : Time} {s s' : KeyValueStore} (h : s.Purged now s')
    (order : IterOrder) (c : Call) (hc : ¬ s.Reveals hash now c) :
    ((s'.call hash order now c).1).Same (s.call hash order now c).1 ∧
      (s.call hash order now c).2.Purged now (s'.call hash order now c).2 := by
  have hsh : ∀ k, (s.getShard hash k).Purged now (s'.getShard hash k) := fun k => h _
  cases c with
  | set k v t =>
    refine ⟨rfl, (h.onShard (f := fun sh => ((), sh.set now k v t)) ⟨rfl, ?_⟩).2⟩
    exact (hsh k).putString k (some ⟨v, deadline now t, now⟩)
  | get k =>
    obtain ⟨hr, hs⟩ := h.onShard ((hsh k).get k)
    exact ⟨congrArg CallResult.value hr, hs⟩
  | del k =>
    obtain ⟨hr, hs⟩ := h.onShard ((hsh k).del k hc)
    exact ⟨congrArg CallResult.bool hr, hs⟩
  | «exists» k => exact ⟨congrArg CallResult.bool ((hsh k).exists k), h⟩
  | expire k t =>
    obtain ⟨hr, hs⟩ := h.onShard ((hsh k).expire k t)
    exact ⟨congrArg CallResult.bool hr, hs⟩
  | ttl k =>
    obtain ⟨hr, hs⟩ := h.onShard ((hsh k).ttl k hc)
    exact ⟨congrArg CallResult.int hr, hs⟩
  | size => exact ⟨congrArg CallResult.size h.size, h⟩
  | clear => exact ⟨rfl, KeyValueStore.Purged.refl now _⟩
  | incrBy k d =>
    obtain ⟨hr, hs⟩ := h.onShard ((hsh k).incrBy k d)
    exact ⟨congrArg CallResult.counter hr, hs⟩
  | hset k f v =>
    obtain ⟨hr, hs⟩ := h.onShard_hash (f := StoreShard.hset k f v)
      (fun sh sh' he => by simp [StoreShard.hset, he]) (hashOnly_hset k f v)
    exact ⟨congrArg CallResult.bool hr, hs⟩
  | hget k f =>
    refine ⟨congrArg CallResult.value ?_, h⟩
    simp only [KeyValueStore.hget, StoreShard.hget, (hsh k).hashes]
  | hdel k f =>
    obtain ⟨hr, hs⟩ := h.onShard_hash (f := StoreShard.hdel k f) (fun sh sh' he => by
      unfold StoreShard.hdel
      rw [he]
      split
      · exact ⟨rfl, he⟩
      · refine ⟨rfl, ?_⟩
        dsimp only
        split <;> rfl) (hashOnly_hdel k f)
    exact ⟨congrArg CallResult.bool hr, hs⟩
  | hexists k f =>
    refine ⟨congrArg CallResult.bool ?_, h⟩
    simp only [KeyValueStore.hexists, KeyValueStore.hget, StoreShard.hget, (hsh k).hashes]
  | hlen k =>
    refine ⟨congrArg CallResult.size ?_, h⟩
    simp only [KeyValueStore.hlen, StoreShard.hlen, (hsh k).hashes]
  | hgetall k =>
    refine ⟨congrArg CallResult.pairs ?_, h⟩
    simp only [KeyValueStore.hgetall, StoreShard.hgetall, (hsh k).hashes]
  | lpush k v =>
    obtain ⟨hr, hs⟩ := h.onShard_list (f := StoreShard.lpush k v)
      (fun sh sh' he => by simp [StoreShard.lpush, he]) (listOnly_lpush k v)
    exact ⟨congrArg CallResult.size hr, hs⟩
  | rpush k v =>
    obtain ⟨hr, hs⟩ := h.onShard_list (f := StoreShard.rpush k v)
      (fun sh sh' he => by simp [StoreShard.rpush, he]) (listOnly_rpush k v)
    exact ⟨congrArg CallResult.size hr, hs⟩
  | lpop k =>
    obtain ⟨hr, hs⟩ := h.onShard_list (f := StoreShard.lpop k) (fun sh sh' he => by
      unfold StoreShard.lpop StoreShard.putList
      rw [he]
      split
      · exact ⟨rfl, he⟩
      · refine ⟨rfl, ?_⟩
        dsimp only
        split <;> rfl) (listOnly_lpop k)
    exact ⟨congrArg CallResult.value hr, hs⟩
  | rpop k =>
    obtain ⟨hr, hs⟩ := h.onShard_list (f := StoreShard.rpop k) (fun sh sh' he => by
      unfold StoreShard.rpop StoreShard.putList
      rw [he]
      split
      · exact ⟨rfl, he⟩
      · refine ⟨rfl, ?_⟩
        dsimp only
        split <;> rfl) (listOnly_rpop k)
    exact ⟨congrArg CallResult.value hr, hs⟩
  | llen k =>
    refine ⟨congrArg CallResult.size ?_, h⟩
    simp only [KeyValueStore.llen, StoreShard.llen, (hsh k).lists]
  | lrange k a b =>
    refine ⟨congrArg CallResult.elems ?_, h⟩
    simp only [KeyValueStore.lrange, StoreShard.lrange, (hsh k).lists]
  | getSnapshot => exact ⟨h.getSnapshot order, h⟩

/-! ## 2. The calls that tell -/

/-- A limit that is no limit. -/
theorem exists_budget (s : KeyValueStore) :
    ∃ n, ∀ i, (s.shards i).stringMap.entries.length ≤ n :=
  ⟨Finset.univ.sup fun i => (s.shards i).stringMap.entries.length,
    fun i => Finset.le_sup (f := fun i => (s.shards i).stringMap.entries.length)
      (Finset.mem_univ i)⟩

/-- Such a purge erases every expired string. -/
theorem lookup_purge_of_stale {now : Time} {s : KeyValueStore} {n : Nat}
    (hn : ∀ i, (s.shards i).stringMap.entries.length ≤ n) {key : Bytes}
    (h : (s.getShard hash key).Stale now key) :
    (((s.purgeExpiredKeys .plain now n).2).getShard hash key).stringMap.lookup key = none := by
  obtain ⟨e, he, hx⟩ := h
  exact StoreShard.lookup_purgeScan_of_expired (hn _) (AList.mem_lookup_iff.mp he) hx

/-- **A call that tells**: right after such a purge it answers something else. -/
theorem KeyValueStore.Reveals.not_same {now : Time} {s : KeyValueStore} {c : Call}
    (h : s.Reveals hash now c) (order : IterOrder) {n : Nat}
    (hn : ∀ i, (s.shards i).stringMap.entries.length ≤ n) :
    ¬ (((s.purgeExpiredKeys .plain now n).2.call hash order now c).1).Same
      (s.call hash order now c).1 := by
  intro hsame
  have hP := KeyValueStore.Purged.purge .plain now n s
  cases c with
  | del key =>
    obtain ⟨hstale, hother⟩ := h
    have hnone := lookup_purge_of_stale hn hstale
    obtain ⟨e, he, -⟩ := hstale
    have hshard := hP (getShardIndex hash key)
    have hbool : ((s.purgeExpiredKeys .plain now n).2.del hash key).1 = (s.del hash key).1 :=
      CallResult.bool.inj hsame
    have hfound : (s.del hash key).1 = true := by
      simp [KeyValueStore.del, KeyValueStore.onShard, StoreShard.del, he]
    have hhash : ((s.getShard hash key).hashMap.lookup key).isSome = false :=
      Bool.eq_false_iff.mpr fun ho => hother (Or.inl ho)
    have hlist : ((s.getShard hash key).listMap.lookup key).isSome = false :=
      Bool.eq_false_iff.mpr fun ho => hother (Or.inr ho)
    have hgone : ((s.purgeExpiredKeys .plain now n).2.del hash key).1 = false := by
      unfold KeyValueStore.getShard at hhash hlist hnone
      simp only [KeyValueStore.del, KeyValueStore.onShard, StoreShard.del,
        KeyValueStore.getShard, hshard.hashes, hshard.lists, hnone, hhash, hlist]
      rfl
    rw [hfound, hgone] at hbool
    exact absurd hbool (by decide)
  | ttl key =>
    obtain ⟨hstale, hother⟩ := h
    have hnone := lookup_purge_of_stale hn hstale
    obtain ⟨e, he, hx⟩ := hstale
    obtain ⟨d, hd, hdue⟩ := StoreEntry.expired_iff.mp hx
    have hshard := hP (getShardIndex hash key)
    have hint : ((s.purgeExpiredKeys .plain now n).2.ttl hash now key).1 =
        (s.ttl hash now key).1 := CallResult.int.inj hsame
    have hstale : (s.ttl hash now key).1 = -2 := by
      simp [KeyValueStore.ttl, KeyValueStore.onShard, StoreShard.ttl, he, hd, hdue]
    have hpresent : (((s.getShard hash key).hashMap.lookup key).isSome ||
        ((s.getShard hash key).listMap.lookup key).isSome) = true := by
      rw [Bool.or_eq_true]
      exact hother
    have hgone : ((s.purgeExpiredKeys .plain now n).2.ttl hash now key).1 = -1 := by
      unfold KeyValueStore.getShard at hpresent hnone
      simp only [KeyValueStore.ttl, KeyValueStore.onShard, StoreShard.ttl,
        KeyValueStore.getShard, hshard.hashes, hshard.lists, hnone]
      rw [if_pos hpresent]
    rw [hstale, hgone] at hint
    exact absurd hint (by decide)
  | _ => exact h.elim

/-! ## 3. Runs -/

/-- What happens to the store: a call of a client, or a purge. -/
inductive Activity
  | client (t : TimedCall)
  | purge (order : IterOrder) (now : Time) (maxKeysPerShard : Nat)

namespace Activity

def now : Activity → Time
  | client t => t.now
  | purge _ now _ => now

def call? : Activity → Option TimedCall
  | client t => some t
  | purge .. => none

/-- The replies to the clients, and the store. -/
def run (hash : Bytes → Nat) : List Activity → KeyValueStore → List CallResult × KeyValueStore
  | [], s => ([], s)
  | client t :: acts, s =>
    let r := s.call hash t.order t.now t.call
    (r.1 :: (run hash acts r.2).1, (run hash acts r.2).2)
  | purge order now n :: acts, s => run hash acts (s.purgeExpiredKeys order now n).2

end Activity

/-- The clock never runs backwards. -/
def Clocked (times : List Time) : Prop := times.Pairwise (· ≤ ·)

/-- One call after the other, as far as the store is concerned. -/
def callStep (hash : Bytes → Nat) (s : KeyValueStore) (t : TimedCall) : KeyValueStore :=
  (s.call hash t.order t.now t.call).2

/-- The purges inserted into a run change no reply when no call tells. -/
theorem same_of_steps {acts : List Activity} {ts : List TimedCall} {s s' : KeyValueStore}
    {start : Time} (hcalls : acts.filterMap Activity.call? = ts)
    (hclock : Clocked (acts.map Activity.now)) (hstart : ∀ a ∈ acts, start ≤ a.now)
    (h : s.Purged start s')
    (hsteps : Steps (callStep hash) (fun s t => ¬ s.Reveals hash t.now t.call) ts s) :
    List.Forall₂ CallResult.Same (Activity.run hash acts s').1 (s.runCalls hash ts).1 := by
  induction acts generalizing ts s s' start with
  | nil =>
    obtain rfl : ts = [] := hcalls.symm
    exact List.Forall₂.nil
  | cons a acts ih =>
    have hlater : ∀ b ∈ acts, a.now ≤ b.now := by
      intro b hb
      exact (List.pairwise_cons.mp hclock).1 _ (List.mem_map_of_mem hb)
    have hnow := h.mono (hstart a List.mem_cons_self)
    have hrest := (List.pairwise_cons.mp hclock).2
    cases a with
    | client t =>
      obtain rfl : t :: acts.filterMap Activity.call? = ts := hcalls
      obtain ⟨hsame, hstores⟩ := hnow.call t.order t.call hsteps.1
      exact List.Forall₂.cons hsame (ih rfl hrest hlater hstores hsteps.2)
    | purge order now n =>
      have hpurged := hnow.trans (KeyValueStore.Purged.purge order now n s')
      exact ih hcalls hrest hlater hpurged hsteps

theorem filterMap_client (ts : List TimedCall) :
    (ts.map Activity.client).filterMap Activity.call? = ts := by
  induction ts with
  | nil => rfl
  | cons t ts ih => exact congrArg (t :: ·) ih

/-- A run in which some call tells has a purge that changes its reply. -/
theorem steps_of_same {ts : List TimedCall} {s : KeyValueStore} {start : Time}
    (hclock : Clocked (ts.map TimedCall.now)) (hstart : ∀ t ∈ ts, start ≤ t.now)
    (hall : ∀ acts : List Activity, acts.filterMap Activity.call? = ts →
      Clocked (acts.map Activity.now) → (∀ a ∈ acts, start ≤ a.now) →
      List.Forall₂ CallResult.Same (Activity.run hash acts s).1 (s.runCalls hash ts).1) :
    Steps (callStep hash) (fun s t => ¬ s.Reveals hash t.now t.call) ts s := by
  induction ts generalizing s start with
  | nil => trivial
  | cons t ts ih =>
    have hlater : ∀ u ∈ ts, t.now ≤ u.now := by
      intro u hu
      exact (List.pairwise_cons.mp hclock).1 _ (List.mem_map_of_mem hu)
    have hrest := (List.pairwise_cons.mp hclock).2
    constructor
    · -- a purge without limit, right before the call
      intro hreveals
      obtain ⟨n, hn⟩ := exists_budget s
      have hsame := hall (.purge .plain t.now n :: .client t :: ts.map .client)
        (congrArg (t :: ·) (filterMap_client ts)) ?_ ?_
      · exact hreveals.not_same t.order hn (List.forall₂_cons.mp hsame).1
      · have hmap : (ts.map Activity.client).map Activity.now = ts.map TimedCall.now := by
          rw [List.map_map]
          rfl
        simp only [List.map_cons, hmap]
        refine List.pairwise_cons.mpr ⟨?_, hclock⟩
        intro u hu
        rcases List.mem_cons.mp hu with rfl | hu
        · exact le_refl _
        · obtain ⟨v, hv, rfl⟩ := List.mem_map.mp hu
          exact hlater v hv
      · have ht := hstart t List.mem_cons_self
        intro a ha
        rcases List.mem_cons.mp ha with rfl | ha
        · exact ht
        · rcases List.mem_cons.mp ha with rfl | ha
          · exact ht
          · obtain ⟨u, hu, rfl⟩ := List.mem_map.mp ha
            exact hstart u (List.mem_cons_of_mem t hu)
    · refine ih hrest hlater fun acts hcalls hacts hbound => ?_
      have hsame := hall (.client t :: acts) (congrArg (t :: ·) hcalls) ?_ ?_
      · exact (List.forall₂_cons.mp hsame).2
      · refine List.pairwise_cons.mpr ⟨?_, hacts⟩
        intro u hu
        obtain ⟨a, ha, rfl⟩ := List.mem_map.mp hu
        exact hbound a ha
      · have ht := hstart t List.mem_cons_self
        intro a ha
        rcases List.mem_cons.mp ha with rfl | ha
        · exact ht
        · exact le_trans ht (hbound a ha)

/-- **When purging is invisible.**  Take any calls on any store, with a clock that never runs
backwards: inserting purges, anywhere and with any limits, changes no reply exactly when no
call of the run gives a purge away. -/
theorem purges_invisible_iff (hash : Bytes → Nat) (ts : List TimedCall) (s : KeyValueStore)
    (hclock : Clocked (ts.map TimedCall.now)) :
    (∀ acts : List Activity, acts.filterMap Activity.call? = ts →
      Clocked (acts.map Activity.now) →
      List.Forall₂ CallResult.Same (Activity.run hash acts s).1 (s.runCalls hash ts).1) ↔
    Steps (callStep hash) (fun s t => ¬ s.Reveals hash t.now t.call) ts s := by
  constructor
  · intro hall
    cases ts with
    | nil => trivial
    | cons t ts =>
      have hstart : ∀ u ∈ t :: ts, t.now ≤ u.now := ?_
      · exact steps_of_same hclock hstart fun acts hcalls hacts _ => hall acts hcalls hacts
      intro u hu
      rcases List.mem_cons.mp hu with rfl | hu
      · exact le_refl _
      · exact (List.pairwise_cons.mp hclock).1 _ (List.mem_map_of_mem hu)
  · intro hsteps acts hcalls hacts
    cases acts with
    | nil =>
      obtain rfl : ts = [] := hcalls.symm
      exact List.Forall₂.nil
    | cons a acts =>
      have hstart : ∀ b ∈ a :: acts, a.now ≤ b.now := ?_
      · exact same_of_steps hcalls hacts hstart (KeyValueStore.Purged.refl _ s) hsteps
      intro b hb
      rcases List.mem_cons.mp hb with rfl | hb
      · exact le_refl _
      · exact (List.pairwise_cons.mp hacts).1 _ (List.mem_map_of_mem hb)

/-- A string that expires between two reads. -/
theorem purges_invisible_iff_get :
    (∀ acts : List Activity, acts.filterMap Activity.call? =
        [⟨0, .plain, .set (bytes "k") (bytes "v") (some 1)⟩,
          ⟨2000000000, .plain, .get (bytes "k")⟩] →
      Clocked (acts.map Activity.now) →
      List.Forall₂ CallResult.Same (Activity.run List.length acts .empty).1
        (KeyValueStore.empty.runCalls List.length
          [⟨0, .plain, .set (bytes "k") (bytes "v") (some 1)⟩,
            ⟨2000000000, .plain, .get (bytes "k")⟩]).1) ↔
    Steps (callStep List.length) (fun s t => ¬ s.Reveals List.length t.now t.call)
      [⟨0, .plain, .set (bytes "k") (bytes "v") (some 1)⟩,
        ⟨2000000000, .plain, .get (bytes "k")⟩] .empty :=
  purges_invisible_iff List.length _ .empty (by unfold Clocked; decide)

/-- A string that has expired, deleted with and without a purge before: `del` answers true
when nobody has purged it. -/
theorem not_purges_invisible_of_del :
    ¬ ∀ (hash : Bytes → Nat) (acts : List Activity),
        Clocked (acts.map Activity.now) →
        List.Forall₂ CallResult.Same (Activity.run hash acts .empty).1
          (KeyValueStore.empty.runCalls hash (acts.filterMap Activity.call?)).1 := by
  intro hall
  have h := hall List.length
    [.client ⟨0, .plain, .set (bytes "k") (bytes "v") (some 1)⟩,
      .purge .plain 2000000000 100, .client ⟨2000000000, .plain, .del (bytes "k")⟩]
    (by unfold Clocked; decide)
  have hdel := (List.forall₂_cons.mp (List.forall₂_cons.mp h).2).1
  have hpurged : ((KeyValueStore.empty.set List.length 0 (bytes "k") (bytes "v") (some 1)
      |>.purgeExpiredKeys .plain 2000000000 100).2.del List.length (bytes "k")).1 = false := by
    decide
  have hkept : ((KeyValueStore.empty.set List.length 0 (bytes "k") (bytes "v")
      (some 1)).del List.length (bytes "k")).1 = true := by decide
  have hbool := CallResult.bool.inj hdel
  exact absurd (hpurged.symm.trans (hbool.trans hkept)) (by decide)

end KeyValueDb
