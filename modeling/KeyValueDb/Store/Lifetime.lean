/-
# Lifetimes

Only a string can have a deadline: `StoreEntry` has the field, a hash and a list do not, and
`expire` looks into the string map only.  So `expire` succeeds exactly on a string that is
alive, and from the deadline on the string is gone, whatever is done in between that does not
write the key (`lapses_foldl`).  A key that has no hash and no list besides is gone with it
(`lifetime_of_string`).
-/
import KeyValueDb.Store.KeyCount
import KeyValueDb.Store.Purge

namespace KeyValueDb

open Lib Function

variable {hash : Bytes → Nat}

/-! ## 1. What a key shows -/

/-- At the instant `t` no method finds anything under the key. -/
structure KeyValueStore.GoneAt (hash : Bytes → Nat) (t : Time) (k : Bytes) (s : KeyValueStore) :
    Prop where
  «exists» : s.exists hash t k = false
  get : (s.get hash t k).1 = none
  hget : ∀ f, s.hget hash k f = none
  hlen : s.hlen hash k = 0
  llen : s.llen hash k = 0
  ttl : (s.ttl hash t k).1 = -2

/-- The operation gives the key a value or a lifetime. -/
def StoreOp.Writes (k : Bytes) : StoreOp → Prop
  | .call _ _ (.set key _ _) | .call _ _ (.incrBy key _) | .call _ _ (.expire key _)
  | .call _ _ (.hset key _ _) | .call _ _ (.lpush key _) | .call _ _ (.rpush key _) => key = k
  | _ => False

/-- `expire` succeeds exactly on a key that exists, and then, without a later write, the key is
gone from the end of its lifetime on. -/
def KeyValueStore.LifetimeOfKey (hash : Bytes → Nat) (t : Time) (k : Bytes) (sec : Int)
    (s : KeyValueStore) : Prop :=
  ((s.expire hash t k sec).1 = true ↔ s.exists hash t k = true) ∧
    ((s.expire hash t k sec).1 = true → ∀ ops : List StoreOp, (∀ op ∈ ops, ¬ op.Writes k) →
      ∀ later, t + sec * 1000000000 ≤ later →
        (ops.foldl (StoreOp.perform hash) (s.expire hash t k sec).2).GoneAt hash later k)

/-! ## 2. A string on its way out -/

namespace FlatStore

variable {F : FlatStore} {k : Bytes} {d : Time}

/-- The string of the key, if there is one, has this deadline. -/
def Lapses (d : Time) (k : Bytes) (F : FlatStore) : Prop :=
  ∀ e, F.strings k = some e → e.expiresAt = some d

/-- The key has no hash and no list. -/
def Bare (k : Bytes) (F : FlatStore) : Prop := F.hashes k = none ∧ F.lists k = none

theorem lapses_putString {o : Option StoreEntry}
    (ho : ∀ e, o = some e → e.expiresAt = some d) : (F.putString k o).Lapses d k := by
  intro e he
  simp only [FlatStore.putString, update_self] at he
  exact ho e he

theorem SameAt.lapses {G : FlatStore} (h : SameAt k G F) (hF : F.Lapses d k) : G.Lapses d k :=
  fun e he => hF e (h.strings ▸ he)

theorem SameAt.bare {G : FlatStore} (h : SameAt k G F) (hF : F.Bare k) : G.Bare k :=
  ⟨h.hashes.trans hF.1, h.lists.trans hF.2⟩

/-- **A call that does not write the key** leaves its string the deadline, or takes it away. -/
theorem Lapses.call {now : Time} {c : Call} {order : IterOrder} (h : F.Lapses d k)
    (hc : ¬ (StoreOp.call order now c).Writes k) : (F.call now c).2.Lapses d k := by
  rcases call_sameAt_or c k F with hsame | hkey | rfl
  · exact hsame.lapses h
  · cases c <;> simp only [Call.key?, Option.some.injEq, reduceCtorEq] at hkey
    case get key =>
      subst hkey
      simp only [FlatStore.call, get]
      split
      · exact h
      · rename_i e he
        split
        · exact lapses_putString (by simp)
        · refine lapses_putString ?_
          rintro - ⟨rfl⟩
          exact h e he
    case del key =>
      subst hkey
      intro e he
      simp [FlatStore.call, del, erase] at he
    case ttl key =>
      subst hkey
      simp only [FlatStore.call, ttl]
      split
      · exact h
      · split
        · exact h
        · split
          · exact lapses_putString (by simp)
          · exact h
    case hdel key f =>
      simp only [FlatStore.call, hdel]
      split <;> exact h
    case lpop key =>
      simp only [FlatStore.call, lpop]
      split <;> exact h
    case rpop key =>
      simp only [FlatStore.call, rpop]
      split <;> exact h
    case set | expire | incrBy | hset | lpush | rpush => exact absurd hkey hc
    all_goals exact h
  · exact fun e he => by simp [FlatStore.call, empty] at he

theorem Bare.call {now : Time} {c : Call} {order : IterOrder} (h : F.Bare k)
    (hc : ¬ (StoreOp.call order now c).Writes k) : (F.call now c).2.Bare k := by
  rcases call_sameAt_or c k F with hsame | hkey | rfl
  · exact hsame.bare h
  · cases c <;> simp only [Call.key?, Option.some.injEq, reduceCtorEq] at hkey
    case get key =>
      simp only [FlatStore.call, get]
      split
      · exact h
      · split <;> exact h
    case del key =>
      subst hkey
      exact ⟨update_self _ _ _, update_self _ _ _⟩
    case ttl key =>
      simp only [FlatStore.call, ttl]
      split
      · exact h
      · split
        · exact h
        · split <;> exact h
    case hdel key f =>
      subst hkey
      simp only [FlatStore.call, hdel, h.1]
      exact h
    case lpop key =>
      subst hkey
      simp only [FlatStore.call, lpop, elemsOf, h.2, Option.getD_none, List.head?_nil]
      exact h
    case rpop key =>
      subst hkey
      simp only [FlatStore.call, rpop, elemsOf, h.2, Option.getD_none, List.getLast?_nil]
      exact h
    case set | expire | incrBy | hset | lpush | rpush => exact absurd hkey hc
    all_goals exact h
  · exact ⟨rfl, rfl⟩

/-- `expire` succeeds on a string that is alive. -/
theorem expire_fst_iff {t : Time} {sec : Int} :
    (F.expire t k sec).1 = true ↔ F.fresh t k := by
  unfold expire fresh
  cases he : F.strings k with
  | none => simp
  | some e =>
    cases hx : e.expired t with
    | true => simp [hx]
    | false =>
      simp only [Bool.false_eq_true, if_false, Option.some.injEq, exists_eq_left', hx, iff_true]
      split <;> rfl

/-- After an `expire` that succeeded the string has its new deadline. -/
theorem lapses_expire {t : Time} {sec : Int} (hsec : 0 < sec)
    (h : (F.expire t k sec).1 = true) :
    (F.expire t k sec).2.Lapses (addSeconds t sec) k := by
  obtain ⟨e, he, hx⟩ := expire_fst_iff.mp h
  have hcall : (F.expire t k sec).2 =
      F.putString k (some { e with expiresAt := some (addSeconds t sec) }) := by
    simp only [expire, he, hx, Bool.false_eq_true, if_false, if_pos hsec]
  rw [hcall]
  refine lapses_putString ?_
  rintro - ⟨rfl⟩
  rfl

/-- `expire` touches strings only. -/
theorem expire_others (t : Time) (sec : Int) :
    (F.expire t k sec).2.hashes = F.hashes ∧ (F.expire t k sec).2.lists = F.lists := by
  unfold expire
  split
  · exact ⟨rfl, rfl⟩
  · split
    · exact ⟨rfl, rfl⟩
    · split <;> exact ⟨rfl, rfl⟩

theorem Lapses.not_fresh {t : Time} (h : F.Lapses d k) (hd : d ≤ t) : ¬ F.fresh t k := by
  rintro ⟨e, he, hx⟩
  rw [StoreEntry.expired_iff.mpr ⟨d, h e he, hd⟩] at hx
  exact absurd hx (by decide)

/-- `get` finds a string that is alive. -/
theorem get_isSome_iff {t : Time} : (F.get t k).1.isSome ↔ F.fresh t k := by
  unfold get fresh
  cases F.strings k with
  | none => simp
  | some e => cases hx : e.expired t <;> simp [hx]

end FlatStore

/-! ## 3. The store -/

namespace KeyValueStore

variable {s : KeyValueStore} {k : Bytes} {t d : Time} {sec : Int}

theorem expire_iff : (s.expire hash t k sec).1 = true ↔ (s.view hash).fresh t k := by
  rw [(Prod.ext_iff.mp (s.view_expire hash t k sec)).1]
  exact FlatStore.expire_fst_iff

theorem get_isSome : (s.get hash t k).1.isSome ↔ (s.view hash).fresh t k := by
  rw [(Prod.ext_iff.mp (s.view_get hash t k)).1]
  exact FlatStore.get_isSome_iff

/-- A purge or an eviction leaves what is left as it was. -/
theorem strings_of_maintained {s' : KeyValueStore}
    (h : ∀ i k e, (s'.shards i).stringMap.lookup k = some e →
      (s.shards i).stringMap.lookup k = some e) (hd : (s.view hash).Lapses d k) :
    (s'.view hash).Lapses d k :=
  fun e he => hd e (h _ k e he)

theorem bare_of_losesStrings {s' : KeyValueStore} (h : LosesStrings s s')
    (hb : (s.view hash).Bare k) : (s'.view hash).Bare k := by
  unfold FlatStore.Bare at hb ⊢
  simp only [view_hashes, view_lists, getShard, h.hashes, h.lists]
  exact hb

theorem lapses_perform {op : StoreOp} (hop : ¬ op.Writes k) (h : (s.view hash).Lapses d k) :
    ((op.perform hash s).view hash).Lapses d k := by
  cases op with
  | call order now c =>
    rw [StoreOp.perform, view_call]
    exact h.call hop
  | purge order now n =>
    refine strings_of_maintained (fun i k e he => ?_) h
    rcases ((Purged.purge order now n s) i).strings k with heq | ⟨hnone, -⟩
    · rw [← heq]
      exact he
    · rw [StoreOp.perform, hnone] at he
      cases he
  | evict order sorter n =>
    exact strings_of_maintained
      (fun i k e he => lookup_foldl_evictOne (0, s) he) h

theorem bare_perform {op : StoreOp} (hop : ¬ op.Writes k) (h : (s.view hash).Bare k) :
    ((op.perform hash s).view hash).Bare k := by
  cases op with
  | call order now c =>
    rw [StoreOp.perform, view_call]
    exact h.call hop
  | purge order now n => exact bare_of_losesStrings (losesStrings_purge order now n s) h
  | evict order sorter n => exact bare_of_losesStrings (losesStrings_evict order sorter n s) h

/-- **A run that does not write the key** leaves its string the deadline. -/
theorem lapses_foldl {ops : List StoreOp} (hops : ∀ op ∈ ops, ¬ op.Writes k)
    (h : (s.view hash).Lapses d k) :
    ((ops.foldl (StoreOp.perform hash) s).view hash).Lapses d k :=
  (always_of_steps (I := fun s => (s.view hash).Lapses d k)
    (fun _ _ h hop => lapses_perform hop h) h (steps_of_forall hops s)).last

theorem bare_foldl {ops : List StoreOp} (hops : ∀ op ∈ ops, ¬ op.Writes k)
    (h : (s.view hash).Bare k) : ((ops.foldl (StoreOp.perform hash) s).view hash).Bare k :=
  (always_of_steps (I := fun s => (s.view hash).Bare k)
    (fun _ _ h hop => bare_perform hop h) h (steps_of_forall hops s)).last

/-- **Past its deadline** a bare key shows nothing. -/
theorem goneAt_of_lapses (hd : d ≤ t) (h : (s.view hash).Lapses d k)
    (hb : (s.view hash).Bare k) : s.GoneAt hash t k := by
  obtain ⟨hh, hl⟩ := hb
  have hfresh := h.not_fresh hd
  refine ⟨?_, ?_, fun f => ?_, ?_, ?_, ?_⟩
  · rw [Bool.eq_false_iff, ne_eq, exists_iff, hh, hl]
    simpa using hfresh
  · rw [← Option.not_isSome_iff_eq_none, get_isSome]
    exact hfresh
  · rw [hget_eq, FlatStore.hget, hh]
    rfl
  · rw [hlen_eq, FlatStore.hlen, FlatStore.fieldsOf, hh]
    simp
  · rw [llen_eq, FlatStore.llen, FlatStore.elemsOf, hl]
    rfl
  · rw [(Prod.ext_iff.mp (s.view_ttl hash t k)).1]
    unfold FlatStore.ttl
    cases he : (s.view hash).strings k with
    | none => simp [hh, hl]
    | some e => simp [h e he, hd]

/-- **A lifetime belongs to the string of a key.**  `expire` succeeds exactly on a string that
`get` finds, and from the end of the lifetime on, without a later write, `get` does not find
it.  The whole key goes with it exactly when it has no hash and no list. -/
theorem lifetime_of_string (hash : Bytes → Nat) (s : KeyValueStore) (k : Bytes) (t : Time)
    (sec : Int) (hsec : 0 < sec) (hfits : IsInt64 (t + sec * 1000000000)) :
    ((s.expire hash t k sec).1 = true ↔ (s.get hash t k).1.isSome) ∧
    ((s.expire hash t k sec).1 = true → ∀ ops : List StoreOp, (∀ op ∈ ops, ¬ op.Writes k) →
      ∀ later, t + sec * 1000000000 ≤ later →
        ((ops.foldl (StoreOp.perform hash) (s.expire hash t k sec).2).get hash later k).1 =
          none) ∧
    (s.LifetimeOfKey hash t k sec ↔ (s.view hash).Bare k) := by
  have hview : (s.expire hash t k sec).2.view hash = ((s.view hash).expire t k sec).2 :=
    (Prod.ext_iff.mp (s.view_expire hash t k sec)).2
  have hdeadline : addSeconds t sec = t + sec * 1000000000 := wrap64_eq_self_iff.mpr hfits
  have hlapses : (s.expire hash t k sec).1 = true →
      ((s.expire hash t k sec).2.view hash).Lapses (t + sec * 1000000000) k := by
    intro hok
    rw [hview, ← hdeadline]
    exact FlatStore.lapses_expire hsec (FlatStore.expire_fst_iff.mpr (expire_iff.mp hok))
  refine ⟨expire_iff.trans get_isSome.symm, ?_, ?_⟩
  · intro hok ops hops later hlater
    rw [← Option.not_isSome_iff_eq_none, get_isSome]
    exact (lapses_foldl hops (hlapses hok)).not_fresh hlater
  · have hsame := FlatStore.expire_others (F := s.view hash) (k := k) t sec
    constructor
    · rintro ⟨hiff, hgone⟩
      by_contra hb
      have hother : ((s.view hash).hashes k).isSome ∨ ((s.view hash).lists k).isSome := by
        by_contra hnone
        rw [not_or, Option.not_isSome_iff_eq_none, Option.not_isSome_iff_eq_none] at hnone
        exact hb hnone
      have hok := hiff.mpr (exists_iff.mpr (Or.inr hother))
      have hlater := (hgone hok [] (by simp) _ le_rfl).exists
      rw [List.foldl_nil, Bool.eq_false_iff, ne_eq, exists_iff, hview, hsame.1, hsame.2] at hlater
      exact hlater (Or.inr hother)
    · intro hb
      refine ⟨?_, ?_⟩
      · rw [expire_iff, exists_iff, hb.1, hb.2]
        simp
      · intro hok ops hops later hlater
        refine goneAt_of_lapses hlater (lapses_foldl hops (hlapses hok)) (bare_foldl hops ?_)
        rw [hview]
        exact ⟨hsame.1 ▸ hb.1, hsame.2 ▸ hb.2⟩

theorem lifetime_of_string_one :
    ((empty.set (fun _ => 0) 0 [107] [118] none).expire (fun _ => 0) 0 [107] 10).1 = true ∧
      (empty.set (fun _ => 0) 0 [107] [118] none).LifetimeOfKey (fun _ => 0) 0 [107] 10 := by
  have h := lifetime_of_string (fun _ => 0) (empty.set (fun _ => 0) 0 [107] [118] none) [107] 0 10
    (by decide) (by decide)
  exact ⟨h.1.mpr (by decide), h.2.2.mpr ⟨rfl, rfl⟩⟩

/-- **A hash has no lifetime**: the key exists, and `expire` says that it does not. -/
theorem not_lifetimeOfKey_of_hash :
    let hash : Bytes → Nat := fun _ => 0
    let s := (empty.call hash IterOrder.plain 0 (.hset [104] [102] [118])).2
    Reachable hash s ∧ s.exists hash 0 [104] = true ∧ (s.expire hash 0 [104] 10).1 = false ∧
      ¬ s.LifetimeOfKey hash 0 [104] 10 := by
  intro hash s
  have hexists : s.exists hash 0 [104] = true := by decide
  have hexpire : (s.expire hash 0 [104] 10).1 = false := by decide
  refine ⟨Reachable.empty.call IterOrder.plain 0 _, hexists, hexpire, fun h => ?_⟩
  rw [h.1.mpr hexists] at hexpire
  exact absurd hexpire (by decide)

end KeyValueStore

end KeyValueDb
