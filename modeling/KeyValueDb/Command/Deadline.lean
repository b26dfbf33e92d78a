/-
# The deadline a command sets

`SET ... EX`, `SETEX` and `EXPIRE` take any lifetime that `stoll` reads.  The deadline is the
clock reading plus that many seconds, in 64-bit nanoseconds: past the end of the range it wraps
around into the past, and the value that was acknowledged is gone at once.
`keepsLifetime_iff` says that nothing else goes wrong with a lifetime above zero.

Zero and the numbers below it are a lifetime to `EXPIRE`, which erases the key, and none to
`set`, which makes it permanent: the three ways to give a lifetime agree on the others
(`lifetimesAgree_iff`).
-/
import KeyValueDb.Command.Effect
import KeyValueDb.Store.Lifetime

namespace KeyValueDb

open Lib Function

/-! ## 1. Commands with a lifetime -/

namespace Command

/-- The key and the lifetime of a command that sets one. -/
def lifetimeOf (tokens : List Bytes) : StoreVerb → Option (Bytes × Int)
  | .set =>
    match tokens with
    | _ :: key :: _ :: options => (lifetime options).join.map fun sec => (key, sec)
    | _ => none
  | .setex =>
    match tokens with
    | [_, key, seconds, _] => (stoll seconds).map fun sec => (key, sec)
    | _ => none
  | .expire =>
    match tokens with
    | [_, key, seconds] => (stoll seconds).map fun sec => (key, sec)
    | _ => none
  | _ => none

/-- The command is refused and nothing visible changes, or the deadline of the key is exactly
`sec` seconds from now: until then `get` and `exists` find the key, and no shorter lifetime has a
later deadline. -/
def KeepsLifetime (hash : Bytes → Nat) (order : IterOrder) (now : Time) (tokens : List Bytes)
    (s : KeyValueStore) (v : StoreVerb) (key : Bytes) (sec : Int) : Prop :=
  let r := run hash order now tokens s v
  r.record = none ∧ (r.store.view hash).visible now = (s.view hash).visible now ∨
    (∃ e, (r.store.view hash).strings key = some e ∧
      e.expiresAt = some (now + sec * 1000000000)) ∧
    (∀ t < now + sec * 1000000000,
      (r.store.get hash t key).1.isSome ∧ r.store.exists hash t key = true) ∧
    ∀ shorter, 0 < shorter → shorter ≤ sec → addSeconds now shorter ≤ addSeconds now sec

variable {hash : Bytes → Nat} {order : IterOrder} {now : Time} {tokens : List Bytes}
  {s : KeyValueStore} {v : StoreVerb} {key : Bytes} {sec : Int}

/-! ## 2. What they do -/

/-- The key is given the lifetime. -/
def Sets (hash : Bytes → Nat) (now : Time) (key : Bytes) (sec : Int) (r : Reply) : Prop :=
  r.record.isSome ∧
    ∃ e, (r.store.view hash).strings key = some e ∧ e.expiresAt = some (addSeconds now sec)

theorem sets_set {value : Bytes} {r : Reply} (hsec : 0 < sec) (hrecord : r.record.isSome)
    (hstore : r.store = s.set hash now key value (some sec)) : Sets hash now key sec r := by
  refine ⟨hrecord, ⟨value, some (addSeconds now sec), now⟩, ?_, rfl⟩
  rw [hstore, s.view_set, FlatStore.set, FlatStore.putString, deadline, if_pos hsec]
  exact update_self _ _ _

/-- **The command gives the key its lifetime**, unless it is `EXPIRE` and finds no string that is
alive. -/
theorem sets_or_refused (hash : Bytes → Nat) (order : IterOrder) (now : Time)
    (s : KeyValueStore) (hlife : lifetimeOf tokens v = some (key, sec)) (hsec : 0 < sec) :
    Sets hash now key sec (run hash order now tokens s v) ∧
        (v = .expire → (s.view hash).fresh now key) ∨
      v = .expire ∧ ¬ (s.view hash).fresh now key ∧
        (run hash order now tokens s v).record = none ∧
        ((run hash order now tokens s v).store.view hash).visible now =
          (s.view hash).visible now := by
  cases v <;> simp only [lifetimeOf, reduceCtorEq] at hlife
  case set =>
    split at hlife
    · rename_i w key' value options
      obtain ⟨sec', hsec', heq⟩ := Option.map_eq_some_iff.mp hlife
      obtain ⟨rfl, rfl⟩ := Prod.mk.inj heq
      have hopt : lifetime options = some (some sec') := Option.join_eq_some_iff.mp hsec'
      refine Or.inl ⟨?_, fun h => by cases h⟩
      simp only [run, set, hopt]
      exact sets_set hsec rfl rfl
    · cases hlife
  case setex =>
    split at hlife
    · rename_i w key' seconds value
      obtain ⟨sec', hsec', heq⟩ := Option.map_eq_some_iff.mp hlife
      obtain ⟨rfl, rfl⟩ := Prod.mk.inj heq
      refine Or.inl ⟨?_, fun h => by cases h⟩
      simp only [run, setex, hsec']
      exact sets_set hsec rfl rfl
    · cases hlife
  case expire =>
    split at hlife
    · rename_i w key' seconds
      obtain ⟨sec', hsec', heq⟩ := Option.map_eq_some_iff.mp hlife
      obtain ⟨rfl, rfl⟩ := Prod.mk.inj heq
      have hview : (s.expire hash now key' sec').2.view hash =
          ((s.view hash).expire now key' sec').2 :=
        (Prod.ext_iff.mp (s.view_expire hash now key' sec')).2
      simp only [run, expire, hsec']
      by_cases hfresh : (s.view hash).fresh now key'
      · have hok : (s.expire hash now key' sec').1 = true := KeyValueStore.expire_iff.mpr hfresh
        refine Or.inl ⟨⟨by rw [if_pos hok]; rfl, ?_⟩, fun _ => hfresh⟩
        obtain ⟨e, he, hx⟩ := hfresh
        refine ⟨{ e with expiresAt := some (addSeconds now sec') }, ?_, rfl⟩
        dsimp only
        rw [hview]
        simp [FlatStore.expire, he, hx, hsec, FlatStore.putString]
      · have hfalse : ((s.view hash).expire now key' sec').1 = false :=
          Bool.eq_false_iff.mpr (FlatStore.expire_fst_iff.not.mpr hfresh)
        have hnot : ¬ (s.expire hash now key' sec').1 = true :=
          KeyValueStore.expire_iff.not.mpr hfresh
        refine Or.inr ⟨trivial, hfresh, if_neg hnot, ?_⟩
        rw [hview]
        exact FlatStore.visible_expire_of_false hfalse
    · cases hlife

/-! ## 3. When the deadline is the one that was asked for -/

/-- A key is there until its deadline. -/
theorem found_before {e : StoreEntry} {d t : Time} (he : (s.view hash).strings key = some e)
    (hd : e.expiresAt = some d) (ht : t < d) :
    (s.get hash t key).1.isSome ∧ s.exists hash t key = true := by
  have hfresh : (s.view hash).fresh t key := by
    refine ⟨e, he, StoreEntry.not_expired_iff.mpr fun d' hd' => ?_⟩
    rw [hd, Option.some.injEq] at hd'
    rwa [← hd']
  exact ⟨KeyValueStore.get_isSome.mpr hfresh, exists_iff.mpr (Or.inl hfresh)⟩

theorem isInt64_deadline (hnow : IsInt64 now) (hsec : 0 < sec) :
    IsInt64 (now + sec * 1000000000) ↔ now + sec * 1000000000 < 2 ^ 63 := by
  obtain ⟨hle, -⟩ := hnow
  exact ⟨And.right, fun hlt => ⟨by omega, hlt⟩⟩

/-- **A lifetime is kept** exactly when its end is within the range of the clock, or `EXPIRE`
finds nothing to give it to. -/
theorem keepsLifetime_iff (hash : Bytes → Nat) (order : IterOrder) (now : Time)
    (hnow : IsInt64 now) (tokens : List Bytes) (s : KeyValueStore) (v : StoreVerb) (key : Bytes)
    (sec : Int) (hlife : lifetimeOf tokens v = some (key, sec)) (hsec : 0 < sec) :
    KeepsLifetime hash order now tokens s v key sec ↔
      now + sec * 1000000000 < 2 ^ 63 ∨ v = .expire ∧ ¬ (s.view hash).fresh now key := by
  have hfits : ∀ {n : Int}, 0 < n → (addSeconds now n = now + n * 1000000000 ↔
      now + n * 1000000000 < 2 ^ 63) := fun hn =>
    wrap64_eq_self_iff.trans (isInt64_deadline hnow hn)
  rcases sets_or_refused hash order now s hlife hsec with
    ⟨⟨hrecord, e, he, hd⟩, hfresh⟩ | ⟨hv, hnot, hrefused⟩
  · constructor
    · rintro (⟨hnone, -⟩ | ⟨⟨e', he', hd'⟩, -, -⟩)
      · rw [hnone] at hrecord
        cases hrecord
      · rw [he, Option.some.injEq] at he'
        rw [← he', hd, Option.some.injEq] at hd'
        exact Or.inl ((hfits hsec).mp hd')
    · rintro (hlt | ⟨hv, hnot⟩)
      · rw [(hfits hsec).mpr hlt] at hd
        refine Or.inr ⟨⟨e, he, hd⟩, fun t ht => found_before he hd ht, ?_⟩
        intro shorter hpos hle
        have hshorter : now + shorter * 1000000000 ≤ now + sec * 1000000000 :=
          Int.add_le_add_left (Int.mul_le_mul_of_nonneg_right hle (by decide)) now
        rwa [(hfits hsec).mpr hlt, (hfits hpos).mpr (hshorter.trans_lt hlt)]
      · exact absurd (hfresh hv) hnot
  · exact iff_of_true (Or.inl hrefused) (Or.inr ⟨hv, hnot⟩)

theorem keepsLifetime_iff_ten :
    KeepsLifetime (fun _ => 0) IterOrder.plain 0
      [bytes "SET", [107], [118], bytes "EX", bytes "10"] KeyValueStore.empty .set [107] 10 :=
  (keepsLifetime_iff (fun _ => 0) IterOrder.plain 0 (by decide) _ .empty .set [107] 10
    (by decide) (by decide)).mpr (Or.inl (by decide))

/-- **Ten thousand million seconds are over at once**: acknowledged, and absent at the instant
of the command. -/
theorem not_keepsLifetime_of_overflow :
    let hash : Bytes → Nat := fun _ => 0
    let tokens := [bytes "SET", [107], [118], bytes "EX", bytes "10000000000"]
    let r := run hash IterOrder.plain 0 tokens KeyValueStore.empty .set
    lifetimeOf tokens .set = some ([107], 10000000000) ∧ r.response = ok ∧
      (r.store.get hash 0 [107]).1 = none ∧
      ¬ KeepsLifetime hash IterOrder.plain 0 tokens KeyValueStore.empty .set [107]
        10000000000 := by
  intro hash tokens r
  have hgone : (r.store.get hash 0 [107]).1 = none := by decide
  refine ⟨by decide, by decide, hgone, ?_⟩
  rintro (⟨hnone, -⟩ | ⟨-, hfound, -⟩)
  · exact absurd hnone (by decide)
  · have hsome := (hfound 0 (by decide)).1
    rw [show run hash IterOrder.plain 0 tokens .empty .set = r from rfl, hgone] at hsome
    cases hsome

/-! ## 4. Three ways to give a lifetime -/

/-- What a reader finds under a key: value and deadline of its string, unless that has expired. -/
def seen (hash : Bytes → Nat) (now : Time) (key : Bytes) (s : KeyValueStore) :
    Option (Bytes × Option Time) :=
  ((s.view hash).visible now).strings key

/-- `SETEX`, `SET ... EX` and `SET` followed by `EXPIRE` leave the same under the key, nothing if
the lifetime is not above zero, or the first two refuse and leave the store alone. -/
def LifetimesAgree (hash : Bytes → Nat) (order : IterOrder) (now : Time) (s : KeyValueStore)
    (ex key value seconds : Bytes) (sec : Int) : Prop :=
  let setex := run hash order now [bytes "SETEX", key, seconds, value] s .setex
  let setEx := run hash order now [bytes "SET", key, value, ex, seconds] s .set
  let set := run hash order now [bytes "SET", key, value] s .set
  let expire := run hash order now [bytes "EXPIRE", key, seconds] set.store .expire
  (IsError setex.response ∧ IsError setEx.response ∧ setex.store = s ∧ setEx.store = s) ∨
    seen hash now key setex.store = seen hash now key expire.store ∧
      seen hash now key setEx.store = seen hash now key expire.store ∧
      (sec ≤ 0 → seen hash now key expire.store = none)

/-- The string of a key that was just set, with its deadline. -/
def seenUntil (now : Time) (value : Bytes) (d : Option Time) : Option (Bytes × Option Time) :=
  ((some ⟨value, d, now⟩ : Option StoreEntry).filter fun e => !e.expired now).map
    fun e => (e.value, e.expiresAt)

theorem seen_set (hash : Bytes → Nat) (now : Time) (s : KeyValueStore) (key value : Bytes)
    (ttl : Option Int) :
    seen hash now key (s.set hash now key value ttl) = seenUntil now value (deadline now ttl) := by
  rw [seen, s.view_set, FlatStore.visible, FlatStore.set, FlatStore.putString]
  dsimp only
  rw [update_self, seenUntil]

/-- `EXPIRE` on a key that was just set. -/
theorem seen_expire (hash : Bytes → Nat) (now : Time) (s : KeyValueStore) (key value : Bytes)
    (sec : Int) :
    seen hash now key ((s.set hash now key value none).expire hash now key sec).2 =
      if 0 < sec then seenUntil now value (some (addSeconds now sec)) else none := by
  have hview : ((s.set hash now key value none).expire hash now key sec).2.view hash =
      (((s.view hash).set now key value none).expire now key sec).2 := by
    rw [← s.view_set]
    exact (Prod.ext_iff.mp ((s.set hash now key value none).view_expire hash now key sec)).2
  have hset : ((s.view hash).set now key value none).strings key = some ⟨value, none, now⟩ :=
    update_self _ _ _
  rw [seen, hview, FlatStore.expire, hset, FlatStore.visible]
  have hfresh : (⟨value, none, now⟩ : StoreEntry).expired now = false := rfl
  dsimp only
  rw [hfresh, if_neg Bool.false_ne_true]
  split
  · dsimp only [FlatStore.putString]
    rw [update_self, seenUntil]
  · dsimp only [FlatStore.putString]
    rw [update_self, Option.filter_none, Option.map_none]

/-- **The three ways agree** exactly on the lifetimes above zero. -/
theorem lifetimesAgree_iff (hash : Bytes → Nat) (order : IterOrder) (now : Time)
    (s : KeyValueStore) (ex key value seconds : Bytes) (sec : Int)
    (hex : toUpper ex = bytes "EX") (hsec : stoll seconds = some sec) :
    LifetimesAgree hash order now s ex key value seconds sec ↔ 0 < sec := by
  have hsetex : seen hash now key
      (run hash order now [bytes "SETEX", key, seconds, value] s .setex).store =
      seenUntil now value (deadline now (some sec)) := by
    simp only [run, setex, hsec]
    exact seen_set hash now s key value (some sec)
  have hsetEx : seen hash now key
      (run hash order now [bytes "SET", key, value, ex, seconds] s .set).store =
      seenUntil now value (deadline now (some sec)) := by
    simp only [run, set, lifetime, if_pos hex, hsec, Option.map_some]
    exact seen_set hash now s key value (some sec)
  have hexpire : seen hash now key
      (run hash order now [bytes "EXPIRE", key, seconds]
        (run hash order now [bytes "SET", key, value] s .set).store .expire).store =
      if 0 < sec then seenUntil now value (some (addSeconds now sec)) else none := by
    simp only [run, expire, set, lifetime, hsec]
    exact seen_expire hash now s key value sec
  have hok : ¬ IsError
      (run hash order now [bytes "SETEX", key, seconds, value] s .setex).response := by
    simp only [run, setex, hsec]
    exact not_isError_ok
  unfold LifetimesAgree
  dsimp only
  rw [hsetex, hsetEx, hexpire]
  by_cases hpos : 0 < sec
  · rw [deadline, if_pos hpos, if_pos hpos]
    exact iff_of_true (Or.inr ⟨rfl, rfl, fun hle => absurd hpos (not_lt.mpr hle)⟩) hpos
  · rw [deadline, if_neg hpos, if_neg hpos]
    refine iff_of_false ?_ hpos
    rintro (⟨herror, -⟩ | ⟨hagree, -⟩)
    · exact hok herror
    · cases hagree

theorem lifetimesAgree_iff_ten :
    LifetimesAgree List.length .plain 5 .empty (bytes "ex") (bytes "k") (bytes "v")
      (bytes "10") 10 :=
  (lifetimesAgree_iff List.length .plain 5 .empty (bytes "ex") (bytes "k") (bytes "v")
    (bytes "10") 10 (by decide) (by decide)).mpr (by decide)

/-- **A lifetime of zero** is acknowledged by `SETEX` and `SET ... EX` and makes a key that never
expires; `EXPIRE` removes the key. -/
theorem not_lifetimesAgree_of_zero :
    let setex := run List.length .plain 5 [bytes "SETEX", bytes "k", bytes "0", bytes "v"]
      .empty .setex
    let set := run List.length .plain 5 [bytes "SET", bytes "k", bytes "v"] .empty .set
    let expire := run List.length .plain 5 [bytes "EXPIRE", bytes "k", bytes "0"] set.store .expire
    setex.response = ok ∧ seen List.length 5 (bytes "k") setex.store = some (bytes "v", none) ∧
      seen List.length 5 (bytes "k") expire.store = none ∧
      ¬ LifetimesAgree List.length .plain 5 .empty (bytes "EX") (bytes "k") (bytes "v")
        (bytes "0") 0 := by
  intro setex set expire
  have hsetex : seen List.length 5 (bytes "k") setex.store = some (bytes "v", none) := by decide
  have hexpire : seen List.length 5 (bytes "k") expire.store = none := by decide
  refine ⟨by decide, hsetex, hexpire, ?_⟩
  rintro (⟨herror, -⟩ | ⟨hagree, -⟩)
  · exact not_isError_ok herror
  · exact absurd (hsetex.symm.trans (hagree.trans hexpire)) (by simp)

end Command

end KeyValueDb
