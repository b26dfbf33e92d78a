/-
# Two stores that agree on some keys

Two sharded stores with different hash functions, met in different iteration orders: as far as
they hold the same under the keys of a set, a call on one of these keys answers the same on
both, and any call leaves them agreeing on the set (`call_same`, `SameOn.call`).  With all keys
in the set this is the independence of the hash function, with a single key it is the
independence of the other keys.

Only `hgetall` and `get_snapshot` show an order; a hash is answered with the same pairs.
-/
import KeyValueDb.Store.Refine

namespace KeyValueDb

open Lib Function

/-! ## 1. The reference store -/

namespace FlatStore

variable {F G : FlatStore} {k key : Bytes} {now : Time}

theorem SameAt.symm (h : SameAt k F G) : SameAt k G F := ⟨h.1.symm, h.2.symm, h.3.symm⟩

theorem SameAt.trans {H : FlatStore} (h : SameAt k F G) (h' : SameAt k G H) : SameAt k F H :=
  ⟨h.1.trans h'.1, h.2.trans h'.2, h.3.trans h'.3⟩

theorem SameAt.putString (h : SameAt k F G) (e : Option StoreEntry) :
    SameAt k (F.putString key e) (G.putString key e) := by
  refine ⟨?_, h.2, h.3⟩
  by_cases hk : k = key
  · subst hk; simp [FlatStore.putString]
  · simp [FlatStore.putString, update_of_ne hk, h.strings]

theorem SameAt.putHash (h : SameAt k F G) (m : Option (Bytes → Option Bytes)) :
    SameAt k (F.putHash key m) (G.putHash key m) := by
  refine ⟨h.1, ?_, h.3⟩
  by_cases hk : k = key
  · subst hk; simp [FlatStore.putHash]
  · simp [FlatStore.putHash, update_of_ne hk, h.hashes]

theorem SameAt.putListAt (h : SameAt k F G) (l : Option (List Bytes)) :
    SameAt k (F.putListAt key l) (G.putListAt key l) := by
  refine ⟨h.1, h.2, ?_⟩
  by_cases hk : k = key
  · subst hk; simp [FlatStore.putListAt]
  · simp [FlatStore.putListAt, update_of_ne hk, h.lists]

/-- On the key of the call: the same operation on the same value. -/
theorem SameAt.call_self {c : Call} (h : SameAt k F G) (hc : c.key? = some k) :
    SameAt k (F.call now c).2 (G.call now c).2 := by
  obtain ⟨hs, hh, hl⟩ := id h
  cases c <;> simp only [Call.key?, Option.some.injEq, reduceCtorEq] at hc <;> subst hc
  case set v t => exact h.putString _
  case get =>
    simp only [call, get, hs]
    split
    · exact h
    · split <;> exact h.putString _
  case del => exact ((h.putString none).putHash none).putListAt none
  case expire t =>
    simp only [call, expire, hs]
    split
    · exact h
    · split
      · exact h.putString _
      · split <;> exact h.putString _
  case ttl =>
    simp only [call, ttl, hs]
    split
    · exact h
    · split
      · exact h
      · split
        · exact h.putString _
        · exact h
  case incrBy d =>
    simp only [call, incrBy, hs]
    split
    · exact h.putString _
    · split
      · exact h.putString _
      · split
        · exact h
        · exact h.putString _
  case hset f v =>
    simp only [call, hset, fieldsOf, hh]
    exact h.putHash _
  case hdel f =>
    simp only [call, hdel, hh]
    split
    · exact h
    · exact h.putHash _
  case lpush v =>
    simp only [call, lpush, elemsOf, hl]
    exact h.putListAt _
  case rpush v =>
    simp only [call, rpush, elemsOf, hl]
    exact h.putListAt _
  case lpop =>
    simp only [call, lpop, elemsOf, hl]
    split
    · exact h
    · exact h.putListAt _
  case rpop =>
    simp only [call, rpop, elemsOf, hl]
    split
    · exact h
    · exact h.putListAt _
  all_goals exact h

/-- **A call keeps what two stores agree on.** -/
theorem SameAt.call (h : SameAt k F G) (c : Call) :
    SameAt k (F.call now c).2 (G.call now c).2 := by
  rcases call_sameAt_or c k F with hF | hkey | rfl
  · rcases call_sameAt_or c k G with hG | hkey | rfl
    · exact hF.trans (h.trans hG.symm)
    · exact h.call_self hkey
    · exact SameAt.refl k _
  · exact h.call_self hkey
  · exact SameAt.refl k _

/-- The two stores hold the same under each of these keys. -/
def SameOn (K : Set Bytes) (F G : FlatStore) : Prop := ∀ k ∈ K, SameAt k F G

theorem SameOn.refl (K : Set Bytes) (F : FlatStore) : SameOn K F F := fun k _ => SameAt.refl k F

theorem SameOn.call {K : Set Bytes} (h : SameOn K F G) (c : Call) :
    SameOn K (F.call now c).2 (G.call now c).2 :=
  fun k hk => (h k hk).call c

theorem SameOn.eq (h : SameOn Set.univ F G) : F = G :=
  ext_keys (fun k => (h k trivial).strings) (fun k => (h k trivial).hashes)
    fun k => (h k trivial).lists

end FlatStore

open FlatStore

/-! ## 2. Results -/

/-- The result of the sharded store, where it shows no order. -/
def FlatResult.result? : FlatResult → Option CallResult
  | .unit => some .unit
  | .bool b => some (.bool b)
  | .int n => some (.int n)
  | .size n => some (.size n)
  | .value v => some (.value v)
  | .counter r => some (.counter r)
  | .elems xs => some (.elems xs)
  | .fields _ | .snapshot _ _ => none

theorem CallResult.Agrees.eq {r x : CallResult} {R : FlatResult} (h : r.Agrees R)
    (hR : R.result? = some x) : r = x := by
  cases R <;> cases r <;> simp_all [CallResult.Agrees, FlatResult.result?]

/-- The call is about one of the keys; `size` is about all of them, `clear` about none. -/
def Call.Within (K : Set Bytes) (c : Call) : Prop :=
  match c.key? with
  | some k => k ∈ K
  | none => c = .clear ∨ c = .size ∧ K = Set.univ

/-- What a call answers depends on what is under its key. -/
theorem Call.Within.result_eq {K : Set Bytes} {c : Call} (hc : c.Within K) {F G : FlatStore}
    (h : SameOn K F G) (now : Time) : (F.call now c).1 = (G.call now c).1 := by
  unfold Call.Within at hc
  split at hc
  · rename_i k hkey
    exact call_congr hkey (h k hc)
  · rcases hc with rfl | ⟨rfl, rfl⟩
    · rfl
    · rw [h.eq]

/-- The texts a call is given: keys, fields and values. -/
def Call.texts : Call → List Bytes
  | .set k v _ | .lpush k v | .rpush k v => [k, v]
  | .hset k f v => [k, f, v]
  | .hget k f | .hdel k f | .hexists k f => [k, f]
  | .get k | .del k | .exists k | .expire k _ | .ttl k | .incrBy k _ | .hlen k | .hgetall k
  | .lpop k | .rpop k | .llen k | .lrange k _ _ => [k]
  | .size | .clear | .getSnapshot => []

/-- The call lists a hash or the whole store. -/
def Call.shows : Call → Bool
  | .hgetall _ | .getSnapshot => true
  | _ => false

theorem result?_isSome {c : Call} (hc : c.shows = false) (F : FlatStore) (now : Time) :
    ((F.call now c).1.result?).isSome := by
  cases c <;> first | rfl | cases hc

/-! ## 3. Two sharded stores -/

variable {hash hash' : Bytes → Nat} {s s' : KeyValueStore} {K : Set Bytes}

/-- **One call**, on two stores that hold the same under the keys it is about. -/
theorem call_same (h : WellPlaced hash s) (h' : WellPlaced hash' s')
    (hsame : SameOn K (s.view hash) (s'.view hash')) {c : Call} (hc : c.Within K)
    (hshows : c.shows = false) (order order' : IterOrder) (now : Time) :
    (s.call hash order now c).1 = (s'.call hash' order' now c).1 := by
  have hagrees := (h.call_refines order now c).1
  have hagrees' := (h'.call_refines order' now c).1
  rw [← hc.result_eq hsame] at hagrees'
  obtain ⟨x, hx⟩ := Option.isSome_iff_exists.mp (result?_isSome hshows (s.view hash) now)
  exact (hagrees.eq hx).trans (hagrees'.eq hx).symm

/-- The pairs of a hash, on two stores that hold the same hash. -/
theorem hgetall_perm {key : Bytes} (hsame : SameAt key (s.view hash) (s'.view hash'))
    (order order' : IterOrder) :
    (s.hgetall hash order key).Perm (s'.hgetall hash' order' key) := by
  have hfields : (s.view hash).fieldsOf key = (s'.view hash').fieldsOf key := by
    simp only [fieldsOf, hsame.hashes]
  have hlists' : Lists (s'.hgetall hash' order' key) ((s'.view hash').fieldsOf key) :=
    hgetall_lists s' order' key
  rw [← hfields] at hlists'
  exact (hgetall_lists s order key).perm hlists'

/-- Calls made one after the other at one instant. -/
def KeyValueStore.makeCalls (hash : Bytes → Nat) (order : IterOrder) (now : Time)
    (calls : List Call) (s : KeyValueStore) : List CallResult × KeyValueStore :=
  s.runCalls hash (calls.map (⟨now, order, ·⟩))

/-- **Calls one after the other** keep what the stores agree on. -/
theorem makeCalls_sameOn (hsame : SameOn K (s.view hash) (s'.view hash')) (calls : List Call)
    (order order' : IterOrder) (now : Time) :
    SameOn K ((s.makeCalls hash order now calls).2.view hash)
      ((s'.makeCalls hash' order' now calls).2.view hash') := by
  induction calls generalizing s s' with
  | nil => exact hsame
  | cons c cs ih =>
    apply ih
    rw [s.view_call, s'.view_call]
    exact hsame.call c

/-- ...and answer the same. -/
theorem makeCalls_same (h : WellPlaced hash s) (h' : WellPlaced hash' s')
    (hsame : SameOn K (s.view hash) (s'.view hash')) {calls : List Call}
    (hcalls : ∀ c ∈ calls, c.Within K ∧ c.shows = false) (order order' : IterOrder)
    (now : Time) :
    (s.makeCalls hash order now calls).1 = (s'.makeCalls hash' order' now calls).1 := by
  induction calls generalizing s s' with
  | nil => rfl
  | cons c cs ih =>
    obtain ⟨hc, hshows⟩ := hcalls c List.mem_cons_self
    have hhead := call_same h h' hsame hc hshows order order' now
    have hviews : SameOn K ((s.call hash order now c).2.view hash)
        ((s'.call hash' order' now c).2.view hash') := by
      rw [s.view_call, s'.view_call]
      exact hsame.call c
    have htail := ih (h.call order now c) (h'.call order' now c) hviews
      fun d hd => hcalls d (List.mem_cons_of_mem c hd)
    exact congrArg₂ List.cons hhead htail

end KeyValueDb
