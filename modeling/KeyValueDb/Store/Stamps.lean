/-
# The times of the last access do not show

Two stores that hold the same but for the times of the last access answer every call alike and
stay two such stores (`SameButStamps.result`, `SameButStamps.call`).  Where no string has a
deadline, they do so whatever the clock shows at either.

A store that is rebuilt from the log is such a counterpart of the live one, since its values were
written at other times; and so is a store whose `get` has not stamped its entry yet.
-/
import KeyValueDb.Store.Contents
import KeyValueDb.Store.Keys

namespace KeyValueDb

open Lib Function

/-- The call gives no string a deadline. -/
def Call.timeless : Call → Bool
  | .set _ _ ttlSeconds => ttlSeconds.isNone
  | .expire _ _ => false
  | _ => true

namespace FlatStore

/-! ## 1. Two stores -/

/-- No string on either side, or the same with the same deadline, one of `D`. -/
inductive SameEntry (D : Set (Option Time)) : Option StoreEntry → Option StoreEntry → Prop
  | absent : SameEntry D none none
  | present (value : Bytes) {d : Option Time} (hd : d ∈ D) (accessed accessed' : Time) :
    SameEntry D (some ⟨value, d, accessed⟩) (some ⟨value, d, accessed'⟩)

/-- The same but for the times of the last access; the deadlines are in `D`. -/
structure SameButStamps (D : Set (Option Time)) (F G : FlatStore) : Prop where
  strings : ∀ key, SameEntry D (F.strings key) (G.strings key)
  hashes : G.hashes = F.hashes
  lists : G.lists = F.lists

/-- ...and no string has a deadline. -/
abbrev SameUndated : FlatStore → FlatStore → Prop := SameButStamps {none}

variable {D : Set (Option Time)} {F G H : FlatStore} {key field value : Bytes} {now now' : Time}

theorem sameButStamps_empty : SameButStamps D empty empty := ⟨fun _ => .absent, rfl, rfl⟩

/-- Entries expire together at two instants between which no deadline of theirs can lie. -/
theorem expired_same {d : Option Time} (hd : d ∈ D) (hnow : now' = now ∨ D ⊆ {none})
    (value : Bytes) (accessed accessed' : Time) :
    (⟨value, d, accessed'⟩ : StoreEntry).expired now' =
      (⟨value, d, accessed⟩ : StoreEntry).expired now := by
  rcases hnow with rfl | hnone
  · rfl
  · obtain rfl : d = none := hnone hd
    rfl

namespace SameButStamps

/-- What is under a key. -/
theorem string (h : SameButStamps D F G) (key : Bytes) :
    (F.strings key = none ∧ G.strings key = none) ∨
      ∃ value d accessed accessed', d ∈ D ∧ F.strings key = some ⟨value, d, accessed⟩ ∧
        G.strings key = some ⟨value, d, accessed'⟩ := by
  have hkey := h.strings key
  revert hkey
  cases hF : F.strings key <;> cases hG : G.strings key
  · exact fun _ => Or.inl ⟨rfl, rfl⟩
  · rintro ⟨⟩
  · rintro ⟨⟩
  · rintro ⟨⟩
    exact Or.inr ⟨_, _, _, _, ‹_›, rfl, rfl⟩

theorem symm (h : SameButStamps D F G) : SameButStamps D G F := by
  refine ⟨fun key => ?_, h.hashes.symm, h.lists.symm⟩
  rcases h.string key with ⟨hF, hG⟩ | ⟨value, d, accessed, accessed', hd, hF, hG⟩ <;> rw [hF, hG]
  · exact .absent
  · exact .present value hd accessed' accessed

theorem trans (h : SameButStamps D F G) (h' : SameButStamps D G H) : SameButStamps D F H := by
  refine ⟨fun key => ?_, h'.hashes.trans h.hashes, h'.lists.trans h.lists⟩
  have hkey' := h'.strings key
  rcases h.string key with ⟨hF, hG⟩ | ⟨value, d, accessed, accessed', hd, hF, hG⟩ <;>
    rw [hG] at hkey' <;> rw [hF]
  · exact hkey'
  · revert hkey'
    cases H.strings key
    · rintro ⟨⟩
    · rintro ⟨⟩
      exact .present value hd accessed _

theorem left (h : SameButStamps D F G) : SameButStamps D F F := h.trans h.symm

theorem right (h : SameButStamps D F G) : SameButStamps D G G := h.symm.trans h

theorem putString (h : SameButStamps D F G) {e e' : Option StoreEntry} (he : SameEntry D e e') :
    SameButStamps D (F.putString key e) (G.putString key e') := by
  refine ⟨fun k => ?_, h.hashes, h.lists⟩
  by_cases hk : k = key
  · subst hk
    simpa [FlatStore.putString] using he
  · simpa [FlatStore.putString, update_of_ne hk] using h.strings k

theorem putHash (h : SameButStamps D F G) (m : Option (Bytes → Option Bytes)) :
    SameButStamps D (F.putHash key m) (G.putHash key m) := by
  refine ⟨h.strings, ?_, h.lists⟩
  simp only [FlatStore.putHash, h.hashes]

theorem putListAt (h : SameButStamps D F G) (l : Option (List Bytes)) :
    SameButStamps D (F.putListAt key l) (G.putListAt key l) := by
  refine ⟨h.strings, h.hashes, ?_⟩
  simp only [FlatStore.putListAt, h.lists]

theorem fieldsOf (h : SameButStamps D F G) (key : Bytes) : G.fieldsOf key = F.fieldsOf key := by
  simp only [FlatStore.fieldsOf, h.hashes]

theorem elemsOf (h : SameButStamps D F G) (key : Bytes) : G.elemsOf key = F.elemsOf key := by
  simp only [FlatStore.elemsOf, h.lists]

/-- The values. -/
theorem values (h : SameButStamps D F G) : G.values = F.values := by
  apply Contents.ext_keys
  · intro key
    rcases h.string key with ⟨hF, hG⟩ | ⟨value, d, _, _, -, hF, hG⟩
    · simp [FlatStore.values, hF, hG]
    · simp [FlatStore.values, hF, hG]
  · exact congrFun h.hashes
  · exact congrFun h.lists

/-- Two undated stores with the same values. -/
theorem of_values (hF : SameUndated F F) (hG : SameUndated G G) (h : G.values = F.values) :
    SameUndated F G := by
  refine ⟨fun key => ?_, congrArg Contents.hashes h, congrArg Contents.lists h⟩
  have hkey : (G.strings key).map StoreEntry.value = (F.strings key).map StoreEntry.value :=
    congrFun (congrArg Contents.strings h) key
  rcases hF.string key with ⟨hFkey, -⟩ | ⟨value, _, accessed, -, rfl, hFkey, -⟩ <;>
    rcases hG.string key with ⟨hGkey, -⟩ | ⟨value', _, accessed', -, rfl, hGkey, -⟩ <;>
    rw [hFkey, hGkey] at hkey ⊢
  · exact .absent
  · exact absurd hkey (by simp)
  · exact absurd hkey (by simp)
  · obtain rfl : value' = value := by simpa using hkey
    exact .present value' (Set.mem_singleton none) accessed accessed'

/-! ## 2. Calls -/

/-- **What a call answers**, at the same instant or without deadlines; `get_snapshot` answers with
the store itself. -/
theorem result (h : SameButStamps D F G) {c : Call} (hc : c ≠ .getSnapshot)
    (hnow : now' = now ∨ D ⊆ {none}) : (G.call now' c).1 = (F.call now c).1 := by
  cases c with
  | get key =>
    rcases h.string key with ⟨hF, hG⟩ | ⟨value, d, a, a', hd, hF, hG⟩
    · simp only [FlatStore.call, get, hF, hG]
    · simp only [FlatStore.call, get, hF, hG, expired_same hd hnow value a a']
      split <;> rfl
  | del key =>
    have hsome : (G.strings key).isSome = (F.strings key).isSome := by
      rcases h.string key with ⟨hF, hG⟩ | ⟨value, d, a, a', -, hF, hG⟩ <;> rw [hF, hG]
      rfl
    have hholds : G.holds key ↔ F.holds key := by simp only [holds, hsome, h.hashes, h.lists]
    exact congrArg FlatResult.bool (decide_eq_decide.mpr hholds)
  | «exists» key =>
    have hfresh : G.fresh now' key ↔ F.fresh now key := by
      rcases h.string key with ⟨hF, hG⟩ | ⟨value, d, a, a', hd, hF, hG⟩
      · simp [fresh, hF, hG]
      · simp [fresh, hF, hG, expired_same hd hnow value a a']
    refine congrArg FlatResult.bool (decide_eq_decide.mpr ?_)
    rw [hfresh, h.hashes, h.lists]
  | expire key ttlSeconds =>
    rcases h.string key with ⟨hF, hG⟩ | ⟨value, d, a, a', hd, hF, hG⟩
    · simp only [FlatStore.call, expire, hF, hG]
    · simp only [FlatStore.call, expire, hF, hG, expired_same hd hnow value a a']
      split
      · rfl
      · split <;> rfl
  | ttl key =>
    rcases h.string key with ⟨hF, hG⟩ | ⟨value, d, a, a', hd, hF, hG⟩
    · simp only [FlatStore.call, ttl, hF, hG, h.hashes, h.lists]
    · simp only [FlatStore.call, ttl, hF, hG]
      cases d with
      | none => rfl
      | some d =>
        obtain rfl : now' = now := hnow.resolve_right fun hnone => absurd (hnone hd) (by simp)
        dsimp only
        split <;> rfl
  | size =>
    have hstrings : {k | ∃ e, G.strings k = some e ∧ (!e.expired now') = true} =
        {k | ∃ e, F.strings k = some e ∧ (!e.expired now) = true} := by
      ext k
      rcases h.string k with ⟨hF, hG⟩ | ⟨value, d, a, a', hd, hF, hG⟩
      · simp [hF, hG]
      · simp [hF, hG, expired_same hd hnow value a a']
    simp only [FlatStore.call, size, hstrings, h.hashes, h.lists]
  | incrBy key delta =>
    rcases h.string key with ⟨hF, hG⟩ | ⟨value, d, a, a', hd, hF, hG⟩
    · simp only [FlatStore.call, incrBy, hF, hG]
    · simp only [FlatStore.call, incrBy, hF, hG, expired_same hd hnow value a a']
      split
      · rfl
      · cases stoll value <;> rfl
  | hset key field value => simp only [FlatStore.call, hset, hget, h.hashes]
  | hdel key field =>
    simp only [FlatStore.call, hdel, h.hashes]
    split <;> rfl
  | hget | hexists => simp only [FlatStore.call, hget, h.hashes]
  | hlen | hgetall => simp only [FlatStore.call, hlen, h.fieldsOf]
  | lpush | rpush => simp only [FlatStore.call, lpush, rpush, h.elemsOf]
  | lpop | rpop =>
    simp only [FlatStore.call, lpop, rpop, h.elemsOf]
    split <;> rfl
  | llen | lrange => simp only [FlatStore.call, llen, lrange, h.elemsOf]
  | set | clear => rfl
  | getSnapshot => exact absurd rfl hc

/-- **What a call leaves**, if it gives both strings the same deadline or none. -/
theorem call (h : SameButStamps D F G) {c : Call}
    (hc : now' = now ∧ D = Set.univ ∨ D = {none} ∧ c.timeless = true) :
    SameButStamps D (F.call now c).2 (G.call now' c).2 := by
  have hnow : now' = now ∨ D ⊆ {none} := hc.imp And.left fun hD => hD.1.subset
  have hnone : none ∈ D := by
    rcases hc with ⟨-, rfl⟩ | ⟨rfl, -⟩
    · trivial
    · rfl
  cases c with
  | set key value ttlSeconds =>
    have hd : deadline now' ttlSeconds = deadline now ttlSeconds ∧ deadline now ttlSeconds ∈ D := by
      rcases hc with ⟨rfl, rfl⟩ | ⟨rfl, htimeless⟩
      · exact ⟨rfl, trivial⟩
      · obtain rfl := Option.isNone_iff_eq_none.mp htimeless
        exact ⟨rfl, rfl⟩
    simp only [FlatStore.call, FlatStore.set, hd.1]
    exact h.putString (.present value hd.2 now now')
  | get key =>
    rcases h.string key with ⟨hF, hG⟩ | ⟨value, d, a, a', hd, hF, hG⟩
    · simp only [FlatStore.call, get, hF, hG]
      exact h
    · simp only [FlatStore.call, get, hF, hG, expired_same hd hnow value a a']
      split
      · exact h.putString .absent
      · exact h.putString (.present value hd now now')
  | del key => exact ((h.putString .absent).putHash none).putListAt none
  | expire key ttlSeconds =>
    obtain ⟨rfl, rfl⟩ := hc.resolve_right fun hD => absurd hD.2 (by simp [Call.timeless])
    rcases h.string key with ⟨hF, hG⟩ | ⟨value, d, a, a', hd, hF, hG⟩
    · simp only [FlatStore.call, expire, hF, hG]
      exact h
    · simp only [FlatStore.call, expire, hF, hG, expired_same hd hnow value a a']
      split
      · exact h.putString .absent
      · split
        · exact h.putString (.present value (Set.mem_univ _) a a')
        · exact h.putString .absent
  | ttl key =>
    rcases h.string key with ⟨hF, hG⟩ | ⟨value, d, a, a', hd, hF, hG⟩
    · simp only [FlatStore.call, ttl, hF, hG]
      exact h
    · simp only [FlatStore.call, ttl, hF, hG]
      cases d with
      | none => exact h
      | some d =>
        obtain rfl : now' = now := hnow.resolve_right fun hnone => absurd (hnone hd) (by simp)
        dsimp only
        split
        · exact h.putString .absent
        · exact h
  | incrBy key delta =>
    rcases h.string key with ⟨hF, hG⟩ | ⟨value, d, a, a', hd, hF, hG⟩
    · simp only [FlatStore.call, incrBy, hF, hG]
      exact h.putString (.present _ hnone now now')
    · simp only [FlatStore.call, incrBy, hF, hG, expired_same hd hnow value a a']
      split
      · exact h.putString (.present _ hnone now now')
      · cases stoll value with
        | none => exact h
        | some v => exact h.putString (.present _ hd now now')
  | hset key field value =>
    simp only [FlatStore.call, hset, h.fieldsOf]
    exact h.putHash _
  | hdel key field =>
    simp only [FlatStore.call, hdel, h.hashes]
    split
    · exact h
    · exact h.putHash _
  | lpush key value =>
    simp only [FlatStore.call, lpush, h.elemsOf]
    exact h.putListAt _
  | rpush key value =>
    simp only [FlatStore.call, rpush, h.elemsOf]
    exact h.putListAt _
  | lpop key =>
    simp only [FlatStore.call, lpop, h.elemsOf]
    split
    · exact h
    · exact h.putListAt _
  | rpop key =>
    simp only [FlatStore.call, rpop, h.elemsOf]
    split
    · exact h
    · exact h.putListAt _
  | clear => exact sameButStamps_empty
  | «exists» | size | hget | hexists | hlen | hgetall | llen | lrange | getSnapshot => exact h

end SameButStamps

end FlatStore

open FlatStore

/-! ## 3. Two sharded stores without deadlines -/

namespace FlatStore.SameUndated

variable {hash : Bytes → Nat} {s s' : KeyValueStore}

theorem makeCalls (h : SameUndated (s.view hash) (s'.view hash)) {calls : List Call}
    (hcalls : ∀ c ∈ calls, c.timeless = true) (order order' : IterOrder) (now now' : Time) :
    SameUndated ((s.makeCalls hash order now calls).2.view hash)
      ((s'.makeCalls hash order' now' calls).2.view hash) := by
  induction calls generalizing s s' with
  | nil => exact h
  | cons c cs ih =>
    refine ih ?_ fun d hd => hcalls d (List.mem_cons_of_mem c hd)
    rw [s.view_call, s'.view_call]
    exact h.call (Or.inr ⟨rfl, hcalls c List.mem_cons_self⟩)

/-- One call on two stores. -/
theorem call_same (h : WellPlaced hash s) (h' : WellPlaced hash s')
    (hsame : SameUndated (s.view hash) (s'.view hash)) {c : Call} (hshows : c.shows = false)
    (order order' : IterOrder) (now now' : Time) :
    (s'.call hash order' now' c).1 = (s.call hash order now c).1 := by
  have hagrees := (h.call_refines order now c).1
  have hagrees' := (h'.call_refines order' now' c).1
  have hsnapshot : c ≠ .getSnapshot := by
    rintro rfl
    cases hshows
  have hresult :
      (FlatStore.call now' c (s'.view hash)).1 = (FlatStore.call now c (s.view hash)).1 :=
    hsame.result hsnapshot (Or.inr subset_rfl)
  rw [hresult] at hagrees'
  obtain ⟨x, hx⟩ := Option.isSome_iff_exists.mp (result?_isSome hshows (s.view hash) now)
  exact (hagrees'.eq hx).trans (hagrees.eq hx).symm

/-- **Calls one after the other**, none but the last of which gives a string a deadline. -/
theorem results (h : WellPlaced hash s) (h' : WellPlaced hash s')
    (hsame : SameUndated (s.view hash) (s'.view hash)) {calls : List Call}
    (hshows : ∀ c ∈ calls, c.shows = false) (hcalls : ∀ c ∈ calls.dropLast, c.timeless = true)
    (order order' : IterOrder) (now now' : Time) :
    (s'.makeCalls hash order' now' calls).1 = (s.makeCalls hash order now calls).1 := by
  induction calls generalizing s s' with
  | nil => rfl
  | cons c cs ih =>
    have hhead := call_same h h' hsame (hshows c List.mem_cons_self) order order' now now'
    cases cs with
    | nil => exact congrArg (fun r => [r]) hhead
    | cons d ds =>
      rw [List.dropLast_cons_cons] at hcalls
      have hviews : SameUndated ((s.call hash order now c).2.view hash)
          ((s'.call hash order' now' c).2.view hash) := by
        rw [s.view_call, s'.view_call]
        exact hsame.call (Or.inr ⟨rfl, hcalls c List.mem_cons_self⟩)
      have htail := ih (h.call order now c) (h'.call order' now' c) hviews
        (fun e he => hshows e (List.mem_cons_of_mem c he))
        fun e he => hcalls e (List.mem_cons_of_mem c he)
      exact congrArg₂ List.cons hhead htail

end FlatStore.SameUndated

end KeyValueDb
