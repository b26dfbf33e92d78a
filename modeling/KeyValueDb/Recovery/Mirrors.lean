/-
# Two stores with the same values

A store rebuilt from the log need not be the live store: it knows fewer deadlines.  `Mirrors`
is what can be hoped for, the same strings, hashes and lists, and the operations that the
loader performs keep it when the live store performs them too.  That only works while nothing
expires, on either side.
-/
import KeyValueDb.Aof.Replay

namespace KeyValueDb

open Lib Function

/-! ## 1. Values -/

namespace FlatStore

/-- No string has expired. -/
def Unexpired (now : Time) (F : FlatStore) : Prop :=
  ∀ key e, F.strings key = some e → e.expired now = false

/-- `G` holds the values of `F`, and none of its strings has expired. -/
structure Mirrors (now : Time) (F G : FlatStore) : Prop where
  values : G.values = F.values
  unexpired : G.Unexpired now

variable {now : Time} {F F' G : FlatStore} {key : Bytes}

theorem values_putString (key : Bytes) (e : Option StoreEntry) (F : FlatStore) :
    (F.putString key e).values =
      ⟨update F.values.strings key (e.map StoreEntry.value), F.hashes, F.lists⟩ := by
  apply Contents.ext_keys
  · intro k
    by_cases hk : k = key
    · subst hk; simp [values, putString]
    · simp [values, putString, update_of_ne hk]
  · intro k; rfl
  · intro k; rfl

/-- Values that look the same in the visible contents are the same, when nothing expired. -/
theorem values_of_visible (h : F'.visible now = F.visible now) (hF' : F'.Unexpired now)
    (hF : F.Unexpired now) : F'.values = F.values := by
  have hall : ∀ {H : FlatStore}, H.Unexpired now → ∀ k,
      H.values.strings k = ((H.visible now).strings k).map Prod.fst := by
    intro H hH k
    simp only [values, visible]
    cases he : H.strings k with
    | none => rfl
    | some e => simp [Option.filter, hH k e he]
  have hhashes : F'.hashes = F.hashes := congrArg Contents.hashes h
  have hlists : F'.lists = F.lists := congrArg Contents.lists h
  apply Contents.ext_keys
  · intro k
    rw [hall hF', hall hF, h]
  · exact congrFun hhashes
  · exact congrFun hlists

theorem Unexpired.putString (h : F.Unexpired now) {e : Option StoreEntry}
    (he : ∀ e', e = some e' → e'.expired now = false) : (F.putString key e).Unexpired now := by
  intro k e' hk
  by_cases hkey : k = key
  · subst hkey
    exact he e' (by simpa [FlatStore.putString] using hk)
  · exact h k e' (by simpa [FlatStore.putString, update_of_ne hkey] using hk)

theorem unexpired_empty (now : Time) : empty.Unexpired now := fun _ _ h => by simp [empty] at h

/-! ## 2. Operations on both stores -/

namespace Mirrors

theorem hashes (h : Mirrors now F G) : G.hashes = F.hashes := congrArg Contents.hashes h.values

theorem lists (h : Mirrors now F G) : G.lists = F.lists := congrArg Contents.lists h.values

theorem strings (h : Mirrors now F G) : G.values.strings = F.values.strings :=
  congrArg Contents.strings h.values

theorem string (h : Mirrors now F G) (key : Bytes) :
    (G.strings key).map StoreEntry.value = (F.strings key).map StoreEntry.value :=
  congrFun (congrArg Contents.strings h.values) key

/-- Only the values of the live store matter. -/
theorem of_values (h : Mirrors now F G) (hF' : F'.values = F.values) : Mirrors now F' G :=
  ⟨h.values.trans hF'.symm, h.unexpired⟩

theorem putString (h : Mirrors now F G) {e e' : Option StoreEntry}
    (hvalue : e'.map StoreEntry.value = e.map StoreEntry.value)
    (he' : ∀ e₀, e' = some e₀ → e₀.expired now = false) :
    Mirrors now (F.putString key e) (G.putString key e') where
  values := by
    rw [values_putString, values_putString, h.strings, hvalue, h.hashes, h.lists]
  unexpired := h.unexpired.putString he'

theorem putHash (h : Mirrors now F G) (m : Option (Bytes → Option Bytes)) :
    Mirrors now (F.putHash key m) (G.putHash key m) where
  values := by
    ext1
    · exact h.strings
    · exact congrArg (update · key m) h.hashes
    · exact h.lists
  unexpired := h.unexpired

theorem putListAt (h : Mirrors now F G) (l : Option (List Bytes)) :
    Mirrors now (F.putListAt key l) (G.putListAt key l) where
  values := by
    ext1
    · exact h.strings
    · exact h.hashes
    · exact congrArg (update · key l) h.lists
  unexpired := h.unexpired

theorem hset (h : Mirrors now F G) (key field value : Bytes) :
    Mirrors now (F.hset key field value).2 (G.hset key field value).2 := by
  have hfields : G.fieldsOf key = F.fieldsOf key := by simp only [fieldsOf, h.hashes]
  simp only [FlatStore.hset, hfields]
  exact h.putHash _

theorem hdel (h : Mirrors now F G) (key field : Bytes) :
    Mirrors now (F.hdel key field).2 (G.hdel key field).2 := by
  unfold FlatStore.hdel
  rw [h.hashes]
  cases F.hashes key with
  | none => exact h
  | some fields => exact h.putHash _

theorem elemsOf (h : Mirrors now F G) (key : Bytes) : G.elemsOf key = F.elemsOf key := by
  simp only [FlatStore.elemsOf, h.lists]

theorem lpush (h : Mirrors now F G) (key item : Bytes) :
    Mirrors now (F.lpush key item).2 (G.lpush key item).2 := by
  simp only [FlatStore.lpush, h.elemsOf]
  exact h.putListAt _

theorem rpush (h : Mirrors now F G) (key item : Bytes) :
    Mirrors now (F.rpush key item).2 (G.rpush key item).2 := by
  simp only [FlatStore.rpush, h.elemsOf]
  exact h.putListAt _

theorem erase (h : Mirrors now F G) (key : Bytes) : Mirrors now (F.erase key) (G.erase key) :=
  ((h.putString (e := none) rfl (fun _ h => absurd h (by simp))).putHash none).putListAt none

/-- Loops of operations that keep the values the same. -/
theorem foldl {α : Type} {op : FlatStore → α → FlatStore}
    (hop : ∀ {F G : FlatStore} (x : α), Mirrors now F G → Mirrors now (op F x) (op G x))
    (h : Mirrors now F G) (xs : List α) : Mirrors now (xs.foldl op F) (xs.foldl op G) := by
  induction xs generalizing F G with
  | nil => exact h
  | cons x xs ih => exact ih (hop x h)

/-- `EXPIRE` where the live store succeeded. -/
theorem expire (h : Mirrors now F G) {sec : Int} (hok : (F.expire now key sec).1 = true)
    (hF' : (F.expire now key sec).2.Unexpired now) :
    Mirrors now (F.expire now key sec).2 (G.expire now key sec).2 := by
  have hstring := h.string key
  unfold FlatStore.expire at hok hF' ⊢
  cases he : F.strings key with
  | none => rw [he] at hok; exact absurd hok (by simp)
  | some e =>
    rw [he] at hok hF' hstring
    obtain ⟨e', he', hvalue⟩ := Option.map_eq_some_iff.mp hstring
    have hx' : e'.expired now = false := h.unexpired key e' he'
    rw [he']
    dsimp only at hok hF' ⊢
    cases hx : e.expired now with
    | true => rw [hx] at hok; exact absurd hok (by simp)
    | false =>
      rw [hx] at hF'
      simp only [hx', Bool.false_eq_true, if_false] at hF' ⊢
      split
      · rename_i hpos
        rw [if_pos hpos] at hF'
        apply h.putString (by simp [hvalue])
        intro e₀ he₀
        obtain rfl := Option.some.inj he₀
        -- the deadline is the one the live entry got, and that one has not expired
        apply hF' key { e with expiresAt := some (addSeconds now sec) }
        simp [FlatStore.putString]
      · exact h.putString rfl fun _ h => absurd h (by simp)

end Mirrors

end FlatStore

end KeyValueDb
