/-
# The slice of LRANGE

`lrange` normalises two signed bounds, clamps the one below and the other above, and copies
what lies between them.  `sliceChecked` runs the same steps with a value only where C++ gives
one: each result of `int64_t` arithmetic in range, each index in the list.  It always has a
value (`sliceChecked_eq`), and that is the elements whose indices lie between the bounds
(`lrange_selects`).
-/
import KeyValueDb.Resp
import KeyValueDb.Store.View
import Mathlib.Data.List.GetD

namespace KeyValueDb

open Lib RespParser

/-! ## 1. The elements between two bounds -/

/-- A bound from the end of the list if it is negative. -/
def fromEnd (len bound : Int) : Int := if 0 ≤ bound then bound else len + bound

/-- The elements whose indices lie between the bounds, in order. -/
def selected (list : List Bytes) (start stop : Int) : List Bytes :=
  let len : Int := list.length
  (list.zipIdx.filter fun p =>
    max 0 (fromEnd len start) ≤ p.2 ∧ (p.2 : Int) ≤ min (fromEnd len stop) (len - 1)).map Prod.fst

/-- The elements with an index in an interval are a part of the list. -/
theorem filter_zipIdx {α : Type} (lo hi : Nat) (xs : List α) (k : Nat) :
    ((xs.zipIdx k).filter fun p => lo ≤ p.2 ∧ p.2 < hi).map Prod.fst =
      (xs.take (hi - k)).drop (lo - k) := by
  induction xs generalizing k with
  | nil => simp
  | cons x xs ih =>
    rw [List.zipIdx_cons]
    by_cases hhi : k < hi
    · obtain ⟨n, hn⟩ : ∃ n, hi - k = n + 1 := ⟨hi - k - 1, by omega⟩
      have hn' : hi - (k + 1) = n := by omega
      by_cases hlo : lo ≤ k
      · rw [List.filter_cons_of_pos (by simp [hlo, hhi]), List.map_cons, ih, hn, hn',
          show lo - k = 0 by omega, show lo - (k + 1) = 0 by omega]
        rfl
      · obtain ⟨m, hm⟩ : ∃ m, lo - k = m + 1 := ⟨lo - k - 1, by omega⟩
        rw [List.filter_cons_of_neg (by simp [hlo]), ih, hn, hn', hm,
          show lo - (k + 1) = m by omega]
        rfl
    · rw [List.filter_cons_of_neg (by simp [hhi]), ih, show hi - k = 0 by omega,
        show hi - (k + 1) = 0 by omega, List.take_zero, List.take_zero, List.drop_nil,
        List.drop_nil]

theorem selected_eq (list : List Bytes) (start stop : Int) :
    selected list start stop =
      (list.take (min (fromEnd list.length stop) (list.length - 1) + 1).toNat).drop
        (max 0 (fromEnd list.length start)).toNat := by
  have hpart := filter_zipIdx (max 0 (fromEnd list.length start)).toNat
    (min (fromEnd list.length stop) (list.length - 1) + 1).toNat list 0
  rw [Nat.sub_zero, Nat.sub_zero] at hpart
  rw [← hpart, selected]
  congr 1
  refine List.filter_congr fun p _ => decide_eq_decide.mpr ?_
  omega

/-! ## 2. The steps of `lrange` -/

namespace StoreShard

/-- The result of `int64_t` arithmetic, if it is in range. -/
def int64? (x : Int) : Option Int := if IsInt64 x then some x else none

/-- The copying loop, `fuel` turns at most: `none` for an index outside the list, a counter out
of range, or more turns. -/
def copyLoop (list : List Bytes) (stop : Int) : Nat → Int → List Bytes → Option (List Bytes)
  | 0, _, _ => none
  | fuel + 1, i, res =>
    if stop < i then some res
    else do
      let item ← list[toSize i]?
      let next ← int64? (i + 1)
      copyLoop list stop fuel next (res ++ [item])

/-- The first bound, normalised. -/
def startChecked (len start : Int) : Option Int :=
  if start < 0 then (int64? (len + start)).map (max 0) else some start

/-- The second bound, normalised. -/
def stopChecked (len stop : Int) : Option Int := if stop < 0 then int64? (len + stop) else some stop

/-- `lrange` on the list it found, with every step checked. -/
def sliceChecked (list : List Bytes) (start stop : Int) : Option (List Bytes) :=
  if list = [] then some []
  else (int64? list.length).bind fun len =>
    (startChecked len start).bind fun start =>
      (stopChecked len stop).bind fun stop =>
        if len ≤ start ∨ stop < start then some []
        else (int64? (len - 1)).bind fun last =>
          (int64? (min stop last - start)).bind fun count =>
            (int64? (count + 1)).bind fun _reserved =>
              copyLoop list (min stop last) (list.length + 1) start []

theorem int64?_eq {x : Int} (hle : -2 ^ 63 ≤ x) (hlt : x < 2 ^ 63) : int64? x = some x :=
  if_pos ⟨hle, hlt⟩

theorem startChecked_eq {len start : Int} (hlen : 0 ≤ len ∧ len < 2 ^ 63) (h : IsInt64 start) :
    startChecked len start = some (max 0 (fromEnd len start)) := by
  unfold startChecked fromEnd
  obtain ⟨hle, -⟩ := h
  split
  · rw [int64?_eq (by omega) (by omega), Option.map_some, if_neg (by omega)]
  · rw [if_pos (by omega), max_eq_right (by omega)]

theorem stopChecked_eq {len stop : Int} (hlen : 0 ≤ len ∧ len < 2 ^ 63) (h : IsInt64 stop) :
    stopChecked len stop = some (fromEnd len stop) := by
  unfold stopChecked fromEnd
  obtain ⟨hle, -⟩ := h
  split
  · rw [int64?_eq (by omega) (by omega), if_neg (by omega)]
  · rw [if_pos (by omega)]

/-- **The loop** copies what lies between the counter and the upper bound. -/
theorem copyLoop_eq {list : List Bytes} (hlen : list.length < 2 ^ 63) {stop : Int}
    (hstop : stop < list.length) {fuel : Nat} :
    ∀ {i : Nat} (res : List Bytes), stop < i + fuel →
      copyLoop list stop (fuel + 1) i res = some (res ++ (list.take (stop + 1).toNat).drop i) := by
  induction fuel with
  | zero =>
    intro i res hfuel
    rw [copyLoop, if_pos (by omega), List.drop_eq_nil_of_le (by rw [List.length_take]; omega),
      List.append_nil]
  | succ fuel ih =>
    intro i res hfuel
    rw [copyLoop]
    split
    · rw [List.drop_eq_nil_of_le (by rw [List.length_take]; omega), List.append_nil]
    · have hi : i < list.length := by omega
      have hsize : toSize (i : Int) = i := by unfold toSize; omega
      have hnext : int64? ((i : Int) + 1) = some ((i + 1 : Nat) : Int) :=
        int64?_eq (by omega) (by omega)
      have hrest := ih (i := i + 1) (res ++ [list[i]]) (by omega)
      have hhead : (list.take (stop + 1).toNat).drop i =
          list[i] :: (list.take (stop + 1).toNat).drop (i + 1) := by
        rw [List.drop_eq_getElem_cons (by rw [List.length_take]; omega), List.getElem_take]
      rw [hsize, List.getElem?_eq_getElem hi, hnext, hhead]
      simpa using hrest

/-- **Every step has a value**, and together they select the elements between the bounds. -/
theorem sliceChecked_eq {list : List Bytes} (hlen : list.length < 2 ^ 63) {start stop : Int}
    (hstart : IsInt64 start) (hstop : IsInt64 stop) :
    sliceChecked list start stop = some (selected list start stop) := by
  have hlen? : int64? list.length = some (list.length : Int) := int64?_eq (by omega) (by omega)
  rw [sliceChecked, selected_eq]
  split
  · rename_i hnil
    rw [hnil, List.take_nil, List.drop_nil]
  · rename_i hne
    have hpos := List.length_pos_iff.mpr hne
    rw [hlen?, Option.bind_some, startChecked_eq (by omega) hstart, Option.bind_some,
      stopChecked_eq (by omega) hstop, Option.bind_some]
    obtain ⟨a, ha⟩ : ∃ a : Nat, max 0 (fromEnd list.length start) = a :=
      ⟨_, (Int.toNat_of_nonneg (by omega)).symm⟩
    obtain ⟨b, hb⟩ : ∃ b, fromEnd list.length stop = b := ⟨_, rfl⟩
    rw [ha, hb, Int.toNat_natCast]
    split
    · rename_i hempty
      rw [List.drop_eq_nil_of_le (by rw [List.length_take]; omega)]
    · rename_i hsome
      have hlast : int64? ((list.length : Int) - 1) = some ((list.length : Int) - 1) :=
        int64?_eq (by omega) (by omega)
      have hcount : int64? (min b ((list.length : Int) - 1) - a) =
          some (min b ((list.length : Int) - 1) - a) := int64?_eq (by omega) (by omega)
      have hreserve : int64? (min b ((list.length : Int) - 1) - a + 1) =
          some (min b ((list.length : Int) - 1) - a + 1) := int64?_eq (by omega) (by omega)
      rw [hlast, Option.bind_some, hcount, Option.bind_some, hreserve, Option.bind_some,
        copyLoop_eq hlen (by omega) [] (by omega), List.nil_append]

theorem elements_eq {list : List Bytes} {stop : Int} (hstop : stop < list.length) (start : Nat) :
    elements list start stop = (list.take (stop + 1).toNat).drop start := by
  apply List.ext_getElem
  · simp only [elements, List.length_map, List.length_range, List.length_drop, List.length_take]
    omega
  · intro i hi _
    simp only [elements, List.length_map, List.length_range] at hi
    simp only [elements, List.getElem_map, List.getElem_range, List.getElem_drop,
      List.getElem_take, Int.toNat_natCast]
    exact List.getD_eq_getElem _ _ (by omega)

/-- The unchecked steps select the same. -/
theorem slice_eq (list : List Bytes) (start stop : Int) :
    slice list start stop = selected list start stop := by
  have hstart : (if start < 0 then max 0 (list.length + start) else start) =
      max 0 (fromEnd list.length start) := by
    unfold fromEnd
    omega
  have hstop : (if stop < 0 then list.length + stop else stop) = fromEnd list.length stop := by
    unfold fromEnd
    omega
  rw [slice, selected_eq]
  split
  · rename_i hnil
    rw [hnil, List.take_nil, List.drop_nil]
  · rename_i hne
    have hpos := List.length_pos_iff.mpr hne
    dsimp only
    rw [hstart, hstop]
    obtain ⟨a, ha⟩ : ∃ a : Nat, max 0 (fromEnd list.length start) = a :=
      ⟨_, (Int.toNat_of_nonneg (by omega)).symm⟩
    rw [ha, Int.toNat_natCast]
    split
    · rename_i hempty
      rw [List.drop_eq_nil_of_le (by rw [List.length_take]; omega)]
    · rename_i hsome
      exact elements_eq (by omega) a

end StoreShard

/-- **`lrange` is the slice it claims**, for all bounds: the elements whose indices lie between
them, and no step on the way leaves the range or the list. -/
theorem lrange_selects (hash : Bytes → Nat) (key : Bytes) (s : KeyValueStore) (start stop : Int)
    (hlen : ((s.view hash).elemsOf key).length < 2 ^ 62) (hstart : IsInt64 start)
    (hstop : IsInt64 stop) :
    s.lrange hash key start stop = selected ((s.view hash).elemsOf key) start stop ∧
      StoreShard.sliceChecked ((s.view hash).elemsOf key) start stop =
        some (s.lrange hash key start stop) := by
  have hselects : s.lrange hash key start stop =
      selected ((s.view hash).elemsOf key) start stop :=
    StoreShard.slice_eq _ start stop
  refine ⟨hselects, ?_⟩
  rw [hselects]
  exact StoreShard.sliceChecked_eq (by omega) hstart hstop

/-- From the smallest bound to the last but one. -/
theorem lrange_selects_lowest :
    let s := (KeyValueStore.empty.rpush List.length (bytes "k") (bytes "a")).2
    let s := (s.rpush List.length (bytes "k") (bytes "b")).2
    let s := (s.rpush List.length (bytes "k") (bytes "c")).2
    s.lrange List.length (bytes "k") (-2 ^ 63) (-2) = [bytes "a", bytes "b"] := by
  intro s₁ s₂ s
  exact (lrange_selects List.length (bytes "k") s (-2 ^ 63) (-2) (by decide) (by decide)
    (by decide)).1.trans (by decide)

end KeyValueDb
