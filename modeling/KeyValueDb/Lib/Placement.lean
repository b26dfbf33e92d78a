/-
# One map spread over buckets

A map is split over `n` buckets by a placement function, each bucket a map of its own.  As
long as every key sits in the bucket its placement selects (`Placed`), the buckets together
are one map: looking a key up in its bucket is looking it up in the whole (`lookupAt`), the
entries of all the buckets list every key once (`flatKeys_nodup`, `mem_flatEntries`), and
counting bucket by bucket counts the keys of the whole (`ncard_lookupAt`).  Changing one bucket
changes a count by what that bucket gains or loses (`sum_update`).
-/
import Mathlib.Algebra.BigOperators.Fin
import Mathlib.Data.List.AList
import Mathlib.Data.List.FinRange
import Mathlib.Data.Set.Card
import Mathlib.Order.CompletePartialOrder

namespace KeyValueDb.Lib

variable {n : Nat} {κ β : Type}

/-! ## 1. Placement -/

/-- Every key is in the bucket that its placement selects. -/
def Placed (place : κ → Fin n) (m : Fin n → AList fun _ : κ => β) : Prop :=
  ∀ i k, k ∈ m i → place k = i

theorem placed_empty (place : κ → Fin n) : Placed place fun _ => (∅ : AList fun _ : κ => β) :=
  fun _ k hk => absurd hk (AList.notMem_empty k)

/-- Changing one bucket keeps the placement, as long as it gains no key but its own. -/
theorem Placed.update {place : κ → Fin n} {m : Fin n → AList fun _ : κ => β}
    (h : Placed place m) (k : κ) {b : AList fun _ : κ => β}
    (hb : ∀ k' ∈ b, k' = k ∨ k' ∈ m (place k)) :
    Placed place (Function.update m (place k) b) := by
  intro i k' hk'
  by_cases hi : i = place k
  · subst hi
    rw [Function.update_self] at hk'
    rcases hb k' hk' with rfl | hm
    · rfl
    · exact h _ k' hm
  · rw [Function.update_of_ne hi] at hk'
    exact h i k' hk'

/-- Buckets that only lose keys stay placed. -/
theorem Placed.mono {place : κ → Fin n} {m m' : Fin n → AList fun _ : κ => β}
    (h : Placed place m) (hsub : ∀ i, ∀ k ∈ m' i, k ∈ m i) : Placed place m' :=
  fun i k hk => h i k (hsub i k hk)

/-! ## 2. The entries of all buckets, in any order within each -/

variable {place : κ → Fin n} {m : Fin n → AList fun _ : κ => β}
variable {es : Fin n → List (Sigma fun _ : κ => β)}

/-- **No key is listed twice.** -/
theorem flatKeys_nodup (h : Placed place m) (hes : ∀ i, (es i).Perm (m i).entries) :
    (((List.finRange n).flatMap es).map Sigma.fst).Nodup := by
  rw [List.map_flatMap, List.nodup_flatMap]
  constructor
  · intro i _
    exact ((hes i).map Sigma.fst).nodup_iff.mpr (m i).keys_nodup
  · refine (List.nodup_finRange n).imp ?_
    intro i j hij
    rw [Function.onFun, List.disjoint_left]
    intro k hi hj
    have hki : k ∈ m i := AList.mem_keys.mpr (((hes i).map Sigma.fst).mem_iff.mp hi)
    have hkj : k ∈ m j := AList.mem_keys.mpr (((hes j).map Sigma.fst).mem_iff.mp hj)
    exact hij ((h i k hki).symm.trans (h j k hkj))

variable [DecidableEq κ]

/-- The whole map: a key is looked up in its own bucket. -/
def lookupAt (place : κ → Fin n) (m : Fin n → AList fun _ : κ => β) (k : κ) : Option β :=
  (m (place k)).lookup k

/-- **The entries of the buckets are the entries of the whole.** -/
theorem mem_flatEntries (h : Placed place m) (hes : ∀ i, (es i).Perm (m i).entries)
    (k : κ) (b : β) :
    ⟨k, b⟩ ∈ (List.finRange n).flatMap es ↔ lookupAt place m k = some b := by
  rw [List.mem_flatMap]
  constructor
  · rintro ⟨i, -, hi⟩
    have hmem : (⟨k, b⟩ : Sigma fun _ : κ => β) ∈ (m i).entries := (hes i).mem_iff.mp hi
    have hk : k ∈ m i := AList.mem_keys.mpr (List.mem_map.mpr ⟨_, hmem, rfl⟩)
    have hpi := h i k hk
    subst hpi
    exact AList.mem_lookup_iff.mpr hmem
  · intro hl
    exact ⟨place k, List.mem_finRange _, (hes _).mem_iff.mpr (AList.mem_lookup_iff.mp hl)⟩

/-! ## 3. A map as a list -/

/-- The list holds the bindings of the map, each key once. -/
def Lists {γ δ : Type} (l : List (γ × δ)) (m : γ → Option δ) : Prop :=
  (l.map Prod.fst).Nodup ∧ ∀ k b, (k, b) ∈ l ↔ m k = some b

/-- The lists of one map are permutations of each other. -/
theorem Lists.perm {γ δ : Type} {l l' : List (γ × δ)}
    {m : γ → Option δ} (h : Lists l m) (h' : Lists l' m) : l.Perm l' := by
  refine (List.perm_ext_iff_of_nodup (.of_map _ h.1) (.of_map _ h'.1)).mpr ?_
  rintro ⟨k, b⟩
  rw [h.2, h'.2]

/-- The entries of an association list, in any order. -/
theorem lists_of_perm {a : AList fun _ : κ => β} {l : List (Sigma fun _ : κ => β)}
    (h : l.Perm a.entries) : Lists (l.map fun x => (x.1, x.2)) fun k => a.lookup k := by
  constructor
  · rw [List.map_map]
    exact (h.map Sigma.fst).nodup_iff.mpr a.keys_nodup
  · intro k b
    rw [List.mem_map]
    constructor
    · rintro ⟨x, hx, he⟩
      rw [Prod.mk.injEq] at he
      obtain ⟨rfl, rfl⟩ := he
      exact AList.mem_lookup_iff.mpr (h.mem_iff.mp hx)
    · intro hl
      exact ⟨⟨k, b⟩, h.mem_iff.mpr (AList.mem_lookup_iff.mp hl), rfl⟩

/-- The entries of all buckets that pass a test, read through `g`. -/
theorem lists_flatMap {γ : Type} (h : Placed place m) (hes : ∀ i, (es i).Perm (m i).entries)
    (p : β → Bool) (g : β → γ) :
    Lists ((List.finRange n).flatMap fun i =>
        ((es i).filter fun x => p x.2).map fun x => (x.1, g x.2))
      fun k => ((lookupAt place m k).filter p).map g := by
  have hL : ((List.finRange n).flatMap fun i =>
      ((es i).filter fun x => p x.2).map fun x => (x.1, g x.2)) =
      (((List.finRange n).flatMap es).filter fun x => p x.2).map fun x => (x.1, g x.2) := by
    rw [List.filter_flatMap, List.map_flatMap]
  rw [hL]
  constructor
  · rw [List.map_map]
    exact (List.filter_sublist.map Sigma.fst).nodup (flatKeys_nodup h hes)
  · intro k c
    rw [List.mem_map]
    constructor
    · rintro ⟨⟨k', b⟩, hm, he⟩
      rw [Prod.mk.injEq] at he
      obtain ⟨rfl, rfl⟩ := he
      obtain ⟨hm, hp⟩ := List.mem_filter.mp hm
      simp [(mem_flatEntries h hes k' b).mp hm, Option.filter, hp]
    · intro hc
      obtain ⟨b, hb, rfl⟩ := Option.map_eq_some_iff.mp hc
      obtain ⟨hb, hp⟩ := Option.filter_eq_some_iff.mp hb
      exact ⟨⟨k, b⟩, List.mem_filter.mpr ⟨(mem_flatEntries h hes k b).mpr hb, hp⟩, rfl⟩

/-- ...and without a test, all of them. -/
theorem lists_flatMap_all {γ : Type} (h : Placed place m)
    (hes : ∀ i, (es i).Perm (m i).entries) (g : β → γ) :
    Lists ((List.finRange n).flatMap fun i => (es i).map fun x => (x.1, g x.2))
      fun k => (lookupAt place m k).map g := by
  have hf : ∀ o : Option β, o.filter (fun _ => true) = o := by rintro (_ | _) <;> rfl
  simpa only [List.filter_true, hf] using lists_flatMap h hes (fun _ => true) g

/-- The empty list is a listing of nothing. -/
theorem Lists.of_nil {γ δ : Type} {m : γ → Option δ} (h : Lists [] m) (k : γ) : m k = none := by
  rw [Option.eq_none_iff_forall_ne_some]
  intro b hb
  exact absurd ((h.2 k b).mpr hb) List.not_mem_nil

/-- The first binding, and the others: a list of the map without its key. -/
theorem Lists.of_cons {γ δ : Type} [DecidableEq γ] {k : γ} {b : δ} {l : List (γ × δ)}
    {m : γ → Option δ} (h : Lists ((k, b) :: l) m) :
    m k = some b ∧ Lists l (Function.update m k none) := by
  obtain ⟨hnd, hm⟩ := h
  rw [List.map_cons, List.nodup_cons] at hnd
  refine ⟨(hm k b).mp List.mem_cons_self, hnd.2, ?_⟩
  intro k' b'
  by_cases hk : k' = k
  · subst hk
    rw [Function.update_self]
    constructor
    · intro hmem
      exact absurd (List.mem_map.mpr ⟨_, hmem, rfl⟩) hnd.1
    · intro hnone
      exact absurd hnone (by simp)
  · rw [Function.update_of_ne hk, ← hm k' b', List.mem_cons]
    simp [hk]

/-- Two maps without a common key, as one list. -/
theorem Lists.append {γ δ : Type} {l l' : List (γ × δ)} {m m' : γ → Option δ} (h : Lists l m)
    (h' : Lists l' m') (hdisjoint : ∀ k, m k = none ∨ m' k = none) :
    Lists (l ++ l') fun k => (m k).or (m' k) := by
  constructor
  · rw [List.map_append, List.nodup_append]
    refine ⟨h.1, h'.1, ?_⟩
    rintro k hk _ hk' rfl
    obtain ⟨⟨_, b⟩, hb, rfl⟩ := List.mem_map.mp hk
    obtain ⟨⟨_, b'⟩, hb', heq⟩ := List.mem_map.mp hk'
    dsimp only at heq
    subst heq
    rcases hdisjoint _ with hnone | hnone
    · exact absurd ((h.2 _ b).mp hb) (by rw [hnone]; simp)
    · exact absurd ((h'.2 _ b').mp hb') (by rw [hnone]; simp)
  · intro k b
    rw [List.mem_append, h.2, h'.2]
    rcases hdisjoint k with hnone | hnone
    · simp [hnone]
    · simp [hnone]

/-- The entries of one association list that pass a test, read through `g`. -/
theorem lists_filter {γ : Type} {a : AList fun _ : κ => β} {l : List (Sigma fun _ : κ => β)}
    (h : l.Perm a.entries) (p : β → Bool) (g : β → γ) :
    Lists ((l.filter fun x => p x.2).map fun x => (x.1, g x.2))
      fun k => ((a.lookup k).filter p).map g := by
  have hone : Placed (fun _ => (0 : Fin 1)) fun _ => a := fun i _ _ => Subsingleton.elim _ _
  have hall := lists_flatMap hone (fun _ => h) p g
  rw [show List.finRange 1 = [0] from rfl, List.flatMap_singleton] at hall
  exact hall

/-! ## 4. Counting -/

/-- A set listed without repetition has as many members as the list. -/
theorem ncard_eq_length {γ : Type} [DecidableEq γ] {s : Set γ} {l : List γ} (hl : l.Nodup)
    (h : ∀ x, x ∈ l ↔ x ∈ s) : s.ncard = l.length := by
  have hs : s = ↑l.toFinset := by
    ext x
    simp [h x]
  rw [hs, Set.ncard_coe_finset, List.toFinset_card_of_nodup hl]

/-- **Counting bucket by bucket counts the whole**: the keys whose entry passes the test. -/
theorem ncard_lookupAt (h : Placed place m) (p : β → Bool) :
    {k | ∃ b, lookupAt place m k = some b ∧ p b = true}.ncard =
      ((List.finRange n).map fun i => (m i).entries.countP fun x => p x.2).sum := by
  have hall := mem_flatEntries h fun i => List.Perm.refl (m i).entries
  have hnd := flatKeys_nodup h fun i => List.Perm.refl (m i).entries
  set L := (List.finRange n).flatMap fun i => (m i).entries with hL
  have hlen : ((L.filter fun x => p x.2).map Sigma.fst).length =
      ((List.finRange n).map fun i => (m i).entries.countP fun x => p x.2).sum := by
    rw [List.length_map, ← List.countP_eq_length_filter, hL, List.countP_flatMap]
    rfl
  rw [← hlen]
  refine ncard_eq_length ((List.filter_sublist.map Sigma.fst).nodup hnd) ?_
  intro k
  rw [List.mem_map]
  constructor
  · rintro ⟨⟨k', b⟩, hm, rfl⟩
    obtain ⟨hm, hp⟩ := List.mem_filter.mp hm
    exact ⟨b, (hall k' b).mp hm, hp⟩
  · rintro ⟨b, hb, hp⟩
    exact ⟨⟨k, b⟩, List.mem_filter.mpr ⟨(hall k b).mpr hb, hp⟩, rfl⟩

/-- The keys of the whole are finitely many. -/
theorem finite_lookupAt (h : Placed place m) (P : β → Prop) :
    {k | ∃ b, lookupAt place m k = some b ∧ P b}.Finite := by
  have hall := mem_flatEntries h fun i => List.Perm.refl (m i).entries
  refine Set.Finite.subset
    (((List.finRange n).flatMap fun i => (m i).entries).map Sigma.fst).finite_toSet ?_
  rintro k ⟨b, hb, -⟩
  exact List.mem_map.mpr ⟨⟨k, b⟩, (hall k b).mpr hb, rfl⟩

/-- Three finite sets counted together and one by one. -/
theorem ncard_union₃_eq_iff {γ : Type} {A B C : Set γ} (hA : A.Finite) (hB : B.Finite)
    (hC : C.Finite) :
    A.ncard + B.ncard + C.ncard = (A ∪ B ∪ C).ncard ↔ Disjoint A B ∧ Disjoint (A ∪ B) C := by
  have hAB := Set.ncard_union_add_ncard_inter A B hA hB
  have hABC := Set.ncard_union_add_ncard_inter (A ∪ B) C (hA.union hB) hC
  rw [Set.disjoint_iff_inter_eq_empty, Set.disjoint_iff_inter_eq_empty,
    ← Set.ncard_eq_zero (hA.inter_of_left B), ← Set.ncard_eq_zero (hC.inter_of_right (A ∪ B))]
  omega

/-- **A sum over the buckets after one of them changed.** -/
theorem sum_update (f : Fin n → Nat) (i : Fin n) (x : Nat) :
    ((List.finRange n).map (Function.update f i x)).sum + f i =
      ((List.finRange n).map f).sum + x := by
  rw [← Fin.sum_univ_def, ← Fin.sum_univ_def, Finset.sum_update_of_mem (Finset.mem_univ i),
    Finset.sum_eq_add_sum_sdiff_singleton_of_mem (Finset.mem_univ i) f]
  omega

/-- Erasing a key of an association list takes its binding out, if it has one, and nothing
else. -/
theorem entries_erase_cases (a : AList fun _ : κ => β) (k : κ) :
    (k ∉ a ∧ (a.erase k).entries = a.entries) ∨
      ∃ b l l', a.entries = l ++ ⟨k, b⟩ :: l' ∧ (a.erase k).entries = l ++ l' := by
  by_cases hk : k ∈ a
  · obtain ⟨b, l, l', -, hl, he⟩ := List.exists_of_kerase (AList.mem_keys.mp hk)
    exact Or.inr ⟨b, l, l', hl, he⟩
  · exact Or.inl ⟨hk, List.kerase_of_notMem_keys hk⟩

end KeyValueDb.Lib
