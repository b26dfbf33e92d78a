/-
# What a map costs

A finite map is charged for each of its bindings.  Changing one binding changes the cost by that
binding alone (`cost_update`), and however the map is listed, the list costs what the map costs
(`cost_eq_sum`).

This is the potential of an argument about logs: if no record adds more to the cost of what
it leaves than the record itself costs, then no log is cheaper than what it builds.
-/
import Mathlib.Algebra.BigOperators.Finprod
import KeyValueDb.Lib.Placement

namespace KeyValueDb.Lib

open Function

variable {κ β γ : Type}

/-- A map with finitely many keys. -/
def FiniteMap (m : κ → Option β) : Prop := {k | m k ≠ none}.Finite

theorem finiteMap_empty : FiniteMap fun _ : κ => (none : Option β) := by
  simp [FiniteMap]

theorem FiniteMap.update [DecidableEq κ] {m : κ → Option β} (h : FiniteMap m) (k : κ)
    (o : Option β) : FiniteMap (update m k o) := by
  refine (h.insert k).subset fun k' hk' => ?_
  by_cases hk : k' = k
  · exact Or.inl hk
  · exact Or.inr (by simpa [update_of_ne hk] using hk')

/-- What the bindings of a map cost together. -/
noncomputable def cost (w : κ → β → Nat) (m : κ → Option β) : Nat :=
  finsum fun k => (m k).elim 0 (w k)

theorem cost_empty (w : κ → β → Nat) : cost w (fun _ => none) = 0 := finsum_zero

/-- The cost, over any finite set of keys that has them all. -/
theorem cost_eq_sum_finset (w : κ → β → Nat) {m : κ → Option β} {s : Finset κ}
    (hs : ∀ k, m k ≠ none → k ∈ s) : cost w m = ∑ k ∈ s, (m k).elim 0 (w k) := by
  refine finsum_eq_finsetSum_of_support_subset _ fun k hk => ?_
  refine hs k fun hnone => hk ?_
  simp only [hnone, Option.elim_none]

/-- **Changing one binding.** -/
theorem cost_update [DecidableEq κ] (w : κ → β → Nat) {m : κ → Option β} (h : FiniteMap m)
    (k : κ) (o : Option β) :
    cost w (update m k o) + (m k).elim 0 (w k) = cost w m + o.elim 0 (w k) := by
  set s := insert k h.toFinset with hs
  have hm : ∀ k', m k' ≠ none → k' ∈ s := fun k' hk' =>
    Finset.mem_insert_of_mem (h.mem_toFinset.mpr hk')
  have hupdate : ∀ k', update m k o k' ≠ none → k' ∈ s := by
    intro k' hk'
    by_cases hk : k' = k
    · rw [hk]
      exact Finset.mem_insert_self k _
    · exact hm k' (by rwa [update_of_ne hk] at hk')
  have hcharge : (fun k' => (update m k o k').elim 0 (w k')) =
      update (fun k' => (m k').elim 0 (w k')) k (o.elim 0 (w k)) := by
    funext k'
    by_cases hk : k' = k
    · subst hk
      rw [update_self, update_self]
    · rw [update_of_ne hk, update_of_ne hk]
  have hmem : k ∈ s := Finset.mem_insert_self k _
  rw [cost_eq_sum_finset w hupdate, cost_eq_sum_finset w hm, hcharge,
    Finset.sum_update_of_mem hmem, Finset.sum_eq_add_sum_sdiff_singleton_of_mem hmem]
  omega

/-- Charging for the image of what is bound. -/
theorem cost_map (w : κ → γ → Nat) (g : β → γ) (m : κ → Option β) :
    cost w (fun k => (m k).map g) = cost (fun k b => w k (g b)) m := by
  refine finsum_congr fun k => ?_
  dsimp only
  cases m k <;> rfl

/-- **A list costs what its map costs**, when each key is listed once, for what it is charged. -/
theorem cost_eq_sum [DecidableEq κ] {w : κ → β → Nat} {m : κ → Option β} {l : List (κ × γ)}
    {u : κ × γ → Nat} (hnodup : (l.map Prod.fst).Nodup)
    (hall : ∀ k b, m k = some b → k ∈ l.map Prod.fst)
    (hcharge : ∀ p ∈ l, ∃ b, m p.1 = some b ∧ w p.1 b = u p) : cost w m = (l.map u).sum := by
  have hkeys : ∀ k, m k ≠ none → k ∈ (l.map Prod.fst).toFinset := by
    intro k hk
    obtain ⟨b, hb⟩ := Option.ne_none_iff_exists'.mp hk
    exact List.mem_toFinset.mpr (hall k b hb)
  have hsum : ((l.map Prod.fst).map fun k => (m k).elim 0 (w k)) = l.map u := by
    rw [List.map_map]
    refine List.map_congr_left fun p hp => ?_
    obtain ⟨b, hb, hw⟩ := hcharge p hp
    simp only [comp_apply, hb, Option.elim_some, hw]
  rw [cost_eq_sum_finset w hkeys, List.sum_toFinset _ hnodup, hsum]

theorem Lists.cost_eq [DecidableEq κ] {m : κ → Option β} {l : List (κ × β)} (h : Lists l m)
    (w : κ → β → Nat) : cost w m = (l.map fun p => w p.1 p.2).sum :=
  cost_eq_sum h.1 (fun k b hb => List.mem_map.mpr ⟨_, (h.2 k b).mpr hb, rfl⟩)
    fun p hp => ⟨p.2, (h.2 p.1 p.2).mp hp, rfl⟩

/-- Charging for lists made one after the other. -/
theorem sum_map_flatMap (f : κ → List β) (c : β → Nat) (l : List κ) :
    ((l.flatMap f).map c).sum = (l.map fun k => ((f k).map c).sum).sum := by
  induction l with
  | nil => rfl
  | cons k l ih =>
    rw [List.flatMap_cons, List.map_append, List.sum_append, ih, List.map_cons, List.sum_cons]

end KeyValueDb.Lib
