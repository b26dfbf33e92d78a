/-
# Whether purging makes progress

`purge_expired_keys` looks at the first `max_keys_per_shard` entries of each shard, in the
order in which the map lists them, and starts from the first one every time.  What has expired
is erased and the others move up, but an entry without a deadline stays where it is: behind
`max_keys_per_shard` of them no entry of the shard is ever looked at (`progresses_iff`).
-/
import KeyValueDb.Lib.Sweep
import KeyValueDb.Store.Contents
import KeyValueDb.Store.Purge

namespace KeyValueDb

open Lib Function

/-! ## 1. Purge after purge -/

/-- A string entry under its key. -/
abbrev Listed := Sigma fun _ : Bytes => StoreEntry

/-- The entry has expired. -/
def Listed.expired (now : Time) (x : Listed) : Bool := x.2.expired now

namespace KeyValueStore

/-- The first `n` purges, with the clock at `now` throughout and nothing in between. -/
def purges (now : Time) (maxKeysPerShard : Nat) (choice : Nat → IterOrder) (s : KeyValueStore) :
    Nat → KeyValueStore
  | 0 => s
  | n + 1 =>
    ((purges now maxKeysPerShard choice s n).purgeExpiredKeys (choice n) now maxKeysPerShard).2

/-- The entries of a shard in the order in which purge `n` walks them. -/
def listing (now : Time) (maxKeysPerShard : Nat) (choice : Nat → IterOrder) (s : KeyValueStore)
    (n : Nat) (i : Fin numShards) : List Listed :=
  (choice n).iter ((s.purges now maxKeysPerShard choice n).shards i).stringMap.entries

/-- A map keeps its iteration order except for what is erased. -/
def OrderKept (now : Time) (maxKeysPerShard : Nat) (choice : Nat → IterOrder)
    (s : KeyValueStore) : Prop :=
  ∀ n i, s.listing now maxKeysPerShard choice (n + 1) i =
    (s.listing now maxKeysPerShard choice n i).filter fun x =>
      x.1 ∈ ((s.purges now maxKeysPerShard choice (n + 1)).shards i).stringMap

/-- Some number of purges leaves no entry that has expired. -/
def Progresses (now : Time) (maxKeysPerShard : Nat) (choice : Nat → IterOrder)
    (s : KeyValueStore) : Prop :=
  ∃ n, ∀ i k e,
    ((s.purges now maxKeysPerShard choice n).shards i).stringMap.lookup k = some e →
      e.expired now = false

end KeyValueStore

/-! ## 2. One purge is one sweep -/

namespace StoreShard

variable {now : Time} {budget : Nat} {es : List Listed} {m : Map StoreEntry}

/-- The scan does not look beyond its budget. -/
theorem purgeScan_take (now : Time) (budget : Nat) (es : List Listed) (m : Map StoreEntry) :
    purgeScan now budget (es.take budget) m = purgeScan now budget es m := by
  induction budget generalizing es m with
  | zero => rfl
  | succ budget ih =>
    cases es with
    | nil => rfl
    | cons x es => simp only [List.take_succ_cons, purgeScan, ih]

/-- **What the scan leaves** of the entries of the map. -/
theorem mem_purgeScan_iff (now : Time) (budget : Nat) (hes : es.Perm m.entries) {x : Listed}
    (hx : x ∈ es) :
    x.1 ∈ (purgeScan now budget es m).2 ↔ ¬ (x ∈ es.take budget ∧ x.expired now = true) := by
  have hlookup : ∀ y ∈ es, m.lookup y.1 = some y.2 := fun y hy =>
    AList.mem_lookup_iff.mpr (hes.mem_iff.mp hy)
  rw [← purgeScan_take, ← AList.lookup_isSome]
  constructor
  · rintro hsome ⟨htake, hexpired⟩
    rw [lookup_purgeScan_of_expired (List.length_take_le budget es) htake hexpired] at hsome
    cases hsome
  · intro hnot
    rcases lookup_purgeScan now budget (es.take budget) m x.1 with hsame | ⟨-, e, he, hexpired⟩
    · rw [hsame, hlookup x hx]
      rfl
    · have hsame := hlookup ⟨x.1, e⟩ (List.mem_of_mem_take he)
      rw [hlookup x hx, Option.some.injEq] at hsame
      subst hsame
      exact absurd ⟨he, hexpired⟩ hnot

/-- **A purge of a shard sweeps its listing**, if the map keeps its order. -/
theorem filter_purgeScan (hes : es.Perm m.entries) :
    (es.filter fun x => x.1 ∈ (purgeScan now budget es m).2) =
      sweep (Listed.expired now) budget es := by
  have hnodup : es.Nodup := hes.nodup_iff.mpr m.nodupKeys.nodup
  have htake : (es.take budget).filter (fun x => x.1 ∈ (purgeScan now budget es m).2) =
      (es.take budget).filter (!Listed.expired now ·) := by
    refine List.filter_congr fun x hx => ?_
    have hiff := mem_purgeScan_iff now budget hes (List.mem_of_mem_take hx)
    cases hexpired : Listed.expired now x <;> simp [hiff, hx, hexpired]
  have hdrop : (es.drop budget).filter (fun x => x.1 ∈ (purgeScan now budget es m).2) =
      es.drop budget := by
    refine List.filter_eq_self.mpr fun x hx => ?_
    rw [decide_eq_true_eq, mem_purgeScan_iff now budget hes (List.mem_of_mem_drop hx)]
    exact fun h => List.disjoint_take_drop hnodup (le_refl budget) h.1 hx
  have hsplit : es.filter (fun x => x.1 ∈ (purgeScan now budget es m).2) =
      (es.take budget).filter (fun x => x.1 ∈ (purgeScan now budget es m).2) ++
        (es.drop budget).filter (fun x => x.1 ∈ (purgeScan now budget es m).2) := by
    rw [← List.filter_append, List.take_append_drop]
  rw [hsplit, htake, hdrop, sweep]

end StoreShard

/-! ## 3. All purges -/

variable {now : Time} {maxKeysPerShard : Nat} {choice : Nat → IterOrder} {s : KeyValueStore}

/-- **From one purge to all**: the listing is swept again and again. -/
theorem listing_eq (hkept : s.OrderKept now maxKeysPerShard choice) (n : Nat)
    (i : Fin numShards) :
    s.listing now maxKeysPerShard choice n i =
      (sweep (Listed.expired now) maxKeysPerShard)^[n]
        ((choice 0).iter (s.shards i).stringMap.entries) := by
  induction n with
  | zero => rfl
  | succ n ih =>
    rw [iterate_succ_apply', ← ih, hkept n i]
    exact StoreShard.filter_purgeScan ((choice n).perm _)

/-- The string entries of a shard that have expired are those of its listing. -/
theorem unexpired_iff (n : Nat) (i : Fin numShards) :
    (∀ k e, ((s.purges now maxKeysPerShard choice n).shards i).stringMap.lookup k = some e →
      e.expired now = false) ↔
      ∀ x ∈ s.listing now maxKeysPerShard choice n i, x.expired now = false := by
  have hmem : ∀ x : Listed, x ∈ s.listing now maxKeysPerShard choice n i ↔
      ((s.purges now maxKeysPerShard choice n).shards i).stringMap.lookup x.1 = some x.2 :=
    fun x => ((choice n).perm _).mem_iff.trans AList.mem_lookup_iff.symm
  constructor
  · exact fun h x hx => h x.1 x.2 ((hmem x).mp hx)
  · exact fun h k e he => h ⟨k, e⟩ ((hmem ⟨k, e⟩).mpr he)

/-- What is clear stays clear. -/
theorem unexpired_mono (hkept : s.OrderKept now maxKeysPerShard choice) {i : Fin numShards}
    {n m : Nat} (hle : n ≤ m)
    (h : ∀ x ∈ s.listing now maxKeysPerShard choice n i, x.expired now = false) :
    ∀ x ∈ s.listing now maxKeysPerShard choice m i, x.expired now = false := by
  induction m, hle using Nat.le_induction with
  | base => exact h
  | succ m _ ih =>
    intro x hx
    rw [hkept m i] at hx
    exact ih x (List.mem_of_mem_filter hx)

/-- **Each shard for itself**: it is cleared exactly when every entry that has expired is within
reach. -/
theorem shard_cleared_iff (hkept : s.OrderKept now maxKeysPerShard choice) (i : Fin numShards) :
    (∃ n, ∀ x ∈ s.listing now maxKeysPerShard choice n i, x.expired now = false) ↔
      ∀ before x after, (choice 0).iter (s.shards i).stringMap.entries = before ++ x :: after →
        Listed.expired now x = true →
          before.countP (!Listed.expired now ·) < maxKeysPerShard := by
  simp only [listing_eq hkept]
  exact sweeps_clear_iff maxKeysPerShard _

/-- **Purging makes progress** exactly when, in each shard, fewer than `max_keys_per_shard`
entries that have not expired are listed before any that has. -/
theorem progresses_iff (now : Time) (maxKeysPerShard : Nat) (choice : Nat → IterOrder)
    (s : KeyValueStore) (hkept : s.OrderKept now maxKeysPerShard choice) :
    s.Progresses now maxKeysPerShard choice ↔
      ∀ i before x after,
        (choice 0).iter (s.shards i).stringMap.entries = before ++ x :: after →
          Listed.expired now x = true →
            before.countP (!Listed.expired now ·) < maxKeysPerShard := by
  simp only [← shard_cleared_iff hkept, KeyValueStore.Progresses]
  constructor
  · rintro ⟨n, hn⟩ i
    exact ⟨n, (unexpired_iff n i).mp (hn i)⟩
  · intro h
    choose n hn using h
    refine ⟨Finset.univ.sup n, fun i => (unexpired_iff _ i).mpr ?_⟩
    exact unexpired_mono hkept (Finset.le_sup (Finset.mem_univ i)) (hn i)

/-! ## 4. A map that lists its entries as it holds them -/

/-- A part of a list without repetitions is what a filter leaves of it. -/
theorem sublist_eq_filter {xs ys : List Listed} (hsub : xs.Sublist ys) (hnodup : ys.Nodup)
    {p : Listed → Bool} (hp : ∀ y ∈ ys, p y = true ↔ y ∈ xs) : xs = ys.filter p := by
  induction hsub with
  | slnil => rfl
  | cons y hsub ih =>
    obtain ⟨hy, hnodup⟩ := List.nodup_cons.mp hnodup
    rw [List.filter_cons_of_neg fun h => hy (hsub.mem ((hp y List.mem_cons_self).mp h))]
    exact ih hnodup fun z hz => hp z (List.mem_cons_of_mem y hz)
  | cons_cons y hsub ih =>
    obtain ⟨hy, hnodup⟩ := List.nodup_cons.mp hnodup
    rw [List.filter_cons_of_pos ((hp y List.mem_cons_self).mpr List.mem_cons_self)]
    refine congrArg _ (ih hnodup fun z hz => (hp z (List.mem_cons_of_mem y hz)).trans ?_)
    have hne : z ≠ y := fun he => hy (he ▸ hz)
    simp [hne]

theorem entries_purgeScan_sublist (now : Time) (budget : Nat) (es : List Listed)
    (m : Map StoreEntry) :
    (StoreShard.purgeScan now budget es m).2.entries.Sublist m.entries := by
  fun_induction StoreShard.purgeScan now budget es m with
  | case1 | case2 => exact List.Sublist.refl _
  | case3 => rename_i ih; exact ih.trans (List.kerase_sublist _ _)
  | case4 => rename_i ih; exact ih

/-- Listing the entries as they are held is such an order. -/
theorem orderKept_plain (now : Time) (maxKeysPerShard : Nat) (s : KeyValueStore) :
    s.OrderKept now maxKeysPerShard fun _ => .plain := by
  intro n i
  obtain ⟨m, hm⟩ : ∃ m, m = ((s.purges now maxKeysPerShard (fun _ => .plain) n).shards
    i).stringMap := ⟨_, rfl⟩
  have hsub := entries_purgeScan_sublist now maxKeysPerShard m.entries m
  have hlisting : s.listing now maxKeysPerShard (fun _ => .plain) n i = m.entries := by
    rw [hm]; rfl
  have hnext : ((s.purges now maxKeysPerShard (fun _ => .plain) (n + 1)).shards i).stringMap =
      (StoreShard.purgeScan now maxKeysPerShard m.entries m).2 := by
    rw [hm]; rfl
  have hlisting' : s.listing now maxKeysPerShard (fun _ => .plain) (n + 1) i =
      (StoreShard.purgeScan now maxKeysPerShard m.entries m).2.entries := by
    rw [← hnext]; rfl
  rw [hlisting', hlisting, hnext]
  refine sublist_eq_filter hsub m.nodupKeys.nodup fun x hx => ?_
  rw [decide_eq_true_eq, AList.mem_keys]
  constructor
  · intro hmem
    obtain ⟨e, he⟩ := List.mem_keys.mp hmem
    have hsame := m.nodupKeys.eq_of_mk_mem (hsub.mem he) hx
    rwa [hsame] at he
  · exact fun hmem => List.mem_keys.mpr ⟨x.2, hmem⟩

/-- Behind one key without a deadline, and within reach of a scan of two entries. -/
theorem progresses_iff_two :
    let s := (KeyValueStore.empty.set List.length 0 [98] [50] (some 1)).set List.length 0 [97]
      [49] none
    s.Progresses 5000000000 2 fun _ => .plain := by
  intro s
  have hall : ∀ i, (s.shards i).stringMap.entries.length ≤ 2 := by decide
  refine (progresses_iff 5000000000 2 _ s (orderKept_plain _ _ s)).mpr ?_
  intro i before x after heq _
  have hlength := hall i
  have hsplit : (s.shards i).stringMap.entries = before ++ x :: after := heq
  rw [hsplit, List.length_append, List.length_cons] at hlength
  have hcount := List.countP_le_length (p := (!Listed.expired 5000000000 ·)) (l := before)
  omega

/-- **One key without a deadline in front**, and a scan of one entry: the expired key behind it
stays for good. -/
theorem not_progresses_of_permanent :
    let s := (KeyValueStore.empty.set List.length 0 [98] [50] (some 1)).set List.length 0 [97]
      [49] none
    s.OrderKept 5000000000 1 (fun _ => .plain) ∧
      ¬ s.Progresses 5000000000 1 fun _ => .plain := by
  intro s
  have hkept := orderKept_plain 5000000000 1 s
  refine ⟨hkept, ?_⟩
  rintro ⟨n, hn⟩
  have hreached := (shard_cleared_iff hkept 1).mp ⟨n, (unexpired_iff n 1).mp (hn 1)⟩
  have hcount := hreached [⟨[97], ⟨[49], none, 0⟩⟩] ⟨[98], ⟨[50], some 1000000000, 0⟩⟩ [] rfl rfl
  exact absurd hcount (by decide)

end KeyValueDb
