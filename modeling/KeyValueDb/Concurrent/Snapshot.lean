/-
# A snapshot taken shard by shard

`get_snapshot` looks at one shard after the other, and the store may change in between, so what
it shows is no state the store was ever in: it is put together from the shards as they were
when their turn came.  Put together key by key it is a reference store all the same (`Taken`),
and the image of it replays to the values of that store.
-/
import KeyValueDb.Aof.Image
import KeyValueDb.Store.Sections
import KeyValueDb.Store.Updates

namespace KeyValueDb

open Lib Function

/-! ## 1. Reference stores put together -/

namespace FlatStore

/-- Two stores as one; where both have a key, the first counts. -/
def or (F G : FlatStore) : FlatStore where
  strings k := (F.strings k).or (G.strings k)
  hashes k := (F.hashes k).or (G.hashes k)
  lists k := (F.lists k).or (G.lists k)

/-- Nothing under the key. -/
def Lacks (F : FlatStore) (k : Bytes) : Prop :=
  F.strings k = none ∧ F.hashes k = none ∧ F.lists k = none

/-- No string has a deadline. -/
def Undated (F : FlatStore) : Prop := ∀ k e, F.strings k = some e → e.expiresAt = none

variable {F G : FlatStore} {k : Bytes}

theorem lacks_iff : F.Lacks k ↔ F.cells k = ⟨none, none, none⟩ := by
  simp [Lacks, cells]

theorem cells_or_left (h : G.Lacks k) : (F.or G).cells k = F.cells k := by
  obtain ⟨hs, hh, hl⟩ := h
  simp [cells, FlatStore.or, hs, hh, hl]

theorem cells_or_right (h : F.Lacks k) : (F.or G).cells k = G.cells k := by
  obtain ⟨hs, hh, hl⟩ := h
  simp [cells, FlatStore.or, hs, hh, hl]

theorem Lacks.or (hF : F.Lacks k) (hG : G.Lacks k) : (F.or G).Lacks k := by
  rw [lacks_iff, cells_or_left hG]
  exact lacks_iff.mp hF

theorem NoEmpty.or (hF : F.NoEmpty) (hG : G.NoEmpty) : (F.or G).NoEmpty where
  hashes k m hm := by
    rcases Option.or_eq_some_iff.mp hm with hm | ⟨-, hm⟩
    · exact hF.hashes k m hm
    · exact hG.hashes k m hm
  lists k hl := by
    rcases Option.or_eq_some_iff.mp hl with hl | ⟨-, hl⟩
    · exact hF.lists k hl
    · exact hG.lists k hl

theorem Undated.or (hF : F.Undated) (hG : G.Undated) : (F.or G).Undated := by
  intro k e he
  rcases Option.or_eq_some_iff.mp he with he | ⟨-, he⟩
  · exact hF k e he
  · exact hG k e he

theorem Undated.unexpired (h : F.Undated) (now : Time) (k : Bytes) :
    ((F.strings k).filter fun e => !e.expired now) = F.strings k := by
  cases he : F.strings k with
  | none => rfl
  | some e => simp [Option.filter, StoreEntry.expired, h k e he]

theorem Undated.update (h : F.Undated) (now : Time) (u : Update) :
    (u.onFlat now F).Undated := by
  intro k e he
  cases u with
  | set k' v =>
    simp only [Update.onFlat, FlatStore.set, putString] at he
    by_cases hk : k = k'
    · subst hk
      rw [update_self, Option.some.injEq] at he
      rw [← he]
      rfl
    · rw [update_of_ne hk] at he
      exact h k e he
  | del k' =>
    simp only [Update.onFlat, erase] at he
    by_cases hk : k = k'
    · subst hk
      rw [update_self] at he
      cases he
    · rw [update_of_ne hk] at he
      exact h k e he
  | hdel k' f =>
    simp only [Update.onFlat, hdel] at he
    split at he
    · exact h k e he
    · exact h k e he
  | hset | lpush | rpush => exact h k e he

end FlatStore

/-! ## 2. One shard -/

/-- What one shard holds. -/
def StoreShard.flat (sh : StoreShard) : FlatStore where
  strings k := sh.stringMap.lookup k
  hashes k := (sh.hashMap.lookup k).map fieldFun
  lists k := sh.listMap.lookup k

/-- **The share of a shard shows the shard.** -/
theorem StoreShard.snapshot_shows (sh : StoreShard) (order : IterOrder) (now : Time) :
    (sh.snapshot order now).Shows now sh.flat := by
  have hall : ∀ {α : Type} (o : Option α), o.filter (fun _ => true) = o := by
    rintro α (_ | _) <;> rfl
  have hH := lists_filter (order.perm sh.hashMap.entries) (fun _ => true) (StoreShard.pairs order)
  have hL := lists_filter (order.perm sh.listMap.entries) (fun _ => true) id
  simp only [List.filter_true, hall] at hH hL
  simp only [Option.map_id, id] at hL
  have hS := lists_filter (order.perm sh.stringMap.entries) (fun e => !e.expired now)
    StoreEntry.value
  refine ⟨hS, hH.1, ?_, ?_, hL⟩
  · intro k ps hk
    obtain ⟨fields, hf, rfl⟩ := Option.map_eq_some_iff.mp ((hH.2 k ps).mp hk)
    exact ⟨fieldFun fields, congrArg (Option.map fieldFun) hf, lists_pairs order fields⟩
  · intro k m hm
    obtain ⟨fields, hf, -⟩ := Option.map_eq_some_iff.mp hm
    exact ⟨StoreShard.pairs order fields, (hH.2 k _).mpr (by simp only [hf, Option.map_some])⟩

section Placed

variable {hash : Bytes → Nat} {s : KeyValueStore} {i : Fin numShards} {k : Bytes}

theorem cells_flat (s : KeyValueStore) (hk : getShardIndex hash k = i) :
    (s.shards i).flat.cells k = (s.view hash).cells k := by
  subst hk
  rfl

theorem WellPlaced.lacks (h : WellPlaced hash s) (hk : getShardIndex hash k ≠ i) :
    (s.shards i).flat.Lacks k := by
  refine ⟨?_, ?_, ?_⟩
  · exact AList.lookup_eq_none.mpr fun hmem => hk (h.strings i k hmem)
  · have hnone : (s.shards i).hashMap.lookup k = none :=
      AList.lookup_eq_none.mpr fun hmem => hk (h.hashes i k hmem)
    exact congrArg (Option.map fieldFun) hnone
  · exact AList.lookup_eq_none.mpr fun hmem => hk (h.lists i k hmem)

theorem WellPlaced.noEmpty_flat (h : WellPlaced hash s) (hne : (s.view hash).NoEmpty)
    (i : Fin numShards) : (s.shards i).flat.NoEmpty where
  hashes k m hm := by
    by_cases hk : getShardIndex hash k = i
    · subst hk
      exact hne.hashes k m hm
    · rw [(h.lacks hk).2.1] at hm
      cases hm
  lists k hl := by
    by_cases hk : getShardIndex hash k = i
    · subst hk
      exact hne.lists k hl
    · rw [(h.lacks hk).2.2] at hl
      cases hl

theorem WellPlaced.undated_flat (h : WellPlaced hash s) (hp : (s.view hash).Undated)
    (i : Fin numShards) : (s.shards i).flat.Undated := by
  intro k e he
  by_cases hk : getShardIndex hash k = i
  · subst hk
    exact hp k e he
  · rw [(h.lacks hk).1] at he
    cases he

end Placed

/-! ## 3. The shards seen so far -/

/-- The snapshot shows this store, which can be written to a log without loss. -/
structure Taken (now : Time) (snap : StoreSnapshot) (F : FlatStore) : Prop where
  shows : snap.Shows now F
  noEmpty : F.NoEmpty
  undated : F.Undated

variable {now : Time} {snap more : StoreSnapshot} {F G : FlatStore}

theorem taken_empty (now : Time) : Taken now StoreSnapshot.empty FlatStore.empty where
  shows := by
    have hnil : ∀ {β : Type}, Lists ([] : List (Bytes × β)) fun _ => none := by
      intro β
      exact ⟨List.nodup_nil, fun k b => by simp⟩
    refine ⟨hnil, List.nodup_nil, ?_, ?_, hnil⟩
    · intro k ps h
      exact absurd h List.not_mem_nil
    · intro k m h
      exact absurd h (by simp [FlatStore.empty])
  noEmpty := FlatStore.noEmpty_empty
  undated k e he := absurd he (by simp [FlatStore.empty])

/-- **The shares of shards without a common key**, put together. -/
theorem Taken.append (h : Taken now snap F) (h' : Taken now more G)
    (hdisjoint : ∀ k, F.Lacks k ∨ G.Lacks k) : Taken now (snap.append more) (F.or G) where
  shows := by
    have hstrings : ∀ k, F.strings k = none ∨ G.strings k = none := fun k =>
      (hdisjoint k).imp (fun hk => hk.1) fun hk => hk.1
    have hhashes : ∀ k, F.hashes k = none ∨ G.hashes k = none := fun k =>
      (hdisjoint k).imp (fun hk => hk.2.1) fun hk => hk.2.1
    have hlists : ∀ k, F.lists k = none ∨ G.lists k = none := fun k =>
      (hdisjoint k).imp (fun hk => hk.2.2) fun hk => hk.2.2
    have hS := h.shows.strings.append h'.shows.strings fun k =>
      (hstrings k).imp (fun hk => by rw [hk]; rfl) fun hk => by rw [hk]; rfl
    have hor : (fun k => (((F.strings k).filter fun e => !e.expired now).map StoreEntry.value).or
        (((G.strings k).filter fun e => !e.expired now).map StoreEntry.value)) = fun k =>
          (((F.or G).strings k).filter fun e => !e.expired now).map StoreEntry.value := by
      funext k
      rcases hstrings k with hk | hk <;> simp [FlatStore.or, hk]
    rw [hor] at hS
    refine ⟨hS, ?_, ?_, ?_, h.shows.lists.append h'.shows.lists hlists⟩
    · simp only [StoreSnapshot.append, List.map_append, List.nodup_append]
      refine ⟨h.shows.hashKeys, h'.shows.hashKeys, ?_⟩
      rintro k hk _ hk' rfl
      obtain ⟨⟨_, ps⟩, hps, rfl⟩ := List.mem_map.mp hk
      obtain ⟨⟨_, ps'⟩, hps', heq⟩ := List.mem_map.mp hk'
      dsimp only at heq
      subst heq
      obtain ⟨m, hm, -⟩ := h.shows.hashFields _ _ hps
      obtain ⟨m', hm', -⟩ := h'.shows.hashFields _ _ hps'
      rcases hhashes _ with hnone | hnone
      · rw [hnone] at hm
        cases hm
      · rw [hnone] at hm'
        cases hm'
    · intro k ps hmem
      rcases List.mem_append.mp hmem with hps | hps
      · obtain ⟨m, hm, hlists⟩ := h.shows.hashFields k ps hps
        exact ⟨m, by simp [FlatStore.or, hm], hlists⟩
      · obtain ⟨m, hm, hlists⟩ := h'.shows.hashFields k ps hps
        have hnone : F.hashes k = none := (hhashes k).resolve_right (by rw [hm]; simp)
        exact ⟨m, by simp [FlatStore.or, hm, hnone], hlists⟩
    · intro k m hm
      rcases Option.or_eq_some_iff.mp hm with hm | ⟨-, hm⟩
      · obtain ⟨ps, hps⟩ := h.shows.hashAll k m hm
        exact ⟨ps, List.mem_append_left _ hps⟩
      · obtain ⟨ps, hps⟩ := h'.shows.hashAll k m hm
        exact ⟨ps, List.mem_append_right _ hps⟩
  noEmpty := h.noEmpty.or h'.noEmpty
  undated := h.undated.or h'.undated

/-- **The image replays to the values.** -/
theorem Taken.replay (h : Taken now snap F) (clock : Nat → Time) :
    (FlatStore.empty.replay clock 0 (snapshotRecords snap)).cells = F.cells := by
  have hsaved := replay_snapshotRecords h.shows h.noEmpty clock
  funext k
  refine Cell.ext ?_ (congrFun (congrArg Contents.hashes hsaved) k)
    (congrFun (congrArg Contents.lists hsaved) k)
  have hstring := congrArg (Option.map Prod.fst) (congrFun (congrArg Contents.strings hsaved) k)
  simp only [FlatStore.contents, FlatStore.saved, h.undated.unexpired, Option.map_map] at hstring
  exact hstring

end KeyValueDb
