/-
# Readers among writers

What a reader may destroy is a string that has expired.  `get` decides that twice, the second
time under the exclusive lock, and `purge_expired_keys` decides and erases under one lock.
`ttl` decides under the shared lock and erases under the exclusive one without looking again
(`Section.ttlPurge`): a value written in between is lost.

So in a run the readers spare every live value exactly when no writer puts one under a key
that some `ttl` is about to erase (`spares_iff`).
-/
import KeyValueDb.Store.Purge
import KeyValueDb.Store.Sections

namespace KeyValueDb

open Lib Function

/-! ## 1. One section -/

/-- The sections of the methods that read or purge. -/
def Section.reads : Section → Bool
  | .set .. | .expire .. | .incrBy .. => false
  | _ => true

/-- What the section removes had expired when its call read the clock. -/
def Section.Spares (sec : Section) (order : IterOrder) (sh : StoreShard) : Prop :=
  ∀ k e, sh.stringMap.lookup k = some e → (sec.run order sh).2.stringMap.lookup k = none →
    e.expired sec.now = true

/-- The section puts a string under `key` that is alive at `instant`. -/
def Section.Revives (instant : Time) (key : Bytes) (sh : StoreShard) : Section → Prop
  | .set now k _ ttlSeconds => k = key ∧ ∀ d, deadline now ttlSeconds = some d → instant < d
  | .expire now k ttlSeconds =>
    k = key ∧ 0 < ttlSeconds ∧ instant < addSeconds now ttlSeconds ∧
      ∃ e, sh.stringMap.lookup key = some e ∧ e.expired now = false
  | .incrBy now k _ => k = key ∧ ∀ e, sh.stringMap.lookup key = some e → e.expired now = true
  | _ => False

/-- The key has no string that is alive at `instant`. -/
def StoreShard.Gone (instant : Time) (key : Bytes) (sh : StoreShard) : Prop :=
  ∀ e, sh.stringMap.lookup key = some e → e.expired instant = true

variable {instant : Time} {key k : Bytes} {sh : StoreShard} {order : IterOrder} {sec : Section}

theorem StoreShard.Gone.putString (h : sh.Gone instant key) {o : Option StoreEntry}
    (ho : k = key → ∀ e, o = some e → e.expired instant = true) :
    (sh.putString k o).Gone instant key := by
  intro e he
  by_cases hk : key = k
  · rw [hk, lookup_putString] at he
    exact ho hk.symm e he
  · rw [lookup_putString_ne hk] at he
    exact h e he

theorem not_gone_putString {e : StoreEntry} (he : e.expired instant = false) :
    ¬ (sh.putString key (some e)).Gone instant key := by
  intro h
  rw [h e StoreShard.lookup_putString] at he
  exact absurd he (by decide)

theorem StoreShard.Purged.gone {now : Time} {sh' : StoreShard} (h : sh.Purged now sh')
    (hgone : sh.Gone instant key) : sh'.Gone instant key := by
  intro e he
  rcases h.strings key with heq | ⟨hnone, -⟩
  · exact hgone e (heq ▸ he)
  · rw [hnone] at he
    cases he

/-- **A section that revives nothing** leaves a key without a live string as it is. -/
theorem StoreShard.Gone.run (h : sh.Gone instant key) (hsec : ¬ sec.Revives instant key sh) :
    (sec.run order sh).2.Gone instant key := by
  cases sec with
  | getPeek now k =>
    simp only [Section.run]
    split <;> exact h
  | getTouch now k val =>
    simp only [Section.run, StoreShard.getTouch]
    split
    · exact h
    · rename_i e he
      refine h.putString (k := k) (o := some { e with lastAccessed := now }) ?_
      rintro rfl - ⟨rfl⟩
      exact h e he
  | getPurge now k =>
    simp only [Section.run, StoreShard.getPurge]
    split
    · exact h
    · split
      · exact h.putString (k := k) (o := none) (by simp)
      · exact h
  | «exists» => exact h
  | ttlPeek now k =>
    simp only [Section.run]
    split <;> exact h
  | ttlPurge now k => exact h.putString (k := k) (o := none) (by simp)
  | size => exact h
  | getSnapshot => exact h
  | purgeExpiredKeys now maxKeysPerShard =>
    exact (sh.purged_purgeExpiredKeys order now maxKeysPerShard).gone h
  | set now k value ttlSeconds =>
    refine h.putString (k := k) (o := some ⟨value, deadline now ttlSeconds, now⟩) ?_
    rintro rfl - ⟨rfl⟩
    by_contra hlive
    exact hsec ⟨rfl, StoreEntry.not_expired_iff.mp (Bool.eq_false_iff.mpr hlive)⟩
  | expire now k ttlSeconds =>
    simp only [Section.run, StoreShard.expire]
    split
    · exact h
    · rename_i e he
      split
      · exact h.putString (k := k) (o := none) (by simp)
      · rename_i hfresh
        split
        · rename_i hpos
          refine h.putString (k := k)
            (o := some { e with expiresAt := some (addSeconds now ttlSeconds) }) ?_
          rintro rfl - ⟨rfl⟩
          by_contra hlive
          have hlater := StoreEntry.not_expired_iff.mp (Bool.eq_false_iff.mpr hlive)
          exact hsec ⟨rfl, hpos, hlater _ rfl, e, he, Bool.eq_false_iff.mpr hfresh⟩
        · exact h.putString (k := k) (o := none) (by simp)
  | incrBy now k delta =>
    have hstart : ¬ (∃ e, sh.stringMap.lookup k = some e ∧ e.expired now = false) → k ≠ key := by
      rintro hnone rfl
      refine hsec ⟨rfl, fun e he => ?_⟩
      by_contra hlive
      exact hnone ⟨e, he, Bool.eq_false_iff.mpr hlive⟩
    simp only [Section.run, StoreShard.incrBy]
    split
    · rename_i hnone
      refine h.putString (k := k) (o := some _) fun hk => absurd hk (hstart ?_)
      simp [hnone]
    · rename_i e he
      split
      · rename_i hx
        refine h.putString (k := k) (o := some _) fun hk => absurd hk (hstart ?_)
        simp [he, hx]
      · split
        · exact h
        · refine h.putString (k := k) (o := some _) ?_
          rintro rfl - ⟨rfl⟩
          exact h e he

/-- **A section that revives a key** leaves a live string there. -/
theorem not_gone_of_revives (h : sec.Revives instant key sh) :
    ¬ (sec.run order sh).2.Gone instant key := by
  cases sec with
  | set now k value ttlSeconds =>
    obtain ⟨rfl, hd⟩ := h
    exact not_gone_putString (e := ⟨value, deadline now ttlSeconds, now⟩)
      (StoreEntry.not_expired_iff.mpr hd)
  | expire now k ttlSeconds =>
    obtain ⟨rfl, hpos, hlater, e, he, hfresh⟩ := h
    simp only [Section.run, StoreShard.expire, he, hfresh, Bool.false_eq_true, if_false,
      if_pos hpos]
    refine not_gone_putString (e := { e with expiresAt := some (addSeconds now ttlSeconds) }) ?_
    refine StoreEntry.not_expired_iff.mpr ?_
    rintro - ⟨rfl⟩
    exact hlater
  | incrBy now k delta =>
    obtain ⟨rfl, hx⟩ := h
    have hfresh : (⟨stdToString delta, none, now⟩ : StoreEntry).expired instant = false := rfl
    simp only [Section.run, StoreShard.incrBy]
    split
    · exact not_gone_putString hfresh
    · rename_i e he
      rw [if_pos (hx e he)]
      exact not_gone_putString hfresh
  | _ => exact absurd h id

theorem spares_of_purged (h : sh.Purged sec.now (sec.run order sh).2) : sec.Spares order sh := by
  intro k e he hnone
  rcases h.strings k with heq | ⟨-, e', he', hx⟩
  · rw [hnone, he] at heq
    cases heq
  · rw [he, Option.some.injEq] at he'
    rw [he']
    exact hx

theorem spares_of_same (h : (sec.run order sh).2 = sh) : sec.Spares order sh := by
  refine spares_of_purged ?_
  rw [h]
  exact StoreShard.Purged.refl sec.now sh

theorem spares_ttlPurge {now : Time} (h : sh.Gone now key) :
    (Section.ttlPurge now key).Spares order sh := by
  intro k e he hnone
  by_cases hk : k = key
  · subst hk
    exact h e he
  · rw [show ((Section.ttlPurge now key).run order sh).2 = sh.putString key none from rfl,
      StoreShard.lookup_putString_ne hk, he] at hnone
    cases hnone

/-- **A reader spares what is alive**, but for the second section of `ttl`. -/
theorem spares_of_reads (hreads : sec.reads = true)
    (hgone : ∀ now key, sec = .ttlPurge now key → sh.Gone now key) : sec.Spares order sh := by
  cases sec with
  | getPeek now k =>
    refine spares_of_same ?_
    simp only [Section.run]
    split <;> rfl
  | getTouch now k val =>
    intro k' e he hnone
    simp only [Section.run, StoreShard.getTouch] at hnone
    split at hnone
    · rw [hnone] at he
      cases he
    · by_cases hk : k' = k
      · subst hk
        simp [AList.lookup_insert] at hnone
      · simp only [AList.lookup_insert_ne hk, he] at hnone
        cases hnone
  | getPurge now k =>
    refine spares_of_purged ?_
    simp only [Section.run, StoreShard.getPurge]
    split
    · exact StoreShard.Purged.refl now sh
    · split
      · rename_i e he hx
        refine ⟨fun k' => ?_, rfl, rfl⟩
        by_cases hk : k' = k
        · subst hk
          exact Or.inr ⟨AList.lookup_erase _ _, e, he, hx⟩
        · exact Or.inl (AList.lookup_erase_ne hk)
      · exact StoreShard.Purged.refl now sh
  | ttlPeek now k =>
    refine spares_of_same ?_
    simp only [Section.run]
    split <;> rfl
  | ttlPurge now k => exact spares_ttlPurge (hgone now k rfl)
  | purgeExpiredKeys now maxKeysPerShard =>
    exact spares_of_purged (sh.purged_purgeExpiredKeys order now maxKeysPerShard)
  | «exists» | size | getSnapshot => exact spares_of_same rfl
  | set | expire | incrBy => exact absurd hreads Bool.false_ne_true

/-! ## 2. Threads -/

namespace Threads

variable {T : Type} {hash : Bytes → Nat} {st : Threads T} {t u : T}

/-- If the thread is in a reader, its next section destroys no live string. -/
def Spares (hash : Bytes → Nat) (st : Threads T) (t : T) : Prop :=
  ∀ sec order, st.locals t = .running sec → sec.reads = true →
    sec.Spares order (st.store.shards (sec.shard hash))

/-- The thread is in `ttl`, between its two sections. -/
def Pending (st : Threads T) (u : T) (now : Time) (key : Bytes) : Prop :=
  st.locals u = .running (.ttlPurge now key)

/-- A writer puts a string under a key that some `ttl` is about to erase, and the string is
alive at the instant for which that `ttl` has found the key expired. -/
def Revives (hash : Bytes → Nat) (st : Threads T) : Turn T → Prop
  | .begin _ _ _ => False
  | .section t _ => ∃ sec u now key, st.locals t = .running sec ∧ st.Pending u now key ∧
      sec.Revives now key (st.store.getShard hash key)

/-- The invariant. -/
def Settled (hash : Bytes → Nat) (st : Threads T) : Prop :=
  ∀ u now key, st.Pending u now key → (st.store.getShard hash key).Gone now key

theorem Settled.spares (h : st.Settled hash) (t : T) : st.Spares hash t := by
  intro sec order hloc hreads
  refine spares_of_reads hreads ?_
  rintro now key rfl
  exact h t now key hloc

theorem not_spares_of_pending {now : Time} (hu : st.Pending u now key)
    (h : ¬ (st.store.getShard hash key).Gone now key) : ¬ st.Spares hash u := by
  intro hspares
  refine h fun e he => ?_
  refine hspares _ IterOrder.plain hu rfl key e he ?_
  exact AList.lookup_erase key (st.store.getShard hash key).stringMap

variable [DecidableEq T]

theorem step_running {sec : Section} (h : st.locals t = .running sec) (order : IterOrder) :
    st.step hash (.section t order) =
      ⟨⟨update st.store.shards (sec.shard hash)
          (sec.run order (st.store.shards (sec.shard hash))).2⟩,
        update st.locals t (sec.run order (st.store.shards (sec.shard hash))).1⟩ := by
  simp only [step, h, advance_running]

theorem step_not_running (h : ∀ sec, st.locals t ≠ .running sec) (order : IterOrder) :
    st.step hash (.section t order) = st := by
  have hstay : advance hash order (st.locals t, st.store) = (st.locals t, st.store) := by
    unfold advance
    split
    · rename_i sec hsec
      exact absurd hsec (h sec)
    · rfl
  simp only [step, hstay, update_eq_self]

/-- A thread that goes on to the second section of `ttl` has just found the key expired. -/
theorem gone_of_run {order : IterOrder} {sec : Section} {sh : StoreShard} {now : Time}
    (h : (sec.run order sh).1 = .running (.ttlPurge now key)) :
    sec = .ttlPeek now key ∧ sh.Gone now key := by
  cases sec with
  | getPeek now' k =>
    simp only [Section.run] at h
    split at h <;> cases h
  | ttlPeek now' k =>
    simp only [Section.run] at h
    split at h
    · cases h
    · rename_i hpeek
      obtain ⟨rfl, rfl⟩ : now' = now ∧ k = key := by simpa using h
      refine ⟨rfl, fun e he => ?_⟩
      unfold StoreShard.ttlPeek at hpeek
      rw [he] at hpeek
      refine StoreEntry.expired_iff.mpr ?_
      cases hd : e.expiresAt with
      | none => simp [hd] at hpeek
      | some d =>
        refine ⟨d, rfl, ?_⟩
        by_contra hlater
        simp [hd, hlater] at hpeek
  | size | getSnapshot | purgeExpiredKeys =>
    simp only [Section.run, Section.nextShard] at h
    split at h <;> simp at h
  | _ => cases h

theorem shard_of_revives {sec : Section} {sh : StoreShard} {instant : Time}
    (h : sec.Revives instant key sh) : sec.shard hash = getShardIndex hash key := by
  cases sec with
  | set | expire | incrBy => rw [← h.1]; rfl
  | _ => exact absurd h id

/-- **A step that revives nothing a `ttl` is about to erase** keeps the invariant. -/
theorem Settled.step (h : st.Settled hash) {turn : Turn T} (hturn : ¬ st.Revives hash turn) :
    (st.step hash turn).Settled hash := by
  cases turn with
  | begin t now m =>
    intro u now' key hu
    simp only [Threads.step] at hu ⊢
    split at hu
    · exact h u now' key hu
    · by_cases hut : u = t
      · subst hut
        simp only [Pending, update_self] at hu
        cases m <;> cases hu
      · exact h u now' key (by simpa only [Pending, update_of_ne hut] using hu)
  | «section» t order =>
    by_cases hrun : ∃ sec, st.locals t = .running sec
    · obtain ⟨sec, hsec⟩ := hrun
      rw [step_running hsec]
      intro u now key hu
      -- the shard of the key, if it is the one of the section
      have hshard : (st.store.getShard hash key).Gone now key →
          ¬ sec.Revives now key (st.store.getShard hash key) →
          (update st.store.shards (sec.shard hash)
            (sec.run order (st.store.shards (sec.shard hash))).2 (getShardIndex hash key)).Gone
              now key := by
        intro hgone hrev
        by_cases hi : getShardIndex hash key = sec.shard hash
        · rw [hi, update_self, ← hi]
          exact hgone.run hrev
        · rw [update_of_ne hi]
          exact hgone
      by_cases hut : u = t
      · subst hut
        obtain ⟨rfl, hgone⟩ := gone_of_run (by simpa only [Pending, update_self] using hu)
        exact hshard hgone id
      · have hpending : st.Pending u now key := by
          simpa only [Pending, update_of_ne hut] using hu
        exact hshard (h u now key hpending) fun hrev =>
          hturn ⟨sec, u, now, key, hsec, hpending, hrev⟩
    · rw [step_not_running (fun sec hsec => hrun ⟨sec, hsec⟩)]
      exact h

/-- **A step that does** leaves a live string to be erased. -/
theorem not_spares_of_revives {turn : Turn T} (hturn : st.Revives hash turn) :
    ∃ u, ¬ (st.step hash turn).Spares hash u := by
  cases turn with
  | begin t now m => exact absurd hturn id
  | «section» t order =>
    obtain ⟨sec, u, now, key, hsec, hu, hrev⟩ := hturn
    have hut : u ≠ t := by
      rintro rfl
      rw [Pending, hsec] at hu
      obtain rfl : sec = .ttlPurge now key := Local.running.inj hu
      exact hrev
    have hpending : (st.step hash (.section t order)).Pending u now key := by
      rw [step_running hsec, Pending]
      dsimp only
      rw [update_of_ne hut]
      exact hu
    refine ⟨u, not_spares_of_pending hpending ?_⟩
    rw [step_running hsec, KeyValueStore.getShard, shard_of_revives hrev]
    dsimp only
    rw [update_self]
    exact not_gone_of_revives hrev

/-! ## 3. All interleavings -/

omit [DecidableEq T] in
theorem settled_start (s : KeyValueStore) : (start s : Threads T).Settled hash := by
  intro u now key hu
  cases hu

/-- **The readers of a run spare every live string** exactly when no writer of the run puts one
under a key that some `ttl` is about to erase. -/
theorem spares_iff (hash : Bytes → Nat) (s : KeyValueStore) (turns : List (Turn T)) :
    Always (step hash) (fun st => ∀ t, st.Spares hash t) turns (start s) ↔
      Steps (step hash) (fun st turn => ¬ st.Revives hash turn) turns (start s) := by
  have hall : Steps (step hash) (fun _ _ => True) turns (start s) :=
    steps_of_forall (C := fun _ => True) (fun _ _ => trivial) _
  refine always_iff_steps (I := Settled hash) (H := fun _ _ => True) (fun _ h t => h.spares t)
    ?_ ?_ (settled_start s) hall
  · intro st turn h _ hturn
    exact h.step hturn
  · intro st turn _ _ hturn hspares
    obtain ⟨u, hu⟩ := not_spares_of_revives (not_not.mp hturn)
    exact hu (hspares u)

/-- **`ttl` erases a value that was just written**: the key has expired when it looks, and has
a new value without a deadline when it erases. -/
theorem not_spares_of_ttl :
    let hash : Bytes → Nat := fun _ => 0
    let key : Bytes := [107]
    let turns : List (Turn Bool) :=
      [.begin false 0 (.set key [49] (some 1)), .section false .plain,
        .begin true 2000000000 (.ttl key), .section true .plain,
        .begin false 2000000001 (.set key [50] none), .section false .plain]
    let st := turns.foldl (step hash) (start KeyValueStore.empty)
    ¬ Always (step hash) (fun st => ∀ t, st.Spares hash t) turns (start KeyValueStore.empty) ∧
      (st.store.getShard hash key).stringMap.lookup key = some ⟨[50], none, 2000000001⟩ ∧
      ((st.step hash (.section true .plain)).store.getShard hash key).stringMap.lookup key =
        none := by
  intro hash key turns st
  have hlive : (st.store.getShard hash key).stringMap.lookup key =
      some ⟨[50], none, 2000000001⟩ := by rfl
  refine ⟨fun h => ?_, hlive, by rfl⟩
  have hpending : st.Pending true 2000000000 key := by rfl
  refine not_spares_of_pending hpending (fun hgone => ?_) (h.last true)
  exact absurd (hgone _ hlive) (by decide)

end Threads

end KeyValueDb
