/-
# A compacted log is a shortest one

Of all logs as `append` and `rewrite` encode them that the loader turns into the same contents, the
one that `rewrite` writes has the fewest records and the fewest bytes (`compaction_minimal`).  So
compacting such a log never makes it longer, as long as it has no deadlines to restore, and
compacting it again does not help.  A file that nothing here has written can be shorter: the loader
does not miss the line end behind the last token.

The argument is one of costs.  A store is charged for the records that would write it down
(`FlatStore.charge`), and no record adds more to that than it costs itself (`charge_dispatch`).
-/
import KeyValueDb.Aof.Rewrite
import KeyValueDb.Aof.Torn
import KeyValueDb.Lib.Cost

namespace KeyValueDb

open Lib Function

/-! ## 1. Costs of records -/

/-- A cost of records: further tokens cost no less, pushing items from the front costs no less
than from the back, and two pushes no less than one. -/
structure RecordCost (c : List Bytes → Nat) : Prop where
  set : ∀ k v rest, c [bytes "SET", k, v] ≤ c (bytes "SET" :: k :: v :: rest)
  hset : ∀ k f v rest, c [bytes "HSET", k, f, v] ≤ c (bytes "HSET" :: k :: f :: v :: rest)
  lpush : ∀ k items, c (bytes "RPUSH" :: k :: items.reverse) ≤ c (bytes "LPUSH" :: k :: items)
  rpush : ∀ k items items', c (bytes "RPUSH" :: k :: (items ++ items')) ≤
    c (bytes "RPUSH" :: k :: items) + c (bytes "RPUSH" :: k :: items')

/-- Counting records. -/
theorem recordCost_one : RecordCost fun _ => 1 :=
  ⟨fun _ _ _ => Nat.le_refl 1, fun _ _ _ _ => Nat.le_refl 1, fun _ _ => Nat.le_refl 1,
    fun _ _ _ => Nat.le_add_left 1 1⟩

/-- The bytes of the tokens. -/
def tokenBytes (tokens : List Bytes) : Nat := (tokens.map fun t => (encodeToken t).length).sum

theorem length_encodeRecord_eq (tokens : List Bytes) :
    (encodeRecord tokens).length = (dec tokens.length).length + 3 + tokenBytes tokens := by
  rw [length_encodeRecord, List.length_flatMap]
  rfl

/-- Counting bytes. -/
theorem recordCost_bytes : RecordCost fun r => (encodeRecord r).length := by
  have hmono : ∀ r rest : List Bytes,
      (encodeRecord r).length ≤ (encodeRecord (r ++ rest)).length := by
    intro r rest
    have hdec := length_dec_mono (Nat.le_add_right r.length rest.length)
    simp only [length_encodeRecord_eq, List.length_append, tokenBytes, List.map_append,
      List.sum_append]
    omega
  constructor
  · exact fun k v rest => hmono [bytes "SET", k, v] rest
  · exact fun k f v rest => hmono [bytes "HSET", k, f, v] rest
  · intro k items
    have hword : (encodeToken (bytes "RPUSH")).length = (encodeToken (bytes "LPUSH")).length := by
      decide
    simp only [length_encodeRecord_eq, tokenBytes, List.length_cons, List.length_reverse,
      List.map_cons, List.map_reverse, List.sum_cons, List.sum_reverse, hword]
    omega
  · intro k items items'
    have hdec := length_dec_add_le (items.length + 1 + 1) (items'.length + 1 + 1)
    have hmore := length_dec_mono (show items.length + items'.length + 1 + 1 ≤
      items.length + 1 + 1 + (items'.length + 1 + 1) by omega)
    simp only [length_encodeRecord_eq, tokenBytes, List.length_cons, List.length_append,
      List.map_cons, List.map_append, List.sum_cons, List.sum_append]
    omega

/-! ## 2. What a store is charged -/

namespace FlatStore

def chargeString (c : List Bytes → Nat) (k : Bytes) (e : StoreEntry) : Nat :=
  c (setRecord (k, e.value))

noncomputable def chargeHash (c : List Bytes → Nat) (k : Bytes) (m : Bytes → Option Bytes) : Nat :=
  cost (fun f v => c (hsetRecord k (f, v))) m

def chargeList (c : List Bytes → Nat) (k : Bytes) (l : List Bytes) : Nat := c (rpushRecord (k, l))

/-- What the records cost that write the store down. -/
noncomputable def charge (c : List Bytes → Nat) (F : FlatStore) : Nat :=
  cost (chargeString c) F.strings + cost (chargeHash c) F.hashes + cost (chargeList c) F.lists

/-- Finitely many keys, and finitely many fields under each. -/
structure FiniteStore (F : FlatStore) : Prop where
  strings : FiniteMap F.strings
  hashes : FiniteMap F.hashes
  fields : ∀ k m, F.hashes k = some m → FiniteMap m
  lists : FiniteMap F.lists

variable {c : List Bytes → Nat} {F : FlatStore} {key : Bytes} {now : Time}

theorem finiteStore_empty : empty.FiniteStore :=
  ⟨finiteMap_empty, finiteMap_empty, fun _ _ h => absurd h (by simp [empty]), finiteMap_empty⟩

theorem charge_empty (c : List Bytes → Nat) : empty.charge c = 0 := by
  simp only [charge, empty, cost_empty]

namespace FiniteStore

theorem putString (h : F.FiniteStore) (o : Option StoreEntry) : (F.putString key o).FiniteStore :=
  ⟨h.strings.update key o, h.hashes, h.fields, h.lists⟩

theorem putHash (h : F.FiniteStore) {o : Option (Bytes → Option Bytes)}
    (ho : ∀ m, o = some m → FiniteMap m) : (F.putHash key o).FiniteStore := by
  refine ⟨h.strings, h.hashes.update key o, fun k m hm => ?_, h.lists⟩
  by_cases hk : k = key
  · subst hk
    exact ho m (by simpa [FlatStore.putHash] using hm)
  · exact h.fields k m (by simpa [FlatStore.putHash, update_of_ne hk] using hm)

theorem putListAt (h : F.FiniteStore) (o : Option (List Bytes)) :
    (F.putListAt key o).FiniteStore :=
  ⟨h.strings, h.hashes, h.fields, h.lists.update key o⟩

theorem fieldsOf (h : F.FiniteStore) (key : Bytes) : FiniteMap (F.fieldsOf key) := by
  unfold FlatStore.fieldsOf
  cases hm : F.hashes key with
  | none => exact finiteMap_empty
  | some m => exact h.fields key m hm

theorem erase (h : F.FiniteStore) (key : Bytes) : (F.erase key).FiniteStore :=
  ((h.putString none).putHash fun _ hnone => absurd hnone (by simp)).putListAt none

theorem eraseAll (h : F.FiniteStore) (keys : List Bytes) : (F.eraseAll keys).FiniteStore := by
  induction keys generalizing F with
  | nil => exact h
  | cons key keys ih => exact ih (h.erase key)

end FiniteStore

/-- Pushing items at the front, one after the other. -/
theorem lpushAll_eq (k : Bytes) {items : List Bytes} (hne : items ≠ []) (F : FlatStore) :
    F.lpushAll k items = F.putListAt k (some (items.reverse ++ F.elemsOf k)) := by
  induction items generalizing F with
  | nil => exact absurd rfl hne
  | cons item items ih =>
    have hstep : (F.lpush k item).2 = F.putListAt k (some (item :: F.elemsOf k)) := by
      simp [lpush, putList]
    cases items with
    | nil => exact hstep
    | cons item' items =>
      have hrec : F.lpushAll k (item :: item' :: items) =
          (F.putListAt k (some (item :: F.elemsOf k))).lpushAll k (item' :: items) := by
        rw [← hstep]
        rfl
      rw [hrec, ih (by simp)]
      simp [putListAt, elemsOf]

/-! ## 3. No record is worth more than it costs -/

theorem charge_putString (h : F.FiniteStore) (key : Bytes) (o : Option StoreEntry) :
    (F.putString key o).charge c + (F.strings key).elim 0 (chargeString c key) =
      F.charge c + o.elim 0 (chargeString c key) := by
  have hcost := cost_update (chargeString c) h.strings key o
  simp only [charge, putString]
  omega

theorem charge_putHash (h : F.FiniteStore) (key : Bytes) (o : Option (Bytes → Option Bytes)) :
    (F.putHash key o).charge c + (F.hashes key).elim 0 (chargeHash c key) =
      F.charge c + o.elim 0 (chargeHash c key) := by
  have hcost := cost_update (chargeHash c) h.hashes key o
  simp only [charge, putHash]
  omega

theorem charge_putListAt (h : F.FiniteStore) (key : Bytes) (o : Option (List Bytes)) :
    (F.putListAt key o).charge c + (F.lists key).elim 0 (chargeList c key) =
      F.charge c + o.elim 0 (chargeList c key) := by
  have hcost := cost_update (chargeList c) h.lists key o
  simp only [charge, putListAt]
  omega

theorem charge_erase (h : F.FiniteStore) (key : Bytes) : (F.erase key).charge c ≤ F.charge c := by
  have hfirst : (F.putString key none).FiniteStore := h.putString none
  have hsecond : ((F.putString key none).putHash key none).FiniteStore :=
    hfirst.putHash fun m hm => absurd hm (by simp)
  have hstring := charge_putString (c := c) h key none
  have hhash := charge_putHash (c := c) hfirst key none
  have hlist := charge_putListAt (c := c) hsecond key none
  have herase : F.erase key = ((F.putString key none).putHash key none).putListAt key none := rfl
  rw [herase]
  rw [Option.elim_none] at hstring hhash hlist
  omega

theorem charge_eraseAll (h : F.FiniteStore) (keys : List Bytes) :
    (F.eraseAll keys).charge c ≤ F.charge c := by
  induction keys generalizing F with
  | nil => exact Nat.le_refl _
  | cons key keys ih => exact (ih (h.erase key)).trans (charge_erase h key)

/-- What was pushed, on top of what was there. -/
theorem charge_push (hc : RecordCost c) (h : F.FiniteStore) (key : Bytes) (items : List Bytes) :
    (F.putListAt key (some (F.elemsOf key ++ items))).charge c ≤
      F.charge c + c (bytes "RPUSH" :: key :: items) := by
  have hcost := charge_putListAt (c := c) h key (some (F.elemsOf key ++ items))
  rw [Option.elim_some, chargeList, rpushRecord] at hcost
  cases hl : F.lists key with
  | none =>
    simp only [elemsOf, hl, Option.getD_none, List.nil_append, Option.elim_none] at hcost ⊢
    exact hcost.le
  | some l =>
    have happend := hc.rpush key l items
    simp only [elemsOf, hl, Option.getD_some, Option.elim_some, chargeList,
      rpushRecord] at hcost ⊢
    omega

theorem charge_pushFront (hc : RecordCost c) (h : F.FiniteStore) (key : Bytes)
    (items : List Bytes) :
    (F.putListAt key (some (items.reverse ++ F.elemsOf key))).charge c ≤
      F.charge c + c (bytes "LPUSH" :: key :: items) := by
  have hcost := charge_putListAt (c := c) h key (some (items.reverse ++ F.elemsOf key))
  have hfront := hc.lpush key items
  rw [Option.elim_some, chargeList, rpushRecord] at hcost
  cases hl : F.lists key with
  | none =>
    simp only [elemsOf, hl, Option.getD_none, List.append_nil, Option.elim_none] at hcost ⊢
    omega
  | some l =>
    have happend := hc.rpush key items.reverse l
    simp only [elemsOf, hl, Option.getD_some, Option.elim_some, chargeList,
      rpushRecord] at hcost ⊢
    omega

/-- Removing a string, or giving it a deadline. -/
theorem charge_expire (h : F.FiniteStore) (now : Time) (key : Bytes) (sec : Int) :
    (F.expire now key sec).2.FiniteStore ∧ (F.expire now key sec).2.charge c ≤ F.charge c := by
  unfold FlatStore.expire
  cases he : F.strings key with
  | none => exact ⟨h, Nat.le_refl _⟩
  | some e =>
    have hgone := charge_putString (c := c) h key none
    have hkept := charge_putString (c := c) h key
      (some { e with expiresAt := some (addSeconds now sec) })
    rw [he, Option.elim_some, Option.elim_none] at hgone
    rw [he, Option.elim_some, Option.elim_some] at hkept
    have hsame : chargeString c key { e with expiresAt := some (addSeconds now sec) } =
        chargeString c key e := rfl
    dsimp only
    split
    · exact ⟨h.putString none, by dsimp only; omega⟩
    · split
      · exact ⟨h.putString _, by dsimp only; omega⟩
      · exact ⟨h.putString none, by dsimp only; omega⟩

theorem charge_hset (hc : RecordCost c) (h : F.FiniteStore) (key f v : Bytes)
    (rest : List Bytes) :
    (F.hset key f v).2.FiniteStore ∧
      (F.hset key f v).2.charge c ≤ F.charge c + c (bytes "HSET" :: key :: f :: v :: rest) := by
  have hcost := charge_putHash (c := c) h key (some (update (F.fieldsOf key) f (some v)))
  have hfield := cost_update (fun f v => c (hsetRecord key (f, v))) (h.fieldsOf key) f (some v)
  have hfields : (F.hashes key).elim 0 (chargeHash c key) = chargeHash c key (F.fieldsOf key) := by
    unfold fieldsOf
    cases F.hashes key with
    | none => exact (cost_empty _).symm
    | some m => rfl
  have hrecord := hc.hset key f v rest
  rw [hfields, Option.elim_some] at hcost
  simp only [chargeHash, Option.elim_some, hsetRecord] at hcost hfield
  refine ⟨h.putHash fun m hm => ?_, ?_⟩
  · obtain rfl := Option.some.inj hm
    exact (h.fieldsOf key).update f _
  · simp only [FlatStore.hset]
    omega

theorem charge_hdel (h : F.FiniteStore) (key f : Bytes) :
    (F.hdel key f).2.FiniteStore ∧ (F.hdel key f).2.charge c ≤ F.charge c := by
  unfold FlatStore.hdel
  cases hm : F.hashes key with
  | none => exact ⟨h, Nat.le_refl _⟩
  | some m =>
    have hgone := charge_putHash (c := c) h key none
    have hkept := charge_putHash (c := c) h key (some (update m f none))
    have hfield := cost_update (fun f v => c (hsetRecord key (f, v))) (h.fields key m hm) f none
    rw [hm, Option.elim_some, Option.elim_none] at hgone
    rw [hm, Option.elim_some, Option.elim_some] at hkept
    simp only [chargeHash, Option.elim_none] at hgone hkept hfield
    dsimp only
    split
    · exact ⟨h.putHash fun _ hnone => absurd hnone (by simp), by omega⟩
    · refine ⟨h.putHash fun m' hm' => ?_, by omega⟩
      obtain rfl := Option.some.inj hm'
      exact (h.fields key m hm).update f none

/-- **One record.** -/
theorem charge_dispatch (hc : RecordCost c) (h : F.FiniteStore) (now : Time)
    (tokens : List Bytes) :
    (F.dispatch now tokens).FiniteStore ∧
      (F.dispatch now tokens).charge c ≤ F.charge c + c tokens := by
  cases tokens with
  | nil => exact ⟨h, Nat.le_add_right _ _⟩
  | cons cmd args =>
    unfold dispatch
    dsimp only
    split
    · rename_i key value rest hcmd
      obtain rfl : cmd = bytes "SET" := Verb.word_of_ofWord hcmd
      have hput := charge_putString (c := c) h key (some ⟨value, deadline now none, now⟩)
      have hrecord := hc.set key value rest
      simp only [Option.elim_some, chargeString, setRecord] at hput
      refine ⟨h.putString _, ?_⟩
      simp only [FlatStore.set]
      omega
    · exact ⟨h.eraseAll _, (charge_eraseAll h _).trans (Nat.le_add_right _ _)⟩
    · rename_i key seconds rest _
      cases stoll seconds with
      | none => exact ⟨h, Nat.le_add_right _ _⟩
      | some sec =>
        obtain ⟨hfinite, hle⟩ := charge_expire (c := c) h now key sec
        exact ⟨hfinite, hle.trans (Nat.le_add_right _ _)⟩
    · rename_i key field value rest hcmd
      obtain rfl : cmd = bytes "HSET" := Verb.word_of_ofWord hcmd
      exact charge_hset hc h key field value rest
    · rename_i key field rest _
      obtain ⟨hfinite, hle⟩ := charge_hdel (c := c) h key field
      exact ⟨hfinite, hle.trans (Nat.le_add_right _ _)⟩
    · rename_i key item items hcmd
      obtain rfl : cmd = bytes "LPUSH" := Verb.word_of_ofWord hcmd
      rw [lpushAll_eq key (by simp)]
      exact ⟨h.putListAt _, charge_pushFront hc h key (item :: items)⟩
    · rename_i key item items hcmd
      obtain rfl : cmd = bytes "RPUSH" := Verb.word_of_ofWord hcmd
      rw [rpushAll_eq key (by simp)]
      exact ⟨h.putListAt _, charge_push hc h key (item :: items)⟩
    · exact ⟨finiteStore_empty, by rw [charge_empty]; exact Nat.zero_le _⟩
    · exact ⟨h, Nat.le_add_right _ _⟩

/-- **A log costs at least what it builds.** -/
theorem charge_replay (hc : RecordCost c) (clock : Nat → Time) (records : List (List Bytes))
    (h : F.FiniteStore) (i : Nat) :
    (F.replay clock i records).charge c ≤ F.charge c + (records.map c).sum := by
  induction records generalizing F i with
  | nil => exact Nat.le_refl _
  | cons r rs ih =>
    obtain ⟨hfinite, hle⟩ := charge_dispatch hc h (clock i) r
    have hrest := ih hfinite (i + 1)
    rw [replay, List.map_cons, List.sum_cons]
    omega

/-! ## 4. What the snapshot costs -/

/-- **A snapshot costs what the store is charged that it rebuilds.** -/
theorem charge_of_shows {G : FlatStore} {snap : StoreSnapshot} (h : snap.Shows now F)
    (hne : F.NoEmpty) (hG : G.contents = F.saved now) (c : List Bytes → Nat) :
    G.charge c = ((snapshotRecords snap).map c).sum := by
  have hfilter : snap.lists.filter (fun entry => entry.2 ≠ []) = snap.lists := by
    refine List.filter_eq_self.mpr ?_
    rintro ⟨k, items⟩ hmem
    have hitems : items ≠ [] := fun hnil => hne.lists k ((h.lists.2 k []).mp (hnil ▸ hmem))
    simpa using hitems
  have hstrings : cost (chargeString c) G.strings =
      ((snap.strings.map setRecord).map c).sum := by
    have hvalues : (fun k => (G.strings k).map StoreEntry.value) =
        fun k => ((F.strings k).filter fun e => !e.expired now).map StoreEntry.value := by
      funext k
      have hk := congrArg (Option.map Prod.fst) (congrFun (congrArg Contents.strings hG) k)
      simpa [contents, saved, Function.comp_def] using hk
    have hcost := cost_map (fun k v => c (setRecord (k, v))) StoreEntry.value G.strings
    rw [hvalues, h.strings.cost_eq] at hcost
    rw [List.map_map]
    exact hcost.symm
  have hhashes : cost (chargeHash c) G.hashes =
      ((snap.hashes.flatMap fun entry => entry.2.map (hsetRecord entry.1)).map c).sum := by
    have hsame : G.hashes = F.hashes := congrArg Contents.hashes hG
    have hcost := cost_eq_sum (w := chargeHash c) (m := F.hashes)
      (u := fun entry => (entry.2.map fun field => c (hsetRecord entry.1 field)).sum) h.hashKeys
      (fun k m hm => ?_) (fun entry hentry => ?_)
    · rw [hsame, hcost, sum_map_flatMap]
      simp only [List.map_map, Function.comp_def]
    · obtain ⟨ps, hps⟩ := h.hashAll k m hm
      exact List.mem_map.mpr ⟨_, hps, rfl⟩
    · obtain ⟨m, hm, hlists⟩ := h.hashFields entry.1 entry.2 hentry
      exact ⟨m, hm, hlists.cost_eq _⟩
  have hlists : cost (chargeList c) G.lists = ((snap.lists.map rpushRecord).map c).sum := by
    have hsame : G.lists = F.lists := congrArg Contents.lists hG
    rw [hsame, h.lists.cost_eq, List.map_map]
    rfl
  rw [charge, hstrings, hhashes, hlists, snapshotRecords, hfilter, List.map_append,
    List.map_append, List.sum_append, List.sum_append]

end FlatStore

/-! ## 5. The file that rewrite writes -/

variable {hash : Bytes → Nat} {lim : Limits}

theorem length_encodeLog (records : List (List Bytes)) :
    (encodeLog records).length = (records.map fun r => (encodeRecord r).length).sum :=
  List.length_flatMap

/-- Of all logs with the same contents, a snapshot has the lowest cost. -/
theorem snapshot_minimal {c : List Bytes → Nat} (hc : RecordCost c) {now : Time}
    {snap : StoreSnapshot} {F : FlatStore} (h : snap.Shows now F) (hne : F.NoEmpty)
    (clock : Nat → Time) {records : List (List Bytes)}
    (hsame : (FlatStore.empty.replay clock 0 records).contents = F.saved now) :
    ((snapshotRecords snap).map c).sum ≤ (records.map c).sum := by
  have hcost := FlatStore.charge_replay hc clock records FlatStore.finiteStore_empty 0
  rw [FlatStore.charge_of_shows h hne hsame, FlatStore.charge_empty] at hcost
  omega

/-- **A compacted log is a shortest one.**  Compact any reachable store with every file operation
succeeding.  No log as `append` and `rewrite` encode it that loads the same contents has fewer
records or fewer bytes than the file that replaces the log. -/
theorem compaction_minimal {store : KeyValueStore} (hr : Reachable hash store)
    (order : IterOrder) (now : Time)
    (hholds : ∀ r ∈ snapshotRecords (store.getSnapshot order now), lim.Holds r)
    {aof : AofManager} (hen : aof.enabled = true) :
    ∃ compacted, (aof.rewrite .success order now store).2.disk.log = some (encodeLog compacted) ∧
      ∀ (clock : Nat → Time) (records : List (List Bytes)), (∀ r ∈ records, r ≠ []) →
        (∀ r ∈ records, lim.Holds r) →
        loaded lim hash clock (some (encodeLog records)) =
          loaded lim hash clock (some (encodeLog compacted)) →
        compacted.length ≤ records.length ∧
          (encodeLog compacted).length ≤ (encodeLog records).length := by
  obtain ⟨enabled, isOpen, disk⟩ := aof
  obtain rfl : enabled = true := hen
  refine ⟨snapshotRecords (store.getSnapshot order now), ?_, ?_⟩
  · rw [← rewriteImage_eq]
    exact congrArg some (write_success _)
  · intro clock records hne hrecords hsame
    rw [← rewriteImage_eq, loaded_rewriteImage clock hr order now hholds,
      loaded_encodeLog hne hrecords, Option.some.injEq] at hsame
    have hshows := hr.wellPlaced.getSnapshot_shows order now
    have hcount := snapshot_minimal recordCost_one hshows hr.noEmpty clock hsame
    have hbytes := snapshot_minimal recordCost_bytes hshows hr.noEmpty clock hsame
    rw [← length_encodeLog, ← length_encodeLog] at hbytes
    refine ⟨?_, hbytes⟩
    simpa using hcount

/-- A list that was pushed from both ends, and a field that was written twice. -/
theorem compaction_minimal_pushed :
    let calls : List TimedCall :=
      [⟨0, .plain, .lpush (bytes "l") (bytes "b")⟩, ⟨0, .plain, .lpush (bytes "l") (bytes "a")⟩,
        ⟨0, .plain, .rpush (bytes "l") (bytes "c")⟩,
        ⟨0, .plain, .hset (bytes "h") (bytes "f") (bytes "1")⟩,
        ⟨0, .plain, .hset (bytes "h") (bytes "f") (bytes "2")⟩]
    let store := (KeyValueStore.empty.runCalls List.length calls).2
    let aof : AofManager := ⟨true, true, ⟨none, none⟩⟩
    let lim : Limits := ⟨8, 8, by decide, by decide⟩
    ∃ compacted, (aof.rewrite .success .plain 0 store).2.disk.log = some (encodeLog compacted) ∧
      ∀ (clock : Nat → Time) (records : List (List Bytes)), (∀ r ∈ records, r ≠ []) →
        (∀ r ∈ records, lim.Holds r) →
        loaded lim List.length clock (some (encodeLog records)) =
          loaded lim List.length clock (some (encodeLog compacted)) →
        compacted.length ≤ records.length ∧
          (encodeLog compacted).length ≤ (encodeLog records).length :=
  compaction_minimal (Reachable.empty.runCalls _) .plain 0 (by decide) rfl

end KeyValueDb
