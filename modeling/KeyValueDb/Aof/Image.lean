/-
# The compacted image

`rewrite` writes a snapshot of the store as a log of its own: a `SET` for every string, an
`HSET` for every field of every hash, an `RPUSH` for every list.  The image is the encoding of
those records (`rewriteImage_eq`), and replaying them rebuilds what the snapshot shows
(`replay_snapshotRecords`).

What the snapshot shows is less than the store holds: deadlines are not written.  `saved` is
what is left.
-/
import KeyValueDb.Aof.Replay

namespace KeyValueDb

open Lib Function

/-! ## 1. The bytes that are written -/

/-- One string. -/
def imageString (entry : Bytes × Bytes) : Bytes :=
  bytes "*3\r\n$3\r\nSET\r\n$" ++ dec entry.1.length ++ crlf ++ entry.1 ++
    bytes "\r\n$" ++ dec entry.2.length ++ crlf ++ entry.2 ++ crlf

/-- One field of the hash at `k`. -/
def imageField (k : Bytes) (field : Bytes × Bytes) : Bytes :=
  bytes "*4\r\n$4\r\nHSET\r\n$" ++ dec k.length ++ crlf ++ k ++
    bytes "\r\n$" ++ dec field.1.length ++ crlf ++ field.1 ++
    bytes "\r\n$" ++ dec field.2.length ++ crlf ++ field.2 ++ crlf

/-- One list; an empty one is not written. -/
def imageList (entry : Bytes × List Bytes) : Bytes :=
  if entry.2 = [] then []
  else
    bytes "*" ++ dec (2 + entry.2.length) ++ bytes "\r\n$5\r\nRPUSH\r\n$" ++
      dec entry.1.length ++ crlf ++ entry.1 ++ crlf ++
      entry.2.flatMap fun item => bytes "$" ++ dec item.length ++ crlf ++ item ++ crlf

/-- Everything `rewrite` writes to the temporary file. -/
def rewriteImage (snap : StoreSnapshot) : Bytes :=
  snap.strings.flatMap imageString ++
    (snap.hashes.flatMap fun entry => entry.2.flatMap (imageField entry.1)) ++
    snap.lists.flatMap imageList

/-! ## 2. The records they encode -/

def setRecord (entry : Bytes × Bytes) : List Bytes := [bytes "SET", entry.1, entry.2]

def hsetRecord (k : Bytes) (field : Bytes × Bytes) : List Bytes :=
  [bytes "HSET", k, field.1, field.2]

def rpushRecord (entry : Bytes × List Bytes) : List Bytes := bytes "RPUSH" :: entry.1 :: entry.2

/-- The snapshot as records. -/
def snapshotRecords (snap : StoreSnapshot) : List (List Bytes) :=
  snap.strings.map setRecord ++
    (snap.hashes.flatMap fun entry => entry.2.map (hsetRecord entry.1)) ++
    (snap.lists.filter fun entry => entry.2 ≠ []).map rpushRecord

theorem imageString_eq (entry : Bytes × Bytes) :
    imageString entry = encodeRecord (setRecord entry) := by
  have hhead : bytes "*3\r\n$3\r\nSET\r\n$" =
      star :: dec 3 ++ crlf ++ encodeToken (bytes "SET") ++ [dollar] := by decide
  have hmid : bytes "\r\n$" = crlf ++ [dollar] := by decide
  simp [imageString, encodeRecord, setRecord, hhead, hmid]
  simp [encodeToken]

theorem imageField_eq (k : Bytes) (field : Bytes × Bytes) :
    imageField k field = encodeRecord (hsetRecord k field) := by
  have hhead : bytes "*4\r\n$4\r\nHSET\r\n$" =
      star :: dec 4 ++ crlf ++ encodeToken (bytes "HSET") ++ [dollar] := by decide
  have hmid : bytes "\r\n$" = crlf ++ [dollar] := by decide
  simp [imageField, encodeRecord, hsetRecord, hhead, hmid]
  simp [encodeToken]

theorem imageList_eq {entry : Bytes × List Bytes} (h : entry.2 ≠ []) :
    imageList entry = encodeRecord (rpushRecord entry) := by
  have hhead : bytes "\r\n$5\r\nRPUSH\r\n$" =
      crlf ++ encodeToken (bytes "RPUSH") ++ [dollar] := by decide
  have hitem : (fun item => bytes "$" ++ dec item.length ++ crlf ++ item ++ crlf) =
      encodeToken := by
    funext item
    rfl
  have hstar : bytes "*" = [star] := rfl
  have hlen : entry.2.length + 1 + 1 = 2 + entry.2.length := by omega
  rw [imageList, if_neg h, hitem]
  simp [encodeRecord, rpushRecord, hhead, hstar, hlen]
  simp [encodeToken]

theorem flatMap_imageList (lists : List (Bytes × List Bytes)) :
    lists.flatMap imageList =
      encodeLog ((lists.filter fun entry => entry.2 ≠ []).map rpushRecord) := by
  induction lists with
  | nil => rfl
  | cons entry lists ih =>
    rw [List.flatMap_cons, ih]
    by_cases h : entry.2 = []
    · simp [imageList, h]
    · simp [imageList_eq h, h, encodeLog]

theorem encodeLog_append (rs rs' : List (List Bytes)) :
    encodeLog (rs ++ rs') = encodeLog rs ++ encodeLog rs' := List.flatMap_append

/-- **The image is the log of the snapshot's records.** -/
theorem rewriteImage_eq (snap : StoreSnapshot) :
    rewriteImage snap = encodeLog (snapshotRecords snap) := by
  have hs : snap.strings.flatMap imageString = encodeLog (snap.strings.map setRecord) := by
    rw [encodeLog, List.flatMap_map]
    exact List.flatMap_congr fun entry _ => imageString_eq entry
  have hh : (snap.hashes.flatMap fun entry => entry.2.flatMap (imageField entry.1)) =
      encodeLog (snap.hashes.flatMap fun entry => entry.2.map (hsetRecord entry.1)) := by
    rw [encodeLog, List.flatMap_assoc]
    apply List.flatMap_congr
    intro entry _
    rw [List.flatMap_map]
    exact List.flatMap_congr fun field _ => imageField_eq entry.1 field
  rw [rewriteImage, snapshotRecords, encodeLog_append, encodeLog_append, hs, hh,
    flatMap_imageList]

theorem snapshotRecords_ne_nil (snap : StoreSnapshot) : ∀ r ∈ snapshotRecords snap, r ≠ [] := by
  intro r hr
  simp only [snapshotRecords, List.mem_append, List.mem_map, List.mem_flatMap] at hr
  rcases hr with (⟨e, -, rfl⟩ | ⟨e, -, f, -, rfl⟩) | ⟨e, -, rfl⟩ <;>
    simp [setRecord, hsetRecord, rpushRecord]

/-! ## 3. Replaying them -/

namespace FlatStore

/-- What a snapshot keeps of a store: the strings that have not expired, without deadlines,
and all hashes and lists. -/
def saved (now : Time) (F : FlatStore) : Contents (Bytes × Option Time) where
  strings key := ((F.strings key).filter fun e => !e.expired now).map fun e => (e.value, none)
  hashes := F.hashes
  lists := F.lists

variable {clock : Nat → Time}

/-- Replaying `SET`s, each key once. -/
theorem replay_sets (clock : Nat → Time) {l : List (Bytes × Bytes)}
    {m : Bytes → Option Bytes} (h : Lists l m) (i : Nat) (F : FlatStore) :
    (F.replay clock i (l.map setRecord)).contents =
      ⟨fun k => (m k).elim (F.contents.strings k) fun v => some (v, none), F.hashes,
        F.lists⟩ := by
  induction l generalizing m i F with
  | nil =>
    simp only [h.of_nil, Option.elim_none]
    rfl
  | cons entry l ih =>
    obtain ⟨k0, v0⟩ := entry
    obtain ⟨hm, hl⟩ := h.of_cons
    rw [List.map_cons, replay, ih hl]
    apply Contents.ext_keys
    · intro k
      dsimp only
      by_cases hk : k = k0
      · subst hk
        rw [update_self, hm]
        change ((F.set (clock i) k v0 none).strings k).map _ = _
        simp [set, putString, deadline]
      · rw [update_of_ne hk]
        have hsame : (F.dispatch (clock i) (setRecord (k0, v0))).contents.strings k =
            F.contents.strings k := by
          change ((F.set (clock i) k0 v0 none).strings k).map _ = _
          simp [set, putString, update_of_ne hk, contents]
        rw [hsame]
    · intro k; rfl
    · intro k; rfl

/-- Replaying the `HSET`s of one key, each field once. -/
theorem replay_fields (k : Bytes) {ps : List (Bytes × Bytes)} {m : Bytes → Option Bytes}
    (h : Lists ps m) (hne : ps ≠ []) (i : Nat) (F : FlatStore) :
    F.replay clock i (ps.map (hsetRecord k)) =
      F.putHash k (some fun f => (m f).elim (F.fieldsOf k f) some) := by
  induction ps generalizing m i F with
  | nil => exact absurd rfl hne
  | cons field ps ih =>
    obtain ⟨f0, v0⟩ := field
    obtain ⟨hm, hl⟩ := h.of_cons
    have hstep : F.dispatch (clock i) (hsetRecord k (f0, v0)) =
        F.putHash k (some (update (F.fieldsOf k) f0 (some v0))) := rfl
    have hfields : (F.putHash k (some (update (F.fieldsOf k) f0 (some v0)))).fieldsOf k =
        update (F.fieldsOf k) f0 (some v0) := by simp [putHash, fieldsOf]
    rw [List.map_cons, replay, hstep]
    rcases List.eq_nil_or_concat ps with rfl | ⟨_, _, rfl⟩
    · have hm' : ∀ f, f ≠ f0 → m f = none := by
        intro f hf
        have := hl.of_nil f
        rwa [update_of_ne hf] at this
      rw [List.map_nil, replay_nil]
      congr 2
      funext f
      by_cases hf : f = f0
      · subst hf; simp [hm]
      · simp [update_of_ne hf, hm' f hf]
    · rw [ih hl (by simp), hfields]
      apply ext_keys
      · intro k'; rfl
      · intro k'
        by_cases hk : k' = k
        · subst hk
          simp only [putHash, update_self, Option.some.injEq]
          funext f
          by_cases hf : f = f0
          · subst hf; simp [hm]
          · simp [update_of_ne hf]
        · simp [putHash, update_of_ne hk]
      · intro k'; rfl

/-- Replaying the `HSET`s of hashes that are not there yet. -/
theorem replay_hashes {l : List (Bytes × List (Bytes × Bytes))}
    {M : Bytes → Option (Bytes → Option Bytes)} (hnd : (l.map Prod.fst).Nodup)
    (hl : ∀ k ps, (k, ps) ∈ l → ∃ m, M k = some m ∧ Lists ps m ∧ ps ≠ [])
    (i : Nat) (F : FlatStore) (hF : ∀ k ∈ l.map Prod.fst, F.hashes k = none) :
    F.replay clock i (l.flatMap fun entry => entry.2.map (hsetRecord entry.1)) =
      ⟨F.strings, fun k => if k ∈ l.map Prod.fst then M k else F.hashes k, F.lists⟩ := by
  induction l generalizing i F with
  | nil => rfl
  | cons entry l ih =>
    obtain ⟨k0, ps⟩ := entry
    obtain ⟨m, hM, hps, hne⟩ := hl k0 ps List.mem_cons_self
    rw [List.map_cons, List.nodup_cons] at hnd
    have hnone : F.fieldsOf k0 = fun _ => none := by
      simp [fieldsOf, hF k0 (by simp)]
    have hm : (fun f => (m f).elim (F.fieldsOf k0 f) some) = m := by
      funext f
      rw [hnone]
      cases m f <;> rfl
    have hF' : ∀ k ∈ l.map Prod.fst, (F.putHash k0 (some m)).hashes k = none := by
      intro k hk
      have hne : k ≠ k0 := by rintro rfl; exact hnd.1 hk
      simpa [putHash, update_of_ne hne] using hF k (List.mem_cons_of_mem _ hk)
    rw [List.flatMap_cons, replay_append, replay_fields k0 hps hne, hm,
      ih hnd.2 (fun k ps hk => hl k ps (List.mem_cons_of_mem _ hk)) _ _ hF']
    apply ext_keys
    · intro k; rfl
    · intro k
      by_cases hk : k = k0
      · subst hk
        simp [hnd.1, hM, putHash]
      · have hmem : k ∈ ((k0, ps) :: l).map Prod.fst ↔ k ∈ l.map Prod.fst := by
          rw [List.map_cons, List.mem_cons]
          exact or_iff_right hk
        simp only [putHash, update_of_ne hk, hmem]
    · intro k; rfl

/-- Pushing items at the back, in order. -/
theorem rpushAll_eq (k : Bytes) {items : List Bytes} (hne : items ≠ []) (F : FlatStore) :
    F.rpushAll k items = F.putListAt k (some (F.elemsOf k ++ items)) := by
  induction items generalizing F with
  | nil => exact absurd rfl hne
  | cons item items ih =>
    have hstep : (F.rpush k item).2 = F.putListAt k (some (F.elemsOf k ++ [item])) := by
      simp [rpush, putList]
    rcases items with _ | ⟨item', items⟩
    · exact hstep
    · have hrec : F.rpushAll k (item :: item' :: items) =
          (F.putListAt k (some (F.elemsOf k ++ [item]))).rpushAll k (item' :: items) := by
        rw [← hstep]; rfl
      rw [hrec, ih (by simp)]
      simp [putListAt, elemsOf]

/-- Replaying the `RPUSH`es of lists that are not there yet. -/
theorem replay_lists {l : List (Bytes × List Bytes)} {M : Bytes → Option (List Bytes)}
    (h : Lists l M) (hne : ∀ entry ∈ l, entry.2 ≠ []) (i : Nat) (F : FlatStore)
    (hF : ∀ entry ∈ l, F.lists entry.1 = none) :
    F.replay clock i (l.map rpushRecord) =
      ⟨F.strings, F.hashes, fun k => (M k).elim (F.lists k) some⟩ := by
  induction l generalizing M i F with
  | nil =>
    simp only [h.of_nil, Option.elim_none]
    rfl
  | cons entry l ih =>
    obtain ⟨k0, items⟩ := entry
    obtain ⟨hM, hl⟩ := h.of_cons
    have hitems : items ≠ [] := hne _ List.mem_cons_self
    have hnd := h.1
    rw [List.map_cons, List.nodup_cons] at hnd
    have hstep : F.dispatch (clock i) (rpushRecord (k0, items)) = F.putListAt k0 (some items) := by
      obtain ⟨item, rest, rfl⟩ := List.exists_cons_of_ne_nil hitems
      have hd : F.dispatch (clock i) (rpushRecord (k0, item :: rest)) =
          F.rpushAll k0 (item :: rest) := rfl
      rw [hd, rpushAll_eq k0 hitems]
      simp [elemsOf, hF _ List.mem_cons_self]
    have hF' : ∀ entry ∈ l, (F.putListAt k0 (some items)).lists entry.1 = none := by
      intro entry hmem
      have hk : entry.1 ≠ k0 := by
        rintro rfl
        exact hnd.1 (List.mem_map.mpr ⟨_, hmem, rfl⟩)
      simpa [putListAt, update_of_ne hk] using hF _ (List.mem_cons_of_mem _ hmem)
    rw [List.map_cons, replay, hstep,
      ih hl (fun e he => hne e (List.mem_cons_of_mem _ he)) _ _ hF']
    apply ext_keys
    · intro k; rfl
    · intro k; rfl
    · intro k
      by_cases hk : k = k0
      · subst hk
        simp [hM, putListAt]
      · simp [update_of_ne hk, putListAt]

end FlatStore

/-- **Replaying a snapshot rebuilds what it shows.** -/
theorem replay_snapshotRecords {now : Time} {snap : StoreSnapshot} {F : FlatStore}
    (h : snap.Shows now F) (hne : F.NoEmpty) (clock : Nat → Time) :
    (FlatStore.empty.replay clock 0 (snapshotRecords snap)).contents = F.saved now := by
  have hlists : ∀ entry ∈ snap.lists, entry.2 ≠ [] := by
    rintro ⟨k, items⟩ hmem rfl
    exact hne.lists k ((h.lists.2 k []).mp hmem)
  have hfilter : snap.lists.filter (fun entry => entry.2 ≠ []) = snap.lists :=
    List.filter_eq_self.mpr fun entry hmem => by simp [hlists entry hmem]
  have hhashes : ∀ k ps, (k, ps) ∈ snap.hashes → ∃ m, F.hashes k = some m ∧ Lists ps m ∧
      ps ≠ [] := by
    intro k ps hmem
    obtain ⟨m, hm, hps⟩ := h.hashFields k ps hmem
    refine ⟨m, hm, hps, ?_⟩
    rintro rfl
    obtain ⟨f, v, hv⟩ := hne.hashes k m hm
    exact absurd ((hps.2 f v).mpr hv) (by simp)
  have hsets := FlatStore.replay_sets clock h.strings 0 FlatStore.empty
  rw [snapshotRecords, hfilter, List.append_assoc, FlatStore.replay_append,
    FlatStore.replay_append]
  set S := FlatStore.empty.replay clock 0 (snap.strings.map setRecord)
  have hSh : S.hashes = fun _ => none := congrArg Contents.hashes hsets
  have hSl : S.lists = fun _ => none := congrArg Contents.lists hsets
  rw [FlatStore.replay_hashes h.hashKeys hhashes _ S (fun k _ => by rw [hSh]),
    FlatStore.replay_lists h.lists hlists _ _ (fun e _ => by simp only [hSl])]
  apply Contents.ext_keys
  · intro k
    have hss : S.contents.strings k = _ := congrFun (congrArg Contents.strings hsets) k
    change S.contents.strings k = _
    rw [hss]
    simp only [FlatStore.saved]
    cases (F.strings k).filter fun e => !e.expired now <;> rfl
  · intro k
    simp only [FlatStore.contents, FlatStore.saved, hSh]
    split
    · rfl
    · rename_i hk
      refine (Option.eq_none_iff_forall_ne_some.mpr fun m hm => hk ?_).symm
      obtain ⟨ps, hps⟩ := h.hashAll k m hm
      exact List.mem_map.mpr ⟨_, hps, rfl⟩
  · intro k
    simp only [FlatStore.contents, FlatStore.saved, hSl]
    cases F.lists k <;> rfl

end KeyValueDb
