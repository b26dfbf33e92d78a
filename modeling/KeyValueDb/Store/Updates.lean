/-
# Updates

What a write command does to the store are updates, each under the lock of one shard and about
one key.  What they make of the values (`cells`, the string, the hash and the list of every
key) depends on the key's own cell alone, so updates of different keys commute, and which
updates of one key do not is a small table (`Conflicts`).
-/
import KeyValueDb.Aof.Replay
import KeyValueDb.Lib.Reorder

namespace KeyValueDb

open Lib Function

/-! ## 1. The values under a key -/

/-- What the three maps hold under one key. -/
@[ext] structure Cell where
  string : Option Bytes
  hash : Option (Bytes → Option Bytes)
  list : Option (List Bytes)

namespace FlatStore

def cells (F : FlatStore) : Bytes → Cell := fun key =>
  ⟨(F.strings key).map StoreEntry.value, F.hashes key, F.lists key⟩

theorem values_eq_iff {F G : FlatStore} : F.values = G.values ↔ F.cells = G.cells := by
  constructor
  · intro h
    funext key
    exact Cell.ext (congrFun (congrArg Contents.strings h) key)
      (congrFun (congrArg Contents.hashes h) key) (congrFun (congrArg Contents.lists h) key)
  · intro h
    exact Contents.ext_keys (fun key => congrArg Cell.string (congrFun h key))
      (fun key => congrArg Cell.hash (congrFun h key))
      fun key => congrArg Cell.list (congrFun h key)

/-- Two stores with the same cells but for one key. -/
theorem cells_eq_changeAt {F G : FlatStore} {key : Bytes} {g : Cell → Cell}
    (hkey : G.cells key = g (F.cells key)) (h : ∀ k, k ≠ key → G.cells k = F.cells k) :
    G.cells = changeAt key g F.cells := by
  funext k
  by_cases hk : k = key
  · subst hk
    rw [changeAt_self, hkey]
  · rw [changeAt_of_ne hk, h k hk]

end FlatStore

/-! ## 2. Updates -/

/-- A call of the store that a write command makes. -/
inductive Update
  | set (key value : Bytes)
  | del (key : Bytes)
  | hset (key field value : Bytes)
  | hdel (key field : Bytes)
  | lpush (key value : Bytes)
  | rpush (key value : Bytes)
  deriving DecidableEq

namespace Update

def key : Update → Bytes
  | .set k _ | .del k | .hset k _ _ | .hdel k _ | .lpush k _ | .rpush k _ => k

/-- The call. -/
def run (hash : Bytes → Nat) (now : Time) (s : KeyValueStore) :
    Update → CallResult × KeyValueStore
  | .set k v => (.unit, s.set hash now k v none)
  | .del k => (.bool (s.del hash k).1, (s.del hash k).2)
  | .hset k f v => (.bool (s.hset hash k f v).1, (s.hset hash k f v).2)
  | .hdel k f => (.bool (s.hdel hash k f).1, (s.hdel hash k f).2)
  | .lpush k v => (.size (s.lpush hash k v).1, (s.lpush hash k v).2)
  | .rpush k v => (.size (s.rpush hash k v).1, (s.rpush hash k v).2)

open Classical in
/-- Remove a field; a hash that has no field left goes with it. -/
noncomputable def without (field : Bytes) (fields : Bytes → Option Bytes) :
    Option (Bytes → Option Bytes) :=
  if ∀ g, update fields field none g = none then none else some (update fields field none)

/-- What it makes of the cell of its key. -/
noncomputable def onCell : Update → Cell → Cell
  | .set _ v, c => { c with string := some v }
  | .del _, _ => ⟨none, none, none⟩
  | .hset _ f v, c => { c with hash := some (update (c.hash.getD fun _ => none) f (some v)) }
  | .hdel _ f, c => { c with hash := c.hash.bind (without f) }
  | .lpush _ v, c => { c with list := some (v :: c.list.getD []) }
  | .rpush _ v, c => { c with list := some (c.list.getD [] ++ [v]) }

/-- What it makes of all cells. -/
noncomputable def onCells (C : Bytes → Cell) (u : Update) : Bytes → Cell :=
  changeAt u.key u.onCell C

variable {hash : Bytes → Nat} {now : Time} {s : KeyValueStore} {u : Update}

/-- It is one of the calls of the store. -/
theorem run_eq_call (hash : Bytes → Nat) (now : Time) (s : KeyValueStore) (order : IterOrder)
    (u : Update) :
    ∃ c : Call, u.run hash now s = s.call hash order now c := by
  cases u with
  | set k v => exact ⟨.set k v none, rfl⟩
  | del k => exact ⟨.del k, rfl⟩
  | hset k f v => exact ⟨.hset k f v, rfl⟩
  | hdel k f => exact ⟨.hdel k f, rfl⟩
  | lpush k v => exact ⟨.lpush k v, rfl⟩
  | rpush k v => exact ⟨.rpush k v, rfl⟩

/-- The reference store. -/
noncomputable def onFlat (now : Time) (F : FlatStore) : Update → FlatStore
  | .set k v => F.set now k v none
  | .del k => F.erase k
  | .hset k f v => (F.hset k f v).2
  | .hdel k f => (F.hdel k f).2
  | .lpush k v => (F.lpush k v).2
  | .rpush k v => (F.rpush k v).2

theorem view_run (u : Update) : (u.run hash now s).2.view hash = u.onFlat now (s.view hash) := by
  cases u with
  | set k v => exact s.view_set hash now k v none
  | del k => exact congrArg Prod.snd (s.view_del hash k)
  | hset k f v => exact congrArg Prod.snd (s.view_hset hash k f v)
  | hdel k f => exact congrArg Prod.snd (s.view_hdel hash k f)
  | lpush k v => exact congrArg Prod.snd (s.view_lpush hash k v)
  | rpush k v => exact congrArg Prod.snd (s.view_rpush hash k v)

theorem cells_onFlat (now : Time) (u : Update) (F : FlatStore) :
    (u.onFlat now F).cells = u.onCells F.cells := by
  refine FlatStore.cells_eq_changeAt ?_ fun k hk => ?_
  · cases u with
    | set k v => simp [onFlat, onCell, key, FlatStore.cells, FlatStore.set, FlatStore.putString]
    | del k => simp [onFlat, onCell, key, FlatStore.cells, FlatStore.erase]
    | hset k f v =>
      simp [onFlat, onCell, key, FlatStore.cells, FlatStore.hset, FlatStore.putHash,
        FlatStore.fieldsOf]
    | hdel k f =>
      simp only [onFlat, onCell, key, FlatStore.cells, FlatStore.hdel]
      cases hF : F.hashes k <;> simp [FlatStore.putHash, hF, without]
    | lpush k v =>
      simp [onFlat, onCell, key, FlatStore.cells, FlatStore.lpush, FlatStore.putList,
        FlatStore.putListAt, FlatStore.elemsOf]
    | rpush k v =>
      simp [onFlat, onCell, key, FlatStore.cells, FlatStore.rpush, FlatStore.putList,
        FlatStore.putListAt, FlatStore.elemsOf]
  · cases u with
    | hdel k f =>
      simp only [onFlat, FlatStore.cells, FlatStore.hdel]
      cases hF : F.hashes k <;> simp_all [FlatStore.putHash, key]
    | _ =>
      simp_all [onFlat, key, FlatStore.cells, FlatStore.set, FlatStore.putString,
        FlatStore.erase, FlatStore.hset, FlatStore.putHash, FlatStore.lpush, FlatStore.rpush,
        FlatStore.putList, FlatStore.putListAt]

/-- **What a call makes of the values.** -/
theorem cells_run (u : Update) :
    ((u.run hash now s).2.view hash).cells = u.onCells (s.view hash).cells := by
  rw [view_run, cells_onFlat]

/-! ## 3. Which of them commute -/

/-- The two in one order leave other values than in the other. -/
def conflicts : Update → Update → Bool
  | .set k v, .set k' v' => k = k' ∧ v ≠ v'
  | .hset k f v, .hset k' f' v' => k = k' ∧ f = f' ∧ v ≠ v'
  | .lpush k v, .lpush k' v' | .rpush k v, .rpush k' v' => k = k' ∧ v ≠ v'
  | .hset k f _, .hdel k' f' | .hdel k f, .hset k' f' _ => k = k' ∧ f = f'
  | .del k, .set k' _ | .set k _, .del k' | .del k, .hset k' _ _ | .hset k _ _, .del k'
  | .del k, .lpush k' _ | .lpush k _, .del k' | .del k, .rpush k' _ | .rpush k _, .del k' =>
    k = k'
  | _, _ => false

section Hash

variable {m : Bytes → Option Bytes} {f f' : Bytes} {o o' : Option Bytes}

open Classical in
/-- A hash by its fields; without fields there is none. -/
noncomputable def ofFields (m : Bytes → Option Bytes) : Option (Bytes → Option Bytes) :=
  if ∀ g, m g = none then none else some m

theorem getD_ofFields (m : Bytes → Option Bytes) : ((ofFields m).getD fun _ => none) = m := by
  unfold ofFields
  split
  · rename_i h
    exact (funext h).symm
  · rfl

theorem ofFields_some (f v : Bytes) (m : Bytes → Option Bytes) :
    ofFields (update m f (some v)) = some (update m f (some v)) := by
  refine if_neg fun h => ?_
  have hf := h f
  rw [update_self] at hf
  cases hf

theorem bind_without (h : Option (Bytes → Option Bytes)) (f : Bytes) :
    h.bind (without f) = ofFields (update (h.getD fun _ => none) f none) := by
  cases h with
  | some m => rfl
  | none => simp [ofFields]

/-- `hset` and `hdel` give a field a value, or none. -/
theorem onCell_hset (k f v : Bytes) (c : Cell) : (Update.hset k f v).onCell c =
    { c with hash := ofFields (update (c.hash.getD fun _ => none) f (some v)) } := by
  rw [ofFields_some]
  rfl

theorem onCell_hdel (k f : Bytes) (c : Cell) : (Update.hdel k f).onCell c =
    { c with hash := ofFields (update (c.hash.getD fun _ => none) f none) } := by
  rw [← bind_without]
  rfl

end Hash

theorem key_of_conflicts {u v : Update} (h : u.conflicts v = true) : u.key = v.key := by
  cases u <;> cases v <;> simp_all [conflicts, key]

theorem commutes_iff_onCell {u v : Update} (h : u.key = v.key) :
    Commutes onCells u v ↔ ∀ c, v.onCell (u.onCell c) = u.onCell (v.onCell c) := by
  constructor
  · intro hcomm c
    have hk := congrFun (hcomm fun _ => c) u.key
    simp only [onCells, ← h, changeAt_self] at hk
    exact hk
  · intro hcell C
    simp only [onCells, ← h, changeAt_changeAt]
    congr 1
    exact funext hcell

/-- Giving fields values one after the other. -/
theorem ofFields_update_comm {m : Bytes → Option Bytes} {f f' : Bytes} {o o' : Option Bytes}
    (h : f = f' → o = o') :
    ofFields (update ((ofFields (update m f o)).getD fun _ => none) f' o') =
      ofFields (update ((ofFields (update m f' o')).getD fun _ => none) f o) := by
  rw [getD_ofFields, getD_ofFields]
  by_cases hf : f = f'
  · rw [hf, h hf]
  · rw [update_comm hf]

theorem ofFields_update_ne {m : Bytes → Option Bytes} {f : Bytes} {o o' : Option Bytes}
    (h : o ≠ o') :
    ofFields (update ((ofFields (update m f o)).getD fun _ => none) f o') ≠
      ofFields (update ((ofFields (update m f o')).getD fun _ => none) f o) := by
  rw [getD_ofFields, getD_ofFields, update_idem, update_idem]
  intro heq
  have hm := congrArg (fun h : Option (Bytes → Option Bytes) => h.getD fun _ => none) heq
  simp only [getD_ofFields] at hm
  have hf := congrFun hm f
  rw [update_self, update_self] at hf
  exact h hf.symm

theorem onCell_comm {u v : Update} (hkey : u.key = v.key) (h : u.conflicts v = false) (c : Cell) :
    v.onCell (u.onCell c) = u.onCell (v.onCell c) := by
  cases u <;> cases v
  case hset.hset k f x k' f' y =>
    have hxy : f = f' → some x = some y := by
      intro hf
      simpa [conflicts, show k = k' from hkey, hf] using h
    simp only [onCell_hset]
    rw [ofFields_update_comm hxy]
  case hset.hdel k f x k' f' =>
    have hf : f = f' → some x = none := fun hf => by
      simp [conflicts, show k = k' from hkey, hf] at h
    simp only [onCell_hset, onCell_hdel]
    rw [ofFields_update_comm hf]
  case hdel.hset k f k' f' y =>
    have hf : f = f' → none = some y := fun hf => by
      simp [conflicts, show k = k' from hkey, hf] at h
    simp only [onCell_hset, onCell_hdel]
    rw [ofFields_update_comm hf]
  case hdel.hdel =>
    simp only [onCell_hdel]
    rw [ofFields_update_comm fun _ => rfl]
  all_goals first
    | rfl
    | simp_all [conflicts, key, onCell]

theorem onCell_ne {u v : Update} (h : u.conflicts v = true) :
    ∃ c, v.onCell (u.onCell c) ≠ u.onCell (v.onCell c) := by
  refine ⟨⟨none, none, none⟩, ?_⟩
  cases u <;> cases v
  case hset.hset k f x k' f' y =>
    obtain ⟨-, rfl, hxy⟩ : k = k' ∧ f = f' ∧ x ≠ y := by simpa [conflicts] using h
    simp only [onCell_hset]
    exact fun heq => ofFields_update_ne (by simpa using hxy) (congrArg Cell.hash heq)
  case hset.hdel k f x k' f' =>
    obtain ⟨-, rfl⟩ : k = k' ∧ f = f' := by simpa [conflicts] using h
    simp only [onCell_hset, onCell_hdel]
    exact fun heq => ofFields_update_ne (by simp) (congrArg Cell.hash heq)
  case hdel.hset k f k' f' y =>
    obtain ⟨-, rfl⟩ : k = k' ∧ f = f' := by simpa [conflicts] using h
    simp only [onCell_hset, onCell_hdel]
    exact fun heq => ofFields_update_ne (by simp) (congrArg Cell.hash heq)
  case set.set k x k' y =>
    obtain ⟨-, hxy⟩ : k = k' ∧ x ≠ y := by simpa [conflicts] using h
    simpa [onCell] using Ne.symm hxy
  all_goals simp_all [conflicts, onCell]

/-- **Which updates commute.** -/
theorem commutes_iff {u v : Update} : Commutes onCells u v ↔ u.conflicts v = false := by
  constructor
  · intro hcomm
    by_contra h
    rw [Bool.not_eq_false] at h
    obtain ⟨c, hc⟩ := onCell_ne h
    exact hc ((commutes_iff_onCell (key_of_conflicts h)).mp hcomm c)
  · intro h
    by_cases hkey : u.key = v.key
    · exact (commutes_iff_onCell hkey).mpr (onCell_comm hkey h)
    · exact fun C => changeAt_comm_of_ne (Ne.symm hkey)

/-! ## 4. Updates twice and updates elsewhere -/

def isPush : Update → Bool
  | .lpush .. | .rpush .. => true
  | _ => false

section Cells

variable {C D : Bytes → Cell} {u : Update} {us : List Update} {k : Bytes}

/-- Only a push does something when it is made a second time. -/
theorem onCells_onCells (h : u.isPush = false) (C : Bytes → Cell) :
    onCells (onCells C u) u = onCells C u := by
  have hcell : ∀ c, u.onCell (u.onCell c) = u.onCell c := by
    intro c
    cases u with
    | set | del => rfl
    | hset k f v => simp only [onCell_hset, getD_ofFields, update_idem]
    | hdel k f => simp only [onCell_hdel, getD_ofFields, update_idem]
    | lpush | rpush => cases h
  rw [onCells, onCells, changeAt_changeAt]
  congr 1
  exact funext hcell

theorem foldl_onCells_congr (us : List Update) (h : C k = D k) :
    us.foldl onCells C k = us.foldl onCells D k := by
  induction us generalizing C D with
  | nil => exact h
  | cons u us ih => exact ih (changeAt_congr h)

theorem foldl_onCells_of_ne (h : ∀ u ∈ us, u.key ≠ k) : us.foldl onCells C k = C k := by
  induction us generalizing C with
  | nil => rfl
  | cons u us ih =>
    have hu : onCells C u k = C k := changeAt_of_ne (Ne.symm (h u List.mem_cons_self))
    exact (ih fun v hv => h v (List.mem_cons_of_mem u hv)).trans hu

end Cells

end Update

end KeyValueDb
