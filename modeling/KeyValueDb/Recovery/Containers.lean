/-
# No empty containers

A field or an element is stored by `operator[]`, which makes an empty map or deque first, and
`hdel`, `lpop` and `rpop` take the container away with the last thing in it.  So in every store
that a server can come to, whatever its clients send and whatever file it loads, a hash has a
field and a list an element (`no_empty_containers`), and `exists` agrees with the lengths.
-/
import KeyValueDb.Command.Run
import KeyValueDb.Store.KeyCount

namespace KeyValueDb

open Lib Function

/-! ## 1. The steps of a server -/

/-- What can change the store: a request of a client, the replay of any file whose records have
their tokens, and the two passes of the janitor. -/
inductive ServerStep (ctx : ServerCtx) (db : Db) : Db → Prop
  | request (env : Env) (rawCommand : Bytes) (isAuthenticated : Bool) :
    ServerStep ctx db (execute ctx env rawCommand db isAuthenticated).db
  | replay (lim : Limits) (clock : Nat → Time) (aof : AofManager) {r : Nat × KeyValueStore}
      (h : aof.loadIntoStore lim ctx.hash clock db.store = some r) :
    ServerStep ctx db { db with store := r.2 }
  | purge (order : IterOrder) (now : Time) (maxKeysPerShard : Nat) :
    ServerStep ctx db { db with store := (db.store.purgeExpiredKeys order now maxKeysPerShard).2 }
  | evict (order : IterOrder) (sorter : SortOrder) (keysToEvict : Nat) :
    ServerStep ctx db { db with store := (db.store.evictLruKeys order sorter keysToEvict).2 }

variable {ctx : ServerCtx} {db db' : Db} {hash : Bytes → Nat} {s : KeyValueStore}

/-- **One step.** -/
theorem Reachable.serverStep (h : Reachable ctx.hash db.store) (hstep : ServerStep ctx db db') :
    Reachable ctx.hash db'.store := by
  cases hstep with
  | request env rawCommand isAuthenticated => exact h.execute env rawCommand isAuthenticated
  | replay lim clock aof hload => exact h.loadIntoStore hload
  | purge order now n => exact h.purge order now n
  | evict order sorter n => exact h.evict order sorter n

/-- **Any run.** -/
theorem reachable_of_run {start : Db} (hstart : start.store = .empty)
    (hrun : Relation.ReflTransGen (ServerStep ctx) start db) : Reachable ctx.hash db.store := by
  induction hrun with
  | refl =>
    rw [hstart]
    exact Reachable.empty
  | tail _ hstep ih => exact ih.serverStep hstep

/-! ## 2. The containers of a store -/

/-- No key of any shard holds an empty hash or list. -/
structure KeyValueStore.NoEmptyContainers (s : KeyValueStore) : Prop where
  hashes : ∀ i key fields, (s.shards i).hashMap.lookup key = some fields → fields.entries ≠ []
  lists : ∀ i key list, (s.shards i).listMap.lookup key = some list → list ≠ []

/-- The keys of a shard are keys of the view. -/
theorem noEmptyContainers_of_view (hplaced : WellPlaced hash s) (h : (s.view hash).NoEmpty) :
    s.NoEmptyContainers where
  hashes i key fields hlookup hnil := by
    have hi : getShardIndex hash key = i :=
      hplaced.hashes i key (AList.lookup_isSome.mp (Option.isSome_of_mem hlookup))
    subst hi
    have hview : (s.view hash).hashes key = some (fieldFun fields) := by
      rw [s.view_hashes, KeyValueStore.getShard, hlookup, Option.map_some]
    obtain ⟨f, v, hf⟩ := h.hashes key _ hview
    rw [(entries_eq_nil_iff fields).mp hnil f] at hf
    cases hf
  lists i key list hlookup hnil := by
    have hi : getShardIndex hash key = i :=
      hplaced.lists i key (AList.lookup_isSome.mp (Option.isSome_of_mem hlookup))
    subst hi
    refine h.lists key ?_
    rw [s.view_lists, KeyValueStore.getShard, hlookup, hnil]

theorem hlen_pos_iff (h : s.NoEmptyContainers) (key : Bytes) :
    0 < s.hlen hash key ↔ ((s.view hash).hashes key).isSome := by
  rw [s.view_hashes, Option.isSome_map, KeyValueStore.hlen, StoreShard.hlen]
  cases hfields : (s.getShard hash key).hashMap.lookup key with
  | none => exact iff_of_false (Nat.lt_irrefl 0) Bool.false_ne_true
  | some fields => exact iff_of_true (List.length_pos_iff.mpr (h.hashes _ key fields hfields)) rfl

theorem llen_pos_iff (h : s.NoEmptyContainers) (key : Bytes) :
    0 < s.llen hash key ↔ ((s.view hash).lists key).isSome := by
  rw [s.view_lists, KeyValueStore.llen, StoreShard.llen]
  cases hlist : (s.getShard hash key).listMap.lookup key with
  | none => exact iff_of_false (Nat.lt_irrefl 0) Bool.false_ne_true
  | some list => exact iff_of_true (List.length_pos_iff.mpr (h.lists _ key list hlist)) rfl

/-- **No empty containers** after any run of a server that starts with an empty store; so a key
without a string that is alive exists exactly when it has a field or an element. -/
theorem no_empty_containers (ctx : ServerCtx) (start db : Db) (hstart : start.store = .empty)
    (hrun : Relation.ReflTransGen (ServerStep ctx) start db) :
    db.store.NoEmptyContainers ∧
      ∀ now key, ¬ (db.store.view ctx.hash).fresh now key →
        (db.store.exists ctx.hash now key = true ↔
          0 < db.store.hlen ctx.hash key ∨ 0 < db.store.llen ctx.hash key) := by
  have hreach := reachable_of_run hstart hrun
  have hcontainers := noEmptyContainers_of_view hreach.wellPlaced hreach.noEmpty
  refine ⟨hcontainers, fun now key hnot => ?_⟩
  rw [exists_iff, or_iff_right hnot, hlen_pos_iff hcontainers, llen_pos_iff hcontainers]

/-- A hash from a file, and its only field removed by a client. -/
theorem no_empty_containers_removed :
    let ctx : ServerCtx := ⟨List.length, [], 8080, 4⟩
    let env : Env := ⟨0, .plain, .success⟩
    let start : Db := .fresh ⟨0, 0, 0, 0, 0, 0, 0, 0⟩
    let loaded : Db := { start with
      store := (start.store.hset ctx.hash (bytes "h") (bytes "f") (bytes "v")).2 }
    (execute ctx env (bytes "HDEL h f\n") loaded true).db.store.NoEmptyContainers := by
  intro ctx env start loaded
  have hload : ServerStep ctx start loaded :=
    .replay ⟨8, 8, by decide, by decide⟩ (fun _ => 0)
      ⟨true, true, ⟨some (encodeRecord [bytes "HSET", bytes "h", bytes "f", bytes "v"]), none⟩⟩
      (r := (1, loaded.store)) rfl
  exact (no_empty_containers ctx start _ rfl
    ((Relation.ReflTransGen.single hload).tail (.request env _ true))).1

end KeyValueDb
