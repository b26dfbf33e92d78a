/-
# Replaying on the reference store

The loader dispatches records to a sharded store; on the reference store the same record is
an operation on one key, or on the keys of a list one after the other.  `view_dispatch` is
that correspondence, and `view_replay` carries it to whole logs.
-/
import KeyValueDb.Aof.Loader
import KeyValueDb.Store.Contents

namespace KeyValueDb

open Lib

variable {hash : Bytes → Nat}

namespace FlatStore

/-- Push the items at the front, one after the other. -/
def lpushAll (key : Bytes) (items : List Bytes) (F : FlatStore) : FlatStore :=
  items.foldl (fun F item => (F.lpush key item).2) F

/-- Push the items at the back, one after the other. -/
def rpushAll (key : Bytes) (items : List Bytes) (F : FlatStore) : FlatStore :=
  items.foldl (fun F item => (F.rpush key item).2) F

/-- Erase the keys one after the other. -/
def eraseAll (keys : List Bytes) (F : FlatStore) : FlatStore :=
  keys.foldl (fun F key => F.erase key) F

/-- What the loader does with a record. -/
noncomputable def dispatch (now : Time) (tokens : List Bytes) (F : FlatStore) : FlatStore :=
  match tokens with
  | [] => F
  | cmd :: args =>
    match Verb.ofWord cmd, args with
    | some (.store .set), key :: value :: _ => F.set now key value none
    | some (.store .del), key :: keys => F.eraseAll (key :: keys)
    | some (.store .expire), key :: seconds :: _ =>
      ((stoll seconds).map fun sec => (F.expire now key sec).2).getD F
    | some (.store .hset), key :: field :: value :: _ => (F.hset key field value).2
    | some (.store .hdel), key :: field :: _ => (F.hdel key field).2
    | some (.store .lpush), key :: item :: items => F.lpushAll key (item :: items)
    | some (.store .rpush), key :: item :: items => F.rpushAll key (item :: items)
    | some (.store .flushdb), _ => FlatStore.empty
    | _, _ => F

theorem dispatch_expire (now : Time) (key : Bytes) {seconds : Bytes} {sec : Int}
    (h : stoll seconds = some sec) (F : FlatStore) :
    F.dispatch now [bytes "EXPIRE", key, seconds] = (F.expire now key sec).2 := by
  change ((stoll seconds).map fun sec => (F.expire now key sec).2).getD F = _
  rw [h, Option.map_some, Option.getD_some]

/-- What the loader does with a log. -/
noncomputable def replay (clock : Nat → Time) : Nat → List (List Bytes) → FlatStore → FlatStore
  | _, [], F => F
  | i, tokens :: records, F => replay clock (i + 1) records (F.dispatch (clock i) tokens)

@[simp] theorem replay_nil (clock : Nat → Time) (i : Nat) (F : FlatStore) :
    F.replay clock i [] = F := rfl

theorem replay_append (clock : Nat → Time) (i : Nat) (rs rs' : List (List Bytes))
    (F : FlatStore) : F.replay clock i (rs ++ rs') =
      (F.replay clock i rs).replay clock (i + rs.length) rs' := by
  induction rs generalizing i F with
  | nil => rfl
  | cons r rs ih =>
    simp only [List.cons_append, replay, List.length_cons, ih]
    rw [Nat.add_right_comm, Nat.add_assoc]

end FlatStore

/-- A loop of store operations, seen through the view. -/
theorem view_foldl {α : Type} {op : KeyValueStore → α → KeyValueStore}
    {fop : FlatStore → α → FlatStore} (h : ∀ s x, (op s x).view hash = fop (s.view hash) x)
    (xs : List α) (s : KeyValueStore) :
    (xs.foldl op s).view hash = xs.foldl fop (s.view hash) :=
  (List.foldl_hom (KeyValueStore.view hash) fun s x => (h s x).symm).symm

section Parts

variable (s : KeyValueStore)

theorem view_lpushAll (key : Bytes) (items : List Bytes) :
    (items.foldl (fun store item => (store.lpush hash key item).2) s).view hash =
      (s.view hash).lpushAll key items :=
  view_foldl (fun s x => congrArg Prod.snd (s.view_lpush hash key x)) items s

theorem view_rpushAll (key : Bytes) (items : List Bytes) :
    (items.foldl (fun store item => (store.rpush hash key item).2) s).view hash =
      (s.view hash).rpushAll key items :=
  view_foldl (fun s x => congrArg Prod.snd (s.view_rpush hash key x)) items s

theorem view_eraseAll (keys : List Bytes) :
    (keys.foldl (fun store key => (store.del hash key).2) s).view hash =
      (s.view hash).eraseAll keys :=
  view_foldl (fun s x => congrArg Prod.snd (s.view_del hash x)) keys s

end Parts

/-- **One record.** -/
theorem view_dispatch (now : Time) (tokens : List Bytes) (s : KeyValueStore) :
    ((dispatch hash now tokens s).getD s).view hash = (s.view hash).dispatch now tokens := by
  unfold dispatch
  split
  · rfl
  · split
    all_goals simp only [FlatStore.dispatch, *]
    · exact s.view_set hash now _ _ none
    · exact view_eraseAll s _
    · rename_i key seconds _ _
      cases stoll seconds with
      | none => rfl
      | some sec => exact congrArg Prod.snd (s.view_expire hash now key sec)
    · exact congrArg Prod.snd (s.view_hset hash _ _ _)
    · exact congrArg Prod.snd (s.view_hdel hash _ _)
    · exact view_lpushAll s _ _
    · exact view_rpushAll s _ _
    · rfl
    · rfl

theorem view_replayRecord (now : Time) (tokens : List Bytes) (acc : Nat × KeyValueStore) :
    (replayRecord hash now tokens acc).2.view hash =
      (acc.2.view hash).dispatch now tokens := by
  rw [← view_dispatch]
  unfold replayRecord
  cases dispatch hash now tokens acc.2 <;> rfl

/-- **A whole log.** -/
theorem view_replay (clock : Nat → Time) (i : Nat) (records : List (List Bytes))
    (acc : Nat × KeyValueStore) :
    (replay hash clock i records acc).2.view hash =
      (acc.2.view hash).replay clock i records := by
  induction records generalizing i acc with
  | nil => rfl
  | cons r rs ih => rw [replay, ih, view_replayRecord, FlatStore.replay]

end KeyValueDb
