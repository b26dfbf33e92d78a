/-
# A record as the calls it replays

What the loader does with a record, as a list of calls of the store, the counterpart of
`Command.plan`.  What every call keeps, the replay of a whole log keeps (`replay_induction`).
-/
import KeyValueDb.Aof.Replay
import KeyValueDb.Store.Texts

namespace KeyValueDb

open Lib

/-- The calls that the loader makes for a record. -/
def recordCalls (tokens : List Bytes) : List Call :=
  match tokens with
  | [] => []
  | cmd :: args =>
    match Verb.ofWord cmd, args with
    | some (.store .set), key :: value :: _ => [.set key value none]
    | some (.store .del), key :: keys => (key :: keys).map .del
    | some (.store .expire), key :: seconds :: _ =>
      match stoll seconds with
      | none => []
      | some sec => [.expire key sec]
    | some (.store .hset), key :: field :: value :: _ => [.hset key field value]
    | some (.store .hdel), key :: field :: _ => [.hdel key field]
    | some (.store .lpush), key :: item :: items => (item :: items).map (.lpush key)
    | some (.store .rpush), key :: item :: items => (item :: items).map (.rpush key)
    | some (.store .flushdb), _ => [.clear]
    | _, _ => []

namespace FlatStore

/-- Calls made one after the other at one instant, for what they leave. -/
noncomputable def makeCalls (now : Time) (calls : List Call) (F : FlatStore) : FlatStore :=
  calls.foldl (fun F c => (F.call now c).2) F

/-- **A record is its calls.** -/
theorem dispatch_eq_makeCalls (now : Time) (tokens : List Bytes) (F : FlatStore) :
    F.dispatch now tokens = F.makeCalls now (recordCalls tokens) := by
  unfold recordCalls
  split
  · rfl
  · split
    all_goals simp only [FlatStore.dispatch, makeCalls, *]
    · rfl
    · rw [List.foldl_map]
      rfl
    · rename_i key seconds _ _
      cases stoll seconds <;> rfl
    · rfl
    · rfl
    · rw [List.foldl_map]
      rfl
    · rw [List.foldl_map]
      rfl
    · rfl
    · rfl

variable {F : FlatStore} {tokens : List Bytes}

/-- A record makes calls about its tokens. -/
theorem texts_of_mem_recordCalls {c : Call} (hc : c ∈ recordCalls tokens) :
    ∀ t ∈ c.texts, t ∈ tokens := by
  unfold recordCalls at hc
  split at hc
  · exact absurd hc List.not_mem_nil
  · split at hc
    · obtain rfl := List.mem_singleton.mp hc
      simp [Call.texts]
    · obtain ⟨key, hkey, rfl⟩ := List.mem_map.mp hc
      simpa [Call.texts] using Or.inr (List.mem_cons.mp hkey)
    · split at hc
      · exact absurd hc List.not_mem_nil
      · obtain rfl := List.mem_singleton.mp hc
        simp [Call.texts]
    · obtain rfl := List.mem_singleton.mp hc
      simp [Call.texts]
    · obtain rfl := List.mem_singleton.mp hc
      simp [Call.texts]
    · obtain ⟨item, hitem, rfl⟩ := List.mem_map.mp hc
      exact List.forall_mem_cons.mpr ⟨by simp, List.forall_mem_singleton.mpr
        (List.mem_cons_of_mem _ (List.mem_cons_of_mem _ hitem))⟩
    · obtain ⟨item, hitem, rfl⟩ := List.mem_map.mp hc
      exact List.forall_mem_cons.mpr ⟨by simp, List.forall_mem_singleton.mpr
        (List.mem_cons_of_mem _ (List.mem_cons_of_mem _ hitem))⟩
    · obtain rfl := List.mem_singleton.mp hc
      simp [Call.texts]
    · exact absurd hc List.not_mem_nil

/-- **What every call of a log keeps, the replay of the log keeps.** -/
theorem replay_induction {I : FlatStore → Prop} {clock : Nat → Time}
    {records : List (List Bytes)}
    (hcall : ∀ r ∈ records, ∀ c ∈ recordCalls r, ∀ F now, I F → I (F.call now c).2)
    (h : I F) (i : Nat) : I (F.replay clock i records) := by
  induction records generalizing F i with
  | nil => exact h
  | cons r rs ih =>
    refine ih (fun r' hr' => hcall r' (List.mem_cons_of_mem r hr')) ?_ (i + 1)
    rw [dispatch_eq_makeCalls, makeCalls]
    have hr := hcall r List.mem_cons_self
    generalize recordCalls r = calls at hr
    induction calls generalizing F with
    | nil => exact h
    | cons c cs ih' =>
      exact ih' (hr c List.mem_cons_self F _ h) fun d hd => hr d (List.mem_cons_of_mem c hd)

/-- The texts of a log. -/
theorem AllTexts.replay {P : Bytes → Prop} (h : F.AllTexts P) (hdecimal : ∀ n, P (stdToString n))
    {records : List (List Bytes)} (hrecords : ∀ r ∈ records, ∀ t ∈ r, P t) (clock : Nat → Time)
    (i : Nat) : (F.replay clock i records).AllTexts P :=
  replay_induction (fun r hr _ hc _ _ hF =>
    hF.call hdecimal fun t ht => hrecords r hr t (texts_of_mem_recordCalls hc t ht)) h i

end FlatStore

end KeyValueDb
