/-
# AofManager::rewrite

The image of the store goes to a temporary file, which then replaces the log; where the rename
fails, the log is removed and the rename tried again.  Every step can fail: the outcomes are
`RewriteIo`, and `rewrite` is the function under given outcomes.  The process can also stop
between two steps: `RewriteStep` takes them one at a time, each state with the files as they
are on the disk, and run to its end it is `rewrite` (`run_eq_rewrite`).

When every step succeeds, loading the file gives back what the snapshot keeps of the store
(`compaction_round_trip`).
-/
import KeyValueDb.Aof.Image

namespace KeyValueDb

open Lib

/-! ## 1. The function -/

/-- The outcomes of the steps of `rewrite`; `written` is the number of bytes of the image that
reach the temporary file, `none` when all of them do. -/
structure RewriteIo where
  opens : Bool
  written : Option Nat
  renames : Bool
  removes : Bool
  renamesAgain : Bool
  reopens : Bool

/-- Every step succeeds. -/
def RewriteIo.success : RewriteIo := ⟨true, none, true, true, true, true⟩

/-- What reaches the temporary file. -/
def RewriteIo.write (io : RewriteIo) (image : Bytes) : Bytes :=
  image.take (io.written.getD image.length)

namespace Disk

/-- `rename(tmp_filename, filename_)`, when it succeeds. -/
def rename (disk : Disk) : Disk := ⟨disk.tmp, none⟩

/-- `remove(filename_)`, when it succeeds. -/
def remove (disk : Disk) : Disk := { disk with log := none }

/-- Opening for appending creates the file. -/
def create (disk : Disk) : Disk := { disk with log := some (disk.log.getD []) }

end Disk

/-- `rewrite` on an image: what it returns, and the manager it leaves. -/
def AofManager.rewriteTo (io : RewriteIo) (image : Bytes) (aof : AofManager) :
    Bool × AofManager :=
  if aof.enabled = false then (false, aof)
  else if io.opens = false then (false, aof)
  else
    let disk : Disk := ⟨aof.disk.log, some (io.write image)⟩
    let replaced : Bool × Disk :=
      if io.renames then (true, disk.rename)
      else
        let disk := if io.removes then disk.remove else disk
        if io.renamesAgain then (true, disk.rename) else (false, disk)
    (replaced.1,
      { aof with
        isOpen := io.reopens
        disk := if io.reopens then replaced.2.create else replaced.2 })

def AofManager.rewrite (io : RewriteIo) (order : IterOrder) (now : Time) (store : KeyValueStore)
    (aof : AofManager) : Bool × AofManager :=
  aof.rewriteTo io (rewriteImage (store.getSnapshot order now))

/-! ## 2. The function step by step -/

/-- Where `rewrite` is; `ec` is whether the last rename failed. -/
inductive RewritePc
  | openTmp | write | rename | remove | renameAgain
  | reopen (ec : Bool)
  | done (ret : Bool)
  deriving DecidableEq

structure RewriteState where
  pc : RewritePc
  aof : AofManager

namespace RewriteState

variable (io : RewriteIo) (image : Bytes)

def start (aof : AofManager) : RewriteState :=
  ⟨if aof.enabled then .openTmp else .done false, aof⟩

def setDisk (pc : RewritePc) (disk : Disk) (st : RewriteState) : RewriteState :=
  ⟨pc, { st.aof with disk := disk }⟩

def step (st : RewriteState) : RewriteState :=
  let disk := st.aof.disk
  match st.pc with
  | .openTmp =>
    if io.opens then st.setDisk .write ⟨disk.log, some []⟩ else { st with pc := .done false }
  | .write =>
    ⟨.rename, { st.aof with isOpen := false, disk := ⟨disk.log, some (io.write image)⟩ }⟩
  | .rename =>
    if io.renames then st.setDisk (.reopen false) disk.rename else { st with pc := .remove }
  | .remove => st.setDisk .renameAgain (if io.removes then disk.remove else disk)
  | .renameAgain =>
    if io.renamesAgain then st.setDisk (.reopen false) disk.rename
    else { st with pc := .reopen true }
  | .reopen ec =>
    ⟨.done !ec, { st.aof with
      isOpen := io.reopens, disk := if io.reopens then disk.create else disk }⟩
  | .done _ => st

/-- After `n` steps, or at the end if that comes first. -/
def run : Nat → RewriteState → RewriteState
  | 0, st => st
  | n + 1, st => run n (step io image st)

theorem run_done (n : Nat) (ret : Bool) (aof : AofManager) :
    run io image n ⟨.done ret, aof⟩ = ⟨.done ret, aof⟩ := by
  induction n with
  | zero => rfl
  | succ n ih => exact ih

/-- **Run to its end, the steps are the function.** -/
theorem run_eq_rewrite (n : Nat) (aof : AofManager) :
    run io image (n + 6) (start aof) =
      ⟨.done (aof.rewriteTo io image).1, (aof.rewriteTo io image).2⟩ := by
  obtain ⟨enabled, isOpen, log, tmp⟩ := aof
  obtain ⟨opens, written, renames, removes, renamesAgain, reopens⟩ := io
  cases enabled
  · exact run_done ..
  · cases opens
    · exact run_done ..
    · cases renames <;> cases removes <;> cases renamesAgain <;> exact run_done ..

end RewriteState

/-! ## 3. Compaction round trip -/

variable {hash : Bytes → Nat} {lim : Limits} {clock : Nat → Time}

/-- What the loader makes of a file, if there is one: the contents of the store. -/
def loaded (lim : Limits) (hash : Bytes → Nat) (clock : Nat → Time) (log : Option Bytes) :
    Option (Contents (Bytes × Option Time)) :=
  ((⟨true, true, ⟨log, none⟩⟩ : AofManager).loadIntoStore lim hash clock .empty).map
    fun r => (r.2.view hash).contents

theorem loaded_eq (lim : Limits) (hash : Bytes → Nat) (clock : Nat → Time) {aof : AofManager}
    (hen : aof.enabled = true) :
    (aof.loadIntoStore lim hash clock .empty).map (fun r => (r.2.view hash).contents) =
      loaded lim hash clock aof.disk.log := by
  simp [loaded, AofManager.loadIntoStore, hen]

theorem loaded_encodeLog {records : List (List Bytes)} (hne : ∀ r ∈ records, r ≠ [])
    (h : ∀ r ∈ records, lim.Holds r) :
    loaded lim hash clock (some (encodeLog records)) =
      some (FlatStore.empty.replay clock 0 records).contents := by
  rw [loaded, loadIntoStore_eq lim hash clock rfl rfl, readLog_encodeLog hne h]
  simp [view_replay]

/-- The image loads as what the snapshot keeps of the store. -/
theorem loaded_rewriteImage (clock : Nat → Time) {store : KeyValueStore}
    (hr : Reachable hash store) (order : IterOrder) (now : Time)
    (h : ∀ r ∈ snapshotRecords (store.getSnapshot order now), lim.Holds r) :
    loaded lim hash clock (some (rewriteImage (store.getSnapshot order now))) =
      some ((store.view hash).saved now) := by
  rw [rewriteImage_eq, loaded_encodeLog (snapshotRecords_ne_nil _) h,
    replay_snapshotRecords (hr.wellPlaced.getSnapshot_shows order now) hr.noEmpty]

@[simp] theorem write_success (image : Bytes) : RewriteIo.success.write image = image :=
  List.take_length

/-- **Compaction round trip.**  Compact any reachable store, load the file into an empty one:
exactly the strings that had not expired with their values, the hashes and the lists. -/
theorem compaction_round_trip {store : KeyValueStore} (hr : Reachable hash store)
    (order : IterOrder) (now : Time)
    (h : ∀ r ∈ snapshotRecords (store.getSnapshot order now), lim.Holds r)
    {aof : AofManager} (hen : aof.enabled = true) :
    (aof.rewrite .success order now store).1 = true ∧
      ∃ count rebuilt, (aof.rewrite .success order now store).2.loadIntoStore lim hash clock
          .empty = some (count, rebuilt) ∧
        (rebuilt.view hash).contents = (store.view hash).saved now := by
  obtain ⟨enabled, isOpen, disk⟩ := aof
  obtain rfl : enabled = true := hen
  refine ⟨rfl, ?_⟩
  have hload := loaded_eq lim hash clock
    (show ((⟨true, isOpen, disk⟩ : AofManager).rewrite .success order now store).2.enabled = true
      from rfl)
  have hfile : ((⟨true, isOpen, disk⟩ : AofManager).rewrite .success order now store).2.disk.log =
      some (rewriteImage (store.getSnapshot order now)) :=
    congrArg some (write_success _)
  rw [hfile, loaded_rewriteImage clock hr order now h] at hload
  obtain ⟨⟨count, rebuilt⟩, hr, hc⟩ := Option.map_eq_some_iff.mp hload
  exact ⟨count, rebuilt, hr, hc⟩

/-- A string that expires later, one that has expired, a hash and a list under one key. -/
theorem compaction_round_trip_mixed :
    let calls : List TimedCall :=
      [⟨0, .plain, .set (bytes "a") (bytes "x\r\n") (some 9)⟩,
        ⟨0, .plain, .set (bytes "b") (bytes "y") (some 1)⟩,
        ⟨0, .plain, .hset (bytes "a") (bytes "f") (bytes "*1")⟩,
        ⟨0, .plain, .rpush (bytes "a") (bytes "")⟩]
    let store := (KeyValueStore.empty.runCalls List.length calls).2
    let aof : AofManager := ⟨true, true, ⟨none, none⟩⟩
    (aof.rewrite .success .plain 2000000000 store).1 = true ∧
      ∃ count rebuilt, (aof.rewrite .success .plain 2000000000 store).2.loadIntoStore
          ⟨8, 8, by decide, by decide⟩ List.length (fun _ => 0) .empty = some (count, rebuilt) ∧
        (rebuilt.view List.length).contents = (store.view List.length).saved 2000000000 :=
  compaction_round_trip (Reachable.empty.runCalls _) .plain 2000000000 (by decide) rfl

end KeyValueDb
