/-
# What was acknowledged survives

`execute` appends a record before it returns the reply, so by the time a client can read the
reply the change is on the disk.  Here the process stops behind any call of `execute` in any run
of the event loop, in the middle of a chunk or of a turn, and is started again on the files: if
the commands up to there last, the store has the values that the last reply spoke of
(`acknowledged_survives`).
-/
import KeyValueDb.Recovery.Restarts
import KeyValueDb.Server.Serial

namespace KeyValueDb

open Lib RespParser FlatStore

variable {ctx : ServerCtx} {lim : Limits} {env : Nat → Env} {n n' : Nat} {db db' : Db}

/-- Started again on its files, the server holds the values that it held. -/
def ComesBack (lim : Limits) (hash : Bytes → Nat) (db : Db) : Prop :=
  db.Fits lim → ∀ clock startTime, ∃ again, db.reboot lim hash clock startTime = some again ∧
    (again.store.view hash).values = (db.store.view hash).values

/-- The command lasts where it was executed. -/
def Execution.Lasts (ctx : ServerCtx) (x : Execution) : Prop := x.request.Lasting ctx x.db

/-- Some records give back the values whenever they are replayed. -/
def Backed (hash : Bytes → Nat) (db : Db) : Prop := ∃ records, Restorable hash records db

theorem Backed.comesBack {hash : Bytes → Nat} (h : Backed hash db) : ComesBack lim hash db := by
  obtain ⟨records, h⟩ := h
  intro hfits clock startTime
  obtain ⟨again, hagain, -, hview⟩ := h.reboot hfits clock startTime
  exact ⟨again, hagain, hview.values⟩

/-- The counters are not restored. -/
theorem Backed.metrics {hash : Bytes → Nat} (h : Backed hash db) (metrics : Metrics) :
    Backed hash { db with metrics } := by
  obtain ⟨records, hjournal, htimeless, hreplays⟩ := h
  exact ⟨records, ⟨hjournal.reachable, hjournal.nonempty, hjournal.log⟩, htimeless, hreplays⟩

/-! ## 1. Along a timeline -/

/-- Calls one after the other, the last of them looked at. -/
theorem Follows.backed_last {xs : List Execution} {x : Execution}
    (h : Follows ctx env n db (xs ++ [x]) n' db') (hdb : Backed ctx.hash db)
    (hlasts : ∀ y ∈ xs ++ [x], y.Lasts ctx) : Backed ctx.hash (x.outcome ctx).db := by
  induction xs generalizing n db with
  | nil =>
    cases h with
    | cons _ henv rest =>
      obtain ⟨records, hdb⟩ := hdb
      exact hdb.serve (hlasts x List.mem_cons_self)
  | cons y ys ih =>
    cases h with
    | cons _ henv rest =>
      obtain ⟨records, hdb⟩ := hdb
      exact ih rest (hdb.serve (hlasts y List.mem_cons_self)) fun z hz =>
        hlasts z (List.mem_cons_of_mem y hz)

/-- Calls one after the other, all of them behind the last. -/
theorem Follows.backed {xs : List Execution} (h : Follows ctx env n db xs n' db')
    (hdb : Backed ctx.hash db) (hlasts : ∀ y ∈ xs, y.Lasts ctx) : Backed ctx.hash db' := by
  induction h with
  | nil => exact hdb
  | cons x henv _ ih =>
    obtain ⟨records, hdb⟩ := hdb
    exact ih (hdb.serve (hlasts x List.mem_cons_self)) fun z hz =>
      hlasts z (List.mem_cons_of_mem x hz)

/-- **A timeline**, cut behind any call. -/
theorem Timeline.backed {es : List Event} (h : Timeline ctx env n db es n' db')
    (hdb : Backed ctx.hash db) {xs ys : List Execution} {x : Execution}
    (hsplit : es.flatMap Event.executions = xs ++ x :: ys)
    (hlasts : ∀ y ∈ xs ++ [x], y.Lasts ctx) : Backed ctx.hash (x.outcome ctx).db := by
  induction h generalizing xs with
  | nil => exact absurd hsplit (by simp)
  | accepted fd _ ih => exact ih (hdb.metrics _) hsplit hlasts
  | closed fd _ ih => exact ih (hdb.metrics _) hsplit hlasts
  | read fd chunk hfollows _ ih =>
    rename_i read es rest
    have hcalls : read ++ es.flatMap Event.executions = xs ++ x :: ys := hsplit
    rcases List.append_eq_append_iff.mp hcalls with ⟨zs, rfl, hrest⟩ | ⟨zs, hread, hrest⟩
    · -- the call comes behind this read
      have hbacked := hfollows.backed hdb fun y hy =>
        hlasts y (List.mem_append_left _ (List.mem_append_left zs hy))
      refine ih hbacked hrest fun y hy => hlasts y ?_
      rw [List.append_assoc]
      exact List.mem_append_right read hy
    · cases zs with
      | nil =>
        rw [List.append_nil] at hread
        subst hread
        have hbacked := hfollows.backed hdb fun y hy => hlasts y (List.mem_append_left _ hy)
        have hnext : es.flatMap Event.executions = [] ++ x :: ys := hrest.symm
        exact ih hbacked hnext fun y hy => hlasts y (List.mem_append_right read hy)
      | cons z zs =>
        -- the call is one of this read
        obtain ⟨rfl, -⟩ := List.cons.inj hrest
        rw [hread, ← List.singleton_append, ← List.append_assoc] at hfollows
        obtain ⟨m, d, hfirst, -⟩ := hfollows.split
        exact hfirst.backed_last hdb hlasts

/-! ## 2. Every run -/

/-- **What was acknowledged survives.**  In every state of every run of the event loop that starts
empty, for every call of `execute` so far: if it lasts and those before it do, a process that
stops behind it, before anything else happens, comes back with the values it left.  No other
thread changes the store between the calls, the janitor included. -/
theorem acknowledged_survives (ctx : ServerCtx) (lim : Limits) (env : Nat → Env)
    (rounds : List Round) (metrics : Metrics) :
    Always (TcpServer.turn ctx env)
      (fun s => ∀ xs x ys, s.executions = xs ++ x :: ys → (∀ y ∈ xs ++ [x], y.Lasts ctx) →
        ComesBack lim ctx.hash (x.outcome ctx).db) rounds (.start (.fresh metrics)) := by
  apply (timed_run ctx env rounds (.fresh metrics)).mono
  intro s h xs x ys hsplit hlasts
  exact (h.backed ⟨[], restorable_fresh ctx.hash metrics⟩ hsplit hlasts).comesBack

end KeyValueDb
