/-
# The grammar of SET

`SET` takes a key and a value, and perhaps `EX` and a number of seconds.  The branch asks for
three tokens and looks at the option only if there are five: `EX` without a number, another
word in its place and tokens behind the number are all acknowledged, and the lifetime that was
asked for is dropped (`keepsGrammar_iff`).  `SETEX`, which counts its tokens, refuses them.
-/
import KeyValueDb.Command.Integers
import KeyValueDb.Command.Run

namespace KeyValueDb

open Lib RespParser

namespace Command

/-! ## 1. What SET is for, and what it refuses -/

/-- The syntax of `SET`: the word, key and value, and perhaps `EX` and an integer. -/
def SetGrammar : List Bytes → Prop
  | [_, _, _] => True
  | [_, _, _, ex, seconds] => toUpper ex = bytes "EX" ∧ IntegerText seconds
  | _ => False

/-- Fewer than three tokens, or `EX` and a text that does not begin with an integer. -/
def SetRefuses : List Bytes → Prop
  | _ :: _ :: _ :: ex :: seconds :: _ => toUpper ex = bytes "EX" ∧ ¬ ReadsAsInteger seconds
  | _ :: _ :: _ :: _ => False
  | _ => True

variable (hash : Bytes → Nat) (now : Time) {tokens : List Bytes} (s : KeyValueStore)

theorem set_of_refuses (h : SetRefuses tokens) :
    IsError (set hash now tokens s).response ∧ (set hash now tokens s).store = s ∧
      (set hash now tokens s).record = none := by
  rcases tokens with _ | ⟨word, _ | ⟨key, _ | ⟨value, _ | ⟨ex, _ | ⟨seconds, rest⟩⟩⟩⟩⟩
  case nil | cons.nil | cons.cons.nil => exact ⟨isError_serializeError _, rfl, rfl⟩
  case cons.cons.cons.nil | cons.cons.cons.cons.nil => exact h.elim
  case cons.cons.cons.cons.cons =>
    obtain ⟨hex, hread⟩ := h
    simp only [set, lifetime, if_pos hex, stoll_eq_none_iff.mpr hread, Option.map_none]
    exact ⟨isError_serializeError _, rfl, rfl⟩

/-- **Everything else is acknowledged.** -/
theorem set_of_not_refuses (h : ¬ SetRefuses tokens) : (set hash now tokens s).response = ok := by
  rcases tokens with _ | ⟨word, _ | ⟨key, _ | ⟨value, _ | ⟨ex, _ | ⟨seconds, rest⟩⟩⟩⟩⟩
  case nil | cons.nil | cons.cons.nil => exact absurd trivial h
  case cons.cons.cons.nil | cons.cons.cons.cons.nil => rfl
  case cons.cons.cons.cons.cons =>
    by_cases hex : toUpper ex = bytes "EX"
    · have hread : ReadsAsInteger seconds := not_not.mp fun hread => h ⟨hex, hread⟩
      obtain ⟨sec, hsec⟩ := Option.isSome_iff_exists.mp ((stoll_isSome_iff seconds).mpr hread)
      simp only [set, lifetime, if_pos hex, hsec, Option.map_some]
    · simp only [set, lifetime, if_neg hex]

end Command

/-! ## 2. Calls of `execute` -/

variable {ctx : ServerCtx} {env : Env} {rawCommand : Bytes} {db : Db} {isAuthenticated : Bool}
  {tokens : List Bytes}

/-- A request is acknowledged only if it is in the grammar, and answered with an error and no
change if it is not. -/
def KeepsGrammar (ctx : ServerCtx) (env : Env) (rawCommand : Bytes) (db : Db)
    (isAuthenticated : Bool) (tokens : List Bytes) : Prop :=
  let o := execute ctx env rawCommand db isAuthenticated
  (o.result.response = ok → Command.SetGrammar tokens) ∧
    (¬ Command.SetGrammar tokens →
      IsError o.result.response ∧ o.db.store = db.store ∧ o.db.aof = db.aof)

/-- Without the password a command on the store is turned away. -/
theorem execute_not_admitted (hnot : ¬ Admitted ctx isAuthenticated) {v : StoreVerb}
    (hreq : request? rawCommand = some (.store v, tokens)) :
    IsError (execute ctx env rawCommand db isAuthenticated).result.response ∧
      (execute ctx env rawCommand db isAuthenticated).db.store = db.store ∧
      (execute ctx env rawCommand db isAuthenticated).db.aof = db.aof := by
  obtain ⟨word, args, rfl, hparse, hverb⟩ := request?_eq_some hreq
  unfold execute
  rw [hparse]
  dsimp only
  rw [if_pos (gated_iff.mpr hnot), executeGated, hverb]
  exact ⟨rfl, rfl, rfl⟩

theorem not_ok_of_isError {response : Bytes} (h : IsError response) : response ≠ ok := by
  rintro rfl
  exact not_isError_ok h

/-- **`SET` keeps to its grammar** exactly when the request is in it, or is refused: for want of
the password, with fewer than three tokens, or for a lifetime that is no number at all. -/
theorem keepsGrammar_iff (ctx : ServerCtx) (env : Env) (rawCommand : Bytes) (db : Db)
    (isAuthenticated : Bool) (tokens : List Bytes)
    (hreq : request? rawCommand = some (.store .set, tokens)) :
    KeepsGrammar ctx env rawCommand db isAuthenticated tokens ↔
      Command.SetGrammar tokens ∨ ¬ Admitted ctx isAuthenticated ∨ Command.SetRefuses tokens := by
  by_cases hgrammar : Command.SetGrammar tokens
  · exact iff_of_true ⟨fun _ => hgrammar, fun h => absurd hgrammar h⟩ (Or.inl hgrammar)
  · have hkeeps : KeepsGrammar ctx env rawCommand db isAuthenticated tokens ↔
        IsError (execute ctx env rawCommand db isAuthenticated).result.response ∧
          (execute ctx env rawCommand db isAuthenticated).db.store = db.store ∧
          (execute ctx env rawCommand db isAuthenticated).db.aof = db.aof :=
      ⟨fun h => h.2 hgrammar, fun h => ⟨fun hok => absurd hok (not_ok_of_isError h.1), fun _ => h⟩⟩
    rw [hkeeps, or_iff_right hgrammar]
    cases execute_cases ctx env rawCommand db isAuthenticated with
    | idle _ _ _ hidle =>
      have hnot : ¬ Admitted ctx isAuthenticated := fun h => (hidle h _ _ hreq).elim
      exact iff_of_true (execute_not_admitted hnot hreq) (Or.inl hnot)
    | rewrite _ hreq' =>
      rw [hreq] at hreq'
      cases hreq'
    | store hadmitted hreq' hresponse hstore haof _ =>
      rw [hreq, Option.some.injEq, Prod.mk.injEq, Verb.store.injEq] at hreq'
      obtain ⟨rfl, rfl⟩ := hreq'
      rw [or_iff_right (not_not.mpr hadmitted)]
      by_cases hrefuses : Command.SetRefuses tokens
      · obtain ⟨herror, hsame, hrecord⟩ :=
          Command.set_of_refuses ctx.hash env.now db.store hrefuses
        rw [show Command.run ctx.hash env.order env.now tokens db.store .set =
          Command.set ctx.hash env.now tokens db.store from rfl] at hresponse hstore haof
        rw [hrecord] at haof
        exact iff_of_true ⟨hresponse ▸ herror, hstore.trans hsame, haof⟩ hrefuses
      · refine iff_of_false (fun h => not_ok_of_isError h.1 ?_) hrefuses
        rw [hresponse]
        exact Command.set_of_not_refuses ctx.hash env.now db.store hrefuses

theorem keepsGrammar_iff_unread :
    KeepsGrammar ⟨fun _ => 0, [], 8080, 4⟩ ⟨0, .plain, .success⟩ (bytes "set k v ex x y\r\n")
      ⟨.empty, none, ⟨0, 0, 0, 0, 0, 0, 0, 0⟩⟩ true
      [bytes "set", bytes "k", bytes "v", bytes "ex", bytes "x", bytes "y"] :=
  (keepsGrammar_iff _ _ _ _ true _ (by decide)).mpr
    (Or.inr (Or.inr ⟨by decide, stoll_eq_none_iff.mp (by decide)⟩))

/-- **The number is missing**: acknowledged, logged, and the key never expires. -/
theorem not_keepsGrammar_of_missing :
    let ctx : ServerCtx := ⟨fun _ => 0, [], 8080, 4⟩
    let db : Db := .fresh ⟨0, 0, 0, 0, 0, 0, 0, 0⟩
    let o := execute ctx ⟨0, .plain, .success⟩ (bytes "SET k v EX\r\n") db true
    request? (bytes "SET k v EX\r\n") =
        some (.store .set, [bytes "SET", bytes "k", bytes "v", bytes "EX"]) ∧
      o.result.response = ok ∧
      (o.db.store.ttl ctx.hash 0 (bytes "k")).1 = -1 ∧
      ¬ KeepsGrammar ctx ⟨0, .plain, .success⟩ (bytes "SET k v EX\r\n") db true
        [bytes "SET", bytes "k", bytes "v", bytes "EX"] := by
  intro ctx db o
  have hok : o.result.response = ok := by decide
  exact ⟨by decide, hok, by decide, fun h => h.1 hok⟩

end KeyValueDb
