/-
# Clients without the password

The gate is a property of one line (`execute_gated`).  What it does for the other clients is a
property of whole runs: whatever clients send that never give the password, the rest of the run
is a run of the service without them, and each reply they get follows from their own command
(`outsiders_shielded`).
-/
import KeyValueDb.Server.Gate
import KeyValueDb.Server.Service

namespace KeyValueDb

open Lib RespParser Service

variable {ctx : ServerCtx} {env : Nat → Env} {db : Db} {requirepass : Bytes}

/-! ## 1. The service before the password is given -/

/-- The command is `AUTH` with the password. -/
def GivesPassword (requirepass : Bytes) (tokens : List Bytes) : Prop :=
  ∃ word, tokens = [word, requirepass] ∧ toUpper word = bytes "AUTH"

/-- **Without the password all is conversation**, and only the password ends that. -/
theorem converse_outside (hpass : requirepass ≠ []) (tokens : List Bytes) :
    ∃ reply, converse requirepass false tokens = some reply ∧
      (reply.isAuthenticated = true → GivesPassword requirepass tokens) := by
  have hclosed : ¬ (requirepass = [] ∨ false = true) := by simp [hpass]
  cases tokens with
  | nil => exact ⟨_, rfl, fun h => by cases h⟩
  | cons word args =>
    cases hverb : Verb.ofWord (toUpper word) with
    | none =>
      have hrefused : converse requirepass false (word :: args) =
          some ⟨bytes "-NOAUTH Authentication required.\r\n", false⟩ := by
        simp only [converse, hverb, talk, if_neg hclosed]
      exact ⟨_, hrefused, fun h => by cases h⟩
    | some verb =>
      cases verb with
      | auth =>
        simp only [converse, hverb, talk]
        rw [if_neg fun h => hclosed h.1]
        by_cases hargs : args = [requirepass]
        · subst hargs
          exact ⟨_, if_pos (Or.inr rfl), fun _ => ⟨word, rfl, Verb.word_of_ofWord hverb⟩⟩
        · exact ⟨_, if_neg (not_or.mpr ⟨hpass, hargs⟩), fun h => by cases h⟩
      | quit =>
        have hquit : converse requirepass false (word :: args) = some ⟨ok, false⟩ := by
          simp only [converse, hverb, talk]
        exact ⟨_, hquit, fun h => by cases h⟩
      | _ =>
        have hrefused : converse requirepass false (word :: args) =
            some ⟨bytes "-NOAUTH Authentication required.\r\n", false⟩ := by
          simp only [converse, hverb, talk, if_neg hclosed]
        exact ⟨_, hrefused, fun h => by cases h⟩

theorem Service.Answers.outside (hpass : requirepass ≠ []) {F G : FlatStore} {c : ServiceCall}
    {reply : ServiceReply} (h : Answers requirepass F c reply G)
    (hflag : c.isAuthenticated = false) :
    G = F ∧ converse requirepass false c.tokens = some reply := by
  obtain ⟨reply', hconverse, -⟩ := converse_outside hpass c.tokens
  rw [← hflag] at hconverse ⊢
  cases h with
  | conversed h => exact ⟨rfl, h⟩
  | reported h | compacted h | served h => exact absurd (h.symm.trans hconverse) (by simp)

/-! ## 2. Runs -/

/-- A client that never gives the password stays outside. -/
theorem Conversation.outside (hpass : requirepass ≠ []) {flag : Bool}
    {share : List (ServiceCall × ServiceReply)} (h : Conversation flag share)
    (hflag : flag = false)
    (hlegal : ∀ x ∈ share, ∃ F G, Answers requirepass F x.1 x.2 G)
    (hnever : ∀ x ∈ share, ¬ GivesPassword requirepass x.1.tokens) :
    ∀ x ∈ share, x.1.isAuthenticated = false := by
  induction h with
  | nil => exact fun x hx => absurd hx List.not_mem_nil
  | cons x _ ih =>
    obtain ⟨F, G, hanswers⟩ := hlegal x List.mem_cons_self
    obtain ⟨-, hconverse⟩ := hanswers.outside hpass hflag
    obtain ⟨reply, hreply, hgives⟩ := converse_outside hpass x.1.tokens
    obtain rfl : x.2 = reply := Option.some.inj (hconverse.symm.trans hreply)
    have hstill : x.2.isAuthenticated = false :=
      Bool.eq_false_iff.mpr fun h => hnever x List.mem_cons_self (hgives h)
    refine List.forall_mem_cons.mpr ⟨hflag, ?_⟩
    exact ih hstill (fun y hy => hlegal y (List.mem_cons_of_mem _ hy))
      (fun y hy => hnever y (List.mem_cons_of_mem _ hy))

/-- What a state of the server owes to the password when these clients do not have it: without
them the rest is a run of the service too, up to the same store, and what they hear is the
conversation about their own commands. -/
structure Shielded (ctx : ServerCtx) (F : FlatStore) (s : TcpServer) (outsider : Nat → Bool) :
    Prop where
  others : LegalSequence (Answers ctx.requirepass) F
    ((exchanges ctx s.trace).filter fun x => !outsider x.1) (s.db.store.view ctx.hash)
  heard : ∀ x ∈ exchanges ctx s.trace, outsider x.1 = true →
    converse ctx.requirepass false x.2.1.tokens = some x.2.2

theorem RefinesService.shielded {F : FlatStore} {s : TcpServer} (h : RefinesService ctx env F s)
    (hpass : ctx.requirepass ≠ []) {outsider : Nat → Bool}
    (hnever : ∀ x ∈ exchanges ctx s.trace, outsider x.1 = true →
      ¬ GivesPassword ctx.requirepass x.2.1.tokens) : Shielded ctx F s outsider := by
  have hflags : ∀ x ∈ exchanges ctx s.trace, outsider x.1 = true →
      x.2.1.isAuthenticated = false := by
    rintro ⟨i, x⟩ hx hout
    have hi : i < s.connections.reverse.length := by
      rw [List.length_reverse]
      exact h.owned _ hx
    have hclient := h.client i _ (List.getElem?_eq_getElem hi)
    have hconversation := hclient.conversation
    rw [decide_eq_false hpass] at hconversation
    refine hconversation.outside hpass rfl (fun y hy => ?_) (fun y hy => ?_) x (mem_ofThread.mpr hx)
    · exact h.legal.exists_of_mem (mem_ofThread.mp hy)
    · exact hnever _ (mem_ofThread.mp hy) hout
  constructor
  · refine h.legal.filter fun x hx hout G K hanswers => ?_
    have hflag := hflags x hx (by simpa using hout)
    exact (hanswers.outside hpass hflag).1
  · intro x hx hout
    obtain ⟨G, K, hanswers⟩ := h.legal.exists_of_mem hx
    exact (hanswers.outside hpass (hflags x hx hout)).2

/-- **Outsiders are shielded off**, in every state of every run of the event loop: any set of
clients that never give the password.  No other thread changes the store between the calls, the
janitor included. -/
theorem outsiders_shielded {rounds : List Round} (hpass : ctx.requirepass ≠ [])
    (hreach : Reachable ctx.hash db.store)
    (hfresh : Steps (TcpServer.turn ctx env) FreshAccepts rounds (.start db)) :
    Always (TcpServer.turn ctx env)
      (fun s => ∀ outsider : Nat → Bool,
        (∀ x ∈ exchanges ctx s.trace, outsider x.1 = true →
          ¬ GivesPassword ctx.requirepass x.2.1.tokens) →
        Shielded ctx (db.store.view ctx.hash) s outsider) rounds (.start db) :=
  Always.mono
    (fun _ h _ hnever => (h.1.refinesService hreach h.2.1 h.2.2).shielded hpass hnever)
    ((timed_run ctx env rounds db).and (disciplined_run hfresh))

/-- One of two clients guesses. -/
theorem outsiders_shielded_guess :
    let idle : Revents := ⟨false, false, false, false⟩
    let readable : Revents := ⟨true, false, false, false⟩
    let ctx : ServerCtx := ⟨List.length, bytes "pw", 8080, 4⟩
    let env : Nat → Env := fun n => ⟨n, .plain, .success⟩
    let rounds : List Round :=
      [⟨fun _ => idle, true, [5, 6], fun _ => [], fun _ => by decide⟩,
        ⟨fun _ => readable, false, [],
          fun fd => if fd = 5 then bytes "AUTH pw\nSET k v\n" else bytes "AUTH pq\nGET k\n",
          fun fd => by split <;> decide⟩]
    Always (TcpServer.turn ctx env)
      (fun s => ∀ outsider : Nat → Bool,
        (∀ x ∈ exchanges ctx s.trace, outsider x.1 = true →
          ¬ GivesPassword ctx.requirepass x.2.1.tokens) →
        Shielded ctx .empty s outsider) rounds (.start (.fresh ⟨0, 0, 0, 0, 0, 0, 0, 0⟩)) := by
  intro idle readable ctx env rounds
  have hfresh : Steps (TcpServer.turn ctx env) FreshAccepts rounds
      (.start (.fresh ⟨0, 0, 0, 0, 0, 0, 0, 0⟩)) :=
    ⟨⟨by decide, fun fd _ => AList.notMem_empty fd⟩,
      ⟨List.nodup_nil, fun _ h => absurd h List.not_mem_nil⟩, trivial⟩
  have hempty : Reachable ctx.hash (Db.fresh ⟨0, 0, 0, 0, 0, 0, 0, 0⟩).store := .empty
  exact outsiders_shielded (by decide) hempty hfresh

end KeyValueDb
