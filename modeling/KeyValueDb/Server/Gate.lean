/-
# The authentication gate

With a password configured a session starts without the flag, and only one line sets it: the
command `AUTH`, in any spelling, with the password and nothing else
(`isAuthenticated_execute`).  Until then a line changes neither store nor log, and its reply is
a function of the line alone (`execute_gated`).

Descriptors are reused, so the flag must not survive its connection: it is the one that the
executions of that same connection left (`authentication_gate`).
-/
import KeyValueDb.Server.History

namespace KeyValueDb

open Lib RespParser

variable {ctx : ServerCtx}

/-! ## 1. One line -/

/-- The line is `AUTH` with the password. -/
def IsAuth (ctx : ServerCtx) (line : Bytes) : Prop :=
  ∃ word, parseRequest line = [word, ctx.requirepass] ∧ toUpper word = bytes "AUTH"

theorem isAuthenticated_gated (word : Bytes) (args : List Bytes) (db : Db)
    (h : (executeGated ctx word args db).isAuthenticated = true) :
    args = [ctx.requirepass] ∧ toUpper word = bytes "AUTH" := by
  unfold executeGated at h
  split at h
  · rename_i hverb
    split at h
    · rename_i hargs
      exact ⟨hargs, Verb.word_of_ofWord hverb⟩
    · exact absurd h (by simp [answer])
  · exact absurd h (by simp)
  · exact absurd h (by simp [answer])

/-- **Only `AUTH` with the password sets the flag.** -/
theorem isAuthenticated_execute (hpass : ctx.requirepass ≠ []) {env : Env} {line : Bytes}
    {db : Db} {flag : Bool} (h : (execute ctx env line db flag).isAuthenticated = true) :
    flag = true ∨ IsAuth ctx line := by
  cases flag with
  | true => exact Or.inl rfl
  | false =>
    refine Or.inr ?_
    unfold execute at h
    cases hparse : parseRequest line with
    | nil => rw [hparse] at h; exact absurd h (by simp)
    | cons word args =>
      simp only [hparse, hpass, ne_eq, not_false_eq_true, and_self, if_true] at h
      obtain ⟨hargs, hword⟩ := isAuthenticated_gated word args _ h
      exact ⟨word, by rw [hparse, hargs], hword⟩

/-- **Before that, a line changes nothing and learns nothing.** -/
theorem execute_gated (hpass : ctx.requirepass ≠ []) (env : Env) (line : Bytes) (db : Db) :
    (execute ctx env line db false).db.store = db.store ∧
      (execute ctx env line db false).db.aof = db.aof ∧
      ∀ db', (execute ctx env line db' false).result = (execute ctx env line db false).result := by
  unfold execute
  cases parseRequest line with
  | nil => exact ⟨rfl, rfl, fun _ => rfl⟩
  | cons word args =>
    simp only [hpass, ne_eq, not_false_eq_true, and_self, if_true]
    unfold executeGated
    split
    · split <;> exact ⟨rfl, rfl, fun _ => rfl⟩
    · exact ⟨rfl, rfl, fun _ => rfl⟩
    · exact ⟨rfl, rfl, fun _ => rfl⟩

/-! ## 2. The executions of a connection -/

theorem Threaded.auth (hpass : ctx.requirepass ≠ []) {xs : List Execution} {a b : Bool}
    (h : Threaded ctx a xs b) (hb : b = true) : a = true ∨ ∃ x ∈ xs, IsAuth ctx x.line := by
  induction h with
  | nil => exact Or.inl hb
  | cons x _ ih =>
    rcases ih hb with hx | ⟨y, hy, hauth⟩
    · rcases isAuthenticated_execute hpass hx with hflag | hauth
      · exact Or.inl hflag
      · exact Or.inr ⟨x, List.mem_cons_self, hauth⟩
    · exact Or.inr ⟨y, List.mem_cons_of_mem x hy, hauth⟩

/-- The flag an execution runs under is the one that those before it left. -/
theorem Threaded.before {pre post : List Execution} {x : Execution} {a b : Bool}
    (h : Threaded ctx a (pre ++ x :: post) b) : Threaded ctx a pre x.isAuthenticated := by
  induction pre generalizing a with
  | nil =>
    cases h with
    | cons _ _ => exact .nil _
  | cons y pre ih =>
    cases h with
    | cons _ rest => exact .cons y (ih rest)

/-! ## 3. The server -/

/-- The execution changed neither store nor log, and its reply would have been the same on any
other database. -/
structure Harmless (ctx : ServerCtx) (x : Execution) : Prop where
  store : (x.outcome ctx).db.store = x.db.store
  aof : (x.outcome ctx).db.aof = x.db.aof
  reply : ∀ db', (execute ctx x.env x.line db' x.isAuthenticated).result = (x.outcome ctx).result

/-- What a state of the server owes to the password. -/
structure Gated (ctx : ServerCtx) (s : TcpServer) : Prop where
  session : ∀ fd session, s.sessions.lookup fd = some session →
    session.isAuthenticated = true →
      ∃ c, newest fd s.connections = some c ∧ c.isOpen = true ∧
        ∃ x ∈ c.executed, IsAuth ctx x.line
  admitted : ∀ c ∈ s.connections, ∀ pre x post, c.executed = pre ++ x :: post →
    x.isAuthenticated = true → ∃ y ∈ pre, IsAuth ctx y.line
  gated : ∀ c ∈ s.connections, ∀ x ∈ c.executed, x.isAuthenticated = false → Harmless ctx x

/-- **The gate.**  In every state of every run of the event loop: a session carries the flag
only if a line of that same connection was `AUTH` with the password, the same holds of every
line executed under the flag, and every other line was harmless. -/
theorem authentication_gate {env : Nat → Env} {rounds : List Round} {db : Db}
    (hpass : ctx.requirepass ≠ [])
    (hfresh : Steps (TcpServer.turn ctx env) FreshAccepts rounds (.start db)) :
    Always (TcpServer.turn ctx env) (Gated ctx) rounds (.start db) := by
  have hstart : ¬ decide (ctx.requirepass = []) = true := by simp [hpass]
  apply (sound_run hfresh).mono
  intro s h
  constructor
  · intro fd session hlookup hflag
    obtain ⟨c, hc, hopen, htracks⟩ := h.tracks fd session hlookup
    exact ⟨c, hc, hopen, (htracks.threaded.auth hpass hflag).resolve_left hstart⟩
  · intro c hc pre x post hsplit hflag
    obtain ⟨closed, flag, -, hthread⟩ := h.orderly c hc
    rw [hsplit] at hthread
    exact (hthread.before.auth hpass hflag).resolve_left hstart
  · rintro c - x - hflag
    obtain ⟨line, env, db, isAuthenticated⟩ := x
    obtain rfl : isAuthenticated = false := hflag
    obtain ⟨hstore, haof, hreply⟩ := execute_gated hpass env line db
    exact ⟨hstore, haof, hreply⟩

/-- A client asks before it authenticates; then its descriptor goes to another one. -/
theorem authentication_gate_reused :
    let idle : Revents := ⟨false, false, false, false⟩
    let readable : Revents := ⟨true, false, false, false⟩
    let hangup : Revents := ⟨false, false, true, false⟩
    let rounds : List Round :=
      [⟨fun _ => idle, true, [5], fun _ => [], fun _ => by decide⟩,
        ⟨fun _ => readable, false, [], fun _ => bytes "GET k\nauth pw\n", fun _ => by decide⟩,
        ⟨fun _ => hangup, false, [], fun _ => [], fun _ => by decide⟩,
        ⟨fun _ => idle, true, [5], fun _ => [], fun _ => by decide⟩]
    Always (TcpServer.turn ⟨List.length, bytes "pw", 8080, 4⟩ fun _ => ⟨0, .plain, .success⟩)
      (Gated ⟨List.length, bytes "pw", 8080, 4⟩) rounds
      (.start ⟨.empty, none, ⟨0, 0, 0, 0, 0, 0, 0, 0⟩⟩) :=
  authentication_gate (by decide) ⟨⟨List.nodup_singleton 5, fun fd _ => AList.notMem_empty fd⟩,
    ⟨List.nodup_nil, fun _ h => absurd h List.not_mem_nil⟩,
    ⟨List.nodup_nil, fun _ h => absurd h List.not_mem_nil⟩,
    ⟨List.nodup_singleton 5, by decide⟩, trivial⟩

end KeyValueDb
