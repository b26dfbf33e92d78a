/-
# Clients that send lines

What a client gets from the event loop, however its bytes are cut into reads and whatever the
other clients do meanwhile.

* `replies_separable`: whatever it sends, it can tell the replies apart.  `execute` on its own
  does not promise that, because the reply to an unknown command repeats a word that may have a
  line end in it; a word that comes from a line has none.
* `commands_understood`: if it sends its commands as lines of quoted words, these are the
  commands that are executed, in order, up to the first `QUIT`.
-/
import KeyValueDb.Server.Framing
import KeyValueDb.Server.History
import KeyValueDb.Server.Words

namespace KeyValueDb

open Lib RespParser

variable {ctx : ServerCtx}

/-! ## 1. The replies -/

def Execution.command (x : Execution) : RawCommand := ⟨x.env, x.line⟩

def Execution.response (ctx : ServerCtx) (x : Execution) : Bytes := (x.outcome ctx).result.response

/-- **The reply to a line is one value**, or nothing for a blank line. -/
theorem answered_of_isLine {x : Execution} (h : IsLine lf x.line) :
    x.command.Answered (x.response ctx) := by
  refine (answered_iff ctx x.command (x.db, x.isAuthenticated)).mpr ?_
  rintro ⟨-, word, args, hparse, -, hline⟩
  have hwords := (sendable_iff (word :: args)).mp ⟨x.line, h, hparse⟩
  exact hline (hwords word List.mem_cons_self).oneLine

theorem RanThrough.isLine {xs : List Execution} {received : Bytes} {closed : Bool}
    (h : RanThrough ctx xs (splitLines lf received).1 closed) : ∀ x ∈ xs, IsLine lf x.line := by
  intro x hx
  exact isLine_of_mem lf (h.isPrefix.subset (List.mem_map_of_mem hx))

/-- The replies of every connection can be told apart. -/
def TellsApart (ctx : ServerCtx) (s : TcpServer) : Prop :=
  ∀ c ∈ s.connections,
    Separable (c.executed.map Execution.command) (c.executed.map (Execution.response ctx))

/-- **Every client can tell its replies apart**, in every state of every run of the event
loop: one value of the protocol for each line that is not blank, whatever the lines are.  The
replies are what the stream has if every `send` takes its whole reply. -/
theorem replies_separable {env : Nat → Env} {rounds : List Round} {db : Db}
    (hfresh : Steps (TcpServer.turn ctx env) FreshAccepts rounds (.start db)) :
    Always (TcpServer.turn ctx env) (TellsApart ctx) rounds (.start db) := by
  apply (connection_lines hfresh).mono
  intro s h c hc
  obtain ⟨closed, hran⟩ := h.connection c hc
  rw [separable_iff_answered, List.forall₂_map_left_iff, List.forall₂_map_right_iff,
    List.forall₂_same]
  exact fun x hx => answered_of_isLine (hran.isLine x hx)

/-- An unknown word, a blank line, and the line end that an array would have carried. -/
theorem replies_separable_unknown :
    let idle : Revents := ⟨false, false, false, false⟩
    let readable : Revents := ⟨true, false, false, false⟩
    let rounds : List Round :=
      [⟨fun _ => idle, true, [5], fun _ => [], fun _ => by decide⟩,
        ⟨fun _ => readable, false, [], fun _ => bytes "X\r\n\r\n:1\r\n", fun _ => by decide⟩]
    Always (TcpServer.turn ⟨List.length, [], 8080, 4⟩ fun _ => ⟨0, .plain, .success⟩)
      (TellsApart ⟨List.length, [], 8080, 4⟩) rounds
      (.start ⟨.empty, none, ⟨0, 0, 0, 0, 0, 0, 0, 0⟩⟩) :=
  replies_separable ⟨⟨List.nodup_singleton 5, fun fd _ => AList.notMem_empty fd⟩,
    ⟨List.nodup_nil, fun _ h => absurd h List.not_mem_nil⟩, trivial⟩

/-! ## 2. The commands -/

theorem isQuit_iff (tokens : List Bytes) :
    IsQuit tokens ↔ tokens.head?.map toUpper = some (bytes "QUIT") := by
  cases tokens with
  | nil => exact ⟨fun ⟨_, _, h, _⟩ => absurd h (by simp), fun h => absurd h (by simp)⟩
  | cons word args =>
    rw [List.head?_cons, Option.map_some, Option.some.injEq]
    constructor
    · rintro ⟨word', args', heq, hquit⟩
      rwa [(List.cons.inj heq).1]
    · exact fun h => ⟨word, args, rfl, h⟩

instance (tokens : List Bytes) : Decidable (IsQuit tokens) :=
  decidable_of_iff' _ (isQuit_iff tokens)

/-- The commands up to the first `QUIT`. -/
def upToQuit : List (List Bytes) → List (List Bytes)
  | [] => []
  | cmd :: cmds => if IsQuit cmd then [cmd] else cmd :: upToQuit cmds

/-- `QUIT` closes, with the password or without. -/
theorem closes_of_isQuit {x : Execution} (h : IsQuit (parseRequest x.line)) :
    x.closes ctx = true := by
  obtain ⟨word, args, hparse, hquit⟩ := h
  have hverb : Verb.ofWord (toUpper word) = some .quit := by
    rw [hquit]
    exact Verb.ofWord_word .quit
  unfold Execution.closes Execution.outcome execute
  simp only [hparse]
  split
  · simp only [executeGated, hverb]
  · simp only [executeOpen, hverb]

def Execution.tokens (x : Execution) : List Bytes := parseRequest x.line

/-- **Lines are executed up to the first `QUIT`.** -/
theorem RanThrough.tokens {xs : List Execution} {lines : List Bytes} {closed : Bool}
    (h : RanThrough ctx xs lines closed) :
    xs.map Execution.tokens = upToQuit (lines.map parseRequest) := by
  induction h with
  | nil => rfl
  | next x hx _ ih =>
    have hquit : ¬ IsQuit (parseRequest x.line) := by
      intro hquit
      rw [closes_of_isQuit hquit] at hx
      exact absurd hx (by simp)
    rw [List.map_cons, List.map_cons, upToQuit, if_neg hquit, ih, Execution.tokens]
  | stop x hx lines =>
    simp only [List.map_cons, List.map_nil, upToQuit, if_pos (isQuit_of_closes hx),
      Execution.tokens]

/-- The lines of a client that sends commands, perhaps in the middle of one. -/
theorem splitLines_wordLines {cmds : List (List Bytes)} {rest : Bytes}
    (hwords : ∀ cmd ∈ cmds, ∀ word ∈ cmd, IsWord word) (hrest : lf ∉ rest) :
    splitLines lf (cmds.flatMap wordLine ++ rest) = (cmds.map wordLine, rest) := by
  have hlines := splitLines_flatMap lf fun cmd hcmd => isLine_wordLine (hwords cmd hcmd)
  have htail : splitLines lf rest = ([], rest) :=
    splitLines_of_cutLine_none lf (cutLine_eq_none lf hrest)
  rw [splitLines_append, hlines, List.nil_append, htail, List.append_nil]

theorem map_parseRequest_wordLine {cmds : List (List Bytes)}
    (hwords : ∀ cmd ∈ cmds, ∀ word ∈ cmd, IsWord word) :
    (cmds.map wordLine).map parseRequest = cmds := by
  have hid : ∀ cmd ∈ cmds, (parseRequest ∘ wordLine) cmd = id cmd :=
    fun cmd hcmd => parseRequest_wordLine (hwords cmd hcmd)
  rw [List.map_map, List.map_congr_left hid, List.map_id]

/-- What a state of the server owes to the clients that send their commands as lines of quoted
words.  Of any connection the commands are executed up to the first `QUIT`; of an open one all
of them, and what has come of the next one is in the buffer. -/
structure Understands (ctx : ServerCtx) (s : TcpServer) : Prop where
  connection : ∀ c ∈ s.connections, ∀ cmds rest,
    (∀ cmd ∈ cmds, ∀ word ∈ cmd, IsWord word) → lf ∉ rest →
    c.received = cmds.flatMap wordLine ++ rest → c.executed.map Execution.tokens = upToQuit cmds
  session : ∀ fd session, s.sessions.lookup fd = some session →
    ∃ c, newest fd s.connections = some c ∧ c.isOpen = true ∧
      ∀ cmds rest, (∀ cmd ∈ cmds, ∀ word ∈ cmd, IsWord word) → lf ∉ rest →
        c.received = cmds.flatMap wordLine ++ rest →
        c.executed.map Execution.tokens = cmds ∧ session.buffer = rest

/-- **The commands are executed as they were sent**, in every state of every run of the event
loop, for every client that sends lines of words quoted character by character (`wordLine`). -/
theorem commands_understood {env : Nat → Env} {rounds : List Round} {db : Db}
    (hfresh : Steps (TcpServer.turn ctx env) FreshAccepts rounds (.start db)) :
    Always (TcpServer.turn ctx env) (Understands ctx) rounds (.start db) := by
  apply (connection_lines hfresh).mono
  intro s h
  constructor
  · intro c hc cmds rest hwords hrest hreceived
    obtain ⟨closed, hran⟩ := h.connection c hc
    have htokens := hran.tokens
    rwa [hreceived, splitLines_wordLines hwords hrest, map_parseRequest_wordLine hwords] at htokens
  · intro fd session hlookup
    obtain ⟨c, hc, hopen, hran, hbuffer⟩ := h.session fd session hlookup
    refine ⟨c, hc, hopen, fun cmds rest hwords hrest hreceived => ?_⟩
    rw [hreceived, splitLines_wordLines hwords hrest] at hran hbuffer
    refine ⟨?_, hbuffer⟩
    calc c.executed.map Execution.tokens
        = (c.executed.map Execution.line).map parseRequest := by
          rw [List.map_map]
          rfl
      _ = (cmds.map wordLine).map parseRequest := by rw [hran.all.1]
      _ = cmds := map_parseRequest_wordLine hwords

/-- A value with a blank and both quotes in it, and half of the next command. -/
theorem commands_understood_quotes :
    let idle : Revents := ⟨false, false, false, false⟩
    let readable : Revents := ⟨true, false, false, false⟩
    let line := wordLine [bytes "SET", bytes "k", bytes "a \"b' c"] ++ bytes "\"G\""
    let rounds : List Round :=
      [⟨fun _ => idle, true, [5], fun _ => [], fun _ => by decide⟩,
        ⟨fun _ => readable, false, [], fun _ => line.take 9, fun _ => by decide⟩,
        ⟨fun _ => readable, false, [], fun _ => line.drop 9, fun _ => by decide⟩]
    Always (TcpServer.turn ⟨List.length, [], 8080, 4⟩ fun _ => ⟨0, .plain, .success⟩)
      (Understands ⟨List.length, [], 8080, 4⟩) rounds
      (.start ⟨.empty, none, ⟨0, 0, 0, 0, 0, 0, 0, 0⟩⟩) :=
  commands_understood ⟨⟨List.nodup_singleton 5, fun fd _ => AList.notMem_empty fd⟩,
    ⟨List.nodup_nil, fun _ h => absurd h List.not_mem_nil⟩,
    ⟨List.nodup_nil, fun _ h => absurd h List.not_mem_nil⟩, trivial⟩

end KeyValueDb
