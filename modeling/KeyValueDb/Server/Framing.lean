/-
# RESP requests through the line loop

A RESP request is an array of length-prefixed strings and takes several lines.  The event loop
cuts its buffer at every line feed and hands the lines to `execute` one by one, so the decoder
never sees a whole request: the first line of an array is executed as a command `*3`, the
next one as a command `$3`, and so on.

So a list of requests comes through as it was sent only when it is empty (`survives_iff`): each
request is at least two lines that are commands of their own, and a connection that closes has
executed `QUIT`.
-/
import KeyValueDb.Server.Session

namespace KeyValueDb

open Lib RespParser

variable {ctx : ServerCtx} {env : Nat → Env}

/-! ## 1. A connection from its first byte on -/

/-- The reads of a connection, until it is closed. -/
def serveChunks (ctx : ServerCtx) (env : Nat → Env) : List Bytes → Drained → Drained
  | [], d => d
  | chunk :: chunks, d =>
    if d.clientClosed then d
    else
      let r := onChunk ctx env chunk d.session d.db d.served
      serveChunks ctx env chunks { r with executions := d.executions ++ r.executions }

/-- A connection that has just been accepted. -/
def accepted (ctx : ServerCtx) (fd : Fd) (db : Db) : Drained := ⟨.fresh ctx fd, db, 0, [], false⟩

theorem RanThrough.more {xs : List Execution} {lines : List Bytes}
    (h : RanThrough ctx xs lines true) (lines' : List Bytes) :
    RanThrough ctx xs (lines ++ lines') true := by
  generalize hb : true = b at h
  induction h with
  | nil => exact absurd hb (by simp)
  | next x hx _ ih => exact .next x (hx.trans rfl) (ih hb)
  | stop x hx lines => exact .stop x hx (lines ++ lines')

theorem ranThrough_serveChunks (chunks : List Bytes) {d : Drained} {received : Bytes}
    (hran : RanThrough ctx d.executions (splitLines lf received).1 d.clientClosed)
    (htracks : d.clientClosed = false → Tracks ctx received d.executions d.session) :
    RanThrough ctx (serveChunks ctx env chunks d).executions
      (splitLines lf (received ++ chunks.flatten)).1
      (serveChunks ctx env chunks d).clientClosed := by
  induction chunks generalizing d received with
  | nil => simpa [serveChunks] using hran
  | cons chunk chunks ih =>
    rw [serveChunks, List.flatten_cons, ← List.append_assoc]
    split
    · rename_i hclosed
      rw [hclosed] at hran ⊢
      rw [List.append_assoc, splitLines_append]
      exact hran.more _
    · rename_i hopen
      obtain ⟨hran', -, htracks'⟩ :=
        (htracks (by simpa using hopen)).onChunk env chunk d.db d.served
      exact ih hran' htracks'

/-- However they were cut, the lines of the stream are executed until one closes. -/
theorem ranThrough_accepted (ctx : ServerCtx) (env : Nat → Env) (fd : Fd) (db : Db)
    (chunks : List Bytes) :
    RanThrough ctx (serveChunks ctx env chunks (accepted ctx fd db)).executions
      (splitLines lf chunks.flatten).1
      (serveChunks ctx env chunks (accepted ctx fd db)).clientClosed :=
  have htracks : (accepted ctx fd db).clientClosed = false →
      Tracks ctx [] (accepted ctx fd db).executions (accepted ctx fd db).session :=
    fun _ => tracks_fresh ctx fd
  ranThrough_serveChunks chunks .nil htracks

/-! ## 2. Which lines are commands -/

/-- Something has been read. -/
def RespParser.Scan.Holds (st : Scan) : Prop := st.tokens ≠ [] ∨ st.current ≠ []

theorem holds_scanChar {st : Scan} (h : st.Holds) (c : UInt8) : (scanChar st c).Holds := by
  unfold scanChar
  split
  · exact h
  · split
    · exact h
    · split
      · split
        · exact h
        · exact Or.inl (by simp)
      · exact Or.inr (by simp)

theorem holds_foldl {st : Scan} (h : st.Holds) (input : Bytes) :
    (input.foldl scanChar st).Holds := by
  induction input generalizing st with
  | nil => exact h
  | cons c cs ih => exact ih (holds_scanChar h c)

/-- A line that starts with a mark is a command. -/
theorem parseRequest_ne_nil {c : UInt8} (hspace : isspace c = false) (hquote : c ≠ 34 ∧ c ≠ 39)
    (rest : Bytes) : parseRequest (c :: rest) ≠ [] := by
  have hends : c ≠ cr ∧ c ≠ lf := by
    constructor <;> rintro rfl <;> exact absurd hspace (by decide)
  have hfirst : scanChar ⟨[], [], false, 0⟩ c = ⟨[], [c], false, 0⟩ := by
    simp [scanChar, hends.1, hends.2, hquote.1, hquote.2, hspace]
  have hplain : parsePlainText (c :: rest) ≠ [] := by
    have hholds : (rest.foldl scanChar ⟨[], [c], false, 0⟩).Holds :=
      holds_foldl (Or.inr (by simp)) rest
    unfold parsePlainText
    rw [List.foldl_cons, hfirst]
    dsimp only
    split
    · rename_i hcurrent
      exact hholds.resolve_right (not_not.mpr hcurrent)
    · simp
  unfold parseRequest
  rw [List.dropWhile_cons_of_neg (by simp [hspace])]
  simp only [List.cons_ne_nil, if_false]
  split
  · split
    · exact hplain
    · assumption
  · exact hplain

/-- The commands among the lines. -/
def commandsOf (lines : List Bytes) : List (List Bytes) :=
  (lines.map parseRequest).filter fun tokens => tokens ≠ []

theorem commandsOf_append (lines lines' : List Bytes) :
    commandsOf (lines ++ lines') = commandsOf lines ++ commandsOf lines' := by
  simp [commandsOf]

theorem commandsOf_cons {line : Bytes} (h : parseRequest line ≠ []) (lines : List Bytes) :
    commandsOf (line :: lines) = parseRequest line :: commandsOf lines := by
  simp [commandsOf, h]

/-- The first line of an array or of a string of it. -/
theorem splitLines_mark {c : UInt8} (hc : c ≠ lf) (n : Nat) (rest : Bytes) :
    splitLines lf (c :: dec n ++ crlf ++ rest) =
      ((c :: dec n ++ crlf) :: (splitLines lf rest).1, (splitLines lf rest).2) := by
  have hmem : lf ∉ c :: dec n ++ [cr] := by
    intro h
    rcases List.mem_append.mp h with h | h
    · rcases List.mem_cons.mp h with h | h
      · exact hc h.symm
      · exact lf_notMem_dec n h
    · exact absurd (List.mem_singleton.mp h) (by decide)
  have hline := splitLines_line lf hmem rest
  simpa using hline

/-- A request ends with a line feed. -/
theorem bulks_terminated (t : Bytes) (ts : List Bytes) :
    ∃ body, t ++ crlf ++ ts.flatMap serializeBulkString = body ++ [lf] := by
  rcases List.eq_nil_or_concat ts with rfl | ⟨init, last, rfl⟩
  · exact ⟨t ++ [cr], by simp⟩
  · refine ⟨t ++ crlf ++ init.flatMap serializeBulkString ++
      (bytes "$" ++ dec last.length ++ crlf ++ last ++ [cr]), ?_⟩
    simp [serializeBulkString]

theorem splitLines_terminated {xs : Bytes} (h : ∃ body, xs = body ++ [lf]) (rest : Bytes) :
    (splitLines lf (xs ++ rest)).1 = (splitLines lf xs).1 ++ (splitLines lf rest).1 := by
  obtain ⟨body, rfl⟩ := h
  rw [splitLines_append, splitLines_snd_of_terminated, List.nil_append]

/-- The commands of an array: its two first lines, and what the rest is taken for. -/
theorem commandsOf_serializeArray (t : Bytes) (ts : List Bytes) (rest : Bytes) :
    2 + (commandsOf (splitLines lf rest).1).length ≤
      (commandsOf (splitLines lf (serializeArray (t :: ts) ++ rest)).1).length := by
  have hstream : serializeArray (t :: ts) ++ rest =
      star :: dec (t :: ts).length ++ crlf ++ (dollar :: dec t.length ++ crlf ++
        (t ++ crlf ++ ts.flatMap serializeBulkString ++ rest)) := by
    simp [serializeArray, serializeBulkString, bytes]
  have hstar : parseRequest (star :: dec (t :: ts).length ++ crlf) ≠ [] :=
    parseRequest_ne_nil (by decide) (by decide) _
  have hdollar : parseRequest (dollar :: dec t.length ++ crlf) ≠ [] :=
    parseRequest_ne_nil (by decide) (by decide) _
  rw [hstream, splitLines_mark (by decide), splitLines_mark (by decide),
    splitLines_terminated (bulks_terminated t ts)]
  dsimp only
  rw [commandsOf_cons hstar, commandsOf_cons hdollar, commandsOf_append]
  simp only [List.length_cons, List.length_append]
  omega

/-- **Every request is at least two commands.** -/
theorem length_commandsOf (cmds : List (List Bytes)) (hne : ∀ cmd ∈ cmds, cmd ≠ []) :
    2 * cmds.length ≤
      (commandsOf (splitLines lf (cmds.flatMap serializeArray)).1).length := by
  induction cmds with
  | nil => simp
  | cons cmd cmds ih =>
    obtain ⟨t, ts, rfl⟩ := List.exists_cons_of_ne_nil (hne cmd List.mem_cons_self)
    have hih := ih fun cmd hcmd => hne cmd (List.mem_cons_of_mem _ hcmd)
    have hfirst := commandsOf_serializeArray t ts (cmds.flatMap serializeArray)
    rw [List.flatMap_cons, List.length_cons]
    omega

/-! ## 3. What comes through -/

/-- The command that closes. -/
def IsQuit (tokens : List Bytes) : Prop :=
  ∃ word args, tokens = word :: args ∧ toUpper word = bytes "QUIT"

/-- Only `QUIT` closes. -/
theorem isQuit_of_closes {x : Execution} (h : x.closes ctx = true) :
    IsQuit (parseRequest x.line) := by
  unfold Execution.closes Execution.outcome execute at h
  cases hparse : parseRequest x.line with
  | nil => rw [hparse] at h; exact absurd h (by simp)
  | cons word args =>
    rw [hparse] at h
    refine ⟨word, args, rfl, ?_⟩
    by_contra hne
    have hquit : Verb.ofWord (toUpper word) ≠ some .quit := fun hv =>
      hne (Verb.word_of_ofWord hv)
    dsimp only at h
    split at h
    · unfold executeGated at h
      split at h
      · split at h <;> exact absurd h (by simp [answer])
      · rename_i hv; exact hquit hv
      · exact absurd h (by simp [answer])
    · unfold executeOpen at h
      split at h
      · unfold executeAuth at h
        split at h
        · split at h <;> exact absurd h (by simp [answer])
        · exact absurd h (by simp [answer])
      · unfold executePing at h
        split at h <;> exact absurd h (by simp [answer])
      · unfold executeRewrite at h
        split at h
        · exact absurd h (by simp [answer])
        · split at h <;> exact absurd h (by simp [answer])
      · exact absurd h (by simp [executeInfo, answer])
      · rename_i hv; exact hquit hv
      · exact absurd h (by simp [answer])
      · exact absurd h (by simp [answer])

/-- The replies that are sent. -/
def replies (ctx : ServerCtx) (xs : List Execution) : List Bytes :=
  (xs.map fun x => (x.outcome ctx).result.response).filter fun response => response ≠ []

/-- The requests executed directly, each as a whole. -/
def serveDirectly (ctx : ServerCtx) (env : Nat → Env) (cmds : List (List Bytes)) (s : Serving) :
    Serving :=
  cmds.foldl (fun s cmd => (handle ctx env s (serializeArray cmd)).1) s

/-- The requests come through the reads as they were sent: their tokens are what is executed,
once each and in order, with the replies and the store of executing them directly. -/
structure Survives (ctx : ServerCtx) (env : Nat → Env) (fd : Fd) (db : Db)
    (cmds : List (List Bytes)) (chunks : List Bytes) : Prop where
  tokens : commandsOf ((serveChunks ctx env chunks (accepted ctx fd db)).executions.map
    Execution.line) = cmds
  replies : replies ctx (serveChunks ctx env chunks (accepted ctx fd db)).executions =
    replies ctx (serveDirectly ctx env cmds
      ⟨db, decide (ctx.requirepass = []), 0, []⟩).executions
  store : (serveChunks ctx env chunks (accepted ctx fd db)).db.store =
    (serveDirectly ctx env cmds ⟨db, decide (ctx.requirepass = []), 0, []⟩).db.store

/-- **No request comes through the event loop.**  However the encodings of the requests are
cut into reads, they come through only when there are none. -/
theorem survives_iff (env : Nat → Env) (fd : Fd) (db : Db) {cmds : List (List Bytes)}
    {chunks : List Bytes} (hne : ∀ cmd ∈ cmds, cmd ≠ []) (hquit : ∀ cmd ∈ cmds, ¬ IsQuit cmd)
    (hchunks : ∀ chunk ∈ chunks, chunk ≠ [])
    (hstream : chunks.flatten = cmds.flatMap serializeArray) :
    Survives ctx env fd db cmds chunks ↔ cmds = [] := by
  constructor
  · rintro ⟨htokens, -, -⟩
    have hran := ranThrough_accepted ctx env fd db chunks
    set d := serveChunks ctx env chunks (accepted ctx fd db)
    cases hclosed : d.clientClosed with
    | true =>
      rw [hclosed] at hran
      obtain ⟨init, last, hxs, hlast, -⟩ := hran.last
      have hq := isQuit_of_closes hlast
      obtain ⟨word, args, hparse, -⟩ := id hq
      have hmem : parseRequest last.line ∈ cmds := by
        rw [← htokens, hxs, List.map_append, commandsOf_append]
        refine List.mem_append_right _ ?_
        simp [commandsOf, hparse]
      exact absurd hq (hquit _ hmem)
    | false =>
      rw [hclosed] at hran
      have hlen := length_commandsOf cmds hne
      rw [← hstream, ← hran.all.1, htokens] at hlen
      exact List.length_eq_zero_iff.mp (by omega)
  · rintro rfl
    have hnil : chunks = [] := by
      rw [List.flatMap_nil, List.flatten_eq_nil_iff] at hstream
      exact List.eq_nil_iff_forall_not_mem.mpr fun chunk hmem =>
        hchunks chunk hmem (hstream chunk hmem)
    subst hnil
    exact ⟨rfl, rfl, rfl⟩

theorem not_isQuit_cons {word : Bytes} (h : toUpper word ≠ bytes "QUIT") (args : List Bytes) :
    ¬ IsQuit (word :: args) := by
  rintro ⟨word', args', heq, hquit⟩
  obtain ⟨rfl, -⟩ := List.cons.inj heq
  exact h hquit

/-- A `PING` in two pieces. -/
theorem survives_iff_ping :
    ¬ Survives ⟨List.length, [], 8080, 4⟩ (fun _ => ⟨0, .plain, .success⟩) 5
      ⟨.empty, none, ⟨0, 0, 0, 0, 0, 0, 0, 0⟩⟩ [[bytes "PING"]]
      [bytes "*1\r\n$4\r", bytes "\nPING\r\n"] := fun h =>
  absurd ((survives_iff (fun _ => ⟨0, .plain, .success⟩) 5
    ⟨.empty, none, ⟨0, 0, 0, 0, 0, 0, 0, 0⟩⟩ (by decide)
    (by simpa using not_isQuit_cons (by decide) []) (by decide) (by decide)).mp h) (by simp)

/-- A `SET` in one piece: its seven lines are executed as seven commands, and nothing is set. -/
theorem not_survives_set :
    ¬ ∀ (ctx : ServerCtx) (env : Nat → Env) (fd : Fd) (db : Db) (cmds : List (List Bytes))
        (chunks : List Bytes),
        (∀ cmd ∈ cmds, cmd ≠ [] ∧ cmd.length < 2 ^ 31 ∧ ∀ t ∈ cmd, t.length < 2 ^ 31) →
        (∀ cmd ∈ cmds, ¬ IsQuit cmd) →
        (∀ chunk ∈ chunks, chunk ≠ [] ∧ chunk.length ≤ 4096) →
        chunks.flatten = cmds.flatMap serializeArray →
        Survives ctx env fd db cmds chunks := by
  intro hall
  have h := hall ⟨List.length, [], 8080, 4⟩ (fun _ => ⟨0, .plain, .success⟩) 5
    ⟨.empty, none, ⟨0, 0, 0, 0, 0, 0, 0, 0⟩⟩ [[bytes "SET", bytes "k", bytes "v"]]
    [bytes "*3\r\n$3\r\nSET\r\n$1\r\nk\r\n$1\r\nv\r\n"] (by decide)
    (by simpa using not_isQuit_cons (by decide) _) (by decide) (by decide)
  exact absurd h.tokens (by decide)

end KeyValueDb
