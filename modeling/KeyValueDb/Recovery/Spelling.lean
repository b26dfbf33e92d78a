/-
# Two spellings of one run

The same requests, with their command words and the option `EX` in other letters.  The replies
and the live stores of the two runs are the same throughout.  The log keeps the words as they
were typed and the loader compares them as they stand, so the stores that a restart gives are
the same as long as no command that the loader replays is logged in upper case in one run and
in other letters in the other (`respelled_runs`).
-/
import KeyValueDb.Command.Spelling
import KeyValueDb.Recovery.Values

namespace KeyValueDb

open Lib RespParser

/-! ## 1. Replaying a record in other letters -/

/-- The commands that the loader replays from the tokens as they were typed. -/
def typedVerbs : List StoreVerb := [.set, .hset, .hdel, .lpush, .rpush, .del, .expire]

variable {hash : Bytes → Nat} {now : Time} {s : KeyValueStore} {v : StoreVerb} {word : Bytes}
  {args tokens tokens' : List Bytes}

theorem dispatch_of_ofWord_none (h : Verb.ofWord word = none) :
    dispatch hash now (word :: args) s = some s := by
  simp [dispatch, h]

/-- The loader does not know the other commands, `FLUSHDB` apart. -/
theorem dispatch_of_notMem (hv : v ∉ typedVerbs) (hflush : v ≠ .flushdb)
    (h : Spells v (word :: args)) : dispatch hash now (word :: args) s = some s := by
  by_cases hword : word = v.word
  · subst hword
    have hof : Verb.ofWord v.word = some (.store v) := Verb.ofWord_word (.store v)
    cases v <;> simp only [typedVerbs, List.mem_cons, List.not_mem_nil, or_false, or_true,
      reduceCtorEq, not_true_eq_false, ne_eq] at hv hflush
    all_goals simp only [dispatch, hof]
  · exact dispatch_of_ofWord_none (ofWord_of_ne h hword)

/-- The word is in upper case in both spellings or in neither. -/
def SameCase (v : StoreVerb) (tokens tokens' : List Bytes) : Prop :=
  tokens.head? = some v.word ↔ tokens'.head? = some v.word

/-- Two spellings that are both unknown to the loader, or are the same. -/
theorem ofWord_eq_of_sameCase {word' : Bytes} {args' : List Bytes} (h : Spells v (word :: args))
    (h' : Spells v (word' :: args')) (hcase : SameCase v (word :: args) (word' :: args')) :
    word' = word ∨ Verb.ofWord word = none ∧ Verb.ofWord word' = none := by
  simp only [SameCase, List.head?_cons, Option.some.injEq] at hcase
  by_cases hword : word = v.word
  · exact Or.inl ((hcase.mp hword).trans hword.symm)
  · exact Or.inr ⟨ofWord_of_ne h hword, ofWord_of_ne h' fun h' => hword (hcase.mpr h')⟩

/-- **Two spellings are replayed alike.** -/
theorem dispatch_respelled (h : Respelled (.store v) tokens tokens') (hflush : v ≠ .flushdb)
    (hcase : v ∈ typedVerbs → SameCase v tokens tokens') :
    dispatch hash now tokens' s = dispatch hash now tokens s := by
  cases h with
  | @word _ word word' h hof args =>
    have hof' : Verb.ofWord (toUpper word') = some (.store v) := by rw [h, hof]
    by_cases hv : v ∈ typedVerbs
    · rcases ofWord_eq_of_sameCase hof hof' (hcase hv) with rfl | ⟨hnone, hnone'⟩
      · rfl
      · rw [dispatch_of_ofWord_none hnone, dispatch_of_ofWord_none hnone']
    · rw [dispatch_of_notMem hv hflush hof, dispatch_of_notMem hv hflush hof']
  | @option word word' ex ex' h hof key value hex hex' rest =>
    have hof' : Verb.ofWord (toUpper word') = some (.store .set) := by rw [h, hof]
    rcases ofWord_eq_of_sameCase hof hof' (hcase (by decide)) with rfl | ⟨hnone, hnone'⟩
    · by_cases hword : word' = bytes "SET"
      · -- the loader looks at the key and the value only
        subst hword
        rfl
      · have hnone := ofWord_of_ne (show Spells .set [word'] from hof) hword
        rw [dispatch_of_ofWord_none hnone, dispatch_of_ofWord_none hnone]
    · rw [dispatch_of_ofWord_none hnone, dispatch_of_ofWord_none hnone']

/-! ## 2. Two runs -/

/-- A run so far: what it works on, and what each request was answered and left of its
session. -/
structure Ran where
  db : Db
  answers : List (CommandResult × Bool)

def Ran.step (ctx : ServerCtx) (st : Ran) (req : Request) : Ran :=
  let o := execute ctx req.env req.raw st.db req.isAuthenticated
  ⟨o.db, st.answers ++ [(o.result, o.isAuthenticated)]⟩

/-- One request in both runs, each in its own spelling. -/
def stepBoth (ctx : ServerCtx) (st : Ran × Ran) (p : Request × Request) : Ran × Ran :=
  (st.1.step ctx p.1, st.2.step ctx p.2)

/-- Both runs start afresh. -/
def startBoth (metrics : Metrics) : Ran × Ran := (⟨.fresh metrics, []⟩, ⟨.fresh metrics, []⟩)

/-- The same request with its command word, and the option `EX`, in other letters. -/
structure Request.Respelled (req req' : Request) : Prop where
  env : req'.env = req.env
  isAuthenticated : req'.isAuthenticated = req.isAuthenticated
  tokens : ∃ v, KeyValueDb.Respelled v (parseRequest req.raw) (parseRequest req'.raw)

/-- The replies so far and the live stores are the same. -/
def SameAnswers (st : Ran × Ran) : Prop :=
  st.2.answers = st.1.answers ∧ st.2.db.store = st.1.db.store

/-- A restart gives the same store. -/
def SameRestart (lim : Limits) (hash : Bytes → Nat) (clock : Nat → Time) (st : Ran × Ran) :
    Prop :=
  st.2.db.restart lim hash clock = st.1.db.restart lim hash clock

/-- A command that the loader replays as it was typed, if it is logged, is in upper case in both
runs or in neither. -/
def SameCases (ctx : ServerCtx) (st : Ran × Ran) (p : Request × Request) : Prop :=
  ∀ v tokens tokens', p.1.Asks ctx (.store v) tokens → p.2.Asks ctx (.store v) tokens' →
    v ∈ typedVerbs →
    (Command.run ctx.hash p.1.env.order p.1.env.now tokens st.1.db.store v).record.isSome →
    SameCase v tokens tokens'

/-! ## 3. Twins -/

/-- Two databases that differ only in the spelling of what they logged. -/
structure Twins (hash : Bytes → Nat) (records records' : List (List Bytes)) (db db' : Db) :
    Prop where
  reachable : Reachable hash db.store
  store : db'.store = db.store
  metrics : db'.metrics = db.metrics
  log : ∃ tmp, db.aof = some ⟨true, true, ⟨some (encodeLog records), tmp⟩⟩
  log' : ∃ tmp, db'.aof = some ⟨true, true, ⟨some (encodeLog records'), tmp⟩⟩
  nonempty : ∀ r ∈ records, r ≠ []
  lengths : records'.map (List.map List.length) = records.map (List.map List.length)

theorem twins_fresh (hash : Bytes → Nat) (metrics : Metrics) :
    Twins hash [] [] (.fresh metrics) (.fresh metrics) :=
  ⟨Reachable.empty, rfl, rfl, ⟨none, rfl⟩, ⟨none, rfl⟩, fun _ h => absurd h List.not_mem_nil, rfl⟩

section Twins

variable {records records' : List (List Bytes)} {db db' : Db}

theorem length_toUpper (str : Bytes) : (toUpper str).length = str.length := List.length_map ..

theorem Respelled.lengths {v : Verb} (h : Respelled v tokens tokens') :
    tokens'.map List.length = tokens.map List.length := by
  cases h with
  | @word _ word word' h hof args =>
    rw [List.map_cons, List.map_cons, ← length_toUpper word', h, length_toUpper]
  | @option word word' ex ex' h hof key value hex hex' rest =>
    simp only [List.map_cons]
    rw [← length_toUpper word', ← length_toUpper ex', h, hex', ← hex, length_toUpper,
      length_toUpper]

theorem Limits.Holds.of_lengths {lim : Limits} (h : lim.Holds tokens)
    (hlen : tokens'.map List.length = tokens.map List.length) : lim.Holds tokens' := by
  have hcount : tokens'.length = tokens.length := by
    simpa using congrArg List.length hlen
  refine ⟨by rw [hcount]; exact h.count, fun t ht => ?_⟩
  have hmem : t.length ∈ tokens.map List.length := by
    rw [← hlen]
    exact List.mem_map_of_mem ht
  obtain ⟨u, hu, heq⟩ := List.mem_map.mp hmem
  rw [← heq]
  exact h.each u hu

/-- Each record of the one log is as long as one of the other. -/
theorem Twins.exists_lengths (h : Twins hash records records' db db') {r' : List Bytes}
    (hr : r' ∈ records') : ∃ r ∈ records, r'.map List.length = r.map List.length := by
  have hmem := List.mem_map_of_mem (f := List.map List.length) hr
  rw [h.lengths] at hmem
  obtain ⟨r, hr, heq⟩ := List.mem_map.mp hmem
  exact ⟨r, hr, heq.symm⟩

theorem Twins.nonempty' (h : Twins hash records records' db db') : ∀ r ∈ records', r ≠ [] := by
  rintro _ hr rfl
  obtain ⟨r, hr, heq⟩ := h.exists_lengths hr
  exact h.nonempty r hr (List.map_eq_nil_iff.mp heq.symm)

/-- What the two logs restart as. -/
theorem Twins.restart (h : Twins hash records records' db db') {lim : Limits}
    (hfits : db.Fits lim) (clock : Nat → Time) :
    db.restart lim hash clock = some (replay hash clock 0 records (0, .empty)).2 ∧
      db'.restart lim hash clock = some (replay hash clock 0 records' (0, .empty)).2 := by
  obtain ⟨tmp, hlog⟩ := h.log
  obtain ⟨tmp', hlog'⟩ := h.log'
  have hholds := hfits records h.nonempty (by rw [hlog]; rfl)
  have hholds' : ∀ r ∈ records', lim.Holds r := by
    intro r' hr
    obtain ⟨r, hr, heq⟩ := h.exists_lengths hr
    exact (hholds r hr).of_lengths heq
  exact ⟨restart_eq h.nonempty hholds hlog clock, restart_eq h.nonempty' hholds' hlog' clock⟩

/-- The records a reply adds to a log. -/
theorem log_apply {tmp : Option Bytes}
    (hlog : db.aof = some ⟨true, true, ⟨some (encodeLog records), tmp⟩⟩) {r : Reply}
    (hne : ∀ record, r.record = some record → record ≠ []) :
    (db.apply r).aof =
      some ⟨true, true, ⟨some (encodeLog (records ++ r.record.toList)), tmp⟩⟩ := by
  unfold Db.apply
  cases hrecord : r.record with
  | none => simp [hlog]
  | some record =>
    simp only [hlog, Option.map_some, Option.toList_some]
    rw [append_eq rfl rfl (hne record hrecord), encodeLog_append]
    simp [Disk.extend, encodeLog]

theorem Reply.Alike.lengths {r r' : Reply} (h : Reply.Alike tokens tokens' r r')
    (hlen : tokens'.map List.length = tokens.map List.length) :
    r'.record.toList.map (List.map List.length) = r.record.toList.map (List.map List.length) := by
  rcases h.record with hsame | ⟨hrecord, hrecord'⟩
  · rw [hsame]
  · rw [hrecord, hrecord', Option.toList_some, Option.toList_some, List.map_singleton,
      List.map_singleton, hlen]

/-- **A branch on the store** keeps twins twins. -/
theorem Twins.apply (h : Twins hash records records' db db') {r r' : Reply}
    (halike : Reply.Alike tokens tokens' r r')
    (hlen : tokens'.map List.length = tokens.map List.length)
    (hne : ∀ record, r.record = some record → record ≠ []) (hreach : Reachable hash r.store) :
    Twins hash (records ++ r.record.toList) (records' ++ r'.record.toList) (db.apply r)
      (db'.apply r') := by
  obtain ⟨tmp, hlog⟩ := h.log
  obtain ⟨tmp', hlog'⟩ := h.log'
  have hlengths := halike.lengths hlen
  have hne' : ∀ record, r'.record = some record → record ≠ [] := by
    rintro _ hrecord rfl
    rw [hrecord] at hlengths
    cases hr : r.record with
    | none =>
      rw [hr] at hlengths
      cases hlengths
    | some record =>
      rw [hr] at hlengths
      simp only [Option.toList_some, List.map_cons, List.map_nil, List.cons.injEq, and_true]
        at hlengths
      exact hne record hr (List.map_eq_nil_iff.mp hlengths.symm)
  refine ⟨hreach, halike.store, ?_, ⟨tmp, log_apply hlog hne⟩, ⟨tmp', log_apply hlog' hne'⟩, ?_, ?_⟩
  · simp only [Db.apply, h.metrics, halike.reads, halike.writes]
  · intro record hrecord
    rcases List.mem_append.mp hrecord with hrecord | hrecord
    · exact h.nonempty record hrecord
    · exact hne record (Option.mem_toList.mp hrecord)
  · rw [List.map_append, List.map_append, h.lengths, hlengths]

/-! ## 4. One request -/

/-- The outcomes are the same but for the spelling of the log. -/
structure TwinOutcomes (hash : Bytes → Nat) (records records' : List (List Bytes))
    (o o' : Outcome) : Prop where
  result : o'.result = o.result
  flag : o'.isAuthenticated = o.isAuthenticated
  twins : Twins hash records records' o.db o'.db

variable {ctx : ServerCtx} {env : Env} {word' : Bytes} {args' : List Bytes} {verb : Verb}
  {isAuthenticated : Bool}

theorem Twins.answered (h : Twins hash records records' db db') (response : Bytes) (flag : Bool) :
    TwinOutcomes hash records records' (answer response db flag) (answer response db' flag) :=
  ⟨rfl, rfl, h⟩

/-- Before the password. -/
theorem Twins.executeGated (h : Twins hash records records' db db')
    (hword : Respelled verb (word :: args) (word' :: args')) :
    TwinOutcomes hash records records' (executeGated ctx word args db)
      (executeGated ctx word' args' db') := by
  cases hword with
  | word heq hof =>
    unfold KeyValueDb.executeGated
    rw [heq, hof]
    cases verb with
    | auth =>
      dsimp only
      split
      · exact h.answered ok true
      · exact h.answered _ false
    | quit => exact ⟨rfl, rfl, h⟩
    | ping | bgrewriteaof | info => exact h.answered _ false
    | store v => exact h.answered _ false
  | option heq hof =>
    unfold KeyValueDb.executeGated
    rw [heq, hof]
    exact h.answered _ false

theorem Twins.executeAuth (h : Twins hash records records' db db') :
    TwinOutcomes hash records records' (executeAuth ctx args db isAuthenticated)
      (executeAuth ctx args db' isAuthenticated) := by
  unfold KeyValueDb.executeAuth
  split
  · split
    · exact h.answered ok true
    · exact h.answered _ isAuthenticated
  · exact h.answered _ isAuthenticated

theorem Twins.executePing (h : Twins hash records records' db db') :
    TwinOutcomes hash records records' (executePing args db isAuthenticated)
      (executePing args db' isAuthenticated) := by
  cases args with
  | nil => exact h.answered _ isAuthenticated
  | cons arg args => exact h.answered _ isAuthenticated

/-- A compaction writes the same log in both runs. -/
theorem Twins.executeRewrite (h : Twins hash records records' db db') (hio : env.io = .success) :
    let new := snapshotRecords (db.store.getSnapshot env.order env.now)
    TwinOutcomes hash new new (executeRewrite env db isAuthenticated)
      (executeRewrite env db' isAuthenticated) := by
  intro new
  obtain ⟨tmp, hlog⟩ := h.log
  obtain ⟨tmp', hlog'⟩ := h.log'
  rw [executeRewrite_enabled hlog rfl, executeRewrite_enabled hlog' rfl, hio, h.store,
    rewrite_success, rewrite_success]
  exact ⟨rfl, rfl, h.reachable, rfl, h.metrics, ⟨none, rfl⟩, ⟨none, rfl⟩,
    snapshotRecords_ne_nil _, rfl⟩

theorem Twins.executeInfo (h : Twins hash records records' db db') :
    TwinOutcomes hash records records' (executeInfo ctx env db isAuthenticated)
      (executeInfo ctx env db' isAuthenticated) := by
  unfold KeyValueDb.executeInfo
  rw [h.metrics, h.store]
  exact h.answered _ isAuthenticated

/-- The loader does the same with both logs. -/
def SameReplay (hash : Bytes → Nat) (clock : Nat → Time) (records records' : List (List Bytes)) :
    Prop :=
  replay hash clock 0 records' (0, .empty) = replay hash clock 0 records (0, .empty)

/-- **What a command adds to the two logs is replayed alike.** -/
theorem replay_respelled {order : IterOrder} (h : Respelled (.store v) tokens tokens')
    (hcase : v ∈ typedVerbs →
      (Command.run hash order now tokens s v).record.isSome → SameCase v tokens tokens')
    (clock : Nat → Time) (i : Nat) (acc : Nat × KeyValueStore) :
    replay hash clock i (Command.run hash order now tokens' s v).record.toList acc =
      replay hash clock i (Command.run hash order now tokens s v).record.toList acc := by
  have halike := Command.alike_run hash order now s h
  rcases halike.record with hsame | ⟨hrecord, hrecord'⟩
  · rw [hsame]
  · by_cases hflush : v = .flushdb
    · subst hflush
      rfl
    · have hone : dispatch hash (clock i) tokens' acc.2 = dispatch hash (clock i) tokens acc.2 :=
        dispatch_respelled h hflush fun hv => hcase hv (by rw [hrecord]; rfl)
      rw [hrecord, hrecord', Option.toList_some, Option.toList_some, replay, replay, replay, replay,
        replayRecord, replayRecord, hone]

theorem Twins.sameReplay (h : Twins hash records records' db db') {clock : Nat → Time}
    (hsame : SameReplay hash clock records records') {new new' : List (List Bytes)}
    (hnew : ∀ i acc, replay hash clock i new' acc = replay hash clock i new acc) :
    SameReplay hash clock (records ++ new) (records' ++ new') := by
  have hlength : records'.length = records.length := by
    simpa using congrArg List.length h.lengths
  rw [SameReplay, replay_append, replay_append, hlength, hnew, hsame]

theorem Respelled.exists_cons {v : Verb} (h : Respelled v tokens tokens') :
    ∃ word args word' args', tokens = word :: args ∧ tokens' = word' :: args' ∧
      Verb.ofWord (toUpper word) = some v ∧ Verb.ofWord (toUpper word') = some v := by
  cases h with
  | word heq hof => exact ⟨_, _, _, _, rfl, rfl, hof, by rw [heq, hof]⟩
  | option heq hof => exact ⟨_, _, _, _, rfl, rfl, hof, by rw [heq, hof]⟩

theorem Twins.counted (h : Twins hash records records' db db') :
    Twins hash records records'
      { db with metrics := db.metrics.onCommandProcessed }
      { db' with metrics := db'.metrics.onCommandProcessed } :=
  ⟨h.reachable, h.store, congrArg Metrics.onCommandProcessed h.metrics, h.log, h.log', h.nonempty,
    h.lengths⟩

/-- What a request does to twins: the outcomes are the same, and if the loader did the same with
both logs it still does, unless the request is logged in different cases. -/
def Twins.Served (ctx : ServerCtx) (clock : Nat → Time) (records records' : List (List Bytes))
    (hcases : Prop) (o o' : Outcome) : Prop :=
  ∃ new new', TwinOutcomes ctx.hash new new' o o' ∧
    (hcases → SameReplay ctx.hash clock records records' → SameReplay ctx.hash clock new new')

/-- Past the password. -/
theorem Twins.executeOpen (h : Twins ctx.hash records records' db db')
    (hword : Respelled verb (word :: args) (word' :: args')) (hio : env.io = .success)
    (clock : Nat → Time) {hcases : Prop}
    (hcase : hcases → ∀ v, verb = .store v → v ∈ typedVerbs →
      (Command.run ctx.hash env.order env.now (word :: args) db.store v).record.isSome →
        SameCase v (word :: args) (word' :: args')) :
    Twins.Served ctx clock records records' hcases
      (executeOpen ctx env word args db isAuthenticated)
      (executeOpen ctx env word' args' db' isAuthenticated) := by
  obtain ⟨_, _, _, _, htokens, htokens', hof, hof'⟩ := hword.exists_cons
  obtain ⟨rfl, rfl⟩ := List.cons.inj htokens
  obtain ⟨rfl, rfl⟩ := List.cons.inj htokens'
  unfold KeyValueDb.executeOpen
  rw [hof, hof']
  cases verb with
  | store v =>
    have halike := Command.alike_run ctx.hash env.order env.now db.store hword
    have hne : ∀ record, (Command.run ctx.hash env.order env.now (word :: args) db.store
        v).record = some record → record ≠ [] := by
      intro record hrecord
      cases run_effect env.order env.now v (word :: args) h.reachable.noEmpty with
      | quiet hnone =>
        rw [hnone] at hrecord
        cases hrecord
      | logged _ hsome hlogged =>
        rw [hsome, Option.some.injEq] at hrecord
        rw [← hrecord]
        exact hlogged.record_ne_nil
    have happly := h.apply halike hword.lengths hne (h.reachable.command _ _ _ v)
    dsimp only
    rw [h.store]
    refine ⟨_, _, ⟨?_, rfl, happly⟩, fun hc hsame => h.sameReplay hsame ?_⟩
    · rw [answer, answer, halike.response]
    · exact replay_respelled hword (fun hv hsome => hcase hc v rfl hv hsome) clock
  | auth =>
    cases hword with
    | word => exact ⟨_, _, h.executeAuth, fun _ hsame => hsame⟩
  | ping =>
    cases hword with
    | word => exact ⟨_, _, h.executePing, fun _ hsame => hsame⟩
  | bgrewriteaof => exact ⟨_, _, h.executeRewrite hio, fun _ _ => rfl⟩
  | info => exact ⟨_, _, h.executeInfo, fun _ hsame => hsame⟩
  | quit => exact ⟨_, _, ⟨rfl, rfl, h⟩, fun _ hsame => hsame⟩

/-- **One request in two spellings.** -/
theorem Twins.step {st : Ran × Ran} {p : Request × Request}
    (h : Twins ctx.hash records records' st.1.db st.2.db) (hp : p.1.Respelled p.2)
    (hio : p.1.env.io = .success) (clock : Nat → Time) :
    Twins.Served ctx clock records records' (SameCases ctx st p)
      (execute ctx p.1.env p.1.raw st.1.db p.1.isAuthenticated)
      (execute ctx p.2.env p.2.raw st.2.db p.2.isAuthenticated) := by
  obtain ⟨henv, hauth, verb, hword⟩ := hp
  obtain ⟨word, args, word', args', hparse, hparse', hof, hof'⟩ := hword.exists_cons
  rw [hparse, hparse'] at hword
  rw [henv, hauth]
  unfold execute
  simp only [hparse, hparse']
  split
  · exact ⟨_, _, h.counted.executeGated hword, fun _ hsame => hsame⟩
  · rename_i hgate
    have hadmitted : Admitted ctx p.1.isAuthenticated := by rwa [gated_iff, not_not] at hgate
    refine h.counted.executeOpen hword hio clock fun hcases v hv htyped hsome => ?_
    subst hv
    refine hcases v _ _ ⟨hadmitted, ?_⟩ ⟨hauth ▸ hadmitted, ?_⟩ htyped hsome
    · simp only [request?, hparse, hof, Option.map_some]
    · simp only [request?, hparse', hof', Option.map_some]

end Twins

/-! ## 5. Runs -/

/-- The two runs are answered alike and are twins. -/
def TwinRuns (hash : Bytes → Nat) (st : Ran × Ran) : Prop :=
  st.2.answers = st.1.answers ∧
    ∃ records records', Twins hash records records' st.1.db st.2.db

theorem twinRuns_start (hash : Bytes → Nat) (metrics : Metrics) :
    TwinRuns hash (startBoth metrics) := ⟨rfl, [], [], twins_fresh _ _⟩

theorem TwinRuns.sameAnswers {st : Ran × Ran} (h : TwinRuns hash st) : SameAnswers st := by
  obtain ⟨hanswers, records, records', htwins⟩ := h
  exact ⟨hanswers, htwins.store⟩

theorem TwinRuns.step {ctx : ServerCtx} {st : Ran × Ran} {p : Request × Request}
    (h : TwinRuns ctx.hash st) (hp : p.1.Respelled p.2) (hio : p.1.env.io = .success) :
    TwinRuns ctx.hash (stepBoth ctx st p) := by
  obtain ⟨hanswers, records, records', htwins⟩ := h
  obtain ⟨new, new', hout, -⟩ := htwins.step hp hio fun _ => 0
  refine ⟨?_, new, new', hout.twins⟩
  simp only [stepBoth, Ran.step, hanswers, hout.result, hout.flag]

/-- Twins whose logs can be read and are replayed alike. -/
def ReplayedAlike (lim : Limits) (hash : Bytes → Nat) (clock : Nat → Time) (st : Ran × Ran) :
    Prop :=
  st.1.db.Fits lim ∧ ∃ records records', Twins hash records records' st.1.db st.2.db ∧
    SameReplay hash clock records records'

theorem ReplayedAlike.sameRestart {lim : Limits} {clock : Nat → Time} {st : Ran × Ran}
    (h : ReplayedAlike lim hash clock st) : SameRestart lim hash clock st := by
  obtain ⟨hfits, records, records', htwins, hsame⟩ := h
  obtain ⟨hrestart, hrestart'⟩ := htwins.restart hfits clock
  rw [SameRestart, hrestart, hrestart', hsame]

/-- **The letters of the command words make no difference** to the replies and the live store,
in every run; and none to what a restart gives, in the runs in which every command that the
loader replays as it was typed is logged in upper case in both spellings or in neither. -/
theorem respelled_runs (lim : Limits) (ctx : ServerCtx) (clock : Nat → Time) (metrics : Metrics)
    (reqs : List (Request × Request))
    (hreqs : ∀ p ∈ reqs, p.1.Respelled p.2 ∧ p.1.env.io = .success)
    (hfits : Always (stepBoth ctx) (fun st => st.1.db.Fits lim) reqs (startBoth metrics)) :
    Always (stepBoth ctx) SameAnswers reqs (startBoth metrics) ∧
      (Steps (stepBoth ctx) (SameCases ctx) reqs (startBoth metrics) →
        Always (stepBoth ctx) (SameRestart lim ctx.hash clock) reqs (startBoth metrics)) := by
  have hall : Steps (stepBoth ctx) (fun _ p => p.1.Respelled p.2 ∧ p.1.env.io = .success) reqs
      (startBoth metrics) := steps_of_forall hreqs _
  constructor
  · exact (always_of_steps (fun _ _ h hp => h.step hp.1 hp.2) (twinRuns_start _ _) hall).mono
      fun _ h => h.sameAnswers
  · intro hcases
    refine (always_of_steps (I := ReplayedAlike lim ctx.hash clock) ?_ ?_
      ((hall.and hcases).and hfits.steps)).mono fun _ h => h.sameRestart
    · rintro st p ⟨-, records, records', htwins, hsame⟩ ⟨⟨⟨hp, hio⟩, hcase⟩, -, hfits'⟩
      obtain ⟨new, new', hout, hreplay⟩ := htwins.step hp hio clock
      exact ⟨hfits', new, new', hout.twins, hreplay hcase hsame⟩
    · exact ⟨hfits.head, [], [], twins_fresh _ _, rfl⟩

/-- The word is spelled the same in both runs. -/
theorem sameCases_of_head {ctx : ServerCtx} {p : Request × Request}
    (h : (parseRequest p.2.raw).head? = (parseRequest p.1.raw).head?) (st : Ran × Ran) :
    SameCases ctx st p := by
  rintro v tokens tokens' ⟨-, hreq⟩ ⟨-, hreq'⟩ - -
  obtain ⟨word, args, rfl, hparse, -⟩ := request?_eq_some hreq
  obtain ⟨word', args', rfl, hparse', -⟩ := request?_eq_some hreq'
  rw [hparse, hparse'] at h
  rw [SameCase, h]

/-- The loader does not replay the command as it was typed. -/
theorem sameCases_of_notMem {ctx : ServerCtx} {p : Request × Request} {v : StoreVerb}
    {tokens : List Bytes} (h : request? p.1.raw = some (.store v, tokens))
    (hv : v ∉ typedVerbs) (st : Ran × Ran) : SameCases ctx st p := by
  rintro v' tokens' - ⟨-, hreq⟩ - htyped -
  rw [h, Option.some.injEq, Prod.mk.injEq, Verb.store.injEq] at hreq
  exact absurd (hreq.1 ▸ htyped) hv

theorem Request.respelled_of {v : Verb} {env : Env} {raw raw' : Bytes} {isAuthenticated : Bool}
    (h : KeyValueDb.Respelled v tokens tokens') (hraw : parseRequest raw = tokens)
    (hraw' : parseRequest raw' = tokens') :
    Request.Respelled ⟨env, raw, isAuthenticated⟩ ⟨env, raw', isAuthenticated⟩ :=
  ⟨rfl, rfl, v, by rwa [hraw, hraw']⟩

theorem respelled_runs_option :
    let ctx : ServerCtx := ⟨List.length, [], 8080, 4⟩
    let env : Env := ⟨0, .plain, .success⟩
    let lim : Limits := ⟨99, 99, by decide, by decide⟩
    let reqs : List (Request × Request) :=
      [(⟨env, bytes "SET k v EX 5\n", true⟩, ⟨env, bytes "SET k v ex 5\n", true⟩),
        (⟨env, bytes "INCR c\n", true⟩, ⟨env, bytes "incr c\n", true⟩)]
    Always (stepBoth ctx) SameAnswers reqs (startBoth ⟨0, 0, 0, 0, 0, 0, 0, 0⟩) ∧
      Always (stepBoth ctx) (SameRestart lim ctx.hash fun _ => 0) reqs
        (startBoth ⟨0, 0, 0, 0, 0, 0, 0, 0⟩) := by
  intro ctx env lim reqs
  have hshort : Always (stepBoth ctx) (fun st => st.1.db.logLength ≤ 99) reqs
      (startBoth ⟨0, 0, 0, 0, 0, 0, 0, 0⟩) := by decide
  have hreqs : ∀ p ∈ reqs, p.1.Respelled p.2 ∧ p.1.env.io = .success := by
    intro p hp
    simp only [reqs, List.mem_cons, List.not_mem_nil, or_false] at hp
    rcases hp with rfl | rfl
    · have hword : Respelled (.store .set)
          [bytes "SET", bytes "k", bytes "v", bytes "EX", bytes "5"]
          [bytes "SET", bytes "k", bytes "v", bytes "ex", bytes "5"] :=
        .option rfl rfl _ _ rfl rfl _
      exact ⟨Request.respelled_of hword (by decide) (by decide), rfl⟩
    · have hword : Respelled (.store .incr) [bytes "INCR", bytes "c"]
          [bytes "incr", bytes "c"] := .word (by decide) rfl _
      exact ⟨Request.respelled_of hword (by decide) (by decide), rfl⟩
  obtain ⟨hanswers, hrestart⟩ := respelled_runs lim ctx (fun _ => 0) ⟨0, 0, 0, 0, 0, 0, 0, 0⟩ reqs
    hreqs (hshort.mono fun st h => fits_of_length h h)
  exact ⟨hanswers, hrestart ⟨sameCases_of_head (by decide) _,
    sameCases_of_notMem (v := .incr) rfl (by decide) _, trivial⟩⟩

/-- **`set` for `SET`**: the replies are the same, and a restart loses the value. -/
theorem not_sameRestart_of_lower :
    let ctx : ServerCtx := ⟨List.length, [], 8080, 4⟩
    let env : Env := ⟨0, .plain, .success⟩
    let lim : Limits := ⟨99, 99, by decide, by decide⟩
    let p : Request × Request :=
      (⟨env, bytes "SET k v\n", true⟩, ⟨env, bytes "set k v\n", true⟩)
    let st := stepBoth ctx (startBoth ⟨0, 0, 0, 0, 0, 0, 0, 0⟩) p
    p.1.Respelled p.2 ∧ SameAnswers st ∧ st.1.db.Fits lim ∧
      ¬ SameRestart lim ctx.hash (fun _ => 0) st := by
  intro ctx env lim p st
  have hlength : st.1.db.logLength ≤ 99 := by decide
  have hword : Respelled (.store .set) [bytes "SET", bytes "k", bytes "v"]
      [bytes "set", bytes "k", bytes "v"] := .word (by decide) rfl _
  have hp : p.1.Respelled p.2 := Request.respelled_of hword (by decide) (by decide)
  refine ⟨hp, ((twinRuns_start _ _).step hp rfl).sameAnswers, fits_of_length hlength hlength, ?_⟩
  intro h
  let value (s : KeyValueStore) : Option Bytes := (s.get ctx.hash 0 (bytes "k")).1
  have hget := congrArg (Option.map value) h
  have hupper : (st.1.db.restart lim ctx.hash fun _ => 0).map value = some (some (bytes "v")) := by
    decide
  have hlower : (st.2.db.restart lim ctx.hash fun _ => 0).map value = some none := by decide
  rw [hupper, hlower] at hget
  exact absurd hget (by simp)

end KeyValueDb
