/-
# Nothing but words

A server whose requests come as lines holds and logs nothing but words: no key, value, field or
element of its store is empty or has a line end in it, and neither has a token of its log.  That
stays so through expiries, evictions, compactions and restarts (`words_only`).
-/
import KeyValueDb.Aof.Calls
import KeyValueDb.Command.Keys
import KeyValueDb.Recovery.Values
import KeyValueDb.Server.Words

namespace KeyValueDb

open Lib RespParser FlatStore

/-! ## 1. The steps of a server that is given lines -/

/-- What can happen to a server on its event loop: a line of a client, the two passes of the
janitor, and a restart from the log.  Every file operation succeeds. -/
inductive LineStep (ctx : ServerCtx) (lim : Limits) (db : Db) : Db → Prop
  | line (env : Env) (hio : env.io = .success) {line : Bytes} (hline : IsLine lf line)
      (isAuthenticated : Bool) :
    LineStep ctx lim db (execute ctx env line db isAuthenticated).db
  | purge (order : IterOrder) (now : Time) (maxKeysPerShard : Nat) :
    LineStep ctx lim db { db with
      store := (db.store.purgeExpiredKeys order now maxKeysPerShard).2 }
  | evict (order : IterOrder) (sorter : SortOrder) (keysToEvict : Nat) :
    LineStep ctx lim db { db with store := (db.store.evictLruKeys order sorter keysToEvict).2 }
  | restart (hfits : db.Fits lim) (clock : Nat → Time) (metrics : Metrics)
      {store : KeyValueStore} (h : db.restart lim ctx.hash clock = some store) :
    LineStep ctx lim db { db with store := store, metrics := metrics }

/-- The store holds words, and the log is the encoding of records of words. -/
structure WordsOnly (hash : Bytes → Nat) (db : Db) : Prop where
  texts : (db.store.view hash).AllTexts IsWord
  log : ∃ records, Journal hash records db ∧ ∀ r ∈ records, ∀ t ∈ r, IsWord t

variable {ctx : ServerCtx} {lim : Limits} {db db' : Db} {hash : Bytes → Nat}

/-! ## 2. Texts that the server makes itself -/

theorem isWord_dec (n : Nat) : IsWord (dec n) :=
  ⟨dec_ne_nil n, cr_notMem_dec n, lf_notMem_dec n⟩

theorem isWord_stdToString (n : Int) : IsWord (stdToString n) := by
  have hdec := isWord_dec n.natAbs
  unfold stdToString
  split
  · refine ⟨by simp, ?_, ?_⟩ <;> rw [List.mem_cons, not_or]
    · exact ⟨by decide, hdec.oneLine.1⟩
    · exact ⟨by decide, hdec.oneLine.2⟩
  · exact hdec

/-- A record is the tokens of the command, or made of them and of words of its own. -/
theorem Logged.isWord {now : Time} {F F' : FlatStore} {v : StoreVerb} {tokens record : List Bytes}
    (h : Logged now F v tokens record F') (htokens : ∀ t ∈ tokens, IsWord t) :
    ∀ t ∈ record, IsWord t := by
  cases h with
  | setex w key value h =>
    simp only [List.mem_cons, List.not_mem_nil, or_false, forall_eq_or_imp, forall_eq] at htokens ⊢
    obtain ⟨-, hkey, hseconds, hvalue⟩ := htokens
    exact ⟨by decide, hkey, hvalue, by decide, hseconds⟩
  | flushdb =>
    rw [List.forall_mem_singleton]
    decide
  | _ => exact htokens

/-- What a compaction writes of a store of words. -/
theorem isWord_snapshotRecords {now : Time} {s : KeyValueStore} (h : WellPlaced hash s)
    (htexts : (s.view hash).AllTexts IsWord) (order : IterOrder) :
    ∀ r ∈ snapshotRecords (s.getSnapshot order now), ∀ t ∈ r, IsWord t := by
  have hshows := h.getSnapshot_shows order now
  intro r hr
  simp only [snapshotRecords, List.mem_append, List.mem_map, List.mem_flatMap,
    List.mem_filter] at hr
  rcases hr with (⟨⟨k, v⟩, hentry, rfl⟩ | ⟨⟨k, ps⟩, hentry, ⟨f, v⟩, hfield, rfl⟩) |
    ⟨⟨k, l⟩, ⟨hentry, -⟩, rfl⟩
  · obtain ⟨e, he, rfl⟩ := Option.map_eq_some_iff.mp ((hshows.strings.2 k v).mp hentry)
    obtain ⟨hkey, hvalue⟩ := htexts.strings k e (Option.filter_eq_some_iff.mp he).1
    simp only [setRecord, List.mem_cons, List.not_mem_nil, or_false, forall_eq_or_imp, forall_eq]
    exact ⟨by decide, hkey, hvalue⟩
  · obtain ⟨m, hm, hlists⟩ := hshows.hashFields k ps hentry
    obtain ⟨hkey, hfields⟩ := htexts.hashes k m hm
    obtain ⟨hf, hv⟩ := hfields f v ((hlists.2 f v).mp hfield)
    simp only [hsetRecord, List.mem_cons, List.not_mem_nil, or_false, forall_eq_or_imp, forall_eq]
    exact ⟨by decide, hkey, hf, hv⟩
  · obtain ⟨hkey, helems⟩ := htexts.lists k l ((hshows.lists.2 k l).mp hentry)
    simp only [rpushRecord, List.mem_cons, forall_eq_or_imp]
    exact ⟨by decide, hkey, helems⟩

/-! ## 3. Runs -/

theorem wordsOnly_fresh (hash : Bytes → Nat) (metrics : Metrics) :
    WordsOnly hash (.fresh metrics) where
  texts := allTexts_empty IsWord
  log := ⟨[], journal_fresh hash metrics, fun _ h => absurd h List.not_mem_nil⟩

/-- A pass of the janitor. -/
theorem WordsOnly.maintained (h : WordsOnly hash db) {store : KeyValueStore}
    (hreach : Reachable hash store) (htexts : (store.view hash).AllTexts IsWord) :
    WordsOnly hash { db with store := store } := by
  obtain ⟨records, hjournal, hwords⟩ := h.log
  exact ⟨htexts, records, ⟨hreach, hjournal.nonempty, hjournal.log⟩, hwords⟩

/-- **A line.** -/
theorem WordsOnly.line (h : WordsOnly ctx.hash db) {env : Env} (hio : env.io = .success)
    {line : Bytes} (hline : IsLine lf line) (isAuthenticated : Bool) :
    WordsOnly ctx.hash (execute ctx env line db isAuthenticated).db := by
  obtain ⟨records, hjournal, hwords⟩ := h.log
  set req : Request := ⟨env, line, isAuthenticated⟩
  have htokens : ∀ {v : Verb} {tokens : List Bytes}, req.Asks ctx v tokens →
      ∀ t ∈ tokens, IsWord t := by
    intro v tokens hasks
    obtain ⟨word, args, rfl, hparse, -⟩ := request?_eq_some hasks.2
    exact (sendable_iff (word :: args)).mp ⟨line, hline, hparse⟩
  constructor
  · have hstore := store_serve ctx db req
    rw [show (execute ctx env line db isAuthenticated).db = serve ctx db req from rfl, hstore]
    refine allTexts_makeCalls isWord_stdToString (fun c hc t ht => ?_) _ _ h.texts
    obtain ⟨v, tokens, hasks⟩ := asks_of_mem_calls hc
    rw [calls_of_asks hasks] at hc
    exact htokens hasks t ((Command.admits_of_mem_calls v c hc).texts t ht)
  · have hsuccess : req.env.io = .success := hio
    obtain ⟨records', hjournal', hstep⟩ := hjournal.step hsuccess
    refine ⟨records', hjournal', ?_⟩
    cases hstep with
    | quiet => exact hwords
    | appended hasks hlogged =>
      intro r hr
      rcases List.mem_append.mp hr with hr | hr
      · exact hwords r hr
      · rw [List.mem_singleton.mp hr]
        exact hlogged.isWord (htokens hasks)
    | rewritten => exact isWord_snapshotRecords hjournal.reachable.wellPlaced h.texts _

/-- **A restart.** -/
theorem WordsOnly.restart (h : WordsOnly hash db) (hfits : db.Fits lim) (clock : Nat → Time)
    (metrics : Metrics) {store : KeyValueStore} (hstore : db.restart lim hash clock = some store) :
    WordsOnly hash { db with store := store, metrics := metrics } := by
  obtain ⟨records, hjournal, hwords⟩ := h.log
  obtain ⟨rebuilt, hrebuilt, hview⟩ := hjournal.restart hfits clock
  obtain rfl := Option.some.inj (hrebuilt.symm.trans hstore)
  have hreach : Reachable hash rebuilt := by
    obtain ⟨r, hload, rfl⟩ := Option.map_eq_some_iff.mp hstore
    obtain ⟨aof, -, hload⟩ := Option.bind_eq_some_iff.mp hload
    exact Reachable.empty.loadIntoStore hload
  refine ⟨?_, records, ⟨hreach, hjournal.nonempty, hjournal.log⟩, hwords⟩
  rw [hview]
  exact (allTexts_empty IsWord).replay isWord_stdToString hwords clock 0

/-- **Nothing but words**, after any run of a server that starts empty: whatever lines its clients
send, whenever keys expire or are evicted, the log is compacted or the server restarted. -/
theorem words_only (metrics : Metrics)
    (hrun : Relation.ReflTransGen (LineStep ctx lim) (.fresh metrics) db) :
    WordsOnly ctx.hash db := by
  induction hrun with
  | refl => exact wordsOnly_fresh ctx.hash metrics
  | tail _ hstep ih =>
    have hreach := ih.log.choose_spec.1.reachable
    cases hstep with
    | line env hio hline isAuthenticated => exact ih.line hio hline isAuthenticated
    | purge order now n =>
      exact ih.maintained (hreach.purge order now n) (allTexts_purge _ _ _ ih.texts)
    | evict order sorter n =>
      exact ih.maintained (hreach.evict order sorter n) (allTexts_evict _ _ _ ih.texts)
    | restart hfits clock metrics hstore => exact ih.restart hfits clock metrics hstore

/-- A quoted value with blanks, and a line that would have been the middle of an array. -/
theorem words_only_quoted :
    let ctx : ServerCtx := ⟨List.length, [], 8080, 4⟩
    let env : Env := ⟨0, .plain, .success⟩
    let db : Db := .fresh ⟨0, 0, 0, 0, 0, 0, 0, 0⟩
    WordsOnly ctx.hash
      (execute ctx env (bytes "SET k 'a  b'\r\n") (execute ctx env (bytes "$3\r\n") db true).db
        true).db := by
  intro ctx env db
  have hline : ∀ body : Bytes, lf ∉ body → IsLine lf (body ++ [lf]) := fun body h => ⟨body, h, rfl⟩
  have hfirst : LineStep ctx ⟨99, 99, by decide, by decide⟩ db
      (execute ctx env (bytes "$3\r\n") db true).db :=
    .line env rfl (hline (bytes "$3\r") (by decide)) true
  exact words_only _ ((Relation.ReflTransGen.single hfirst).tail
    (.line env rfl (hline (bytes "SET k 'a  b'\r") (by decide)) true))

end KeyValueDb
