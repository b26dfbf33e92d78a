/-
# Runs of commands, and what the log holds of them

Requests reach `execute` one after the other, from any sessions.  As long as the file
operations succeed, the log is at every moment the encoding of some records (`Journal`), and a
request changes them in one of three ways (`Journaled`): not at all, and then nothing visible
changes; by one record at the end; or, compacting, to those of a snapshot.
-/
import KeyValueDb.Command.Step
import KeyValueDb.Lib.Runs

namespace KeyValueDb

open Lib RespParser

/-! ## 1. Requests -/

/-- A call of `execute`; of its session only the flag matters here. -/
structure Request where
  env : Env
  raw : Bytes
  isAuthenticated : Bool

/-- What a request leaves. -/
def serve (ctx : ServerCtx) (db : Db) (req : Request) : Db :=
  (execute ctx req.env req.raw db req.isAuthenticated).db

/-- An empty store and an empty log, which is open. -/
def Db.fresh (metrics : Metrics) : Db := ⟨.empty, some ⟨true, true, ⟨some [], none⟩⟩, metrics⟩

/-- The request is admitted and asks for this command. -/
def Request.Asks (ctx : ServerCtx) (req : Request) (v : Verb) (tokens : List Bytes) : Prop :=
  Admitted ctx req.isAuthenticated ∧ request? req.raw = some (v, tokens)

theorem Request.Asks.unique {ctx : ServerCtx} {req : Request} {v v' : Verb}
    {tokens tokens' : List Bytes} (h : req.Asks ctx v tokens) (h' : req.Asks ctx v' tokens') :
    v = v' ∧ tokens = tokens' := by
  have heq := h.2.symm.trans h'.2
  rwa [Option.some.injEq, Prod.mk.injEq] at heq

/-! ## 2. A logged command leaves its record -/

/-- What `Logged` says of a command is what its branch does. -/
theorem Logged.record_eq {hash : Bytes → Nat} (order : IterOrder) {now : Time}
    {s : KeyValueStore} {v : StoreVerb} {tokens record : List Bytes} {F' : FlatStore}
    (h : Logged now (s.view hash) v tokens record F') :
    (Command.run hash order now tokens s v).record = some record := by
  cases h with
  | set w key value h => simp [Command.run, Command.set, h]
  | setex w key value h => simp [Command.run, Command.setex, h]
  | mset w hlen heven =>
    simp only [Command.run, Command.mset]
    rw [if_neg (by omega)]
  | counter w hargs hok =>
    rename_i args key delta
    have hfst := congrArg Prod.fst (s.view_incrBy hash now key delta)
    dsimp only at hfst
    have hrecord : (Command.addToCounter hash now (w :: args) s key delta).record =
        some (w :: args) := by
      simp [Command.addToCounter, hfst, hok]
    unfold counterArgs at hargs
    split at hargs
    · simp only [Option.some.injEq, Prod.mk.injEq] at hargs
      obtain ⟨rfl, rfl⟩ := hargs
      exact hrecord
    · simp only [Option.some.injEq, Prod.mk.injEq] at hargs
      obtain ⟨rfl, rfl⟩ := hargs
      exact hrecord
    · obtain ⟨d, hd, heq⟩ := Option.map_eq_some_iff.mp hargs
      rw [Prod.mk.injEq] at heq
      obtain ⟨rfl, rfl⟩ := heq
      simp only [Command.run, Command.incrby, hd]
      exact hrecord
    · exact absurd hargs (by simp)
  | hset w key field value => rfl
  | hdel w key field h =>
    have hfst := congrArg Prod.fst (s.view_hdel hash key field)
    dsimp only at hfst
    simp [Command.run, Command.hdel, hfst, h]
  | lpush w key item items => rfl
  | rpush w key item items => rfl
  | lpop w key h =>
    have hfst := congrArg Prod.fst (s.view_lpop hash key)
    dsimp only at hfst
    simp [Command.run, Command.lpop, Command.popCommand, hfst, h]
  | rpop w key h =>
    have hfst := congrArg Prod.fst (s.view_rpop hash key)
    dsimp only at hfst
    simp [Command.run, Command.rpop, Command.popCommand, hfst, h]
  | del w key keys h =>
    have hpos : 0 < (Command.delLoop hash s (key :: keys)).1 := by
      rw [Nat.pos_iff_ne_zero, Ne, delLoop_eq_zero_iff]
      obtain ⟨k, hk, hholds⟩ := h
      exact fun hall => hall k hk hholds
    simp [Command.run, Command.del, hpos]
  | expire w key h hok =>
    rename_i seconds sec
    have hfst := congrArg Prod.fst (s.view_expire hash now key sec)
    dsimp only at hfst
    simp [Command.run, Command.expire, h, hfst, hok]
  | flushdb => rfl

/-! ## 3. The journal -/

/-- The log is on and is the encoding of these records. -/
structure Journal (hash : Bytes → Nat) (records : List (List Bytes)) (db : Db) : Prop where
  reachable : Reachable hash db.store
  nonempty : ∀ r ∈ records, r ≠ []
  log : ∃ tmp, db.aof = some ⟨true, true, ⟨some (encodeLog records), tmp⟩⟩

theorem journal_fresh (hash : Bytes → Nat) (metrics : Metrics) :
    Journal hash [] (.fresh metrics) :=
  ⟨Reachable.empty, fun _ h => absurd h List.not_mem_nil, none, rfl⟩

/-- A compaction in which every file operation succeeds. -/
theorem rewrite_success (order : IterOrder) (now : Time) (store : KeyValueStore)
    (log : Bytes) (tmp : Option Bytes) :
    AofManager.rewrite .success order now store ⟨true, true, ⟨some log, tmp⟩⟩ =
      (true, ⟨true, true,
        ⟨some (encodeLog (snapshotRecords (store.getSnapshot order now))), none⟩⟩) := by
  simp [AofManager.rewrite, AofManager.rewriteTo, RewriteIo.success, RewriteIo.write,
    Disk.rename, Disk.create, rewriteImage_eq]

/-- What a request does to the records and to what they stand for. -/
inductive Journaled (ctx : ServerCtx) (req : Request) (db : Db) (records : List (List Bytes))
    (db' : Db) : List (List Bytes) → Prop
  | quiet (hvisible : (db'.store.view ctx.hash).visible req.env.now =
        (db.store.view ctx.hash).visible req.env.now)
      (hnotLogged : ∀ v tokens record F', req.Asks ctx (.store v) tokens →
        ¬ Logged req.env.now (db.store.view ctx.hash) v tokens record F')
      (hnotRewrite : ∀ tokens, ¬ req.Asks ctx .bgrewriteaof tokens) :
      Journaled ctx req db records db' records
  | appended {v : StoreVerb} {tokens record : List Bytes} (hasks : req.Asks ctx (.store v) tokens)
      (hlogged : Logged req.env.now (db.store.view ctx.hash) v tokens record
        (db'.store.view ctx.hash)) :
      Journaled ctx req db records db' (records ++ [record])
  | rewritten {tokens : List Bytes} (hasks : req.Asks ctx .bgrewriteaof tokens)
      (hstore : db'.store = db.store) :
      Journaled ctx req db records db'
        (snapshotRecords (db.store.getSnapshot req.env.order req.env.now))

/-- **One request.** -/
theorem Journal.step {ctx : ServerCtx} {db : Db} {records : List (List Bytes)}
    (h : Journal ctx.hash records db) {req : Request} (hio : req.env.io = .success) :
    ∃ records', Journal ctx.hash records' (serve ctx db req) ∧
      Journaled ctx req db records (serve ctx db req) records' := by
  obtain ⟨tmp, hlog⟩ := h.log
  have hreach := h.reachable.execute req.env req.raw req.isAuthenticated
  cases execute_cases ctx req.env req.raw db req.isAuthenticated with
  | idle hstore haof _ hidle =>
    refine ⟨records, ⟨hreach, h.nonempty, tmp, haof.trans hlog⟩, .quiet ?_ ?_ ?_⟩
    · exact congrArg (fun s => (s.view ctx.hash).visible req.env.now) hstore
    · exact fun v tokens _ _ hasks _ => hidle hasks.1 _ tokens hasks.2
    · exact fun tokens hasks => absurd (hidle hasks.1 _ tokens hasks.2 _ hlog) (by simp)
  | rewrite hadmitted hreq haof henabled hstore haof' _ _ =>
    refine ⟨_, ⟨hreach, snapshotRecords_ne_nil _, none, ?_⟩, .rewritten ⟨hadmitted, hreq⟩ hstore⟩
    rw [hlog, Option.some.injEq] at haof
    subst haof
    refine haof'.trans (congrArg some ?_)
    rw [hio, rewrite_success]
  | store hadmitted hreq hresponse hstore haof hauth =>
    rename_i v tokens
    cases run_effect req.env.order req.env.now v tokens h.reachable.noEmpty with
    | quiet hrecord hvisible =>
      rw [← hstore] at hvisible
      rw [hrecord] at haof
      refine ⟨records, ⟨hreach, h.nonempty, tmp, haof.trans hlog⟩, .quiet hvisible ?_ ?_⟩
      · intro v' tokens' record F' hasks hlogged
        obtain ⟨hv, rfl⟩ := hasks.unique ⟨hadmitted, hreq⟩
        obtain rfl := Verb.store.inj hv
        have hsome := hlogged.record_eq req.env.order
        rw [hrecord] at hsome
        exact absurd hsome (by simp)
      · exact fun tokens' hasks => absurd (hasks.unique ⟨hadmitted, hreq⟩).1 (by simp)
    | logged record hrecord hlogged _ =>
      rw [← hstore] at hlogged
      rw [hrecord, hlog] at haof
      refine ⟨_, ⟨hreach, ?_, tmp, ?_⟩, .appended ⟨hadmitted, hreq⟩ hlogged⟩
      · intro r hr
        rcases List.mem_append.mp hr with hr | hr
        · exact h.nonempty r hr
        · obtain rfl := List.mem_singleton.mp hr
          exact hlogged.record_ne_nil
      · refine haof.trans (congrArg some ?_)
        rw [append_eq rfl rfl hlogged.record_ne_nil]
        simp [Disk.extend, encodeLog]

end KeyValueDb
