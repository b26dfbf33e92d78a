/-
# What a restart gives back

After any run of commands the log is loaded into an empty store.  In a run in which nothing
expires, every state gives back the values of its live store exactly when no command of the
run is dropped (`recovers_iff`).  Commands of every kind may come in any order, compactions
included, and from any sessions.

The invariant is that the log replays to a store with the values of the live one.
-/
import KeyValueDb.Command.Run
import KeyValueDb.Recovery.Dropped

namespace KeyValueDb

open Lib RespParser

/-! ## 1. Restarting -/

/-- The store that the loader makes of the log. -/
def Db.restart (lim : Limits) (hash : Bytes → Nat) (clock : Nat → Time) (db : Db) :
    Option KeyValueStore :=
  (db.aof.bind fun aof => aof.loadIntoStore lim hash clock .empty).map Prod.snd

/-- Every record of the log can be allocated. -/
def Db.Fits (lim : Limits) (db : Db) : Prop :=
  ∀ records, (∀ r ∈ records, r ≠ []) →
    db.aof.bind (fun aof => aof.disk.log) = some (encodeLog records) →
      ∀ r ∈ records, lim.Holds r

variable {lim : Limits} {hash : Bytes → Nat} {db : Db} {records : List (List Bytes)}

/-- A log that can be read restarts as the replay of its records. -/
theorem restart_eq {tmp : Option Bytes} (hne : ∀ r ∈ records, r ≠ [])
    (hholds : ∀ r ∈ records, lim.Holds r)
    (hlog : db.aof = some ⟨true, true, ⟨some (encodeLog records), tmp⟩⟩) (clock : Nat → Time) :
    db.restart lim hash clock = some (replay hash clock 0 records (0, .empty)).2 := by
  rw [Db.restart, hlog, Option.bind_some, loadIntoStore_eq lim hash clock rfl rfl,
    readLog_encodeLog hne hholds]
  rfl

/-- What a journal restarts as. -/
theorem Journal.restart (h : Journal hash records db) (hfits : db.Fits lim)
    (clock : Nat → Time) :
    ∃ rebuilt, db.restart lim hash clock = some rebuilt ∧
      rebuilt.view hash = FlatStore.empty.replay clock 0 records := by
  obtain ⟨tmp, hlog⟩ := h.log
  have hholds := hfits records h.nonempty (by rw [hlog]; rfl)
  refine ⟨_, restart_eq h.nonempty hholds hlog clock, ?_⟩
  rw [view_replay, view_empty]

/-- The length of the log. -/
def Db.logLength (db : Db) : Nat := ((db.aof.bind fun aof => aof.disk.log).getD []).length

/-- A log that is short enough fits. -/
theorem fits_of_length (hvec : db.logLength ≤ lim.vec) (hstr : db.logLength ≤ lim.str) :
    db.Fits lim := by
  intro records _ hlog
  rw [Db.logLength, hlog, Option.getD_some] at hvec hstr
  exact holds_of_length hvec hstr

/-! ## 2. Nothing expires -/

/-- No string of the store has expired. -/
def KeyValueStore.Unexpired (now : Time) (s : KeyValueStore) : Prop :=
  ∀ i, ∀ x ∈ (s.shards i).stringMap.entries, x.2.expired now = false

instance (now : Time) (s : KeyValueStore) : Decidable (s.Unexpired now) :=
  inferInstanceAs (Decidable (∀ i, ∀ x ∈ (s.shards i).stringMap.entries, x.2.expired now = false))

theorem KeyValueStore.Unexpired.view {now : Time} {s : KeyValueStore} (h : s.Unexpired now)
    (hash : Bytes → Nat) : (s.view hash).Unexpired now :=
  fun key e he => h _ ⟨key, e⟩ (AList.mem_lookup_iff.mp he)

/-- What a compaction writes replays to the values. -/
theorem mirrors_snapshot {now : Time} {s : KeyValueStore} (hr : Reachable hash s)
    (hs : (s.view hash).Unexpired now) (order : IterOrder) (clock : Nat → Time) :
    FlatStore.Mirrors now (s.view hash)
      (FlatStore.empty.replay clock 0 (snapshotRecords (s.getSnapshot order now))) := by
  have hsaved := replay_snapshotRecords (hr.wellPlaced.getSnapshot_shows order now) hr.noEmpty
    clock
  set G := FlatStore.empty.replay clock 0 (snapshotRecords (s.getSnapshot order now))
  have hstring : ∀ k, (G.strings k).map (fun e => (e.value, e.expiresAt)) =
      ((s.view hash).strings k).map fun e => (e.value, none) := by
    intro k
    have hk := congrFun (congrArg Contents.strings hsaved) k
    simp only [FlatStore.contents, FlatStore.saved] at hk
    rw [hk]
    cases he : (s.view hash).strings k with
    | none => rfl
    | some e => simp [Option.filter, hs k e he]
  have hhashes : G.hashes = (s.view hash).hashes := congrArg Contents.hashes hsaved
  have hlists : G.lists = (s.view hash).lists := congrArg Contents.lists hsaved
  constructor
  · apply Contents.ext_keys
    · intro k
      have hk := congrArg (Option.map Prod.fst) (hstring k)
      simpa [FlatStore.values, Function.comp_def] using hk
    · exact congrFun hhashes
    · exact congrFun hlists
  · intro k e he
    have hk := hstring k
    rw [he, Option.map_some] at hk
    obtain ⟨e', -, heq⟩ := Option.map_eq_some_iff.mp hk.symm
    have hnone : e.expiresAt = none := (Prod.mk.inj heq).2.symm
    simp [StoreEntry.expired, hnone]

/-! ## 3. Recovery -/

/-- A restart gives back every string, every field of every hash and every list. -/
def Recovers (lim : Limits) (hash : Bytes → Nat) (now : Time) (db : Db) : Prop :=
  ∃ rebuilt, db.restart lim hash (fun _ => now) = some rebuilt ∧
    (rebuilt.view hash).values = (db.store.view hash).values

/-- The request is not a command that is dropped. -/
def Kept (ctx : ServerCtx) (db : Db) (req : Request) : Prop :=
  ∀ v tokens, req.Asks ctx (.store v) tokens → ¬ (db.store.view ctx.hash).Dropped v tokens

theorem kept_of_not_store {ctx : ServerCtx} {req : Request} {v : Verb} {tokens : List Bytes}
    (hreq : request? req.raw = some (v, tokens)) (hv : ∀ sv, v ≠ .store sv) :
    Kept ctx db req := by
  rintro v' tokens' ⟨-, hreq'⟩
  rw [hreq, Option.some.injEq, Prod.mk.injEq] at hreq'
  exact absurd hreq'.1 (hv v')

theorem kept_of_word {ctx : ServerCtx} {req : Request} {v : StoreVerb} {args : List Bytes}
    (hreq : request? req.raw = some (.store v, v.word :: args)) (hv : v ∉ unreplayed) :
    Kept ctx db req := by
  rintro v' tokens' ⟨-, hreq'⟩
  rw [hreq, Option.some.injEq, Prod.mk.injEq] at hreq'
  obtain ⟨hverb, rfl⟩ := hreq'
  obtain rfl := Verb.store.inj hverb
  exact not_dropped_word hv

/-- The log replays to the values of the store. -/
def Mirrored (hash : Bytes → Nat) (now : Time) (records : List (List Bytes)) (db : Db) : Prop :=
  Journal hash records db ∧
    FlatStore.Mirrors now (db.store.view hash) (FlatStore.empty.replay (fun _ => now) 0 records)

theorem Request.Asks.spells {ctx : ServerCtx} {req : Request} {v : StoreVerb}
    {tokens : List Bytes} (h : req.Asks ctx (.store v) tokens) : Spells v tokens := by
  obtain ⟨word, args, rfl, -, hverb⟩ := request?_eq_some h.2
  exact hverb

section Step

variable {ctx : ServerCtx} {now : Time} {req : Request}

/-- **A request that is not dropped.** -/
theorem Mirrored.step (h : Mirrored ctx.hash now records db) (hnow : req.env.now = now)
    (hio : req.env.io = .success) (hs : db.store.Unexpired now)
    (hs' : (serve ctx db req).store.Unexpired now) (hkept : Kept ctx db req) :
    ∃ records', Mirrored ctx.hash now records' (serve ctx db req) := by
  subst hnow
  obtain ⟨records', hjournal, hstep⟩ := h.1.step hio
  refine ⟨records', hjournal, ?_⟩
  cases hstep with
  | quiet hvisible =>
    exact h.2.of_values (FlatStore.values_of_visible hvisible (hs'.view _) (hs.view _))
  | appended hasks hlogged =>
    rw [FlatStore.replay_append]
    exact hlogged.mirrors hasks.spells (hs.view _) (hs'.view _) h.2 (hkept _ _ hasks)
  | rewritten hasks hstore =>
    rw [hstore]
    exact mirrors_snapshot h.1.reachable (hs.view _) _ _

/-- **A request that is.** -/
theorem Mirrored.not_recovers (h : Mirrored ctx.hash now records db) (hnow : req.env.now = now)
    (hio : req.env.io = .success) (hs : db.store.Unexpired now)
    (hfits : (serve ctx db req).Fits lim) (hdropped : ¬ Kept ctx db req) :
    ¬ Recovers lim ctx.hash now (serve ctx db req) := by
  subst hnow
  simp only [Kept, not_forall, not_not] at hdropped
  obtain ⟨v, tokens, hasks, hd⟩ := hdropped
  obtain ⟨record, F', hlogged⟩ := hd.logged (hs.view ctx.hash)
  obtain ⟨records', hjournal, hstep⟩ := h.1.step hio
  obtain ⟨rebuilt, hrestart, hview⟩ := hjournal.restart hfits fun _ => req.env.now
  rintro ⟨rebuilt', hrestart', hvalues⟩
  obtain rfl := Option.some.inj (hrestart.symm.trans hrestart')
  rw [hview] at hvalues
  cases hstep with
  | quiet _ hnot => exact hnot v tokens record F' hasks hlogged
  | appended hasks' hlogged' =>
    obtain ⟨hv, rfl⟩ := hasks.unique hasks'
    obtain rfl := Verb.store.inj hv
    obtain ⟨hsame, hchange⟩ := hlogged'.forgotten hasks.spells (hs.view _) hd
      (FlatStore.empty.replay (fun _ => req.env.now) 0 records)
    rw [FlatStore.replay_append] at hvalues
    simp only [FlatStore.replay, hsame] at hvalues
    exact hchange (hvalues.symm.trans h.2.values)
  | rewritten hasks' _ => exact absurd (hasks.unique hasks').1 (by simp)

end Step

/-- **When a restart gives back the values of the live store.**  Throughout every run from an
empty store and an empty log, at one instant at which nothing expires, with every file
operation succeeding: if and only if no command of it is dropped. -/
theorem recovers_iff {ctx : ServerCtx} {now : Time} {metrics : Metrics} {reqs : List Request}
    (hreqs : ∀ req ∈ reqs, req.env.now = now ∧ req.env.io = .success)
    (hlive : Always (serve ctx) (fun db : Db => db.store.Unexpired now) reqs (Db.fresh metrics))
    (hfits : Always (serve ctx) (Db.Fits lim) reqs (Db.fresh metrics)) :
    Always (serve ctx) (Recovers lim ctx.hash now) reqs (Db.fresh metrics) ↔
      Steps (serve ctx) (Kept ctx) reqs (Db.fresh metrics) := by
  have hall := ((steps_of_forall hreqs _).and hlive.steps).and hfits.steps
  refine always_iff_steps
    (I := fun db => db.Fits lim ∧ ∃ records, Mirrored ctx.hash now records db) ?_ ?_ ?_ ?_ hall
  · rintro db ⟨hfits, records, hjournal, hmirrors⟩
    obtain ⟨rebuilt, hrestart, hview⟩ := hjournal.restart hfits fun _ => now
    exact ⟨rebuilt, hrestart, by rw [hview, hmirrors.values]⟩
  · rintro db req ⟨-, records, h⟩ ⟨⟨⟨hnow, hio⟩, hs, hs'⟩, -, hfits'⟩ hkept
    exact ⟨hfits', h.step hnow hio hs hs' hkept⟩
  · rintro db req ⟨-, records, h⟩ ⟨⟨⟨hnow, hio⟩, hs, -⟩, -, hfits'⟩ hdropped
    exact h.not_recovers hnow hio hs hfits' hdropped
  · exact ⟨hfits.head, [], journal_fresh _ _, rfl, FlatStore.unexpired_empty now⟩

/-- A string that expires later, a compaction, a list. -/
theorem recovers_iff_compacted :
    let ctx : ServerCtx := ⟨List.length, [], 8080, 4⟩
    let env : Env := ⟨0, .plain, .success⟩
    Always (serve ctx) (Recovers ⟨99, 99, by decide, by decide⟩ ctx.hash 0)
      [⟨env, bytes "SET k v EX 5\n", true⟩, ⟨env, bytes "bgrewriteaof\n", true⟩,
        ⟨env, bytes "RPUSH k a b\n", true⟩] (.fresh ⟨0, 0, 0, 0, 0, 0, 0, 0⟩) := by
  intro ctx env
  have hshort : Always (serve ctx) (fun db => db.logLength ≤ 99)
      [⟨env, bytes "SET k v EX 5\n", true⟩, ⟨env, bytes "bgrewriteaof\n", true⟩,
        ⟨env, bytes "RPUSH k a b\n", true⟩] (.fresh ⟨0, 0, 0, 0, 0, 0, 0, 0⟩) := by decide
  refine (recovers_iff (by simp [env]) (by decide)
    (hshort.mono fun db h => fits_of_length h h)).mpr ⟨?_, ?_, ?_, trivial⟩
  · exact kept_of_word (v := .set) rfl (by decide)
  · exact kept_of_not_store rfl (by simp)
  · exact kept_of_word (v := .rpush) rfl (by decide)

/-- A counter is incremented, which is acknowledged and logged; the loader does not know the
record, and the key is gone. -/
theorem not_recovers_incr :
    ¬ ∀ (lim : Limits) (ctx : ServerCtx) (now : Time) (metrics : Metrics)
        (reqs : List Request), (∀ req ∈ reqs, req.env.now = now ∧ req.env.io = .success) →
        Always (serve ctx) (fun db : Db => db.store.Unexpired now) reqs (.fresh metrics) →
        Always (serve ctx) (Db.Fits lim) reqs (.fresh metrics) →
        Recovers lim ctx.hash now (reqs.foldl (serve ctx) (.fresh metrics)) := by
  intro hall
  have hshort : Always (serve ⟨List.length, [], 8080, 4⟩) (fun db => db.logLength ≤ 99)
      [⟨⟨0, .plain, .success⟩, bytes "INCR c\n", true⟩]
      (.fresh ⟨0, 0, 0, 0, 0, 0, 0, 0⟩) := by decide
  obtain ⟨rebuilt, hrestart, hvalues⟩ := hall ⟨99, 99, by decide, by decide⟩
    ⟨List.length, [], 8080, 4⟩ 0 ⟨0, 0, 0, 0, 0, 0, 0, 0⟩
    [⟨⟨0, .plain, .success⟩, bytes "INCR c\n", true⟩] (by simp) (by decide)
    (hshort.mono fun db h => fits_of_length h h)
  have hlive := congrFun (congrArg Contents.strings hvalues) (bytes "c")
  have hgone := congrArg (Option.map fun s : KeyValueStore =>
    (s.view List.length).values.strings (bytes "c")) hrestart
  have hnone : some none = some ((rebuilt.view List.length).values.strings (bytes "c")) := hgone
  rw [Option.some.injEq] at hnone
  have hone : (rebuilt.view List.length).values.strings (bytes "c") = some (bytes "1") := hlive
  rw [← hnone] at hone
  exact absurd hone (by simp)

end KeyValueDb
