/-
# Whether deadlines survive a restart

A deadline reaches the log in one form only that the loader understands: as an `EXPIRE`.  The
lifetime of a `SET ... EX` is logged behind the value, where the loader does not look, `SETEX`
is logged as such a `SET`, and a compaction writes values only.

So a run of these commands keeps its deadlines through a restart, in all its states, exactly
when it sets no lifetime with `SET` or `SETEX` and compacts only while no string that has not
expired carries a deadline (`keepsDeadlines_iff`).  The invariant is that a key without a
deadline in what the log replays to has none in the live store.
-/
import KeyValueDb.Recovery.Values

namespace KeyValueDb

open Lib Function RespParser Command

/-! ## 1. Strings with and without a deadline -/

namespace FlatStore

/-- A string that carries a deadline. -/
def Expiring (F : FlatStore) (key : Bytes) : Prop :=
  ∃ e d, F.strings key = some e ∧ e.expiresAt = some d

/-- A string that carries none. -/
def Permanent (F : FlatStore) (key : Bytes) : Prop :=
  ∃ e, F.strings key = some e ∧ e.expiresAt = none

/-- What never expires in `G` never expires in `F`. -/
def Lasting (F G : FlatStore) : Prop := ∀ key, G.Permanent key → F.Permanent key

variable {now now' : Time} {F F' G : FlatStore} {key : Bytes}

theorem not_permanent_iff : ¬ F.Permanent key ↔ F.Expiring key ∨ F.strings key = none := by
  unfold Permanent Expiring
  cases he : F.strings key with
  | none => simp
  | some e => cases hd : e.expiresAt <;> simp [hd]

theorem Expiring.not_permanent (h : F.Expiring key) : ¬ F.Permanent key :=
  not_permanent_iff.mpr (Or.inl h)

/-- A string without a deadline is visible. -/
theorem permanent_iff_visible (now : Time) :
    F.Permanent key ↔ ∃ value, (F.visible now).strings key = some (value, none) := by
  constructor
  · rintro ⟨e, he, hd⟩
    exact ⟨e.value, by simp [visible, he, Option.filter, StoreEntry.expired, hd]⟩
  · rintro ⟨value, h⟩
    obtain ⟨e, hfilter, heq⟩ := Option.map_eq_some_iff.mp h
    exact ⟨e, (Option.filter_eq_some_iff.mp hfilter).1, (Prod.mk.inj heq).2⟩

theorem permanent_putString (k : Bytes) (e : Option StoreEntry) :
    (F.putString key e).Permanent k ↔
      if k = key then ∃ e', e = some e' ∧ e'.expiresAt = none else F.Permanent k := by
  by_cases hk : k = key
  · subst hk; simp [Permanent, putString]
  · simp [Permanent, putString, hk]

/-- A write to the same key on both sides. -/
theorem Lasting.putString (h : Lasting F G) {e e' : Option StoreEntry}
    (he : ∀ e₀, e' = some e₀ → e₀.expiresAt = none → ∃ e₁, e = some e₁ ∧ e₁.expiresAt = none) :
    Lasting (F.putString key e) (G.putString key e') := by
  intro k hk
  rw [permanent_putString] at hk ⊢
  split
  · rename_i hkey
    rw [if_pos hkey] at hk
    obtain ⟨e₀, he₀, hd⟩ := hk
    exact he e₀ he₀ hd
  · rename_i hkey
    rw [if_neg hkey] at hk
    exact h k hk

theorem Lasting.eraseAll (h : Lasting F G) (keys : List Bytes) :
    Lasting (F.eraseAll keys) (G.eraseAll keys) := by
  induction keys generalizing F G with
  | nil => exact h
  | cons key keys ih =>
    have herase : Lasting (F.putString key none) (G.putString key none) :=
      h.putString fun _ h => absurd h (by simp)
    -- `Lasting` looks at strings only
    exact ih (F := F.erase key) (G := G.erase key) herase

/-- `expire` leaves at its key a deadline or nothing. -/
theorem expire_eq_putString (now : Time) (key : Bytes) (sec : Int) (F : FlatStore) :
    ∃ e, (F.expire now key sec).2 = F.putString key e ∧
      ∀ e₀, e = some e₀ → e₀.expiresAt ≠ none := by
  unfold expire
  cases he : F.strings key with
  | none => exact ⟨none, (putString_self he).symm, fun _ h => absurd h (by simp)⟩
  | some e =>
    dsimp only
    split
    · exact ⟨none, rfl, fun _ h => absurd h (by simp)⟩
    · split
      · refine ⟨_, rfl, ?_⟩
        intro e₀ h
        rw [← Option.some.inj h]
        simp
      · exact ⟨none, rfl, fun _ h => absurd h (by simp)⟩

theorem Lasting.expire (h : Lasting F G) (key : Bytes) (sec : Int) :
    Lasting (F.expire now key sec).2 (G.expire now' key sec).2 := by
  obtain ⟨e, heq, -⟩ := expire_eq_putString now key sec F
  obtain ⟨e', heq', hne⟩ := expire_eq_putString now' key sec G
  rw [heq, heq']
  exact h.putString fun e₀ he₀ hd => absurd hd (hne e₀ he₀)

theorem permanent_set (now : Time) (key value : Bytes) (F : FlatStore) :
    (F.set now key value none).Permanent key :=
  ⟨⟨value, none, now⟩, by simp [set, putString, deadline], rfl⟩

theorem expiring_set {sec : Int} (hpos : 0 < sec) (now : Time) (key value : Bytes)
    (F : FlatStore) : (F.set now key value (some sec)).Expiring key :=
  ⟨⟨value, some (addSeconds now sec), now⟩, addSeconds now sec,
    by simp [set, putString, deadline, hpos], rfl⟩

end FlatStore

/-! ## 2. Lifetimes in commands -/

/-- The lifetime that a command asks for, in seconds. -/
def requestedLifetime : StoreVerb → List Bytes → Option Int
  | .set, _ :: _ :: _ :: options => (lifetime options).join
  | .setex, [_, _, seconds, _] => stoll seconds
  | .expire, [_, _, seconds] => stoll seconds
  | _, _ => none

/-- The command stores a string together with a deadline. -/
def SetsLifetime (v : StoreVerb) (tokens : List Bytes) : Prop :=
  v ∈ [StoreVerb.set, .setex] ∧ ∃ sec, requestedLifetime v tokens = some sec ∧ 0 < sec

section Logged

variable {now now' : Time} {F F' G : FlatStore} {v : StoreVerb}
  {tokens args record : List Bytes}

/-- The commands whose effect on deadlines is followed. -/
def expiryVerbs : List StoreVerb := [.set, .setex, .expire, .del]

theorem deadline_eq_none {ttl : Option Int} (h : ∀ sec, ttl = some sec → ¬ 0 < sec) :
    deadline now ttl = none := by
  cases ttl with
  | none => rfl
  | some sec => exact if_neg (h sec rfl)

/-- **Replaying a command that sets no lifetime.** -/
theorem Logged.lasting (h : Logged now F v tokens record F') (hv : v ∈ expiryVerbs)
    (htokens : tokens = v.word :: args) (hno : ¬ SetsLifetime v tokens)
    (hlasting : FlatStore.Lasting F G) :
    FlatStore.Lasting F' (G.dispatch now' record) := by
  cases h with
  | set w key value hl =>
    rename_i options ttl
    obtain rfl := (List.cons.inj htokens).1
    refine hlasting.putString ?_
    intro e₀ _ _
    refine ⟨_, rfl, deadline_eq_none ?_⟩
    intro sec hsec hpos
    exact hno ⟨by decide, sec, by simp [requestedLifetime, hl, hsec], hpos⟩
  | setex w key value hs =>
    refine hlasting.putString ?_
    intro e₀ _ _
    refine ⟨_, rfl, if_neg ?_⟩
    intro hpos
    exact hno ⟨by decide, _, hs, hpos⟩
  | del w key keys hholds =>
    obtain rfl := (List.cons.inj htokens).1
    exact hlasting.eraseAll (key :: keys)
  | expire w key hs hok =>
    rename_i seconds sec
    obtain rfl := (List.cons.inj htokens).1
    have hword : StoreVerb.word .expire = bytes "EXPIRE" := rfl
    rw [hword, FlatStore.dispatch_expire now' key hs]
    exact hlasting.expire key sec
  | counter w hargs hok =>
    rcases counterArgs_eq_some hargs with rfl | rfl | rfl <;> exact absurd hv (by decide)
  | mset | hset | hdel | lpush | rpush | lpop | rpop | flushdb => exact absurd hv (by decide)

/-- **Replaying a command that sets one.** -/
theorem Logged.not_lasting (h : Logged now F v tokens record F')
    (htokens : tokens = v.word :: args) (hyes : SetsLifetime v tokens) (now' : Time)
    (G : FlatStore) :
    ∃ key, F'.Expiring key ∧ (G.dispatch now' record).Permanent key := by
  obtain ⟨hv, sec, hsec, hpos⟩ := hyes
  cases h with
  | set w key value hl =>
    obtain rfl := (List.cons.inj htokens).1
    simp only [requestedLifetime, hl, Option.join_some] at hsec
    subst hsec
    exact ⟨key, FlatStore.expiring_set hpos now key value F,
      FlatStore.permanent_set now' key value G⟩
  | setex w key value hs =>
    obtain rfl := Option.some.inj (hs.symm.trans hsec)
    exact ⟨key, FlatStore.expiring_set hpos now key value F,
      FlatStore.permanent_set now' key value G⟩
  | del | expire => exact absurd hv (by decide)
  | counter w hargs hok =>
    rcases counterArgs_eq_some hargs with rfl | rfl | rfl <;> exact absurd hv (by decide)
  | mset | hset | hdel | lpush | rpush | lpop | rpop | flushdb => exact absurd hv (by decide)

/-- A command that sets a lifetime is a logged one. -/
theorem SetsLifetime.logged (h : SetsLifetime v tokens) (now : Time) (F : FlatStore) :
    ∃ record F', Logged now F v tokens record F' := by
  obtain ⟨hv, sec, hsec, -⟩ := h
  unfold requestedLifetime at hsec
  split at hsec
  · rename_i w key value options
    cases hl : lifetime options with
    | none => rw [hl] at hsec; exact absurd hsec (by simp)
    | some ttl => exact ⟨_, _, .set w key value hl⟩
  · exact ⟨_, _, .setex _ _ _ hsec⟩
  · exact absurd hv (by decide)
  · exact absurd hsec (by simp)

end Logged

/-! ## 3. Runs -/

/-- A restart turns no key that expires into one that does not: such a key carries a deadline
again, or it is absent. -/
def KeepsDeadlines (lim : Limits) (hash : Bytes → Nat) (clock : Nat → Time) (db : Db) : Prop :=
  ∃ rebuilt, db.restart lim hash clock = some rebuilt ∧
    ∀ key, (db.store.view hash).Expiring key →
      (rebuilt.view hash).Expiring key ∨ (rebuilt.view hash).strings key = none

/-- One of the commands, with its word in upper case, or a compaction. -/
def IsExpiryRequest (req : Request) : Prop :=
  (∃ v ∈ expiryVerbs, ∃ args, request? req.raw = some (.store v, v.word :: args)) ∨
    ∃ tokens, request? req.raw = some (.bgrewriteaof, tokens)

/-- The request sets no lifetime, and if it compacts, no deadline is still to come. -/
structure LosesNoDeadline (ctx : ServerCtx) (db : Db) (req : Request) : Prop where
  command : ∀ v tokens, req.Asks ctx (.store v) tokens → ¬ SetsLifetime v tokens
  rewrite : ∀ tokens, req.Asks ctx .bgrewriteaof tokens →
    ∀ key e, (db.store.view ctx.hash).strings key = some e → e.expired req.env.now = false →
      e.expiresAt = none

/-- Nothing that the log replays to lasts longer than in the store. -/
def Outlasts (hash : Bytes → Nat) (clock : Nat → Time) (records : List (List Bytes))
    (db : Db) : Prop :=
  Journal hash records db ∧
    FlatStore.Lasting (db.store.view hash) (FlatStore.empty.replay clock 0 records)

section Step

variable {lim : Limits} {ctx : ServerCtx} {clock : Nat → Time} {req : Request} {db : Db}
  {records : List (List Bytes)}

theorem Outlasts.keepsDeadlines (h : Outlasts ctx.hash clock records db)
    (hfits : db.Fits lim) : KeepsDeadlines lim ctx.hash clock db := by
  obtain ⟨rebuilt, hrestart, hview⟩ := h.1.restart hfits clock
  refine ⟨rebuilt, hrestart, ?_⟩
  intro key hkey
  rw [← FlatStore.not_permanent_iff]
  intro hperm
  rw [hview] at hperm
  exact hkey.not_permanent (h.2 key hperm)

/-- **A request that loses no deadline.** -/
theorem Outlasts.step (h : Outlasts ctx.hash clock records db) (hreq : IsExpiryRequest req)
    (hio : req.env.io = .success) (hgood : LosesNoDeadline ctx db req) :
    ∃ records', Outlasts ctx.hash clock records' (serve ctx db req) := by
  obtain ⟨records', hjournal, hstep⟩ := h.1.step hio
  refine ⟨records', hjournal, ?_⟩
  cases hstep with
  | quiet hvisible =>
    intro key hperm
    rw [FlatStore.permanent_iff_visible req.env.now, hvisible,
      ← FlatStore.permanent_iff_visible req.env.now]
    exact h.2 key hperm
  | appended hasks hlogged =>
    rw [FlatStore.replay_append]
    obtain ⟨v', hv', args, hreq'⟩ | ⟨tokens', hreq'⟩ := hreq
    · obtain ⟨hv, rfl⟩ := hasks.unique ⟨hasks.1, hreq'⟩
      obtain rfl := Verb.store.inj hv
      exact hlogged.lasting hv' rfl (hgood.command _ _ hasks) h.2
    · exact absurd (hasks.unique ⟨hasks.1, hreq'⟩).1 (by simp)
  | rewritten hasks hstore =>
    rw [hstore]
    intro key hperm
    have hsaved := replay_snapshotRecords
      (h.1.reachable.wellPlaced.getSnapshot_shows req.env.order req.env.now) h.1.reachable.noEmpty
      clock
    obtain ⟨e', he', -⟩ := hperm
    have hk := congrFun (congrArg Contents.strings hsaved) key
    simp only [FlatStore.contents, FlatStore.saved, he', Option.map_some] at hk
    obtain ⟨e, hfilter, -⟩ := Option.map_eq_some_iff.mp hk.symm
    obtain ⟨he, hx⟩ := Option.filter_eq_some_iff.mp hfilter
    exact ⟨e, he, hgood.rewrite _ hasks key e he (by simpa using hx)⟩

theorem Journal.not_keepsDeadlines (h : Journal ctx.hash records db) (hfits : db.Fits lim)
    (key : Bytes) (hlive : (db.store.view ctx.hash).Expiring key)
    (hperm : (FlatStore.empty.replay clock 0 records).Permanent key) :
    ¬ KeepsDeadlines lim ctx.hash clock db := by
  obtain ⟨rebuilt, hrestart, hview⟩ := h.restart hfits clock
  rintro ⟨rebuilt', hrestart', hkeeps⟩
  obtain rfl := Option.some.inj (hrestart.symm.trans hrestart')
  rw [← hview] at hperm
  exact FlatStore.not_permanent_iff.mpr (hkeeps key hlive) hperm

/-- **A request that loses one.** -/
theorem Outlasts.not_keepsDeadlines (h : Outlasts ctx.hash clock records db)
    (hreq : IsExpiryRequest req) (hio : req.env.io = .success)
    (hfits : (serve ctx db req).Fits lim) (hbad : ¬ LosesNoDeadline ctx db req) :
    ¬ KeepsDeadlines lim ctx.hash clock (serve ctx db req) := by
  obtain ⟨records', hjournal, hstep⟩ := h.1.step hio
  by_cases hcommand : ∀ v tokens, req.Asks ctx (.store v) tokens → ¬ SetsLifetime v tokens
  · -- a compaction while a deadline is still to come
    have hrewrite : ¬ _ := fun hrewrite => hbad ⟨hcommand, hrewrite⟩
    simp only [not_forall] at hrewrite
    obtain ⟨tokens, hasks, key, e, he, hx, hd⟩ := hrewrite
    obtain ⟨d, hd⟩ := Option.ne_none_iff_exists'.mp hd
    cases hstep with
    | quiet _ _ hnot => exact absurd hasks (hnot tokens)
    | appended hasks' _ => exact absurd (hasks.unique hasks').1 (by simp)
    | rewritten _ hstore =>
      refine hjournal.not_keepsDeadlines hfits key ?_ ?_
      · rw [hstore]
        exact ⟨e, d, he, hd⟩
      · have hsaved := replay_snapshotRecords
          (h.1.reachable.wellPlaced.getSnapshot_shows req.env.order req.env.now)
          h.1.reachable.noEmpty clock
        have hk := congrFun (congrArg Contents.strings hsaved) key
        simp only [FlatStore.contents, FlatStore.saved, he, Option.filter, hx] at hk
        obtain ⟨e', he', heq⟩ := Option.map_eq_some_iff.mp hk
        exact ⟨e', he', (Prod.mk.inj heq).2⟩
  · simp only [not_forall, not_not] at hcommand
    obtain ⟨v, tokens, hasks, hsets⟩ := hcommand
    obtain ⟨record, F', hlogged⟩ := hsets.logged req.env.now (db.store.view ctx.hash)
    cases hstep with
    | quiet _ hnot => exact absurd hlogged (hnot v tokens record F' hasks)
    | appended hasks' hlogged' =>
      obtain ⟨hv, rfl⟩ := hasks.unique hasks'
      obtain rfl := Verb.store.inj hv
      obtain ⟨v', -, args, hreq'⟩ | ⟨tokens', hreq'⟩ := hreq
      · obtain ⟨hv, rfl⟩ := hasks.unique ⟨hasks.1, hreq'⟩
        obtain rfl := Verb.store.inj hv
        obtain ⟨key, hlive, hperm⟩ := hlogged'.not_lasting rfl hsets (clock (0 + records.length))
          (FlatStore.empty.replay clock 0 records)
        refine hjournal.not_keepsDeadlines hfits key hlive ?_
        rw [FlatStore.replay_append]
        exact hperm
      · exact absurd (hasks.unique ⟨hasks.1, hreq'⟩).1 (by simp)
    | rewritten hasks' _ => exact absurd (hasks.unique hasks').1 (by simp)

end Step

/-- **When deadlines survive a restart.**  Throughout every run of these commands from an
empty store and an empty log, at any times, loaded at any time: if and only if no request of
it loses a deadline. -/
theorem keepsDeadlines_iff {lim : Limits} {ctx : ServerCtx} {metrics : Metrics}
    {reqs : List Request} (clock : Nat → Time)
    (hreqs : ∀ req ∈ reqs, IsExpiryRequest req ∧ req.env.io = .success)
    (hfits : Always (serve ctx) (Db.Fits lim) reqs (Db.fresh metrics)) :
    Always (serve ctx) (KeepsDeadlines lim ctx.hash clock) reqs (Db.fresh metrics) ↔
      Steps (serve ctx) (LosesNoDeadline ctx) reqs (Db.fresh metrics) := by
  refine always_iff_steps
    (I := fun db => db.Fits lim ∧ ∃ records, Outlasts ctx.hash clock records db) ?_ ?_ ?_ ?_
    ((steps_of_forall hreqs _).and hfits.steps)
  · rintro db ⟨hfits, records, h⟩
    exact h.keepsDeadlines hfits
  · rintro db req ⟨-, records, h⟩ ⟨⟨hreq, hio⟩, -, hfits'⟩ hgood
    exact ⟨hfits', h.step hreq hio hgood⟩
  · rintro db req ⟨-, records, h⟩ ⟨⟨hreq, hio⟩, -, hfits'⟩ hbad
    exact h.not_keepsDeadlines hreq hio hfits' hbad
  · refine ⟨hfits.head, [], journal_fresh _ _, ?_⟩
    rintro key ⟨e, he, -⟩
    exact absurd he (by simp [FlatStore.replay, FlatStore.empty])

theorem losesNoDeadline_of_command {ctx : ServerCtx} {db : Db} {req : Request} {v : StoreVerb}
    {tokens : List Bytes} (hreq : request? req.raw = some (.store v, tokens))
    (hno : ¬ SetsLifetime v tokens) : LosesNoDeadline ctx db req where
  command v' tokens' hasks := by
    obtain ⟨hv, rfl⟩ := hasks.unique ⟨hasks.1, hreq⟩
    obtain rfl := Verb.store.inj hv
    exact hno
  rewrite tokens' hasks := absurd (hasks.unique ⟨hasks.1, hreq⟩).1 (by simp)

/-- A string that is set, given a lifetime, and deleted. -/
theorem keepsDeadlines_iff_expire :
    let ctx : ServerCtx := ⟨List.length, [], 8080, 4⟩
    let env : Env := ⟨0, .plain, .success⟩
    Always (serve ctx) (KeepsDeadlines ⟨99, 99, by decide, by decide⟩ ctx.hash fun _ => 7)
      [⟨env, bytes "SET k v\n", true⟩, ⟨env, bytes "EXPIRE k 5\n", true⟩,
        ⟨env, bytes "DEL k\n", true⟩] (.fresh ⟨0, 0, 0, 0, 0, 0, 0, 0⟩) := by
  intro ctx env
  have hshort : Always (serve ctx) (fun db => db.logLength ≤ 99)
      [⟨env, bytes "SET k v\n", true⟩, ⟨env, bytes "EXPIRE k 5\n", true⟩,
        ⟨env, bytes "DEL k\n", true⟩] (.fresh ⟨0, 0, 0, 0, 0, 0, 0, 0⟩) := by decide
  have hexpiry : ∀ {raw : Bytes} (v : StoreVerb) (args : List Bytes), v ∈ expiryVerbs →
      request? raw = some (.store v, v.word :: args) →
        IsExpiryRequest ⟨env, raw, true⟩ ∧ env.io = .success :=
    fun v args hv hreq => ⟨Or.inl ⟨v, hv, args, hreq⟩, rfl⟩
  refine (keepsDeadlines_iff (fun _ => 7) ?_
    (hshort.mono fun db h => fits_of_length h h)).mpr ⟨?_, ?_, ?_, trivial⟩
  · intro req hreq
    simp only [List.mem_cons, List.not_mem_nil, or_false] at hreq
    rcases hreq with rfl | rfl | rfl
    · exact hexpiry .set [bytes "k", bytes "v"] (by decide) rfl
    · exact hexpiry .expire [bytes "k", bytes "5"] (by decide) rfl
    · exact hexpiry .del [bytes "k"] (by decide) rfl
  · refine losesNoDeadline_of_command (v := .set) rfl ?_
    rintro ⟨-, sec, hsec, -⟩
    exact absurd hsec (by simp [requestedLifetime, lifetime])
  · exact losesNoDeadline_of_command (v := .expire) rfl fun h => absurd h.1 (by decide)
  · exact losesNoDeadline_of_command (v := .del) rfl fun h => absurd h.1 (by decide)

/-- The lifetime the request asks for ends within the range of the clock. -/
def Request.FitsClock (req : Request) : Prop :=
  ∀ v tokens sec, request? req.raw = some (.store v, tokens) →
    requestedLifetime v tokens = some sec → req.env.now + sec * 1000000000 < 2 ^ 63

/-- A string is set for five seconds; after a restart it is there for good. -/
theorem not_keepsDeadlines_setEx :
    ¬ ∀ (lim : Limits) (ctx : ServerCtx) (clock : Nat → Time) (metrics : Metrics)
        (reqs : List Request),
        (∀ req ∈ reqs, IsExpiryRequest req ∧ req.FitsClock ∧ req.env.io = .success) →
        Always (serve ctx) (Db.Fits lim) reqs (.fresh metrics) →
        KeepsDeadlines lim ctx.hash clock (reqs.foldl (serve ctx) (.fresh metrics)) := by
  intro hall
  have hshort : Always (serve ⟨List.length, [], 8080, 4⟩) (fun db => db.logLength ≤ 99)
      [⟨⟨0, .plain, .success⟩, bytes "SET k v EX 5\n", true⟩]
      (.fresh ⟨0, 0, 0, 0, 0, 0, 0, 0⟩) := by decide
  have hreq : request? (bytes "SET k v EX 5\n") =
      some (.store .set, [bytes "SET", bytes "k", bytes "v", bytes "EX", bytes "5"]) := by decide
  have hfits : Request.FitsClock ⟨⟨0, .plain, .success⟩, bytes "SET k v EX 5\n", true⟩ := by
    intro v tokens sec hreq' hsec
    dsimp only at hreq' ⊢
    rw [hreq, Option.some.injEq, Prod.mk.injEq] at hreq'
    obtain ⟨hv, rfl⟩ := hreq'
    obtain rfl := Verb.store.inj hv
    have hfive : requestedLifetime .set
        [bytes "SET", bytes "k", bytes "v", bytes "EX", bytes "5"] = some 5 := by decide
    rw [hfive, Option.some.injEq] at hsec
    subst hsec
    decide
  obtain ⟨rebuilt, hrestart, hkeeps⟩ := hall ⟨99, 99, by decide, by decide⟩
    ⟨List.length, [], 8080, 4⟩ (fun _ => 0) ⟨0, 0, 0, 0, 0, 0, 0, 0⟩
    [⟨⟨0, .plain, .success⟩, bytes "SET k v EX 5\n", true⟩]
    (by
      intro req hmem
      obtain rfl := List.mem_singleton.mp hmem
      exact ⟨Or.inl ⟨.set, by decide, _, hreq⟩, hfits, rfl⟩)
    (hshort.mono fun db h => fits_of_length h h)
  have hrebuilt := congrArg (Option.map fun s : KeyValueStore =>
    (s.view List.length).strings (bytes "k")) hrestart
  have hsome : some (some ⟨bytes "v", none, 0⟩) =
      some ((rebuilt.view List.length).strings (bytes "k")) := hrebuilt
  rw [Option.some.injEq] at hsome
  have hperm : (rebuilt.view List.length).Permanent (bytes "k") := ⟨_, hsome.symm, rfl⟩
  exact FlatStore.not_permanent_iff.mpr
    (hkeeps (bytes "k") ⟨⟨bytes "v", some 5000000000, 0⟩, 5000000000, rfl, rfl⟩) hperm

end KeyValueDb
