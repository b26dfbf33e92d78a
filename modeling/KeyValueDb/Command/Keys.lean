/-
# The keys of a command

What a run leaves under some keys, and what it answers to the requests about them, is decided by
the requests that name one of these keys, `FLUSHDB` among them.  Leaving all others out changes
nothing (`replies_about_keys`, `contents_of_keys`).

So the shards need no agreement among themselves, and a client that keeps its keys to itself
can be looked at alone, until somebody empties the store.
-/
import KeyValueDb.Command.Unordered

namespace KeyValueDb

open Lib RespParser FlatStore

/-! ## 1. Requests and keys -/

/-- The call is on one of the keys, or empties the store. -/
def Call.on (K : Bytes → Bool) : Call → Bool
  | .clear => true
  | c => c.key?.any K

instance (ctx : ServerCtx) (isAuthenticated : Bool) : Decidable (Admitted ctx isAuthenticated) :=
  inferInstanceAs (Decidable (_ ∨ _))

/-- The calls that a request makes, once it is past the password. -/
def Request.calls (ctx : ServerCtx) (req : Request) : List Call :=
  match request? req.raw with
  | some (.store v, tokens) =>
    if Admitted ctx req.isAuthenticated then (Command.plan tokens v).calls else []
  | _ => []

/-- The request names one of the keys. -/
def Request.touches (ctx : ServerCtx) (K : Bytes → Bool) (req : Request) : Bool :=
  (req.calls ctx).any (Call.on K)

/-- The request names some of the keys and no others. -/
def Request.about (ctx : ServerCtx) (K : Bytes → Bool) (req : Request) : Bool :=
  req.touches ctx K && (req.calls ctx).all (Call.on K)

/-- The replies of a run, each with its request. -/
def transcript (ctx : ServerCtx) : List Request → Db → List (Request × Bytes)
  | [], _ => []
  | req :: reqs, db =>
    (req, (execute ctx req.env req.raw db req.isAuthenticated).result.response) ::
      transcript ctx reqs (serve ctx db req)

/-- The same request with the same reply; the pairs of an `HGETALL` in any order. -/
structure SameReply (ctx : ServerCtx) (x y : Request × Bytes) : Prop where
  request : y.1 = x.1
  response : SamePairs x.2 y.2
  exact : (∀ tokens, ¬ x.1.Asks ctx (.store .hgetall) tokens) → y.2 = x.2

/-! ## 2. Calls on the keys and calls on others -/

variable {K : Bytes → Bool} {hash : Bytes → Nat} {s s' : KeyValueStore} {order : IterOrder}
  {now : Time}

theorem Call.within_of_on {c : Call} (h : c.on K = true) : c.Within {k | K k = true} := by
  cases c
  case clear => exact Or.inl rfl
  case size | getSnapshot => simp [Call.on, Call.key?] at h
  all_goals simpa [Call.on, Call.key?, Call.Within] using h

/-- A call on other keys leaves these alone. -/
theorem call_sameOn {c : Call} (h : c.on K = false) (F : FlatStore) :
    SameOn {k | K k = true} F (F.call now c).2 := by
  intro k hk
  rcases call_sameAt_or c k F with hsame | hkey | rfl
  · exact hsame.symm
  · refine absurd h ?_
    cases c <;> simp only [Call.key?, Option.some.injEq, reduceCtorEq] at hkey <;>
      subst hkey <;> simpa [Call.on, Call.key?] using hk
  · exact absurd h (by simp [Call.on])

theorem SameOn.trans {K : Set Bytes} {F G H : FlatStore} (h : SameOn K F G) (h' : SameOn K G H) :
    SameOn K F H :=
  fun k hk => (h k hk).trans (h' k hk)

theorem makeCalls_untouched {calls : List Call} (h : calls.any (Call.on K) = false) :
    SameOn {k | K k = true} (s.view hash) ((s.makeCalls hash order now calls).2.view hash) := by
  induction calls generalizing s with
  | nil => exact SameOn.refl _ _
  | cons c cs ih =>
    rw [List.any_cons, Bool.or_eq_false_iff] at h
    have hhead : SameOn {k | K k = true} (s.view hash) ((s.view hash).call now c).2 :=
      call_sameOn h.1 (s.view hash)
    rw [← s.view_call order] at hhead
    exact SameOn.trans hhead (ih h.2)

/-! ## 3. One request -/

variable {ctx : ServerCtx} {db db' : Db} {req : Request}

theorem calls_of_asks {v : StoreVerb} {tokens : List Bytes}
    (hasks : req.Asks ctx (.store v) tokens) : req.calls ctx = (Command.plan tokens v).calls := by
  simp [Request.calls, hasks.2, hasks.1]

theorem asks_of_mem_calls {c : Call} (hc : c ∈ req.calls ctx) :
    ∃ v tokens, req.Asks ctx (.store v) tokens := by
  unfold Request.calls at hc
  split at hc
  · rename_i v tokens hreq
    split at hc
    · rename_i hadm
      exact ⟨v, tokens, hadm, hreq⟩
    · exact absurd hc List.not_mem_nil
  · exact absurd hc List.not_mem_nil

/-- What a request does to the store are its calls. -/
theorem store_serve (ctx : ServerCtx) (db : Db) (req : Request) :
    (serve ctx db req).store =
      (db.store.makeCalls ctx.hash req.env.order req.env.now (req.calls ctx)).2 := by
  cases execute_cases ctx req.env req.raw db req.isAuthenticated with
  | idle hstore _ _ hidle =>
    have hcalls : req.calls ctx = [] := by
      refine List.eq_nil_iff_forall_not_mem.mpr fun c hc => ?_
      obtain ⟨v, tokens, hasks⟩ := asks_of_mem_calls hc
      exact hidle hasks.1 _ _ hasks.2
    rw [hcalls]
    exact hstore
  | rewrite _ hreq _ _ hstore =>
    have hcalls : req.calls ctx = [] := by
      unfold Request.calls
      rw [hreq]
    rw [hcalls]
    exact hstore
  | store hadm hreq _ hstore =>
    rw [calls_of_asks ⟨hadm, hreq⟩]
    refine hstore.trans ?_
    rw [Command.run_eq_plan ctx.hash req.env.order]
    rfl

/-- A request that does not name the keys leaves them alone. -/
theorem serve_untouched (h : req.touches ctx K = false) :
    SameOn {k | K k = true} (db.store.view ctx.hash) ((serve ctx db req).store.view ctx.hash) := by
  rw [store_serve]
  exact makeCalls_untouched h

/-- Any request keeps what two databases agree on. -/
theorem serve_sameOn {K : Set Bytes} (h : SameOn K (db.store.view ctx.hash)
    (db'.store.view ctx.hash)) (req : Request) :
    SameOn K ((serve ctx db req).store.view ctx.hash)
      ((serve ctx db' req).store.view ctx.hash) := by
  rw [store_serve, store_serve]
  exact makeCalls_sameOn h _ _ _ _

/-- A request about the keys asks for a command on the store. -/
theorem asks_of_about (h : req.about ctx K = true) :
    ∃ v tokens, req.Asks ctx (.store v) tokens ∧
      ∀ c ∈ (Command.plan tokens v).calls, c.on K = true := by
  obtain ⟨htouches, hall⟩ := Bool.and_eq_true_iff.mp h
  obtain ⟨c, hc, -⟩ := List.any_eq_true.mp htouches
  obtain ⟨v, tokens, hasks⟩ := asks_of_mem_calls hc
  rw [calls_of_asks hasks] at hall
  exact ⟨v, tokens, hasks, List.all_eq_true.mp hall⟩

theorem response_of_asks {v : StoreVerb} {tokens : List Bytes}
    (hasks : req.Asks ctx (.store v) tokens) :
    (execute ctx req.env req.raw db req.isAuthenticated).result.response =
      (Command.run ctx.hash req.env.order req.env.now tokens db.store v).response := by
  cases execute_cases ctx req.env req.raw db req.isAuthenticated with
  | idle _ _ _ hidle => exact (hidle hasks.1 _ _ hasks.2).elim
  | rewrite hadm hreq => exact absurd (hasks.unique ⟨hadm, hreq⟩).1 (by simp)
  | store hadm hreq hresponse =>
    obtain ⟨hv, rfl⟩ := hasks.unique ⟨hadm, hreq⟩
    obtain rfl := Verb.store.inj hv
    exact hresponse

/-- **A request about the keys** is answered by what is under them. -/
theorem sameReply_of_about (h : Reachable ctx.hash db.store) (h' : Reachable ctx.hash db'.store)
    (hsame : SameOn {k | K k = true} (db.store.view ctx.hash) (db'.store.view ctx.hash))
    (habout : req.about ctx K = true) :
    SameReply ctx (req, (execute ctx req.env req.raw db req.isAuthenticated).result.response)
      (req, (execute ctx req.env req.raw db' req.isAuthenticated).result.response) := by
  obtain ⟨v, tokens, hasks, hon⟩ := asks_of_about habout
  rw [response_of_asks hasks, response_of_asks hasks]
  by_cases hv : v = .hgetall
  · subst hv
    refine ⟨rfl, ?_, fun hno => absurd hasks (hno tokens)⟩
    simp only [Command.run, Command.hgetall]
    split
    · rename_i word key
      have hkey : K key = true := by
        simpa [Call.on, Call.key?] using hon (.hgetall key) List.mem_cons_self
      exact .pairs (hgetall_perm (hsame key hkey) _ _)
    · exact .refl _
  · have hresults := makeCalls_same h.wellPlaced h'.wellPlaced hsame
      (fun c hc => ⟨Call.within_of_on (hon c hc), (Command.admits_of_mem_calls v c hc).shows hv⟩)
      req.env.order req.env.order req.env.now
    have hresponse : (Command.run ctx.hash req.env.order req.env.now tokens db'.store v).response =
        (Command.run ctx.hash req.env.order req.env.now tokens db.store v).response := by
      rw [Command.run_eq_plan ctx.hash req.env.order, Command.run_eq_plan ctx.hash req.env.order]
      simp only [Plan.run, Answer.reply, hresults]
    refine ⟨rfl, ?_, fun _ => hresponse⟩
    rw [hresponse]
    exact .refl _

/-! ## 4. Runs -/

section Runs

variable {reqs : List Request}

theorem reachable_serve (h : Reachable ctx.hash db.store) (req : Request) :
    Reachable ctx.hash (serve ctx db req).store :=
  h.execute req.env req.raw req.isAuthenticated

theorem about_touches (h : req.touches ctx K = false) : req.about ctx K = false := by
  rw [Request.about, h, Bool.false_and]

/-- **What is under the keys** is what the requests that name them leave there. -/
theorem contents_of_keys (ctx : ServerCtx) (K : Bytes → Bool) (reqs : List Request)
    {db db' : Db} (hsame : SameOn {k | K k = true} (db.store.view ctx.hash)
      (db'.store.view ctx.hash)) :
    SameOn {k | K k = true} ((reqs.foldl (serve ctx) db).store.view ctx.hash)
      (((reqs.filter (Request.touches ctx K)).foldl (serve ctx) db').store.view ctx.hash) := by
  induction reqs generalizing db db' with
  | nil => exact hsame
  | cons req reqs ih =>
    cases htouches : req.touches ctx K with
    | true =>
      rw [List.filter_cons_of_pos htouches]
      exact ih (serve_sameOn hsame req)
    | false =>
      rw [List.filter_cons_of_neg (by simp [htouches])]
      refine ih fun k hk => ?_
      exact ((serve_untouched htouches) k hk).symm.trans (hsame k hk)

/-- **What is answered about the keys** is what it would be without the requests that do not
name them. -/
theorem replies_about_keys (ctx : ServerCtx) (K : Bytes → Bool) (reqs : List Request)
    {db db' : Db} (h : Reachable ctx.hash db.store) (h' : Reachable ctx.hash db'.store)
    (hsame : SameOn {k | K k = true} (db.store.view ctx.hash) (db'.store.view ctx.hash)) :
    List.Forall₂ (SameReply ctx)
      ((transcript ctx reqs db).filter fun x => x.1.about ctx K)
      ((transcript ctx (reqs.filter (Request.touches ctx K)) db').filter
        fun x => x.1.about ctx K) := by
  induction reqs generalizing db db' with
  | nil => exact .nil
  | cons req reqs ih =>
    cases htouches : req.touches ctx K with
    | true =>
      have hrest := ih (reachable_serve h req) (reachable_serve h' req) (serve_sameOn hsame req)
      rw [List.filter_cons_of_pos htouches]
      cases habout : req.about ctx K with
      | true =>
        simp only [transcript, List.filter_cons, habout, if_true]
        exact .cons (sameReply_of_about h h' hsame habout) hrest
      | false =>
        simp only [transcript, List.filter_cons, habout, Bool.false_eq_true, if_false]
        exact hrest
    | false =>
      simp only [transcript, List.filter_cons, htouches, about_touches htouches, Bool.false_eq_true,
        if_false]
      exact ih (reachable_serve h req) h' fun k hk =>
        ((serve_untouched htouches) k hk).symm.trans (hsame k hk)

/-- **The requests that do not name the keys can be left out.**  From any reachable store, for any
set of keys: the replies to the requests about them, but for the order of the pairs of an
`HGETALL`, and what is under them in the end are those of the run without the requests that name
none of them. -/
theorem keys_alone (ctx : ServerCtx) (K : Bytes → Bool) (reqs : List Request) {db : Db}
    (h : Reachable ctx.hash db.store) :
    List.Forall₂ (SameReply ctx)
        ((transcript ctx reqs db).filter fun x => x.1.about ctx K)
        ((transcript ctx (reqs.filter (Request.touches ctx K)) db).filter
          fun x => x.1.about ctx K) ∧
      SameOn {k | K k = true} ((reqs.foldl (serve ctx) db).store.view ctx.hash)
        (((reqs.filter (Request.touches ctx K)).foldl (serve ctx) db).store.view ctx.hash) :=
  ⟨replies_about_keys ctx K reqs h h (SameOn.refl _ _),
    contents_of_keys ctx K reqs (SameOn.refl _ _)⟩

/-- Two clients on keys of their own, in one shard. -/
theorem keys_alone_two_clients :
    let ctx : ServerCtx := ⟨fun _ => 0, [], 8080, 4⟩
    let env : Env := ⟨0, .plain, .success⟩
    let K : Bytes → Bool := fun k => k == bytes "a"
    let reqs : List Request :=
      ["SET a 1\r\n", "SET b x\r\n", "DEL b\r\n", "INCR a\r\n", "GET a\r\n"].map fun text =>
        ⟨env, bytes text, true⟩
    List.Forall₂ (SameReply ctx)
        ((transcript ctx reqs (.fresh ⟨0, 0, 0, 0, 0, 0, 0, 0⟩)).filter fun x => x.1.about ctx K)
        ((transcript ctx (reqs.filter (Request.touches ctx K))
          (.fresh ⟨0, 0, 0, 0, 0, 0, 0, 0⟩)).filter fun x => x.1.about ctx K) ∧
      SameOn {k | K k = true}
        ((reqs.foldl (serve ctx) (.fresh ⟨0, 0, 0, 0, 0, 0, 0, 0⟩)).store.view ctx.hash)
        (((reqs.filter (Request.touches ctx K)).foldl (serve ctx)
          (.fresh ⟨0, 0, 0, 0, 0, 0, 0, 0⟩)).store.view ctx.hash) :=
  keys_alone _ _ _ Reachable.empty

end Runs

end KeyValueDb
