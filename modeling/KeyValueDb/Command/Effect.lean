/-
# What a command does to the store and to the log

Everything later needs of the commands is one statement about all of them (`run_effect`): a
branch either hands nothing to the log and changes nothing that is visible, or it hands over
exactly one record and the store changes as `Logged` says, with a reply that is no error.

`Logged` is the reference store's account of the branches that write, one constructor for each
shape of command.
-/
import KeyValueDb.Aof.Replay
import KeyValueDb.Command.Commands

namespace KeyValueDb

open Lib RespParser Command

variable {hash : Bytes → Nat} {now : Time}

/-! ## 1. The loops of the commands, on the reference store -/

namespace FlatStore

/-- Key and value in turn. -/
def msetAll (now : Time) : List Bytes → FlatStore → FlatStore
  | key :: value :: rest, F => msetAll now rest (F.set now key value none)
  | _, F => F

theorem erase_of_not_holds {key : Bytes} {F : FlatStore} (h : ¬ F.holds key) :
    F.erase key = F := by
  simp only [holds, Option.isSome_iff_ne_none, not_or, not_not] at h
  obtain ⟨hs, hh, hl⟩ := h
  simp [erase, ← hs, ← hh, ← hl]

theorem eraseAll_of_not_holds {keys : List Bytes} {F : FlatStore}
    (h : ∀ key ∈ keys, ¬ F.holds key) : F.eraseAll keys = F := by
  induction keys with
  | nil => rfl
  | cons key keys ih =>
    have hkey : F.erase key = F := erase_of_not_holds (h key List.mem_cons_self)
    have hrec : F.eraseAll (key :: keys) = (F.erase key).eraseAll keys := rfl
    rw [hrec, hkey]
    exact ih fun k hk => h k (List.mem_cons_of_mem _ hk)

/-- Where every hash has a field, deleting one that is not there does nothing. -/
theorem hdel_of_false {key field : Bytes} {F : FlatStore} (hne : F.NoEmpty)
    (h : (F.hdel key field).1 = false) : (F.hdel key field).2 = F := by
  unfold hdel at h ⊢
  cases hm : F.hashes key with
  | none => rfl
  | some fields =>
    rw [hm] at h
    dsimp only at h ⊢
    have hnone : fields field = none := by simpa using h
    have hsame : Function.update fields field none = fields := by
      rw [← hnone]; exact Function.update_eq_self field fields
    obtain ⟨f, v, hv⟩ := hne.hashes key fields hm
    rw [hsame, if_neg (fun hall => by rw [hall f] at hv; exact absurd hv (by simp))]
    exact putHash_self hm

end FlatStore

theorem view_msetLoop (args : List Bytes) (s : KeyValueStore) :
    (msetLoop hash now args s).view hash = (s.view hash).msetAll now args := by
  fun_induction msetLoop hash now args s with
  | case1 key value rest s ih => rw [ih, s.view_set, FlatStore.msetAll]
  | case2 args s hshort =>
    unfold FlatStore.msetAll
    split
    · rename_i key value rest
      exact absurd rfl (hshort key value rest)
    · rfl

theorem visible_mgetLoop (keys : List Bytes) (s : KeyValueStore) :
    ((mgetLoop hash now keys s).2.view hash).visible now = (s.view hash).visible now := by
  induction keys generalizing s with
  | nil => rfl
  | cons key keys ih =>
    simp only [mgetLoop]
    rw [ih, show (s.get hash now key).2.view hash = ((s.view hash).get now key).2 from
      congrArg Prod.snd (s.view_get hash now key), FlatStore.visible_get]

theorem pushLoop_snd (push : Bytes → KeyValueStore → Nat × KeyValueStore) (items : List Bytes)
    (s : KeyValueStore) :
    (pushLoop s push items).2 = items.foldl (fun s item => (push item s).2) s :=
  (List.foldl_hom Prod.snd fun _ _ => rfl).symm

theorem delLoop_view (keys : List Bytes) (s : KeyValueStore) :
    (delLoop hash s keys).2.view hash = (s.view hash).eraseAll keys := by
  rw [← view_eraseAll]
  exact congrArg _ (List.foldl_hom Prod.snd fun _ _ => rfl).symm

/-- The count of `DEL` is zero when none of the keys was there. -/
theorem delLoop_eq_zero_iff (keys : List Bytes) (s : KeyValueStore) :
    (delLoop hash s keys).1 = 0 ↔ ∀ key ∈ keys, ¬ (s.view hash).holds key := by
  suffices h : ∀ n : Nat, n ≤ (keys.foldl (delStep hash) (n, s)).1 ∧
      ((keys.foldl (delStep hash) (n, s)).1 = n ↔ ∀ key ∈ keys, ¬ (s.view hash).holds key) from
    (h 0).2
  induction keys generalizing s with
  | nil => exact fun n => ⟨Nat.le_refl n, by simp⟩
  | cons key keys ih =>
    intro n
    obtain ⟨hfst, hsnd⟩ := Prod.ext_iff.mp (s.view_del hash key)
    dsimp only [FlatStore.del] at hfst hsnd
    rw [List.foldl_cons]
    by_cases hkey : (s.view hash).holds key
    · have hstep : delStep hash (n, s) key = (n + 1, (s.del hash key).2) := by
        simp [delStep, hfst, hkey]
      have hle := (ih (s.del hash key).2 (n + 1)).1
      rw [hstep]
      exact ⟨by omega, iff_of_false (by omega) fun hall => hall key List.mem_cons_self hkey⟩
    · have hstep : delStep hash (n, s) key = (n, (s.del hash key).2) := by
        simp [delStep, hfst, hkey]
      obtain ⟨hle, hiff⟩ := ih (s.del hash key).2 n
      rw [hsnd, FlatStore.erase_of_not_holds hkey] at hiff
      rw [hstep]
      exact ⟨hle, hiff.trans (by simp [hkey])⟩

/-! ## 2. The commands that write -/

/-- Key and amount of a counter command. -/
def counterArgs : StoreVerb → List Bytes → Option (Bytes × Int)
  | .incr, [key] => some (key, 1)
  | .decr, [key] => some (key, -1)
  | .incrby, [key, amount] => (stoll amount).map fun delta => (key, delta)
  | _, _ => none

/-- `Logged now F v tokens record F'`: the command `v` with these tokens succeeds on `F` at
`now`, hands `record` to the log and leaves `F'`. -/
inductive Logged (now : Time) (F : FlatStore) :
    StoreVerb → List Bytes → List Bytes → FlatStore → Prop
  | set (w key value : Bytes) {options : List Bytes} {ttl : Option Int}
      (h : lifetime options = some ttl) :
      Logged now F .set (w :: key :: value :: options) (w :: key :: value :: options)
        (F.set now key value ttl)
  | setex (w key value : Bytes) {seconds : Bytes} {sec : Int} (h : stoll seconds = some sec) :
      Logged now F .setex [w, key, seconds, value]
        [bytes "SET", key, value, bytes "EX", seconds] (F.set now key value (some sec))
  | mset (w : Bytes) {args : List Bytes} (hlen : 2 ≤ args.length) (heven : args.length % 2 = 0) :
      Logged now F .mset (w :: args) (w :: args) (F.msetAll now args)
  | counter (w : Bytes) {v : StoreVerb} {args : List Bytes} {key : Bytes} {delta : Int}
      (h : counterArgs v args = some (key, delta)) (hok : (F.incrBy now key delta).1.1 = true) :
      Logged now F v (w :: args) (w :: args) (F.incrBy now key delta).2
  | hset (w key field value : Bytes) :
      Logged now F .hset [w, key, field, value] [w, key, field, value] (F.hset key field value).2
  | hdel (w key field : Bytes) (h : (F.hdel key field).1 = true) :
      Logged now F .hdel [w, key, field] [w, key, field] (F.hdel key field).2
  | lpush (w key item : Bytes) (items : List Bytes) :
      Logged now F .lpush (w :: key :: item :: items) (w :: key :: item :: items)
        (F.lpushAll key (item :: items))
  | rpush (w key item : Bytes) (items : List Bytes) :
      Logged now F .rpush (w :: key :: item :: items) (w :: key :: item :: items)
        (F.rpushAll key (item :: items))
  | lpop (w key : Bytes) (h : (F.lpop key).1.isSome) :
      Logged now F .lpop [w, key] [w, key] (F.lpop key).2
  | rpop (w key : Bytes) (h : (F.rpop key).1.isSome) :
      Logged now F .rpop [w, key] [w, key] (F.rpop key).2
  | del (w key : Bytes) (keys : List Bytes) (h : ∃ k ∈ key :: keys, F.holds k) :
      Logged now F .del (w :: key :: keys) (w :: key :: keys) (F.eraseAll (key :: keys))
  | expire (w key : Bytes) {seconds : Bytes} {sec : Int} (h : stoll seconds = some sec)
      (hok : (F.expire now key sec).1 = true) :
      Logged now F .expire [w, key, seconds] [w, key, seconds] (F.expire now key sec).2
  | flushdb (tokens : List Bytes) :
      Logged now F .flushdb tokens [bytes "FLUSHDB"] FlatStore.empty

/-- An error reply. -/
def IsError (response : Bytes) : Prop := response.head? = some 45

/-- What a branch does: nothing visible and nothing logged, or one logged write. -/
inductive Reply.Effect (hash : Bytes → Nat) (now : Time) (v : StoreVerb) (tokens : List Bytes)
    (s : KeyValueStore) (r : Reply) : Prop
  | quiet (hrecord : r.record = none)
      (hvisible : (r.store.view hash).visible now = (s.view hash).visible now)
  | logged (record : List Bytes) (hrecord : r.record = some record)
      (hlogged : Logged now (s.view hash) v tokens record (r.store.view hash))
      (hok : ¬ IsError r.response)

/-! ## 3. One lemma per branch -/

section Branches

variable {v : StoreVerb} {tokens : List Bytes} {s : KeyValueStore}

theorem effect_only (response : Bytes) :
    (Reply.only response s).Effect hash now v tokens s := .quiet rfl rfl

theorem effect_wrongArguments (name : String) :
    (wrongArguments name s).Effect hash now v tokens s := effect_only _

theorem effect_notAnInteger : (notAnInteger s).Effect hash now v tokens s := effect_only _

theorem not_isError_ok : ¬ IsError ok := by simp [IsError, ok, serializeSimpleString, bytes]

theorem not_isError_integer (n : Int) : ¬ IsError (serializeInteger n) := by
  simp [IsError, serializeInteger, bytes]

theorem not_isError_flag (b : Bool) : ¬ IsError (flag b) := not_isError_integer _

theorem not_isError_bulkOrNull (val : Option Bytes) : ¬ IsError (bulkOrNull val) := by
  cases val with
  | none => simp [IsError, bulkOrNull, serializeNull, bytes]
  | some val => simp [IsError, bulkOrNull, serializeBulkString, bytes]

/-- A branch that only reads the store. -/
theorem effect_read (response : Bytes) (reads : Nat) :
    ({ response, store := s, reads } : Reply).Effect hash now v tokens s := .quiet rfl rfl

theorem effect_set : (Command.set hash now tokens s).Effect hash now .set tokens s := by
  unfold Command.set
  split
  · rename_i w key value options
    split
    · exact effect_notAnInteger
    · rename_i ttl h
      refine .logged _ rfl ?_ not_isError_ok
      dsimp only
      rw [s.view_set]
      exact .set w key value h
  · exact effect_wrongArguments _

theorem effect_setex : (Command.setex hash now tokens s).Effect hash now .setex tokens s := by
  unfold Command.setex
  split
  · rename_i w key seconds value
    split
    · exact effect_notAnInteger
    · rename_i sec h
      refine .logged _ rfl ?_ not_isError_ok
      dsimp only
      rw [s.view_set]
      exact .setex w key value h
  · exact effect_wrongArguments _

theorem effect_get : (Command.get hash now tokens s).Effect hash now v tokens s := by
  unfold Command.get
  split
  · rename_i w key
    refine .quiet rfl ?_
    dsimp only
    rw [show (s.get hash now key).2.view hash = _ from congrArg Prod.snd (s.view_get hash now key),
      FlatStore.visible_get]
  · exact effect_wrongArguments _

theorem effect_mget : (Command.mget hash now tokens s).Effect hash now v tokens s := by
  unfold Command.mget
  split
  · exact .quiet rfl (visible_mgetLoop _ s)
  · exact effect_wrongArguments _

theorem effect_mset : (Command.mset hash now tokens s).Effect hash now .mset tokens s := by
  unfold Command.mset
  split
  · rename_i w args
    split
    · exact effect_wrongArguments _
    · rename_i h
      refine .logged _ rfl ?_ not_isError_ok
      dsimp only
      rw [view_msetLoop]
      exact .mset w (by omega) (by omega)
  · exact effect_wrongArguments _

/-- A counter that cannot be read is left as it is. -/
theorem incrBy_of_false {F : FlatStore} {key : Bytes} {delta : Int}
    (h : (F.incrBy now key delta).1.1 = false) : (F.incrBy now key delta).2 = F := by
  unfold FlatStore.incrBy at h ⊢
  dsimp only at h ⊢
  split at h
  · exact absurd h (by simp)
  · split at h
    · exact absurd h (by simp)
    · split at h
      · rename_i hx hv
        simp [*]
      · exact absurd h (by simp)

theorem effect_addToCounter {w : Bytes} {args : List Bytes} {key : Bytes} {delta : Int}
    (h : counterArgs v args = some (key, delta)) :
    (addToCounter hash now (w :: args) s key delta).Effect hash now v (w :: args) s := by
  obtain ⟨hfst, hsnd⟩ := Prod.ext_iff.mp (s.view_incrBy hash now key delta)
  dsimp only at hfst hsnd
  unfold addToCounter
  dsimp only
  split
  · rename_i hok
    refine .logged _ rfl ?_ (not_isError_integer _)
    dsimp only
    rw [hsnd]
    exact .counter w h (by rw [← hfst]; exact hok)
  · rename_i hno
    refine .quiet rfl ?_
    rw [hfst] at hno
    change ((s.incrBy hash now key delta).2.view hash).visible now = _
    rw [hsnd, incrBy_of_false (by simpa using hno)]

theorem effect_incr : (Command.incr hash now tokens s).Effect hash now .incr tokens s := by
  unfold Command.incr
  split
  · exact effect_addToCounter rfl
  · exact effect_wrongArguments _

theorem effect_decr : (Command.decr hash now tokens s).Effect hash now .decr tokens s := by
  unfold Command.decr
  split
  · exact effect_addToCounter rfl
  · exact effect_wrongArguments _

theorem effect_incrby : (Command.incrby hash now tokens s).Effect hash now .incrby tokens s := by
  unfold Command.incrby
  split
  · split
    · exact effect_notAnInteger
    · rename_i h
      exact effect_addToCounter (by simp [counterArgs, h])
  · exact effect_wrongArguments _

theorem effect_hset : (Command.hset hash tokens s).Effect hash now .hset tokens s := by
  unfold Command.hset
  split
  · rename_i w key field value
    refine .logged _ rfl ?_ (not_isError_flag _)
    dsimp only
    rw [show (s.hset hash key field value).2.view hash = _ from
      congrArg Prod.snd (s.view_hset hash key field value)]
    exact .hset w key field value
  · exact effect_wrongArguments _

theorem effect_hdel (hne : (s.view hash).NoEmpty) :
    (Command.hdel hash tokens s).Effect hash now .hdel tokens s := by
  unfold Command.hdel
  split
  · rename_i w key field
    obtain ⟨hfst, hsnd⟩ := Prod.ext_iff.mp (s.view_hdel hash key field)
    dsimp only at hfst hsnd
    cases hr : (s.hdel hash key field).1 with
    | true =>
      refine .logged [w, key, field] (by simp [hr]) ?_ (not_isError_flag _)
      dsimp only
      rw [hsnd]
      exact .hdel w key field (by rw [← hfst]; exact hr)
    | false =>
      refine .quiet (by simp [hr]) ?_
      dsimp only
      rw [hsnd, FlatStore.hdel_of_false hne (by rw [← hfst]; exact hr)]
  · exact effect_wrongArguments _

/-- `LPUSH` and `RPUSH`. -/
theorem effect_pushCommand {name : String}
    {push : Bytes → Bytes → KeyValueStore → Nat × KeyValueStore}
    {pushAll : Bytes → List Bytes → FlatStore → FlatStore}
    (hview : ∀ key items, (items.foldl (fun s item => (push key item s).2) s).view hash =
      pushAll key items (s.view hash))
    (hlogged : ∀ w key item items, Logged now (s.view hash) v (w :: key :: item :: items)
      (w :: key :: item :: items) (pushAll key (item :: items) (s.view hash))) :
    (pushCommand tokens s name push).Effect hash now v tokens s := by
  unfold pushCommand
  split
  · rename_i w key item items
    refine .logged _ rfl ?_ (not_isError_integer _)
    dsimp only
    rw [pushLoop_snd, hview]
    exact hlogged w key item items
  · exact effect_wrongArguments _

theorem effect_lpush : (Command.lpush hash tokens s).Effect hash now .lpush tokens s :=
  effect_pushCommand (fun _ _ => view_lpushAll s _ _) .lpush

theorem effect_rpush : (Command.rpush hash tokens s).Effect hash now .rpush tokens s :=
  effect_pushCommand (fun _ _ => view_rpushAll s _ _) .rpush

/-- A pop that finds nothing leaves the store as it is. -/
theorem lpop_of_none {F : FlatStore} {key : Bytes} (h : (F.lpop key).1 = none) :
    (F.lpop key).2 = F := by
  unfold FlatStore.lpop at h ⊢
  split
  · rfl
  · rename_i hv; rw [hv] at h; exact absurd h (by simp)

theorem rpop_of_none {F : FlatStore} {key : Bytes} (h : (F.rpop key).1 = none) :
    (F.rpop key).2 = F := by
  unfold FlatStore.rpop at h ⊢
  split
  · rfl
  · rename_i hv; rw [hv] at h; exact absurd h (by simp)

/-- `LPOP` and `RPOP`. -/
theorem effect_popCommand {name : String}
    {pop : Bytes → KeyValueStore → Option Bytes × KeyValueStore}
    {fpop : Bytes → FlatStore → Option Bytes × FlatStore}
    (hview : ∀ key, ((pop key s).1, (pop key s).2.view hash) = fpop key (s.view hash))
    (hnone : ∀ {F : FlatStore} {key : Bytes}, (fpop key F).1 = none → (fpop key F).2 = F)
    (hlogged : ∀ w key, (fpop key (s.view hash)).1.isSome →
      Logged now (s.view hash) v [w, key] [w, key] (fpop key (s.view hash)).2) :
    (popCommand tokens s name pop).Effect hash now v tokens s := by
  unfold popCommand
  split
  · rename_i w key
    obtain ⟨hfst, hsnd⟩ := Prod.ext_iff.mp (hview key)
    dsimp only at hfst hsnd
    cases hr : (pop key s).1 with
    | some val =>
      refine .logged [w, key] (by simp [hr]) ?_ (not_isError_bulkOrNull _)
      dsimp only
      rw [hsnd]
      exact hlogged w key (by rw [← hfst, hr]; rfl)
    | none =>
      refine .quiet (by simp [hr]) ?_
      dsimp only
      rw [hsnd, hnone (by rw [← hfst]; exact hr)]
  · exact effect_wrongArguments _

theorem effect_lpop : (Command.lpop hash tokens s).Effect hash now .lpop tokens s :=
  effect_popCommand (fun key => s.view_lpop hash key) lpop_of_none .lpop

theorem effect_rpop : (Command.rpop hash tokens s).Effect hash now .rpop tokens s :=
  effect_popCommand (fun key => s.view_rpop hash key) rpop_of_none .rpop

theorem effect_del : (Command.del hash tokens s).Effect hash now .del tokens s := by
  unfold Command.del
  split
  · rename_i w key keys
    have hzero : (delLoop hash s (key :: keys)).1 = 0 ↔ _ := delLoop_eq_zero_iff (key :: keys) s
    rcases Nat.eq_zero_or_pos (delLoop hash s (key :: keys)).1 with h0 | hpos
    · refine .quiet (by simp [h0]) ?_
      dsimp only
      rw [delLoop_view, FlatStore.eraseAll_of_not_holds (hzero.mp h0)]
    · refine .logged (w :: key :: keys) (by simp [hpos]) ?_ (not_isError_integer _)
      dsimp only
      rw [delLoop_view]
      refine .del w key keys ?_
      by_contra hno
      exact hpos.ne' (hzero.mpr fun k hk hholds => hno ⟨k, hk, hholds⟩)
  · exact effect_wrongArguments _

theorem effect_expire : (Command.expire hash now tokens s).Effect hash now .expire tokens s := by
  unfold Command.expire
  split
  · rename_i w key seconds
    split
    · exact effect_notAnInteger
    · rename_i sec h
      obtain ⟨hfst, hsnd⟩ := Prod.ext_iff.mp (s.view_expire hash now key sec)
      dsimp only at hfst hsnd
      cases hr : (s.expire hash now key sec).1 with
      | true =>
        refine .logged [w, key, seconds] (by simp [hr]) ?_ (not_isError_flag _)
        dsimp only
        rw [hsnd]
        exact .expire w key h (by rw [← hfst]; exact hr)
      | false =>
        refine .quiet (by simp [hr]) ?_
        dsimp only
        rw [hsnd, FlatStore.visible_expire_of_false (by rw [← hfst]; exact hr)]
  · exact effect_wrongArguments _

theorem effect_ttl : (Command.ttl hash now tokens s).Effect hash now v tokens s := by
  unfold Command.ttl
  split
  · rename_i w key
    refine .quiet rfl ?_
    dsimp only
    rw [show (s.ttl hash now key).2.view hash = _ from congrArg Prod.snd (s.view_ttl hash now key),
      FlatStore.visible_ttl]
  · exact effect_wrongArguments _

theorem effect_hget : (Command.hget hash tokens s).Effect hash now v tokens s := by
  unfold Command.hget
  split
  · exact effect_read _ _
  · exact effect_wrongArguments _

theorem effect_hexists : (Command.hexists hash tokens s).Effect hash now v tokens s := by
  unfold Command.hexists
  split
  · exact effect_read _ _
  · exact effect_wrongArguments _

theorem effect_hlen : (Command.hlen hash tokens s).Effect hash now v tokens s := by
  unfold Command.hlen
  split
  · exact effect_read _ _
  · exact effect_wrongArguments _

theorem effect_hgetall (order : IterOrder) :
    (Command.hgetall hash order tokens s).Effect hash now v tokens s := by
  unfold Command.hgetall
  split
  · exact effect_read _ _
  · exact effect_wrongArguments _

theorem effect_llen : (Command.llen hash tokens s).Effect hash now v tokens s := by
  unfold Command.llen
  split
  · exact effect_read _ _
  · exact effect_wrongArguments _

theorem effect_exists : (Command.exists hash now tokens s).Effect hash now v tokens s := by
  unfold Command.exists
  split
  · exact effect_read _ _
  · exact effect_wrongArguments _

theorem effect_lrange : (Command.lrange hash tokens s).Effect hash now v tokens s := by
  unfold Command.lrange
  split
  · split
    · exact effect_read _ _
    · exact effect_notAnInteger
  · exact effect_wrongArguments _

/-- **Every branch.** -/
theorem run_effect (order : IterOrder) (now : Time) (v : StoreVerb) (tokens : List Bytes)
    (hne : (s.view hash).NoEmpty) :
    (Command.run hash order now tokens s v).Effect hash now v tokens s := by
  cases v with
  | set => exact effect_set
  | setex => exact effect_setex
  | get => exact effect_get
  | mget => exact effect_mget
  | mset => exact effect_mset
  | incr => exact effect_incr
  | decr => exact effect_decr
  | incrby => exact effect_incrby
  | hset => exact effect_hset
  | hdel => exact effect_hdel hne
  | lpush => exact effect_lpush
  | rpush => exact effect_rpush
  | lpop => exact effect_lpop
  | rpop => exact effect_rpop
  | del => exact effect_del
  | expire => exact effect_expire
  | ttl => exact effect_ttl
  | dbsize => exact effect_only _
  | flushdb => exact .logged _ rfl (.flushdb tokens) not_isError_ok
  | hget => exact effect_hget
  | hexists => exact effect_hexists
  | hlen => exact effect_hlen
  | hgetall => exact effect_hgetall order
  | llen => exact effect_llen
  | lrange => exact effect_lrange
  | «exists» => exact effect_exists

end Branches

end KeyValueDb
