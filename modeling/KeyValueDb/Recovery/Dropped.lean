/-
# Commands that the loader does not replay

The loader compares the first token of a record with eight words.  `MSET`, `INCR`, `DECR`,
`INCRBY`, `LPOP` and `RPOP` are logged and are not among them; and it compares the token as it
stands, while the dispatcher compares it in upper case, so a record with any other spelling of
its word is not replayed either.

`Dropped` is a command that goes this way and changes a value: what it did is lost with the
process.  A logged command is dropped, and then replaying its record does nothing
(`Logged.forgotten`), or it is not, and then replaying keeps the values the same
(`Logged.mirrors`).
-/
import KeyValueDb.Command.Effect
import KeyValueDb.Recovery.Mirrors

namespace KeyValueDb

open Lib Function Command

/-! ## 1. The commands -/

/-- The value that `MSET` gives a key: the last one. -/
def lastValue (key : Bytes) : List Bytes → Option Bytes
  | k :: v :: rest => (lastValue key rest).or (if k = key then some v else none)
  | _ => none

namespace FlatStore

/-- Adding to the counter succeeds and changes its text. -/
def CounterMoves (F : FlatStore) (key : Bytes) (delta : Int) : Prop :=
  match F.values.strings key with
  | none => True
  | some text => ∃ v, stoll text = some v ∧ stdToString (wrap64 (v + delta)) ≠ text

/-- **The command is not replayed and changes a value.** -/
def Dropped (F : FlatStore) : StoreVerb → List Bytes → Prop
  | .mset, _ :: args =>
    2 ≤ args.length ∧ args.length % 2 = 0 ∧
      ∃ key value, lastValue key args = some value ∧ F.values.strings key ≠ some value
  | .incr, [_, key] => F.CounterMoves key 1
  | .decr, [_, key] => F.CounterMoves key (-1)
  | .incrby, [_, key, amount] => ∃ delta, stoll amount = some delta ∧ F.CounterMoves key delta
  | .lpop, [_, key] => F.elemsOf key ≠ []
  | .rpop, [_, key] => F.elemsOf key ≠ []
  | .set, word :: key :: value :: options =>
    word ≠ bytes "SET" ∧ (lifetime options).isSome ∧ F.values.strings key ≠ some value
  | .hset, [word, key, field, value] => word ≠ bytes "HSET" ∧ F.hget key field ≠ some value
  | .hdel, [word, key, field] => word ≠ bytes "HDEL" ∧ (F.hget key field).isSome
  | .lpush, word :: _ :: _ :: _ => word ≠ bytes "LPUSH"
  | .rpush, word :: _ :: _ :: _ => word ≠ bytes "RPUSH"
  | .del, word :: key :: keys => word ≠ bytes "DEL" ∧ ∃ k ∈ key :: keys, F.holds k
  | .expire, [word, key, seconds] =>
    word ≠ bytes "EXPIRE" ∧ (∃ sec ≤ 0, stoll seconds = some sec) ∧ (F.strings key).isSome
  | _, _ => False

/-! ## 2. What they do to the values -/

variable {now : Time} {F : FlatStore} {key : Bytes}

theorem msetAll_values (now : Time) (args : List Bytes) (F : FlatStore) :
    (F.msetAll now args).values =
      ⟨fun k => (lastValue k args).or (F.values.strings k), F.hashes, F.lists⟩ := by
  fun_induction msetAll now args F with
  | case1 k v rest F ih =>
    rw [ih]
    apply Contents.ext_keys
    · intro k'
      simp only [set, values_putString, lastValue]
      by_cases hk : k' = k
      · subst hk
        cases lastValue k' rest <;> simp
      · cases lastValue k' rest <;> simp [update_of_ne hk, Ne.symm hk]
    · intro k; rfl
    · intro k; rfl
  | case2 args F hshort =>
    have hnone : ∀ k, lastValue k args = none := by
      intro k
      unfold lastValue
      split
      · rename_i k v rest
        exact absurd rfl (hshort k v rest)
      · rfl
    simp [hnone, values]

/-- What a counter command leaves, where nothing has expired. -/
theorem incrBy_values (hF : F.Unexpired now) {delta : Int}
    (hok : (F.incrBy now key delta).1.1 = true) :
    (F.CounterMoves key delta ∧ (F.incrBy now key delta).2.values ≠ F.values) ∨
      (¬ F.CounterMoves key delta ∧ (F.incrBy now key delta).2.values = F.values) := by
  unfold incrBy at hok ⊢
  unfold CounterMoves
  cases he : F.strings key with
  | none =>
    have hnone : F.values.strings key = none := by simp [values, he]
    rw [hnone]
    refine Or.inl ⟨trivial, ?_⟩
    intro h
    have hk := congrFun (congrArg Contents.strings h) key
    rw [hnone] at hk
    simp [values_putString] at hk
  | some e =>
    have hvalue : F.values.strings key = some e.value := by simp [values, he]
    rw [he] at hok
    rw [hvalue]
    simp only [hF key e he, Bool.false_eq_true, if_false] at hok ⊢
    cases hv : stoll e.value with
    | none => rw [hv] at hok; exact absurd hok (by simp)
    | some v =>
      dsimp only
      by_cases hsame : stdToString (wrap64 (v + delta)) = e.value
      · right
        constructor
        · rintro ⟨v', hv', hne⟩
          obtain rfl := Option.some.inj hv'
          exact hne hsame
        · rw [values_putString, Option.map_some, hsame, ← hvalue, update_eq_self]
          rfl
      · refine Or.inl ⟨⟨v, rfl, hsame⟩, ?_⟩
        intro h
        apply hsame
        have hk := congrFun (congrArg Contents.strings h) key
        rw [hvalue] at hk
        simpa [values_putString] using hk

theorem CounterMoves.ok {delta : Int} (h : F.CounterMoves key delta) (hF : F.Unexpired now) :
    (F.incrBy now key delta).1.1 = true := by
  unfold CounterMoves at h
  unfold incrBy
  cases he : F.strings key with
  | none => rfl
  | some e =>
    have hvalue : F.values.strings key = some e.value := by simp [values, he]
    rw [hvalue] at h
    obtain ⟨v, hv, -⟩ := h
    simp [hF key e he, hv]

theorem hget_of_values {F' : FlatStore} (h : F'.values = F.values) (key field : Bytes) :
    F'.hget key field = F.hget key field := by
  have hhashes : F'.hashes = F.hashes := congrArg Contents.hashes h
  simp only [hget, hhashes]

theorem elemsOf_of_values {F' : FlatStore} (h : F'.values = F.values) (key : Bytes) :
    F'.elemsOf key = F.elemsOf key := by
  have hlists : F'.lists = F.lists := congrArg Contents.lists h
  simp only [elemsOf, hlists]

@[simp] theorem hget_hset (key field value : Bytes) (F : FlatStore) :
    (F.hset key field value).2.hget key field = some value := by
  simp [hset, hget, putHash]

/-- Setting a field to what it holds changes nothing. -/
theorem hset_self {field value : Bytes} (h : F.hget key field = some value) :
    (F.hset key field value).2 = F := by
  obtain ⟨m, hm, hv⟩ := Option.bind_eq_some_iff.mp h
  refine putHash_self ?_
  rw [hm, fieldsOf, hm, Option.getD_some, ← hv, update_eq_self]

@[simp] theorem hget_hdel (key field : Bytes) (F : FlatStore) :
    (F.hdel key field).2.hget key field = none := by
  unfold hdel
  cases hm : F.hashes key with
  | none => simp [hget, hm]
  | some fields =>
    dsimp only
    split <;> simp [hget, putHash]

@[simp] theorem elemsOf_putList (key : Bytes) (l : List Bytes) (F : FlatStore) :
    (F.putList key l).elemsOf key = l := by
  by_cases hl : l = [] <;> simp [elemsOf, putList, putListAt, hl]

theorem length_elemsOf_lpushAll (key : Bytes) (items : List Bytes) (F : FlatStore) :
    ((F.lpushAll key items).elemsOf key).length = (F.elemsOf key).length + items.length := by
  induction items generalizing F with
  | nil => rfl
  | cons item items ih =>
    have hrec : F.lpushAll key (item :: items) = ((F.lpush key item).2).lpushAll key items := rfl
    rw [hrec, ih]
    simp only [lpush, elemsOf_putList, List.length_cons]
    omega

theorem length_elemsOf_rpushAll (key : Bytes) (items : List Bytes) (F : FlatStore) :
    ((F.rpushAll key items).elemsOf key).length = (F.elemsOf key).length + items.length := by
  induction items generalizing F with
  | nil => rfl
  | cons item items ih =>
    have hrec : F.rpushAll key (item :: items) = ((F.rpush key item).2).rpushAll key items := rfl
    rw [hrec, ih]
    simp only [rpush, elemsOf_putList, List.length_append, List.length_cons, List.length_nil]
    omega

theorem holds_of_values {F' : FlatStore} (h : F'.values = F.values) (key : Bytes) :
    F'.holds key ↔ F.holds key := by
  have hstring := congrFun (congrArg Contents.strings h) key
  have hhashes : F'.hashes = F.hashes := congrArg Contents.hashes h
  have hlists : F'.lists = F.lists := congrArg Contents.lists h
  have hsome : (F'.strings key).isSome = (F.strings key).isSome := by
    simpa [values] using congrArg Option.isSome hstring
  simp only [holds, hsome, hhashes, hlists]

theorem not_holds_erase {k : Bytes} (h : k = key ∨ ¬ F.holds k) : ¬ (F.erase key).holds k := by
  rcases h with rfl | h
  · simp [holds, erase]
  · by_cases hk : k = key
    · subst hk; simp [holds, erase]
    · simpa [holds, erase, update_of_ne hk] using h

theorem not_holds_eraseAll {k : Bytes} {keys : List Bytes} (h : k ∈ keys ∨ ¬ F.holds k) :
    ¬ (F.eraseAll keys).holds k := by
  induction keys generalizing F with
  | nil => exact h.resolve_left List.not_mem_nil
  | cons key keys ih =>
    have hrec : F.eraseAll (key :: keys) = (F.erase key).eraseAll keys := rfl
    rw [hrec]
    rcases h with h | h
    · rcases List.mem_cons.mp h with rfl | h
      · exact ih (Or.inr (not_holds_erase (Or.inl rfl)))
      · exact ih (Or.inl h)
    · exact ih (Or.inr (not_holds_erase (Or.inr h)))

end FlatStore

/-! ## 3. What the loader does with their records -/

/-- The first token is the word of the command, in some spelling. -/
def Spells (v : StoreVerb) : List Bytes → Prop
  | [] => False
  | word :: _ => Verb.ofWord (toUpper word) = some (.store v)

section Loader

variable {now : Time} {F F' G : FlatStore} {v : StoreVerb} {word : Bytes}
  {tokens args record : List Bytes}

/-- In another spelling, the loader does not know the word. -/
theorem ofWord_of_ne (h : Spells v (word :: args)) (hne : word ≠ v.word) :
    Verb.ofWord word = none := by
  by_contra hsome
  obtain ⟨v', hv'⟩ := Option.ne_none_iff_exists'.mp hsome
  obtain rfl := Verb.word_of_ofWord hv'
  have hword : Verb.ofWord v'.word = some (.store v) := by
    rw [← Verb.toUpper_word v']
    exact h
  rw [Verb.ofWord_word, Option.some.injEq] at hword
  exact hne (congrArg Verb.word hword)

theorem FlatStore.dispatch_of_none (h : Verb.ofWord word = none) (G : FlatStore) :
    G.dispatch now (word :: args) = G := by
  simp [FlatStore.dispatch, h]

theorem dispatch_of_ne (h : Spells v (word :: args)) (hne : word ≠ v.word) (G : FlatStore) :
    G.dispatch now (word :: args) = G :=
  FlatStore.dispatch_of_none (ofWord_of_ne h hne) G

/-- The commands that are logged and not among the words the loader knows. -/
def unreplayed : List StoreVerb := [.mset, .incr, .decr, .incrby, .lpop, .rpop]

theorem dispatch_of_unreplayed (hv : v ∈ unreplayed) (h : Spells v (word :: args))
    (G : FlatStore) : G.dispatch now (word :: args) = G := by
  by_cases hword : word = v.word
  · subst hword
    have hof : Verb.ofWord v.word = some (.store v) := Verb.ofWord_word (.store v)
    simp only [unreplayed, List.mem_cons, List.not_mem_nil, or_false] at hv
    rcases hv with rfl | rfl | rfl | rfl | rfl | rfl <;> simp [FlatStore.dispatch, hof]
  · exact dispatch_of_ne h hword G

/-- Spelled as the loader spells it, a command that it knows is not dropped. -/
theorem not_dropped_word (hv : v ∉ unreplayed) : ¬ F.Dropped v (v.word :: args) := by
  unfold FlatStore.Dropped
  split
  case h_1 | h_2 | h_3 | h_4 | h_5 | h_6 => exact fun _ => hv (by decide)
  case h_14 => exact id
  all_goals
    rename_i hword
    rw [← (List.cons.inj hword).1]
    simp [StoreVerb.word]

/-- A counter command is dropped when the text of its counter moves. -/
theorem dropped_counter_iff (word : Bytes) (F : FlatStore) {key : Bytes} {delta : Int}
    (h : counterArgs v args = some (key, delta)) :
    v ∈ unreplayed ∧ (F.Dropped v (word :: args) ↔ F.CounterMoves key delta) := by
  unfold counterArgs at h
  split at h
  · simp only [Option.some.injEq, Prod.mk.injEq] at h
    obtain ⟨rfl, rfl⟩ := h
    exact ⟨by decide, Iff.rfl⟩
  · simp only [Option.some.injEq, Prod.mk.injEq] at h
    obtain ⟨rfl, rfl⟩ := h
    exact ⟨by decide, Iff.rfl⟩
  · obtain ⟨d, hd, heq⟩ := Option.map_eq_some_iff.mp h
    rw [Prod.mk.injEq] at heq
    obtain ⟨rfl, rfl⟩ := heq
    refine ⟨by decide, ?_, fun hm => ⟨d, hd, hm⟩⟩
    rintro ⟨d', hd', hm⟩
    rw [hd, Option.some.injEq] at hd'
    exact hd' ▸ hm
  · exact absurd h (by simp)

/-- **A dropped command changes a value, and replaying its record does not.** -/
theorem Logged.forgotten (h : Logged now F v tokens record F') (hword : Spells v tokens)
    (hF : F.Unexpired now) (hd : F.Dropped v tokens) (G : FlatStore) :
    G.dispatch now record = G ∧ F'.values ≠ F.values := by
  cases h with
  | set w key value hl =>
    obtain ⟨hne, -, hvalue⟩ := hd
    refine ⟨dispatch_of_ne hword hne G, ?_⟩
    intro h
    apply hvalue
    rw [← congrArg Contents.strings h]
    simp [FlatStore.set, FlatStore.values_putString]
  | setex w key value hl => exact absurd hd (by simp [FlatStore.Dropped])
  | mset w hlen heven =>
    obtain ⟨-, -, k, value, hlast, hvalue⟩ := hd
    refine ⟨dispatch_of_unreplayed (by decide) hword G, ?_⟩
    intro h
    apply hvalue
    rw [← congrArg Contents.strings h, FlatStore.msetAll_values]
    simp [hlast]
  | counter w hargs hok =>
    obtain ⟨hv, hiff⟩ := dropped_counter_iff w F hargs
    refine ⟨dispatch_of_unreplayed hv hword G, ?_⟩
    rcases FlatStore.incrBy_values hF hok with ⟨-, hne⟩ | ⟨hno, -⟩
    · exact hne
    · exact absurd (hiff.mp hd) hno
  | hset w key field value =>
    obtain ⟨hne, hfield⟩ := hd
    refine ⟨dispatch_of_ne hword hne G, ?_⟩
    intro h
    apply hfield
    rw [← FlatStore.hget_of_values h key field, FlatStore.hget_hset]
  | hdel w key field hok =>
    obtain ⟨hne, hfield⟩ := hd
    refine ⟨dispatch_of_ne hword hne G, ?_⟩
    intro h
    rw [← FlatStore.hget_of_values h key field, FlatStore.hget_hdel] at hfield
    exact absurd hfield (by simp)
  | lpush w key item items =>
    refine ⟨dispatch_of_ne hword hd G, ?_⟩
    intro h
    have hlen := FlatStore.length_elemsOf_lpushAll key (item :: items) F
    rw [FlatStore.elemsOf_of_values h key, List.length_cons] at hlen
    omega
  | rpush w key item items =>
    refine ⟨dispatch_of_ne hword hd G, ?_⟩
    intro h
    have hlen := FlatStore.length_elemsOf_rpushAll key (item :: items) F
    rw [FlatStore.elemsOf_of_values h key, List.length_cons] at hlen
    omega
  | lpop w key hok =>
    refine ⟨dispatch_of_unreplayed (by decide) hword G, ?_⟩
    intro h
    have hsame := FlatStore.elemsOf_of_values h key
    obtain ⟨x, xs, hl⟩ := List.exists_cons_of_ne_nil hd
    have hlen := congrArg List.length hsame
    simp [FlatStore.lpop, hl] at hlen
  | rpop w key hok =>
    refine ⟨dispatch_of_unreplayed (by decide) hword G, ?_⟩
    intro h
    have hsame := FlatStore.elemsOf_of_values h key
    have hpos := List.length_pos_iff.mpr hd
    have hlast := List.getLast?_eq_some_getLast hd
    have hlen := congrArg List.length hsame
    simp only [FlatStore.rpop, hlast, FlatStore.elemsOf_putList, List.length_dropLast] at hlen
    omega
  | del w key keys hholds =>
    obtain ⟨hne, k, hk, hheld⟩ := hd
    refine ⟨dispatch_of_ne hword hne G, ?_⟩
    intro h
    exact FlatStore.not_holds_eraseAll (Or.inl hk) ((FlatStore.holds_of_values h k).mpr hheld)
  | expire w key hsec hok =>
    obtain ⟨hne, ⟨sec, hle, hs⟩, hsome⟩ := hd
    rw [hsec, Option.some.injEq] at hs
    subst hs
    refine ⟨dispatch_of_ne hword hne G, ?_⟩
    intro h
    obtain ⟨e, he⟩ := Option.isSome_iff_exists.mp hsome
    have hk := congrFun (congrArg Contents.strings h) key
    simp [FlatStore.expire, he, hF key e he, Int.not_lt.mpr hle, FlatStore.putString,
      FlatStore.values] at hk
  | flushdb => exact absurd hd (by simp [FlatStore.Dropped])

/-- **Replaying the record of any other command keeps the values the same.** -/
theorem Logged.mirrors (h : Logged now F v tokens record F') (hword : Spells v tokens)
    (hF : F.Unexpired now) (hF' : F'.Unexpired now) (hm : FlatStore.Mirrors now F G)
    (hd : ¬ F.Dropped v tokens) : FlatStore.Mirrors now F' (G.dispatch now record) := by
  cases h with
  | set w key value hl =>
    by_cases hw : w = bytes "SET"
    · subst hw
      refine hm.putString rfl ?_
      intro e he
      obtain rfl := Option.some.inj he
      rfl
    · rw [dispatch_of_ne hword hw]
      have hsame : F.values.strings key = some value := by
        by_contra hne
        exact hd ⟨hw, by simp [hl], hne⟩
      refine hm.of_values ?_
      rw [FlatStore.set, FlatStore.values_putString, Option.map_some, ← hsame, update_eq_self]
      rfl
  | setex w key value hl =>
    refine hm.putString rfl ?_
    intro e he
    obtain rfl := Option.some.inj he
    rfl
  | mset w hlen heven =>
    rename_i args
    rw [dispatch_of_unreplayed (by decide) hword]
    refine hm.of_values ?_
    rw [FlatStore.msetAll_values]
    apply Contents.ext_keys
    · intro k
      dsimp only
      cases hlast : lastValue k args with
      | none => rfl
      | some value =>
        by_contra hne
        refine hd ⟨hlen, heven, k, value, hlast, ?_⟩
        intro h
        exact hne (by rw [h]; rfl)
    · intro k; rfl
    · intro k; rfl
  | counter w hargs hok =>
    obtain ⟨hv, hiff⟩ := dropped_counter_iff w F hargs
    rw [dispatch_of_unreplayed hv hword]
    rcases FlatStore.incrBy_values hF hok with ⟨hyes, -⟩ | ⟨-, hsame⟩
    · exact absurd (hiff.mpr hyes) hd
    · exact hm.of_values hsame
  | hset w key field value =>
    by_cases hw : w = bytes "HSET"
    · subst hw
      exact hm.hset key field value
    · rw [dispatch_of_ne hword hw]
      refine hm.of_values (congrArg _ (FlatStore.hset_self ?_))
      by_contra hne
      exact hd ⟨hw, hne⟩
  | hdel w key field hok =>
    by_cases hw : w = bytes "HDEL"
    · subst hw
      exact hm.hdel key field
    · refine absurd ⟨hw, ?_⟩ hd
      unfold FlatStore.hdel at hok
      cases hfields : F.hashes key with
      | none => rw [hfields] at hok; exact absurd hok (by simp)
      | some fields => rw [hfields] at hok; simpa [FlatStore.hget, hfields] using hok
  | lpush w key item items =>
    by_cases hw : w = bytes "LPUSH"
    · subst hw
      exact hm.foldl (fun item h => h.lpush key item) (item :: items)
    · exact absurd hw hd
  | rpush w key item items =>
    by_cases hw : w = bytes "RPUSH"
    · subst hw
      exact hm.foldl (fun item h => h.rpush key item) (item :: items)
    · exact absurd hw hd
  | lpop w key hok =>
    refine absurd ?_ hd
    intro hnil
    simp [FlatStore.lpop, hnil] at hok
  | rpop w key hok =>
    refine absurd ?_ hd
    intro hnil
    simp [FlatStore.rpop, hnil] at hok
  | del w key keys hholds =>
    by_cases hw : w = bytes "DEL"
    · subst hw
      exact hm.foldl (fun key h => h.erase key) (key :: keys)
    · exact absurd ⟨hw, hholds⟩ hd
  | expire w key hsec hok =>
    rename_i seconds sec
    by_cases hw : w = bytes "EXPIRE"
    · subst hw
      rw [FlatStore.dispatch_expire now key hsec]
      exact hm.expire hok hF'
    · rw [dispatch_of_ne hword hw]
      refine hm.of_values ?_
      cases he : F.strings key with
      | none => simp [FlatStore.expire, he] at hok
      | some e =>
        have hpos : 0 < sec := by
          by_contra hle
          exact hd ⟨hw, ⟨sec, Int.not_lt.mp hle, hsec⟩, by simp [he]⟩
        have hvalue : (some e.value : Option Bytes) = F.values.strings key := by
          simp [FlatStore.values, he]
        simp only [FlatStore.expire, he, hF key e he, Bool.false_eq_true, if_false, if_pos hpos,
          FlatStore.values_putString, Option.map_some, hvalue, update_eq_self]
        rfl
  | flushdb => exact ⟨rfl, FlatStore.unexpired_empty now⟩

/-- A dropped command is a logged one. -/
theorem FlatStore.Dropped.logged (hd : F.Dropped v tokens) (hF : F.Unexpired now) :
    ∃ record F', Logged now F v tokens record F' := by
  unfold FlatStore.Dropped at hd
  split at hd
  · exact ⟨_, _, .mset _ hd.1 hd.2.1⟩
  · exact ⟨_, _, .counter _ rfl (hd.ok hF)⟩
  · exact ⟨_, _, .counter _ rfl (hd.ok hF)⟩
  · obtain ⟨delta, hdelta, hmoves⟩ := hd
    exact ⟨_, _, .counter _ (by simp [counterArgs, hdelta]) (hmoves.ok hF)⟩
  · obtain ⟨x, xs, hl⟩ := List.exists_cons_of_ne_nil hd
    exact ⟨_, _, .lpop _ _ (by simp [FlatStore.lpop, hl])⟩
  · exact ⟨_, _, .rpop _ _ (by simp [FlatStore.rpop, List.getLast?_eq_some_getLast hd])⟩
  · obtain ⟨ttl, hl⟩ := Option.isSome_iff_exists.mp hd.2.1
    exact ⟨_, _, .set _ _ _ hl⟩
  · exact ⟨_, _, .hset _ _ _ _⟩
  · rename_i word key field
    refine ⟨_, _, .hdel word key field ?_⟩
    cases hfields : F.hashes key with
    | none => simp [FlatStore.hget, hfields] at hd
    | some fields => simpa [FlatStore.hdel, FlatStore.hget, hfields] using hd.2
  · exact ⟨_, _, .lpush _ _ _ _⟩
  · exact ⟨_, _, .rpush _ _ _ _⟩
  · exact ⟨_, _, .del _ _ _ hd.2⟩
  · obtain ⟨-, ⟨sec, hle, hsec⟩, hsome⟩ := hd
    obtain ⟨e, he⟩ := Option.isSome_iff_exists.mp hsome
    refine ⟨_, _, .expire _ _ hsec ?_⟩
    simp [FlatStore.expire, he, hF _ e he, Int.not_lt.mpr hle]
  · exact absurd hd id

end Loader

end KeyValueDb
