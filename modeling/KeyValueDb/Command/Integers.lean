/-
# What is accepted as an integer

Lifetimes, amounts, bounds and counters are read by `stoll`, which skips leading white space and
stops at the first byte that is no digit.  `stoll_isSome_iff` spells out what it accepts, and
`onlyIntegers_iff` what that means for a command: a text that is no integer is refused exactly
when `stoll` throws on one of the texts of the command.
-/
import KeyValueDb.Command.Step

namespace KeyValueDb

open Lib Function RespParser

/-! ## 1. Numerals -/

/-- An optional sign and at least one digit. -/
def IsNumeral (str : Bytes) : Prop :=
  (takeSign str).2 ≠ [] ∧ ∀ c ∈ (takeSign str).2, isDigit c = true

instance (str : Bytes) : Decidable (IsNumeral str) := inferInstanceAs (Decidable (_ ∧ _))

/-- The number a numeral denotes. -/
def numeralValue (str : Bytes) : Int := signedValue (takeSign str).1 (ofDec (takeSign str).2)

/-- An optional sign and digits, all of it, that denote an `int64_t`. -/
def IntegerText (str : Bytes) : Prop := IsNumeral str ∧ IsInt64 (numeralValue str)

instance (str : Bytes) : Decidable (IntegerText str) := inferInstanceAs (Decidable (_ ∧ _))

/-- A text that begins with an integer: white space before it is skipped, and what follows the
digits is ignored. -/
def ReadsAsInteger (str : Bytes) : Prop :=
  ∃ blanks numeral rest, str = blanks ++ numeral ++ rest ∧ (∀ c ∈ blanks, isspace c = true) ∧
    IntegerText numeral ∧ ∀ c, rest.head? = some c → isDigit c = false

theorem takeWhile_isDigit_eq_nil {rest : Bytes} :
    rest.takeWhile isDigit = [] ↔ ∀ c, rest.head? = some c → isDigit c = false := by
  cases rest with
  | nil => simp
  | cons c rest => simp [List.takeWhile_cons, Bool.not_eq_true]

theorem takeSign_append {str : Bytes} (hne : str ≠ []) (rest : Bytes) :
    takeSign (str ++ rest) = ((takeSign str).1, (takeSign str).2 ++ rest) := by
  cases str with
  | nil => exact absurd rfl hne
  | cons c str =>
    simp only [List.cons_append, takeSign]
    split
    · rfl
    · split <;> rfl

theorem IsNumeral.ne_nil {str : Bytes} (h : IsNumeral str) : str ≠ [] := by
  rintro rfl
  exact h.1 rfl

/-- The sign is at most one byte in front: it is read the same before any text that begins
alike. -/
theorem takeSign_spec (str : Bytes) :
    ∃ sign, str = sign ++ (takeSign str).2 ∧ (∀ c ∈ sign, isspace c = false) ∧
      ∀ body, body.head? = (takeSign str).2.head? →
        takeSign (sign ++ body) = ((takeSign str).1, body) := by
  cases str with
  | nil =>
    refine ⟨[], rfl, by simp, ?_⟩
    intro body hbody
    rw [List.head?_eq_none_iff.mp hbody]
    rfl
  | cons c str =>
    by_cases hminus : c = 45
    · subst hminus
      exact ⟨[45], rfl, List.forall_mem_singleton.mpr rfl, fun _ _ => rfl⟩
    · by_cases hplus : c = 43
      · subst hplus
        exact ⟨[43], rfl, List.forall_mem_singleton.mpr rfl, fun _ _ => rfl⟩
      · have hnone : ∀ rest, takeSign (c :: rest) = (false, c :: rest) := by
          intro rest
          simp only [takeSign, hminus, hplus, if_false]
        refine ⟨[], by rw [hnone]; rfl, by simp, ?_⟩
        intro body hbody
        rw [hnone] at hbody ⊢
        obtain ⟨rest, rfl⟩ := List.head?_eq_some_iff.mp hbody
        exact hnone rest

/-- A numeral begins with no white space. -/
theorem IsNumeral.dropWhile {str : Bytes} (h : IsNumeral str) (rest : Bytes) :
    (str ++ rest).dropWhile isspace = str ++ rest := by
  obtain ⟨sign, hstr, hsign, -⟩ := takeSign_spec str
  have hall : ∀ c ∈ str, isspace c = false := by
    intro c hc
    rw [hstr] at hc
    rcases List.mem_append.mp hc with hc | hc
    · exact hsign c hc
    · exact isspace_of_isDigit (h.2 c hc)
  cases str with
  | nil => exact absurd rfl h.ne_nil
  | cons c str => simp [hall c List.mem_cons_self]

/-- **What `strtol` reads** of a numeral between white space and a byte that is no digit. -/
theorem scanInt_of_numeral {blanks numeral rest : Bytes} (hblanks : ∀ c ∈ blanks, isspace c = true)
    (h : IsNumeral numeral) (hrest : rest.takeWhile isDigit = []) :
    scanInt (blanks ++ numeral ++ rest) =
      some ((takeSign numeral).1, ofDec (takeSign numeral).2) := by
  have hdrop : (blanks ++ numeral ++ rest).dropWhile isspace = numeral ++ rest := by
    rw [List.append_assoc, List.dropWhile_append_of_pos hblanks, h.dropWhile]
  have hdigits : ((takeSign numeral).2 ++ rest).takeWhile isDigit = (takeSign numeral).2 := by
    rw [List.takeWhile_append_of_pos h.2, hrest, List.append_nil]
  simp only [scanInt, hdrop, takeSign_append h.ne_nil, hdigits, if_neg h.1]

/-- Sign and digits are a numeral. -/
theorem exists_numeral {str : Bytes} (hne : (takeSign str).2.takeWhile isDigit ≠ []) :
    ∃ numeral, IsNumeral numeral ∧
      str = numeral ++ (takeSign str).2.dropWhile isDigit := by
  obtain ⟨sign, hstr, -, hsign⟩ := takeSign_spec str
  have hhead : ((takeSign str).2.takeWhile isDigit).head? = (takeSign str).2.head? := by
    cases hbody : (takeSign str).2 with
    | nil => rfl
    | cons c body =>
      have hc : isDigit c = true := by
        by_contra hc
        exact hne (by rw [hbody, List.takeWhile_cons_of_neg hc])
      rw [List.takeWhile_cons_of_pos hc]
      rfl
  refine ⟨sign ++ (takeSign str).2.takeWhile isDigit, ?_, ?_⟩
  · rw [IsNumeral, hsign _ hhead]
    exact ⟨hne, fun c => List.mem_takeWhile_imp⟩
  · rw [List.append_assoc, List.takeWhile_append_dropWhile]
    exact hstr

/-- Past the digits, `stoll` only checks the range. -/
theorem stoll_of_scanInt {str : Bytes} {neg : Bool} {n : Nat} (h : scanInt str = some (neg, n)) :
    (stoll str).isSome ↔ IsInt64 (signedValue neg n) := by
  simp only [stoll, h, Option.bind_some, IsInt64]
  split
  · rename_i hrange
    exact iff_of_true rfl hrange
  · rename_i hrange
    exact iff_of_false Bool.false_ne_true hrange

/-- **What `stoll` accepts.** -/
theorem stoll_isSome_iff (str : Bytes) : (stoll str).isSome ↔ ReadsAsInteger str := by
  constructor
  · intro h
    have hne : (takeSign (str.dropWhile isspace)).2.takeWhile isDigit ≠ [] := by
      intro hnil
      simp [stoll, scanInt, hnil] at h
    obtain ⟨numeral, hnumeral, hstr⟩ := exists_numeral hne
    set rest := (takeSign (str.dropWhile isspace)).2.dropWhile isDigit with hrest
    have hdecomp : str = str.takeWhile isspace ++ numeral ++ rest := by
      rw [List.append_assoc, ← hstr, List.takeWhile_append_dropWhile]
    have hhead : ∀ c, rest.head? = some c → isDigit c = false := by
      intro c hc
      have hnot := List.head?_dropWhile_not isDigit (takeSign (str.dropWhile isspace)).2
      rwa [← hrest, hc] at hnot
    have hblanks : ∀ c ∈ str.takeWhile isspace, isspace c = true :=
      fun c => List.mem_takeWhile_imp
    have hread := scanInt_of_numeral hblanks hnumeral (takeWhile_isDigit_eq_nil.mpr hhead)
    rw [← hdecomp] at hread
    exact ⟨_, numeral, rest, hdecomp, hblanks, ⟨hnumeral, (stoll_of_scanInt hread).mp h⟩, hhead⟩
  · rintro ⟨blanks, numeral, rest, rfl, hblanks, ⟨hnumeral, hrange⟩, hhead⟩
    have hread := scanInt_of_numeral hblanks hnumeral (takeWhile_isDigit_eq_nil.mpr hhead)
    exact (stoll_of_scanInt hread).mpr hrange

theorem stoll_eq_none_iff {str : Bytes} : stoll str = none ↔ ¬ ReadsAsInteger str := by
  rw [← stoll_isSome_iff, Option.not_isSome_iff_eq_none]

/-! ## 2. The texts a command reads as integers -/

namespace Command

/-- What `incr_by` reads: the value of a string that has not expired. -/
def counterText (hash : Bytes → Nat) (now : Time) (key : Bytes) (s : KeyValueStore) :
    List Bytes :=
  match (s.view hash).strings key with
  | none => []
  | some e => if e.expired now then [] else [e.value]

/-- The integer positions of a command of the right form. -/
def integerTexts (hash : Bytes → Nat) (now : Time) (tokens : List Bytes) (s : KeyValueStore) :
    StoreVerb → List Bytes
  | .set =>
    match tokens with
    | _ :: _ :: _ :: ex :: seconds :: _ => if toUpper ex = bytes "EX" then [seconds] else []
    | _ => []
  | .setex =>
    match tokens with
    | [_, _, seconds, _] => [seconds]
    | _ => []
  | .expire =>
    match tokens with
    | [_, _, seconds] => [seconds]
    | _ => []
  | .lrange =>
    match tokens with
    | [_, _, start, stop] => [start, stop]
    | _ => []
  | .incrby =>
    match tokens with
    | [_, key, amount] => amount :: counterText hash now key s
    | _ => []
  | .incr | .decr =>
    match tokens with
    | [_, key] => counterText hash now key s
    | _ => []
  | _ => []

variable {hash : Bytes → Nat} {order : IterOrder} {now : Time} {tokens : List Bytes}
  {s : KeyValueStore} {v : StoreVerb} {key : Bytes} {delta : Int}

/-- `incr_by` on a text that is no number leaves the store as it is. -/
theorem incrBy_of_unread {x : Bytes} (hx : x ∈ counterText hash now key s)
    (hread : stoll x = none) : s.incrBy hash now key delta = ((false, 0), s) := by
  unfold counterText at hx
  split at hx
  · cases hx
  · rename_i e he
    split at hx
    · cases hx
    · rename_i hfresh
      rw [List.mem_singleton] at hx
      subst hx
      rw [s.view_strings] at he
      have hshard : (s.getShard hash key).incrBy now key delta =
          ((false, 0), s.getShard hash key) := by
        unfold StoreShard.incrBy
        simp only [he, hfresh, hread, Bool.false_eq_true, if_false]
      rw [KeyValueStore.incrBy, KeyValueStore.onShard, hshard]
      exact congrArg (Prod.mk _) (congrArg KeyValueStore.mk (update_eq_self _ _))

/-- `incr_by` on a text that is a number succeeds. -/
theorem incrBy_of_read (hread : ∀ x ∈ counterText hash now key s, (stoll x).isSome) :
    (s.incrBy hash now key delta).1.1 = true := by
  have hview := (Prod.ext_iff.mp (s.view_incrBy hash now key delta)).1
  dsimp only at hview
  rw [hview, FlatStore.incrBy]
  unfold counterText at hread
  cases he : (s.view hash).strings key with
  | none => rfl
  | some e =>
    dsimp only
    by_cases hx : e.expired now = true
    · rw [if_pos hx]
    · simp only [he, if_neg hx, List.mem_singleton, forall_eq] at hread
      rw [if_neg hx]
      obtain ⟨n, hn⟩ := Option.isSome_iff_exists.mp hread
      rw [hn]

theorem addToCounter_of_unread {x : Bytes} (hx : x ∈ counterText hash now key s)
    (hread : stoll x = none) : addToCounter hash now tokens s key delta = notAnInteger s := by
  simp only [addToCounter, incrBy_of_unread hx hread, Bool.false_eq_true, if_false]

theorem addToCounter_of_read (hread : ∀ x ∈ counterText hash now key s, (stoll x).isSome) :
    ¬ IsError (addToCounter hash now tokens s key delta).response := by
  rw [addToCounter, if_pos (incrBy_of_read hread)]
  exact not_isError_integer _

/-- **A text that `stoll` refuses** is refused by the command, which changes nothing. -/
theorem run_of_unread (order : IterOrder) {x : Bytes} (hx : x ∈ integerTexts hash now tokens s v)
    (hread : stoll x = none) : run hash order now tokens s v = notAnInteger s := by
  cases v <;> simp only [integerTexts, List.not_mem_nil] at hx
  case set =>
    split at hx
    · rename_i w key value ex seconds options
      split at hx
      · rename_i hex
        rw [List.mem_singleton] at hx
        subst hx
        have hlife : lifetime (ex :: x :: options) = none := by
          simp only [lifetime, hex, if_true, hread, Option.map_none]
        simp only [run, set, hlife]
      · cases hx
    · cases hx
  case setex =>
    split at hx
    · rw [List.mem_singleton] at hx
      subst hx
      simp only [run, setex, hread]
    · cases hx
  case expire =>
    split at hx
    · rw [List.mem_singleton] at hx
      subst hx
      simp only [run, expire, hread]
    · cases hx
  case lrange =>
    split at hx
    · rename_i w key start stop
      rw [List.mem_cons, List.mem_singleton] at hx
      rcases hx with rfl | rfl
      · simp only [run, lrange, hread]
      · simp only [run, lrange, hread]
        split
        · rename_i hnone
          cases hnone
        · rfl
    · cases hx
  case incrby =>
    split at hx
    · rename_i w key amount
      rcases List.mem_cons.mp hx with rfl | hx
      · simp only [run, incrby, hread]
      · simp only [run, incrby]
        split
        · rfl
        · exact addToCounter_of_unread hx hread
    · cases hx
  case incr =>
    split at hx
    · exact addToCounter_of_unread hx hread
    · cases hx
  case decr =>
    split at hx
    · exact addToCounter_of_unread hx hread
    · cases hx

/-- **A command whose texts `stoll` reads** does not answer with an error. -/
theorem run_of_read (order : IterOrder) {x : Bytes} (hx : x ∈ integerTexts hash now tokens s v)
    (hread : ∀ y ∈ integerTexts hash now tokens s v, (stoll y).isSome) :
    ¬ IsError (run hash order now tokens s v).response := by
  cases v <;> simp only [integerTexts, List.not_mem_nil] at hx hread
  case set =>
    split at hx
    · rename_i w key value ex seconds options
      split at hx
      · rename_i hex
        simp only [hex, if_true, List.mem_singleton, forall_eq] at hread
        obtain ⟨sec, hsec⟩ := Option.isSome_iff_exists.mp hread
        have hlife : lifetime (ex :: seconds :: options) = some (some sec) := by
          simp only [lifetime, hex, if_true, hsec, Option.map_some]
        simp only [run, set, hlife]
        exact not_isError_ok
      · cases hx
    · cases hx
  case setex =>
    split at hx
    · simp only [List.mem_singleton, forall_eq] at hread
      obtain ⟨sec, hsec⟩ := Option.isSome_iff_exists.mp hread
      simp only [run, setex, hsec]
      exact not_isError_ok
    · cases hx
  case expire =>
    split at hx
    · simp only [List.mem_singleton, forall_eq] at hread
      obtain ⟨sec, hsec⟩ := Option.isSome_iff_exists.mp hread
      simp only [run, expire, hsec]
      exact not_isError_flag _
    · cases hx
  case lrange =>
    split at hx
    · rename_i w key start stop
      obtain ⟨a, ha⟩ := Option.isSome_iff_exists.mp (hread start (by simp))
      obtain ⟨b, hb⟩ := Option.isSome_iff_exists.mp (hread stop (by simp))
      simp only [run, lrange, ha, hb]
      simp [IsError, serializeArray, bytes]
    · cases hx
  case incrby =>
    split at hx
    · rename_i w key amount
      obtain ⟨n, hn⟩ := Option.isSome_iff_exists.mp (hread amount List.mem_cons_self)
      simp only [run, incrby, hn]
      exact addToCounter_of_read fun y hy => hread y (List.mem_cons_of_mem _ hy)
    · cases hx
  case incr =>
    split at hx
    · exact addToCounter_of_read hread
    · cases hx
  case decr =>
    split at hx
    · exact addToCounter_of_read hread
    · cases hx

end Command

/-! ## 3. Calls of `execute` -/

/-- The refusal of a text that is no integer. -/
def Refused (db : Db) (o : Outcome) : Prop :=
  o.result.response = serializeError (bytes "value is not an integer or out of range") ∧
    o.db.store = db.store ∧ o.db.aof = db.aof

/-- A command with a text in an integer position that is no integer is refused. -/
def OnlyIntegers (ctx : ServerCtx) (env : Env) (rawCommand : Bytes) (db : Db)
    (isAuthenticated : Bool) (tokens : List Bytes) (v : StoreVerb) : Prop :=
  ∀ x ∈ Command.integerTexts ctx.hash env.now tokens db.store v, ¬ IntegerText x →
    Refused db (execute ctx env rawCommand db isAuthenticated)

variable {ctx : ServerCtx} {env : Env} {rawCommand : Bytes} {db : Db} {isAuthenticated : Bool}
  {tokens : List Bytes} {v : StoreVerb}

theorem isError_serializeError (msg : Bytes) : IsError (serializeError msg) := by
  simp [IsError, serializeError, bytes]

/-- **A command is refused** exactly when `stoll` throws on one of its texts. -/
theorem refused_iff (hadmitted : Admitted ctx isAuthenticated)
    (hreq : request? rawCommand = some (.store v, tokens)) {x : Bytes}
    (hx : x ∈ Command.integerTexts ctx.hash env.now tokens db.store v) :
    Refused db (execute ctx env rawCommand db isAuthenticated) ↔
      ∃ y ∈ Command.integerTexts ctx.hash env.now tokens db.store v, ¬ ReadsAsInteger y := by
  cases execute_cases ctx env rawCommand db isAuthenticated with
  | idle _ _ _ hidle => exact (hidle hadmitted _ _ hreq).elim
  | rewrite _ hreq' =>
    rw [hreq] at hreq'
    cases hreq'
  | store _ hreq' hresponse hstore haof _ =>
    rw [hreq, Option.some.injEq, Prod.mk.injEq, Verb.store.injEq] at hreq'
    obtain ⟨rfl, rfl⟩ := hreq'
    constructor
    · rintro ⟨herror, -⟩
      by_contra hall
      push Not at hall
      refine Command.run_of_read env.order hx
        (fun y hy => (stoll_isSome_iff y).mpr (hall y hy)) ?_
      rw [← hresponse, herror]
      exact isError_serializeError _
    · rintro ⟨y, hy, hread⟩
      have hrun := Command.run_of_unread env.order hy (stoll_eq_none_iff.mpr hread)
      rw [hrun] at hresponse hstore haof
      exact ⟨hresponse, hstore, haof⟩

/-- **Only integers are accepted as integers** in a command exactly when each of its texts is
one, or one of them does not even begin with one. -/
theorem onlyIntegers_iff (ctx : ServerCtx) (env : Env) (rawCommand : Bytes) (db : Db)
    (isAuthenticated : Bool) (hadmitted : Admitted ctx isAuthenticated) (tokens : List Bytes)
    (v : StoreVerb) (hreq : request? rawCommand = some (.store v, tokens)) :
    OnlyIntegers ctx env rawCommand db isAuthenticated tokens v ↔
      (∀ x ∈ Command.integerTexts ctx.hash env.now tokens db.store v, IntegerText x) ∨
        ∃ x ∈ Command.integerTexts ctx.hash env.now tokens db.store v, ¬ ReadsAsInteger x := by
  constructor
  · intro h
    by_contra hnot
    push Not at hnot
    obtain ⟨⟨x, hx, hno⟩, hall⟩ := hnot
    obtain ⟨y, hy, hread⟩ := (refused_iff hadmitted hreq hx).mp (h x hx hno)
    exact hread (hall y hy)
  · rintro (hall | hread) x hx hno
    · exact absurd (hall x hx) hno
    · exact (refused_iff hadmitted hreq hx).mpr hread

theorem onlyIntegers_iff_setex :
    OnlyIntegers ⟨fun _ => 0, [], 8080, 4⟩ ⟨0, .plain, .success⟩ (bytes "SETEX k x v\r\n")
      ⟨.empty, none, ⟨0, 0, 0, 0, 0, 0, 0, 0⟩⟩ true
      [bytes "SETEX", bytes "k", bytes "x", bytes "v"] .setex := by
  refine (onlyIntegers_iff _ _ _ _ true (Or.inl rfl) _ .setex (by decide)).mpr (Or.inr ?_)
  exact ⟨bytes "x", by decide, stoll_eq_none_iff.mp (by decide)⟩

/-- **`INCR` of three apples** is answered with 4, and they are gone. -/
theorem not_onlyIntegers_of_rest :
    let ctx : ServerCtx := ⟨fun _ => 0, [], 8080, 4⟩
    let db : Db := ⟨KeyValueStore.empty.set ctx.hash 0 (bytes "k") (bytes "3 apples") none, none,
      ⟨0, 0, 0, 0, 0, 0, 0, 0⟩⟩
    let o := execute ctx ⟨1, .plain, .success⟩ (bytes "INCR k\r\n") db true
    o.result.response = serializeInteger 4 ∧
      (o.db.store.get ctx.hash 1 (bytes "k")).1 = some (bytes "4") ∧
      ¬ OnlyIntegers ctx ⟨1, .plain, .success⟩ (bytes "INCR k\r\n") db true
        [bytes "INCR", bytes "k"] .incr := by
  intro ctx db o
  have hresponse : o.result.response = serializeInteger 4 := by decide
  refine ⟨hresponse, by decide, ?_⟩
  intro h
  obtain ⟨hrefused, -⟩ := h (bytes "3 apples") (by decide) (by decide)
  rw [show execute ctx ⟨1, .plain, .success⟩ (bytes "INCR k\r\n") db true = o from rfl,
    hresponse] at hrefused
  exact absurd hrefused (by decide)

end KeyValueDb
