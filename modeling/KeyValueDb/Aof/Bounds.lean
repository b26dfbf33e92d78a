/-
# What the loader does with any file

`load_into_store` checks what it reads: a count or a length that is no number or too large
throws, a record that breaks off is dropped, and each comparison but the first asks for the
number of tokens it takes.  Every turn of the loop takes a line off the file, so it ends
(`loopEnds`).  The first comparison takes `tokens[0]` unasked: it is there unless the record
announced no tokens (`loadSurvives_iff`).
-/
import KeyValueDb.Aof.Loader

namespace KeyValueDb

open Lib

/-! ## 1. The tokens that the comparisons take -/

/-- For each comparison, the number of tokens it asks for and the indices of those it takes then,
of a record of `size` tokens. -/
def comparison (size : Nat) : StoreVerb → Nat × List Nat
  | .set | .expire | .hdel => (3, [1, 2])
  | .del => (2, List.range' 1 (size - 1))
  | .hset => (4, [1, 2, 3])
  | .lpush | .rpush => (3, 1 :: List.range' 2 (size - 2))
  | _ => (0, [])

/-- The indices of the tokens that `load_into_store` takes from a record: the first to compare
it, and those of the comparison it meets. -/
def accesses (tokens : List Bytes) : List Nat :=
  0 :: match tokens.head?.bind Verb.ofWord with
    | some (.store v) =>
      if (comparison tokens.length v).1 ≤ tokens.length then (comparison tokens.length v).2 else []
    | _ => []

theorem comparison_lt {size : Nat} {v : StoreVerb} (h : (comparison size v).1 ≤ size) :
    ∀ i ∈ (comparison size v).2, i < size := by
  intro i hi
  cases v <;>
    simp only [comparison, List.mem_cons, List.mem_range'_1, List.not_mem_nil, or_false] at h hi <;>
    omega

/-- **All of them are there**, if there is a token. -/
theorem accesses_lt {tokens : List Bytes} (hne : tokens ≠ []) :
    ∀ i ∈ accesses tokens, i < tokens.length := by
  have hpos := List.length_pos_iff.mpr hne
  intro i hi
  rcases List.mem_cons.mp hi with rfl | hi
  · exact hpos
  · split at hi
    · split at hi
      · rename_i hsize
        exact comparison_lt hsize i hi
      · cases hi
    · cases hi

/-- Records of one length with the same tokens at these indices. -/
def Agree (tokens tokens' : List Bytes) : Prop :=
  tokens'.length = tokens.length ∧ ∀ i ∈ accesses tokens, tokens'[i]? = tokens[i]?

theorem eq_of_getElem?_eq {xs ys : List Bytes} (hlength : ys.length = xs.length)
    (h : ∀ i < xs.length, ys[i]? = xs[i]?) : ys = xs := by
  refine List.ext_getElem? fun i => ?_
  rcases Nat.lt_or_ge i xs.length with hi | hi
  · exact h i hi
  · rw [List.getElem?_eq_none hi, List.getElem?_eq_none (hlength ▸ hi)]

/-- **`dispatch` takes no others**: the rest of a record makes no difference. -/
theorem dispatch_congr {tokens tokens' : List Bytes} (h : Agree tokens tokens')
    (hash : Bytes → Nat) (now : Time) (store : KeyValueStore) :
    dispatch hash now tokens' store = dispatch hash now tokens store := by
  obtain ⟨hlength, hagree⟩ := h
  match tokens, tokens', hlength with
  | [], [], _ => rfl
  | cmd :: args, cmd' :: args', hlength =>
    obtain rfl : cmd' = cmd := Option.some.inj (hagree 0 List.mem_cons_self)
    cases hv : Verb.ofWord cmd' with
    | none => simp only [dispatch, hv]
    | some v =>
      cases v with
      | auth | ping | bgrewriteaof | info | quit => simp only [dispatch, hv]
      | store v =>
        have htaken : (comparison (cmd' :: args).length v).1 ≤ (cmd' :: args).length →
            ∀ i ∈ (comparison (cmd' :: args).length v).2,
              (cmd' :: args')[i]? = (cmd' :: args)[i]? := by
          intro hsize i hi
          refine hagree i (List.mem_cons_of_mem 0 ?_)
          simp only [List.head?_cons, Option.bind_some, hv, if_pos hsize]
          exact hi
        -- the comparisons that walk the record take all of it
        have hwhole : (comparison (cmd' :: args).length v).1 ≤ (cmd' :: args).length →
            (∀ i < args.length, i + 1 ∈ (comparison (cmd' :: args).length v).2) →
              args' = args := by
          intro hsize hall
          refine eq_of_getElem?_eq (Nat.add_right_cancel hlength) fun i hi => ?_
          exact htaken hsize (i + 1) (hall i hi)
        cases v <;> simp only [dispatch, hv]
        case set | hdel | expire =>
          match args, args', hlength with
          | [], [], _ => rfl
          | [_], [_], _ => rfl
          | key :: value :: rest, key' :: value' :: rest', _ =>
            have hsize : 3 ≤ (cmd' :: key :: value :: rest).length := by simp
            obtain rfl : key' = key := Option.some.inj (htaken hsize 1 (by simp [comparison]))
            obtain rfl : value' = value := Option.some.inj (htaken hsize 2 (by simp [comparison]))
            rfl
        case hset =>
          match args, args', hlength with
          | [], [], _ => rfl
          | [_], [_], _ => rfl
          | [_, _], [_, _], _ => rfl
          | key :: field :: value :: rest, key' :: field' :: value' :: rest', _ =>
            have hsize : 4 ≤ (cmd' :: key :: field :: value :: rest).length := by simp
            obtain rfl : key' = key := Option.some.inj (htaken hsize 1 (by simp [comparison]))
            obtain rfl : field' = field := Option.some.inj (htaken hsize 2 (by simp [comparison]))
            obtain rfl : value' = value := Option.some.inj (htaken hsize 3 (by simp [comparison]))
            rfl
        case del =>
          match args, args', hlength with
          | [], [], _ => rfl
          | key :: keys, key' :: keys', _ =>
            rw [hwhole (by simp [comparison]) fun i hi => by
              simp only [comparison, List.mem_range'_1, List.length_cons] at hi ⊢
              omega]
        case lpush | rpush =>
          match args, args', hlength with
          | [], [], _ => rfl
          | [_], [_], _ => rfl
          | key :: item :: items, key' :: item' :: items', _ =>
            rw [hwhole (by simp [comparison]) fun i hi => by
              simp only [comparison, List.mem_cons, List.mem_range'_1, List.length_cons] at hi ⊢
              omega]

/-! ## 2. The records and the lines of the loop -/

/-- The records that reach the comparisons.  The loop stops where one has no tokens. -/
def reached (lim : Limits) : Nat → IStream → List (List Bytes)
  | 0, _ => []
  | fuel + 1, st =>
    match st.getline with
    | (none, _) => []
    | (some line, st) =>
      match readRecord lim line st with
      | (none, st) => reached lim fuel st
      | (some [], _) => [[]]
      | (some tokens, st) => tokens :: reached lim fuel st

/-- The lines that the loop reads itself, those of tokens left out. -/
def headerLines (lim : Limits) : Nat → IStream → List Bytes
  | 0, _ => []
  | fuel + 1, st =>
    match st.getline with
    | (none, _) => []
    | (some line, st) => line :: headerLines lim fuel (readRecord lim line st).2

/-- The loop comes to its end, in as many turns as it takes. -/
inductive LoopEnds (lim : Limits) : IStream → Prop
  | eof {st : IStream} (h : st.getline.1 = none) : LoopEnds lim st
  | turn {st st' : IStream} {line : Bytes} (h : st.getline = (some line, st'))
      (hrest : LoopEnds lim (readRecord lim line st').2) : LoopEnds lim st

/-- The line announces a record of no tokens. -/
def AnnouncesNone (line : Bytes) : Prop :=
  (popCr line).head? = some star ∧ stoul (popCr line).tail = some 0

/-- **The loop ends**, whatever it reads. -/
theorem loopEnds (lim : Limits) (st : IStream) : LoopEnds lim st := by
  induction hn : st.rest.length using Nat.strongRecOn generalizing st with
  | ind n ih =>
    rcases hline : st.getline with ⟨_ | line, st'⟩
    · exact .eof (by rw [hline])
    · have hlt := IStream.getline_length_lt hline
      have hle := (readRecord_suffix lim line st').length_le
      exact .turn hline (ih _ (by omega) _ rfl)

/-- **No tokens reach the comparisons** exactly from a line that announces none. -/
theorem readRecord_eq_nil_iff (lim : Limits) (line : Bytes) (st : IStream) :
    (readRecord lim line st).1 = some [] ↔ AnnouncesNone line := by
  unfold readRecord AnnouncesNone
  split
  · rename_i hstar
    exact iff_of_false (by simp) fun h => hstar h.1
  · rename_i hstar
    rw [not_not] at hstar
    rw [and_iff_right hstar]
    cases stoul (popCr line).tail with
    | none => simp
    | some count =>
      dsimp only
      rw [Option.some.injEq]
      split
      · rename_i hlarge
        exact iff_of_false (by simp) (by omega)
      · constructor
        · intro h
          have hcount := (Option.filter_eq_some_iff.mp h).2
          exact (beq_iff_eq.mp hcount).symm
        · rintro rfl
          rfl

/-- The tokens taken of a record are there exactly when it has any. -/
theorem accesses_lt_iff {tokens : List Bytes} :
    (∀ i ∈ accesses tokens, i < tokens.length) ↔ tokens ≠ [] := by
  refine ⟨?_, accesses_lt⟩
  rintro h rfl
  exact absurd (h 0 List.mem_cons_self) (Nat.lt_irrefl 0)

/-- **From one turn to all**: every record that reaches the comparisons has a token exactly when
no line announces none. -/
theorem reached_ne_nil_iff (lim : Limits) (fuel : Nat) (st : IStream) :
    (∀ tokens ∈ reached lim fuel st, tokens ≠ []) ↔
      ∀ line ∈ headerLines lim fuel st, ¬ AnnouncesNone line := by
  induction fuel generalizing st with
  | zero => exact iff_of_true (fun _ h => by cases h) fun _ h => by cases h
  | succ fuel ih =>
    rw [reached, headerLines]
    rcases hline : st.getline with ⟨_ | line, st'⟩
    · exact iff_of_true (fun _ h => by cases h) fun _ h => by cases h
    · dsimp only
      rw [List.forall_mem_cons]
      have hnil := readRecord_eq_nil_iff lim line st'
      rcases hrecord : readRecord lim line st' with ⟨_ | _ | ⟨t, ts⟩, st''⟩
      · rw [hrecord] at hnil
        rw [and_iff_right (hnil.not.mp (by simp))]
        exact ih st''
      · rw [hrecord] at hnil
        exact iff_of_false (fun h => h [] List.mem_cons_self rfl) fun h => h.1 (hnil.mp rfl)
      · rw [hrecord] at hnil
        dsimp only
        rw [and_iff_right (hnil.not.mp (by simp)), List.forall_mem_cons,
          and_iff_right (List.cons_ne_nil t ts)]
        exact ih st''

/-! ## 3. The whole file -/

/-- Loading the file comes to an end, and every token it takes is there. -/
structure LoadSurvives (lim : Limits) (file : Bytes) : Prop where
  ends : LoopEnds lim ⟨file, true⟩
  inBounds : ∀ fuel, ∀ tokens ∈ reached lim fuel ⟨file, true⟩, ∀ i ∈ accesses tokens,
    i < tokens.length

/-- **Loading survives a file** exactly when no line that it reads as the start of a record
announces a record of no tokens. -/
theorem loadSurvives_iff (lim : Limits) (file : Bytes) :
    LoadSurvives lim file ↔
      ∀ fuel, ∀ line ∈ headerLines lim fuel ⟨file, true⟩, ¬ AnnouncesNone line := by
  have hreached := fun fuel => reached_ne_nil_iff lim fuel ⟨file, true⟩
  simp only [← hreached, ← accesses_lt_iff]
  exact ⟨LoadSurvives.inBounds, fun h => ⟨loopEnds lim _, h⟩⟩

/-- The records it dispatches have no defined value exactly when one of them has no tokens. -/
theorem readLog_eq_none_iff (lim : Limits) (fuel : Nat) (st : IStream) :
    readLog lim fuel st = none ↔ [] ∈ reached lim fuel st := by
  induction fuel generalizing st with
  | zero => exact iff_of_false (by simp [readLog]) List.not_mem_nil
  | succ fuel ih =>
    rw [readLog, reached]
    rcases st.getline with ⟨_ | line, st'⟩
    · exact iff_of_false (by simp) List.not_mem_nil
    · dsimp only
      rcases readRecord lim line st' with ⟨_ | _ | ⟨t, ts⟩, st''⟩
      · exact ih st''
      · exact iff_of_true rfl List.mem_cons_self
      · dsimp only
        rw [Option.map_eq_none_iff, ih st'', List.mem_cons,
          or_iff_right (List.cons_ne_nil t ts).symm]

/-- More fuel reaches more records. -/
theorem reached_succ (lim : Limits) (fuel : Nat) (st : IStream) :
    reached lim fuel st ⊆ reached lim (fuel + 1) st := by
  induction fuel generalizing st with
  | zero => exact List.nil_subset _
  | succ fuel ih =>
    rw [reached, reached]
    rcases st.getline with ⟨_ | line, st'⟩
    · exact List.Subset.refl _
    · dsimp only
      rcases readRecord lim line st' with ⟨_ | _ | ⟨t, ts⟩, st''⟩
      · exact ih st''
      · exact List.Subset.refl _
      · exact List.cons_subset_cons _ (ih st'')

/-- **`load_into_store` has a value** exactly when loading survives. -/
theorem loadIntoStore_isSome_iff (lim : Limits) (hash : Bytes → Nat) (clock : Nat → Time)
    (aof : AofManager) (store : KeyValueStore) {file : Bytes} (henabled : aof.enabled = true)
    (hlog : aof.disk.log = some file) :
    (aof.loadIntoStore lim hash clock store).isSome ↔ LoadSurvives lim file := by
  have hnone : ∀ fuel, [] ∉ reached lim fuel ⟨file, true⟩ ↔
      ∀ tokens ∈ reached lim fuel ⟨file, true⟩, ∀ i ∈ accesses tokens, i < tokens.length := by
    intro fuel
    simp only [accesses_lt_iff]
    exact ⟨fun h tokens hmem hnil => h (hnil ▸ hmem), fun h hmem => h [] hmem rfl⟩
  have hload : (aof.loadIntoStore lim hash clock store).isSome ↔
      [] ∉ reached lim (file.length + 1) ⟨file, true⟩ := by
    rw [AofManager.loadIntoStore, if_neg (by simp [henabled]), hlog]
    dsimp only
    rw [loadLoop_eq, Option.isSome_map, ← readLog_eq_none_iff, Option.isSome_iff_ne_none]
  rw [hload]
  constructor
  · intro h
    refine ⟨loopEnds lim _, fun fuel => (hnone fuel).mp fun hmem => h ?_⟩
    -- a record that is reached at all is reached with fuel for every line
    have hmore : ∀ more, [] ∈ reached lim (fuel + more) ⟨file, true⟩ := by
      intro more
      induction more with
      | zero => exact hmem
      | succ more ih => exact reached_succ lim (fuel + more) _ ih
    have hfuel : ∀ more, readLog lim (file.length + 1 + more) ⟨file, true⟩ =
        readLog lim (file.length + 1) ⟨file, true⟩ := fun more =>
      readLog_enough lim (show file.length < file.length + 1 + more by omega)
    rw [← readLog_eq_none_iff, ← hfuel fuel, Nat.add_comm, readLog_eq_none_iff]
    exact hmore _
  · exact fun h => (hnone _).mpr (h.inBounds _)

/-- **A record of no tokens**: the loader takes the first of them. -/
theorem not_loadSurvives_of_none :
    ¬ LoadSurvives ⟨8, 8, by decide, by decide⟩ (bytes "*0\r\n") := by
  intro h
  have hmem : [] ∈ reached ⟨8, 8, by decide, by decide⟩ 1 ⟨bytes "*0\r\n", true⟩ := by decide
  exact absurd (h.inBounds 1 [] hmem 0 List.mem_cons_self) (Nat.lt_irrefl 0)

end KeyValueDb
