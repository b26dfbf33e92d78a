/-
# Whether the array reader moves forward

`parse_resp_array` adds an announced length, a signed `int`, to an unsigned cursor.  A length
that is not negative moves the cursor on, and the bound check holds it in the input.  A
negative one makes the sum wrap around: it passes the check, takes the rest of the input as the
token, and puts the cursor before the payload, on its own header or earlier if the length is
larger than the header.  The loop then reads the same header again, up to the announced count.

* `movesForward_iff`: the reader moves forward exactly when no header announces a negative
  length beyond its own, and a token read to the end of the input is the last with bytes in it.
-/
import KeyValueDb.Resp.RoundTrip

namespace KeyValueDb

open Lib

namespace RespParser

/-! ## 1. The turns of the loop -/

/-- The turns of the element loop that do not return: `n` elements to go, from `pos`. -/
def turns (input : Bytes) : Nat → Nat → List Element
  | 0, _ => []
  | n + 1, pos =>
    match element? input pos with
    | none => []
    | some e => e :: turns input n e.next

/-- The announced count, and the cursor behind the header of the array. -/
def arrayHeader? (input : Bytes) : Option (Nat × Nat) :=
  if input[0]? ≠ some star then none
  else (findCrlf input 1).bind fun crlf =>
    (stoi (substr input 1 (crlf - 1))).map fun count => (count.toNat, crlf + 2)

/-- The turns that `parse_resp_array` takes. -/
def arrayTurns (input : Bytes) : List Element :=
  match arrayHeader? input with
  | none => []
  | some (n, pos) => turns input n pos

/-- All announced elements are read. -/
def ReadsAll (input : Bytes) : Prop :=
  (arrayHeader? input).map Prod.fst = some (arrayTurns input).length

instance (input : Bytes) : Decidable (ReadsAll input) := inferInstanceAs (Decidable (_ = _))

theorem parseElements_eq (input : Bytes) (n : Nat) :
    ∀ (pos : Nat) (tokens : List Bytes), parseElements input n pos tokens =
      if (turns input n pos).length = n then
        tokens ++ (turns input n pos).map (Element.token input)
      else [] := by
  induction n with
  | zero => exact fun pos tokens => (List.append_nil tokens).symm
  | succ n ih =>
    intro pos tokens
    rw [parseElements_succ, turns]
    cases element? input pos with
    | none => rfl
    | some e =>
      dsimp only
      rw [ih]
      simp only [List.length_cons, Nat.add_right_cancel_iff, List.map_cons]
      split
      · rw [List.append_assoc, List.singleton_append]
      · rfl

/-- **What is returned**: the tokens of all turns, or nothing. -/
theorem parseRespArray_eq (input : Bytes) :
    parseRespArray input =
      if ReadsAll input then (arrayTurns input).map (Element.token input) else [] := by
  simp only [parseRespArray, ReadsAll, arrayTurns, arrayHeader?]
  split
  · rfl
  · cases findCrlf input 1 with
    | none => rfl
    | some crlf =>
      rw [Option.bind_some]
      dsimp only
      cases stoi (substr input 1 (crlf - 1)) with
      | none => rfl
      | some count =>
        rw [Option.map_some, Option.map_some]
        dsimp only
        rw [parseElements_eq, List.nil_append]
        simp only [Option.some.injEq, eq_comm]

/-! ## 2. One turn -/

theorem findCrlfFrom_bounds {xs : Bytes} :
    ∀ {i j : Nat}, findCrlfFrom xs i = some j → i ≤ j ∧ j + 2 ≤ i + xs.length := by
  induction xs with
  | nil => intro i j h; cases h
  | cons c xs ih =>
    intro i j h
    cases xs with
    | nil => cases h
    | cons d xs =>
      rw [findCrlfFrom] at h
      simp only [List.length_cons] at ih ⊢
      split at h
      · obtain rfl := Option.some.inj h
        omega
      · have hrest := ih h
        omega

theorem findCrlf_bounds {input : Bytes} {pos j : Nat} (h : findCrlf input pos = some j) :
    pos ≤ j ∧ j + 2 ≤ input.length := by
  obtain ⟨hle, hlt⟩ := findCrlfFrom_bounds h
  rw [List.length_drop] at hlt
  omega

theorem stoi_range {str : Bytes} {n : Int} (h : stoi str = some n) : -2 ^ 31 ≤ n ∧ n < 2 ^ 31 := by
  obtain ⟨⟨neg, m⟩, -, hm⟩ := Option.bind_eq_some_iff.mp h
  dsimp only at hm
  split at hm
  · rename_i hrange
    obtain rfl := Option.some.inj hm
    exact hrange
  · cases hm

namespace Element

/-- The length of the header `$<len>\r\n`. -/
def header (e : Element) : Nat := e.start - e.pos

/-- The end of the payload, as the bound check computes it. -/
def stop (e : Element) : Nat := addSize e.start (toSize e.len)

/-- What a turn that does not return has read and checked. -/
structure Read (input : Bytes) (e : Element) : Prop where
  dollar : input[e.pos]? = some dollar
  header : e.pos < e.start
  inside : e.start ≤ input.length
  range : -2 ^ 31 ≤ e.len ∧ e.len < 2 ^ 31
  fits : e.stop ≤ input.length
  next : e.next = if input[e.stop]? = some cr ∧ input[e.stop + 1]? = some lf then e.stop + 2
    else e.stop

theorem read_of_element? {input : Bytes} {pos : Nat} {e : Element}
    (h : element? input pos = some e) : e.pos = pos ∧ e.Read input := by
  unfold element? at h
  split at h
  · cases h
  · rename_i hdollar
    obtain ⟨lenCrlf, hfind, h⟩ := Option.bind_eq_some_iff.mp h
    obtain ⟨len, hlen, h⟩ := Option.bind_eq_some_iff.mp h
    dsimp only at h
    split at h
    · cases h
    · rename_i hfits
      obtain rfl := Option.some.inj h
      obtain ⟨hle, hinside⟩ := findCrlf_bounds hfind
      refine ⟨rfl, ⟨not_not.mp hdollar, ?_, hinside, stoi_range hlen, not_lt.mp hfits, rfl⟩⟩
      dsimp only
      omega

variable {input : Bytes} {e : Element}

theorem start_add_length_token_le (h : e.start ≤ input.length) :
    e.start + (e.token input).length ≤ input.length := by
  rw [token, substr, List.length_take, List.length_drop]
  omega

namespace Read

/-- The line end behind the payload is part of the input. -/
theorem next_bounds (h : e.Read input) : e.stop ≤ e.next ∧ e.next ≤ input.length := by
  have hfits := h.fits
  rw [h.next]
  split
  · rename_i hcrlf
    obtain ⟨hlt, -⟩ := List.getElem?_eq_some_iff.mp hcrlf.2
    omega
  · omega

/-- **A length that is not negative** is the length of the token, and the cursor goes behind
it. -/
theorem stop_of_nonneg (h : e.Read input) (hsize : input.length < 2 ^ 63) (hlen : 0 ≤ e.len) :
    e.start + (e.token input).length = e.stop := by
  obtain ⟨-, hlt⟩ := h.range
  have hinside := h.inside
  have hfits := h.fits
  have hto : toSize e.len = e.len.toNat := by
    unfold toSize
    rw [Int.emod_eq_of_lt hlen (by omega)]
  have hstop : e.stop = e.start + e.len.toNat := by
    rw [stop, hto]
    exact addSize_eq (by omega)
  rw [token, substr, List.length_take, List.length_drop, hto]
  omega

/-- **A negative length** passes the check if it leads back into the input, and the token is
the rest of the input. -/
theorem stop_of_neg (h : e.Read input) (hsize : input.length < 2 ^ 63) (hlen : e.len < 0) :
    e.stop + e.len.natAbs = e.start ∧
      e.start + (e.token input).length = input.length := by
  obtain ⟨hge, -⟩ := h.range
  have hinside := h.inside
  have hfits := h.fits
  have hto : toSize e.len = 2 ^ 64 - e.len.natAbs := by
    unfold toSize
    omega
  constructor
  · rw [stop, addSize, hto] at hfits ⊢
    omega
  · rw [token, substr, List.length_take, List.length_drop, hto]
    omega

/-- The cursor moves on unless the length leads back over the whole header. -/
theorem pos_lt_next_iff (h : e.Read input) (hsize : input.length < 2 ^ 63) :
    e.pos < e.next ↔ (e.len < 0 → e.len.natAbs < e.header) := by
  have hheader := h.header
  unfold Element.header
  rcases lt_or_ge e.len 0 with hlen | hlen
  · obtain ⟨hstop, -⟩ := h.stop_of_neg hsize hlen
    have hnext := h.next
    constructor
    · intro hlt _
      by_contra hlong
      split at hnext
      · rename_i hcrlf
        -- the line end before the cursor would have to cover the `'$'`
        have hdollar := h.dollar
        rcases (show e.stop = e.pos ∨ e.stop + 1 = e.pos by omega) with hpos | hpos
        · rw [← hpos, hcrlf.1] at hdollar
          exact absurd (Option.some.inj hdollar) (by decide)
        · rw [← hpos, hcrlf.2] at hdollar
          exact absurd (Option.some.inj hdollar) (by decide)
      · omega
    · intro hshort
      have hle := h.next_bounds.1
      have hlong := hshort hlen
      omega
  · have hstop := h.stop_of_nonneg hsize hlen
    have hle := h.next_bounds.1
    constructor
    · intro _ hneg
      omega
    · intro _
      omega

end Read

end Element

/-! ## 3. The whole array -/

/-- The reader moves forward: every turn takes the cursor on and leaves it in the input, and the
tokens are parts of the input one behind the other, no more and in all no longer than it. -/
structure MovesForward (input : Bytes) : Prop where
  forward : ∀ e ∈ arrayTurns input, e.pos < e.next ∧ e.next ≤ input.length
  inOrder : ReadsAll input →
    (arrayTurns input).Pairwise fun e e' => e.start + (e.token input).length ≤ e'.start
  count : (parseRespArray input).length ≤ input.length
  total : ((parseRespArray input).map List.length).sum ≤ input.length

variable {input : Bytes}

theorem read_of_mem_turns {n : Nat} :
    ∀ {pos : Nat} {e : Element}, e ∈ turns input n pos → e.Read input := by
  induction n with
  | zero => intro pos e he; cases he
  | succ n ih =>
    intro pos e he
    rw [turns] at he
    cases hturn : element? input pos with
    | none => rw [hturn] at he; cases he
    | some e' =>
      rw [hturn] at he
      rcases List.mem_cons.mp he with rfl | he
      · exact (Element.read_of_element? hturn).2
      · exact ih he

theorem read_of_mem {e : Element} (he : e ∈ arrayTurns input) : e.Read input := by
  unfold arrayTurns at he
  split at he
  · cases he
  · exact read_of_mem_turns he

/-- **From one turn to all**: if every turn moves the cursor on, each begins where the one before
stopped or later, and there are no more of them than bytes are left. -/
theorem turns_forward {n : Nat} : ∀ {pos : Nat}, pos ≤ input.length →
    (∀ e ∈ turns input n pos, e.pos < e.next) →
    (∀ e ∈ turns input n pos, pos ≤ e.pos) ∧
      (turns input n pos).Pairwise (fun e e' => e.next ≤ e'.pos) ∧
      (turns input n pos).length + pos ≤ input.length := by
  induction n with
  | zero => exact fun hpos _ => ⟨fun e he => (by cases he), List.Pairwise.nil, by simpa [turns]⟩
  | succ n ih =>
    intro pos hpos hforward
    rw [turns] at hforward ⊢
    cases hturn : element? input pos with
    | none => exact ⟨fun e he => (by cases he), List.Pairwise.nil, by simpa using hpos⟩
    | some e =>
      rw [hturn] at hforward
      dsimp only at hforward ⊢
      obtain ⟨rfl, hread⟩ := Element.read_of_element? hturn
      have hhere : e.pos < e.next := hforward e List.mem_cons_self
      obtain ⟨hle, hpairs, hcount⟩ := ih hread.next_bounds.2
        fun e' he' => hforward e' (List.mem_cons_of_mem e he')
      refine ⟨?_, List.pairwise_cons.mpr ⟨hle, hpairs⟩, ?_⟩
      · intro e' he'
        rcases List.mem_cons.mp he' with rfl | he'
        · exact le_rfl
        · exact (Nat.le_of_lt hhere).trans (hle e' he')
      · rw [List.length_cons]
        omega

theorem arrayHeader?_pos {n pos : Nat} (h : arrayHeader? input = some (n, pos)) :
    pos ≤ input.length := by
  unfold arrayHeader? at h
  split at h
  · cases h
  · obtain ⟨crlf, hfind, h⟩ := Option.bind_eq_some_iff.mp h
    obtain ⟨count, -, h⟩ := Option.map_eq_some_iff.mp h
    obtain ⟨-, rfl⟩ := Prod.mk.inj h
    exact (findCrlf_bounds hfind).2

theorem arrayTurns_forward (hforward : ∀ e ∈ arrayTurns input, e.pos < e.next) :
    (arrayTurns input).Pairwise (fun e e' => e.next ≤ e'.pos) ∧
      (arrayTurns input).length ≤ input.length := by
  unfold arrayTurns at hforward ⊢
  split
  · exact ⟨List.Pairwise.nil, Nat.zero_le _⟩
  · rename_i n pos hheader
    rw [hheader] at hforward
    obtain ⟨-, hpairs, hcount⟩ := turns_forward (arrayHeader?_pos hheader) hforward
    exact ⟨hpairs, by omega⟩

/-- Parts of a text one behind the other are together no longer than the text. -/
theorem sum_length_token_le {es : List Element} : ∀ {first : Nat}, first ≤ input.length →
    (∀ e ∈ es, first ≤ e.start ∧ e.start ≤ input.length) →
    es.Pairwise (fun e e' => e.start + (e.token input).length ≤ e'.start) →
    first + ((es.map (Element.token input)).map List.length).sum ≤ input.length := by
  induction es with
  | nil => exact fun hfirst _ _ => hfirst
  | cons e es ih =>
    intro first _ hbounds hpairs
    obtain ⟨hle, hinside⟩ := hbounds e List.mem_cons_self
    rw [List.pairwise_cons] at hpairs
    have hrest := ih (Element.start_add_length_token_le hinside)
      (fun e' he' => ⟨hpairs.1 e' he', (hbounds e' (List.mem_cons_of_mem e he')).2⟩) hpairs.2
    rw [List.map_cons, List.map_cons, List.sum_cons]
    omega

/-- Behind a turn that moves forward, the next payload is behind the token, except that a token
of negative length goes to the end of the input. -/
theorem inOrder_iff {e e' : Element} (hsize : input.length < 2 ^ 63) (he : e.Read input)
    (he' : e'.Read input) (hnext : e.next ≤ e'.pos) :
    e.start + (e.token input).length ≤ e'.start ↔ (e.len < 0 → e'.start = input.length) := by
  have hinside := he'.inside
  have hheader := he'.header
  rcases lt_or_ge e.len 0 with hlen | hlen
  · obtain ⟨-, hrest⟩ := he.stop_of_neg hsize hlen
    constructor
    · intro hle _
      omega
    · intro hend
      rw [hend hlen]
      omega
  · have hstop := he.stop_of_nonneg hsize hlen
    have hle := he.next_bounds.1
    constructor
    · intro _ hneg
      omega
    · intro _
      omega

/-- **The array reader moves forward** exactly when every negative length is smaller than its
header, and in an array that is read to its end only headers at the end of the input follow
it.  A `string_view` is shorter than `2 ^ 63`. -/
theorem movesForward_iff (hsize : input.length < 2 ^ 63) :
    MovesForward input ↔
      (∀ e ∈ arrayTurns input, e.len < 0 → e.len.natAbs < e.header) ∧
        (ReadsAll input →
          (arrayTurns input).Pairwise fun e e' => e.len < 0 → e'.start = input.length) := by
  have hforward_iff : (∀ e ∈ arrayTurns input, e.pos < e.next) ↔
      ∀ e ∈ arrayTurns input, e.len < 0 → e.len.natAbs < e.header :=
    forall₂_congr fun e he => (read_of_mem he).pos_lt_next_iff hsize
  have hinOrder_iff (hforward : ∀ e ∈ arrayTurns input, e.pos < e.next) :
      ((arrayTurns input).Pairwise fun e e' => e.start + (e.token input).length ≤ e'.start) ↔
        (arrayTurns input).Pairwise fun e e' => e.len < 0 → e'.start = input.length := by
    have hpairs := (arrayTurns_forward hforward).1
    constructor
    · intro h
      exact (hpairs.and h).imp_of_mem fun he he' hboth =>
        (inOrder_iff hsize (read_of_mem he) (read_of_mem he') hboth.1).mp hboth.2
    · intro h
      exact (hpairs.and h).imp_of_mem fun he he' hboth =>
        (inOrder_iff hsize (read_of_mem he) (read_of_mem he') hboth.1).mpr hboth.2
  constructor
  · intro h
    have hforward := fun e he => (h.forward e he).1
    exact ⟨hforward_iff.mp hforward, fun hall => (hinOrder_iff hforward).mp (h.inOrder hall)⟩
  · rintro ⟨hshort, hends⟩
    have hforward := hforward_iff.mpr hshort
    have hpairs := fun hall => (hinOrder_iff hforward).mpr (hends hall)
    refine ⟨fun e he => ⟨hforward e he, (read_of_mem he).next_bounds.2⟩, hpairs, ?_, ?_⟩
    · rw [parseRespArray_eq]
      split
      · rw [List.length_map]
        exact (arrayTurns_forward hforward).2
      · exact Nat.zero_le _
    · rw [parseRespArray_eq]
      split
      · rename_i hall
        have htotal := sum_length_token_le (Nat.zero_le _)
          (fun e he => ⟨Nat.zero_le _, (read_of_mem he).inside⟩) (hpairs hall)
        rwa [Nat.zero_add] at htotal
      · exact Nat.zero_le _

/-- A negative length that is shorter than its header. -/
theorem movesForward_iff_rest : MovesForward (bytes "*1\r\n$-3\r\nabc") :=
  (movesForward_iff (by decide)).mpr ⟨by decide, by decide⟩

/-- **Ten bytes, eleven tokens**: the length leads back to its own header, which is read again
until the announced count is reached. -/
theorem not_movesForward_of_negative :
    let input := bytes "*11\r\n$-5\r\n"
    (∀ e ∈ arrayTurns input, e.next = e.pos) ∧ input.length = 10 ∧
      (parseRespArray input).length = 11 ∧ ¬ MovesForward input := by
  intro input
  have hcount : (parseRespArray input).length = 11 := by decide
  refine ⟨by decide, by decide, hcount, fun h => ?_⟩
  have hle := h.count
  rw [hcount] at hle
  exact absurd hle (by decide)

end RespParser

end KeyValueDb
