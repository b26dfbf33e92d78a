/-
# A request decodes to the tokens it encodes

`serialize_array` writes lengths and the decoder trusts them, so a payload may hold anything:
line terminators, quotes, headers.  The cursor of `parse_resp_array` is carried through the
encoding with the text before it as a parameter; every step finds the first terminator after
a numeral, which no digit can be, and jumps over the payload without looking at it.  What
follows the last element is never read.
-/
import KeyValueDb.Resp

namespace KeyValueDb

open Lib

namespace RespParser

/-! ## 1. The cursor -/

/-- A text without `'\r'` holds no terminator. -/
theorem findCrlfFrom_append (ds rest : Bytes) (h : cr ∉ ds) :
    ∀ i, findCrlfFrom (ds ++ crlf ++ rest) i = some (i + ds.length) := by
  induction ds with
  | nil => intro i; simp [findCrlfFrom]
  | cons d ds ih =>
    intro i
    have hd : d ≠ cr := fun e => h (e ▸ List.mem_cons_self)
    have hds : cr ∉ ds := fun e => h (List.mem_cons_of_mem _ e)
    cases ds with
    | nil => simp [findCrlfFrom, hd]
    | cons e ds =>
      have hrest := ih hds (i + 1)
      simp only [List.cons_append] at hrest ⊢
      rw [findCrlfFrom, if_neg (fun hc => hd hc.1), hrest, List.length_cons]
      congr 1
      simp only [List.length_cons]
      omega

/-- The terminator of a numeral is the first one after its start. -/
theorem findCrlf_append (before ds rest : Bytes) (h : cr ∉ ds) :
    findCrlf (before ++ (ds ++ crlf ++ rest)) before.length =
      some (before.length + ds.length) := by
  rw [findCrlf, List.drop_left, findCrlfFrom_append ds rest h]

theorem substr_append (before mid rest : Bytes) :
    substr (before ++ (mid ++ rest)) before.length mid.length = mid := by
  rw [substr, List.drop_left, List.take_left]

theorem getElem?_length_add (before rest : Bytes) (i : Nat) :
    (before ++ rest)[before.length + i]? = rest[i]? := by
  rw [List.getElem?_append_right (by omega), Nat.add_sub_cancel_left]

theorem toSize_natCast {n : Nat} (h : n < 2 ^ 64) : toSize (n : Int) = n := by
  unfold toSize
  omega

theorem addSize_eq {a b : Nat} (h : a + b < 2 ^ 64) : addSize a b = a + b :=
  Nat.mod_eq_of_lt h

/-! ## 2. One element -/

/-- A turn of the element loop that does not return: the cursor before it, where the payload
starts, the announced length, and the cursor after it. -/
structure Element where
  pos : Nat
  start : Nat
  len : Int
  next : Nat

/-- The turn of the element loop at `pos`; `none` when it returns. -/
def element? (input : Bytes) (pos : Nat) : Option Element :=
  if input[pos]? ≠ some dollar then none
  else (findCrlf input (pos + 1)).bind fun lenCrlf =>
    (stoi (substr input (pos + 1) (lenCrlf - (pos + 1)))).bind fun len =>
      let start := lenCrlf + 2
      let stop := addSize start (toSize len)
      if input.length < stop then none
      else some ⟨pos, start, len,
        if input[stop]? = some cr ∧ input[stop + 1]? = some lf then stop + 2 else stop⟩

def Element.token (input : Bytes) (e : Element) : Bytes := substr input e.start (toSize e.len)

/-- The loop, turn by turn. -/
theorem parseElements_succ (input : Bytes) (n pos : Nat) (tokens : List Bytes) :
    parseElements input (n + 1) pos tokens =
      match element? input pos with
      | none => []
      | some e => parseElements input n e.next (tokens ++ [e.token input]) := by
  rw [parseElements, element?]
  split
  · rfl
  · cases findCrlf input (pos + 1) with
    | none => rfl
    | some lenCrlf =>
      rw [Option.bind_some]
      dsimp only
      cases stoi (substr input (pos + 1) (lenCrlf - (pos + 1))) with
      | none => rfl
      | some len =>
        rw [Option.bind_some]
        dsimp only
        split
        · rfl
        · rfl

/-- The header of a bulk string. -/
def bulkHeader (n : Nat) : Bytes := dollar :: (dec n ++ crlf)

theorem length_bulkHeader (n : Nat) : (bulkHeader n).length = (dec n).length + 3 := by
  simp [bulkHeader]

/-- **A header with a length that fits**: the payload must be there, and the cursor jumps over
it and over a line end behind it. -/
theorem element?_header (before rest : Bytes) {n : Nat} (hn : n < 2 ^ 31)
    (hsize : (before ++ bulkHeader n).length + n < 2 ^ 64) :
    element? (before ++ bulkHeader n ++ rest) before.length =
      if rest.length < n then none
      else some ⟨before.length, (before ++ bulkHeader n).length, n,
        if rest[n]? = some cr ∧ rest[n + 1]? = some lf then (before ++ bulkHeader n).length + n + 2
        else (before ++ bulkHeader n).length + n⟩ := by
  obtain ⟨input, hinput⟩ : ∃ input, input = before ++ bulkHeader n ++ rest := ⟨_, rfl⟩
  obtain ⟨start, hstart⟩ : ∃ start, start = (before ++ bulkHeader n).length := ⟨_, rfl⟩
  have hsplit : input = (before ++ [dollar]) ++ (dec n ++ crlf ++ rest) := by
    rw [hinput]; simp [bulkHeader]
  have hdollar : input[before.length]? = some dollar := by
    rw [hsplit]; simp
  have hfind : findCrlf input (before.length + 1) =
      some (before.length + 1 + (dec n).length) := by
    have h := findCrlf_append (before ++ [dollar]) (dec n) rest (cr_notMem_dec _)
    rwa [← hsplit, List.length_append, List.length_singleton] at h
  have hnum : substr input (before.length + 1) (dec n).length = dec n := by
    have h := substr_append (before ++ [dollar]) (dec n) (crlf ++ rest)
    rwa [← List.append_assoc (dec n), ← hsplit, List.length_append, List.length_singleton] at h
  have hstart' : before.length + 1 + (dec n).length + 2 = start := by
    rw [hstart, List.length_append, length_bulkHeader]
    omega
  have hget : ∀ i, input[start + i]? = rest[i]? := by
    intro i
    rw [hinput, hstart]
    exact getElem?_length_add (before ++ bulkHeader n) rest i
  have hlen : input.length = start + rest.length := by
    rw [hinput, hstart, List.length_append]
  have hadd : addSize start n = start + n := addSize_eq (by omega)
  rw [← hinput, ← hstart, element?, if_neg (by simp [hdollar]), hfind, Option.bind_some,
    Nat.add_sub_cancel_left, hnum, stoi_dec hn, Option.bind_some]
  simp only [hstart', toSize_natCast (show n < 2 ^ 64 by omega), hadd, Nat.add_assoc start n 1,
    hget, hlen, Nat.add_lt_add_iff_left]

theorem token_header (before rest : Bytes) {n : Nat} (hn : n < 2 ^ 31) (next : Nat) :
    (Element.mk before.length (before ++ bulkHeader n).length n next).token
      (before ++ bulkHeader n ++ rest) = rest.take n := by
  rw [Element.token, toSize_natCast (show n < 2 ^ 64 by omega), substr, List.drop_left]

theorem serializeBulkString_eq (str : Bytes) :
    serializeBulkString str = bulkHeader str.length ++ (str ++ crlf) := by
  simp [serializeBulkString, bulkHeader, bytes]

theorem length_serializeBulkString (str : Bytes) :
    (serializeBulkString str).length = (dec str.length).length + str.length + 5 := by
  rw [serializeBulkString_eq, List.length_append, length_bulkHeader]
  simp only [List.length_append, List.length_cons, List.length_nil]
  omega

theorem length_serializeBulkString_le (str : Bytes) :
    (serializeBulkString str).length ≤ 2 * str.length + 6 := by
  have h := dec_length_le str.length
  rw [length_serializeBulkString]
  omega

/-- The cursor at the start of a bulk string takes its payload and stops behind it. -/
theorem parseElements_serializeBulkString (before str rest : Bytes) (n : Nat)
    (tokens : List Bytes) (hlen : str.length < 2 ^ 31)
    (hsize : (before ++ serializeBulkString str).length < 2 ^ 64) :
    parseElements (before ++ serializeBulkString str ++ rest) (n + 1) before.length tokens =
      parseElements (before ++ serializeBulkString str ++ rest) n
        (before ++ serializeBulkString str).length (tokens ++ [str]) := by
  have hinput : before ++ serializeBulkString str ++ rest =
      before ++ bulkHeader str.length ++ (str ++ crlf ++ rest) := by
    simp [serializeBulkString_eq]
  have hlength : (before ++ serializeBulkString str).length =
      (before ++ bulkHeader str.length).length + str.length + 2 := by
    simp only [serializeBulkString_eq, List.length_append, List.length_cons, List.length_nil]
    omega
  have hcr : (str ++ crlf ++ rest)[str.length]? = some cr := by simp
  have hlf : (str ++ crlf ++ rest)[str.length + 1]? = some lf := by simp
  have hshort : ¬ (str ++ crlf ++ rest).length < str.length := by simp
  have htake : (str ++ crlf ++ rest).take str.length = str := by simp
  have helement := element?_header before (str ++ crlf ++ rest) hlen (by omega)
  rw [if_neg hshort, if_pos ⟨hcr, hlf⟩] at helement
  rw [hinput, parseElements_succ, helement]
  dsimp only
  rw [token_header before (str ++ crlf ++ rest) hlen, htake, hlength]

/-! ## 3. The whole array -/

/-- The element loop over consecutive bulk strings. -/
theorem parseElements_flatMap (rest : Bytes) :
    ∀ (items : List Bytes) (before : Bytes) (tokens : List Bytes),
      (∀ str ∈ items, str.length < 2 ^ 31) →
      (before ++ items.flatMap serializeBulkString).length < 2 ^ 64 →
      parseElements (before ++ items.flatMap serializeBulkString ++ rest) items.length
        before.length tokens = tokens ++ items := by
  intro items
  induction items with
  | nil => intro before tokens _ _; simp [parseElements]
  | cons str items ih =>
    intro before tokens hlen hsize
    have hassoc : before ++ (str :: items).flatMap serializeBulkString =
        before ++ serializeBulkString str ++ items.flatMap serializeBulkString := by
      simp [List.append_assoc]
    rw [hassoc] at hsize ⊢
    have hhead : (before ++ serializeBulkString str).length < 2 ^ 64 := by
      rw [List.length_append] at hsize
      omega
    have hone := parseElements_serializeBulkString before str
      (items.flatMap serializeBulkString ++ rest) items.length tokens
      (hlen str List.mem_cons_self) hhead
    rw [← List.append_assoc] at hone
    rw [List.length_cons, hone,
      ih (before ++ serializeBulkString str) (tokens ++ [str])
        (fun s hs => hlen s (List.mem_cons_of_mem _ hs)) hsize]
    simp

/-- Arrays a machine can announce are shorter than the address space. -/
theorem length_flatMap_serializeBulkString_le (items : List Bytes)
    (hlen : ∀ str ∈ items, str.length < 2 ^ 31) :
    (items.flatMap serializeBulkString).length ≤ items.length * (2 ^ 32 + 6) := by
  induction items with
  | nil => simp
  | cons str items ih =>
    have hstr := hlen str List.mem_cons_self
    have hone := length_serializeBulkString_le str
    have hrest := ih fun s hs => hlen s (List.mem_cons_of_mem _ hs)
    rw [List.flatMap_cons, List.length_append, List.length_cons, Nat.succ_mul]
    omega

theorem serializeArray_eq (ts : List Bytes) :
    serializeArray ts = star :: (dec ts.length ++ crlf) ++ ts.flatMap serializeBulkString := by
  simp [serializeArray, bytes]

theorem length_serializeArray_lt {ts : List Bytes} (hcount : ts.length < 2 ^ 31)
    (hlen : ∀ t ∈ ts, t.length < 2 ^ 31) : (serializeArray ts).length < 2 ^ 64 := by
  have hdec := dec_length_le ts.length
  have hflat := length_flatMap_serializeBulkString_le ts hlen
  have hmul : ts.length * (2 ^ 32 + 6) ≤ 2 ^ 31 * (2 ^ 32 + 6) :=
    Nat.mul_le_mul_right _ (Nat.le_of_lt hcount)
  rw [serializeArray_eq, List.length_append, List.length_cons, List.length_append]
  change (dec ts.length).length + 2 + 1 + (ts.flatMap serializeBulkString).length < 2 ^ 64
  omega

theorem parseRespArray_serializeArray (ts : List Bytes) (r : Bytes)
    (hcount : ts.length < 2 ^ 31) (hlen : ∀ t ∈ ts, t.length < 2 ^ 31) :
    parseRespArray (serializeArray ts ++ r) = ts := by
  obtain ⟨input, hinput⟩ : ∃ input, input = serializeArray ts ++ r := ⟨_, rfl⟩
  have hheader : input = [star] ++
      (dec ts.length ++ crlf ++ (ts.flatMap serializeBulkString ++ r)) := by
    rw [hinput, serializeArray_eq]; simp
  have hbody : input = ([star] ++ dec ts.length ++ crlf) ++
      ts.flatMap serializeBulkString ++ r := by
    rw [hheader]; simp
  have hstar : input[0]? = some star := by rw [hheader]; simp
  have hfind : findCrlf input 1 = some (1 + (dec ts.length).length) := by
    rw [hheader]
    exact findCrlf_append [star] _ _ (cr_notMem_dec _)
  have hnum : substr input 1 (dec ts.length).length = dec ts.length := by
    rw [hheader, List.append_assoc (dec ts.length)]
    exact substr_append [star] _ _
  have hcursor : ([star] ++ dec ts.length ++ crlf).length =
      1 + (dec ts.length).length + 2 := by simp; omega
  have htotal : ([star] ++ dec ts.length ++ crlf ++
      ts.flatMap serializeBulkString).length < 2 ^ 64 := by
    have h := length_serializeArray_lt hcount hlen
    rwa [serializeArray_eq] at h
  have hloop := parseElements_flatMap r ts _ [] hlen htotal
  rw [← hbody, hcursor, List.nil_append] at hloop
  rw [← hinput, parseRespArray, if_neg (by simp [hstar]), hfind]
  simp only [Nat.add_sub_cancel_left, hnum, stoi_dec hcount, Int.toNat_natCast]
  exact hloop

/-- **Decoding undoes encoding**, whatever follows the request. -/
theorem parseRequest_serializeArray (ts : List Bytes) (r : Bytes) (hne : ts ≠ [])
    (hcount : ts.length < 2 ^ 31) (hlen : ∀ t ∈ ts, t.length < 2 ^ 31) :
    parseRequest (serializeArray ts ++ r) = ts := by
  have harray := parseRespArray_serializeArray ts r hcount hlen
  obtain ⟨tail, htail⟩ : ∃ tail, serializeArray ts ++ r = star :: tail :=
    ⟨_, by rw [serializeArray_eq]; rfl⟩
  rw [htail] at harray ⊢
  have hdrop : (star :: tail).dropWhile isspace = star :: tail := rfl
  simp only [parseRequest, hdrop]
  simp [harray, hne]

/-- Payloads that look like terminators, headers and quotes, and a tail that is cut short. -/
theorem parseRequest_serializeArray_hostile :
    parseRequest (serializeArray [bytes "SET", bytes "\r\n$3\r\n", bytes "*1\r\n'", []] ++
      bytes "*9\r\n$") = [bytes "SET", bytes "\r\n$3\r\n", bytes "*1\r\n'", []] :=
  parseRequest_serializeArray _ _ (by simp) (by decide) (by decide)

end RespParser

end KeyValueDb
