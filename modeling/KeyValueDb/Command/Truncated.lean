/-
# Requests that are cut short

A request may arrive with its end missing.  A cut anywhere before the payload of the last
element is complete makes `parse_resp_array` return nothing (`parseRespArray_cut`), and the
request is read as plain text.  That text begins with `'*'`, and so does its first token, which
is the name of no command: nothing is touched (`truncated_request`).
-/
import KeyValueDb.Command.Run
import KeyValueDb.Resp.Quoted
import KeyValueDb.Resp.RoundTrip

namespace KeyValueDb

open Lib

namespace RespParser

/-! ## 1. Cuts -/

/-- A cut of two blocks is one of the first, or goes through the second. -/
theorem cut_append {p a b : Bytes} (h : p <+: a ++ b) :
    p <+: a ∧ p ≠ a ∨ ∃ q, q <+: b ∧ p = a ++ q := by
  rcases List.prefix_or_prefix_of_prefix h (List.prefix_append a b) with hshort | ⟨q, rfl⟩
  · by_cases hp : p = a
    · exact Or.inr ⟨[], List.nil_prefix, by rw [hp, List.append_nil]⟩
    · exact Or.inl ⟨hshort, hp⟩
  · exact Or.inr ⟨q, (List.prefix_append_right_inj a).mp h, rfl⟩

/-- A cut that takes something off takes the last byte off. -/
theorem cut_concat {p a : Bytes} {c : UInt8} (h : p <+: a ++ [c]) (hne : p ≠ a ++ [c]) :
    p <+: a := by
  rcases cut_append h with ⟨hp, -⟩ | ⟨q, hq, rfl⟩
  · exact hp
  · rcases List.prefix_cons_iff.mp hq with rfl | ⟨q', rfl, hq'⟩
    · rw [List.append_nil]
    · rw [List.prefix_nil.mp hq'] at hne
      exact absurd rfl hne

theorem findCrlfFrom_eq_none {xs : Bytes} (h : cr ∉ xs.dropLast) :
    ∀ i, findCrlfFrom xs i = none := by
  induction xs with
  | nil => exact fun _ => rfl
  | cons c xs ih =>
    cases xs with
    | nil => exact fun _ => rfl
    | cons d xs =>
      intro i
      rw [List.dropLast_cons_cons, List.mem_cons, not_or] at h
      rw [findCrlfFrom, if_neg fun hc => h.1 hc.1.symm]
      exact ih h.2 (i + 1)

/-- A header that is cut has no line end. -/
theorem findCrlf_cut (before : Bytes) {q : Bytes} {n : Nat} (hq : q <+: dec n ++ crlf)
    (hne : q ≠ dec n ++ crlf) : findCrlf (before ++ q) before.length = none := by
  have hcrlf : dec n ++ crlf = dec n ++ [cr] ++ [lf] := by simp
  rw [hcrlf] at hq hne
  have hshort := cut_concat hq hne
  have hcut : q.dropLast <+: dec n := by
    refine cut_concat ((List.dropLast_prefix q).trans hshort) fun he => ?_
    have hlong := hshort.length_le
    rw [← he, List.length_dropLast] at hlong
    have hpos : 0 < q.dropLast.length := by simp [he]
    rw [List.length_dropLast] at hpos
    omega
  rw [findCrlf, List.drop_left]
  exact findCrlfFrom_eq_none (fun hmem => cr_notMem_dec n (hcut.subset hmem)) before.length

/-! ## 2. The element loop -/

/-- A bulk string that is cut is no element, or all its payload is there and what follows is no
header. -/
theorem element?_cut (before : Bytes) {str q : Bytes} (hlen : str.length < 2 ^ 31)
    (hsize : (before ++ serializeBulkString str).length < 2 ^ 64)
    (hq : q <+: serializeBulkString str) (hne : q ≠ serializeBulkString str) :
    element? (before ++ q) before.length = none ∨
      ∃ e, element? (before ++ q) before.length = some e ∧ e.token (before ++ q) = str ∧
        (serializeBulkString str).length ≤ q.length + 2 ∧
        (before ++ q)[e.next]? ≠ some dollar := by
  rw [serializeBulkString_eq] at hq hne hsize ⊢
  rcases cut_append hq with ⟨hheader, hcut⟩ | ⟨r, hr, rfl⟩
  · refine Or.inl ?_
    rcases List.prefix_cons_iff.mp hheader with rfl | ⟨q', rfl, hq'⟩
    · simp [element?]
    · have hnone := findCrlf_cut (before ++ [dollar]) hq' fun he => hcut (by rw [he]; rfl)
      rw [List.append_assoc, List.singleton_append, List.length_append, List.length_singleton]
        at hnone
      simp [element?, hnone]
  · have hfits : (before ++ bulkHeader str.length).length + str.length < 2 ^ 64 := by
      simp only [List.length_append] at hsize ⊢
      omega
    have hheader := element?_header before r hlen hfits
    rw [← List.append_assoc]
    rcases cut_append hr with ⟨hstr, hcut⟩ | ⟨r', hr', rfl⟩
    · have hshort : r.length < str.length :=
        lt_of_le_of_ne hstr.length_le fun he => hcut (hstr.eq_of_length he)
      rw [if_pos hshort] at hheader
      exact Or.inl hheader
    · have hend : r' <+: [cr] := by
        refine cut_concat (c := lf) hr' ?_
        rintro rfl
        exact hne rfl
      have hget : ∀ i, (str ++ r')[str.length + i]? = r'[i]? := getElem?_length_add str r'
      have hget0 : (str ++ r')[str.length]? = r'[0]? := hget 0
      have hno : r'[1]? ≠ some lf := by
        rw [List.getElem?_eq_none (show r'.length ≤ 1 from hend.length_le)]
        simp
      have hshort : ¬ (str ++ r').length < str.length := by simp
      rw [if_neg hshort, hget0, hget 1, if_neg fun h => hno h.2] at hheader
      refine Or.inr ⟨_, hheader, ?_, ?_, ?_⟩
      · rw [token_header before (str ++ r') hlen, List.take_left]
      · simp only [List.length_append, List.length_cons, List.length_nil]
        omega
      · dsimp only
        rw [getElem?_length_add, hget0]
        rcases List.prefix_cons_iff.mp hend with rfl | ⟨r'', rfl, -⟩
        · simp
        · exact fun h => absurd (Option.some.inj h) (by decide)

/-- **The element loop on a cut array** returns nothing, or all elements if the cut is in the
line end of the last one. -/
theorem parseElements_cut (items : List Bytes) :
    ∀ (before q : Bytes) (tokens : List Bytes), (∀ str ∈ items, str.length < 2 ^ 31) →
      (before ++ items.flatMap serializeBulkString).length < 2 ^ 64 →
      q <+: items.flatMap serializeBulkString → q ≠ items.flatMap serializeBulkString →
      parseElements (before ++ q) items.length before.length tokens = [] ∨
        parseElements (before ++ q) items.length before.length tokens = tokens ++ items ∧
          (items.flatMap serializeBulkString).length ≤ q.length + 2 := by
  induction items with
  | nil =>
    intro before q tokens _ _ hq hne
    exact absurd (List.prefix_nil.mp hq) hne
  | cons str items ih =>
    intro before q tokens hlen hsize hq hne
    have hstr : str.length < 2 ^ 31 := hlen str List.mem_cons_self
    rw [List.flatMap_cons] at hsize hq hne ⊢
    rw [← List.append_assoc] at hsize
    have hhead : (before ++ serializeBulkString str).length < 2 ^ 64 := by
      rw [List.length_append] at hsize
      omega
    rcases cut_append hq with ⟨hone, hcut⟩ | ⟨q', hq', rfl⟩
    · rw [List.length_cons, parseElements_succ]
      rcases element?_cut before hstr hhead hone hcut with hnone | ⟨e, he, htoken, hlast, hnext⟩
      · rw [hnone]
        exact Or.inl rfl
      · rw [he]
        dsimp only
        rw [htoken]
        cases items with
        | nil => exact Or.inr ⟨rfl, by simpa using hlast⟩
        | cons next items =>
          refine Or.inl ?_
          rw [List.length_cons, parseElements, if_pos hnext]
    · rw [← List.append_assoc, List.length_cons,
        parseElements_serializeBulkString before str q' items.length tokens hstr hhead]
      have hrest := ih (before ++ serializeBulkString str) q' (tokens ++ [str])
        (fun s hs => hlen s (List.mem_cons_of_mem _ hs)) hsize hq' fun he => hne (by rw [he])
      rw [List.append_assoc tokens, List.singleton_append] at hrest
      refine hrest.imp id fun hall => ⟨hall.1, ?_⟩
      rw [List.length_append, List.length_append]
      omega

/-- **An array that is cut** decodes to nothing, or to all of it if the cut is in the line end
of the last element. -/
theorem parseRespArray_cut {ts : List Bytes} (hcount : ts.length < 2 ^ 31)
    (hlen : ∀ t ∈ ts, t.length < 2 ^ 31) {p : Bytes} (hp : p <+: serializeArray ts)
    (hne : p ≠ serializeArray ts) :
    parseRespArray p = [] ∨
      parseRespArray p = ts ∧ (serializeArray ts).length ≤ p.length + 2 := by
  have hsize := length_serializeArray_lt hcount hlen
  rw [serializeArray_eq] at hp hne hsize ⊢
  rcases cut_append hp with ⟨hheader, hcut⟩ | ⟨q, hq, rfl⟩
  · refine Or.inl ?_
    rcases List.prefix_cons_iff.mp hheader with rfl | ⟨q, rfl, hq⟩
    · rfl
    · have hnone := findCrlf_cut [star] hq fun he => hcut (by rw [he])
      rw [List.singleton_append, List.length_singleton] at hnone
      simp [parseRespArray, hnone]
  · have hstar : (star :: (dec ts.length ++ crlf) ++ q)[0]? = some star := rfl
    have hfind : findCrlf (star :: (dec ts.length ++ crlf) ++ q) 1 =
        some (1 + (dec ts.length).length) :=
      findCrlf_append [star] (dec ts.length) q (cr_notMem_dec _)
    have hnum : substr (star :: (dec ts.length ++ crlf) ++ q) 1 (dec ts.length).length =
        dec ts.length := by
      have h := substr_append [star] (dec ts.length) (crlf ++ q)
      rwa [← List.append_assoc (dec ts.length)] at h
    have hcursor : 1 + (dec ts.length).length + 2 =
        (star :: (dec ts.length ++ crlf)).length := by
      simp only [List.length_append, List.length_cons, List.length_nil]
      omega
    have hloop := parseElements_cut ts (star :: (dec ts.length ++ crlf)) q [] hlen
      hsize hq fun he => hne (by rw [he])
    rw [parseRespArray, if_neg (not_not.mpr hstar), hfind]
    dsimp only
    rw [Nat.add_sub_cancel_left, hnum, stoi_dec hcount]
    dsimp only
    rw [Int.toNat_natCast, hcursor]
    refine hloop.imp id fun hall => ⟨hall.1, ?_⟩
    rw [List.length_append, List.length_append]
    omega

/-! ## 3. The text it is read as -/

/-- The first token begins with `'*'`, the current one if there is no other. -/
def Scan.StarFirst (st : Scan) : Prop :=
  ∃ rest others, st.tokens ++ [st.current] = (star :: rest) :: others

theorem starFirst_scanChar {st : Scan} (h : st.StarFirst) (c : UInt8) :
    (scanChar st c).StarFirst := by
  obtain ⟨rest, others, hst⟩ := h
  unfold scanChar
  split
  · exact ⟨rest, others, hst⟩
  · split
    · exact ⟨rest, others, hst⟩
    · split
      · split
        · exact ⟨rest, others, hst⟩
        · -- the current token is complete
          exact ⟨rest, others ++ [[]], by rw [hst, List.cons_append]⟩
      · obtain ⟨tokens, current, inQuotes, quoteChar⟩ := st
        cases tokens with
        | nil =>
          obtain ⟨rfl, rfl⟩ := List.cons.inj hst
          exact ⟨rest ++ [c], [], rfl⟩
        | cons t tokens =>
          obtain ⟨rfl, -⟩ := List.cons.inj hst
          exact ⟨rest, tokens ++ [current ++ [c]], rfl⟩

/-- A text that begins with `'*'` has a first token that does. -/
theorem parsePlainText_star (input : Bytes) :
    ∃ rest others, parsePlainText (star :: input) = (star :: rest) :: others := by
  have hfold : ∀ (input : Bytes) (st : Scan), st.StarFirst →
      (input.foldl scanChar st).StarFirst := by
    intro input
    induction input with
    | nil => exact fun _ h => h
    | cons c input ih => exact fun st h => ih _ (starFirst_scanChar h c)
  obtain ⟨rest, others, hst⟩ := hfold input ⟨[], [star], false, 0⟩ ⟨[], [], rfl⟩
  have hscan : scanChar ⟨[], [], false, 0⟩ star = ⟨[], [star], false, 0⟩ := rfl
  rw [parsePlainText_eq, List.foldl_cons, hscan, Scan.flush]
  split
  · rename_i hnil
    rw [hnil] at hst
    rcases List.append_eq_cons_iff.mp hst with ⟨-, hbad⟩ | ⟨others', htokens, -⟩
    · cases hbad
    · exact ⟨rest, others', htokens⟩
  · exact ⟨rest, others, hst⟩

end RespParser

open RespParser

/-! ## 4. The request -/

/-- No command begins with `'*'`. -/
theorem Verb.ofWord_star (rest : Bytes) : Verb.ofWord (toUpper (star :: rest)) = none := by
  cases h : Verb.ofWord (toUpper (star :: rest)) with
  | none => rfl
  | some v =>
    have hhead : v.word.head? = some star := by rw [← Verb.word_of_ofWord h]; rfl
    refine absurd hhead ?_
    cases v with
    | store v => cases v <;> decide
    | auth | ping | bgrewriteaof | info | quit => decide

/-- A request that is no command leaves store, log and session alone. -/
theorem execute_unknown {rawCommand : Bytes} (h : request? rawCommand = none) (ctx : ServerCtx)
    (env : Env) (db : Db) (isAuthenticated : Bool) :
    (execute ctx env rawCommand db isAuthenticated).db.store = db.store ∧
      (execute ctx env rawCommand db isAuthenticated).db.aof = db.aof ∧
      (execute ctx env rawCommand db isAuthenticated).isAuthenticated = isAuthenticated := by
  unfold request? at h
  unfold execute
  cases hparse : parseRequest rawCommand with
  | nil => exact ⟨rfl, rfl, rfl⟩
  | cons word args =>
    rw [hparse] at h
    have hverb : Verb.ofWord (toUpper word) = none := Option.map_eq_none_iff.mp h
    dsimp only
    split
    · rename_i hgated
      rw [executeGated, hverb]
      exact ⟨rfl, rfl, hgated.2.symm⟩
    · rw [executeOpen, hverb]
      exact ⟨rfl, rfl, rfl⟩

/-- What begins with `'*'` and is no array is no command. -/
theorem request?_star {input : Bytes} (h : parseRespArray (star :: input) = []) :
    request? (star :: input) = none := by
  obtain ⟨rest, others, htext⟩ := parsePlainText_star input
  have hparse : parseRequest (star :: input) = (star :: rest) :: others := by
    have hdrop : (star :: input).dropWhile isspace = star :: input := rfl
    simp only [parseRequest, hdrop]
    rw [if_neg (List.cons_ne_nil _ _), if_pos List.head?_cons, if_pos h, htext]
  rw [request?, hparse]
  dsimp only
  rw [Verb.ofWord_star, Option.map_none]

/-- **A request that is cut short never runs another command**: it runs as if it were whole, and
then all that is missing is in the line end of its last element, or it leaves store, log and
session as they were.  Read as text it is no command, wherever it is cut. -/
theorem truncated_request {ts : List Bytes} (hne : ts ≠ []) (hcount : ts.length < 2 ^ 31)
    (hlen : ∀ t ∈ ts, t.length < 2 ^ 31) {p : Bytes} (hp : p <+: serializeArray ts)
    (hcut : p ≠ serializeArray ts) (ctx : ServerCtx) (env : Env) (db : Db)
    (isAuthenticated : Bool) :
    (((serializeArray ts).length ≤ p.length + 2 ∧ parseRequest p = ts ∧
        execute ctx env p db isAuthenticated =
          execute ctx env (serializeArray ts) db isAuthenticated) ∨
      ((execute ctx env p db isAuthenticated).db.store = db.store ∧
        (execute ctx env p db isAuthenticated).db.aof = db.aof ∧
        (execute ctx env p db isAuthenticated).isAuthenticated = isAuthenticated)) ∧
      ∀ word args, parsePlainText p = word :: args → Verb.ofWord (toUpper word) = none := by
  cases p with
  | nil =>
    refine ⟨Or.inr (execute_unknown rfl ctx env db isAuthenticated), fun word args h => ?_⟩
    cases h
  | cons c p =>
    obtain rfl : c = star := by
      rw [serializeArray_eq, List.cons_append] at hp
      exact (List.cons_prefix_cons.mp hp).1
    refine ⟨?_, fun word args h => ?_⟩
    · rcases parseRespArray_cut hcount hlen hp hcut with hnone | ⟨hall, hlong⟩
      · exact Or.inr (execute_unknown (request?_star hnone) ctx env db isAuthenticated)
      · have hparse : parseRequest (star :: p) = ts := by
          have hdrop : (star :: p).dropWhile isspace = star :: p := rfl
          simp only [parseRequest, hdrop]
          rw [if_neg (List.cons_ne_nil _ _), if_pos List.head?_cons, hall, if_neg hne]
        have hwhole := parseRequest_serializeArray ts [] hne hcount hlen
        rw [List.append_nil] at hwhole
        refine Or.inl ⟨hlong, hparse, ?_⟩
        unfold execute
        rw [hparse, hwhole]
    · obtain ⟨rest, others, htext⟩ := parsePlainText_star p
      rw [htext, List.cons.injEq] at h
      rw [← h.1]
      exact Verb.ofWord_star rest

/-- `FLUSHDB` as a payload: one byte is missing, and the text has it as a token of its own. -/
theorem truncated_request_flushdb :
    let ctx : ServerCtx := ⟨List.length, [], 8080, 4⟩
    let env : Env := ⟨0, .plain, .success⟩
    let db : Db := .fresh ⟨0, 0, 0, 0, 0, 0, 0, 0⟩
    let p := bytes "*2\r\n$4\r\nPING\r\n$9\r\n FLUSHDB"
    (execute ctx env p db true).db.store = db.store ∧
      (execute ctx env p db true).db.aof = db.aof ∧
      (execute ctx env p db true).isAuthenticated = true := by
  intro ctx env db p
  have hp : p <+: serializeArray [bytes "PING", bytes " FLUSHDB "] :=
    List.prefix_iff_eq_take.mpr (by decide)
  have htruncated := truncated_request (by simp) (by decide) (by decide) hp (by decide) ctx env db
    true
  exact htruncated.1.resolve_left fun h => absurd h.1 (by decide)

end KeyValueDb
