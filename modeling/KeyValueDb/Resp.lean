/-
# RespParser

The request decoder and the reply serializers.  A request is a RESP2 array of bulk strings,
and whatever does not decode as one falls back to plain text, split at white space with
quotes.  Positions are `size_t`, so they are computed modulo `2 ^ 64`; an announced length is
an `int`, possibly negative, and is converted to `size_t` before it is used.
-/
import KeyValueDb.Text

namespace KeyValueDb

open Lib

namespace RespParser

/-! ## 1. RESP arrays -/

/-- A signed value converted to `size_t`. -/
def toSize (n : Int) : Nat := (n % 2 ^ 64).toNat

/-- `size_t` addition. -/
def addSize (a b : Nat) : Nat := (a + b) % 2 ^ 64

/-- The first `"\r\n"` in a text that starts at index `i`. -/
def findCrlfFrom : Bytes → Nat → Option Nat
  | [], _ => none
  | [_], _ => none
  | c :: d :: rest, i => if c = cr ∧ d = lf then some i else findCrlfFrom (d :: rest) (i + 1)

/-- `input.find("\r\n", pos)`. -/
def findCrlf (input : Bytes) (pos : Nat) : Option Nat := findCrlfFrom (input.drop pos) pos

/-- `input.substr(pos, count)`. -/
def substr (input : Bytes) (pos count : Nat) : Bytes := (input.drop pos).take count

/-- The element loop of `parse_resp_array`: `n` elements to go, from `pos`. -/
def parseElements (input : Bytes) : Nat → Nat → List Bytes → List Bytes
  | 0, _, tokens => tokens
  | n + 1, pos, tokens =>
    if input[pos]? ≠ some dollar then []
    else match findCrlf input (pos + 1) with
      | none => []
      | some lenCrlf =>
        match stoi (substr input (pos + 1) (lenCrlf - (pos + 1))) with
        | none => []
        | some len =>
          let start := lenCrlf + 2
          let stop := addSize start (toSize len)
          if input.length < stop then []
          else
            let next := if input[stop]? = some cr ∧ input[stop + 1]? = some lf then stop + 2
              else stop
            parseElements input n next (tokens ++ [substr input start (toSize len)])

def parseRespArray (input : Bytes) : List Bytes :=
  if input[0]? ≠ some star then []
  else match findCrlf input 1 with
    | none => []
    | some crlf =>
      match stoi (substr input 1 (crlf - 1)) with
      | none => []
      | some count => parseElements input count.toNat (crlf + 2) []

/-! ## 2. Plain text -/

/-- The state of the plain-text scan. -/
structure Scan where
  tokens : List Bytes
  current : Bytes
  inQuotes : Bool
  quoteChar : UInt8

/-- One character of the plain-text scan. -/
def scanChar (st : Scan) (c : UInt8) : Scan :=
  if c = cr ∨ c = lf then st
  else if (c = 34 ∨ c = 39) ∧ (st.inQuotes = false ∨ c = st.quoteChar) then
    { st with inQuotes := !st.inQuotes, quoteChar := if st.inQuotes then 0 else c }
  else if isspace c = true ∧ st.inQuotes = false then
    if st.current = [] then st
    else { st with tokens := st.tokens ++ [st.current], current := [] }
  else { st with current := st.current ++ [c] }

def parsePlainText (input : Bytes) : List Bytes :=
  let st := input.foldl scanChar ⟨[], [], false, 0⟩
  if st.current = [] then st.tokens else st.tokens ++ [st.current]

/-! ## 3. Requests -/

def parseRequest (input : Bytes) : List Bytes :=
  let input := input.dropWhile isspace
  if input = [] then []
  else if input.head? = some star then
    let respTokens := parseRespArray input
    if respTokens = [] then parsePlainText input else respTokens
  else parsePlainText input

/-! ## 4. Replies -/

def serializeSimpleString (str : Bytes) : Bytes := bytes "+" ++ str ++ crlf

def serializeError (errMsg : Bytes) : Bytes := bytes "-ERR " ++ errMsg ++ crlf

def serializeInteger (num : Int) : Bytes := bytes ":" ++ stdToString num ++ crlf

def serializeBulkString (str : Bytes) : Bytes :=
  bytes "$" ++ dec str.length ++ crlf ++ str ++ crlf

def serializeNull : Bytes := bytes "$-1\r\n"

def serializeArray (items : List Bytes) : Bytes :=
  bytes "*" ++ dec items.length ++ crlf ++ items.flatMap serializeBulkString

example : parseRequest (serializeArray [bytes "SET", bytes "mi", bytes "valor"]) =
    [bytes "SET", bytes "mi", bytes "valor"] := by decide

end RespParser

end KeyValueDb
