import Exodus.Library.Lines

/-!
# `llama_server.rs`: reading an HTTP response

The bytes of a response are those that the server sends before it closes the connection.
Lines are read up to a newline and have to be UTF-8; what the standard library does with text
outside ASCII is a parameter.  A vector of more than `isize::MAX` bytes panics, smaller ones
can be had.
-/

set_option autoImplicit false

namespace Exodus.Model

open Exodus.Library

/-- Functions of the standard library on text that need not be ASCII. -/
class RustText where
  /-- `str::to_lowercase` on a text that is not ASCII -/
  toLowercase : List Char → List Char
  /-- `String::from_utf8_lossy` -/
  fromUtf8Lossy : List UInt8 → String

/-! ## Text helpers -/

/-- `char::is_whitespace` -/
def isWhitespace (c : Char) : Bool :=
  let v := c.toNat
  v = 0x20 || (9 ≤ v && v ≤ 13) || v = 0x85 || v = 0xa0 || v = 0x1680 ||
    (0x2000 ≤ v && v ≤ 0x200a) || v = 0x2028 || v = 0x2029 || v = 0x202f || v = 0x205f || v = 0x3000

def trimStart (s : List Char) : List Char := s.dropWhile isWhitespace

def trimEnd (s : List Char) : List Char := s.rdropWhile isWhitespace

def trim (s : List Char) : List Char := trimEnd (trimStart s)

def splitWhitespace (s : List Char) : List (List Char) :=
  (s.splitOnP isWhitespace).filter (· ≠ [])

/-- `char::to_digit` -/
def toDigit (radix : ℕ) (c : Char) : Option ℕ :=
  let v := c.toNat
  let digit :=
    if 48 ≤ v ∧ v ≤ 57 then some (v - 48)
    else if 97 ≤ v ∧ v ≤ 122 then some (v - 97 + 10)
    else if 65 ≤ v ∧ v ≤ 90 then some (v - 65 + 10)
    else none
  digit.filter (· < radix)

def digitsValue (radix : ℕ) : List Char → ℕ → Option ℕ
  | [], value => some value
  | c :: rest, value => (toDigit radix c).bind fun d => digitsValue radix rest (value * radix + d)

/-- `from_str_radix(..).ok()` for an unsigned type with `size` values: a plus sign may stand
before the digits. -/
def fromStrRadix (radix size : ℕ) (s : List Char) : Option ℕ :=
  let digits := if s.head? = some '+' then s.tail else s
  if digits = [] then none else (digitsValue radix digits 0).filter (· < size)

def firstChars (s : String) (n : ℕ) : String := String.ofList (s.toList.take n)

/-! ## Reading -/

def isizeMax : ℕ := 2 ^ 63 - 1

/-- A response that is not read: an error with its text, or a panic. -/
inductive HttpFailure where
  | error (message : String)
  | capacityOverflow
deriving DecidableEq

/-- The text of the error of `read_line`. -/
def invalidUtf8 : String := "stream did not contain valid UTF-8"

/-- The text of the error of `read_exact`. -/
def shortRead : String := "failed to fill whole buffer"

/-- `read_line` into an empty string: the line, if it is UTF-8, and what is left. -/
def readLine (bytes : List UInt8) : Option (List Char) × List UInt8 :=
  (utf8Text (cutLine bytes).1, (cutLine bytes).2)

/-- The size line of a chunk; a size that is not read counts as 0. -/
def chunkSize (sizeLine : List Char) : ℕ :=
  (fromStrRadix 16 (2 ^ 64) (trim ((trim sizeLine).takeWhile (· ≠ ';')))).getD 0

/-- The loop over chunks.  The line behind a chunk is read and not looked at; the one behind
the last size line makes no difference. -/
def readChunks (bytes body : List UInt8) : Except HttpFailure (List UInt8) :=
  if h : bytes = [] then .ok body
  else
    match (readLine bytes).1 with
    | none => .error (.error ("read chunk size: " ++ invalidUtf8))
    | some sizeLine =>
      let size := chunkSize sizeLine
      let rest := (readLine bytes).2
      if size = 0 then .ok body
      else if isizeMax < size then .error .capacityOverflow
      else if rest.length < size then .error (.error ("read chunk body: " ++ shortRead))
      else if isizeMax < (body ++ rest.take size).length then .error .capacityOverflow
      else readChunks (cutLine (rest.drop size)).2 (body ++ rest.take size)
termination_by bytes.length
decreasing_by
  have hbehind := length_cutLine_le (((readLine bytes).2).drop (chunkSize sizeLine))
  have hrest : (readLine bytes).2.length < bytes.length := length_cutLine_lt h
  rw [List.length_drop] at hbehind
  omega

variable [RustText]

def toLowercase (s : List Char) : List Char :=
  if s.all fun c => c.toNat < 128 then s.map Char.toLower else RustText.toLowercase s

/-- What a header line changes: the content length, and whether the body is chunked. -/
def noteHeader (line : List Char) (framing : Option ℕ × Bool) : Option ℕ × Bool :=
  let lower := toLowercase line
  match lower.dropPrefix? "content-length:".toList with
  | some v => (fromStrRadix 10 (2 ^ 64) (trim v), framing.2)
  | none =>
    if "transfer-encoding:".toList <+: lower ∧ "chunked".toList <:+: lower then (framing.1, true)
    else framing

/-- The loop over header lines, up to a blank one or the end of the stream. -/
def readHeaders (bytes : List UInt8) (framing : Option ℕ × Bool) :
    Except HttpFailure ((Option ℕ × Bool) × List UInt8) :=
  if h : bytes = [] then .ok (framing, [])
  else
    match (readLine bytes).1 with
    | none => .error (.error ("read header: " ++ invalidUtf8))
    | some line =>
      if trimEnd line = [] then .ok (framing, (readLine bytes).2)
      else readHeaders (readLine bytes).2 (noteHeader (trimEnd line) framing)
termination_by bytes.length
decreasing_by exact length_cutLine_lt h

/-- The status line and the headers of a response, and the bytes behind them. -/
structure HttpHead where
  code : ℕ
  contentLength : Option ℕ
  chunked : Bool
  rest : List UInt8

omit [RustText] in
def statusCode (status : List Char) : ℕ :=
  ((splitWhitespace status)[1]?.bind (fromStrRadix 10 (2 ^ 16))).getD 0

def readHead (bytes : List UInt8) : Except HttpFailure HttpHead :=
  match (readLine bytes).1 with
  | none => .error (.error ("read status line: " ++ invalidUtf8))
  | some status =>
    (readHeaders (readLine bytes).2 (none, false)).map fun r =>
      ⟨statusCode status, r.1.1, r.1.2, r.2⟩

omit [RustText] in
def readBody (head : HttpHead) : Except HttpFailure (List UInt8) :=
  if head.chunked then readChunks head.rest []
  else
    match head.contentLength with
    | some len =>
      if isizeMax < len then .error .capacityOverflow
      else if head.rest.length < len then .error (.error ("read body: " ++ shortRead))
      else .ok (head.rest.take len)
    | none => .ok head.rest

/-- What is made of a body by the status code. -/
def conclude (code : ℕ) (body : List UInt8) : Except HttpFailure String :=
  let text := RustText.fromUtf8Lossy body
  if code ≠ 200 then
    .error (.error ("llama-server HTTP " ++ toString code ++ ": " ++ firstChars text 500))
  else .ok text

def readResponse (bytes : List UInt8) : Except HttpFailure String :=
  match readHead bytes with
  | .error e => .error e
  | .ok head =>
    match readBody head with
    | .error e => .error e
    | .ok body => conclude head.code body

end Exodus.Model
