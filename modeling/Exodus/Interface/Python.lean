import Exodus.Model.Crypto

/-!
# The reference text of a JSON value

`crypto.rs` promises the text of CPython's `json.dumps` with `sort_keys=True`, the
separators `(",", ":")` and `ensure_ascii=True`.  `pyDumps` is that text, stated from the
encoder of CPython and not from `crypto.rs`: a character is escaped when it is a quote, a
backslash or not between the space and the tilde, and a double is laid out by `repr` from
its shortest digits, which are a parameter here.
-/

set_option autoImplicit false

namespace Exodus.Interface

open Exodus.Library Exodus.Model

/-! ## Strings -/

/-- The short escapes. -/
def pyShortEscape (c : Char) : Option (List Char) :=
  if c = '\\' then some ['\\', '\\']
  else if c = '"' then some ['\\', '"']
  else if c.toNat = 0x08 then some ['\\', 'b']
  else if c.toNat = 0x0c then some ['\\', 'f']
  else if c.toNat = 0x0a then some ['\\', 'n']
  else if c.toNat = 0x0d then some ['\\', 'r']
  else if c.toNat = 0x09 then some ['\\', 't']
  else none

/-- `\u` and the code, or the codes of a surrogate pair. -/
def pyUnicodeEscape (code : ℕ) : List Char :=
  if code < 0x10000 then ['\\', 'u'] ++ hex4 code
  else
    let rest := code - 0x10000
    ['\\', 'u'] ++ hex4 (0xd800 ||| (rest >>> 10 &&& 0x3ff)) ++
      ['\\', 'u'] ++ hex4 (0xdc00 ||| (rest &&& 0x3ff))

/-- The characters that stand for themselves. -/
def pyPlain (c : Char) : Bool := ' ' ≤ c && c ≤ '~' && c ≠ '"' && c ≠ '\\'

/-- One character of a string with `ensure_ascii`. -/
def pyEscapeChar (c : Char) : List Char :=
  if pyPlain c then [c] else (pyShortEscape c).getD (pyUnicodeEscape c.toNat)

def pyString (s : String) : List Char := '"' :: s.toList.flatMap pyEscapeChar ++ ['"']

/-! ## Numbers -/

/-- The exponent of `repr`: a sign and at least two digits. -/
def pyExponent (e : ℤ) : List Char :=
  (if e < 0 then '-' else '+') ::
    (List.replicate (2 - (Nat.toDigits 10 e.natAbs).length) '0' ++ Nat.toDigits 10 e.natAbs)

/-- `repr` from the shortest digits: scientific when the decimal point is more than three
places to the left of them or after the sixteenth. -/
def pyRepr (d : Decimal) : List Char :=
  let sign := if d.neg then ['-'] else []
  if d.exponent ≤ -4 ∨ 16 < d.exponent then
    sign ++ d.digits.take 1 ++ (if d.digits.length = 1 then [] else '.' :: d.digits.drop 1) ++
      'e' :: pyExponent (d.exponent - 1)
  else if d.exponent ≤ 0 then
    sign ++ ['0', '.'] ++ List.replicate d.exponent.natAbs '0' ++ d.digits
  else if d.exponent < d.digits.length then
    sign ++ d.digits.take d.exponent.toNat ++ '.' :: d.digits.drop d.exponent.toNat
  else
    sign ++ d.digits ++ List.replicate (d.exponent.toNat - d.digits.length) '0' ++ ['.', '0']

/-- `repr` of a finite double. -/
def pyDouble (shortest : Float → Decimal) (v : Float) : List Char :=
  if v == 0.0 then if isSignNegative v then "-0.0".toList else "0.0".toList
  else pyRepr (shortest v)

/-! ## Values -/

mutual

def pyValue (shortest : Float → Decimal) : Json → List Char
  | .null => "null".toList
  | .bool true => "true".toList
  | .bool false => "false".toList
  | .int i => intChars i
  | .float f => pyDouble shortest f.1
  | .str s => pyString s
  | .arr items => '[' :: joinSep ',' (pyItems shortest items) ++ [']']
  | .obj entries =>
    '\x7b' :: joinSep ',' (((pyEntries shortest entries).insertionSort fun a b => a.1 ≤ b.1).map
      fun e => pyString e.1 ++ ':' :: e.2) ++ ['\x7d']

def pyItems (shortest : Float → Decimal) : List Json → List (List Char)
  | [] => []
  | v :: vs => pyValue shortest v :: pyItems shortest vs

def pyEntries (shortest : Float → Decimal) : List (String × Json) → List (String × List Char)
  | [] => []
  | (k, v) :: es => (k, pyValue shortest v) :: pyEntries shortest es

end

/-- `json.dumps(v, sort_keys=True, separators=(",", ":"), ensure_ascii=True)` -/
def pyDumps (shortest : Float → Decimal) (v : Json) : String := String.ofList (pyValue shortest v)

end Exodus.Interface
