import Exodus.Library.Text
import Exodus.Model.Crates

/-!
# `crypto.rs`: canonical serialisation, digests, keys

Text is built as its list of characters; `canonicalJson` packs it into a string
at the end.
-/

set_option autoImplicit false

namespace Exodus.Model

open Exodus.Library

/-! ## Text helpers -/

/-- `as_bytes` -/
def asBytes (s : String) : List UInt8 := s.toUTF8.data.toList

/-- The format `{:04x}` below `0x10000`. -/
def hex4 (n : ℕ) : List Char :=
  [Nat.digitChar (n / 4096 % 16), Nat.digitChar (n / 256 % 16), Nat.digitChar (n / 16 % 16),
    Nat.digitChar (n % 16)]

/-- The text before the first `c` and the text after it, when there is one. -/
def cutAt (c : Char) : List Char → Option (List Char × List Char)
  | [] => none
  | d :: rest =>
    if d = c then some ([], rest) else (cutAt c rest).map fun r => (d :: r.1, r.2)

/-- An optional sign and what follows it. -/
def splitSign : List Char → Bool × List Char
  | '-' :: rest => (true, rest)
  | '+' :: rest => (false, rest)
  | rest => (false, rest)

/-- `parse::<i32>().ok()` -/
def parseI32 (s : List Char) : Option ℤ :=
  let signed := splitSign s
  if signed.2 ≠ [] ∧ signed.2.all Char.isDigit then
    let magnitude : ℤ := Nat.ofDigitChars 10 signed.2 0
    let value := if signed.1 then -magnitude else magnitude
    if -2 ^ 31 ≤ value ∧ value < 2 ^ 31 then some value else none
  else none

/-- `trim_matches('0')` -/
def trimZeros (s : List Char) : List Char :=
  ((s.dropWhile (· = '0')).reverse.dropWhile (· = '0')).reverse

/-! ## Canonical JSON -/

/-- One character of a string literal. -/
def escapeChar (c : Char) : List Char :=
  if c = '"' then ['\\', '"']
  else if c = '\\' then ['\\', '\\']
  else if c.toNat = 0x08 then ['\\', 'b']
  else if c.toNat = 0x0c then ['\\', 'f']
  else if c = '\n' then ['\\', 'n']
  else if c = '\r' then ['\\', 'r']
  else if c = '\t' then ['\\', 't']
  else if c.toNat < 0x20 then ['\\', 'u'] ++ hex4 c.toNat
  else if c.toNat < 0x80 then [c]
  else if c.toNat ≤ 0xffff then ['\\', 'u'] ++ hex4 c.toNat
  else
    -- astral: a UTF-16 surrogate pair
    let cp := c.toNat - 0x10000
    ['\\', 'u'] ++ hex4 (0xd800 + cp / 2 ^ 10) ++ ['\\', 'u'] ++ hex4 (0xdc00 + cp % 2 ^ 10)

def writeEscaped (s : String) : List Char :=
  '"' :: s.toList.flatMap escapeChar ++ ['"']

/-- The text layout of `py_float`, from the digits and the exponent of the leading one. -/
def layoutDigits (neg : Bool) (sig : List Char) (leadExp : ℤ) : List Char :=
  let sign := if neg then ['-'] else []
  if 16 ≤ leadExp ∨ leadExp < -4 then
    -- scientific notation
    let mantissa := if sig.length = 1 then sig else sig.take 1 ++ '.' :: sig.drop 1
    let eabs := Nat.toDigits 10 leadExp.natAbs
    sign ++ mantissa ++ 'e' :: (if leadExp < 0 then '-' else '+') ::
      (if eabs.length < 2 then '0' :: eabs else eabs)
  else if leadExp < 0 then
    sign ++ ['0', '.'] ++ List.replicate (-leadExp - 1).toNat '0' ++ sig
  else
    let intDigits := (leadExp + 1).toNat
    if sig.length ≤ intDigits then
      sign ++ sig ++ List.replicate (intDigits - sig.length) '0' ++ ['.', '0']
    else
      sign ++ sig.take intDigits ++ '.' :: sig.drop intDigits

/-- The mantissa, and the exponent after an `e`. -/
def splitExponent (s : List Char) : List Char × Option ℤ :=
  match cutAt 'e' s with
  | some (m, e) => (m, parseI32 e)
  | none => (s, none)

/-- The digits before the point and those after it. -/
def splitPoint (s : List Char) : List Char × List Char :=
  match cutAt '.' s with
  | some (ip, fp) => (ip, fp)
  | none => (s, [])

/-- The reading part of `py_float`: the sign, the significant digits and the exponent of
the leading one. -/
def scanDecimal (s : List Char) : Bool × List Char × ℤ :=
  let neg : Bool := s.head? = some '-'
  let parts := splitExponent (if neg then s.drop 1 else s)
  let mantissa := splitPoint parts.1
  let combined := mantissa.1 ++ mantissa.2
  let decPt : ℤ := mantissa.1.length
  let first : ℤ := (combined.findIdx? (· ≠ '0')).getD 0
  let leadExp := decPt - 1 - first + parts.2.getD 0
  (neg, if trimZeros combined = [] then ['0'] else trimZeros combined, leadExp)

/-- The part of `py_float` after `ryu`: re-lay the text of a finite non-zero double. -/
def relayRyu (s : List Char) : List Char :=
  let scanned := scanDecimal s
  layoutDigits scanned.1 scanned.2.1 scanned.2.2

variable [Crates]

/-- `py_float`: a double as CPython's `repr` prints it. -/
def pyFloat (v : Float) : List Char :=
  if v == 0.0 then
    if isSignNegative v then ['-', '0', '.', '0'] else ['0', '.', '0']
  else if v.isNaN then ['N', 'a', 'N']
  else if v.isInf then
    if isSignNegative v then "-Infinity".toList else "Infinity".toList
  else relayRyu (Crates.ryu v)

/-- The order of the object keys in the output. -/
def sortByKey {α : Type} (entries : List (String × α)) : List (String × α) :=
  entries.insertionSort fun a b => a.1 ≤ b.1

mutual

def writeValue : Json → List Char
  | .null => ['n', 'u', 'l', 'l']
  | .bool true => ['t', 'r', 'u', 'e']
  | .bool false => ['f', 'a', 'l', 's', 'e']
  | .int i => intChars i
  | .float f => pyFloat f.1
  | .str s => writeEscaped s
  | .arr items => '[' :: joinSep ',' (writeItems items) ++ [']']
  | .obj entries =>
    '\x7b' :: joinSep ',' ((sortByKey (writeEntries entries)).map fun e =>
      writeEscaped e.1 ++ ':' :: e.2) ++ ['\x7d']

def writeItems : List Json → List (List Char)
  | [] => []
  | v :: vs => writeValue v :: writeItems vs

def writeEntries : List (String × Json) → List (String × List Char)
  | [] => []
  | (k, v) :: es => (k, writeValue v) :: writeEntries es

end

def canonicalJson (v : Json) : String := String.ofList (writeValue v)

def canonicalBytes (v : Json) : List UInt8 := asBytes (canonicalJson v)

/-! ## Hex and digests -/

/-- Lowercase hex encoding. -/
def hex (data : List UInt8) : String :=
  String.ofList (data.flatMap fun b =>
    [Nat.digitChar (b.toNat / 16), Nat.digitChar (b.toNat % 16)])

def nib (b : UInt8) : Option UInt8 :=
  if 48 ≤ b ∧ b ≤ 57 then some (b - 48)
  else if 97 ≤ b ∧ b ≤ 102 then some (b - 97 + 10)
  else if 65 ≤ b ∧ b ≤ 70 then some (b - 65 + 10)
  else none

def hexPairs : List UInt8 → Option (List UInt8)
  | [] => some []
  | [_] => none
  | a :: b :: rest => do
    let hi ← nib a
    let lo ← nib b
    let out ← hexPairs rest
    return ((hi <<< 4) ||| lo) :: out

/-- Decode a hex string; an odd length is refused. -/
def hexDecode (s : String) : Option (List UInt8) := hexPairs (asBytes s)

def sha256Hex (v : Json) : String := hex (Crates.sha256 (canonicalBytes v))

def sha256BytesHex (data : List UInt8) : String := hex (Crates.sha256 data)

/-! ## Keys -/

/-- The seed is the first 32 bytes of the private key. -/
def sign (message privateKey : List UInt8) : List UInt8 :=
  Crates.ed25519Sign (privateKey.take 32) message

def verify (message signature publicKey : List UInt8) : Bool :=
  publicKey.length == 32 && signature.length == 64 &&
    Crates.ed25519Verify publicKey message signature

def publicKeyFromPrivate (privateKey : List UInt8) : List UInt8 :=
  Crates.verifyingKey (privateKey.take 32)

/-- `B32` -/
def b32 : List Char := "ABCDEFGHIJKLMNOPQRSTUVWXYZ234567".toList

/-- The inner loop of `base32_nopad`: emit five bits at a time while five are left.
Returns the characters and the number of bits kept. -/
def base32Emit (buffer : ℕ) : ℕ → ℕ → List Char × ℕ
  | 0, bits => ([], bits)
  | fuel + 1, bits =>
    if 5 ≤ bits then
      let r := base32Emit buffer fuel (bits - 5)
      (b32.getD ((buffer >>> (bits - 5)) &&& 0x1f) 'A' :: r.1, r.2)
    else ([], bits)

/-- The outer loop, over a 64-bit accumulator that is shifted and never masked. -/
def base32Loop : List UInt8 → ℕ → ℕ → List Char
  | [], buffer, bits =>
    if 0 < bits then [b32.getD ((buffer <<< (5 - bits)) % 2 ^ 64 &&& 0x1f) 'A'] else []
  | b :: rest, buffer, bits =>
    let buffer := ((buffer <<< 8) % 2 ^ 64) ||| b.toNat
    let r := base32Emit buffer (bits + 8) (bits + 8)
    r.1 ++ base32Loop rest buffer r.2

def base32NoPad (data : List UInt8) : String := String.ofList (base32Loop data 0 0)

/-- `exd` and the lowercase base32 of the first 16 bytes of the key's digest. -/
def nodeIdFromPublicKey (publicKey : List UInt8) : String :=
  "exd" ++ (base32NoPad ((Crates.sha256 publicKey).take 16)).map Char.toLower

end Exodus.Model
