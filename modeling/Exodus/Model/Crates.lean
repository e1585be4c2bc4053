import Exodus.Library.Json
import Exodus.Library.Text

/-!
# The crates outside the repository

`Crates` collects the third-party functions the program calls: the SHA-256 of
`sha2`, the Ed25519 primitives of `ed25519-dalek`, the shortest digits of `ryu`,
the text form of `serde_json` and the `SUM` aggregate of SQLite.  They are
parameters of the model.  What a result relies on beyond their types is one of
the named assumptions below, each a documented property of its crate.
-/

set_option autoImplicit false

namespace Exodus.Model

open Exodus.Library

/-- A non-zero decimal: a sign, significant digits without zeros at either end, and the
power of ten just above the value. -/
structure Decimal where
  neg : Bool
  digits : List Char
  exponent : ℤ
  digits_isDigit : ∀ c ∈ digits, c.isDigit = true
  head_ne : ∃ c rest, digits = c :: rest ∧ c ≠ '0'
  last_ne : ∃ rest c, digits = rest ++ [c] ∧ c ≠ '0'
  exponent_bound : -400 ≤ exponent ∧ exponent ≤ 400

/-- The text of `ryu::Buffer::format_finite` for a decimal. -/
def Decimal.ryuText (d : Decimal) : List Char :=
  let length : ℤ := d.digits.length
  let sign := if d.neg then ['-'] else []
  if length ≤ d.exponent ∧ d.exponent ≤ 16 then
    sign ++ d.digits ++ List.replicate (d.exponent - length).toNat '0' ++ ['.', '0']
  else if 0 < d.exponent ∧ d.exponent ≤ 16 then
    sign ++ d.digits.take d.exponent.toNat ++ '.' :: d.digits.drop d.exponent.toNat
  else if -5 < d.exponent ∧ d.exponent ≤ 0 then
    sign ++ ['0', '.'] ++ List.replicate (-d.exponent).toNat '0' ++ d.digits
  else if length = 1 then
    sign ++ d.digits ++ 'e' :: intChars (d.exponent - 1)
  else
    sign ++ d.digits.take 1 ++ '.' :: d.digits.drop 1 ++ 'e' :: intChars (d.exponent - 1)

/-- The third-party functions the program calls. -/
class Crates where
  /-- `sha2::Sha256`: the digest of a byte string -/
  sha256 : List UInt8 → List UInt8
  /-- `SigningKey::from_bytes(seed).verifying_key()` -/
  verifyingKey : List UInt8 → List UInt8
  /-- `SigningKey::from_bytes(seed).sign(message)` -/
  ed25519Sign : List UInt8 → List UInt8 → List UInt8
  /-- `VerifyingKey::from_bytes(key)` and `verify(message, signature)` both succeed -/
  ed25519Verify : List UInt8 → List UInt8 → List UInt8 → Bool
  /-- `ryu::Buffer::format_finite` -/
  ryu : Float → List Char
  /-- `serde_json::Value::to_string` -/
  jsonToString : Json → String
  /-- `serde_json::from_str::<Value>` -/
  jsonFromStr : String → Option Json
  /-- `COALESCE(SUM(cu), 0.0)` over the values of a column -/
  sqliteSum : List Float → Float

variable [Crates]

/-- `serde_json` reads back the value it wrote. -/
class SerdeReadsBack : Prop where
  from_to : ∀ v : Json, v.WellFormed → Crates.jsonFromStr (Crates.jsonToString v) = some v

/-- `ryu` prints a decimal in its format, and its texts of two doubles differ. -/
class RyuReadsBack : Prop where
  format : ∀ v : Float, v.isFinite = true → (v == 0.0) = false →
    ∃ d : Decimal, Crates.ryu v = d.ryuText
  inj : ∀ v w : Float, v.isFinite = true → w.isFinite = true → (v == 0.0) = false →
    (w == 0.0) = false → Crates.ryu v = Crates.ryu w → v = w

/-- No two byte strings have the same SHA-256 digest. -/
def Sha256CollisionFree : Prop :=
  Function.Injective (Crates.sha256 : List UInt8 → List UInt8)

end Exodus.Model
