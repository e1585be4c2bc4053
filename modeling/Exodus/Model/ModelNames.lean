import Exodus.Model.Accounting
import Exodus.Model.Http

/-!
# `inference.rs`: what is read off the name of a model

The number of parameters is scanned from the lower-case name, the precision from tags such
as `4bit`; tokens are estimated from characters.  Parsing a double is a parameter.
-/

set_option autoImplicit false

namespace Exodus.Model

open Exodus.Library

/-- `str::parse::<f64>` -/
class FloatText where
  parseF64 : List Char → Option Float

/-! ## The number of parameters -/

/-- `char::is_ascii_digit` -/
def isAsciiDigit (c : Char) : Bool := '0' ≤ c && c ≤ '9'

/-- The digits at the start of a text, with a point and more digits behind them. -/
def numberToken (chars : List Char) : List Char :=
  let whole := chars.takeWhile isAsciiDigit
  match chars.dropWhile isAsciiDigit with
  | '.' :: rest => whole ++ '.' :: rest.takeWhile isAsciiDigit
  | _ => whole

/-- The text behind a number, past blanks, starts with `b` and not with `bit`. -/
def marksBillions (behind : List Char) : Bool :=
  let mark := behind.dropWhile (· = ' ')
  mark.head? = some 'b' && !("bit".toList.isPrefixOf mark)

/-- A number that starts with a digit has a character. -/
theorem length_numberToken_pos {c : Char} {rest : List Char} (h : isAsciiDigit c = true) :
    0 < (numberToken (c :: rest)).length := by
  unfold numberToken
  rw [List.takeWhile_cons_of_pos h]
  dsimp only
  split
  · exact Nat.succ_pos _
  · exact Nat.succ_pos _

section

variable [FloatText]

/-- The loop of `model_params_b` from some position on. -/
def scanParams (chars : List Char) (best : Option Float) : Option Float :=
  match chars with
  | [] => best
  | c :: rest =>
    if h : isAsciiDigit c = true then
      let number := numberToken (c :: rest)
      let behind := (c :: rest).drop number.length
      scanParams behind (if marksBillions behind then (FloatText.parseF64 number).or best else best)
    else scanParams rest best
termination_by chars.length
decreasing_by
  · have hpos : 0 < (numberToken (c :: rest)).length := length_numberToken_pos h
    simp only [List.length_drop, List.length_cons]
    omega
  · exact Nat.lt_succ_self _

def modelParamsB [RustText] (model : String) : Option Float :=
  scanParams (toLowercase model.toList) none

end

/-! ## Precision and work -/

/-- One of the tags occurs in the text. -/
def mentions (s : List Char) (tags : List String) : Bool :=
  tags.any fun tag => decide (tag.toList <:+: s)

def modelPrecision [RustText] (model : String) : Precision :=
  let s := toLowercase model.toList
  if mentions s ["2bit", "2-bit", "int2"] then .int2
  else if mentions s ["8bit", "8-bit", "int8"] then .int8
  else if mentions s ["4bit", "4-bit", "int4"] then .int4
  else .fp16

/-- The integer nearest to `q`, ties away from zero. -/
def roundHalfAway (q : ℚ) : ℤ := if 0 ≤ q then (q + 1 / 2).floor else (q - 1 / 2).ceil

/-- `as i64`: a finite double is cut towards zero, within the range. -/
def truncI64 (q : ℚ) : Int64 :=
  let i := if 0 ≤ q then q.floor else q.ceil
  Int64.ofInt (max (-2 ^ 63) (min i (2 ^ 63 - 1)))

/-- `((chars as f64) / 4.0).round().max(1.0) as i64` -/
def estimateTokens (chars : ℕ) : Int64 :=
  let quarter : Float := Float.ofNat chars / 4.0
  let rounded := Float.ofInt (roundHalfAway (exactValue quarter))
  truncI64 (exactValue (if rounded < 1.0 then 1.0 else rounded))

/-- Reference FLOPS for a completion. -/
def estimatedFlopsIn (K : Type) [FloatArith K] (paramsB : Float) (precision : Precision)
    (promptTokens completionTokens : Int64) : K :=
  FloatArith.literal 2 * FloatArith.ofFloat paramsB * FloatArith.literal 1000000000 *
    (FloatArith.ofInt promptTokens.toInt +
      FloatArith.ofInt completionTokens.toInt * FloatArith.literal 2) * precision.factor K

/-- `estimated_flops` as the program runs it. -/
def estimatedFlops (paramsB : Float) (precision : Precision)
    (promptTokens completionTokens : Int64) : Float :=
  estimatedFlopsIn Float paramsB precision promptTokens completionTokens

end Exodus.Model
