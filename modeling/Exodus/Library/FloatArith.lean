import Mathlib

/-!
# Arithmetic on doubles, read two ways

Lean's `Float` is IEEE binary64 with a logical model, so a computation on `f64`
values is translated with the same operations.  A statement "in exact rational
arithmetic" is about the same computation with `ℚ` in the place of `Float`.
`FloatArith K` lists the operations such a computation uses; `Float` is the
machine reading and `ℚ` the exact one.

`FiniteFloat` is the type of the doubles a JSON document can hold: a JSON number
is never an infinity or a NaN.
-/

set_option autoImplicit false

namespace Exodus.Library

/-- The doubles that are neither infinite nor NaN. -/
abbrev FiniteFloat : Type := { f : Float // f.isFinite = true }

/-- The rational a finite double denotes; `0` for the others. -/
def exactValue (f : Float) : ℚ :=
  match f.toModel.unpack with
  | .finite sign mantissa exponent _ => (sign.apply mantissa : ℚ) * (2 : ℚ) ^ exponent
  | _ => 0

/-- The integer nearest to `q`, ties to the even one. -/
def roundHalfEven (q : ℚ) : ℤ :=
  let below := q.floor
  if q - below < 1 / 2 then below
  else if 1 / 2 < q - below then below + 1
  else if below % 2 = 0 then below
  else below + 1

/-- Does the double carry a minus sign (`f64::is_sign_negative`)? -/
def isSignNegative (f : Float) : Bool :=
  decide (2 ^ 63 ≤ f.toBits.toNat)

/-- A double is determined by its bits. -/
theorem toBits_injective : Function.Injective Float.toBits := by
  rintro ⟨⟨v⟩⟩ ⟨⟨w⟩⟩ hbits
  simpa [Float.toBits] using hbits

section Zero

open Float.Model

/-- The bits of a zero are all clear but the sign. -/
theorem toNat_of_unpack_eq_zero {b : BitVec 64} {s : UnpackedFloat.Sign}
    (h : UnpackedFloat.unpack Format.binary64 b = .zero s) : b.toNat = 0 ∨ b.toNat = 2 ^ 63 := by
  unfold UnpackedFloat.unpack at h
  dsimp only at h
  split_ifs at h with h1 h2 h3 h4
  have hmantissa : b.toNat % 2 ^ 52 = 0 := by
    have := congrArg BitVec.toNat h4
    simpa [UnpackedFloat.unpackMantissa, BitVec.extractLsb, Format.binary64] using this
  have hexponent : b.toNat / 2 ^ 52 % 2 ^ 11 = 0 := by
    have := congrArg BitVec.toNat h3
    simpa [UnpackedFloat.unpackExponent, BitVec.extractLsb, Format.binary64,
      Nat.shiftRight_eq_div_pow] using this
  have := b.isLt
  omega

/-- What equals zero is one of the two zeros. -/
theorem unpack_of_beq_zero {v : Float} (h : (v == 0.0) = true) :
    ∃ s, v.toModel.unpack = .zero s := by
  have hbeq : v.toModel.unpack.beq (0.0 : Float).toModel.unpack = true := h
  have hzero : (0.0 : Float).toModel.unpack = .zero .positive := rfl
  rw [hzero] at hbeq
  unfold UnpackedFloat.beq UnpackedFloat.compare at hbeq
  cases hu : v.toModel.unpack with
  | zero s => exact ⟨s, rfl⟩
  | notANumber => simp [hu] at hbeq
  | infinity s => cases s <;> simp [hu] at hbeq
  | finite s m e hm => cases s <;> simp [hu] at hbeq

/-- The two zeros differ in their sign only. -/
theorem eq_of_beq_zero {v w : Float} (hv : (v == 0.0) = true) (hw : (w == 0.0) = true)
    (h : isSignNegative v = isSignNegative w) : v = w := by
  obtain ⟨s, hs⟩ := unpack_of_beq_zero hv
  obtain ⟨t, ht⟩ := unpack_of_beq_zero hw
  have hvbits : v.toBits.toNat = 0 ∨ v.toBits.toNat = 2 ^ 63 := toNat_of_unpack_eq_zero hs
  have hwbits : w.toBits.toNat = 0 ∨ w.toBits.toNat = 2 ^ 63 := toNat_of_unpack_eq_zero ht
  simp only [isSignNegative, decide_eq_decide] at h
  exact toBits_injective (UInt64.toNat_inj.mp (by omega))

/-- A finite double is neither NaN nor infinite. -/
theorem not_nan_of_isFinite {v : Float} (h : v.isFinite = true) :
    v.isNaN = false ∧ v.isInf = false := by
  have hfinite : v.toModel.unpack.isFinite = true := h
  show v.toModel.unpack.isNaN = false ∧ v.toModel.unpack.isInf = false
  cases hu : v.toModel.unpack <;>
    simp_all [UnpackedFloat.isFinite, UnpackedFloat.isNaN, UnpackedFloat.isInf]

end Zero

/-- `f64::round_ties_even`: a double of magnitude `2^52` or more is an integer already. -/
def roundTiesEven (f : Float) : Float :=
  if f.isFinite then
    let r := Float.ofInt (roundHalfEven (exactValue f))
    if r == 0.0 && isSignNegative f then -0.0 else r
  else f

/-- `f64::min`: the other operand when one is NaN. -/
def floatMin (a b : Float) : Float :=
  if a.isNaN then b else if b.isNaN then a else if b < a then b else a

/-- The operations of a floating-point computation, over the numbers `K` it is read in. -/
class FloatArith (K : Type) extends Add K, Sub K, Mul K, Div K where
  /-- a double that the computation reads -/
  ofFloat : Float → K
  /-- a decimal literal of the program text -/
  literal : ℚ → K
  /-- `as f64` on an integer -/
  ofInt : ℤ → K
  abs : K → K
  min : K → K → K
  roundTiesEven : K → K
  isFinite : K → Bool
  le : K → K → Bool
  lt : K → K → Bool
  eq : K → K → Bool

/-- The double nearest to a decimal literal. -/
def floatLiteral (q : ℚ) : Float :=
  Float.ofInt q.num / Float.ofInt q.den

instance : FloatArith Float where
  ofFloat f := f
  literal := floatLiteral
  ofInt := Float.ofInt
  abs := Float.abs
  min := floatMin
  roundTiesEven := roundTiesEven
  isFinite := Float.isFinite
  le a b := a.le b
  lt a b := a.lt b
  eq a b := a == b

instance : FloatArith ℚ where
  ofFloat := exactValue
  literal q := q
  ofInt i := i
  abs q := |q|
  min a b := if b < a then b else a
  roundTiesEven q := roundHalfEven q
  isFinite _ := true
  le a b := decide (a ≤ b)
  lt a b := decide (a < b)
  eq a b := decide (a = b)

example : floatLiteral (7 / 20) = (0.35 : Float) := by decide +kernel

example : roundTiesEven 2.5 = 2.0 := by decide +kernel

end Exodus.Library
