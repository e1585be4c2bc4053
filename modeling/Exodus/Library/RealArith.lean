import Exodus.Library.FloatArith

/-!
# Arithmetic on doubles, read in the reals

The reading of a computation in exact real arithmetic, for those that leave the rationals.
Rounding to the nearest integer, ties to the even one, keeps the order.
-/

set_option autoImplicit false

namespace Exodus.Library

/-- The integer nearest to `x`, ties to the even one. -/
noncomputable def roundHalfEvenReal (x : ℝ) : ℤ :=
  if x - ⌊x⌋ < ⌊x⌋ + 1 - x then ⌊x⌋
  else if ⌊x⌋ + 1 - x < x - ⌊x⌋ then ⌊x⌋ + 1
  else if ⌊x⌋ % 2 = 0 then ⌊x⌋
  else ⌊x⌋ + 1

/-- A number is rounded to one of its neighbours. -/
theorem floor_le_roundHalfEvenReal (x : ℝ) :
    ⌊x⌋ ≤ roundHalfEvenReal x ∧ roundHalfEvenReal x ≤ ⌊x⌋ + 1 := by
  unfold roundHalfEvenReal
  split_ifs <;> omega

/-- Rounding keeps the order. -/
theorem roundHalfEvenReal_mono : Monotone roundHalfEvenReal := by
  intro x y hxy
  have hfloor : ⌊x⌋ ≤ ⌊y⌋ := Int.floor_le_floor hxy
  rcases hfloor.lt_or_eq with hlt | heq
  · exact ((floor_le_roundHalfEvenReal x).2.trans hlt).trans (floor_le_roundHalfEvenReal y).1
  · -- between the same integers, the greater one is rounded down only if the other is
    unfold roundHalfEvenReal
    rw [heq]
    split_ifs <;> first | omega | (exfalso; linarith)

noncomputable instance : FloatArith ℝ where
  ofFloat f := (exactValue f : ℝ)
  literal q := q
  ofInt i := i
  abs x := |x|
  min a b := min a b
  roundTiesEven x := roundHalfEvenReal x
  isFinite _ := true
  le a b := decide (a ≤ b)
  lt a b := decide (a < b)
  eq a b := decide (a = b)

end Exodus.Library
