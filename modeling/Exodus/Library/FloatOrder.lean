import Mathlib

/-!
# The order of the doubles

Comparing two doubles that are not NaN is comparing two keys in a linear order: the class of
the double (negative infinity, negative, zero, positive, positive infinity), then its
exponent, then its mantissa.  So the doubles other than NaN are totally ordered by `<`, with
the two zeros as equals.
-/

set_option autoImplicit false

namespace Exodus.Library

open Float.Model

/-- The class of a double, its exponent and its mantissa, to be compared in this order. -/
def unpackedKey : UnpackedFloat → ℤ ×ₗ ℤ ×ₗ ℤ
  | .infinity .negative => toLex (-2, toLex (0, 0))
  | .finite .negative mantissa exponent _ => toLex (-1, toLex (-exponent, -(mantissa : ℤ)))
  | .finite .positive mantissa exponent _ => toLex (1, toLex (exponent, (mantissa : ℤ)))
  | .infinity .positive => toLex (2, toLex (0, 0))
  | _ => toLex (0, toLex (0, 0))

/-- Comparing is comparing the keys, NaN apart. -/
theorem unpacked_lt_iff {a b : UnpackedFloat} (ha : a.isNaN = false) (hb : b.isNaN = false) :
    a.lt b = true ↔ unpackedKey a < unpackedKey b := by
  rcases a with (_ | _) | _ | (_ | _) | ⟨_ | _, m, e, hm⟩ <;>
    rcases b with (_ | _) | _ | (_ | _) | ⟨_ | _, m', e', hm'⟩ <;>
    simp_all [UnpackedFloat.lt, UnpackedFloat.compare, unpackedKey, UnpackedFloat.isNaN,
      Prod.Lex.toLex_lt_toLex]
  case infinity.negative.infinity.positive => rfl
  case finite.negative.finite.negative =>
    rw [Ordering.then_eq_gt, compare_gt_iff_gt, compare_eq_iff_eq, compare_gt_iff_gt]
  case finite.positive.finite.positive =>
    rw [Ordering.then_eq_lt, compare_lt_iff_lt, compare_eq_iff_eq, compare_lt_iff_lt]

/-- Doubles other than NaN are equal if their keys are. -/
theorem unpacked_beq_iff {a b : UnpackedFloat} (ha : a.isNaN = false) (hb : b.isNaN = false) :
    a.beq b = true ↔ unpackedKey a = unpackedKey b := by
  rcases a with (_ | _) | _ | (_ | _) | ⟨_ | _, m, e, hm⟩ <;>
    rcases b with (_ | _) | _ | (_ | _) | ⟨_ | _, m', e', hm'⟩ <;>
    simp_all [UnpackedFloat.beq, UnpackedFloat.compare, unpackedKey, UnpackedFloat.isNaN]
  case infinity.negative.infinity.negative => rfl
  case infinity.positive.infinity.positive => rfl

/-- The place of a double in the order. -/
def orderKey (f : Float) : ℤ ×ₗ ℤ ×ₗ ℤ := unpackedKey f.toModel.unpack

/-- Comparing is comparing the places in the order. -/
theorem lt_iff_orderKey_lt {a b : Float} (ha : a.isNaN = false) (hb : b.isNaN = false) :
    a < b ↔ orderKey a < orderKey b := by
  rw [orderKey, orderKey, ← unpacked_lt_iff ha hb]
  show a.lt b = true ↔ _
  rw [Float.lt, decide_eq_true_iff]
  exact Iff.rfl

/-- Doubles other than NaN are equal if their places in the order are. -/
theorem beq_iff_orderKey_eq {a b : Float} (ha : a.isNaN = false) (hb : b.isNaN = false) :
    (a == b) = true ↔ orderKey a = orderKey b := by
  rw [orderKey, orderKey, ← unpacked_beq_iff ha hb]
  exact Iff.rfl

/-- No double is less than itself, NaN included. -/
theorem float_lt_irrefl (a : Float) : ¬ a < a := by
  have hunpacked (x : UnpackedFloat) : x.lt x = false := by
    rcases x with (_ | _) | _ | (_ | _) | ⟨_ | _, m, e, hm⟩ <;>
      simp [UnpackedFloat.lt, UnpackedFloat.compare]
  intro h
  have hlt : a.lt a = true := h
  rw [Float.lt, decide_eq_true_iff] at hlt
  exact Bool.false_ne_true ((hunpacked a.toModel.unpack).symm.trans hlt)

end Exodus.Library
