import Exodus.Interface.Sample
import Exodus.Model.Accounting

/-!
# What the FLOPS plausibility check guarantees

In exact rational arithmetic.  The check divides the deviation by the expected FLOPS
without looking at their sign, so with negative expected FLOPS every deviation passes; and
it compares with the device only when the claimed seconds are positive.  Apart from these
two cases an accepted claim is within the tolerance and no faster than its device.
-/

set_option autoImplicit false

namespace Exodus.Analysis

open Exodus.Library Exodus.Model

variable {claim : ContributionClaim} {t : ℚ}

/-- The claimed FLOPS, exactly. -/
def estimate (claim : ContributionClaim) : ℚ := exactValue claim.flopsEstimate.1

/-- The claimed seconds, exactly. -/
def seconds (claim : ContributionClaim) : ℚ := exactValue claim.computeSeconds.1

/-- The FLOPS that the device can do in the claimed time, with the tolerance. -/
def allowance (claim : ContributionClaim) (t : ℚ) : ℚ :=
  seconds claim * deviceTierFlopsPerSecond ℚ claim.deviceTier * (1 + t)

/-- What an accepted claim is to be. -/
structure Plausible (claim : ContributionClaim) (t : ℚ) : Prop where
  positive : 0 < expectedFlops ℚ claim
  close : |estimate claim - expectedFlops ℚ claim| ≤ t * expectedFlops ℚ claim
  possible : estimate claim ≤ allowance claim t

/-- The cases in which the check can be trusted: the claim is refused at once, the expected
FLOPS and the seconds are positive, or one of them is not and another test refuses it. -/
def Checkable (claim : ContributionClaim) (t : ℚ) : Prop :=
  estimate claim ≤ 0 ∨ expectedFlops ℚ claim = 0 ∨
    0 < expectedFlops ℚ claim ∧
      (0 < seconds claim ∨
        t * expectedFlops ℚ claim < |estimate claim - expectedFlops ℚ claim|) ∨
    expectedFlops ℚ claim < 0 ∧ 0 < seconds claim ∧ allowance claim t < estimate claim

/-- The check accepts exactly if each of its tests does. -/
theorem flopsIsPlausibleIn_iff (claim : ContributionClaim) (t : ℚ) :
    flopsIsPlausibleIn ℚ claim t = true ↔
      0 < estimate claim ∧ expectedFlops ℚ claim ≠ 0 ∧
        |estimate claim - expectedFlops ℚ claim| / expectedFlops ℚ claim ≤ t ∧
        (0 < seconds claim → estimate claim / seconds claim ≤
          deviceTierFlopsPerSecond ℚ claim.deviceTier * (1 + t)) := by
  have hle (a b : ℚ) : FloatArith.le a b = decide (a ≤ b) := rfl
  have hlt (a b : ℚ) : FloatArith.lt a b = decide (a < b) := rfl
  have heq (a b : ℚ) : FloatArith.eq a b = decide (a = b) := rfl
  have hzero : (FloatArith.literal 0 : ℚ) = 0 := rfl
  have hone : (FloatArith.literal 1 : ℚ) = 1 := rfl
  unfold flopsIsPlausibleIn
  simp only [hle, hlt, heq, hzero, hone, decide_eq_true_eq]
  show (if estimate claim ≤ 0 then false
    else if expectedFlops ℚ claim = 0 then false
    else if t < |estimate claim - expectedFlops ℚ claim| / expectedFlops ℚ claim then false
    else if 0 < seconds claim then
      !decide (deviceTierFlopsPerSecond ℚ claim.deviceTier * (1 + t) <
        estimate claim / seconds claim)
    else true) = true ↔ _
  by_cases hest : estimate claim ≤ 0
  · simp [hest, not_lt.mpr hest]
  by_cases hexp : expectedFlops ℚ claim = 0
  · simp [hest, hexp]
  by_cases hdev : t < |estimate claim - expectedFlops ℚ claim| / expectedFlops ℚ claim
  · simp [hest, hexp, hdev, not_le.mpr hdev]
  by_cases hsec : 0 < seconds claim
  · simp [hest, hexp, hdev, hsec, not_le.mp hest, not_lt.mp hdev]
  · simp [hest, hexp, hdev, hsec, not_le.mp hest, not_lt.mp hdev]

/-- Every device has some speed. -/
theorem deviceTierFlopsPerSecond_pos (tier : DeviceTier) : 0 < deviceTierFlopsPerSecond ℚ tier := by
  cases tier <;> decide +kernel

/-- With positive expected FLOPS and seconds the tests are the bounds. -/
theorem plausible_of_pos (hexp : 0 < expectedFlops ℚ claim) (hsec : 0 < seconds claim)
    (h : flopsIsPlausibleIn ℚ claim t = true) : Plausible claim t := by
  obtain ⟨-, -, hdev, hcap⟩ := (flopsIsPlausibleIn_iff claim t).mp h
  refine ⟨hexp, (div_le_iff₀ hexp).mp hdev, ?_⟩
  have hrate := (div_le_iff₀ hsec).mp (hcap hsec)
  rw [allowance]
  linarith

/-- The check is sound for a claim exactly when it is one of the checkable cases, under any
tolerance that is not negative. -/
theorem plausible_sound_iff (claim : ContributionClaim) (t : ℚ) (ht : 0 ≤ t) :
    (flopsIsPlausibleIn ℚ claim t = true → Plausible claim t) ↔ Checkable claim t := by
  constructor
  · intro hsound
    by_contra hnot
    simp only [Checkable, not_or, not_and, not_le, not_lt] at hnot
    obtain ⟨hest, hexp, hpos, hneg⟩ := hnot
    rcases lt_or_gt_of_ne hexp with hexp' | hexp'
    · -- negative expected FLOPS: the deviation is negative
      have hdev : |estimate claim - expectedFlops ℚ claim| / expectedFlops ℚ claim ≤ t :=
        le_trans (div_nonpos_of_nonneg_of_nonpos (abs_nonneg _) hexp'.le) ht
      have hcap : 0 < seconds claim → estimate claim / seconds claim ≤
          deviceTierFlopsPerSecond ℚ claim.deviceTier * (1 + t) := by
        intro hsec
        rw [div_le_iff₀ hsec]
        have hallowed := hneg hexp' hsec
        rw [allowance] at hallowed
        linarith
      have haccepted := (flopsIsPlausibleIn_iff claim t).mpr ⟨hest, hexp, hdev, hcap⟩
      exact absurd (hsound haccepted).positive hexp'.not_gt
    · -- no time claimed: the device is not asked
      obtain ⟨hsec, hclose⟩ := hpos hexp'
      have hdev := (div_le_iff₀ hexp').mpr hclose
      have haccepted := (flopsIsPlausibleIn_iff claim t).mpr
        ⟨hest, hexp, hdev, fun hsec' => absurd hsec' hsec.not_gt⟩
      have hallowed := (hsound haccepted).possible
      have hnone : allowance claim t ≤ 0 := by
        rw [allowance]
        have hrate := mul_pos (deviceTierFlopsPerSecond_pos claim.deviceTier)
          (by linarith : 0 < 1 + t)
        rw [mul_assoc]
        exact mul_nonpos_of_nonpos_of_nonneg hsec hrate.le
      linarith
  · intro hcheck haccepted
    obtain ⟨hest, hexp, hdev, hcap⟩ := (flopsIsPlausibleIn_iff claim t).mp haccepted
    rcases hcheck with hest' | hexp' | ⟨hexp', hsec | hfar⟩ | ⟨hexp', hsec, hfast⟩
    · exact absurd hest' (not_le.mpr hest)
    · exact absurd hexp' hexp
    · exact plausible_of_pos hexp' hsec haccepted
    · exact absurd ((div_le_iff₀ hexp').mp hdev) (not_le.mpr hfar)
    · have hrate := (div_le_iff₀ hsec).mp (hcap hsec)
      rw [allowance] at hfast
      linarith

end Exodus.Analysis

/-! ## On the sample -/

namespace Exodus.Analysis

open Exodus.Library Exodus.Model Exodus.Sample

/-- The first claim of the sample can be checked, and is plausible. -/
theorem first_checkable : Checkable firstClaim.claim (1 / 2) ∧
    (flopsIsPlausibleIn ℚ firstClaim.claim (1 / 2) = true → Plausible firstClaim.claim (1 / 2)) := by
  have hcheck : Checkable firstClaim.claim (1 / 2) := by
    refine .inr (.inr (.inl ⟨?_, .inl ?_⟩))
    · decide +kernel
    · decide +kernel
  exact ⟨hcheck, (plausible_sound_iff firstClaim.claim (1 / 2) (by norm_num)).mpr
    hcheck⟩

/-- The work of the first claim with one token less than none. -/
def minusOneToken : ContributionClaim := { firstClaim.claim with promptTokens := -1 }

/-- A claim of minus one token passes, in floating point and exactly, and is not plausible. -/
theorem minus_one_token_accepted : flopsIsPlausible minusOneToken 0.5 = true ∧
    flopsIsPlausibleIn ℚ minusOneToken (1 / 2) = true ∧ ¬Plausible minusOneToken (1 / 2) := by
  refine ⟨by decide +kernel, by decide +kernel, ?_⟩
  intro h
  have hneg : ¬0 < expectedFlops ℚ minusOneToken := by decide +kernel
  exact hneg h.positive

end Exodus.Analysis
