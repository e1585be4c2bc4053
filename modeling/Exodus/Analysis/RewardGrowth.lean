import Exodus.Analysis.Credit
import Exodus.Analysis.RewardReport
import Exodus.Analysis.Views
import Exodus.Library.RealArith

/-!
# Contributing never lowers an entitlement

In exact real arithmetic.  The credits of a node grow with its verified compute and fall with
the age of its last claim, and everything an entitlement grants grows with the credits.  A
block adds claims and makes the last claim of a node no older, so if its claims are credible
then no node is entitled to less than before (`contribution_never_lowers`).  The decay factor
itself may fall: a node without claims has the factor 1.
-/

set_option autoImplicit false

namespace Exodus.Analysis

open Exodus.Library Exodus.Model Exodus.Interface

noncomputable instance : RewardArith ℝ where
  powf x y := x ^ y
  log2 x := Real.logb 2 x
  max a b := max a b
  asI64 x := saturateI64 (if 0 ≤ x then ⌊x⌋ else -⌊-x⌋)

/-! ## The curve -/

section Curve

variable {cu cu' age age' halflife credits credits' : ℝ} {config : RewardConfig}

/-- The credit curve on the reals is a power. -/
theorem creditCurve_real (cu : ℝ) (config : RewardConfig) : creditCurve ℝ cu config =
    if cu ≤ 0 then 0
    else (exactValue config.creditsPerCu : ℝ) * cu ^ (exactValue config.rewardDiminishing : ℝ) := by
  have hunfold : creditCurve ℝ cu config =
      if decide (cu ≤ ((0 : ℚ) : ℝ)) = true then ((0 : ℚ) : ℝ)
      else (exactValue config.creditsPerCu : ℝ) *
        cu ^ (exactValue config.rewardDiminishing : ℝ) := rfl
  rw [hunfold]
  simp only [Rat.cast_zero, decide_eq_true_eq]

/-- The decay on the reals is a power of a half. -/
theorem decayFactor_real (age halflife : ℝ) : decayFactor ℝ age halflife =
    if halflife ≤ 0 then 1 else (1 / 2 : ℝ) ^ (max age 0 / halflife) := by
  have hunfold : decayFactor ℝ age halflife =
      if decide (halflife ≤ ((0 : ℚ) : ℝ)) = true then ((1 : ℚ) : ℝ)
      else (((1 / 2 : ℚ) : ℝ)) ^ (max age ((0 : ℚ) : ℝ) / halflife) := rfl
  rw [hunfold]
  simp only [Rat.cast_zero, Rat.cast_one, decide_eq_true_eq, Rat.cast_div, Rat.cast_ofNat]

/-- Credits are not negative. -/
theorem creditCurve_nonneg (hrate : 0 ≤ exactValue config.creditsPerCu) (cu : ℝ) :
    0 ≤ creditCurve ℝ cu config := by
  rw [creditCurve_real]
  split_ifs with h
  · exact le_rfl
  · exact mul_nonneg (by exact_mod_cast hrate) (Real.rpow_nonneg (not_le.mp h).le _)

/-- More units give no fewer credits. -/
theorem creditCurve_mono (hrate : 0 ≤ exactValue config.creditsPerCu)
    (hdim : 0 ≤ exactValue config.rewardDiminishing) (h : cu ≤ cu') :
    creditCurve ℝ cu config ≤ creditCurve ℝ cu' config := by
  by_cases hcu : cu ≤ 0
  · rw [creditCurve_real cu, if_pos hcu]
    exact creditCurve_nonneg hrate cu'
  · have hpos : 0 < cu := not_le.mp hcu
    rw [creditCurve_real, if_neg hcu, creditCurve_real, if_neg (not_le.mpr (hpos.trans_le h))]
    have hpow : cu ^ (exactValue config.rewardDiminishing : ℝ) ≤
        cu' ^ (exactValue config.rewardDiminishing : ℝ) :=
      Real.rpow_le_rpow hpos.le h (by exact_mod_cast hdim)
    exact mul_le_mul_of_nonneg_left hpow (by exact_mod_cast hrate)

/-- The decay is not negative. -/
theorem decayFactor_nonneg (age halflife : ℝ) : 0 ≤ decayFactor ℝ age halflife := by
  rw [decayFactor_real]
  split_ifs
  · exact zero_le_one
  · positivity

/-- It falls with the age. -/
theorem decayFactor_anti (h : age' ≤ age) :
    decayFactor ℝ age halflife ≤ decayFactor ℝ age' halflife := by
  rw [decayFactor_real, decayFactor_real]
  split_ifs with hlife
  · exact le_rfl
  · apply Real.rpow_le_rpow_of_exponent_ge (by norm_num) (by norm_num)
    have hpos : 0 < halflife := not_le.mp hlife
    gcongr

/-! ## Tiers -/

/-- The logarithm that the tier is read from. -/
noncomputable def tierLog (credits : ℝ) : ℝ := Real.logb 2 (1 + credits / 100)

/-- On the reals the tier is the logarithm rounded towards zero, one more, and capped. -/
theorem priorityTier_real (credits : ℝ) (levels : Int64) : priorityTier ℝ credits levels =
    if credits ≤ 0 then 0
    else min (saturateI64 (if 0 ≤ tierLog credits then ⌊tierLog credits⌋
      else -⌊-tierLog credits⌋) + 1) (max (levels - 1) 1) := by
  have hunfold : priorityTier ℝ credits levels =
      if decide (credits ≤ ((0 : ℚ) : ℝ)) = true then 0
      else min (saturateI64
        (if 0 ≤ Real.logb 2 (((1 : ℚ) : ℝ) + credits / ((100 : ℚ) : ℝ))
          then ⌊Real.logb 2 (((1 : ℚ) : ℝ) + credits / ((100 : ℚ) : ℝ))⌋
          else -⌊-Real.logb 2 (((1 : ℚ) : ℝ) + credits / ((100 : ℚ) : ℝ))⌋) + 1)
        (max (levels - 1) 1) := rfl
  rw [hunfold]
  simp only [Rat.cast_zero, Rat.cast_one, Rat.cast_ofNat, decide_eq_true_eq, tierLog]
  congr

/-- The smaller of two `i64` has the smaller value. -/
theorem toInt_min (a b : Int64) : (min a b).toInt = min a.toInt b.toInt := by
  have hdef : min a b = if a ≤ b then a else b := rfl
  rw [hdef, min_def]
  simp only [Int64.le_iff_toInt_le]
  split_ifs <;> rfl

/-- A sum within the range does not wrap around. -/
theorem toInt_add_of_range {a b : Int64} (hlow : -2 ^ 63 ≤ a.toInt + b.toInt)
    (hhigh : a.toInt + b.toInt < 2 ^ 63) : (a + b).toInt = a.toInt + b.toInt := by
  rw [Int64.toInt_add]
  exact Int.bmod_eq_of_le (by omega) (by omega)

/-- The cast does not saturate within the range. -/
theorem toInt_saturateI64 {i : ℤ} (hlow : -2 ^ 63 ≤ i) (hhigh : i < 2 ^ 63) :
    (saturateI64 i).toInt = i := by
  rw [saturateI64, if_neg (by omega), if_neg (by omega), Int64.toInt_ofInt]
  exact Int.bmod_eq_of_le (by simp [Int64.size]; omega) (by simp [Int64.size]; omega)

/-- The logarithm of the tier is not negative. -/
theorem tierLog_nonneg (h : 0 < credits) : 0 ≤ tierLog credits :=
  Real.logb_nonneg (by norm_num) (by linarith)

/-- It grows with the credits. -/
theorem tierLog_mono (hpos : 0 < credits) (h : credits ≤ credits') :
    tierLog credits ≤ tierLog credits' := by
  refine (Real.logb_le_logb (by norm_num) ?_ ?_).mpr ?_ <;> linarith

/-- Credits in the range of the doubles have a small logarithm. -/
theorem tierLog_lt (hpos : 0 < credits) (h : credits ≤ 2 ^ 1024 + 1) : tierLog credits < 1025 := by
  rw [tierLog, Real.logb_lt_iff_lt_rpow (by norm_num) (by linarith)]
  have hpow : (2 : ℝ) ^ (1025 : ℝ) = 2 * 2 ^ 1024 := by
    rw [show (1025 : ℝ) = ((1025 : ℕ) : ℝ) by norm_num, Real.rpow_natCast, pow_succ']
  have hone : (1 : ℝ) ≤ 2 ^ 1024 := one_le_pow₀ (by norm_num)
  rw [hpow]
  generalize (2 : ℝ) ^ 1024 = bound at h hone
  linarith

/-- For positive credits the cast of the logarithm does not saturate. -/
theorem priorityTier_toInt (levels : Int64) (hpos : 0 < credits) (h : credits ≤ 2 ^ 1024 + 1) :
    (priorityTier ℝ credits levels).toInt =
      min (⌊tierLog credits⌋ + 1) (max (levels - 1) 1).toInt := by
  have hlog := tierLog_nonneg hpos
  have hfloor : 0 ≤ ⌊tierLog credits⌋ := Int.floor_nonneg.mpr hlog
  have hfloor' : ⌊tierLog credits⌋ < 1025 := Int.floor_lt.mpr (by exact_mod_cast tierLog_lt hpos h)
  have hone : (1 : Int64).toInt = 1 := rfl
  have hsat : (saturateI64 ⌊tierLog credits⌋).toInt = ⌊tierLog credits⌋ :=
    toInt_saturateI64 (by omega) (by omega)
  rw [priorityTier_real, if_neg (not_le.mpr hpos), if_pos hlog, toInt_min,
    toInt_add_of_range (by omega) (by omega), hsat, hone]

/-- Tiers are between 0 and the last level, and grow with the credits. -/
theorem priorityTier_mono (levels : Int64) (h : credits ≤ credits') (hrange : credits' ≤ 2 ^ 1024 + 1) :
    0 ≤ (priorityTier ℝ credits levels).toInt ∧
      (priorityTier ℝ credits levels).toInt ≤ (priorityTier ℝ credits' levels).toInt ∧
      (priorityTier ℝ credits' levels).toInt ≤ 1025 := by
  have hone : (1 : Int64).toInt = 1 := rfl
  have hzero : (0 : Int64).toInt = 0 := rfl
  have htop : 1 ≤ (max (levels - 1) 1).toInt := by
    rw [toInt_max, hone]
    exact le_max_right _ _
  have htier : ∀ x : ℝ, 0 < x → x ≤ 2 ^ 1024 + 1 → 0 ≤ (priorityTier ℝ x levels).toInt ∧
      (priorityTier ℝ x levels).toInt ≤ 1025 := by
    intro x hx hx'
    have hlow : 0 ≤ ⌊tierLog x⌋ := Int.floor_nonneg.mpr (tierLog_nonneg hx)
    have hhigh : ⌊tierLog x⌋ < 1025 := Int.floor_lt.mpr (by exact_mod_cast tierLog_lt hx hx')
    rw [priorityTier_toInt levels hx hx']
    omega
  have hnone : ∀ x : ℝ, x ≤ 0 → (priorityTier ℝ x levels).toInt = 0 := by
    intro x hx
    rw [priorityTier_real, if_pos hx, hzero]
  by_cases hpos' : credits' ≤ 0
  · rw [hnone _ hpos', hnone _ (h.trans hpos')]
    omega
  · obtain ⟨hlow', hhigh'⟩ := htier credits' (not_le.mp hpos') hrange
    by_cases hpos : credits ≤ 0
    · rw [hnone _ hpos]
      omega
    · have hmono := Int.floor_le_floor (tierLog_mono (not_le.mp hpos) h)
      refine ⟨(htier credits (not_le.mp hpos) (h.trans hrange)).1, ?_, hhigh'⟩
      rw [priorityTier_toInt levels (not_le.mp hpos) (h.trans hrange),
        priorityTier_toInt levels (not_le.mp hpos') hrange]
      omega

/-! ## Entitlements -/

/-- Rounding on the reals is to the nearest decimal, ties to even. -/
theorem roundF64_real (x : ℝ) {digits : ℕ} (h : digits ≠ 0) :
    roundF64 ℝ x digits = roundHalfEvenReal (x * 10 ^ digits) / 10 ^ digits := by
  have hunfold : roundF64 ℝ x digits = if (!true) = true then x
      else if digits = 0 then ((roundHalfEvenReal x : ℤ) : ℝ)
      else ((roundHalfEvenReal (x * (((10 ^ digits : ℚ)) : ℝ)) : ℤ) : ℝ) /
        (((10 ^ digits : ℚ)) : ℝ) := rfl
  rw [hunfold, if_neg (by decide), if_neg h]
  push_cast
  rfl

/-- Rounding keeps the order. -/
theorem roundF64_mono {digits : ℕ} (h : digits ≠ 0) {x y : ℝ} (hxy : x ≤ y) :
    roundF64 ℝ x digits ≤ roundF64 ℝ y digits := by
  rw [roundF64_real x h, roundF64_real y h]
  have hround : roundHalfEvenReal (x * 10 ^ digits) ≤ roundHalfEvenReal (y * 10 ^ digits) :=
    roundHalfEvenReal_mono (by gcongr)
  gcongr

/-- Rounding to six decimals moves a number by no more than one. -/
theorem abs_roundF64_sub_le (x : ℝ) : |roundF64 ℝ x 6 - x| ≤ 1 := by
  have hlow : (⌊x * 10 ^ 6⌋ : ℝ) ≤ roundHalfEvenReal (x * 10 ^ 6) :=
    Int.cast_le.mpr (floor_le_roundHalfEvenReal (x * 10 ^ 6)).1
  have hhigh : (roundHalfEvenReal (x * 10 ^ 6) : ℝ) ≤ ⌊x * 10 ^ 6⌋ + 1 := by
    have hcast := Int.cast_le (R := ℝ) |>.mpr (floor_le_roundHalfEvenReal (x * 10 ^ 6)).2
    rwa [Int.cast_add, Int.cast_one] at hcast
  have hfloor := Int.floor_le (x * 10 ^ 6)
  have hfloor' := Int.lt_floor_add_one (x * 10 ^ 6)
  rw [roundF64_real x (by decide), abs_sub_le_iff, sub_le_iff_le_add, div_le_iff₀ (by positivity),
    sub_le_comm, le_div_iff₀ (by positivity)]
  constructor <;> linarith

/-- Nothing that an entitlement grants is less than in another one, and the last activity is
not an earlier text. -/
structure AtLeast (e' e : Entitlement ℝ) : Prop where
  verifiedCu : e.verifiedCu ≤ e'.verifiedCu
  creditsRaw : e.creditsRaw ≤ e'.creditsRaw
  credits : e.credits ≤ e'.credits
  aiTimeSeconds : e.aiTimeSeconds ≤ e'.aiTimeSeconds
  priorityTier : e.priorityTier ≤ e'.priorityTier
  concurrencyQuota : e.concurrencyQuota ≤ e'.concurrencyQuota
  schedulingPriority : e.schedulingPriority ≤ e'.schedulingPriority
  lastActivity : ∀ t ∈ e.lastActivity, ∃ t' ∈ e'.lastActivity, t ≤ t'

/-- The credits before they are rounded. -/
noncomputable def exactCredits (config : RewardConfig) (cu age : ℝ) : ℝ :=
  creditCurve ℝ cu config *
    decayFactor ℝ age (exactValue config.creditHalflifeSeconds : ℝ)

/-- More compute and a later last claim give more credits; without compute there are none. -/
theorem exactCredits_mono (hrate : 0 ≤ exactValue config.creditsPerCu)
    (hdim : 0 ≤ exactValue config.rewardDiminishing) (hcu : cu ≤ cu')
    (hage : age' ≤ age ∨ cu ≤ 0) : exactCredits config cu age ≤ exactCredits config cu' age' := by
  have hraw := creditCurve_nonneg hrate cu'
  rcases hage with hage | hnone
  · exact mul_le_mul (creditCurve_mono hrate hdim hcu) (decayFactor_anti hage)
      (decayFactor_nonneg _ _) hraw
  · rw [exactCredits, creditCurve_real, if_pos hnone, zero_mul]
    exact mul_nonneg hraw (decayFactor_nonneg _ _)

/-- The quota is the tier and one more, the priority ten times the tier and the quota. -/
theorem concurrencyQuota_toInt {tier : Int64} (hlow : 0 ≤ tier.toInt) (hhigh : tier.toInt ≤ 1025) :
    (concurrencyQuota tier 1).toInt = tier.toInt + 1 := by
  have hone : (1 : Int64).toInt = 1 := rfl
  rw [concurrencyQuota, toInt_max, toInt_add_of_range (by omega) (by omega), hone]
  omega

/-- On the reals the scheduling priority is not rounded. -/
theorem schedulingPriority_real (tier quota : Int64) :
    schedulingPriority ℝ tier quota = (tier.toInt : ℝ) * 10 + quota.toInt := by
  have hunfold : schedulingPriority ℝ tier quota =
      (tier.toInt : ℝ) * ((10 : ℚ) : ℝ) + (quota.toInt : ℝ) := rfl
  rw [hunfold, Rat.cast_ofNat]

/-- An entitlement on the reals is made from the credits, which are named here. -/
theorem entitlementOf_real (config : RewardConfig) (id : String) (cu age : ℝ)
    (last : Option String) : entitlementOf ℝ config id cu age last =
      let tier := priorityTier ℝ (exactCredits config cu age) config.maxPriorityLevels
      { nodeId := id
        verifiedCu := roundF64 ℝ cu 6
        creditsRaw := roundF64 ℝ (creditCurve ℝ cu config) 6
        decayFactor := roundF64 ℝ (decayFactor ℝ age (exactValue config.creditHalflifeSeconds : ℝ)) 6
        credits := roundF64 ℝ (exactCredits config cu age) 6
        aiTimeSeconds := roundF64 ℝ ((exactValue config.freeQuotaSeconds : ℝ) +
          exactCredits config cu age * (exactValue config.secondsPerCredit : ℝ)) 3
        priorityTier := tier
        concurrencyQuota := concurrencyQuota tier 1
        schedulingPriority := roundF64 ℝ (schedulingPriority ℝ tier (concurrencyQuota tier 1)) 3
        lastActivity := last } := rfl

/-- An entitlement does not fall when the units grow and the last claim is no older. -/
theorem entitlementOf_mono (id : String) {last last' : Option String}
    (hrate : 0 ≤ exactValue config.creditsPerCu)
    (hdim : 0 ≤ exactValue config.rewardDiminishing)
    (htime : 0 ≤ exactValue config.secondsPerCredit) (hcu : cu ≤ cu')
    (hage : age' ≤ age ∨ cu ≤ 0) (hlast : ∀ t ∈ last, ∃ t' ∈ last', t ≤ t')
    (hrange : (entitlementOf ℝ config id cu' age' last').credits ≤ 2 ^ 1024) :
    AtLeast (entitlementOf ℝ config id cu' age' last') (entitlementOf ℝ config id cu age last) := by
  rw [entitlementOf_real] at hrange
  dsimp only at hrange
  have hcredits := exactCredits_mono hrate hdim hcu hage
  have hbound : exactCredits config cu' age' ≤ 2 ^ 1024 + 1 := by
    have hround := (abs_sub_le_iff.mp (abs_roundF64_sub_le (exactCredits config cu' age'))).2
    exact (sub_le_iff_le_add'.mp hround).trans (add_le_add hrange le_rfl)
  obtain ⟨hlow, htier, hhigh⟩ := priorityTier_mono config.maxPriorityLevels hcredits hbound
  have hquota := concurrencyQuota_toInt hlow (htier.trans hhigh)
  have hquota' := concurrencyQuota_toInt (hlow.trans htier) hhigh
  have htime' : (0 : ℝ) ≤ (exactValue config.secondsPerCredit : ℝ) := by exact_mod_cast htime
  rw [entitlementOf_real, entitlementOf_real]
  exact {
    verifiedCu := roundF64_mono (show 6 ≠ 0 by decide) hcu
    creditsRaw := roundF64_mono (show 6 ≠ 0 by decide) (creditCurve_mono hrate hdim hcu)
    credits := roundF64_mono (show 6 ≠ 0 by decide) hcredits
    aiTimeSeconds := by
      refine roundF64_mono (show 3 ≠ 0 by decide) ?_
      exact add_le_add le_rfl (mul_le_mul_of_nonneg_right hcredits htime')
    priorityTier := Int64.le_iff_toInt_le.mpr htier
    concurrencyQuota := by
      rw [Int64.le_iff_toInt_le, hquota, hquota']
      omega
    schedulingPriority := by
      refine roundF64_mono (show 3 ≠ 0 by decide) ?_
      rw [schedulingPriority_real, schedulingPriority_real, hquota, hquota']
      have hcast : ((priorityTier ℝ (exactCredits config cu age)
          config.maxPriorityLevels).toInt : ℝ) ≤
          (priorityTier ℝ (exactCredits config cu' age') config.maxPriorityLevels).toInt := by
        exact_mod_cast htier
      push_cast
      linarith
    lastActivity := hlast }

end Curve

/-! ## The claims of a node after a block -/

section Rows

variable [Crates] {st st' : ChainStore} {chain : List Checkpoint} {c : Checkpoint}

omit [Crates] in
/-- Claims are ordered by height and, within a block, by number. -/
theorem before_iff (a b : ClaimRow) : a.before b = true ↔
    a.height < b.height ∨ a.height = b.height ∧ a.seq.toInt ≤ b.seq.toInt := by
  rw [ClaimRow.before, decide_eq_true_eq, Int64.le_iff_toInt_le]

omit [Crates] in
/-- The order of claims is transitive. -/
theorem before_trans (a b c : ClaimRow) (hab : a.before b = true) (hbc : b.before c = true) :
    a.before c = true := by
  rw [before_iff] at *
  omega

omit [Crates] in
/-- It is total. -/
theorem before_total (a b : ClaimRow) : (a.before b || b.before a) = true := by
  rw [Bool.or_eq_true, before_iff, before_iff]
  omega

omit [Crates] in
/-- No two rows of a node stand at the same place of the order. -/
theorem before_antisymm (st : ChainStore) {id : String} {a b : ClaimRow}
    (ha : a ∈ st.claims.filter fun r => r.nodeId = id)
    (hb : b ∈ st.claims.filter fun r => r.nodeId = id) (hab : a.before b = true)
    (hba : b.before a = true) : a = b := by
  rw [List.mem_filter, decide_eq_true_eq] at ha hb
  rw [before_iff] at hab hba
  have hseq : a.seq = b.seq := Int64.toInt_inj.mp (by omega)
  apply List.inj_on_of_nodup_map st.nodeSeqs_nodup ha.1 hb.1
  rw [ClaimRow.nodeSeq, ClaimRow.nodeSeq, ha.2, hb.2, hseq]

/-- The claims of a node after a block are those before it, and then those of the block. -/
theorem claimsForNode_append (h : Refines st chain) (happ : st.append c = .ok st') (id : String) :
    ∃ more, st'.claimsForNode id = st.claimsForNode id ++ more := by
  have h' : Refines st' (chain ++ [c]) := (h.append_ok happ).2
  have hclaims : st'.claims = st.claims ++ claimRows c := by
    rw [h'.claims_eq, h.claims_eq, List.flatMap_append, List.flatMap_singleton]
  have hsplit : (st'.claims.filter fun r => decide (r.nodeId = id)) =
      (st.claims.filter fun r => decide (r.nodeId = id)) ++
        (claimRows c).filter fun r => decide (r.nodeId = id) := by
    rw [hclaims, List.filter_append]
  -- both sides are sorted, and they are permutations of each other
  have hsorted : (st'.claims.filter fun r => decide (r.nodeId = id)).mergeSort ClaimRow.before =
      (st.claims.filter fun r => decide (r.nodeId = id)).mergeSort ClaimRow.before ++
        ((claimRows c).filter fun r => decide (r.nodeId = id)).mergeSort ClaimRow.before := by
    have hperm : ((st'.claims.filter fun r => decide (r.nodeId = id)).mergeSort
        ClaimRow.before).Perm
        ((st.claims.filter fun r => decide (r.nodeId = id)).mergeSort ClaimRow.before ++
          ((claimRows c).filter fun r => decide (r.nodeId = id)).mergeSort ClaimRow.before) := by
      refine (List.mergeSort_perm _ _).trans ?_
      rw [hsplit]
      exact ((List.mergeSort_perm _ _).append (List.mergeSort_perm _ _)).symm
    refine hperm.eq_of_pairwise ?_ (List.pairwise_mergeSort before_trans before_total _) ?_
    · intro a b ha hb hab hba
      exact before_antisymm st' (List.mem_mergeSort.mp ha)
        (List.mem_mergeSort.mp (hperm.mem_iff.mpr hb)) hab hba
    · rw [List.pairwise_append]
      refine ⟨List.pairwise_mergeSort before_trans before_total _,
        List.pairwise_mergeSort before_trans before_total _, ?_⟩
      intro a ha b hb
      have ha' := (List.mem_filter.mp (List.mem_mergeSort.mp ha)).1
      have hb' := (List.mem_filter.mp (List.mem_mergeSort.mp hb)).1
      rw [before_iff]
      left
      -- the rows of the new block are above the others
      rw [h.claims_eq, List.mem_flatMap] at ha'
      obtain ⟨b', hb'', hrow⟩ := ha'
      have hpairs := pairwise_height (LedgerChain.linked h'.chain_ok)
      rw [height_of_mem_claimRows hrow, height_of_mem_claimRows hb']
      exact (List.pairwise_append.mp hpairs).2.2 b' hb'' c (List.mem_singleton.mpr rfl)
  exact ⟨_, by rw [ChainStore.claimsForNode, hsorted, List.map_append, ChainStore.claimsForNode]⟩

/-! ## The last claim of a node -/

variable [RewardCrates] {clock : RewardClock}

omit [Crates] in
/-- The last claim gets no earlier as claims are added. -/
theorem latestInstant_mono (clock : RewardClock) (claims : List (ClaimRecord × ℕ)) (cur : Instant) :
    ∃ last, claims.foldl (RewardEngine.latestInstant clock) (some cur) = some last ∧
      cur.seconds ≤ last.seconds := by
  induction claims generalizing cur with
  | nil => exact ⟨cur, rfl, le_rfl⟩
  | cons c rest ih =>
    have hturn : ∃ next, RewardEngine.latestInstant clock (some cur) c = some next ∧
        cur.seconds ≤ next.seconds := by
      unfold RewardEngine.latestInstant
      cases c.1.endedAt with
      | none => exact ⟨cur, rfl, le_rfl⟩
      | some e =>
        dsimp only
        split_ifs with hafter
        · exact ⟨cur, rfl, le_rfl⟩
        · refine ⟨_, rfl, ?_⟩
          simp only [Instant.after, decide_eq_true_eq, not_or, not_lt] at hafter
          exact hafter.1
    obtain ⟨next, heq, hle⟩ := hturn
    obtain ⟨last, hlast, hle'⟩ := ih next
    rw [List.foldl_cons, heq]
    exact ⟨last, hlast, hle.trans hle'⟩

omit [RewardCrates] [Crates] in
/-- Looking at more claims makes the latest text no smaller. -/
theorem latestText_mono (claims : List ClaimRecord) (cur : String) :
    ∃ last, claims.foldl RewardEngine.latestText (some cur) = some last ∧ cur ≤ last := by
  induction claims generalizing cur with
  | nil => exact ⟨cur, rfl, le_rfl⟩
  | cons c rest ih =>
    have hturn : ∃ next, RewardEngine.latestText (some cur) c = some next ∧ cur ≤ next := by
      unfold RewardEngine.latestText
      cases c.endedAt with
      | none => exact ⟨cur, rfl, le_rfl⟩
      | some e =>
        dsimp only
        split_ifs with hlt
        · exact ⟨cur, rfl, le_rfl⟩
        · exact ⟨e, rfl, not_lt.mp hlt⟩
    obtain ⟨next, heq, hle⟩ := hturn
    obtain ⟨last, hlast, hle'⟩ := ih next
    rw [List.foldl_cons, heq]
    exact ⟨last, hlast, hle.trans hle'⟩

/-- A block makes the last claim of a node no older. -/
theorem lastClaim_append (h : Refines st chain) (happ : st.append c = .ok st') {id : String}
    {last : Instant} (hlast : RewardEngine.lastClaim st id clock = some last) :
    ∃ last', RewardEngine.lastClaim st' id clock = some last' ∧ last.seconds ≤ last'.seconds := by
  obtain ⟨more, hmore⟩ := claimsForNode_append h happ id
  unfold RewardEngine.lastClaim at hlast ⊢
  rw [hmore, List.zipIdx_append, List.foldl_append, hlast]
  exact latestInstant_mono clock _ last

omit [RewardCrates] in
/-- It makes the text of its last activity no smaller. -/
theorem lastActivity_append (h : Refines st chain) (happ : st.append c = .ok st') {id text : String}
    (hlast : RewardEngine.lastActivity st id = some text) :
    ∃ text', RewardEngine.lastActivity st' id = some text' ∧ text ≤ text' := by
  obtain ⟨more, hmore⟩ := claimsForNode_append h happ id
  unfold RewardEngine.lastActivity at hlast ⊢
  rw [hmore, List.foldl_append, hlast]
  exact latestText_mono more text

variable [SerdeReadsBack]

omit [RewardCrates] in
/-- Every stored claim says when it ended. -/
theorem endedAt_of_mem (h : Refines st chain) {id : String} {r : ClaimRecord}
    (hr : r ∈ st.claimsForNode id) : ∃ text, r.endedAt = some text := by
  obtain ⟨row, hrow, rfl⟩ := List.mem_map.mp hr
  have hmem := (List.mem_filter.mp (List.mem_mergeSort.mp hrow)).1
  rw [h.claims_eq, List.mem_flatMap] at hmem
  obtain ⟨b, -, hb⟩ := hmem
  obtain ⟨s, -, rfl⟩ := List.mem_map.mp hb
  have hread : Crates.jsonFromStr (ChainStore.claimRow b.height s).claimJson =
      some s.claim.toValue :=
    SerdeReadsBack.from_to _ (contributionClaim_toValue_wellFormed s.claim)
  refine ⟨s.claim.endedAt, ?_⟩
  rw [ClaimRecord.endedAt, ClaimRow.record, hread]
  rfl

/-- A node without a last claim has no claims. -/
theorem claims_nil_of_lastClaim (h : Refines st chain) {id : String}
    (hnone : RewardEngine.lastClaim st id clock = none) :
    (st.claims.filter fun r => decide (r.nodeId = id)) = [] := by
  have hnil : st.claimsForNode id = [] := by
    cases hclaims : st.claimsForNode id with
    | nil => rfl
    | cons r rest =>
      have hmem : r ∈ st.claimsForNode id := by
        rw [hclaims]
        exact List.mem_cons_self
      obtain ⟨text, htext⟩ := endedAt_of_mem h hmem
      have hfirst : RewardEngine.latestInstant clock none (r, 0) =
          some (RewardEngine.parseUtc text (clock.unparsed 0)) := by
        unfold RewardEngine.latestInstant
        rw [htext]
      obtain ⟨last, hlast, -⟩ := latestInstant_mono clock (rest.zipIdx 1)
        (RewardEngine.parseUtc text (clock.unparsed 0))
      rw [RewardEngine.lastClaim, hclaims, List.zipIdx_cons, List.foldl_cons, hfirst, hlast] at hnone
      cases hnone
  rw [ChainStore.claimsForNode, List.map_eq_nil_iff] at hnil
  exact List.eq_nil_of_length_eq_zero (by simpa using congrArg List.length hnil)

end Rows

/-! ## Blocks -/

section Blocks

variable [Crates] [RewardCrates] {n : Node} {c : Checkpoint} {st' : ChainStore}

/-- `entitlement` in exact arithmetic. -/
noncomputable def exactEntitlement (e : RewardEngine) (st : ChainStore) (id : String) (now : ℝ)
    (clock : RewardClock) : Entitlement ℝ :=
  entitlementOf ℝ e.config id (exactTotalCuForNode st id : ℝ)
    (ageOf ℝ (RewardEngine.lastClaim st id clock) now) (RewardEngine.lastActivity st id)

omit [Crates] [RewardCrates] in
/-- The age on the reals is the time since the last claim. -/
theorem ageOf_real (last : Instant) (now : ℝ) : ageOf ℝ (some last) now = now - last.seconds := rfl

variable [SerdeReadsBack]

omit [RewardCrates] in
/-- A block with credible claims lowers no total. -/
theorem exactTotal_le {chain : List Checkpoint} {st : ChainStore} (h : Refines st chain)
    (happ : st.append c = .ok st') (hcred : ∀ s ∈ c.proposal.claims, Credible s.claim)
    (id : String) : exactTotalCuForNode st id ≤ exactTotalCuForNode st' id := by
  rw [exactTotal_append h happ id]
  apply le_add_of_nonneg_right
  apply List.sum_nonneg
  intro x hx
  obtain ⟨s, hs, rfl⟩ := List.mem_map.mp hx
  rw [← computeUnitsIn_eq]
  exact computeUnitsIn_nonneg (hcred s (List.mem_of_mem_filter hs))

/-- A block of credible claims lowers nobody's entitlement, at any time. -/
theorem contribution_never_lowers (hn : Node.Reachable n) (happ : n.store.append c = .ok st')
    (hcred : ∀ s ∈ c.proposal.claims, Credible s.claim) (e : RewardEngine)
    (hrate : 0 ≤ exactValue e.config.creditsPerCu)
    (hdim : 0 ≤ exactValue e.config.rewardDiminishing)
    (htime : 0 ≤ exactValue e.config.secondsPerCredit) (id : String) (now : ℝ)
    (clock : RewardClock) (hrange : (exactEntitlement e st' id now clock).credits ≤ 2 ^ 1024) :
    AtLeast (exactEntitlement e st' id now clock) (exactEntitlement e n.store id now clock) := by
  obtain ⟨chain, hchain⟩ := (reachable_idle hn).1.chain
  replace hchain : Refines n.store chain := hchain
  have hcu : (exactTotalCuForNode n.store id : ℝ) ≤ exactTotalCuForNode st' id := by
    exact_mod_cast exactTotal_le hchain happ hcred id
  refine entitlementOf_mono id hrate hdim htime hcu ?_ ?_ hrange
  · cases hlast : RewardEngine.lastClaim n.store id clock with
    | none =>
      right
      have hnil := claims_nil_of_lastClaim hchain hlast
      simp [exactTotalCuForNode, hnil]
    | some last =>
      left
      obtain ⟨last', hlast', hle⟩ := lastClaim_append hchain happ hlast
      have hcast : (last.seconds : ℝ) ≤ last'.seconds := by exact_mod_cast hle
      rw [hlast', ageOf_real, ageOf_real]
      linarith
  · intro text htext
    obtain ⟨text', htext', hle⟩ := lastActivity_append hchain happ htext
    exact ⟨text', htext', hle⟩

end Blocks

end Exodus.Analysis

/-! ## On the sample -/

namespace Exodus.Analysis

open Exodus.Library Exodus.Model Exodus.Interface Exodus.Sample Signer

/-- One credit for a unit, without decay. -/
def linearEngine : RewardEngine := ⟨⟨1.0, 1.0, 0.0, 60.0, 1.0, 5⟩⟩

/-- With the linear settings the credits are the units. -/
theorem exactCredits_linear {cu : ℝ} (h : 0 ≤ cu) (age : ℝ) :
    exactCredits linearEngine.config cu age = cu := by
  have hone : (exactValue (1.0 : Float) : ℝ) = 1 := by
    have : exactValue (1.0 : Float) = 1 := by decide +kernel
    exact_mod_cast this
  have hzero : (exactValue (0.0 : Float) : ℝ) = 0 := by
    have : exactValue (0.0 : Float) = 0 := by decide +kernel
    exact_mod_cast this
  rw [exactCredits, creditCurve_real, decayFactor_real]
  show (if cu ≤ 0 then 0 else (exactValue (1.0 : Float) : ℝ) * cu ^ (exactValue (1.0 : Float) : ℝ)) *
    (if (exactValue (0.0 : Float) : ℝ) ≤ 0 then 1 else _) = cu
  rw [hone, hzero, if_pos le_rfl, mul_one, one_mul, Real.rpow_one]
  split_ifs with hle
  · exact le_antisymm h hle
  · rfl

/-- The node that contributed the first block has at least its entitlement from before. -/
theorem first_not_lowered : ∃ st', (fresh a "t1").store.append firstBlock = .ok st' ∧
    AtLeast (exactEntitlement linearEngine st' a.nodeId 0 stopped)
      (exactEntitlement linearEngine (fresh a "t1").store a.nodeId 0 stopped) := by
  have href := fresh_refines a "t1"
  obtain ⟨st', happ⟩ := href.append_extends first_follows.can_append
  have hclaims : claimsOfNode firstBlock a.nodeId = [firstClaim.signed] := by decide +kernel
  have hold : exactTotalCuForNode (fresh a "t1").store a.nodeId = 0 := by decide +kernel
  have hunits : 0 ≤ roundF64 ℚ (credit firstClaim.signed.claim) 9 ∧
      roundF64 ℚ (credit firstClaim.signed.claim) 9 ≤ 1000 := by decide +kernel
  have htotal : exactTotalCuForNode st' a.nodeId = roundF64 ℚ (credit firstClaim.signed.claim) 9 := by
    rw [exactTotal_append href happ, hclaims, hold, List.map_singleton, List.sum_singleton, zero_add]
  refine ⟨st', happ, contribution_never_lowers (fresh_reachable a "t1") happ ?_ linearEngine
    (by decide +kernel) (by decide +kernel) (by decide +kernel) a.nodeId 0 stopped ?_⟩
  · intro s hs
    obtain rfl : s = firstClaim.signed := by simpa [firstBlock, firstProposal] using hs
    exact ⟨by decide +kernel, by decide +kernel⟩
  · have hcu : (0 : ℝ) ≤ (exactTotalCuForNode st' a.nodeId : ℝ) ∧
        (exactTotalCuForNode st' a.nodeId : ℝ) ≤ 1000 := by
      rw [htotal]
      exact_mod_cast hunits
    have hcredits : (exactEntitlement linearEngine st' a.nodeId 0 stopped).credits =
        roundF64 ℝ (exactTotalCuForNode st' a.nodeId : ℝ) 6 := by
      rw [exactEntitlement, entitlementOf_real, exactCredits_linear hcu.1]
    have hround := (abs_sub_le_iff.mp (abs_roundF64_sub_le (exactTotalCuForNode st' a.nodeId))).1
    have hrange : (2 : ℝ) ^ 10 ≤ 2 ^ 1024 := pow_le_pow_right₀ (by norm_num) (by norm_num)
    rw [hcredits]
    refine le_trans ?_ hrange
    linarith

end Exodus.Analysis
