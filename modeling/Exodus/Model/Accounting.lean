import Exodus.Model.Models

/-!
# `accounting.rs`: compute units and the FLOPS plausibility check

The computations are stated over `FloatArith K`; the program runs them on `Float`.
-/

set_option autoImplicit false

namespace Exodus.Model

open Exodus.Library

section

variable (K : Type) [FloatArith K]

/-- One Compute Unit corresponds to one TeraFLOP of useful work. -/
def flopsPerCu : K := FloatArith.literal 1000000000000

/-- Generation is autoregressive, so it is weighted higher than prefill. -/
def generationWeight : K := FloatArith.literal 2

def standbyCuPerTierSecond : K := FloatArith.literal (1 / 1000000)

def standbyCapRatio : K := FloatArith.literal (1 / 4)

def Precision.factor : Precision → K
  | .fp32 => FloatArith.literal 2
  | .fp16 | .bf16 => FloatArith.literal 1
  | .fp8 | .int8 => FloatArith.literal (3 / 5)
  | .int4 => FloatArith.literal (7 / 20)
  | .int2 => FloatArith.literal (1 / 5)

def deviceTierTimeWeight : DeviceTier → K
  | .cpu => FloatArith.literal 1
  | .gpuApple | .gpuNvidia => FloatArith.literal 8
  | .gpuAmd => FloatArith.literal 7
  | .tpu => FloatArith.literal 10
  | .other => FloatArith.literal 4

def deviceTierFlopsPerSecond : DeviceTier → K
  | .cpu => FloatArith.literal 200000000000
  | .gpuApple => FloatArith.literal 100000000000000
  | .gpuNvidia => FloatArith.literal 200000000000000
  | .gpuAmd => FloatArith.literal 120000000000000
  | .tpu => FloatArith.literal 400000000000000
  | .other => FloatArith.literal 1000000000000

/-- The weighted token count. -/
def weightedTokens (claim : ContributionClaim) : K :=
  FloatArith.ofInt claim.promptTokens.toInt +
    FloatArith.ofInt claim.completionTokens.toInt * generationWeight K

/-- Reference FLOPS for the work described by the claim. -/
def expectedFlops (claim : ContributionClaim) : K :=
  FloatArith.literal 2 * FloatArith.ofFloat claim.paramsB.1 * FloatArith.literal 1000000000 *
    weightedTokens K claim * claim.precision.factor K

/-- The FLOPS figure is consistent with the tokens, the parameters and the precision,
and with the claimed device tier and time. -/
def flopsIsPlausibleIn (claim : ContributionClaim) (tolerance : K) : Bool :=
  let expected := expectedFlops K claim
  let flopsEstimate : K := FloatArith.ofFloat claim.flopsEstimate.1
  let computeSeconds : K := FloatArith.ofFloat claim.computeSeconds.1
  let zero : K := FloatArith.literal 0
  if FloatArith.le flopsEstimate zero then false
  else if FloatArith.eq expected zero then false
  else
    let deviation := FloatArith.abs (flopsEstimate - expected) / expected
    if FloatArith.lt tolerance deviation then false
    else if FloatArith.lt zero computeSeconds then
      let achieved := flopsEstimate / computeSeconds
      let deviceCap := deviceTierFlopsPerSecond K claim.deviceTier
      !FloatArith.lt (deviceCap * (FloatArith.literal 1 + tolerance)) achieved
    else true

/-- `round_f64`: ties to even at the given number of decimals. -/
def roundF64 (x : K) (ndigits : ℕ) : K :=
  if !FloatArith.isFinite x then x
  else if ndigits = 0 then FloatArith.roundTiesEven x
  else
    let factor : K := FloatArith.literal (10 ^ ndigits)
    FloatArith.roundTiesEven (x * factor) / factor

/-- Total Compute Units attributable to a single claim. -/
def computeUnitsIn (claim : ContributionClaim) : K :=
  let inference := FloatArith.literal 2 * FloatArith.ofFloat claim.paramsB.1 *
    FloatArith.literal 1000000000 * weightedTokens K claim * claim.precision.factor K /
    flopsPerCu K
  let standbyRaw := FloatArith.ofFloat claim.computeSeconds.1 *
    deviceTierTimeWeight K claim.deviceTier * standbyCuPerTierSecond K
  let standby := FloatArith.min standbyRaw (inference * standbyCapRatio K)
  roundF64 K (inference + standby) 9

end

/-- `flops_is_plausible` as the program runs it. -/
def flopsIsPlausible (claim : ContributionClaim) (tolerance : Float) : Bool :=
  flopsIsPlausibleIn Float claim tolerance

/-- `compute_units` as the program runs it. -/
def computeUnits (claim : ContributionClaim) : Float := computeUnitsIn Float claim

end Exodus.Model
