import Exodus.Model.Validation

/-!
# `rewards.rs`: verified compute and the time it buys

The reward engine reads the claims table only.  The computations are stated over
`RewardArith K`; the program runs them on `Float`, with the powers and logarithms of the
platform.  Reads of the clock are arguments.
-/

set_option autoImplicit false

namespace Exodus.Model

open Exodus.Library

/-! ## Arithmetic -/

/-- `FloatArith` with powers and logarithms. -/
class RewardArith (K : Type) extends FloatArith K where
  powf : K → K → K
  log2 : K → K
  max : K → K → K
  /-- `as i64`: towards zero, within the range of the type -/
  asI64 : K → Int64

/-- A `DateTime<Utc>`. -/
structure Instant where
  seconds : ℤ
  nanos : ℕ
deriving DecidableEq

/-- `cur > dt` -/
def Instant.after (cur dt : Instant) : Bool :=
  decide (dt.seconds < cur.seconds ∨ dt.seconds = cur.seconds ∧ dt.nanos < cur.nanos)

/-- What the reward engine takes from outside the repository. -/
class RewardCrates where
  powf : Float → Float → Float
  log2 : Float → Float
  /-- the sum of no doubles: one of the two zeros, depending on the version of the library -/
  emptySum : Float
  /-- `DateTime::parse_from_rfc3339`, in UTC -/
  parseRfc3339 : String → Option Instant

/-- The integer next to `q` on the side of zero. -/
def truncate (q : ℚ) : ℤ := if 0 ≤ q then q.floor else -(-q).floor

/-- The nearest integer of 64 bits. -/
def saturateI64 (i : ℤ) : Int64 :=
  if i < -2 ^ 63 then Int64.minValue else if 2 ^ 63 ≤ i then Int64.maxValue else Int64.ofInt i

/-- `f64 as i64` -/
def floatAsI64 (f : Float) : Int64 :=
  if f.isNaN then 0
  else if f.isInf then (if f < 0.0 then Int64.minValue else Int64.maxValue)
  else saturateI64 (truncate (exactValue f))

/-- `f64::max`: the other operand when one is NaN. -/
def floatMax (a b : Float) : Float :=
  if a.isNaN then b else if b.isNaN then a else if a < b then b else a

instance [RewardCrates] : RewardArith Float where
  powf := RewardCrates.powf
  log2 := RewardCrates.log2
  max := floatMax
  asI64 := floatAsI64

/-- The fields of the configuration that the reward engine reads. -/
structure RewardConfig where
  creditsPerCu : Float
  rewardDiminishing : Float
  creditHalflifeSeconds : Float
  freeQuotaSeconds : Float
  secondsPerCredit : Float
  maxPriorityLevels : Int64

/-! ## The curve -/

section Curve

variable (K : Type) [RewardArith K]

def creditCurve (cu : K) (config : RewardConfig) : K :=
  if FloatArith.le cu (FloatArith.literal 0) then FloatArith.literal 0
  else
    FloatArith.ofFloat config.creditsPerCu *
      RewardArith.powf cu (FloatArith.ofFloat config.rewardDiminishing)

def decayFactor (ageSeconds halflifeSeconds : K) : K :=
  if FloatArith.le halflifeSeconds (FloatArith.literal 0) then FloatArith.literal 1
  else
    RewardArith.powf (FloatArith.literal (1 / 2))
      (RewardArith.max ageSeconds (FloatArith.literal 0) / halflifeSeconds)

/-- Sums of `i64` wrap around, as in a release build. -/
def priorityTier (credits : K) (maxLevels : Int64) : Int64 :=
  if FloatArith.le credits (FloatArith.literal 0) then 0
  else
    let tier := RewardArith.asI64 (RewardArith.log2
      (FloatArith.literal 1 + credits / FloatArith.literal 100)) + 1
    min tier (max (maxLevels - 1) 1)

def concurrencyQuota (tier baseQuota : Int64) : Int64 := max (baseQuota + tier) baseQuota

def schedulingPriority (tier quota : Int64) : K :=
  FloatArith.ofInt tier.toInt * FloatArith.literal 10 + FloatArith.ofInt quota.toInt

/-- The age of the last claim; no claim has the age 0. -/
def ageOf (last : Option Instant) (now : K) : K :=
  match last with
  | none => FloatArith.literal 0
  | some last => now - FloatArith.ofInt last.seconds

/-- What `entitlement` says of a node. -/
structure Entitlement where
  nodeId : String
  verifiedCu : K
  creditsRaw : K
  decayFactor : K
  credits : K
  aiTimeSeconds : K
  priorityTier : Int64
  concurrencyQuota : Int64
  schedulingPriority : K
  lastActivity : Option String

/-- The entitlement for an amount of verified compute and an age of the last claim. -/
def entitlementOf (config : RewardConfig) (nodeId : String) (cu age : K)
    (lastActivity : Option String) : Entitlement K :=
  let creditsRaw := creditCurve K cu config
  let factor := decayFactor K age (FloatArith.ofFloat config.creditHalflifeSeconds)
  let credits := creditsRaw * factor
  let tier := priorityTier K credits config.maxPriorityLevels
  let quota := concurrencyQuota tier 1
  let aiTime := FloatArith.ofFloat config.freeQuotaSeconds +
    credits * FloatArith.ofFloat config.secondsPerCredit
  let priority := schedulingPriority K tier quota
  { nodeId
    verifiedCu := roundF64 K cu 6
    creditsRaw := roundF64 K creditsRaw 6
    decayFactor := roundF64 K factor 6
    credits := roundF64 K credits 6
    aiTimeSeconds := roundF64 K aiTime 3
    priorityTier := tier
    concurrencyQuota := quota
    schedulingPriority := roundF64 K priority 3
    lastActivity }

end Curve

section Totals

variable (K : Type) [FloatArith K]

/-- One turn of `verified_cu_by_node`. -/
def addCu (totals : HashMap K) (claim : String × K) : HashMap K :=
  totals.insert claim.1 (totals.getD claim.1 (FloatArith.literal 0) + claim.2)

/-- The loop of `verified_cu_by_node`. -/
def cuTotals (claims : List (String × K)) : HashMap K := claims.foldl (addCu K) ∅

end Totals

/-! ## Reads of the ledger -/

/-- A stored claim row. -/
structure ClaimRecord where
  claimId : String
  height : ℤ
  nodeId : String
  seq : Int64
  cu : Float
  claimJson : Json

section Reads

variable [Crates] (st : ChainStore)

def ClaimRow.record (r : ClaimRow) : ClaimRecord :=
  ⟨r.claimId, r.height, r.nodeId, r.seq, r.cu, (Crates.jsonFromStr r.claimJson).getD .null⟩

/-- `ORDER BY height ASC, seq ASC` -/
def ClaimRow.before (a b : ClaimRow) : Bool :=
  decide (a.height < b.height ∨ a.height = b.height ∧ a.seq ≤ b.seq)

namespace ChainStore

def claimsForNode (nodeId : String) : List ClaimRecord :=
  ((st.claims.filter fun r => r.nodeId = nodeId).mergeSort ClaimRow.before).map ClaimRow.record

/-- `ORDER BY height ASC`; rows of one height come in the order of their insertion, in which
SQLite scans the table. -/
def allClaims : List ClaimRecord :=
  (st.claims.mergeSort fun a b => decide (a.height ≤ b.height)).map ClaimRow.record

def totalCu : Float := Crates.sqliteSum (st.claims.map ClaimRow.cu)

end ChainStore

end Reads

/-! ## The engine -/

/-- The readings of the clock during a call of `entitlement`: for the claim at a place whose
time cannot be parsed, and for the present time. -/
structure RewardClock where
  unparsed : ℕ → Instant
  now : Instant

/-- A number of `json!`; what is not finite becomes null. -/
def jsonFloat (f : Float) : Json := if h : f.isFinite = true then .float ⟨f, h⟩ else .null

def Entitlement.toJson (e : Entitlement Float) : Json :=
  .obj [
    ("ai_time_seconds", jsonFloat e.aiTimeSeconds),
    ("concurrency_quota", .int e.concurrencyQuota.toInt),
    ("credits", jsonFloat e.credits),
    ("credits_raw", jsonFloat e.creditsRaw),
    ("decay_factor", jsonFloat e.decayFactor),
    ("last_activity", (e.lastActivity.map Json.str).getD .null),
    ("node_id", .str e.nodeId),
    ("priority_tier", .int e.priorityTier.toInt),
    ("scheduling_priority", jsonFloat e.schedulingPriority),
    ("verified_cu", jsonFloat e.verifiedCu)]

/-- `claim_json.get("ended_at").and_then(|v| v.as_str())` -/
def ClaimRecord.endedAt (c : ClaimRecord) : Option String := (c.claimJson.get "ended_at").bind Json.asStr

structure RewardEngine where
  config : RewardConfig

namespace RewardEngine

variable [Crates] [RewardCrates] (e : RewardEngine) (st : ChainStore)

def verifiedCuByNode : List (String × Float) :=
  (cuTotals Float (st.allClaims.map fun c => (c.nodeId, c.cu))).toList

/-- The loop of `last_activity`. -/
def latestText (latest : Option String) (c : ClaimRecord) : Option String :=
  match c.endedAt with
  | none => latest
  | some e =>
    match latest with
    | some cur => if e < cur then some cur else some e
    | none => some e

def lastActivity (nodeId : String) : Option String :=
  (st.claimsForNode nodeId).foldl latestText none

def parseUtc (value : String) (clock : Instant) : Instant :=
  (RewardCrates.parseRfc3339 value).getD clock

/-- The loop of `age_of_last_claim`. -/
def latestInstant (clock : RewardClock) (latest : Option Instant) (c : ClaimRecord × ℕ) :
    Option Instant :=
  match c.1.endedAt with
  | none => latest
  | some e =>
    let dt := parseUtc e (clock.unparsed c.2)
    match latest with
    | some cur => if cur.after dt then some cur else some dt
    | none => some dt

def lastClaim (nodeId : String) (clock : RewardClock) : Option Instant :=
  (st.claimsForNode nodeId).zipIdx.foldl (latestInstant clock) none

def ageOfLastClaim (nodeId : String) (now : Option Float) (clock : RewardClock) : Float :=
  ageOf Float (lastClaim st nodeId clock) (now.getD (Float.ofInt clock.now.seconds))

def entitlement (nodeId : String) (now : Option Float) (clock : RewardClock) : Entitlement Float :=
  let cu := ((st.allClaims.filter fun c => c.nodeId = nodeId).map ClaimRecord.cu).foldl (· + ·)
    RewardCrates.emptySum
  entitlementOf Float e.config nodeId cu (ageOfLastClaim st nodeId now clock) (lastActivity st nodeId)

/-- The nodes in the order of the report.  With a total that is NaN the comparison is not an
order, and the order of the program is not determined. -/
def ranking : List (String × Float) :=
  (verifiedCuByNode st).mergeSort fun a b => !decide (a.2 < b.2)

def participants (clock : String → RewardClock) : List (Entitlement Float) :=
  (ranking st).map fun node => e.entitlement st node.1 none (clock node.1)

def networkReport (clock : String → RewardClock) : Json :=
  .obj [
    ("participants", .arr ((e.participants st clock).map Entitlement.toJson)),
    ("reward_parameters", .obj [
      ("credit_halflife_seconds", jsonFloat e.config.creditHalflifeSeconds),
      ("credits_per_cu", jsonFloat e.config.creditsPerCu),
      ("diminishing_exponent", jsonFloat e.config.rewardDiminishing),
      ("free_quota_seconds", jsonFloat e.config.freeQuotaSeconds),
      ("max_priority_levels", .int e.config.maxPriorityLevels.toInt),
      ("seconds_per_credit", jsonFloat e.config.secondsPerCredit)]),
    ("total_claims", .int st.allClaims.length),
    ("total_cu", jsonFloat (roundF64 Float st.totalCu 6))]

end RewardEngine

end Exodus.Model
