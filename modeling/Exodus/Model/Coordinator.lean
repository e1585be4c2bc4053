import Exodus.Model.Protocol

/-!
# `coordinator.rs`: the numbers of a node's claims

The coordinator of a node holds its identity, the consensus over its store, and the counter
that numbers the claims it makes.  Only what `new` and `submit_contribution` use is here;
telemetry, inference and the commit hooks are left out.
-/

set_option autoImplicit false

namespace Exodus.Model

open Exodus.Library

structure NodeIdentity where
  nodeId : String
  privateKey : List UInt8
  publicKeyHex : String

/-- The arguments of `submit_contribution`. -/
structure Contribution where
  modelId : String
  paramsB : FiniteFloat
  precision : String
  promptTokens : Int64
  completionTokens : Int64
  computeSeconds : FiniteFloat
  flopsEstimate : FiniteFloat
  deviceTier : String
  workType : String
  startedAt : Option String
  endedAt : Option String

structure ExodusCoordinator where
  identity : NodeIdentity
  consensus : Node
  seq : Int64

namespace ExodusCoordinator

variable [Crates]

def new (identity : NodeIdentity) (store : ChainStore) (config : ExodusConfig)
    (ambient : Ambient) : ExodusCoordinator where
  identity
  consensus := Node.new identity.nodeId identity.privateKey identity.publicKeyHex store config
    ambient
  seq := 0

/-- The names that `submit_contribution` parses before it takes a number. -/
def parseNames (r : Contribution) : Except String (Precision × DeviceTier × WorkType) :=
  match Precision.fromStr r.precision with
  | none => .error ("invalid precision " ++ r.precision)
  | some precision =>
    match DeviceTier.fromStr r.deviceTier with
    | none => .error ("invalid device_tier " ++ r.deviceTier)
    | some deviceTier =>
      match WorkType.fromStr r.workType with
      | none => .error ("invalid work_type " ++ r.workType)
      | some workType => .ok (precision, deviceTier, workType)

/-- The claim with the next number; the random id and the time are arguments. -/
def makeClaim (c : ExodusCoordinator) (r : Contribution)
    (names : Precision × DeviceTier × WorkType) (uuid now : String) : ContributionClaim where
  claimId := uuid
  nodeId := c.identity.nodeId
  seq := c.seq + 1
  workType := names.2.2
  modelId := r.modelId
  paramsB := r.paramsB
  precision := names.1
  promptTokens := r.promptTokens
  completionTokens := r.completionTokens
  computeSeconds := r.computeSeconds
  flopsEstimate := r.flopsEstimate
  deviceTier := names.2.1
  startedAt := r.startedAt.getD now
  endedAt := r.endedAt.getD now
  lastSeenCheckpointHeight := Int64.ofInt c.consensus.store.height
  lastSeenCheckpointHash := (c.consensus.store.head.map Checkpoint.blockHash).getD ""

def submitContribution (c : ExodusCoordinator) (r : Contribution) (uuid now : String) :
    ExodusCoordinator × Except String String :=
  match parseNames r with
  | .error e => (c, .error e)
  | .ok names =>
    let claim := c.makeClaim r names uuid now
    let signed := SignedContribution.create claim c.identity.privateKey
    let answer := (c.consensus.submitClaim signed).2
    ({ c with seq := c.seq + 1, consensus := (c.consensus.step (.submitClaim signed)).1 },
      match answer with
      | .error e => .error e.message
      | .ok _ => .ok claim.claimId)

end ExodusCoordinator

end Exodus.Model
