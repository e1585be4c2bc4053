import Exodus.Model.Crypto

/-!
# `models.rs`: claims, chain blocks and wire messages

The records of the program with their JSON forms.  `toValue` lists an object's
members in key order, as the ordered map of `serde_json` holds them; `fromValue`
is the derived decoder.  A floating-point field of a record is a finite double,
as it is in every record decoded from JSON.
-/

set_option autoImplicit false

namespace Exodus.Model

open Exodus.Library

/-! ## Enumerations -/

inductive WorkType where
  | textGeneration | embedding | imageGeneration | audioGeneration | generic
deriving DecidableEq

def WorkType.name : WorkType → String
  | textGeneration => "text_generation"
  | embedding => "embedding"
  | imageGeneration => "image_generation"
  | audioGeneration => "audio_generation"
  | generic => "generic"

def WorkType.fromStr (s : String) : Option WorkType :=
  if s = "text_generation" then some .textGeneration
  else if s = "embedding" then some .embedding
  else if s = "image_generation" then some .imageGeneration
  else if s = "audio_generation" then some .audioGeneration
  else if s = "generic" then some .generic
  else none

inductive Precision where
  | fp32 | fp16 | bf16 | fp8 | int8 | int4 | int2
deriving DecidableEq

def Precision.name : Precision → String
  | fp32 => "fp32"
  | fp16 => "fp16"
  | bf16 => "bf16"
  | fp8 => "fp8"
  | int8 => "int8"
  | int4 => "int4"
  | int2 => "int2"

def Precision.fromStr (s : String) : Option Precision :=
  if s = "fp32" then some .fp32
  else if s = "fp16" then some .fp16
  else if s = "bf16" then some .bf16
  else if s = "fp8" then some .fp8
  else if s = "int8" then some .int8
  else if s = "int4" then some .int4
  else if s = "int2" then some .int2
  else none

inductive DeviceTier where
  | cpu | gpuApple | gpuNvidia | gpuAmd | tpu | other
deriving DecidableEq

def DeviceTier.name : DeviceTier → String
  | cpu => "cpu"
  | gpuApple => "gpu_apple"
  | gpuNvidia => "gpu_nvidia"
  | gpuAmd => "gpu_amd"
  | tpu => "tpu"
  | other => "other"

def DeviceTier.fromStr (s : String) : Option DeviceTier :=
  if s = "cpu" then some .cpu
  else if s = "gpu_apple" then some .gpuApple
  else if s = "gpu_nvidia" then some .gpuNvidia
  else if s = "gpu_amd" then some .gpuAmd
  else if s = "tpu" then some .tpu
  else if s = "other" then some .other
  else none

def defaultDeviceTier : DeviceTier := .gpuApple

/-! ## Claims -/

structure ContributionClaim where
  claimId : String
  nodeId : String
  seq : Int64
  workType : WorkType
  modelId : String
  paramsB : FiniteFloat
  precision : Precision
  promptTokens : Int64
  completionTokens : Int64
  computeSeconds : FiniteFloat
  flopsEstimate : FiniteFloat
  deviceTier : DeviceTier
  startedAt : String
  endedAt : String
  lastSeenCheckpointHeight : Int64
  lastSeenCheckpointHash : String
deriving DecidableEq

namespace ContributionClaim

def toValue (c : ContributionClaim) : Json :=
  .obj [
    ("claim_id", .str c.claimId),
    ("completion_tokens", .int c.completionTokens.toInt),
    ("compute_seconds", .float c.computeSeconds),
    ("device_tier", .str c.deviceTier.name),
    ("ended_at", .str c.endedAt),
    ("flops_estimate", .float c.flopsEstimate),
    ("last_seen_checkpoint_hash", .str c.lastSeenCheckpointHash),
    ("last_seen_checkpoint_height", .int c.lastSeenCheckpointHeight.toInt),
    ("model_id", .str c.modelId),
    ("node_id", .str c.nodeId),
    ("params_b", .float c.paramsB),
    ("precision", .str c.precision.name),
    ("prompt_tokens", .int c.promptTokens.toInt),
    ("seq", .int c.seq.toInt),
    ("started_at", .str c.startedAt),
    ("work_type", .str c.workType.name)]

/-- The fields in the order of their declaration. -/
def fieldNames : List String :=
  ["claim_id", "node_id", "seq", "work_type", "model_id", "params_b", "precision",
    "prompt_tokens", "completion_tokens", "compute_seconds", "flops_estimate", "device_tier",
    "started_at", "ended_at", "last_seen_checkpoint_height", "last_seen_checkpoint_hash"]

def fromValue (v : Json) : Option ContributionClaim := do
  let f ← v.structFields fieldNames
  let claimId ← Json.required f 0 Json.asStr
  let nodeId ← Json.required f 1 Json.asStr
  let seq ← Json.required f 2 Json.asI64
  let workType ← Json.required f 3 fun v => v.asVariant.bind WorkType.fromStr
  let modelId ← Json.required f 4 Json.asStr
  let paramsB ← Json.required f 5 Json.asFloat
  let precision ← Json.required f 6 fun v => v.asVariant.bind Precision.fromStr
  let promptTokens ← Json.required f 7 Json.asI64
  let completionTokens ← Json.required f 8 Json.asI64
  let computeSeconds ← Json.required f 9 Json.asFloat
  let flopsEstimate ← Json.required f 10 Json.asFloat
  let deviceTier ← Json.optional f 11 defaultDeviceTier fun v =>
    v.asVariant.bind DeviceTier.fromStr
  let startedAt ← Json.required f 12 Json.asStr
  let endedAt ← Json.required f 13 Json.asStr
  let lastSeenCheckpointHeight ← Json.required f 14 Json.asI64
  let lastSeenCheckpointHash ← Json.required f 15 Json.asStr
  return {
    claimId, nodeId, seq, workType, modelId, paramsB, precision, promptTokens,
    completionTokens, computeSeconds, flopsEstimate, deviceTier, startedAt, endedAt,
    lastSeenCheckpointHeight, lastSeenCheckpointHash }

/-- Canonical bytes used as the signed payload. -/
def payloadBytes [Crates] (c : ContributionClaim) : List UInt8 := canonicalBytes c.toValue

end ContributionClaim

structure SignedContribution where
  claim : ContributionClaim
  publicKeyHex : String
  signatureHex : String
deriving DecidableEq

namespace SignedContribution

def toValue (s : SignedContribution) : Json :=
  .obj [
    ("claim", s.claim.toValue),
    ("public_key_hex", .str s.publicKeyHex),
    ("signature_hex", .str s.signatureHex)]

def fromValue (v : Json) : Option SignedContribution := do
  let f ← v.structFields ["claim", "public_key_hex", "signature_hex"]
  let claim ← Json.required f 0 ContributionClaim.fromValue
  let publicKeyHex ← Json.required f 1 Json.asStr
  let signatureHex ← Json.required f 2 Json.asStr
  return { claim, publicKeyHex, signatureHex }

/-- The signature matches the claim and the node id. -/
def verify [Crates] (s : SignedContribution) : Bool :=
  match hexDecode s.publicKeyHex with
  | none => false
  | some publicKey =>
    match hexDecode s.signatureHex with
    | none => false
    | some signature =>
      if nodeIdFromPublicKey publicKey ≠ s.claim.nodeId then false
      else Model.verify s.claim.payloadBytes signature publicKey

def create [Crates] (claim : ContributionClaim) (privateKey : List UInt8) : SignedContribution where
  claim
  publicKeyHex := hex (publicKeyFromPrivate privateKey)
  signatureHex := hex (sign claim.payloadBytes privateKey)

end SignedContribution

/-! ## Chain -/

def genesisSealer : String := "genesis"
def genesisTimestamp : String := "1970-01-01T00:00:00+00:00"
def genesisPrevHash : String :=
  "0000000000000000000000000000000000000000000000000000000000000000"

structure CheckpointProposal where
  epoch : Int64
  height : Int64
  prevHash : String
  sealedBy : String
  claims : List SignedContribution
  createdAt : String
deriving DecidableEq

namespace CheckpointProposal

def toValue (p : CheckpointProposal) : Json :=
  .obj [
    ("claims", .arr (p.claims.map SignedContribution.toValue)),
    ("created_at", .str p.createdAt),
    ("epoch", .int p.epoch.toInt),
    ("height", .int p.height.toInt),
    ("prev_hash", .str p.prevHash),
    ("sealed_by", .str p.sealedBy)]

def fromValue (v : Json) : Option CheckpointProposal := do
  let f ← v.structFields ["epoch", "height", "prev_hash", "sealed_by", "claims", "created_at"]
  let epoch ← Json.required f 0 Json.asI64
  let height ← Json.required f 1 Json.asI64
  let prevHash ← Json.required f 2 Json.asStr
  let sealedBy ← Json.required f 3 Json.asStr
  let claims ← Json.optional f 4 [] (Json.asList SignedContribution.fromValue)
  let createdAt ← Json.required f 5 Json.asStr
  return { epoch, height, prevHash, sealedBy, claims, createdAt }

def proposalHash [Crates] (p : CheckpointProposal) : String := sha256Hex p.toValue

/-- The claim ids of the proposal, in order. -/
def claimIds (p : CheckpointProposal) : List String := p.claims.map (·.claim.claimId)

/-- The `(node_id, seq)` pairs of the proposal, in order. -/
def nodeSeqs (p : CheckpointProposal) : List (String × Int64) :=
  p.claims.map fun s => (s.claim.nodeId, s.claim.seq)

end CheckpointProposal

structure QuorumSignature where
  nodeId : String
  publicKeyHex : String
  signatureHex : String
deriving DecidableEq

namespace QuorumSignature

def toValue (s : QuorumSignature) : Json :=
  .obj [
    ("node_id", .str s.nodeId),
    ("public_key_hex", .str s.publicKeyHex),
    ("signature_hex", .str s.signatureHex)]

def fromValue (v : Json) : Option QuorumSignature := do
  let f ← v.structFields ["node_id", "public_key_hex", "signature_hex"]
  let nodeId ← Json.required f 0 Json.asStr
  let publicKeyHex ← Json.required f 1 Json.asStr
  let signatureHex ← Json.required f 2 Json.asStr
  return { nodeId, publicKeyHex, signatureHex }

end QuorumSignature

/-- A committed block; `quorum` is the number of signatures required when it was sealed. -/
structure Checkpoint where
  proposal : CheckpointProposal
  signatures : List QuorumSignature
  quorum : UInt64
deriving DecidableEq

namespace Checkpoint

def height (c : Checkpoint) : ℤ := c.proposal.height.toInt

def epoch (c : Checkpoint) : ℤ := c.proposal.epoch.toInt

def signaturesValue (c : Checkpoint) : Json := .arr (c.signatures.map QuorumSignature.toValue)

/-- The digest of the proposal hash followed by the canonical signature list. -/
def blockHash [Crates] (c : Checkpoint) : String :=
  sha256BytesHex (asBytes c.proposal.proposalHash ++ canonicalBytes c.signaturesValue)

def toValue (c : Checkpoint) : Json :=
  .obj [
    ("proposal", c.proposal.toValue),
    ("quorum", .int c.quorum.toNat),
    ("signatures", c.signaturesValue)]

def fromValue (v : Json) : Option Checkpoint := do
  let f ← v.structFields ["proposal", "signatures", "quorum"]
  let proposal ← Json.required f 0 CheckpointProposal.fromValue
  let signatures ← Json.optional f 1 [] (Json.asList QuorumSignature.fromValue)
  let quorum ← Json.optional f 2 0 Json.asUsize
  return { proposal, signatures, quorum }

end Checkpoint

/-- The genesis checkpoint, the same on every node. -/
def genesisCheckpoint : Checkpoint where
  proposal := {
    epoch := 0
    height := 0
    prevHash := genesisPrevHash
    sealedBy := genesisSealer
    claims := []
    createdAt := genesisTimestamp }
  signatures := []
  quorum := 0

/-! ## Wire messages -/

structure SignatureShare where
  proposalHash : String
  height : Int64
  epoch : Int64
  nodeId : String
  publicKeyHex : String
  signatureHex : String
deriving DecidableEq

def SignatureShare.verify [Crates] (s : SignatureShare) : Bool :=
  match hexDecode s.publicKeyHex with
  | none => false
  | some publicKey =>
    match hexDecode s.signatureHex with
    | none => false
    | some signature => Model.verify (asBytes s.proposalHash) signature publicKey

structure Heartbeat where
  nodeId : String
  height : Int64
  blockHash : String
  epoch : Int64
  sealedBy : String
  quorumWeight : Int64
deriving DecidableEq

structure SyncRequest where
  nodeId : String
  fromHeight : Int64
deriving DecidableEq

structure SyncResponse where
  nodeId : String
  blocks : List Checkpoint
deriving DecidableEq

structure ForkAlert where
  nodeId : String
  height : Int64
  observedHashA : String
  observedHashB : String
deriving DecidableEq

/-- A typed protocol message. -/
inductive Message where
  | contributionGossip (signed : SignedContribution)
  | proposalMessage (proposal : CheckpointProposal)
  | signatureShare (share : SignatureShare)
  | commitMessage (checkpoint : Checkpoint)
  | heartbeat (hb : Heartbeat)
  | syncRequest (req : SyncRequest)
  | syncResponse (resp : SyncResponse)
  | forkAlert (alert : ForkAlert)
deriving DecidableEq

/-! ## `topics.rs` -/

namespace Topics

def claims : String := "exodus/claims"
def proposals : String := "exodus/proposals"
def signatures : String := "exodus/signatures"
def commits : String := "exodus/commits"
def heartbeats : String := "exodus/heartbeats"
def sync : String := "exodus/sync"
def forks : String := "exodus/forks"

end Topics

end Exodus.Model
