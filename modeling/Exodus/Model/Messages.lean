import Exodus.Model.Models

/-!
# The wire form of messages

The JSON objects of the wire messages of `models.rs`, their derived decoders, and
`decode_message` of `coordinator.rs`, which picks the decoder by the topic.
-/

set_option autoImplicit false

namespace Exodus.Model

open Exodus.Library

namespace SignatureShare

def toValue (s : SignatureShare) : Json :=
  .obj [
    ("epoch", .int s.epoch.toInt),
    ("height", .int s.height.toInt),
    ("node_id", .str s.nodeId),
    ("proposal_hash", .str s.proposalHash),
    ("public_key_hex", .str s.publicKeyHex),
    ("signature_hex", .str s.signatureHex)]

def fieldNames : List String :=
  ["proposal_hash", "height", "epoch", "node_id", "public_key_hex", "signature_hex"]

def fromValue (v : Json) : Option SignatureShare := do
  let f ← v.structFields fieldNames
  let proposalHash ← Json.required f 0 Json.asStr
  let height ← Json.required f 1 Json.asI64
  let epoch ← Json.required f 2 Json.asI64
  let nodeId ← Json.required f 3 Json.asStr
  let publicKeyHex ← Json.required f 4 Json.asStr
  let signatureHex ← Json.required f 5 Json.asStr
  return { proposalHash, height, epoch, nodeId, publicKeyHex, signatureHex }

end SignatureShare

namespace Heartbeat

def toValue (hb : Heartbeat) : Json :=
  .obj [
    ("block_hash", .str hb.blockHash),
    ("epoch", .int hb.epoch.toInt),
    ("height", .int hb.height.toInt),
    ("node_id", .str hb.nodeId),
    ("quorum_weight", .int hb.quorumWeight.toInt),
    ("sealed_by", .str hb.sealedBy)]

def fieldNames : List String :=
  ["node_id", "height", "block_hash", "epoch", "sealed_by", "quorum_weight"]

/-- `default_one` -/
def defaultOne : Int64 := 1

def fromValue (v : Json) : Option Heartbeat := do
  let f ← v.structFields fieldNames
  let nodeId ← Json.required f 0 Json.asStr
  let height ← Json.required f 1 Json.asI64
  let blockHash ← Json.required f 2 Json.asStr
  let epoch ← Json.required f 3 Json.asI64
  let sealedBy ← Json.required f 4 Json.asStr
  let quorumWeight ← Json.optional f 5 defaultOne Json.asI64
  return { nodeId, height, blockHash, epoch, sealedBy, quorumWeight }

end Heartbeat

namespace SyncRequest

def toValue (req : SyncRequest) : Json :=
  .obj [("from_height", .int req.fromHeight.toInt), ("node_id", .str req.nodeId)]

def fromValue (v : Json) : Option SyncRequest := do
  let f ← v.structFields ["node_id", "from_height"]
  let nodeId ← Json.required f 0 Json.asStr
  let fromHeight ← Json.required f 1 Json.asI64
  return { nodeId, fromHeight }

end SyncRequest

namespace SyncResponse

def toValue (resp : SyncResponse) : Json :=
  .obj [("blocks", .arr (resp.blocks.map Checkpoint.toValue)), ("node_id", .str resp.nodeId)]

def fromValue (v : Json) : Option SyncResponse := do
  let f ← v.structFields ["node_id", "blocks"]
  let nodeId ← Json.required f 0 Json.asStr
  let blocks ← Json.optional f 1 [] (Json.asList Checkpoint.fromValue)
  return { nodeId, blocks }

end SyncResponse

namespace ForkAlert

def toValue (alert : ForkAlert) : Json :=
  .obj [
    ("height", .int alert.height.toInt),
    ("node_id", .str alert.nodeId),
    ("observed_hash_a", .str alert.observedHashA),
    ("observed_hash_b", .str alert.observedHashB)]

def fromValue (v : Json) : Option ForkAlert := do
  let f ← v.structFields ["node_id", "height", "observed_hash_a", "observed_hash_b"]
  let nodeId ← Json.required f 0 Json.asStr
  let height ← Json.required f 1 Json.asI64
  let observedHashA ← Json.required f 2 Json.asStr
  let observedHashB ← Json.required f 3 Json.asStr
  return { nodeId, height, observedHashA, observedHashB }

end ForkAlert

/-- The decoder of `ContributionGossip`, `ProposalMessage` and `CommitMessage`: a record with
one field. -/
def fromWrapped {α : Type} (field : String) (decode : Json → Option α) (v : Json) : Option α := do
  let f ← v.structFields [field]
  Json.required f 0 decode

def contributionGossipFromValue : Json → Option SignedContribution :=
  fromWrapped "signed" SignedContribution.fromValue

def proposalMessageFromValue : Json → Option CheckpointProposal :=
  fromWrapped "proposal" CheckpointProposal.fromValue

def commitMessageFromValue : Json → Option Checkpoint :=
  fromWrapped "checkpoint" Checkpoint.fromValue

def Message.toValue : Message → Json
  | .contributionGossip signed => .obj [("signed", signed.toValue)]
  | .proposalMessage proposal => .obj [("proposal", proposal.toValue)]
  | .signatureShare share => share.toValue
  | .commitMessage checkpoint => .obj [("checkpoint", checkpoint.toValue)]
  | .heartbeat hb => hb.toValue
  | .syncRequest req => req.toValue
  | .syncResponse resp => resp.toValue
  | .forkAlert alert => alert.toValue

/-- Decode a payload into a message for a topic.  On the sync topic a value that is no
request may be a response. -/
def decodeMessage (topic : String) (value : Json) : Option Message :=
  if topic = Topics.claims then
    (contributionGossipFromValue value).map Message.contributionGossip
  else if topic = Topics.proposals then
    (proposalMessageFromValue value).map Message.proposalMessage
  else if topic = Topics.signatures then
    (SignatureShare.fromValue value).map Message.signatureShare
  else if topic = Topics.commits then
    (commitMessageFromValue value).map Message.commitMessage
  else if topic = Topics.heartbeats then
    (Heartbeat.fromValue value).map Message.heartbeat
  else if topic = Topics.forks then
    (ForkAlert.fromValue value).map Message.forkAlert
  else if topic = Topics.sync then
    match SyncRequest.fromValue value with
    | some req => some (.syncRequest req)
    | none => (SyncResponse.fromValue value).map Message.syncResponse
  else none

end Exodus.Model
