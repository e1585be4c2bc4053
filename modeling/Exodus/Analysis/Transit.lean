import Exodus.Interface.Sample
import Exodus.Interface.Wire
import Exodus.Model.Messages

/-!
# Messages in transit

A message is published as the JSON object of its record and decoded by the topic it comes
on.  `transit_faithful` says that what is decoded is what was sent, for every message, so
the signatures verify and the hashes come out as they did for the sender.  The two sync
messages share a topic: a response names a field that a request does not have, so the
decoder of requests refuses it.
-/

set_option autoImplicit false

namespace Exodus.Analysis

open Exodus.Library Exodus.Model Exodus.Interface

/-- The topic that the protocol publishes a message on. -/
def topicOf : Message → String
  | .contributionGossip _ => Topics.claims
  | .proposalMessage _ => Topics.proposals
  | .signatureShare _ => Topics.signatures
  | .commitMessage _ => Topics.commits
  | .heartbeat _ => Topics.heartbeats
  | .syncRequest _ | .syncResponse _ => Topics.sync
  | .forkAlert _ => Topics.forks

/-! ## Round trips -/

/-- A share is read back from its JSON. -/
theorem signatureShare_fromValue_toValue (s : SignatureShare) :
    SignatureShare.fromValue s.toValue = some s := by
  have hf : s.toValue.structFields SignatureShare.fieldNames = some [
      some (.str s.proposalHash), some (.int s.height.toInt), some (.int s.epoch.toInt),
      some (.str s.nodeId), some (.str s.publicKeyHex), some (.str s.signatureHex)] := rfl
  simp [SignatureShare.fromValue, hf, Json.required]

/-- So is a heartbeat. -/
theorem heartbeat_fromValue_toValue (hb : Heartbeat) : Heartbeat.fromValue hb.toValue = some hb := by
  have hf : hb.toValue.structFields Heartbeat.fieldNames = some [
      some (.str hb.nodeId), some (.int hb.height.toInt), some (.str hb.blockHash),
      some (.int hb.epoch.toInt), some (.str hb.sealedBy), some (.int hb.quorumWeight.toInt)] := rfl
  simp [Heartbeat.fromValue, hf, Json.required, Json.optional]

/-- So is a sync request. -/
theorem syncRequest_fromValue_toValue (req : SyncRequest) :
    SyncRequest.fromValue req.toValue = some req := by
  have hf : req.toValue.structFields ["node_id", "from_height"] =
      some [some (.str req.nodeId), some (.int req.fromHeight.toInt)] := rfl
  simp [SyncRequest.fromValue, hf, Json.required]

/-- So is a block. -/
theorem checkpoint_fromValue_toValue (c : Checkpoint) : Checkpoint.fromValue c.toValue = some c :=
  checkpoint_fromValue_parts c.proposal c.signatures c.quorum

/-- So is a sync response. -/
theorem syncResponse_fromValue_toValue (resp : SyncResponse) :
    SyncResponse.fromValue resp.toValue = some resp := by
  have hf : resp.toValue.structFields ["node_id", "blocks"] =
      some [some (.str resp.nodeId), some (.arr (resp.blocks.map Checkpoint.toValue))] := rfl
  have hblocks := Json.asList_map _ _ checkpoint_fromValue_toValue resp.blocks
  simp [SyncResponse.fromValue, hf, Json.required, Json.optional, hblocks]

/-- So is a fork alert. -/
theorem forkAlert_fromValue_toValue (alert : ForkAlert) :
    ForkAlert.fromValue alert.toValue = some alert := by
  have hf : alert.toValue.structFields
      ["node_id", "height", "observed_hash_a", "observed_hash_b"] = some [
        some (.str alert.nodeId), some (.int alert.height.toInt),
        some (.str alert.observedHashA), some (.str alert.observedHashB)] := rfl
  simp [ForkAlert.fromValue, hf, Json.required]

/-- The object of a record with one field. -/
theorem fromWrapped_obj {α : Type} {field : String} {decode : Json → Option α} {v : Json} {a : α}
    (h : decode v = some a) : fromWrapped field decode (.obj [(field, v)]) = some a := by
  simp [fromWrapped, Json.structFields, Json.required, h]

/-- A response is no request: requests have no field `blocks`. -/
theorem syncRequest_fromValue_response (resp : SyncResponse) :
    SyncRequest.fromValue resp.toValue = none := rfl

/-- On the sync topic requests come first. -/
theorem decodeMessage_sync (value : Json) : decodeMessage Topics.sync value =
    ((SyncRequest.fromValue value).map Message.syncRequest).or
      ((SyncResponse.fromValue value).map Message.syncResponse) := by
  simp only [decodeMessage, Topics.sync, Topics.claims, Topics.proposals, Topics.signatures,
    Topics.commits, Topics.heartbeats, Topics.forks, String.reduceEq, if_false, if_true]
  cases SyncRequest.fromValue value <;> rfl

/-- Every message is read back on its topic. -/
theorem decodeMessage_toValue (m : Message) : decodeMessage (topicOf m) m.toValue = some m := by
  cases m with
  | contributionGossip signed =>
    exact congrArg (Option.map _) (fromWrapped_obj (signedContribution_fromValue_toValue signed))
  | proposalMessage proposal =>
    exact congrArg (Option.map _) (fromWrapped_obj (checkpointProposal_fromValue_toValue proposal))
  | signatureShare share =>
    exact congrArg (Option.map _) (signatureShare_fromValue_toValue share)
  | commitMessage checkpoint =>
    exact congrArg (Option.map _) (fromWrapped_obj (checkpoint_fromValue_toValue checkpoint))
  | heartbeat hb => exact congrArg (Option.map _) (heartbeat_fromValue_toValue hb)
  | syncRequest req =>
    refine (decodeMessage_sync req.toValue).trans ?_
    rw [syncRequest_fromValue_toValue]
    rfl
  | syncResponse resp =>
    refine (decodeMessage_sync resp.toValue).trans ?_
    rw [syncRequest_fromValue_response, syncResponse_fromValue_toValue]
    rfl
  | forkAlert alert => exact congrArg (Option.map _) (forkAlert_fromValue_toValue alert)

/-! ## Well-formedness -/

/-- The JSON of a block is well formed. -/
theorem checkpoint_toValue_wellFormed (c : Checkpoint) : c.toValue.WellFormed := by
  refine ⟨by simp only [List.map_cons, List.map_nil]; decide, ?_⟩
  exact ⟨checkpointProposal_toValue_wellFormed c.proposal, Json.uint64_wellFormed c.quorum,
    signaturesValue_wellFormed c, trivial⟩

/-- So is that of every message. -/
theorem message_toValue_wellFormed (m : Message) : m.toValue.WellFormed := by
  cases m with
  | contributionGossip signed =>
    exact ⟨List.pairwise_singleton _ _, signedContribution_toValue_wellFormed signed, trivial⟩
  | proposalMessage proposal =>
    exact ⟨List.pairwise_singleton _ _, checkpointProposal_toValue_wellFormed proposal, trivial⟩
  | signatureShare share =>
    refine ⟨by simp only [List.map_cons, List.map_nil]; decide, ?_⟩
    exact ⟨Json.int64_wellFormed share.epoch, Json.int64_wellFormed share.height, trivial, trivial,
      trivial, trivial, trivial⟩
  | commitMessage checkpoint =>
    exact ⟨List.pairwise_singleton _ _, checkpoint_toValue_wellFormed checkpoint, trivial⟩
  | heartbeat hb =>
    refine ⟨by simp only [List.map_cons, List.map_nil]; decide, ?_⟩
    exact ⟨trivial, Json.int64_wellFormed hb.epoch, Json.int64_wellFormed hb.height, trivial,
      Json.int64_wellFormed hb.quorumWeight, trivial, trivial⟩
  | syncRequest req =>
    refine ⟨by simp only [List.map_cons, List.map_nil]; decide, ?_⟩
    exact ⟨Json.int64_wellFormed req.fromHeight, trivial, trivial⟩
  | syncResponse resp =>
    refine ⟨by simp only [List.map_cons, List.map_nil]; decide, ?_⟩
    exact ⟨Json.wellFormedItems_map _ resp.blocks checkpoint_toValue_wellFormed, trivial, trivial⟩
  | forkAlert alert =>
    refine ⟨by simp only [List.map_cons, List.map_nil]; decide, ?_⟩
    exact ⟨Json.int64_wellFormed alert.height, trivial, trivial, trivial, trivial⟩

/-! ## What the receiver computes -/

variable [Crates]

/-- The outcomes of `verify` for the claims and the share of a message, and the hashes of its
proposals and blocks. -/
def verdicts : Message → List Bool × List String
  | .contributionGossip signed => ([signed.verify], [])
  | .proposalMessage proposal =>
    (proposal.claims.map SignedContribution.verify, [proposal.proposalHash])
  | .signatureShare share => ([share.verify], [])
  | .commitMessage checkpoint => ofBlock checkpoint
  | .syncResponse resp =>
    (resp.blocks.flatMap fun c => (ofBlock c).1, resp.blocks.flatMap fun c => (ofBlock c).2)
  | .heartbeat _ | .syncRequest _ | .forkAlert _ => ([], [])
where
  ofBlock (c : Checkpoint) : List Bool × List String :=
    (c.proposal.claims.map SignedContribution.verify, [c.proposal.proposalHash, c.blockHash])

/-- Every message is decoded, on the topic it is published on, to what was sent: from its
value and from the text of its value; and the receiver's checks and hashes are the
sender's. -/
theorem transit_faithful [SerdeReadsBack] (m : Message) :
    decodeMessage (topicOf m) m.toValue = some m ∧
      (Crates.jsonFromStr (Crates.jsonToString m.toValue)).bind (decodeMessage (topicOf m)) =
        some m ∧
      (decodeMessage (topicOf m) m.toValue).map verdicts = some (verdicts m) := by
  have hdecode := decodeMessage_toValue m
  have htext := SerdeReadsBack.from_to m.toValue (message_toValue_wellFormed m)
  refine ⟨hdecode, ?_, ?_⟩
  · rw [htext]
    exact hdecode
  · rw [hdecode]
    rfl

end Exodus.Analysis

namespace Exodus.Analysis

open Exodus.Library Exodus.Model Exodus.Interface Exodus.Sample

/-- A response with the first block comes through the text as it is. -/
theorem transit_response :
    (Crates.jsonFromStr (Crates.jsonToString
      (Message.syncResponse ⟨Signer.b.nodeId, [genesisCheckpoint, firstBlock]⟩).toValue)).bind
        (decodeMessage Topics.sync) =
      some (.syncResponse ⟨Signer.b.nodeId, [genesisCheckpoint, firstBlock]⟩) :=
  (transit_faithful (.syncResponse ⟨Signer.b.nodeId, [genesisCheckpoint, firstBlock]⟩)).2.1

end Exodus.Analysis
