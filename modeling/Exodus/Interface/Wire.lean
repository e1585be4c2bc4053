import Exodus.Model.Models

/-!
# Records survive their JSON form

`fromValue (toValue r) = some r` for the records that the ledger stores, and
`toValue r` is a well-formed value.  So a row written by `append` is read back as
the block it was written for.
-/

set_option autoImplicit false

namespace Exodus.Interface

open Exodus.Library Exodus.Model

/-! ## Enumerations -/

/-- A work type is read back from its name. -/
@[simp] theorem workType_fromStr_name (w : WorkType) : WorkType.fromStr w.name = some w := by
  cases w <;> rfl

/-- So is a precision. -/
@[simp] theorem precision_fromStr_name (p : Precision) : Precision.fromStr p.name = some p := by
  cases p <;> rfl

/-- So is a device tier. -/
@[simp] theorem deviceTier_fromStr_name (t : DeviceTier) : DeviceTier.fromStr t.name = some t := by
  cases t <;> rfl

/-! ## Round trips -/

/-- The fields of a claim in the order of the reader. -/
theorem contributionClaim_fields (c : ContributionClaim) :
    c.toValue.structFields ContributionClaim.fieldNames = some [
      some (.str c.claimId), some (.str c.nodeId), some (.int c.seq.toInt),
      some (.str c.workType.name), some (.str c.modelId), some (.float c.paramsB),
      some (.str c.precision.name), some (.int c.promptTokens.toInt),
      some (.int c.completionTokens.toInt), some (.float c.computeSeconds),
      some (.float c.flopsEstimate), some (.str c.deviceTier.name), some (.str c.startedAt),
      some (.str c.endedAt), some (.int c.lastSeenCheckpointHeight.toInt),
      some (.str c.lastSeenCheckpointHash)] := rfl

/-- A decoder goes on with what its first step reads. -/
theorem decode_step {α β : Type} {o : Option α} {a : α} {f : α → Option β} {b : β}
    (h : o = some a) (hf : f a = some b) : (o >>= f) = some b := by
  rw [h]
  exact hf

/-- A claim is read back from its JSON. -/
@[simp] theorem contributionClaim_fromValue_toValue (c : ContributionClaim) :
    ContributionClaim.fromValue c.toValue = some c := by
  refine decode_step (contributionClaim_fields c) ?_
  refine decode_step (a := c.claimId) rfl ?_
  refine decode_step (a := c.nodeId) rfl ?_
  refine decode_step (a := c.seq) (Json.asI64_toInt _) ?_
  refine decode_step (a := c.workType) (workType_fromStr_name _) ?_
  refine decode_step (a := c.modelId) rfl ?_
  refine decode_step (a := c.paramsB) rfl ?_
  refine decode_step (a := c.precision) (precision_fromStr_name _) ?_
  refine decode_step (a := c.promptTokens) (Json.asI64_toInt _) ?_
  refine decode_step (a := c.completionTokens) (Json.asI64_toInt _) ?_
  refine decode_step (a := c.computeSeconds) rfl ?_
  refine decode_step (a := c.flopsEstimate) rfl ?_
  refine decode_step (a := c.deviceTier) (deviceTier_fromStr_name _) ?_
  refine decode_step (a := c.startedAt) rfl ?_
  refine decode_step (a := c.endedAt) rfl ?_
  refine decode_step (a := c.lastSeenCheckpointHeight) (Json.asI64_toInt _) ?_
  exact decode_step (a := c.lastSeenCheckpointHash) rfl rfl

/-- So is a signed claim. -/
@[simp] theorem signedContribution_fromValue_toValue (s : SignedContribution) :
    SignedContribution.fromValue s.toValue = some s := by
  have hf : s.toValue.structFields ["claim", "public_key_hex", "signature_hex"] =
      some [some s.claim.toValue, some (.str s.publicKeyHex), some (.str s.signatureHex)] := rfl
  simp [SignedContribution.fromValue, hf, Json.required]

/-- So is a signature. -/
@[simp] theorem quorumSignature_fromValue_toValue (s : QuorumSignature) :
    QuorumSignature.fromValue s.toValue = some s := by
  have hf : s.toValue.structFields ["node_id", "public_key_hex", "signature_hex"] =
      some [some (.str s.nodeId), some (.str s.publicKeyHex), some (.str s.signatureHex)] := rfl
  simp [QuorumSignature.fromValue, hf, Json.required]

/-- So is a proposal. -/
@[simp] theorem checkpointProposal_fromValue_toValue (p : CheckpointProposal) :
    CheckpointProposal.fromValue p.toValue = some p := by
  have hf : p.toValue.structFields
      ["epoch", "height", "prev_hash", "sealed_by", "claims", "created_at"] = some [
        some (.int p.epoch.toInt), some (.int p.height.toInt), some (.str p.prevHash),
        some (.str p.sealedBy), some (.arr (p.claims.map SignedContribution.toValue)),
        some (.str p.createdAt)] := rfl
  have hc := Json.asList_map _ _ signedContribution_fromValue_toValue p.claims
  simp [CheckpointProposal.fromValue, hf, Json.required, Json.optional, hc]

/-- The object `reconstruct` assembles decodes to its parts. -/
theorem checkpoint_fromValue_parts (p : CheckpointProposal) (sigs : List QuorumSignature)
    (q : UInt64) :
    Checkpoint.fromValue (.obj [("proposal", p.toValue), ("quorum", .int q.toNat),
      ("signatures", .arr (sigs.map QuorumSignature.toValue))]) = some ⟨p, sigs, q⟩ := by
  have hf : (Json.obj [("proposal", p.toValue), ("quorum", .int q.toNat),
      ("signatures", .arr (sigs.map QuorumSignature.toValue))]).structFields
        ["proposal", "signatures", "quorum"] =
      some [some p.toValue, some (.arr (sigs.map QuorumSignature.toValue)),
        some (.int q.toNat)] := rfl
  have hs := Json.asList_map _ _ quorumSignature_fromValue_toValue sigs
  simp [Checkpoint.fromValue, hf, Json.required, Json.optional, hs]

/-! ## Well-formedness -/

/-- The JSON of a claim is well formed. -/
theorem contributionClaim_toValue_wellFormed (c : ContributionClaim) : c.toValue.WellFormed := by
  refine ⟨by simp only [List.map_cons, List.map_nil]; decide, ?_⟩
  have h1 := Json.int64_wellFormed c.completionTokens
  have h2 := Json.int64_wellFormed c.lastSeenCheckpointHeight
  have h3 := Json.int64_wellFormed c.promptTokens
  have h4 := Json.int64_wellFormed c.seq
  exact ⟨trivial, h1, trivial, trivial, trivial, trivial, trivial, h2, trivial, trivial, trivial,
    trivial, h3, h4, trivial, trivial, trivial⟩

/-- So is that of a signed claim. -/
theorem signedContribution_toValue_wellFormed (s : SignedContribution) :
    s.toValue.WellFormed := by
  refine ⟨by simp only [List.map_cons, List.map_nil]; decide, ?_⟩
  simp only [Json.WellFormedEntries, contributionClaim_toValue_wellFormed, and_self,
    Json.WellFormed]

/-- So is that of a signature. -/
theorem quorumSignature_toValue_wellFormed (s : QuorumSignature) : s.toValue.WellFormed := by
  refine ⟨by simp only [List.map_cons, List.map_nil]; decide, ?_⟩
  simp only [Json.WellFormedEntries, and_self, Json.WellFormed]

/-- So is that of a proposal. -/
theorem checkpointProposal_toValue_wellFormed (p : CheckpointProposal) :
    p.toValue.WellFormed := by
  refine ⟨by simp only [List.map_cons, List.map_nil]; decide, ?_⟩
  have hc := Json.wellFormedItems_map _ p.claims signedContribution_toValue_wellFormed
  exact ⟨hc, trivial, Json.int64_wellFormed p.epoch, Json.int64_wellFormed p.height, trivial,
    trivial, trivial⟩

/-- So is that of the signatures of a block. -/
theorem signaturesValue_wellFormed (c : Checkpoint) : c.signaturesValue.WellFormed :=
  Json.wellFormedItems_map _ c.signatures quorumSignature_toValue_wellFormed

end Exodus.Interface
