import Exodus.Model.Ledger

/-!
# `consensus/validation.rs`: the rules a proposal or a checkpoint must pass

`seen_claim_ids` is extended in place by the source; here the extended set is the
result.  Every caller drops the set when the validation fails.
-/

set_option autoImplicit false

namespace Exodus.Model

open Exodus.Library

structure ValidationError where
  message : String
deriving DecidableEq

def isCanonicalGenesis (p : CheckpointProposal) : Bool :=
  p.height.toInt = 0 && p.epoch.toInt = 0 && p.prevHash = genesisPrevHash &&
    p.sealedBy = genesisSealer && p.claims.isEmpty && p.createdAt = genesisTimestamp

/-- A map from node ids. -/
abbrev HashMap (V : Type) : Type := Std.ExtTreeMap String V compare

variable [Crates]

/-- The claims loop of `validate_proposal`.  `nodeSeqs` remembers one sequence number
per node, the last one met. -/
def validateClaims (flopsTolerance : Float) (headHeight : ℤ) :
    List SignedContribution → HashMap Int64 → Finset String → Finset String →
    Except ValidationError (Finset String)
  | [], _, _, seen => .ok seen
  | s :: rest, nodeSeqs, claimIds, seen =>
    if !s.verify then .error ⟨"bad contribution signature"⟩
    else if !flopsIsPlausible s.claim flopsTolerance then
      .error ⟨"implausible FLOPS on claim " ++ s.claim.claimId⟩
    else if s.claim.claimId ∈ seen ∨ s.claim.claimId ∈ claimIds then
      .error ⟨"double claim " ++ s.claim.claimId⟩
    else if nodeSeqs[s.claim.nodeId]? = some s.claim.seq then
      .error ⟨"reused sequence for node " ++ s.claim.nodeId⟩
    else if headHeight < s.claim.lastSeenCheckpointHeight.toInt then
      .error ⟨"claim " ++ s.claim.claimId ++ " references a future checkpoint"⟩
    else validateClaims flopsTolerance headHeight rest (nodeSeqs.insert s.claim.nodeId s.claim.seq)
      (insert s.claim.claimId claimIds) (insert s.claim.claimId seen)

/-- Validate a proposal against the local chain. -/
def validateProposal (p : CheckpointProposal) (st : ChainStore) (seen : Finset String)
    (flopsTolerance : Float) (allowEmptyClaims : Bool) : Except ValidationError (Finset String) :=
  let headHeight := (st.head.map Checkpoint.height).getD (-1)
  let expectedPrev := (st.head.map Checkpoint.blockHash).getD genesisPrevHash
  if p.height.toInt ≠ headHeight + 1 then
    .error ⟨"bad height: expected " ++ toString (headHeight + 1) ++ ", got " ++
      toString p.height.toInt⟩
  else if p.prevHash ≠ expectedPrev then
    .error ⟨"bad prev-hash: expected " ++ expectedPrev ++ ", got " ++ p.prevHash⟩
  else if st.head.any fun h => p.epoch.toInt ≤ h.epoch then
    .error ⟨"epoch not advancing: chain at " ++
      toString ((st.head.map Checkpoint.epoch).getD 0) ++ ", proposal at " ++
      toString p.epoch.toInt⟩
  else if !allowEmptyClaims && p.claims.isEmpty then
    .error ⟨"empty proposal"⟩
  else validateClaims flopsTolerance headHeight p.claims ∅ ∅ seen

def verifyShareForProposal (signatureHex publicKeyHex proposalHash : String) : Bool :=
  match hexDecode signatureHex with
  | none => false
  | some signature =>
    match hexDecode publicKeyHex with
    | none => false
    | some publicKey => verify (asBytes proposalHash) signature publicKey

/-- The signature loop of `validate_checkpoint`. -/
def validateSignatures (proposalHash : String) :
    List QuorumSignature → Finset String → Except ValidationError Unit
  | [], _ => .ok ()
  | sig :: rest, seenSigners =>
    if sig.nodeId ∈ seenSigners then
      .error ⟨"duplicate signer " ++ sig.nodeId⟩
    else if !verifyShareForProposal sig.signatureHex sig.publicKeyHex proposalHash then
      .error ⟨"bad quorum signature from " ++ sig.nodeId⟩
    else validateSignatures proposalHash rest (insert sig.nodeId seenSigners)

/-- The signatures a checkpoint needs: its frozen quorum, or one when it records none. -/
def Checkpoint.required (c : Checkpoint) : ℕ := if 0 < c.quorum then c.quorum.toNat else 1

/-- Validate a committed checkpoint before appending it locally. -/
def validateCheckpoint (c : Checkpoint) (st : ChainStore) (flopsTolerance : Float)
    (minQuorum : ℕ) (allowEmptyClaims : Bool) (seen : Option (Finset String)) :
    Except ValidationError (Finset String) :=
  if isCanonicalGenesis c.proposal then .ok (seen.getD ∅)
  else
    match validateProposal c.proposal st (seen.getD ∅) flopsTolerance allowEmptyClaims with
    | .error e => .error e
    | .ok seen' =>
      if c.signatures.length < c.required then
        .error ⟨"insufficient quorum: " ++ toString c.signatures.length ++ " < " ++
          toString c.required ++ " (block quorum " ++ toString c.quorum.toNat ++
          ", local committee " ++ toString minQuorum ++ ")"⟩
      else
        match validateSignatures c.proposal.proposalHash c.signatures ∅ with
        | .error e => .error e
        | .ok () => .ok seen'

end Exodus.Model
