import Exodus.Interface.Evidence
import Exodus.Interface.SampleChain

/-!
# Who signed a block

A quorum signature carries a node id, a public key and a signature.  The checks
compare the ids with each other and the signature with the key, and nothing ties
the id to the key or the signers to the sealer.  `accepted_authentic_iff` says what
has to be added for the signers of an accepted block to be who they say they are.
-/

set_option autoImplicit false

namespace Exodus.Analysis

open Exodus.Library Exodus.Model Exodus.Interface

variable [Crates] {n : Node} {c : Checkpoint}

/-- The node id is the one derived from the public key. -/
def Bound (publicKeyHex nodeId : String) : Prop :=
  ∃ key, hexDecode publicKeyHex = some key ∧ nodeIdFromPublicKey key = nodeId

/-- The signatures of a block are a quorum of different keys under their own node ids,
the sealer's among them. -/
structure Authentic (c : Checkpoint) : Prop where
  enough : max c.quorum.toNat 1 ≤ c.signatures.length
  verified : ∀ sig ∈ c.signatures,
    verifyShareForProposal sig.signatureHex sig.publicKeyHex c.proposal.proposalHash = true
  keys_nodup : (c.signatures.map fun sig => hexDecode sig.publicKeyHex).Nodup
  bound : ∀ sig ∈ c.signatures, Bound sig.publicKeyHex sig.nodeId
  sealer : ∃ sig ∈ c.signatures, sig.nodeId = c.proposal.sealedBy

/-- Different ids derived from the keys come from different keys. -/
theorem keys_nodup_of_bound {sigs : List QuorumSignature}
    (hids : (sigs.map QuorumSignature.nodeId).Nodup)
    (hbound : ∀ sig ∈ sigs, Bound sig.publicKeyHex sig.nodeId) :
    (sigs.map fun sig => hexDecode sig.publicKeyHex).Nodup := by
  have hid : sigs.map (fun sig => some sig.nodeId) =
      (sigs.map fun sig => hexDecode sig.publicKeyHex).map (Option.map nodeIdFromPublicKey) := by
    rw [List.map_map]
    refine List.map_congr_left fun sig hsig => ?_
    obtain ⟨key, hkey, hnode⟩ := hbound sig hsig
    simp [hkey, hnode]
  have hsome : (sigs.map fun sig => some sig.nodeId).Nodup := by
    simpa [Function.comp_def] using hids.map (Option.some_injective String)
  rw [hid] at hsome
  exact hsome.of_map _

/-- The signatures that `validate_checkpoint` passes are authentic exactly when every id is
bound to its key and the sealer signed. -/
theorem Signed.authentic_iff (h : Signed c) :
    Authentic c ↔ (∀ sig ∈ c.signatures, Bound sig.publicKeyHex sig.nodeId) ∧
      ∃ sig ∈ c.signatures, sig.nodeId = c.proposal.sealedBy := by
  constructor
  · intro ha
    exact ⟨ha.bound, ha.sealer⟩
  · rintro ⟨hbound, hsealer⟩
    exact ⟨required_eq_max c ▸ h.enough, h.pass.verified,
      keys_nodup_of_bound h.pass.signers_nodup hbound, hbound, hsealer⟩

/-! ## Stored shares -/

/-- `commit_local` adds no share. -/
theorem shareAt_commitLocal (c : Checkpoint) (hash nodeId : String) (s : SignatureShare)
    (hs : shareAt (n.commitLocal c) hash nodeId = some s) : shareAt n hash nodeId = some s := by
  have happend (h : shareAt (n.appendLocal c) hash nodeId = some s) :
      shareAt n hash nodeId = some s := by
    unfold Node.appendLocal at h
    split at h
    · split_ifs at h
      · rwa [shareAt_congr (signatures_settleTwin n _)] at h
      · rwa [shareAt_congr (congrArg Core.signatures (quiet_requestSync n _).core_eq)] at h
    · rename_i st _
      have hold : shareAt { n with store := st } hash nodeId = some s := shareAt_announceCommit h
      exact hold
  unfold Node.commitLocal at hs
  split at hs
  · split_ifs at hs
    · exact hs
    · exact happend hs
  · exact happend hs

/-- Nor does `maybe_commit`. -/
theorem shareAt_maybeCommit (p : CheckpointProposal) (hash nodeId : String) (s : SignatureShare)
    (hs : shareAt (n.maybeCommit p) hash nodeId = some s) : shareAt n hash nodeId = some s := by
  unfold Node.maybeCommit at hs
  split_ifs at hs
  · exact hs
  · dsimp only at hs
    split at hs
    · exact hs
    · exact shareAt_commitLocal _ hash nodeId s hs

/-- The node as `on_signature` has it after its insertion, before it tries to commit. -/
def insertShare (n : Node) (share : SignatureShare) : Node :=
  if share.verify = true ∧ n.proposals.contains share.proposalHash = true then
    n.fileShare share.proposalHash share
  else n

/-- `on_signature` inserts the share, and then it tries to commit the proposal if it holds it. -/
theorem onSignature_eq_insertShare (n : Node) (share : SignatureShare) :
    n.onSignature share = insertShare n share ∨
      ∃ p, n.onSignature share = (insertShare n share).maybeCommit p := by
  unfold Node.onSignature insertShare
  by_cases hv : share.verify = true
  case neg => simp [hv]
  cases hp : n.proposals[share.proposalHash]? with
  | none =>
    have hfree : n.proposals.contains share.proposalHash = false := by
      rw [Std.ExtTreeMap.contains_eq_isSome_getElem?, hp]
      rfl
    simp [hv, hfree]
  | some p =>
    have hheld : n.proposals.contains share.proposalHash = true := by
      rw [Std.ExtTreeMap.contains_eq_isSome_getElem?, hp]
      rfl
    rw [if_neg (by simp [hv]), if_pos ⟨hv, hheld⟩]
    exact .inr ⟨p, rfl⟩

/-- The call stores the share: its insertion puts it into the table, where it was not. -/
def Stores (n : Node) (share s : SignatureShare) : Prop :=
  ∃ hash nodeId, shareAt (insertShare n share) hash nodeId = some s ∧
    shareAt n hash nodeId ≠ some s

/-- The only share that a call can store is the one it was given, and it does so exactly when
the share verifies, is for a held proposal and is not there yet. -/
theorem stores_iff {share s : SignatureShare} :
    Stores n share s ↔ s = share ∧ share.verify = true ∧
      n.proposals.contains share.proposalHash = true ∧
      shareAt n share.proposalHash share.nodeId ≠ some share := by
  unfold Stores insertShare
  by_cases hok : share.verify = true ∧ n.proposals.contains share.proposalHash = true
  case neg =>
    rw [if_neg hok]
    constructor
    · rintro ⟨hash, nodeId, hs, hnew⟩
      exact absurd hs hnew
    · rintro ⟨-, hv, hheld, -⟩
      exact absurd ⟨hv, hheld⟩ hok
  rw [if_pos hok]
  constructor
  · rintro ⟨hash, nodeId, hs, hnew⟩
    rw [shareAt_fileShare] at hs
    split_ifs at hs with hplace
    · obtain ⟨rfl, rfl⟩ := hplace
      cases hs
      exact ⟨rfl, hok.1, hok.2, hnew⟩
    · exact absurd hs hnew
  · rintro ⟨rfl, -, -, hnew⟩
    refine ⟨s.proposalHash, s.nodeId, ?_, hnew⟩
    rw [shareAt_fileShare, if_pos ⟨rfl, rfl⟩]

/-- What is in the table after the whole call was there before, or the call stored it. -/
theorem shareAt_onSignature (share : SignatureShare) (hash nodeId : String) (s : SignatureShare)
    (hs : shareAt (n.onSignature share) hash nodeId = some s) :
    shareAt n hash nodeId = some s ∨ Stores n share s := by
  have hinserted : shareAt (insertShare n share) hash nodeId = some s := by
    rcases onSignature_eq_insertShare n share with heq | ⟨p, heq⟩
    · rwa [heq] at hs
    · rw [heq] at hs
      exact shareAt_maybeCommit p hash nodeId s hs
  by_cases hold : shareAt n hash nodeId = some s
  · exact .inl hold
  · exact .inr ⟨hash, nodeId, hinserted, hold⟩

/-- An accepted block other than the canonical genesis has authentic signers exactly when
each of its node ids is bound to its key and the sealer is among them.  The shares that
`on_signature` stores are bound exactly when the given one is, provided that it verifies,
its proposal is held and it is new; and the call adds no others to the table. -/
theorem accepted_authentic_iff :
    (∀ (c : Checkpoint) (st : ChainStore) (tol : Float) (q : ℕ) (allowEmpty : Bool)
      (seen : Option (Finset String)) (seen' : Finset String),
      isCanonicalGenesis c.proposal = false →
      validateCheckpoint c st tol q allowEmpty seen = .ok seen' →
      (Authentic c ↔ (∀ sig ∈ c.signatures, Bound sig.publicKeyHex sig.nodeId) ∧
        ∃ sig ∈ c.signatures, sig.nodeId = c.proposal.sealedBy)) ∧
    (∀ (n : Node) (share : SignatureShare),
      (∀ s, Stores n share s → Bound s.publicKeyHex s.nodeId) ↔
        (share.verify = true → n.proposals.contains share.proposalHash = true →
          shareAt n share.proposalHash share.nodeId ≠ some share →
            Bound share.publicKeyHex share.nodeId)) ∧
    ∀ (n : Node) (share s : SignatureShare) (hash nodeId : String),
      shareAt (n.onSignature share) hash nodeId = some s →
        shareAt n hash nodeId = some s ∨ Stores n share s := by
  refine ⟨fun c st tol q allowEmpty seen seen' hgenesis hval => ?_, fun n share => ?_,
    fun n share s hash nodeId hs => shareAt_onSignature share hash nodeId s hs⟩
  · rcases (validateCheckpoint_ok_iff c q allowEmpty seen seen').mp hval with ⟨hg, -⟩ | ⟨-, -, hs⟩
    · rw [hg] at hgenesis
      cases hgenesis
    · exact Signed.authentic_iff hs
  · constructor
    · intro h hv hheld hnew
      exact h share (stores_iff.mpr ⟨rfl, hv, hheld, hnew⟩)
    · intro h s hs
      obtain ⟨rfl, hv, hheld, hnew⟩ := stores_iff.mp hs
      exact h hv hheld hnew

end Exodus.Analysis

namespace Exodus.Analysis

open Exodus.Library Exodus.Model Exodus.Interface Exodus.Sample

/-- The first block of the sample has authentic signers. -/
theorem authentic_first : Authentic firstBlock := by
  obtain ⟨seen, hval⟩ := fresh_validates first_follows.passes .a "t1" 1
  refine (accepted_authentic_iff.1 firstBlock _ tolerance 1 false _ seen (by decide) hval).mpr
    ⟨fun sig hsig => ?_, firstVote.signed, by simp [firstBlock], rfl⟩
  rw [List.mem_singleton.mp hsig]
  exact ⟨Signer.b.key, hexDecode_hex _, nodeId_key .b⟩

/-- One key signs under two names, and the block records a quorum of two. -/
def twoNames : Checkpoint :=
  ⟨firstProposal, [firstVote.signed, { firstVote.signed with nodeId := "x" }], 2⟩

/-- The validation accepts the block with one signer for two. -/
theorem twoNames_accepted_not_authentic :
    (∃ seen, validateCheckpoint twoNames (fresh .a "t1").store tolerance 1 false
      (some (fresh .a "t1").committedClaimIds) = .ok seen) ∧ ¬ Authentic twoNames := by
  constructor
  · refine fresh_validates (.inr ⟨by decide, ?_, by decide, by decide, fun sig hsig => ?_⟩) .a "t1" 1
    · rcases first_follows.passes with hg | ⟨-, hp, -⟩
      · exact absurd hg (by decide)
      · exact hp
    · have hkey : verifyShareForProposal sig.signatureHex sig.publicKeyHex (digestText firstDigest) =
          true := by
        simp only [twoNames, List.mem_cons, List.not_mem_nil, or_false] at hsig
        rcases hsig with rfl | rfl
        · exact firstVote.verifies_signed (by simp [votes])
        · exact firstVote.verifies_signed (by simp [votes])
      rwa [← first_proposalHash] at hkey
  · intro h
    have hkeys := h.keys_nodup
    simp [twoNames] at hkeys

end Exodus.Analysis
