import Exodus.Model.Validation
import Exodus.Interface.Chain

/-!
# What the validation rules accept

Each loop of `validation.rs` as the conditions it checks.  On a store that holds a
chain, `validate_proposal` and `validate_checkpoint` depend on the chain alone, and
of its blocks on their contents only.
-/

set_option autoImplicit false

namespace Exodus.Interface

open Exodus.Library Exodus.Model

variable [Crates] {st : ChainStore} {chain : List Checkpoint} {tol : Float} {hh : ℤ}

/-! ## Claims -/

/-- The sequence numbers that a node's claims carry, in order. -/
def seqsOf (claims : List SignedContribution) (nodeId : String) : List Int64 :=
  (claims.filter fun s => s.claim.nodeId = nodeId).map fun s => s.claim.seq

/-- What the claims loop asks of one claim. -/
structure ClaimPasses (tol : Float) (hh : ℤ) (s : SignedContribution) : Prop where
  verified : s.verify = true
  flops_ok : flopsIsPlausible s.claim tol = true
  timely : s.claim.lastSeenCheckpointHeight.toInt ≤ hh

/-- What the claims loop asks of a list of claims.  A sequence number is compared with
the one before it of the same node only. -/
structure ClaimsPass (tol : Float) (hh : ℤ) (seen : Finset String)
    (claims : List SignedContribution) : Prop where
  each : ∀ s ∈ claims, ClaimPasses tol hh s
  ids_fresh : ∀ s ∈ claims, s.claim.claimId ∉ seen
  ids_nodup : (claims.map fun s => s.claim.claimId).Nodup
  seqs_change : ∀ nodeId, (seqsOf claims nodeId).IsChain (· ≠ ·)

omit [Crates] in
/-- The numbers of a node are collected claim by claim. -/
theorem seqsOf_cons (s : SignedContribution) (rest : List SignedContribution) (nodeId : String) :
    seqsOf (s :: rest) nodeId =
      if s.claim.nodeId = nodeId then s.claim.seq :: seqsOf rest nodeId else seqsOf rest nodeId := by
  unfold seqsOf
  by_cases h : s.claim.nodeId = nodeId <;> simp [h]

omit [Crates] in
/-- One claim more: its number differs from the one the map has for its node. -/
theorem seqs_change_cons (s : SignedContribution) (rest : List SignedContribution)
    (seqs : HashMap Int64) :
    (∀ nodeId, ((seqs[nodeId]?).toList ++ seqsOf (s :: rest) nodeId).IsChain (· ≠ ·)) ↔
      seqs[s.claim.nodeId]? ≠ some s.claim.seq ∧
      ∀ nodeId, (((seqs.insert s.claim.nodeId s.claim.seq)[nodeId]?).toList ++
        seqsOf rest nodeId).IsChain (· ≠ ·) := by
  have hcons (o : Option Int64) (x : Int64) (l : List Int64) :
      (o.toList ++ x :: l).IsChain (· ≠ ·) ↔ o ≠ some x ∧ (x :: l).IsChain (· ≠ ·) := by
    cases o <;> simp [List.isChain_cons_cons]
  have hother (nodeId : String) (h : s.claim.nodeId ≠ nodeId) :
      (seqs.insert s.claim.nodeId s.claim.seq)[nodeId]? = seqs[nodeId]? := by
    simp [Std.ExtTreeMap.getElem?_insert, h]
  constructor
  · intro h
    have hs := h s.claim.nodeId
    rw [seqsOf_cons, if_pos rfl, hcons] at hs
    refine ⟨hs.1, fun nodeId => ?_⟩
    by_cases hn : s.claim.nodeId = nodeId
    · subst hn
      simpa using hs.2
    · have := h nodeId
      rwa [seqsOf_cons, if_neg hn, ← hother nodeId hn] at this
  · rintro ⟨hs, h⟩ nodeId
    have hnode := h nodeId
    rw [seqsOf_cons]
    split_ifs with hn
    · subst hn
      exact (hcons _ _ _).mpr ⟨hs, by simpa using hnode⟩
    · rwa [hother nodeId hn] at hnode

/-- The loop with the sequence numbers and the ids it has met so far. -/
theorem validateClaims_ok_iff_aux (claims : List SignedContribution) (seqs : HashMap Int64)
    (ids seen seen' : Finset String) :
    validateClaims tol hh claims seqs ids seen = .ok seen' ↔
      (∀ s ∈ claims, ClaimPasses tol hh s) ∧
      (∀ s ∈ claims, s.claim.claimId ∉ seen ∧ s.claim.claimId ∉ ids) ∧
      (claims.map fun s => s.claim.claimId).Nodup ∧
      (∀ nodeId, ((seqs[nodeId]?).toList ++ seqsOf claims nodeId).IsChain (· ≠ ·)) ∧
      seen' = seen ∪ (claims.map fun s => s.claim.claimId).toFinset := by
  induction claims generalizing seqs ids seen with
  | nil =>
    have hsingle (o : Option Int64) : o.toList.IsChain (· ≠ ·) := by
      cases o <;> simp
    simp only [validateClaims, Except.ok.injEq, List.not_mem_nil, false_imp_iff, implies_true,
      List.map_nil, List.nodup_nil, seqsOf, List.filter_nil, List.append_nil, hsingle,
      List.toFinset_nil, Finset.union_empty, true_and, eq_comm]
  | cons s rest ih =>
    rw [seqs_change_cons]
    constructor
    · intro h
      unfold validateClaims at h
      split_ifs at h with hv hp hid hseq hfuture
      obtain ⟨heach, hfresh, hnodup, hseqs, rfl⟩ := (ih _ _ _).mp h
      simp only [Finset.mem_insert, not_or] at hfresh hid
      refine ⟨?_, ?_, ?_, ⟨hseq, hseqs⟩, ?_⟩
      · rintro x (_ | ⟨_, hx⟩)
        · exact ⟨by simpa using hv, by simpa using hp, not_lt.mp hfuture⟩
        · exact heach x hx
      · rintro x (_ | ⟨_, hx⟩)
        · exact hid
        · exact ⟨(hfresh x hx).1.2, (hfresh x hx).2.2⟩
      · rw [List.map_cons, List.nodup_cons]
        refine ⟨fun hmem => ?_, hnodup⟩
        obtain ⟨x, hx, heq⟩ := List.mem_map.mp hmem
        exact (hfresh x hx).1.1 heq
      · ext x
        simp only [Finset.mem_union, Finset.mem_insert, List.mem_toFinset, List.map_cons,
          List.mem_cons]
        tauto
    · rintro ⟨heach, hfresh, hnodup, ⟨hseq, hseqs⟩, rfl⟩
      have hs := heach s (by simp)
      have hid := hfresh s (by simp)
      rw [List.map_cons, List.nodup_cons] at hnodup
      unfold validateClaims
      rw [if_neg (by simp [hs.verified]), if_neg (by simp [hs.flops_ok]),
        if_neg (not_or.mpr hid), if_neg hseq, if_neg (not_lt.mpr hs.timely), ih]
      refine ⟨fun x hx => heach x (by simp [hx]), fun x hx => ?_, hnodup.2, hseqs, ?_⟩
      · have hne : x.claim.claimId ≠ s.claim.claimId := fun heq =>
          hnodup.1 (heq ▸ List.mem_map_of_mem hx)
        have hx' := hfresh x (by simp [hx])
        simp [hne, hx']
      · ext x
        simp only [Finset.mem_union, Finset.mem_insert, List.mem_toFinset, List.map_cons,
          List.mem_cons]
        tauto

/-- The claims loop of `validate_proposal` as its conditions. -/
theorem validateClaims_ok_iff (claims : List SignedContribution) (seen seen' : Finset String) :
    validateClaims tol hh claims ∅ ∅ seen = .ok seen' ↔
      ClaimsPass tol hh seen claims ∧
        seen' = seen ∪ (claims.map fun s => s.claim.claimId).toFinset := by
  rw [validateClaims_ok_iff_aux]
  constructor
  · rintro ⟨heach, hfresh, hnodup, hseqs, hseen⟩
    exact ⟨⟨heach, fun s hs => (hfresh s hs).1, hnodup, by simpa using hseqs⟩, hseen⟩
  · rintro ⟨⟨heach, hfresh, hnodup, hseqs⟩, hseen⟩
    exact ⟨heach, fun s hs => ⟨hfresh s hs, by simp⟩, hnodup, by simpa using hseqs, hseen⟩

/-! ## Proposals -/

/-- A proposal that may follow the chain. -/
structure ProposalPasses (tol : Float) (chain : List Checkpoint) (seen : Finset String)
    (allowEmpty : Bool) (p : CheckpointProposal) : Prop where
  height_eq : p.height.toInt = chain.length
  prevHash_eq : p.prevHash = headHash chain
  epoch_advances : ∀ tip ∈ chain.getLast?, tip.epoch < p.epoch.toInt
  nonempty : allowEmpty = false → p.claims ≠ []
  claims : ClaimsPass tol ((chain.length : ℤ) - 1) seen p.claims

/-- The conditions of `validate_proposal` in the terms of the head that it reads. -/
theorem validateProposal_ok_iff_head (p : CheckpointProposal) (seen seen' : Finset String)
    (allowEmpty : Bool) :
    validateProposal p st seen tol allowEmpty = .ok seen' ↔
      p.height.toInt = (st.head.map Checkpoint.height).getD (-1) + 1 ∧
      p.prevHash = (st.head.map Checkpoint.blockHash).getD genesisPrevHash ∧
      (∀ h ∈ st.head, h.epoch < p.epoch.toInt) ∧
      (allowEmpty = false → p.claims ≠ []) ∧
      validateClaims tol ((st.head.map Checkpoint.height).getD (-1)) p.claims ∅ ∅ seen =
        .ok seen' := by
  have hany : (st.head.any fun h => decide (p.epoch.toInt ≤ h.epoch)) = true ↔
      ¬ ∀ h ∈ st.head, h.epoch < p.epoch.toInt := by
    cases st.head <;> simp
  have hempty : (!allowEmpty && p.claims.isEmpty) = true ↔
      ¬ (allowEmpty = false → p.claims ≠ []) := by
    cases allowEmpty <;> simp
  unfold validateProposal
  simp only [ne_eq, hany, hempty]
  split_ifs with h1 h2 h3 h4 <;> simp_all

variable [SerdeReadsBack]

/-- The height of the head is one less than the length of the chain. -/
theorem Refines.head_height (h : Refines st chain) :
    (st.head.map Checkpoint.height).getD (-1) = (chain.length : ℤ) - 1 := by
  rw [h.head]
  rcases List.eq_nil_or_concat' chain with rfl | ⟨l, b, rfl⟩
  · rfl
  · have hb := (Log.snoc_iff.mp h.chain_ok).2.height_eq
    simp [hb]

/-- The hash of the head is that of the chain. -/
theorem Refines.head_hash (h : Refines st chain) :
    (st.head.map Checkpoint.blockHash).getD genesisPrevHash = headHash chain := by
  rw [h.head]
  rcases List.eq_nil_or_concat' chain with rfl | ⟨l, b, rfl⟩
  · rfl
  · simp

/-- `validate_proposal` on a store that holds a chain. -/
theorem Refines.validateProposal_ok_iff (h : Refines st chain) (p : CheckpointProposal)
    (seen seen' : Finset String) (allowEmpty : Bool) :
    validateProposal p st seen tol allowEmpty = .ok seen' ↔
      ProposalPasses tol chain seen allowEmpty p ∧ seen' = seen ∪ p.claimIds.toFinset := by
  rw [validateProposal_ok_iff_head, h.head_height, h.head_hash, validateClaims_ok_iff, h.head]
  constructor
  · rintro ⟨hheight, hprev, hepoch, hempty, hclaims, hseen⟩
    refine ⟨⟨by omega, hprev, ?_, hempty, hclaims⟩, hseen⟩
    intro tip htip
    simpa using hepoch (readBack tip) (by simpa using ⟨tip, htip, rfl⟩)
  · rintro ⟨⟨hheight, hprev, hepoch, hempty, hclaims⟩, hseen⟩
    refine ⟨by omega, hprev, ?_, hempty, hclaims, hseen⟩
    intro b hb
    obtain ⟨tip, htip, rfl⟩ := Option.map_eq_some_iff.mp hb
    simpa using hepoch tip htip

/-! ## Checkpoints -/

/-- The signatures verify and name different signers. -/
structure SignaturesPass (proposalHash : String) (sigs : List QuorumSignature) : Prop where
  signers_nodup : (sigs.map QuorumSignature.nodeId).Nodup
  verified : ∀ sig ∈ sigs,
    verifyShareForProposal sig.signatureHex sig.publicKeyHex proposalHash = true

omit [SerdeReadsBack] in
/-- The loop over signatures passes exactly if they pass and none is by a signer so far. -/
theorem validateSignatures_ok_iff_aux (hash : String) (sigs : List QuorumSignature)
    (signers : Finset String) :
    validateSignatures hash sigs signers = .ok () ↔
      SignaturesPass hash sigs ∧ ∀ sig ∈ sigs, sig.nodeId ∉ signers := by
  induction sigs generalizing signers with
  | nil => simp [validateSignatures, SignaturesPass.mk]
  | cons sig rest ih =>
    unfold validateSignatures
    constructor
    · intro h
      split_ifs at h with hdup hv
      obtain ⟨⟨hnodup, hver⟩, hnew⟩ := (ih _).mp h
      simp only [Finset.mem_insert, not_or] at hnew
      refine ⟨⟨?_, ?_⟩, ?_⟩
      · rw [List.map_cons, List.nodup_cons]
        refine ⟨fun hmem => ?_, hnodup⟩
        obtain ⟨x, hx, heq⟩ := List.mem_map.mp hmem
        exact (hnew x hx).1 heq
      · rintro x (_ | ⟨_, hx⟩)
        · simpa using hv
        · exact hver x hx
      · rintro x (_ | ⟨_, hx⟩)
        · exact hdup
        · exact (hnew x hx).2
    · rintro ⟨⟨hnodup, hver⟩, hnew⟩
      rw [List.map_cons, List.nodup_cons] at hnodup
      rw [if_neg (hnew sig (by simp)), if_neg (by simp [hver sig (by simp)]), ih]
      refine ⟨⟨hnodup.2, fun x hx => hver x (by simp [hx])⟩, fun x hx => ?_⟩
      have hne : x.nodeId ≠ sig.nodeId := fun heq => hnodup.1 (heq ▸ List.mem_map_of_mem hx)
      simp [hne, hnew x (by simp [hx])]

omit [SerdeReadsBack] in
/-- The loop accepts signatures that verify and are of different nodes. -/
theorem validateSignatures_ok_iff (hash : String) (sigs : List QuorumSignature) :
    validateSignatures hash sigs ∅ = .ok () ↔ SignaturesPass hash sigs := by
  simp [validateSignatures_ok_iff_aux]

omit [Crates] [SerdeReadsBack] in
/-- A block needs its quorum of signatures, and at least one. -/
theorem required_eq_max (c : Checkpoint) : c.required = max c.quorum.toNat 1 := by
  unfold Checkpoint.required
  split_ifs with hq
  · have : 0 < c.quorum.toNat := by simpa using UInt64.lt_iff_toNat_lt.mp hq
    omega
  · have : c.quorum.toNat = 0 := by
      have := mt UInt64.lt_iff_toNat_lt.mpr hq
      simpa using this
    omega

/-- The signatures of a checkpoint: enough for its recorded quorum, and good. -/
structure Signed (c : Checkpoint) : Prop where
  enough : c.required ≤ c.signatures.length
  pass : SignaturesPass c.proposal.proposalHash c.signatures

omit [SerdeReadsBack] in
/-- `validate_checkpoint` on any store: the canonical genesis passes as it is, any other
block by its proposal and its signatures. -/
theorem validateCheckpoint_ok_iff (c : Checkpoint) (q : ℕ) (allowEmpty : Bool)
    (seen : Option (Finset String)) (seen' : Finset String) :
    validateCheckpoint c st tol q allowEmpty seen = .ok seen' ↔
      isCanonicalGenesis c.proposal = true ∧ seen' = seen.getD ∅ ∨
      isCanonicalGenesis c.proposal = false ∧
        validateProposal c.proposal st (seen.getD ∅) tol allowEmpty = .ok seen' ∧ Signed c := by
  unfold validateCheckpoint
  cases hg : isCanonicalGenesis c.proposal with
  | true => simp [eq_comm]
  | false =>
    cases hp : validateProposal c.proposal st (seen.getD ∅) tol allowEmpty with
    | error e => simp
    | ok s =>
      by_cases hq : c.signatures.length < c.required
      · have hnot : ¬ Signed c := fun hs => absurd hs.enough (not_le.mpr hq)
        simp [hq, hnot]
      · cases hs : validateSignatures c.proposal.proposalHash c.signatures ∅ with
        | error e =>
          have hnot : ¬ Signed c := fun h => by
            rw [(validateSignatures_ok_iff _ _).mpr h.pass] at hs
            cases hs
          simp [hq, hnot]
        | ok u =>
          have hsigned : Signed c := ⟨not_lt.mp hq, (validateSignatures_ok_iff _ _).mp hs⟩
          simp [hq, hsigned]

end Exodus.Interface
