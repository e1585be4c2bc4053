import Exodus.Interface.SampleChain

/-!
# Numbers used again inside a proposal

The claims loop of `validate_proposal` collects the claim ids, so no id comes twice and
none is among the seen ones.  Of the sequence numbers it remembers one for each node and
overwrites it, so it sees a number again only when the node's next claim has it.
`no_reuse_iff` is what an accepted proposal promises: its pairs are distinct exactly when
no node comes back to a number after another one.
-/

set_option autoImplicit false

namespace Exodus.Analysis

open Exodus.Library Exodus.Model Exodus.Interface

/-- The claims of a proposal use no id and no sequence number of a node twice, and no seen
id. -/
structure NoReuse (seen : Finset String) (p : CheckpointProposal) : Prop where
  ids_nodup : p.claimIds.Nodup
  ids_fresh : ∀ id ∈ p.claimIds, id ∉ seen
  pairs_nodup : p.nodeSeqs.Nodup

/-- No node comes back to a sequence number after a claim with another one. -/
def NoReturn (p : CheckpointProposal) : Prop :=
  ∀ nodeId i j, i + 1 < j → j < (seqsOf p.claims nodeId).length →
    (seqsOf p.claims nodeId)[i]? ≠ (seqsOf p.claims nodeId)[j]?

/-- A number of a node is one of the pairs. -/
theorem mem_seqsOf {claims : List SignedContribution} {nodeId : String} {seq : Int64} :
    seq ∈ seqsOf claims nodeId ↔
      (nodeId, seq) ∈ claims.map fun s => (s.claim.nodeId, s.claim.seq) := by
  unfold seqsOf
  simp only [List.mem_map, List.mem_filter, decide_eq_true_eq, Prod.mk.injEq]
  constructor
  · rintro ⟨s, ⟨hs, hid⟩, hseq⟩
    exact ⟨s, hs, hid, hseq⟩
  · rintro ⟨s, hs, hid, hseq⟩
    exact ⟨s, ⟨hs, hid⟩, hseq⟩

/-- The pairs are distinct when each node's numbers are. -/
theorem pairs_nodup_iff_seqs (claims : List SignedContribution) :
    (claims.map fun s => (s.claim.nodeId, s.claim.seq)).Nodup ↔
      ∀ nodeId, (seqsOf claims nodeId).Nodup := by
  induction claims with
  | nil => simp [seqsOf]
  | cons s rest ih =>
    rw [List.map_cons, List.nodup_cons, ← mem_seqsOf, ih]
    constructor
    · rintro ⟨hnew, hrest⟩ nodeId
      rw [seqsOf_cons]
      split_ifs with hid
      · subst hid
        exact List.nodup_cons.mpr ⟨hnew, hrest _⟩
      · exact hrest nodeId
    · intro h
      have hs := h s.claim.nodeId
      rw [seqsOf_cons, if_pos rfl, List.nodup_cons] at hs
      refine ⟨hs.1, fun nodeId => ?_⟩
      have hnode := h nodeId
      rw [seqsOf_cons] at hnode
      split_ifs at hnode
      · exact (List.nodup_cons.mp hnode).2
      · exact hnode

/-- A list whose neighbours differ has no duplicate when the others differ too. -/
theorem nodup_iff_of_isChain {l : List Int64} (hchain : l.IsChain (· ≠ ·)) :
    l.Nodup ↔ ∀ i j, i + 1 < j → j < l.length → l[i]? ≠ l[j]? := by
  rw [List.nodup_iff_getElem?_ne_getElem?]
  constructor
  · intro h i j hij hj
    exact h i j (by omega) hj
  · intro h i j hij hj
    by_cases hnext : i + 1 < j
    · exact h i j hnext hj
    · obtain rfl : j = i + 1 := by omega
      rw [List.getElem?_eq_getElem hj, List.getElem?_eq_getElem (by omega)]
      exact fun heq => List.isChain_iff_getElem.mp hchain i hj (Option.some.inj heq)

/-- A proposal that `validate_proposal` accepts uses nothing twice and no seen id, exactly
when no node comes back to a number after another one. -/
theorem no_reuse_iff [Crates] (p : CheckpointProposal) (st : ChainStore)
    (seen seen' : Finset String) (tol : Float) (allowEmpty : Bool)
    (h : validateProposal p st seen tol allowEmpty = .ok seen') :
    NoReuse seen p ↔ NoReturn p := by
  have hclaims := ((validateProposal_ok_iff_head p seen seen' allowEmpty).mp h).2.2.2.2
  have hpass := ((validateClaims_ok_iff p.claims seen seen').mp hclaims).1
  have hseqs : p.nodeSeqs.Nodup ↔ NoReturn p := by
    rw [CheckpointProposal.nodeSeqs, pairs_nodup_iff_seqs]
    exact forall_congr' fun nodeId => nodup_iff_of_isChain (hpass.seqs_change nodeId)
  constructor
  · exact fun hno => hseqs.mp hno.pairs_nodup
  · intro hno
    refine ⟨hpass.ids_nodup, fun id hid => ?_, hseqs.mpr hno⟩
    obtain ⟨s, hs, rfl⟩ := List.mem_map.mp hid
    exact hpass.ids_fresh s hs

end Exodus.Analysis

namespace Exodus.Analysis

open Exodus.Library Exodus.Model Exodus.Interface Exodus.Sample

/-- A proposal on genesis whose claims pass is accepted on the genesis store. -/
theorem validateProposal_on_genesis {p : CheckpointProposal} (hheight : p.height = 1)
    (hprev : p.prevHash = digestText genesisBlockDigest) (hepoch : 0 < p.epoch.toInt)
    (hne : p.claims ≠ []) (hclaims : ClaimsPass tolerance 0 ∅ p.claims) :
    ∃ seen, validateProposal p (fresh .a "t1").store ∅ tolerance false = .ok seen :=
  ⟨_, ((fresh_refines .a "t1").validateProposal_ok_iff _ _ _ _).mpr
    ⟨proposalPasses_on_genesis hheight hprev hepoch hne hclaims, rfl⟩⟩

/-- The numbers 1, 2 and 3 of one node. -/
def countingProposal : CheckpointProposal :=
  { clashProposal with claims := [firstClaim.signed, secondClaim.signed, thirdClaim.signed] }

/-- Its claims are all of the first node. -/
theorem seqsOf_counting (nodeId : String) :
    seqsOf countingProposal.claims nodeId = if nodeId = Signer.a.nodeId then [1, 2, 3] else [] :=
  seqsOf_of_owner [firstClaim, secondClaim, thirdClaim] (by decide) nodeId

/-- A proposal with three claims of one node under different numbers uses nothing twice. -/
theorem no_reuse_counting : NoReuse ∅ countingProposal := by
  obtain ⟨seen, hval⟩ := validateProposal_on_genesis (p := countingProposal) rfl rfl (by decide)
    (by simp [countingProposal])
    (claimsPass_of_owner [firstClaim, secondClaim, thirdClaim] Signer.a.nodeId
      (by simp [claims]) (by decide) (by decide) (by decide) (by decide) (by decide))
  refine (no_reuse_iff countingProposal (fresh .a "t1").store ∅ seen tolerance false hval).mpr ?_
  intro nodeId i j hij hj
  rw [seqsOf_counting] at hj ⊢
  split_ifs at hj ⊢
  · -- only the first and the last number are not neighbours
    obtain ⟨rfl, rfl⟩ : i = 0 ∧ j = 2 := by
      simp only [List.length_cons, List.length_nil] at hj
      omega
    decide
  · exact absurd hj (Nat.not_lt_zero j)

/-- The clashing proposal is accepted, and its first and last claim have the same number. -/
theorem clash_reuses :
    (∃ seen, validateProposal clashProposal (fresh .a "t1").store ∅ tolerance false = .ok seen) ∧
      ¬ NoReuse ∅ clashProposal := by
  refine ⟨validateProposal_on_genesis rfl rfl (by decide) (by simp [clashProposal]) claimsPass_clash,
    fun hno => ?_⟩
  have hpairs := hno.pairs_nodup
  revert hpairs
  decide

end Exodus.Analysis
