import Exodus.Interface.Invariant
import Exodus.Interface.SampleChain

/-!
# Which validated blocks the ledger takes

`validate_checkpoint` and `append` are two rule sets.  The validator compares a
sequence number only with the previous one of the same node in the same block, and
it never looks at the numbers in the ledger; the schema asks every `(node_id, seq)`
pair to be new.  `append_ok_iff_insertable` is the exact difference.
-/

set_option autoImplicit false

namespace Exodus.Analysis

open Exodus.Library Exodus.Model Exodus.Interface

variable [Crates] {st : ChainStore} {chain : List Checkpoint} {n : Node} {tol : Float}
  {allowEmpty : Bool} {seen seen' : Finset String} {c : Checkpoint}

/-- What the ledger asks of a validated block beyond its validation. -/
structure Insertable (st : ChainStore) (c : Checkpoint) : Prop where
  pairs_nodup : c.proposal.nodeSeqs.Nodup
  pairs_fresh : ∀ s ∈ c.proposal.claims, st.nodeSeqExists s.claim.nodeId s.claim.seq = false
  cu_notNull : ∀ s ∈ c.proposal.claims, (computeUnits s.claim).isNaN = false
  epoch_nonneg : st.headLocked = none → 0 ≤ c.epoch
  hash_fresh : c.blockHash ∉ st.blocks.map BlockRow.blockHash

/-- The block's pairs are new exactly when the pairs of the longer chain differ. -/
theorem pairs_nodup_iff (h : Refines st chain) (c : Checkpoint) :
    (chainNodeSeqs (chain ++ [c])).Nodup ↔ c.proposal.nodeSeqs.Nodup ∧
      ∀ s ∈ c.proposal.claims, st.nodeSeqExists s.claim.nodeId s.claim.seq = false := by
  have hchain : (chainNodeSeqs chain).Nodup := h.nodeSeqs ▸ st.nodeSeqs_nodup
  have hnew (s : SignedContribution) : st.nodeSeqExists s.claim.nodeId s.claim.seq = false ↔
      (s.claim.nodeId, s.claim.seq) ∉ chainNodeSeqs chain := by
    rw [← h.nodeSeqs, ← nodeSeqExists_iff, Bool.not_eq_true]
  rw [chainNodeSeqs_concat, List.nodup_append', and_iff_right hchain]
  simp only [hnew, CheckpointProposal.nodeSeqs, List.disjoint_right, List.forall_mem_map]

/-- An epoch above the head's is not negative, for the stored epochs are not. -/
theorem epoch_nonneg_of_advances (h : Refines st chain)
    (hepoch : ∀ tip ∈ chain.getLast?, tip.epoch < c.epoch) (hne : chain ≠ []) : 0 ≤ c.epoch := by
  rcases List.eq_nil_or_concat' chain with rfl | ⟨l, tip, rfl⟩
  · exact absurd rfl hne
  · have htip := (Log.snoc_iff.mp h.chain_ok).2.epoch_nonneg
    have := hepoch tip (by simp)
    omega

/-- A proposal that passes on the chain, with the stored ids among the seen ones, extends
the chain exactly when its block is insertable. -/
theorem extends_iff_insertable (h : Refines st chain)
    (hp : ProposalPasses tol chain seen allowEmpty c.proposal)
    (hseen : st.allCommittedClaimIds ⊆ seen) : Extends chain c ↔ Insertable st c := by
  have hhashes : st.blocks.map BlockRow.blockHash = chain.map Checkpoint.blockHash := by
    rw [h.blocks_eq, List.map_map]
    rfl
  have hhead : st.headLocked = none ↔ chain = [] := by
    rw [h.headLocked]
    split_ifs with hnil <;> simp [hnil]
  have hids : (chainClaimIds (chain ++ [c])).Nodup := by
    rw [chainClaimIds_concat, List.nodup_append']
    refine ⟨h.claimIds ▸ st.claimIds_nodup, hp.claims.ids_nodup, ?_⟩
    rw [List.disjoint_right]
    intro id hid hstored
    obtain ⟨s, hs, rfl⟩ := List.mem_map.mp hid
    refine hp.claims.ids_fresh s hs (hseen ?_)
    rw [ChainStore.allCommittedClaimIds, List.mem_toFinset, h.claimIds]
    exact hstored
  constructor
  · intro hext
    obtain ⟨hnodup, hfresh⟩ := (pairs_nodup_iff h c).mp hext.pairs_nodup
    exact ⟨hnodup, hfresh, hext.cu_notNull, fun _ => hext.epoch_nonneg,
      hhashes ▸ hext.hash_fresh⟩
  · rintro ⟨hnodup, hfresh, hcu, hepoch, hhash⟩
    refine ⟨hp.height_eq, hp.prevHash_eq, ?_, hhashes ▸ hhash, hids,
      (pairs_nodup_iff h c).mpr ⟨hnodup, hfresh⟩, hcu⟩
    by_cases hnil : chain = []
    · exact hepoch (hhead.mpr hnil)
    · exact epoch_nonneg_of_advances h hp.epoch_advances hnil

variable [SerdeReadsBack]

/-- In a reachable state a block other than the canonical genesis that passed
`validate_checkpoint`, against the committed or the stored claim ids, is appended
exactly when it is insertable. -/
theorem append_ok_iff_insertable (hn : Node.Reachable n) (c : Checkpoint) (q : ℕ)
    (hgenesis : isCanonicalGenesis c.proposal = false)
    (hseen : seen = n.committedClaimIds ∨ seen = n.store.allCommittedClaimIds)
    (hval : validateCheckpoint c n.store tol q allowEmpty (some seen) = .ok seen') :
    (∃ st', n.store.append c = .ok st') ↔ Insertable n.store c := by
  obtain ⟨hinv, -⟩ := reachable_idle hn
  obtain ⟨chain, h⟩ := hinv.chain
  have hsub : n.store.allCommittedClaimIds ⊆ seen := by
    rcases hseen with rfl | rfl
    · exact hinv.committed
    · exact Finset.Subset.refl _
  rcases (validateCheckpoint_ok_iff c q allowEmpty _ seen').mp hval with ⟨hg, -⟩ | ⟨-, hp, -⟩
  · rw [hg] at hgenesis
    cases hgenesis
  · have hpass := ((Refines.validateProposal_ok_iff h _ _ _ _).mp hp).1
    exact (Refines.append_ok_iff_extends h).trans (extends_iff_insertable h hpass hsub)

end Exodus.Analysis

namespace Exodus.Analysis

open Exodus.Library Exodus.Model Exodus.Interface Exodus.Sample

/-- The first block of the sample passes both rule sets. -/
theorem insertable_first : Insertable (fresh .a "t1").store firstBlock := by
  obtain ⟨seen, hval⟩ := fresh_validates first_follows.passes .a "t1" 1
  exact (append_ok_iff_insertable (fresh_reachable .a "t1") firstBlock 1 (by decide) (.inl rfl)
    hval).mp ((fresh_refines .a "t1").append_extends first_follows.can_append)

/-- A block with one sequence number of a node twice is validated, and the ledger refuses it. -/
theorem clash_validated_not_appended :
    Node.Reachable (fresh .a "t1") ∧
      (∃ seen, validateCheckpoint clashBlock (fresh .a "t1").store tolerance 1 false
        (some (fresh .a "t1").committedClaimIds) = .ok seen) ∧
      ¬ ∃ st, (fresh .a "t1").store.append clashBlock = .ok st :=
  ⟨fresh_reachable .a "t1", fresh_validates clash_passes .a "t1" 1, fun h =>
    clash_not_extends ((fresh_refines .a "t1").append_ok_iff_extends.mp h)⟩

end Exodus.Analysis
