import Exodus.Interface.Canonical
import Exodus.Interface.Invariant
import Exodus.Interface.SampleChain

/-!
# Rejected commits and the quorum that no hash covers

A block hash covers the proposal and the signatures, not the quorum that the block
records.  Two consequences: a block that was rejected for its quorum has a twin of the
same hash that is accepted, and the list of rejected hashes, which `on_commit` consults
before it validates, then keeps the good twin out.
-/

set_option autoImplicit false

namespace Exodus.Analysis

open Exodus.Library Exodus.Model Exodus.Interface

variable [Crates] {n : Node} {c : Checkpoint} {st : ChainStore} {tol : Float} {allowEmpty : Bool}
  {seen : Option (Finset String)}

/-! ## The quorum in transit -/

/-- `validate_checkpoint` comes to its quorum check and finds too few signatures. -/
structure ShortOfQuorum (c : Checkpoint) (st : ChainStore) (tol : Float) (allowEmpty : Bool)
    (seen : Option (Finset String)) : Prop where
  not_genesis : isCanonicalGenesis c.proposal = false
  proposal_ok : ∃ seen', validateProposal c.proposal st (seen.getD ∅) tol allowEmpty = .ok seen'
  few : c.signatures.length < c.required

/-- Such a block is rejected, with the numbers in the message. -/
theorem ShortOfQuorum.rejected (h : ShortOfQuorum c st tol allowEmpty seen) (q : ℕ) :
    validateCheckpoint c st tol q allowEmpty seen =
      .error ⟨"insufficient quorum: " ++ toString c.signatures.length ++ " < " ++
        toString c.required ++ " (block quorum " ++ toString c.quorum.toNat ++
        ", local committee " ++ toString q ++ ")"⟩ := by
  obtain ⟨seen', hp⟩ := h.proposal_ok
  rw [validateCheckpoint, if_neg (by simp [h.not_genesis]), hp]
  exact if_pos h.few

/-- The same block with no quorum recorded needs a single signature. -/
theorem validateCheckpoint_without_quorum (h : ShortOfQuorum c st tol allowEmpty seen) (q : ℕ)
    (hne : c.signatures ≠ []) (hsigs : SignaturesPass c.proposal.proposalHash c.signatures) :
    ∃ seen', validateCheckpoint { c with quorum := 0 } st tol q allowEmpty seen = .ok seen' := by
  obtain ⟨seen', hp⟩ := h.proposal_ok
  have hone : Checkpoint.required { c with quorum := 0 } = 1 := rfl
  refine ⟨seen', (validateCheckpoint_ok_iff _ _ _ _ _).mpr
    (.inr ⟨h.not_genesis, hp, ?_, hsigs⟩)⟩
  rw [hone]
  exact List.length_pos_of_ne_nil hne

/-- A block rejected for too few signatures has no accepted twin of the same hash exactly
when it carries no signatures or its signatures are not good. -/
theorem frozen_quorum_iff [RyuReadsBack] (hsha : Sha256CollisionFree) (q : ℕ)
    (h : ShortOfQuorum c st tol allowEmpty seen) :
    (¬ ∃ c' : Checkpoint, c'.blockHash = c.blockHash ∧
        ∃ seen', validateCheckpoint c' st tol q allowEmpty seen = .ok seen') ↔
      c.signatures = [] ∨
        validateSignatures c.proposal.proposalHash c.signatures ∅ ≠ .ok () := by
  constructor
  · intro hnone
    by_contra hgood
    obtain ⟨hne, hsigs⟩ := not_or.mp hgood
    exact hnone ⟨{ c with quorum := 0 }, rfl, validateCheckpoint_without_quorum h q hne
      ((validateSignatures_ok_iff _ _).mp (not_not.mp hsigs))⟩
  · rintro hbad ⟨c', hhash, seen', hval⟩
    obtain ⟨hproposal, hsigs⟩ := blockHash_injective hsha hhash
    rcases (validateCheckpoint_ok_iff c' q allowEmpty seen seen').mp hval with
      ⟨hg, -⟩ | ⟨-, -, hsigned⟩
    · rw [hproposal, h.not_genesis] at hg
      cases hg
    · -- the twin has the same signatures, enough for its own quorum
      have henough := hsigned.enough
      have hpass := (validateSignatures_ok_iff _ _).mpr hsigned.pass
      rw [hsigs] at henough
      rw [hsigs, hproposal] at hpass
      rcases hbad with hnil | hbad
      · rw [hnil] at henough
        exact absurd henough (by simp [required_eq_max])
      · exact hbad hpass

end Exodus.Analysis

namespace Exodus.Analysis

open Exodus.Library Exodus.Model Exodus.Interface Exodus.Sample

/-- The first proposal of the sample is good, whatever block it is in. -/
theorem first_valid :
    ∃ seen, validateProposal firstProposal (fresh .a "t1").store ∅ tolerance false = .ok seen := by
  rcases first_follows.passes with hg | ⟨-, hp, -⟩
  · exact absurd hg (by decide)
  · exact ⟨_, ((fresh_refines .a "t1").validateProposal_ok_iff _ _ _ _).mpr ⟨hp, rfl⟩⟩

/-- The first block of the sample, as if it asked for five signatures. -/
def fiveBlock : Checkpoint := { firstBlock with quorum := 5 }

/-- It has one signature and asks for five. -/
theorem five_short : ShortOfQuorum fiveBlock (fresh .a "t1").store tolerance false (some ∅) :=
  ⟨by decide, first_valid, by decide⟩

/-- The block without signatures asks for one. -/
theorem bare_short : ShortOfQuorum bareBlock (fresh .a "t1").store tolerance false (some ∅) :=
  ⟨by decide, first_valid, by decide⟩

/-- A block of the sample without its signature has no accepted twin. -/
theorem unsigned_has_no_twin :
    ¬ ∃ c' : Checkpoint, c'.blockHash = bareBlock.blockHash ∧
      ∃ seen, validateCheckpoint c' (fresh .a "t1").store tolerance 1 false (some ∅) = .ok seen :=
  (frozen_quorum_iff sha256_injective 1 bare_short).mpr (.inl rfl)

/-- A block that asks for five signatures and has one is rejected; the same block that asks
for one has the same hash and is accepted. -/
theorem weakened_quorum :
    (validateCheckpoint fiveBlock (fresh .a "t1").store tolerance 1 false (some ∅) =
      .error ⟨"insufficient quorum: 1 < 5 (block quorum 5, local committee 1)"⟩) ∧
      firstBlock.blockHash = fiveBlock.blockHash ∧
      ∃ seen, validateCheckpoint firstBlock (fresh .a "t1").store tolerance 1 false (some ∅) =
        .ok seen :=
  ⟨five_short.rejected 1, rfl, fresh_validates first_follows.passes .a "t1" 1⟩

end Exodus.Analysis

namespace Exodus.Analysis

open Exodus.Library Exodus.Model Exodus.Interface

variable [Crates] [SerdeReadsBack] {n : Node} {c : Checkpoint} {st : ChainStore}

/-! ## The list of rejected hashes -/

omit [SerdeReadsBack] in
/-- A next block whose hash was rejected is dropped before it is looked at. -/
theorem onCommit_of_rejected (hnext : IsNext n.store c)
    (hmem : c.blockHash ∈ n.recentCommitRejects) : n.onCommit c = n := by
  rw [onCommit_of_isNext hnext, Node.acceptCommit, if_pos]
  simpa [Node.commitRejectSeen] using hmem

/-- A next block that would pass the validation and the ledger is appended by `on_commit`
exactly when its hash is not among those of the rejected commits. -/
theorem commit_appended_iff (hn : Node.Reachable n) {head : Checkpoint}
    (hhead : n.store.head = some head) (hheight : c.height = head.height + 1)
    (hprev : c.proposal.prevHash = head.blockHash) {q : ℕ} {seen' : Finset String}
    (hval : validateCheckpoint c n.store n.config.flopsTolerance q false
      (some n.committedClaimIds) = .ok seen')
    (happ : n.store.append c = .ok st) :
    (n.onCommit c).store.rowAt c.height = some (ChainStore.blockRow c) ↔
      c.blockHash ∉ n.recentCommitRejects := by
  obtain ⟨chain, href⟩ := (reachable_idle hn).1.chain
  replace href : Refines n.store chain := href
  have hnext : IsNext n.store c := by
    rw [IsNext, hhead]
    exact ⟨hheight, hprev⟩
  have hlen := href.height_of_isNext hnext
  have hseen : n.commitRejectSeen c.blockHash = true ↔ c.blockHash ∈ n.recentCommitRejects := by
    simp [Node.commitRejectSeen]
  rw [onCommit_of_isNext hnext]
  rcases acceptCommit_cases n c with ⟨hknown, heq⟩ | ⟨hfresh, ⟨e, herr, -⟩ | ⟨seen₁, -, heq⟩⟩
  · -- the block is dropped before it is looked at
    rw [heq, hlen, href.rowAt, blockAt_natCast, List.getElem?_eq_none le_rfl]
    simp [hseen.mp hknown]
  · rw [validateCheckpoint_ok_iff, ← validateCheckpoint_ok_iff c n.quorumSize, herr] at hval
    cases hval
  · obtain ⟨more, hmore⟩ := acceptCommit_grows_of_extends href (href.append_ok happ).1 seen₁
    rw [heq, hlen, hmore.rowAt, blockAt_natCast]
    have hnot : c.blockHash ∉ n.recentCommitRejects := by
      rw [← hseen, hfresh]
      exact Bool.false_ne_true
    simp [hnot]

end Exodus.Analysis

namespace Exodus.Analysis

open Exodus.Library Exodus.Model Exodus.Interface Exodus.Sample

/-- The node after it rejected a block. -/
noncomputable def warned (c : Checkpoint) : Node :=
  { fresh .a "t1" with recentCommitRejects := [c.blockHash] }

/-- A fresh node that receives a block with too few signatures remembers its hash. -/
theorem step_short {c : Checkpoint} (hext : Extends [genesisCheckpoint] c)
    (hshort : ShortOfQuorum c (fresh .a "t1").store tolerance false (some ∅)) :
    ((fresh .a "t1").step (.receive Topics.commits (.commitMessage c))).1 = warned c := by
  show ((fresh .a "t1").onCommit c).drain.1 = _
  rw [onCommit_of_isNext (hext.isNext (fresh_refines .a "t1")), Node.acceptCommit,
    if_neg (by simp [fresh, Node.commitRejectSeen]),
    show (fresh .a "t1").config.flopsTolerance = tolerance from rfl,
    show (fresh .a "t1").committedClaimIds = ∅ from rfl, hshort.rejected]
  show ((fresh .a "t1").noteCommitReject c.blockHash).drain.1 = _
  have hall : [c.blockHash].drop ([c.blockHash].length - maxRecentCommitRejects) = [c.blockHash] := by
    simp [maxRecentCommitRejects]
  rw [Node.noteCommitReject, if_neg (by simp [fresh, Node.commitRejectSeen])]
  dsimp only
  rw [show (fresh .a "t1").recentCommitRejects = [] from rfl, List.nil_append, hall]
  rfl

/-- So a node that remembers it can be reached. -/
theorem warned_reachable {c : Checkpoint} (hext : Extends [genesisCheckpoint] c)
    (hshort : ShortOfQuorum c (fresh .a "t1").store tolerance false (some ∅)) :
    Node.Reachable (warned c) :=
  step_short hext hshort ▸ .step (fresh_reachable .a "t1") _

/-- The rejected block is not in the ledger. -/
theorem warned_refines (c : Checkpoint) : Refines (warned c).store [genesisCheckpoint] :=
  fresh_refines .a "t1"

/-- The block without signatures was rejected; the signed one has another hash and is
appended. -/
theorem first_appended : (warned bareBlock).recentCommitRejects = [bareBlock.blockHash] ∧
    ((warned bareBlock).onCommit firstBlock).store.rowAt firstBlock.height =
      some (ChainStore.blockRow firstBlock) := by
  have href := warned_refines bareBlock
  have hext : Extends [genesisCheckpoint] bareBlock :=
    extends_genesis_of (by simp [claims] : firstClaim ∈ claims) rfl rfl (by decide) rfl (by decide)
  obtain ⟨seen, hval⟩ := fresh_validates first_follows.passes .a "t1" 1
  obtain ⟨st, happ⟩ := href.append_extends first_follows.can_append
  refine ⟨rfl, (commit_appended_iff (warned_reachable hext bare_short) href.head ?_ ?_ hval
    happ).mpr ?_⟩
  · rw [readBack_height]
    rfl
  · exact genesis_blockHash.symm.trans (readBack_blockHash _).symm
  · show firstBlock.blockHash ∉ [bareBlock.blockHash]
    rw [first_blockHash, bare_blockHash]
    decide

/-- The block was rejected with a quorum of five; then it comes with a quorum of one, is good
and is not appended. -/
theorem poisoned_first :
    ∃ n : Node, Node.Reachable n ∧
      (∃ head, n.store.head = some head ∧ firstBlock.height = head.height + 1 ∧
        firstBlock.proposal.prevHash = head.blockHash) ∧
      (∃ seen, validateCheckpoint firstBlock n.store n.config.flopsTolerance n.quorumSize false
        (some n.committedClaimIds) = .ok seen) ∧
      (∃ st, n.store.append firstBlock = .ok st) ∧
      (n.onCommit firstBlock).store.rowAt firstBlock.height ≠
        some (ChainStore.blockRow firstBlock) := by
  have href := warned_refines fiveBlock
  have hext := first_follows.can_append
  have hfive : Extends [genesisCheckpoint] fiveBlock := Extends.congr (c := firstBlock) rfl rfl hext
  refine ⟨warned fiveBlock, warned_reachable hfive five_short, ⟨_, href.head, ?_, ?_⟩,
    fresh_validates first_follows.passes .a "t1" _, href.append_extends hext, ?_⟩
  · rw [readBack_height]
    rfl
  · exact genesis_blockHash.symm.trans (readBack_blockHash _).symm
  · rw [onCommit_of_rejected (hext.isNext href) (List.mem_singleton_self _), href.rowAt,
      hext.height_eq, blockAt_natCast, List.getElem?_eq_none le_rfl]
    simp

end Exodus.Analysis
