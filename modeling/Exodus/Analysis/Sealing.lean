import Exodus.Interface.Invariant
import Exodus.Interface.SampleNodes

/-!
# When the sealer proposes

`on_claims` admits any claim whose signature verifies, and `propose_internal` puts
every eligible pending claim into one proposal, which it drops as a whole when
`validate_proposal` refuses it.  `propose_emits_iff` says which pending claims let a
proposal out.
-/

set_option autoImplicit false

namespace Exodus.Analysis

open Exodus.Library Exodus.Model Exodus.Interface

variable [Crates] {n : Node} {head : Checkpoint}

/-! ## The eligible claims -/

omit [Crates] in
/-- Eligible claims are pending, not committed and not proposed. -/
theorem mem_eligibleClaims_iff (s : SignedContribution) :
    s ∈ n.eligibleClaims ↔ ∃ id, n.pending[id]? = some s ∧ id ∉ n.committedClaimIds ∧
      id ∉ n.proposedClaimIds := by
  unfold Node.eligibleClaims
  rw [List.mem_insertionSort, List.mem_map]
  constructor
  · rintro ⟨⟨id, s'⟩, he, rfl⟩
    rw [List.mem_filter, Std.ExtTreeMap.mem_toList_iff_getElem?_eq_some] at he
    exact ⟨id, he.1, by simpa using he.2⟩
  · rintro ⟨id, hs, hfree⟩
    refine ⟨(id, s), List.mem_filter.mpr ⟨?_, by simpa using hfree⟩, rfl⟩
    exact Std.ExtTreeMap.mem_toList_iff_getElem?_eq_some.mpr hs

/-- The eligible claims stand under different ids, as they do in the queue. -/
theorem eligibleClaims_ids_nodup (h : Invariant (core n)) :
    (n.eligibleClaims.map fun s => s.claim.claimId).Nodup := by
  have hperm : n.eligibleClaims.Perm ((n.pending.toList.filter fun e =>
      decide (e.1 ∉ n.committedClaimIds) && decide (e.1 ∉ n.proposedClaimIds)).map Prod.snd) :=
    List.perm_insertionSort _ _
  rw [(hperm.map _).nodup_iff, List.map_map]
  have hkeys : (n.pending.toList.map Prod.fst).Nodup := by
    rw [Std.ExtTreeMap.map_fst_toList_eq_keys]
    exact Std.ExtTreeMap.nodup_keys
  have hfilter := hkeys.sublist ((List.filter_sublist (p := fun e =>
      decide (e.1 ∉ n.committedClaimIds) && decide (e.1 ∉ n.proposedClaimIds))).map Prod.fst)
  rw [List.map_congr_left (g := Prod.fst)]
  · exact hfilter
  · rintro ⟨id, s⟩ he
    have hs := Std.ExtTreeMap.mem_toList_iff_getElem?_eq_some.mp (List.mem_of_mem_filter he)
    exact (h.pending id s hs).1

/-! ## The proposal -/

/-- The sealer with eligible claims and no outstanding proposal publishes the next
proposal exactly when `validate_proposal` lets it pass. -/
theorem propose_emits_iff_valid (hout : n.outgoing = [])
    (hsealer : n.sealerForView n.view = n.nodeId) (hhead : n.store.head = some head)
    (hfree : n.outstandingAt (head.height + 1) = false) (hclaims : n.eligibleClaims ≠ []) :
    (∃ p, (Topics.proposals, Message.proposalMessage p) ∈ (n.step .proposeNow).2.1) ↔
      ∃ seen, validateProposal (n.nextProposal head) n.store ∅ n.config.flopsTolerance false =
        .ok seen := by
  show (∃ p, _ ∈ n.proposeInternal.outgoing) ↔ _
  constructor
  · rintro ⟨p, hp⟩
    rcases proposeInternal_cases n with hq | ⟨head', seen, -, hhead', -, hval, -⟩
    · obtain ⟨msgs, hsent, hmsgs⟩ := hq.sends
      rw [hsent, hout, List.nil_append] at hp
      exact (hmsgs _ hp).elim
    · obtain rfl : head = head' := Option.some.inj (hhead.symm.trans hhead')
      exact ⟨seen, hval⟩
  · rintro ⟨seen, hval⟩
    obtain ⟨-, hheld⟩ := proposed_effects (I := Inputs.any) trivial hhead hfree hval trivial
    have hsent := Effects.outgoing_grows
      (maybeCommit_effects (I := Inputs.none) (n.nextProposal head) hheld trivial)
    refine ⟨n.nextProposal head, ?_⟩
    rw [proposeInternal_of_valid hsealer hhead hfree hclaims hval]
    refine hsent.subset ?_
    simp [outgoing_proposed]

variable [SerdeReadsBack]

/-- Where one claim passes in a proposal of its own, the proposal of all eligible claims
passes exactly when each is plausible and timely and no node repeats a number in
consecutive claims. -/
theorem nextProposal_valid_iff (h : Invariant (core n)) (hhead : n.store.head = some head)
    {s : SignedContribution} {seen' : Finset String} (hs : s ∈ n.eligibleClaims)
    (hgood : validateProposal { n.nextProposal head with claims := [s] } n.store ∅
      n.config.flopsTolerance false = .ok seen') :
    (∃ seen, validateProposal (n.nextProposal head) n.store ∅ n.config.flopsTolerance false =
        .ok seen) ↔
      (∀ x ∈ n.eligibleClaims, flopsIsPlausible x.claim n.config.flopsTolerance = true ∧
        x.claim.lastSeenCheckpointHeight.toInt ≤ head.height) ∧
      ∀ nodeId, (seqsOf n.eligibleClaims nodeId).IsChain (· ≠ ·) := by
  obtain ⟨chain, href⟩ := h.chain
  have hheight : (chain.length : ℤ) - 1 = head.height := by
    rw [← href.head_height]
    show ((n.store.head).map Checkpoint.height).getD (-1) = head.height
    rw [hhead]
    rfl
  have hown := ((href.validateProposal_ok_iff _ _ _ _).mp hgood).1
  constructor
  · rintro ⟨seen, hseen⟩
    have hp := ((href.validateProposal_ok_iff _ _ _ _).mp hseen).1
    refine ⟨fun x hx => ?_, hp.claims.seqs_change⟩
    have hx' := hp.claims.each x hx
    exact ⟨hx'.flops_ok, hheight ▸ hx'.timely⟩
  · rintro ⟨heach, hseqs⟩
    refine ⟨_, (href.validateProposal_ok_iff _ _ _ _).mpr ⟨⟨hown.height_eq, hown.prevHash_eq,
      hown.epoch_advances, fun _ => List.ne_nil_of_mem hs, ?_⟩, rfl⟩⟩
    refine ⟨fun x hx => ?_, by simp, eligibleClaims_ids_nodup h, hseqs⟩
    obtain ⟨id, hid, -⟩ := (mem_eligibleClaims_iff x).mp hx
    exact ⟨(h.pending id x hid).2, (heach x hx).1, hheight.symm ▸ (heach x hx).2⟩

/-- In a reachable state in which the node is the sealer, has a head, no outstanding proposal
above it and a claim that is free and passes in a proposal of its own, it publishes a
proposal exactly when every free pending claim is plausible and references no future
block, and no node repeats a sequence number in claims that are consecutive by id. -/
theorem propose_emits_iff (hn : Node.Reachable n) (hsealer : n.sealerForView n.view = n.nodeId)
    (hhead : n.store.head = some head) (hfree : n.outstandingAt (head.height + 1) = false)
    {id : String} {s : SignedContribution} {seen' : Finset String}
    (hpending : n.pending[id]? = some s) (hcommitted : id ∉ n.committedClaimIds)
    (hproposed : id ∉ n.proposedClaimIds)
    (hgood : validateProposal { n.nextProposal head with claims := [s] } n.store ∅
      n.config.flopsTolerance false = .ok seen') :
    (∃ p, (Topics.proposals, Message.proposalMessage p) ∈ (n.step .proposeNow).2.1) ↔
      (∀ x ∈ n.eligibleClaims, flopsIsPlausible x.claim n.config.flopsTolerance = true ∧
        x.claim.lastSeenCheckpointHeight.toInt ≤ head.height) ∧
      ∀ nodeId, (seqsOf n.eligibleClaims nodeId).IsChain (· ≠ ·) := by
  obtain ⟨hinv, hidle⟩ := reachable_idle hn
  have hs : s ∈ n.eligibleClaims :=
    (mem_eligibleClaims_iff s).mpr ⟨id, hpending, hcommitted, hproposed⟩
  exact (propose_emits_iff_valid hidle.outgoing hsealer hhead hfree (List.ne_nil_of_mem hs)).trans
    (nextProposal_valid_iff hinv hhead hs hgood)

end Exodus.Analysis

namespace Exodus.Analysis

open Exodus.Library Exodus.Model Exodus.Interface Exodus.Sample

open Signer

/-- A proposal of the first claim alone is good on genesis. -/
theorem firstClaim_alone {n : Node} (hn : Refines n.store [genesisCheckpoint])
    (hconfig : n.config = config) (hview : n.view = 1) :
    ∃ seen, validateProposal { n.nextProposal (readBack genesisCheckpoint) with
      claims := [firstClaim.signed] } n.store ∅ n.config.flopsTolerance false = .ok seen := by
  have hheight : Int64.ofInt ((readBack genesisCheckpoint).height + 1) = 1 := by
    rw [readBack_height]
    rfl
  have hhash : (readBack genesisCheckpoint).blockHash = digestText genesisBlockDigest :=
    (readBack_blockHash _).trans genesis_blockHash
  rw [hconfig]
  refine ⟨_, (hn.validateProposal_ok_iff _ _ _ _).mpr ⟨?_, rfl⟩⟩
  refine proposalPasses_on_genesis hheight hhash ?_ (by simp)
    (claimsPass_singleton (by simp [claims]) rfl (by decide))
  show 0 < n.view.toInt
  rw [hview]
  decide

/-- The node `b` with the first claim, and without peers. -/
noncomputable def lone : Node := ready b [] "t1" 1 2 0.0

/-- The node is ready to seal. -/
theorem lone_waiting : Waiting b lone := ready_waiting b [] "t1" 1 2 0.0

/-- It can be reached. -/
theorem lone_reachable : Node.Reachable lone := ready_reachable b [] "t1" (by decide)

/-- It seals its own view. -/
theorem sealerForView_lone : lone.sealerForView lone.view = lone.nodeId :=
  sealerForView_ready b [] "t1" 1 2 0.0 (by decide) 1

/-- With the first claim alone the node proposes. -/
theorem lone_proposes :
    ∃ p, (Topics.proposals, Message.proposalMessage p) ∈ (lone.step .proposeNow).2.1 := by
  have hwaiting := lone_waiting
  obtain ⟨seen, hgood⟩ := firstClaim_alone hwaiting.refines rfl rfl
  have hpending : lone.pending["a1"]? = some firstClaim.signed := rfl
  refine (propose_emits_iff lone_reachable sealerForView_lone
    hwaiting.head_eq rfl hpending (Finset.notMem_empty _) (Finset.notMem_empty _) hgood).mpr ⟨?_, ?_⟩
  · rw [hwaiting.claims_eq]
    intro x hx
    rw [List.mem_singleton.mp hx, readBack_height]
    exact ⟨(claimPasses (by simp [claims]) rfl (h := 0) (by decide)).flops_ok, by decide⟩
  · intro nodeId
    rw [hwaiting.claims_eq]
    exact (claimsPass_singleton (h := 0) (by simp [claims]) rfl (by decide)).seqs_change nodeId

/-- The node with the implausible claim beside the first one. -/
noncomputable def burdened : Node :=
  { lone with pending := lone.pending.insert "x" implausibleClaim.signed }

/-- The node with the implausible claim is one of a run. -/
theorem burdened_reachable : Node.Reachable burdened := by
  have hverify : implausibleClaim.signed.verify = true :=
    implausibleClaim.verify (by simp [claims]) rfl
  have hroom : (lone.pending.insert "x" implausibleClaim.signed).size ≤
      maxPendingClaims := by
    rw [show Std.ExtTreeMap.size _ = 2 from rfl, maxPendingClaims]
    norm_num
  have hstep : (lone.step
      (.receive Topics.claims (.contributionGossip implausibleClaim.signed))).1 = burdened := by
    rw [step_receive_claim, onClaims_of_new hverify rfl (Finset.notMem_empty _)
      (Finset.notMem_empty _) hroom]
    rfl
  exact hstep ▸ .step lone_reachable _

/-- A gossiped claim with implausible FLOPS keeps the sealer from proposing, though the first
claim is good. -/
theorem burdened_silent :
    ∃ (n : Node) (head : Checkpoint) (id : String) (s : SignedContribution) (seen : Finset String),
      Node.Reachable n ∧ n.sealerForView n.view = n.nodeId ∧ n.store.head = some head ∧
      n.outstandingAt (head.height + 1) = false ∧ n.pending[id]? = some s ∧
      id ∉ n.committedClaimIds ∧ id ∉ n.proposedClaimIds ∧
      validateProposal { n.nextProposal head with claims := [s] } n.store ∅
        n.config.flopsTolerance false = .ok seen ∧
      ¬ ∃ p, (Topics.proposals, Message.proposalMessage p) ∈ (n.step .proposeNow).2.1 := by
  have href : Refines burdened.store [genesisCheckpoint] := lone_waiting.refines
  have hhead : burdened.store.head = some (readBack genesisCheckpoint) := href.head
  have hsealer : burdened.sealerForView burdened.view = burdened.nodeId :=
    sealerForView_lone
  obtain ⟨seen, hgood⟩ := firstClaim_alone href rfl rfl
  obtain ⟨hinv, hidle⟩ := reachable_idle burdened_reachable
  have hfirst : burdened.pending["a1"]? = some firstClaim.signed := rfl
  have hmem : firstClaim.signed ∈ burdened.eligibleClaims :=
    (mem_eligibleClaims_iff _).mpr ⟨"a1", rfl, Finset.notMem_empty _, Finset.notMem_empty _⟩
  have hbad : implausibleClaim.signed ∈ burdened.eligibleClaims :=
    (mem_eligibleClaims_iff _).mpr ⟨"x", rfl, Finset.notMem_empty _, Finset.notMem_empty _⟩
  refine ⟨burdened, _, "a1", firstClaim.signed, seen, burdened_reachable, hsealer, hhead, rfl, rfl,
    Finset.notMem_empty _, Finset.notMem_empty _, hgood, fun hemits => ?_⟩
  rw [propose_emits_iff_valid hidle.outgoing hsealer hhead rfl (List.ne_nil_of_mem hmem),
    nextProposal_valid_iff hinv hhead hmem hgood] at hemits
  have hflops := (hemits.1 _ hbad).1
  revert hflops
  show flopsIsPlausible implausibleClaim.claim tolerance ≠ true
  decide +kernel

end Exodus.Analysis
