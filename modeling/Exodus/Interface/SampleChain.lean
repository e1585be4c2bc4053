import Exodus.Interface.Invariant
import Exodus.Interface.Sample

/-!
# The sample on the chain

Which blocks of the sample may follow genesis: `firstBlock`, its variant with both
signatures, `rivalBlock`, `lastEpochBlock` and `debtBlock` do, and `secondBlock` may follow
`firstBlock`.  `clashBlock` passes the validation and does not fit into the ledger, since it
has one sequence number of a node twice.  `usurperBlock` may come at height 0.
-/

set_option autoImplicit false

namespace Exodus.Sample

open Exodus.Library Exodus.Model Exodus.Interface Signer

/-- The default FLOPS tolerance. -/
def tolerance : Float := 0.5

/-! ## Claims -/

/-- A claim is under the name of its owner. -/
theorem owner_eq {c : Claim} (hc : c ∈ claims) : c.claim.nodeId = c.owner.nodeId := by
  revert c
  decide +kernel

/-- A claim with the right FLOPS passes at its height. -/
theorem claimPasses {c : Claim} (hc : c ∈ claims) (hflops : c.claim.flopsEstimate = workFlops)
    {h : ℤ} (hh : c.claim.lastSeenCheckpointHeight.toInt ≤ h) :
    ClaimPasses tolerance h c.signed := by
  refine ⟨c.verify hc (owner_eq hc), ?_, hh⟩
  have hall : ∀ c ∈ claims, c.claim.flopsEstimate = workFlops →
      flopsIsPlausible c.claim tolerance = true := by decide +kernel
  exact hall c hc hflops

/-- Every claim has compute units. -/
theorem cu_notNull {c : Claim} (hc : c ∈ claims) : (computeUnits c.claim).isNaN = false := by
  revert c
  decide +kernel

/-- A plausible claim passes alone. -/
theorem claimsPass_singleton {c : Claim} (hc : c ∈ claims)
    (hflops : c.claim.flopsEstimate = workFlops) {h : ℤ}
    (hh : c.claim.lastSeenCheckpointHeight.toInt ≤ h) :
    ClaimsPass tolerance h ∅ [c.signed] := by
  refine ⟨fun s hs => ?_, by simp, by simp, fun nodeId => ?_⟩
  · rw [List.mem_singleton.mp hs]
    exact claimPasses hc hflops hh
  · rw [seqsOf_cons]
    split_ifs <;> simp [seqsOf]

/-- The numbers of claims that are all of one node. -/
theorem seqsOf_of_owner (cs : List Claim) {id : String} (howner : ∀ c ∈ cs, c.claim.nodeId = id)
    (nodeId : String) : seqsOf (cs.map Claim.signed) nodeId =
      if nodeId = id then cs.map fun c => c.claim.seq else [] := by
  unfold seqsOf
  split_ifs with hid
  · rw [List.filter_eq_self.mpr, List.map_map]
    · rfl
    · intro s hs
      obtain ⟨c, hc, rfl⟩ := List.mem_map.mp hs
      exact decide_eq_true ((howner c hc).trans hid.symm)
  · rw [List.filter_eq_nil_iff.mpr]
    · rfl
    · intro s hs
      obtain ⟨c, hc, rfl⟩ := List.mem_map.mp hs
      have hown : c.signed.claim.nodeId = id := howner c hc
      simpa [hown] using Ne.symm hid

/-- Plausible claims of one node pass if their ids differ and no two neighbours have the same
number. -/
theorem claimsPass_of_owner (cs : List Claim) (id : String) (hcs : cs ⊆ claims)
    (howner : ∀ c ∈ cs, c.claim.nodeId = id)
    (hflops : ∀ c ∈ cs, c.claim.flopsEstimate = workFlops) {h : ℤ}
    (hseen : ∀ c ∈ cs, c.claim.lastSeenCheckpointHeight.toInt ≤ h)
    (hids : (cs.map fun c => c.claim.claimId).Nodup)
    (hseqs : (cs.map fun c => c.claim.seq).IsChain (· ≠ ·)) :
    ClaimsPass tolerance h ∅ (cs.map Claim.signed) := by
  refine ⟨fun s hs => ?_, by simp, by rwa [List.map_map], fun nodeId => ?_⟩
  · obtain ⟨c, hc, rfl⟩ := List.mem_map.mp hs
    exact claimPasses (hcs hc) (hflops c hc) (hseen c hc)
  · rw [seqsOf_of_owner cs howner]
    split_ifs
    · exact hseqs
    · exact List.isChain_nil

/-- The validator compares neighbours only, so the repeated number passes. -/
theorem claimsPass_clash : ClaimsPass tolerance 0 ∅ clashProposal.claims :=
  claimsPass_of_owner [firstClaim, secondClaim, repeatedClaim] a.nodeId (by simp [claims])
    (by decide) (by decide) (by decide) (by decide) (by decide)

/-! ## Blocks on genesis -/

/-- The head of the chain of genesis. -/
theorem headHash_genesis : headHash [genesisCheckpoint] = digestText genesisBlockDigest :=
  (headHash_concat [] genesisCheckpoint).trans genesis_blockHash

/-- A proposal for height 1 passes on genesis if its claims do. -/
theorem proposalPasses_on_genesis {p : CheckpointProposal} (hheight : p.height = 1)
    (hprev : p.prevHash = digestText genesisBlockDigest) (hepoch : 0 < p.epoch.toInt)
    (hne : p.claims ≠ []) (hclaims : ClaimsPass tolerance 0 ∅ p.claims) :
    ProposalPasses tolerance [genesisCheckpoint] ∅ false p := by
  refine ⟨by rw [hheight]; rfl, hprev.trans headHash_genesis.symm, fun tip htip => ?_,
    fun _ => hne, hclaims⟩
  obtain rfl : genesisCheckpoint = tip := by simpa using htip
  exact hepoch

/-- One vote is enough for a block that records a quorum of one. -/
theorem signed_of_vote {p : CheckpointProposal} {v : Vote} (hv : v ∈ votes)
    (hp : p.proposalHash = digestText v.digest) : Signed ⟨p, [v.signed], 1⟩ := by
  refine ⟨by show (1 : ℕ) ≤ 1; rfl, by simp, fun sig hsig => ?_⟩
  rw [List.mem_singleton.mp hsig]
  show verifyShareForProposal _ _ p.proposalHash = true
  rw [hp]
  exact v.verifies_signed hv

/-- A block for height 1 with one claim of the sample can be appended on genesis. -/
theorem extends_genesis_of {c : Checkpoint} {cl : Claim} (hcl : cl ∈ claims)
    (hheight : c.proposal.height = 1)
    (hprev : c.proposal.prevHash = digestText genesisBlockDigest) (hepoch : 0 < c.epoch)
    (hclaims : c.proposal.claims = [cl.signed])
    (htime : c.proposal.createdAt ≠ genesisTimestamp) : Extends [genesisCheckpoint] c := by
  refine ⟨?_, hprev.trans headHash_genesis.symm, hepoch.le, ?_, ?_, ?_, ?_⟩
  · rw [Checkpoint.height, hheight]
    rfl
  · simpa using blockHash_ne htime
  · rw [show [genesisCheckpoint] ++ [c] = [genesisCheckpoint, c] from rfl]
    simp [chainClaimIds, chainClaims, hclaims, genesisCheckpoint]
  · simp [chainNodeSeqs, chainClaims, hclaims, genesisCheckpoint]
  · rw [hclaims]
    intro s hs
    rw [List.mem_singleton.mp hs]
    exact cu_notNull hcl

/-- A block for height 1 with one plausible claim of the sample and good signatures follows
genesis. -/
theorem follows_genesis_with {c : Checkpoint} {cl : Claim} (hcl : cl ∈ claims)
    (hflops : cl.claim.flopsEstimate = workFlops)
    (hseen : cl.claim.lastSeenCheckpointHeight.toInt ≤ 0) (hheight : c.proposal.height = 1)
    (hprev : c.proposal.prevHash = digestText genesisBlockDigest) (hepoch : 0 < c.epoch)
    (hclaims : c.proposal.claims = [cl.signed])
    (htime : c.proposal.createdAt ≠ genesisTimestamp) (hsigned : Signed c) :
    Follows tolerance [genesisCheckpoint] c := by
  refine ⟨.inr ⟨?_, ?_, hsigned⟩, extends_genesis_of hcl hheight hprev hepoch hclaims htime⟩
  · rw [Bool.eq_false_iff]
    intro hg
    exact htime (congrArg CheckpointProposal.createdAt ((isCanonicalGenesis_iff _).mp hg))
  · refine proposalPasses_on_genesis hheight hprev hepoch (by simp [hclaims]) ?_
    rw [hclaims]
    exact claimsPass_singleton hcl hflops hseen

/-- A signed block with the first claim may follow genesis. -/
theorem follows_genesis {c : Checkpoint} (hheight : c.proposal.height = 1)
    (hprev : c.proposal.prevHash = digestText genesisBlockDigest) (hepoch : 0 < c.epoch)
    (hclaims : c.proposal.claims = [firstClaim.signed])
    (htime : c.proposal.createdAt ≠ genesisTimestamp) (hsigned : Signed c) :
    Follows tolerance [genesisCheckpoint] c :=
  follows_genesis_with (by simp [claims]) rfl (by decide) hheight hprev hepoch hclaims htime hsigned

/-- The first block may follow genesis. -/
theorem first_follows : Follows tolerance [genesisCheckpoint] firstBlock :=
  follows_genesis rfl rfl (by decide) rfl (by decide)
    (signed_of_vote (v := firstVote) (by simp [votes]) first_proposalHash)

/-- The rival block may. -/
theorem rival_follows : Follows tolerance [genesisCheckpoint] rivalBlock :=
  follows_genesis rfl rfl (by decide) rfl (by decide)
    (signed_of_vote (v := rivalVote) (by simp [votes]) rival_proposalHash)

/-- The block of the last epoch may. -/
theorem lastEpoch_follows : Follows tolerance [genesisCheckpoint] lastEpochBlock :=
  follows_genesis rfl rfl (by decide) rfl (by decide)
    (signed_of_vote (v := lastEpochVote) (by simp [votes]) lastEpoch_proposalHash)

/-- Votes of different nodes for the first proposal sign it. -/
theorem signed_of_votes (vs : List Vote) {q : UInt64} (hvs : vs ⊆ votes)
    (hdigest : ∀ v ∈ vs, v.digest = firstDigest) (hquorum : q.toNat ≤ vs.length) (hne : 0 < vs.length)
    (hnodup : (vs.map fun v => v.signer.nodeId).Nodup) :
    Signed ⟨firstProposal, vs.map Vote.signed, q⟩ := by
  refine ⟨?_, by rwa [List.map_map], fun sig hsig => ?_⟩
  · rw [List.length_map, Checkpoint.required]
    split_ifs
    · exact hquorum
    · exact hne
  · obtain ⟨v, hv, rfl⟩ := List.mem_map.mp hsig
    show verifyShareForProposal _ _ firstProposal.proposalHash = true
    rw [first_proposalHash, ← hdigest v hv]
    exact v.verifies_signed (hvs hv)

/-- The first block with both signatures carries a quorum. -/
theorem firstBoth_signed : Signed firstBlockBoth :=
  signed_of_votes [firstVoteToo, firstVote] (by simp [votes]) (by decide) (by decide) (by decide)
    (by decide)

/-- The first block with three signatures may follow genesis. -/
theorem firstThree_follows : Follows tolerance [genesisCheckpoint] firstBlockThree :=
  follows_genesis rfl rfl (by decide) rfl (by decide)
    (signed_of_votes [firstVoteToo, firstVote, firstVoteOfC] (by simp [votes]) (by decide)
      (by decide) (by decide) (by decide))

/-- So may the one with two. -/
theorem firstBoth_follows : Follows tolerance [genesisCheckpoint] firstBlockBoth :=
  follows_genesis rfl rfl (by decide) rfl (by decide) firstBoth_signed

/-- Genesis may come first. -/
theorem genesis_follows : Follows tolerance [] genesisCheckpoint :=
  ⟨.inl (by decide), extends_genesis⟩

/-- Genesis and a block that follows it are a valid chain. -/
theorem validChain_of_follows {c : Checkpoint} (h : Follows tolerance [genesisCheckpoint] c) :
    ValidChain tolerance [genesisCheckpoint, c] :=
  ⟨(Log.nil.snoc genesis_follows).snoc h, rfl⟩

/-- The block with a number twice passes the validation on genesis. -/
theorem clash_passes : Passes tolerance [genesisCheckpoint] clashBlock :=
  .inr ⟨by decide, proposalPasses_on_genesis rfl rfl (by decide) (by simp [clashBlock, clashProposal])
    claimsPass_clash, signed_of_vote (v := clashVote) (by simp [votes]) clash_proposalHash⟩

/-- The ledger does not take it. -/
theorem clash_not_extends : ¬ Extends [genesisCheckpoint] clashBlock := by
  intro h
  have hpairs := h.pairs_nodup
  revert hpairs
  decide

/-- The block with the negative time may follow genesis. -/
theorem debt_follows : Follows tolerance [genesisCheckpoint] debtBlock :=
  follows_genesis_with (by simp [claims] : debtClaim ∈ claims) rfl (by decide) rfl rfl (by decide) rfl
    (by decide) (signed_of_vote (v := debtVote) (by simp [votes]) debt_proposalHash)

/-! ## A block on the first one -/

/-- The head of the chain of the first block. -/
theorem headHash_first : headHash [genesisCheckpoint, firstBlock] = digestText firstBlockDigest :=
  (headHash_concat [genesisCheckpoint] firstBlock).trans first_blockHash

/-- The second block may follow the first. -/
theorem second_follows : Follows tolerance [genesisCheckpoint, firstBlock] secondBlock := by
  refine ⟨.inr ⟨by decide, ⟨rfl, headHash_first.symm, ?_, by simp [secondBlock, secondProposal], ?_⟩,
    signed_of_vote (v := secondVote) (by simp [votes]) second_proposalHash⟩, ?_⟩
  · intro tip htip
    obtain rfl : firstBlock = tip := by simpa using htip
    decide
  · exact claimsPass_singleton (c := secondClaim) (by simp [claims]) rfl (by decide)
  · refine ⟨rfl, headHash_first.symm, by decide, ?_, by decide, by decide, ?_⟩
    · simp only [List.map_cons, List.map_nil, List.mem_cons, List.not_mem_nil, or_false, not_or]
      exact ⟨blockHash_ne (by decide), blockHash_ne (by decide)⟩
    · intro s hs
      obtain rfl : s = secondClaim.signed := by simpa [secondBlock, secondProposal] using hs
      exact cu_notNull (c := secondClaim) (by simp [claims])

/-- Genesis, the first and the second block are a valid chain. -/
theorem validChain_second : ValidChain tolerance [genesisCheckpoint, firstBlock, secondBlock] :=
  ⟨((Log.nil.snoc genesis_follows).snoc first_follows).snoc second_follows, rfl⟩

/-! ## A block at height 0 -/

/-- The block for height 0 may come first. -/
theorem usurper_follows : Follows tolerance [] usurperBlock := by
  refine ⟨.inr ⟨by decide, ⟨by decide, rfl, by simp, by simp [usurperBlock, usurperProposal], ?_⟩,
    signed_of_vote (v := usurperVote) (by simp [votes]) usurper_proposalHash⟩, ?_⟩
  · exact claimsPass_singleton (c := earlyClaim) (by simp [claims]) rfl (by decide)
  · refine ⟨by decide, rfl, by decide, by simp, by decide, by decide, fun s hs => ?_⟩
    obtain rfl : s = earlyClaim.signed := by simpa [usurperBlock, usurperProposal] using hs
    exact cu_notNull (c := earlyClaim) (by simp [claims])

/-! ## Nodes -/

/-- The default settings. -/
def config : ExodusConfig where
  epochSeconds := 30.0
  electionTimeoutSeconds := 90.0
  byzantine := true
  activePeerWindow := 5
  heartbeatSeconds := 10.0
  syncRequestIntervalSeconds := 5.0
  flopsTolerance := tolerance

/-- The start at 0 s, the next reading of the clock at 80 s, and then 20 s between readings for
some time. -/
def ambient (time : String) : Ambient where
  now k := [0.0, 0.0, 80.0, 100.0, 120.0, 140.0, 160.0].getD k 180.0
  utcNow _ := time
  hashOrder _ := 0

/-- A node that has just started on an empty ledger. -/
noncomputable def fresh (s : Signer) (time : String) : Node where
  nodeId := s.nodeId
  privateKey := s.seed
  publicKeyHex := hex s.key
  store := ChainStore.empty.appended genesisCheckpoint
  config
  ambient := ambient time
  reads := 2
  pending := ∅
  committedClaimIds := ∅
  proposedClaimIds := ∅
  proposals := ∅
  signatures := ∅
  signed := ∅
  view := 1
  lastActivity := 0.0
  peers := ∅
  peerSeen := ∅
  pendingCommits := ∅
  recentForkAlerts := ∅
  recentCommitRejects := []
  lastSyncRequest := 0.0
  syncIntervalSeconds := 5.0
  outgoing := []
  listenerCalls := []

/-- A fresh node is what `new` makes. -/
theorem fresh_eq_new (s : Signer) (time : String) :
    fresh s time =
      Node.new s.nodeId s.seed (hex s.key) ChainStore.empty config (ambient time) := by
  have hheight : ChainStore.empty.height = -1 := refines_empty.height
  unfold Node.new
  dsimp only
  rw [if_neg (not_not.mpr hheight)]
  rfl

/-- So it can be reached. -/
theorem fresh_reachable (s : Signer) (time : String) : Node.Reachable (fresh s time) := by
  rw [fresh_eq_new]
  exact .start _ _ _ _ _

/-- Its chain is genesis. -/
theorem fresh_refines (s : Signer) (time : String) :
    Refines (fresh s time).store [genesisCheckpoint] :=
  refines_empty.appended_extends extends_genesis

/-- Its head is genesis. -/
theorem fresh_head (s : Signer) (time : String) :
    (fresh s time).store.head = some (readBack genesisCheckpoint) :=
  (fresh_refines s time).head

/-- A block that passes on genesis passes at a fresh node. -/
theorem fresh_validates {c : Checkpoint} (hpass : Passes tolerance [genesisCheckpoint] c)
    (s : Signer) (time : String) (q : ℕ) :
    ∃ seen, validateCheckpoint c (fresh s time).store tolerance q false
      (some (fresh s time).committedClaimIds) = .ok seen :=
  ((fresh_refines s time).validateCheckpoint_ok_iff c q (some ∅) rfl).mpr hpass

/-- A fresh node that receives a block which follows genesis appends it. -/
theorem fresh_commits {c : Checkpoint} (hf : Follows tolerance [genesisCheckpoint] c) (s : Signer)
    (time : String) :
    ∃ st, Refines st [genesisCheckpoint, c] ∧
      ((fresh s time).step (.receive Topics.commits (.commitMessage c))).1 =
        (({ fresh s time with
          committedClaimIds := ∅ ∪ c.proposal.claimIds.toFinset
          store := st } : Node).announceCommit c).drain.1 := by
  obtain ⟨st, href, heq⟩ := onCommit_of_follows (fresh_refines s time) hf rfl (by simp [fresh])
    (by simp [fresh])
  exact ⟨st, href, congrArg (fun m => m.drain.1) heq⟩

/-- A node after it received a block. -/
noncomputable def after (c : Checkpoint) (s : Signer) (time : String) : Node :=
  ((fresh s time).step (.receive Topics.commits (.commitMessage c))).1

/-- A node that has received a block can be reached. -/
theorem after_reachable (c : Checkpoint) (s : Signer) (time : String) :
    Node.Reachable (after c s time) :=
  .step (fresh_reachable s time) _

/-- A block that follows genesis is appended. -/
theorem after_spec {c : Checkpoint} (hf : Follows tolerance [genesisCheckpoint] c) (s : Signer)
    (time : String) :
    Refines (after c s time).store [genesisCheckpoint, c] ∧ (after c s time).config = config := by
  obtain ⟨st, href, heq⟩ := fresh_commits hf s time
  have hcore := congrArg core heq
  rw [core_drain, core_announceCommit] at hcore
  have hstore : (after c s time).store = st := congrArg Core.store hcore
  exact ⟨hstore ▸ href, congrArg Core.config hcore⟩

/-- It knows the claims of the block, and nothing waits or was rejected. -/
theorem after_sets {c : Checkpoint} (hf : Follows tolerance [genesisCheckpoint] c) (s : Signer)
    (time : String) :
    (after c s time).committedClaimIds = c.proposal.claimIds.toFinset ∧
      (after c s time).pendingCommits = ∅ ∧ (after c s time).recentCommitRejects = [] := by
  obtain ⟨st, href, heq⟩ := fresh_commits hf s time
  have hcore := congrArg core heq
  rw [core_drain, core_announceCommit] at hcore
  refine ⟨?_, congrArg Core.pendingCommits hcore, congrArg Core.recentCommitRejects hcore⟩
  refine (congrArg Core.committedClaimIds hcore).trans ?_
  show ∅ ∪ _ ∪ _ = _
  rw [Finset.empty_union, Finset.union_self]

/-- Its clock has been read once more, and it has asked for nothing. -/
theorem after_clock {c : Checkpoint} (hf : Follows tolerance [genesisCheckpoint] c) (s : Signer)
    (time : String) :
    (after c s time).ambient = ambient time ∧ (after c s time).reads = 3 ∧
      (after c s time).lastSyncRequest = 0.0 ∧ (after c s time).syncIntervalSeconds = 5.0 := by
  obtain ⟨st, href, heq⟩ := fresh_commits hf s time
  rw [after, heq, Node.announceCommit, settleClaims_eq]
  exact ⟨rfl, rfl, rfl, rfl⟩

end Exodus.Sample
