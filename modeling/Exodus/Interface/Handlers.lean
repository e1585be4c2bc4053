import Exodus.Interface.Adoption
import Exodus.Interface.Invariant
import Exodus.Library.FloatOrder

/-!
# Handlers in the course of a round

What the handlers of `protocol.rs` do in the cases that a round of the protocol goes
through: a heartbeat of a peer on the same head, a claim that is new, a takeover, and the
shares that a node gathers for a proposal until it has a quorum of them.  On genesis the
committee is the node and its peers, in the order of their ids.
-/

set_option autoImplicit false

namespace Exodus.Interface

open Exodus.Library Exodus.Model

variable [Crates] {n : Node}

/-! ## Single handlers -/

/-- A claim that is delivered. -/
theorem step_receive_claim (s : SignedContribution) :
    n.step (.receive Topics.claims (.contributionGossip s)) = (n.onClaims s).drain := rfl

/-- A heartbeat that is delivered goes to `on_heartbeat`. -/
theorem step_receive_heartbeat (hb : Heartbeat) :
    n.step (.receive Topics.heartbeats (.heartbeat hb)) = (n.onHeartbeat hb).drain := rfl

/-- A call to propose runs `propose_internal`. -/
theorem step_proposeNow : (n.step .proposeNow).1 = n.proposeInternal.drain.1 := rfl

omit [Crates] in
/-- To take the messages out leaves the ledger. -/
theorem store_drain : n.drain.1.store = n.store := rfl

/-- A proposal that is delivered goes to `on_proposal`. -/
theorem step_receive_proposal (p : CheckpointProposal) :
    n.step (.receive Topics.proposals (.proposalMessage p)) = (n.onProposal p).drain := rfl

/-- A share that is delivered. -/
theorem step_receive_share (share : SignatureShare) :
    n.step (.receive Topics.signatures (.signatureShare share)) =
      (n.onSignature share).drain := rfl

/-- A heartbeat of a peer on the same head is only noted. -/
theorem onHeartbeat_of_same_head {hb : Heartbeat} {head : Checkpoint}
    (hother : hb.nodeId ≠ n.nodeId) (hhead : n.store.head = some head)
    (hheight : hb.height.toInt = head.height) (hhash : hb.blockHash = head.blockHash) :
    n.onHeartbeat hb = { n with
      peers := n.peers.insert hb.nodeId hb
      peerSeen := n.peerSeen.insert hb.nodeId n.now
      reads := n.reads + 1 } := by
  unfold Node.onHeartbeat
  rw [if_neg hother]
  dsimp only
  split
  · rename_i hnone
    cases hhead.symm.trans hnone
  · rename_i head' hsome
    obtain rfl : head = head' := Option.some.inj (hhead.symm.trans hsome)
    rw [if_neg (by omega), if_neg (fun h => h.2 hhash)]
    rfl

/-- A new claim is admitted where there is room for it. -/
theorem onClaims_of_new {s : SignedContribution} (hv : s.verify = true)
    (hpending : n.pending.contains s.claim.claimId = false)
    (hcommitted : s.claim.claimId ∉ n.committedClaimIds)
    (hproposed : s.claim.claimId ∉ n.proposedClaimIds)
    (hroom : (n.pending.insert s.claim.claimId s).size ≤ maxPendingClaims) :
    n.onClaims s = { n with pending := n.pending.insert s.claim.claimId s } := by
  unfold Node.onClaims
  rw [hv, if_neg (by simp), if_neg (by simp [hpending, hcommitted, hproposed])]
  dsimp only
  generalize (n.pending.insert s.claim.claimId s).size = fuel
  cases fuel with
  | zero => rfl
  | succ fuel =>
    unfold Node.evictClaims
    exact if_neg (not_lt.mpr hroom)

/-- A node that takes over proposes. -/
theorem step_tick_of_takeover {m : Node} (h : n.advanceView = (m, true)) :
    (n.step .tick).1 = m.drain.1.proposeInternal.drain.1 := by
  show n.tick.1 = _
  unfold Node.tick
  rw [h]
  rfl

omit [Crates] in
/-- Peers that were seen after the cutoff stay. -/
theorem pruneStalePeers_of_seen {now staleAfter : Float}
    (h : ∀ id ∈ n.peers, ∃ t, n.peerSeen[id]? = some t ∧ now - staleAfter < t) :
    n.pruneStalePeers now staleAfter = n := by
  unfold Node.pruneStalePeers
  split_ifs
  · rfl
  · dsimp only
    rw [Std.ExtTreeMap.filter_eq_self_iff.mpr]
    intro id hid
    obtain ⟨t, ht, hlt⟩ := h id hid
    rw [Std.ExtTreeMap.getKey_eq, ht]
    exact decide_eq_true hlt

/-! ## The committee on genesis -/

section Genesis

variable [SerdeReadsBack]

/-- Genesis has no sealer and no signers, so the committee is the node and its peers. -/
theorem committeeMembers_on_genesis (h : Refines n.store [genesisCheckpoint]) :
    n.committeeMembers = (n.nodeId :: n.peers.keys).dedup.insertionSort (· ≤ ·) := by
  have hrecent (k : ℕ) : ([readBack genesisCheckpoint].reverse.take k).flatMap (fun b =>
      (if b.proposal.sealedBy ≠ genesisSealer then [b.proposal.sealedBy] else []) ++
        b.signatures.map QuorumSignature.nodeId) = [] := by
    cases k with
    | zero => rfl
    | succ k => simp [readBack_proposal, genesisCheckpoint]
  have hblocks : n.store.allBlocks = [readBack genesisCheckpoint] := h.allBlocks
  unfold Node.committeeMembers
  dsimp only
  rw [hblocks, hrecent]
  rfl

omit [SerdeReadsBack] in
/-- Nobody has compute units on genesis. -/
theorem totalCu_on_genesis (h : Refines n.store [genesisCheckpoint]) (id : String) :
    n.store.totalCuForNode id = Crates.sqliteSum [] := by
  have hclaims : n.store.claims = [] := h.claims_eq
  rw [ChainStore.totalCuForNode, hclaims, List.filter_nil, List.map_nil]

omit [SerdeReadsBack] in
/-- So the order of the election is that of the ids. -/
theorem sealerForView_on_genesis (h : Refines n.store [genesisCheckpoint]) (view : Int64) :
    n.sealerForView view =
      n.committeeMembers.getD (view.toInt % n.committeeMembers.length).toNat n.nodeId := by
  have hrank (x y : String) : Node.ranksBefore n.store x y = decide (x ≤ y) := by
    unfold Node.ranksBefore
    dsimp only
    rw [totalCu_on_genesis h, totalCu_on_genesis h, if_neg (float_lt_irrefl _),
      if_neg (float_lt_irrefl _)]
  have hsorted : n.committeeMembers.insertionSort (fun a b => Node.ranksBefore n.store a b) =
      n.committeeMembers := by
    refine List.Pairwise.insertionSort_eq ?_
    simp only [hrank, decide_eq_true_eq]
    exact List.pairwise_insertionSort _ _
  unfold Node.sealerForView
  rw [hsorted]

end Genesis

/-! ## Shares for a proposal -/

/-- The block for a proposal from the shares for it. -/
def blockOf (P : CheckpointProposal) (shares : HashMap SignatureShare) (quorum : ℕ) : Checkpoint where
  proposal := P
  signatures := (shares.values.insertionSort fun a b => a.nodeId ≤ b.nodeId).map fun s =>
    { nodeId := s.nodeId, publicKeyHex := s.publicKeyHex, signatureHex := s.signatureHex }
  quorum := UInt64.ofNat quorum

/-- A node that has taken a proposal on its head in and has some shares for it. -/
structure Gathers (config : ExodusConfig) (base : List Checkpoint) (P : CheckpointProposal)
    (members : List String) (shares : HashMap SignatureShare) (n : Node) : Prop where
  config_eq : n.config = config
  refines : Refines n.store base
  members_eq : n.committeeMembers = members
  held : n.proposals[P.proposalHash]? = some P
  shares_eq : n.signatures.getD P.proposalHash ∅ = shares
  uncommitted : ∀ id ∈ P.claimIds, id ∉ n.committedClaimIds

section Gathering

variable {config : ExodusConfig} {base : List Checkpoint} {P : CheckpointProposal}
  {members : List String} {shares : HashMap SignatureShare} {share : SignatureShare}

/-- With too few shares nothing happens. -/
theorem maybeCommit_of_few (h : (n.signatures.getD P.proposalHash ∅).size < n.quorumSize) :
    n.maybeCommit P = n := by
  unfold Node.maybeCommit
  rw [if_pos h]

/-- A node that takes a delivered proposal in has its own share. -/
theorem gathers_adopted (href : Refines n.store base)
    (hfresh : ∀ id ∈ P.claimIds, id ∉ n.committedClaimIds) :
    Gathers n.config base P n.committeeMembers (sharesWithOwn n P) (adopted n P).drain.1 := by
  have hcore := (core_adopted n P).trans (core_adopt n P)
  refine ⟨congrArg Core.config hcore, ?_, committeeMembers_adopted n P, proposals_adopt_self n P,
    shares_adopted n P, ?_⟩
  · rwa [store_drain, show (adopted n P).store = n.store from congrArg Core.store hcore]
  · have hids : (adopted n P).drain.1.committedClaimIds = n.committedClaimIds :=
      congrArg Core.committedClaimIds hcore
    rwa [hids]

/-- A node that makes a proposal has its own share. -/
theorem gathers_proposed (href : Refines n.store base)
    (hfresh : ∀ id ∈ P.claimIds, id ∉ n.committedClaimIds) :
    Gathers n.config base P n.committeeMembers (sharesWithOwn n P) (proposed n P).drain.1 := by
  have hcore := (core_proposed n P).trans (core_adopt n.tickClock P)
  refine ⟨congrArg Core.config hcore, ?_, committeeMembers_proposed n P,
    proposals_adopt_self n.tickClock P, shares_proposed n P, ?_⟩
  · rwa [store_drain, store_proposed]
  · have hids : (proposed n P).drain.1.committedClaimIds = n.committedClaimIds :=
      congrArg Core.committedClaimIds hcore
    rwa [hids]

/-- A share for the proposal is filed before the count. -/
theorem Gathers.step_share (h : Gathers config base P members shares n)
    (hv : share.verify = true) (hhash : share.proposalHash = P.proposalHash) :
    n.step (.receive Topics.signatures (.signatureShare share)) =
        ((n.fileShare P.proposalHash share).maybeCommit P).drain ∧
      Gathers config base P members (shares.insert share.nodeId share)
        (n.fileShare P.proposalHash share) := by
  refine ⟨?_, h.config_eq, h.refines, h.members_eq, h.held, ?_, h.uncommitted⟩
  · rw [step_receive_share, onSignature_of_held hv (hhash ▸ h.held), hhash]
  · rw [Node.fileShare, Std.ExtTreeMap.getD_insert_self, h.shares_eq]

/-- With a share that does not complete the quorum the node gathers on. -/
theorem Gathers.gathers_on (h : Gathers config base P members shares n)
    (hv : share.verify = true) (hhash : share.proposalHash = P.proposalHash)
    (hfew : (shares.insert share.nodeId share).size < n.quorumSize) :
    Gathers config base P members (shares.insert share.nodeId share)
      (n.step (.receive Topics.signatures (.signatureShare share))).1 := by
  obtain ⟨hstep, hfiled⟩ := h.step_share hv hhash
  have hcount : ((n.fileShare P.proposalHash share).signatures.getD P.proposalHash ∅).size <
      (n.fileShare P.proposalHash share).quorumSize := by
    rw [hfiled.shares_eq]
    exact hfew
  rw [hstep, maybeCommit_of_few hcount]
  exact ⟨hfiled.config_eq, hfiled.refines, hfiled.members_eq, hfiled.held, hfiled.shares_eq,
    hfiled.uncommitted⟩

/-- With the share that completes the quorum the node appends the block. -/
theorem Gathers.commits [SerdeReadsBack] (h : Gathers config base P members shares n)
    (hv : share.verify = true) (hhash : share.proposalHash = P.proposalHash)
    (henough : n.quorumSize ≤ (shares.insert share.nodeId share).size)
    (hf : Follows config.flopsTolerance base
      (blockOf P (shares.insert share.nodeId share) n.quorumSize)) :
    Refines (n.step (.receive Topics.signatures (.signatureShare share))).1.store
      (base ++ [blockOf P (shares.insert share.nodeId share) n.quorumSize]) := by
  obtain ⟨hstep, hfiled⟩ := h.step_share hv hhash
  have hcount : (n.fileShare P.proposalHash share).quorumSize ≤
      ((n.fileShare P.proposalHash share).signatures.getD P.proposalHash ∅).size := by
    rw [hfiled.shares_eq]
    exact henough
  have hblock : (n.fileShare P.proposalHash share).assembleCheckpoint P =
      blockOf P (shares.insert share.nodeId share) n.quorumSize := by
    unfold Node.assembleCheckpoint
    rw [hfiled.shares_eq]
    rfl
  obtain ⟨st, href, heq⟩ := maybeCommit_of_follows hfiled.refines hblock hcount
    (hfiled.config_eq.symm ▸ hf) hfiled.uncommitted
  rw [hstep, store_drain, heq, store_announceCommit]
  exact href

end Gathering

end Exodus.Interface
