import Exodus.Analysis.Appendability
import Exodus.Analysis.Assembly
import Exodus.Analysis.Shares
import Exodus.Library.Machine

/-!
# A round commits

The sealer makes a proposal, and what is published about it reaches the live nodes, in any
order and any number of times, before anybody times out.  Shares that arrive before the
proposal are dropped by `on_signature`, so a node may never see a quorum itself; but the
sealer holds its proposal from the start and counts every share, and `commit_local`
publishes what it appends.  Hence every live node stores a block for the proposal as soon
as the live nodes are a quorum (`round_commits`).

A node either still waits (`Waits`) or has stored the block (`Finished`).  One operation
takes the first to the first or the second, and leaves the second.
-/

set_option autoImplicit false

namespace Exodus.Analysis

open Exodus.Library Exodus.Model Exodus.Interface

variable [Crates] {base : List Checkpoint} {P : CheckpointProposal} {m n n' : Node}
  {sent : List (String × Message)} {met : List Node.Op} {op : Node.Op} {lead : Prop}

/-! ## What is delivered -/

/-- A message of the round: the proposal, a share for it that verifies, a signed block of it,
or a message that does not take part. -/
inductive About (P : CheckpointProposal) : Message → Prop
  | claim (s : SignedContribution) : About P (.contributionGossip s)
  | proposal : About P (.proposalMessage P)
  | share (s : SignatureShare) (hv : s.verify = true)
      (hhash : s.proposalHash = P.proposalHash) : About P (.signatureShare s)
  | block (c : Checkpoint) (hc : c.proposal = P) (hs : Signed c) : About P (.commitMessage c)
  | alert (a : ForkAlert) : About P (.forkAlert a)
  | sync (req : SyncRequest) : About P (.syncRequest req)

/-- The operations of the round: deliveries, and claims of the nodes themselves. -/
inductive RoundOp (P : CheckpointProposal) : Node.Op → Prop
  | submit (s : SignedContribution) : RoundOp P (.submitClaim s)
  | deliver (topic : String) (msg : Message) (h : About P msg) : RoundOp P (.receive topic msg)

/-! ## Nodes that wait -/

/-- The node has, but for its votes, its clock and its pending claims, not changed. -/
structure Alike (m n : Node) : Prop where
  identity_eq : identity (core n) = identity (core m)
  store : n.store = m.store
  committed : n.committedClaimIds = m.committedClaimIds
  peers : n.peers = m.peers
  queue : n.pendingCommits = m.pendingCommits
  rejects : n.recentCommitRejects = m.recentCommitRejects

/-- What a node is like that would vote for the proposal and take a block of it. -/
structure Accepts (base : List Checkpoint) (P : CheckpointProposal) (m : Node) : Prop where
  stored : Refines m.store base
  keys : KeysMatch m
  passes : ProposalPasses m.config.flopsTolerance base m.committedClaimIds false P
  elected : P.sealedBy = m.sealerForView P.epoch
  unqueued : m.pendingCommits = ∅
  unrejected : ∀ c : Checkpoint, c.proposal = P → c.blockHash ∉ m.recentCommitRejects

/-- Besides, the ledger can take every block of the proposal. -/
structure Expects (base : List Checkpoint) (P : CheckpointProposal) (m : Node) : Prop
    extends Accepts base P m where
  can_append : ∀ c : Checkpoint, c.proposal = P → Extends base c

/-- The node has voted for the proposal. -/
structure Voted (P : CheckpointProposal) (sent : List (String × Message)) (n : Node) : Prop where
  held : n.proposals[P.proposalHash]? = some P
  filed : (shareAt n P.proposalHash n.nodeId).isSome
  published : (Topics.signatures, Message.signatureShare (n.signatureShare P)) ∈ sent

/-- The sealer holds its proposal and every share that it was sent, and they are too few. -/
structure Collects (P : CheckpointProposal) (met : List Node.Op) (n : Node) : Prop where
  held : n.proposals[P.proposalHash]? = some P
  counted : ∀ s, Node.Op.receive Topics.signatures (.signatureShare s) ∈ met →
    (shareAt n P.proposalHash s.nodeId).isSome
  short : (n.signatures.getD P.proposalHash ∅).size < n.quorumSize

/-- The node `m` has performed the operations `met` of the round, published `sent`, and waits
for a block; `lead` says that it is the sealer. -/
structure Waits (P : CheckpointProposal) (lead : Prop) (m : Node) (met : List Node.Op)
    (sent : List (String × Message)) (n : Node) : Prop where
  alike : Alike m n
  silent : ∀ topic c, (topic, Message.commitMessage c) ∉ sent
  unmet : ∀ c, Node.Op.receive Topics.commits (.commitMessage c) ∉ met
  held : Node.Op.receive Topics.proposals (.proposalMessage P) ∈ met →
    n.proposals[P.proposalHash]? = some P
  vote : n.proposals[P.proposalHash]? = none ∧ P.proposalHash ∉ n.signed ∨ Voted P sent n
  collects : lead → Collects P met n

/-- The node has stored a block for the proposal, and announced it. -/
structure Finished (base : List Checkpoint) (P : CheckpointProposal)
    (sent : List (String × Message)) (n : Node) : Prop where
  stored : ∃ c, c.proposal = P ∧ Signed c ∧ Refines n.store (base ++ [c])
  dropped : n.proposals[P.proposalHash]? = none
  announced : ∃ c, (Topics.commits, Message.commitMessage c) ∈ sent

/-! ## What stays -/

omit [Crates] in
/-- A node is like itself. -/
theorem Alike.refl (n : Node) : Alike n n := ⟨rfl, rfl, rfl, rfl, rfl, rfl⟩

omit [Crates] in
/-- Likeness is passed on. -/
theorem Alike.trans (h : Alike m n) (h' : Alike n n') : Alike m n' :=
  ⟨h'.identity_eq.trans h.identity_eq, h'.store.trans h.store, h'.committed.trans h.committed,
    h'.peers.trans h.peers, h'.queue.trans h.queue, h'.rejects.trans h.rejects⟩

omit [Crates] in
/-- Nodes that are alike have one id. -/
theorem Alike.nodeId_eq (h : Alike m n) : n.nodeId = m.nodeId :=
  congrArg Prod.fst h.identity_eq

omit [Crates] in
/-- They have the same settings. -/
theorem Alike.config_eq (h : Alike m n) : n.config = m.config :=
  congrArg (fun i => i.2.2.2) h.identity_eq

/-- They have the same committee. -/
theorem Alike.committeeMembers_eq (h : Alike m n) : n.committeeMembers = m.committeeMembers := by
  unfold Node.committeeMembers
  rw [h.nodeId_eq, h.config_eq, h.store, h.peers]

/-- They elect the same sealers. -/
theorem Alike.sealerForView_eq (h : Alike m n) (view : Int64) :
    n.sealerForView view = m.sealerForView view := by
  unfold Node.sealerForView
  rw [h.committeeMembers_eq, h.store, h.nodeId_eq]

/-- They need the same quorum. -/
theorem Alike.quorumSize_eq (h : Alike m n) : n.quorumSize = m.quorumSize := by
  unfold Node.quorumSize
  rw [h.committeeMembers_eq, h.config_eq]

/-- Signing leaves a node alike. -/
theorem alike_adopt (n : Node) (p : CheckpointProposal) :
    Alike n ((n.adoptProposal p).addOwnSignature p) := by
  rw [adoptProposal_eq]
  exact ⟨rfl, rfl, rfl, rfl, rfl, rfl⟩

/-- The votes are as before, too. -/
structure Untouching (n n' : Node) : Prop extends Alike n n' where
  proposals : n'.proposals = n.proposals
  signatures : n'.signatures = n.signatures
  signed : n'.signed = n.signed

omit [Crates] in
/-- Doing nothing touches nothing. -/
theorem Untouching.refl (n : Node) : Untouching n n := ⟨.refl n, rfl, rfl, rfl⟩

omit [Crates] in
/-- Two steps that touch nothing are one. -/
theorem Untouching.trans {k : Node} (h : Untouching n n') (h' : Untouching n' k) :
    Untouching n k :=
  ⟨h.toAlike.trans h'.toAlike, h'.proposals.trans h.proposals, h'.signatures.trans h.signatures,
    h'.signed.trans h.signed⟩

omit [Crates] in
/-- Draining touches nothing. -/
theorem untouching_drain (n : Node) : Untouching n n.drain.1 :=
  ⟨⟨rfl, rfl, rfl, rfl, rfl, rfl⟩, rfl, rfl, rfl⟩

omit [Crates] in
/-- Evicting claims touches nothing and sends nothing. -/
theorem evictClaims_untouching (fuel : ℕ) (n : Node) :
    Untouching n (Node.evictClaims fuel n) ∧ (Node.evictClaims fuel n).outgoing = n.outgoing := by
  induction fuel generalizing n with
  | zero => exact ⟨.refl n, rfl⟩
  | succ fuel ih =>
    unfold Node.evictClaims
    split_ifs
    · split
      · rename_i id _
        have hdrop : Untouching n ({ n with pending := n.pending.erase id } : Node).tickClock :=
          ⟨⟨rfl, rfl, rfl, rfl, rfl, rfl⟩, rfl, rfl, rfl⟩
        obtain ⟨hrest, hout⟩ := ih ({ n with pending := n.pending.erase id } : Node).tickClock
        exact ⟨hdrop.trans hrest, hout⟩
      · exact ⟨.refl n, rfl⟩
    · exact ⟨.refl n, rfl⟩

/-- Nor does receiving a claim. -/
theorem onClaims_untouching (n : Node) (s : SignedContribution) :
    Untouching n (n.onClaims s) ∧ (n.onClaims s).outgoing = n.outgoing := by
  unfold Node.onClaims
  split_ifs
  · exact ⟨.refl n, rfl⟩
  · exact ⟨.refl n, rfl⟩
  · obtain ⟨hevict, hout⟩ := evictClaims_untouching
      ({ n with pending := n.pending.insert s.claim.claimId s } : Node).pending.size
      { n with pending := n.pending.insert s.claim.claimId s }
    have hpend : Untouching n { n with pending := n.pending.insert s.claim.claimId s } :=
      ⟨⟨rfl, rfl, rfl, rfl, rfl, rfl⟩, rfl, rfl, rfl⟩
    exact ⟨hpend.trans hevict, hout⟩

/-- Submitting a claim touches nothing and sends no block. -/
theorem submitClaim_untouching (n : Node) (s : SignedContribution) :
    Untouching n (n.submitClaim s).1 ∧ ∀ topic c,
      (topic, Message.commitMessage c) ∈ (n.submitClaim s).1.outgoing →
        (topic, Message.commitMessage c) ∈ n.outgoing := by
  unfold Node.submitClaim
  split_ifs
  · exact ⟨.refl n, fun _ _ => id⟩
  · exact ⟨.refl n, fun _ _ => id⟩
  · exact ⟨.refl n, fun _ _ => id⟩
  · exact ⟨.refl n, fun _ _ => id⟩
  · refine ⟨⟨⟨rfl, rfl, rfl, rfl, rfl, rfl⟩, rfl, rfl, rfl⟩, fun topic c hc => ?_⟩
    simpa [Node.send] using hc

/-- The operation brings nothing that a waiting node acts upon. -/
structure Inert (P : CheckpointProposal) (op : Node.Op) : Prop where
  no_proposal : op ≠ .receive Topics.proposals (.proposalMessage P)
  no_share : ∀ s, op ≠ .receive Topics.signatures (.signatureShare s)
  no_block : ∀ c, op ≠ .receive Topics.commits (.commitMessage c)

/-- A waiting node that only changes in what the round does not need goes on waiting. -/
theorem Waits.of_untouching (h : Waits P lead m met sent n) (hu : Untouching n n')
    (hop : Inert P op) {msgs : List (String × Message)}
    (hmsgs : ∀ topic c, (topic, Message.commitMessage c) ∉ msgs) :
    Waits P lead m (met ++ [op]) (sent ++ msgs) n' := by
  have hshare (nodeId : String) : shareAt n' P.proposalHash nodeId = shareAt n P.proposalHash nodeId :=
    shareAt_congr hu.signatures _ _
  refine ⟨h.alike.trans hu.toAlike, fun topic c hc => ?_, fun c hc => ?_, fun hp => ?_, ?_,
    fun hlead => ?_⟩
  · rcases List.mem_append.mp hc with hc | hc
    · exact h.silent topic c hc
    · exact hmsgs topic c hc
  · rcases List.mem_append.mp hc with hc | hc
    · exact h.unmet c hc
    · exact hop.no_block c (List.mem_singleton.mp hc).symm
  · rw [hu.proposals]
    rcases List.mem_append.mp hp with hp | hp
    · exact h.held hp
    · exact absurd (List.mem_singleton.mp hp).symm hop.no_proposal
  · rw [hu.proposals, hu.signed]
    apply h.vote.imp_right
    intro hvoted
    refine ⟨hu.proposals ▸ hvoted.held, ?_, ?_⟩
    · rw [hshare, hu.nodeId_eq]
      exact hvoted.filed
    · rw [signatureShare_congr hu.identity_eq]
      exact List.mem_append_left _ hvoted.published
  · obtain ⟨hheld, hcounted, hshort⟩ := h.collects hlead
    refine ⟨hu.proposals ▸ hheld, fun s hs => ?_, ?_⟩
    · rw [hshare]
      rcases List.mem_append.mp hs with hs | hs
      · exact hcounted s hs
      · exact absurd (List.mem_singleton.mp hs).symm (hop.no_share s)
    · rw [hu.signatures, hu.quorumSize_eq]
      exact hshort

/-! ## Commits -/

variable [SerdeReadsBack]

omit [SerdeReadsBack] in
/-- A signed block of the proposal follows the chain. -/
theorem Expects.follows (hm : Expects base P m) {c : Checkpoint} (hc : c.proposal = P)
    (hs : Signed c) : Follows m.config.flopsTolerance base c := by
  refine ⟨?_, hm.can_append c hc⟩
  cases hg : isCanonicalGenesis c.proposal with
  | true => exact .inl hg
  | false =>
    refine .inr ⟨hg, ?_, hs⟩
    rw [hc]
    exact hm.passes.of_fresh fun id _ => Finset.notMem_empty id

omit [SerdeReadsBack] in
/-- The claims of an expected proposal are not committed yet. -/
theorem Expects.ids_fresh (hm : Expects base P m) (h : Alike m n) :
    ∀ id ∈ P.claimIds, id ∉ n.committedClaimIds := by
  intro id hid
  obtain ⟨s, hs, rfl⟩ := List.mem_map.mp hid
  rw [h.committed]
  exact hm.passes.claims.ids_fresh s hs

omit [SerdeReadsBack] in
/-- A node that appends a block of the proposal is finished. -/
theorem finished_announceCommit {c : Checkpoint} {st : ChainStore} {seen : Finset String}
    (hc : c.proposal = P) (hs : Signed c) (hst : Refines st (base ++ [c])) :
    Finished base P
      (sent ++ (({ n with committedClaimIds := seen, store := st } : Node).announceCommit c).outgoing)
      (({ n with committedClaimIds := seen, store := st } : Node).announceCommit c).drain.1 := by
  refine ⟨⟨c, hc, hs, ?_⟩, ?_, c, ?_⟩
  · show Refines (Node.announceCommit _ c).store _
    rw [store_announceCommit]
    exact hst
  · show (Node.announceCommit _ c).proposals[P.proposalHash]? = none
    rw [proposals_announceCommit, hc]
    exact Std.ExtTreeMap.getElem?_erase_self
  · rw [outgoing_announceCommit]
    simp

/-- `maybe_commit` of a node that waits: the shares are too few, or a block is appended. -/
theorem Expects.maybeCommit (hm : Expects base P m) (h : Alike m n) (husable : UsableShares n) :
    (n.signatures.getD P.proposalHash ∅).size < n.quorumSize ∧ n.maybeCommit P = n ∨
      ∀ sent, Finished base P (sent ++ (n.maybeCommit P).outgoing) (n.maybeCommit P).drain.1 := by
  by_cases hsize : (n.signatures.getD P.proposalHash ∅).size < n.quorumSize
  · refine .inl ⟨hsize, ?_⟩
    unfold Node.maybeCommit
    exact if_pos hsize
  · right
    intro sent
    have hsigned := husable.signed (not_lt.mp hsize)
    have hfollows := hm.follows (c := n.assembleCheckpoint P) rfl hsigned
    rw [← h.config_eq] at hfollows
    obtain ⟨st, hst, heq⟩ := maybeCommit_of_follows (h.store ▸ hm.stored) rfl (not_lt.mp hsize)
      hfollows (hm.ids_fresh h)
    rw [heq]
    exact finished_announceCommit (n := n) rfl hsigned hst

/-- A delivered block of the proposal is appended. -/
theorem Waits.block (h : Waits P lead m met sent n) (hm : Expects base P m) {c : Checkpoint}
    (hc : c.proposal = P) (hs : Signed c) :
    Finished base P (sent ++ (n.onCommit c).outgoing) (n.onCommit c).drain.1 := by
  have hfollows := hm.follows hc hs
  rw [← h.alike.config_eq] at hfollows
  obtain ⟨st, hst, heq⟩ := onCommit_of_follows (h.alike.store ▸ hm.stored) hfollows
    (h.alike.queue.trans hm.unqueued) (hc ▸ hm.ids_fresh h.alike)
    (h.alike.rejects ▸ hm.unrejected c hc)
  rw [heq]
  exact finished_announceCommit (n := n) hc hs hst

/-! ## Votes -/

/-- A delivered proposal that the node does not hold passes its checks. -/
theorem Waits.signs (h : Waits P lead m met sent n) (hm : Expects base P m)
    (hnone : n.proposals[P.proposalHash]? = none) (hunsigned : P.proposalHash ∉ n.signed) :
    Signs n P := by
  have hstored : Refines n.store base := h.alike.store ▸ hm.stored
  have hpasses : ProposalPasses n.config.flopsTolerance base n.committedClaimIds false P := by
    rw [h.alike.config_eq, h.alike.committed]
    exact hm.passes
  refine ⟨?_, hunsigned, fun head hhead => ?_, ?_, _, (hstored.validateProposal_ok_iff P
    n.committedClaimIds _ false).mpr ⟨hpasses, rfl⟩⟩
  · rw [Std.ExtTreeMap.contains_eq_isSome_getElem?, hnone]
    rfl
  · have hheight := hstored.head_height
    have hnext := hpasses.height_eq
    rw [Option.mem_def.mp hhead, Option.map_some, Option.getD_some] at hheight
    omega
  · rw [h.alike.sealerForView_eq]
    exact hm.elected

omit [SerdeReadsBack] in
/-- A node that takes the proposal in has voted, whatever it had met. -/
theorem Waits.adopted (h : Waits P False m met sent n) :
    Waits P False m (met ++ [.receive Topics.proposals (.proposalMessage P)])
      (sent ++ [(Topics.signatures, .signatureShare (n.signatureShare P))])
      (Interface.adopted n P).drain.1 := by
  have halike : Alike n (Interface.adopted n P).drain.1 := by
    obtain ⟨hid, hstore, hcommitted, hpeers, hqueue, hrejects⟩ := alike_adopt n P
    exact ⟨hid, hstore, hcommitted, hpeers, hqueue, hrejects⟩
  have hheld : (Interface.adopted n P).drain.1.proposals[P.proposalHash]? = some P :=
    proposals_adopt_self n P
  have hfiled : (shareAt (Interface.adopted n P).drain.1 P.proposalHash
      (Interface.adopted n P).drain.1.nodeId).isSome := by
    have hshare : shareAt (Interface.adopted n P).drain.1 P.proposalHash n.nodeId =
        some (n.signatureShare P) :=
      (shareAt_adopt n P P.proposalHash n.nodeId).trans (if_pos ⟨rfl, rfl⟩)
    rw [halike.nodeId_eq, hshare]
    rfl
  refine ⟨h.alike.trans halike, fun topic c hc => ?_, fun c hc => ?_, fun _ => hheld,
    .inr ⟨hheld, hfiled, ?_⟩, False.elim⟩
  · exact h.silent topic c (by simpa using hc)
  · exact h.unmet c (by simpa using hc)
  · rw [signatureShare_congr halike.identity_eq]
    simp

/-- A delivered proposal: the node holds it already, or votes for it. -/
theorem Waits.proposal (h : Waits P lead m met sent n) (hm : Expects base P m)
    (hn : Node.Reachable n) :
    Waits P lead m (met ++ [.receive Topics.proposals (.proposalMessage P)])
        (sent ++ (n.onProposal P).outgoing) (n.onProposal P).drain.1 ∨
      Finished base P (sent ++ (n.onProposal P).outgoing) (n.onProposal P).drain.1 := by
  obtain ⟨hinv, hidle⟩ := reachable_idle hn
  rcases h.vote with ⟨hnone, hunsigned⟩ | hvoted
  · -- the sealer holds the proposal, so this is another node
    have hother : ¬ lead := by
      intro hlead
      rw [(h.collects hlead).held] at hnone
      cases hnone
    obtain rfl : lead = False := eq_false hother
    have hadopted := h.adopted
    have hout : (Interface.adopted n P).outgoing =
        [(Topics.signatures, .signatureShare (n.signatureShare P))] := by
      show ((n.adoptProposal P).addOwnSignature P).outgoing = _
      rw [outgoing_adopt, hidle.outgoing, List.nil_append]
    rw [(h.signs hm hnone hunsigned).onProposal_eq]
    split_ifs
    · have husable : UsableShares (Interface.adopted n P) :=
        ((reachable_usable hn (hm.keys.congr h.alike.identity_eq)).adopt
          (hm.keys.congr h.alike.identity_eq) P).of_core_eq (core_adopted n P)
      have halike : Alike m (Interface.adopted n P) := by
        obtain ⟨hid, hstore, hcommitted, hpeers, hqueue, hrejects⟩ := hadopted.alike
        exact ⟨hid, hstore, hcommitted, hpeers, hqueue, hrejects⟩
      rcases hm.maybeCommit halike husable with ⟨-, heq⟩ | hdone
      · rw [heq, hout]
        exact .inl hadopted
      · exact .inr (hdone sent)
    · rw [hout]
      exact .inl hadopted
  · left
    have hsame : n.onProposal P = n := by
      apply onProposal_of_not_signs
      intro hsigns
      have hunknown := hsigns.unknown
      rw [Std.ExtTreeMap.contains_eq_isSome_getElem?, hvoted.held] at hunknown
      cases hunknown
    rw [hsame, hidle.outgoing, List.append_nil, drain_of_idle hidle]
    refine ⟨h.alike, h.silent, fun c hc => h.unmet c (by simpa using hc), fun _ => hvoted.held,
      .inr hvoted, fun hlead => ?_⟩
    obtain ⟨hheld, hcounted, hshort⟩ := h.collects hlead
    refine ⟨hheld, fun s hs => hcounted s (by simpa using hs), hshort⟩

omit [SerdeReadsBack] in
/-- A share that is filed for the proposal, before `maybe_commit`. -/
theorem Waits.filed (h : Waits P lead m met sent n) {s : SignatureShare}
    (hhash : s.proposalHash = P.proposalHash)
    (hshort : lead → ((n.fileShare s.proposalHash s).signatures.getD P.proposalHash ∅).size <
      (n.fileShare s.proposalHash s).quorumSize) :
    Waits P lead m (met ++ [.receive Topics.signatures (.signatureShare s)]) sent
      (n.fileShare s.proposalHash s) := by
  have hkept (nodeId : String) (hsome : (shareAt n P.proposalHash nodeId).isSome) :
      (shareAt (n.fileShare s.proposalHash s) P.proposalHash nodeId).isSome := by
    rw [shareAt_fileShare]
    split_ifs
    · rfl
    · exact hsome
  have hnew : (shareAt (n.fileShare s.proposalHash s) P.proposalHash s.nodeId).isSome := by
    rw [shareAt_fileShare, if_pos ⟨hhash.symm, rfl⟩]
    rfl
  refine ⟨h.alike.trans ⟨rfl, rfl, rfl, rfl, rfl, rfl⟩, h.silent,
    fun c hc => h.unmet c (by simpa using hc), fun hp => h.held (by simpa using hp), ?_,
    fun hlead => ⟨(h.collects hlead).held, fun x hx => ?_, hshort hlead⟩⟩
  · apply h.vote.imp_right
    intro hvoted
    exact ⟨hvoted.held, hkept n.nodeId hvoted.filed, hvoted.published⟩
  · rcases List.mem_append.mp hx with hx | hx
    · exact hkept x.nodeId ((h.collects hlead).counted x hx)
    · cases List.mem_singleton.mp hx
      exact hnew

/-- A delivered share: a node that does not hold the proposal drops it, any other node files
it and tries to commit. -/
theorem Waits.share (h : Waits P lead m met sent n) (hm : Expects base P m)
    (hn : Node.Reachable n) {s : SignatureShare} (hv : s.verify = true)
    (hhash : s.proposalHash = P.proposalHash) :
    Waits P lead m (met ++ [.receive Topics.signatures (.signatureShare s)])
        (sent ++ (n.onSignature s).outgoing) (n.onSignature s).drain.1 ∨
      Finished base P (sent ++ (n.onSignature s).outgoing) (n.onSignature s).drain.1 := by
  obtain ⟨hinv, hidle⟩ := reachable_idle hn
  rcases h.vote with ⟨hnone, hunsigned⟩ | hvoted
  · left
    have hother : ¬ lead := by
      intro hlead
      rw [(h.collects hlead).held] at hnone
      cases hnone
    have hsame : n.onSignature s = n := by
      unfold Node.onSignature
      rw [hv, hhash, hnone]
      rfl
    rw [hsame, hidle.outgoing, List.append_nil, drain_of_idle hidle]
    exact ⟨h.alike, h.silent, fun c hc => h.unmet c (by simpa using hc),
      fun hp => h.held (by simpa using hp), .inl ⟨hnone, hunsigned⟩, fun hlead => absurd hlead hother⟩
  · have hheld : n.proposals[s.proposalHash]? = some P := hhash ▸ hvoted.held
    have husable : UsableShares (n.fileShare s.proposalHash s) :=
      (reachable_usable hn (hm.keys.congr h.alike.identity_eq)).file hinv.keyed hv hheld
    have halike : Alike m (n.fileShare s.proposalHash s) :=
      h.alike.trans ⟨rfl, rfl, rfl, rfl, rfl, rfl⟩
    have hidle' : Idle (n.fileShare s.proposalHash s) := ⟨hidle.outgoing, hidle.calls⟩
    rw [onSignature_of_held hv hheld]
    rcases hm.maybeCommit halike husable with ⟨hshort, heq⟩ | hdone
    · left
      rw [heq, hidle'.outgoing, List.append_nil, drain_of_idle hidle']
      exact h.filed hhash fun _ => hshort
    · exact .inr (hdone sent)

/-! ## One operation -/

/-- What an operation of the round makes of a node that waits. -/
theorem Waits.step (h : Waits P lead m met sent n) (hm : Expects base P m)
    (hn : Node.Reachable n) (hop : RoundOp P op) :
    Waits P lead m (met ++ [op]) (sent ++ (n.step op).2.1) (n.step op).1 ∨
      Finished base P (sent ++ (n.step op).2.1) (n.step op).1 := by
  obtain ⟨hinv, hidle⟩ := reachable_idle hn
  have hsilent (topic : String) (c : Checkpoint) : (topic, Message.commitMessage c) ∉ n.outgoing := by
    rw [hidle.outgoing]
    exact List.not_mem_nil
  have hsame (hinert : Inert P op) :
      Waits P lead m (met ++ [op]) (sent ++ n.drain.2.1) n.drain.1 :=
    h.of_untouching (untouching_drain n) hinert hsilent
  cases hop with
  | submit s =>
    obtain ⟨huntouched, hmsgs⟩ := submitClaim_untouching n s
    exact .inl (h.of_untouching (huntouched.trans (untouching_drain _)) ⟨by simp, by simp, by simp⟩
      fun topic c hc => hsilent topic c (hmsgs topic c hc))
  | deliver topic msg hmsg =>
    show Waits _ _ _ _ (sent ++ (n.receive topic msg).outgoing) (n.receive topic msg).drain.1 ∨
      Finished _ _ (sent ++ (n.receive topic msg).outgoing) (n.receive topic msg).drain.1
    cases hmsg with
    | claim s =>
      left
      by_cases htopic : topic = Topics.claims
      · obtain ⟨huntouched, hout⟩ := onClaims_untouching n s
        rw [show n.receive topic (.contributionGossip s) = n.onClaims s from if_pos htopic, hout]
        exact h.of_untouching (huntouched.trans (untouching_drain _)) ⟨by simp, by simp, by simp⟩
          hsilent
      · rw [show n.receive topic (.contributionGossip s) = n from if_neg htopic]
        exact hsame ⟨by simp, by simp, by simp⟩
    | proposal =>
      by_cases htopic : topic = Topics.proposals
      · rw [show n.receive topic (.proposalMessage P) = n.onProposal P from if_pos htopic, htopic]
        exact h.proposal hm hn
      · rw [show n.receive topic (.proposalMessage P) = n from if_neg htopic]
        exact .inl (hsame ⟨by simpa using htopic, by simp, by simp⟩)
    | share s hv hhash =>
      by_cases htopic : topic = Topics.signatures
      · rw [show n.receive topic (.signatureShare s) = n.onSignature s from if_pos htopic, htopic]
        exact h.share hm hn hv hhash
      · rw [show n.receive topic (.signatureShare s) = n from if_neg htopic]
        exact .inl (hsame ⟨by simp, by simp [htopic], by simp⟩)
    | block c hc hs =>
      by_cases htopic : topic = Topics.commits
      · rw [show n.receive topic (.commitMessage c) = n.onCommit c from if_pos htopic]
        exact .inr (h.block hm hc hs)
      · rw [show n.receive topic (.commitMessage c) = n from if_neg htopic]
        exact .inl (hsame ⟨by simp, by simp, by simp [htopic]⟩)
    | alert a =>
      left
      by_cases htopic : topic = Topics.forks
      · rw [show n.receive topic (.forkAlert a) = n.onFork a from if_pos htopic]
        have huntouched : Untouching n (n.onFork a) :=
          ⟨⟨rfl, rfl, rfl, rfl, rfl, rfl⟩, rfl, rfl, rfl⟩
        exact h.of_untouching (huntouched.trans (untouching_drain _)) ⟨by simp, by simp, by simp⟩
          hsilent
      · rw [show n.receive topic (.forkAlert a) = n from if_neg htopic]
        exact hsame ⟨by simp, by simp, by simp⟩
    | sync req => exact .inl (hsame ⟨by simp, by simp, by simp⟩)

/-- A block of the proposal that comes late is at most an occasion for an alert. -/
theorem Finished.quiet_onCommit (h : Finished base P sent n) {c : Checkpoint} (hc : c.proposal = P) :
    Quiet n (n.onCommit c) := by
  obtain ⟨b, hb, -, href⟩ := h.stored
  have hhead : n.store.head = some (readBack b) := by
    rw [href.head, List.getLast?_concat, Option.map_some]
  have hheight : c.height = (readBack b).height := by
    rw [readBack_height, Checkpoint.height, Checkpoint.height, hc, hb]
  unfold Node.onCommit
  rw [hhead]
  dsimp only
  rw [if_pos hheight.le]
  split_ifs
  · refine Quiet.trans (quiet_send n Topics.forks (.forkAlert _) ?_) (quiet_requestSync _ _)
    trivial
  · exact quiet_send n Topics.forks (.forkAlert _) trivial
  · exact .of_core_eq rfl rfl rfl rfl

omit [SerdeReadsBack] in
/-- Being finished is read from the ledger and the held proposals. -/
theorem Finished.of_eq (h : Finished base P sent n) (hstore : n'.store = n.store)
    (hprops : n'.proposals = n.proposals) (msgs : List (String × Message)) :
    Finished base P (sent ++ msgs) n' := by
  obtain ⟨c, hc⟩ := h.announced
  refine ⟨?_, ?_, c, List.mem_append_left _ hc⟩
  · rw [hstore]
    exact h.stored
  · rw [hprops]
    exact h.dropped

/-- The height of a proposal that comes late is taken. -/
theorem Finished.onProposal_eq (h : Finished base P sent n) : n.onProposal P = n := by
  apply onProposal_of_not_signs
  intro hsigns
  obtain ⟨c, hc, -, href⟩ := h.stored
  have habove := hsigns.above (readBack c) (by rw [href.head]; simp)
  rw [readBack_height, Checkpoint.height, hc] at habove
  exact lt_irrefl _ habove

omit [SerdeReadsBack] in
/-- The proposal of a share that comes late went with the commit. -/
theorem Finished.onSignature_eq (h : Finished base P sent n) {s : SignatureShare}
    (hv : s.verify = true) (hhash : s.proposalHash = P.proposalHash) : n.onSignature s = n := by
  unfold Node.onSignature
  rw [hv, hhash, h.dropped]
  rfl

/-- An operation of the round leaves a node that is finished. -/
theorem Finished.step (h : Finished base P sent n) (hop : RoundOp P op) :
    Finished base P (sent ++ (n.step op).2.1) (n.step op).1 := by
  cases hop with
  | submit s =>
    obtain ⟨huntouched, -⟩ := submitClaim_untouching n s
    apply h.of_eq
    · exact huntouched.store
    · exact huntouched.proposals
  | deliver topic msg hmsg =>
    suffices hsame : (n.receive topic msg).store = n.store ∧
        (n.receive topic msg).proposals = n.proposals by
      apply h.of_eq
      · exact hsame.1
      · exact hsame.2
    cases hmsg with
    | claim s =>
      obtain ⟨huntouched, -⟩ := onClaims_untouching n s
      unfold Node.receive
      dsimp only
      split_ifs
      · exact ⟨huntouched.store, huntouched.proposals⟩
      · exact ⟨rfl, rfl⟩
    | proposal =>
      unfold Node.receive
      dsimp only
      rw [h.onProposal_eq, ite_self]
      exact ⟨rfl, rfl⟩
    | share s hv hhash =>
      unfold Node.receive
      dsimp only
      rw [h.onSignature_eq hv hhash, ite_self]
      exact ⟨rfl, rfl⟩
    | block c hc hs =>
      have hquiet := (h.quiet_onCommit hc).core_eq
      unfold Node.receive
      dsimp only
      split_ifs
      · exact ⟨congrArg Core.store hquiet, congrArg Core.proposals hquiet⟩
      · exact ⟨rfl, rfl⟩
    | alert a =>
      unfold Node.receive
      dsimp only
      split_ifs
      · exact ⟨rfl, rfl⟩
      · exact ⟨rfl, rfl⟩
    | sync req => exact ⟨rfl, rfl⟩

/-! ## The sealer's proposal -/

omit [SerdeReadsBack] in
/-- A node that publishes a proposal has taken it in and tries to commit it. -/
theorem proposeInternal_of_sent (hn : Node.Reachable n)
    (hP : (Topics.proposals, Message.proposalMessage P) ∈ (n.step .proposeNow).2.1) :
    n.proposeInternal = (proposed n P).maybeCommit P := by
  obtain ⟨-, hidle⟩ := reachable_idle hn
  have hmem : P ∈ proposalsIn n.proposeInternal.outgoing := mem_proposalsIn.mpr ⟨_, hP⟩
  rcases proposeInternal_cases n with hquiet | ⟨head, seen, -, hhead, hfree, hval, heq⟩
  · obtain ⟨msgs, hmsgs, hroutine⟩ := hquiet.sends
    rw [hmsgs, hidle.outgoing, List.nil_append, proposalsIn_routine hroutine] at hmem
    exact absurd hmem List.not_mem_nil
  · obtain ⟨-, hheld⟩ := proposed_effects (I := Inputs.any) trivial hhead hfree hval trivial
    have hcommit : Effects Inputs.none (proposed n (n.nextProposal head)) n.proposeInternal :=
      heq ▸ maybeCommit_effects (n.nextProposal head) hheld trivial
    rw [Effects.proposalsIn_eq hcommit id, outgoing_proposed, hidle.outgoing] at hmem
    obtain rfl : P = n.nextProposal head := List.mem_singleton.mp hmem
    exact heq

/-- The sealer after its proposal: it waits for shares, or its own share was enough. -/
theorem Expects.propose (hm : Expects base P m) (hn : Node.Reachable m)
    (hP : (Topics.proposals, Message.proposalMessage P) ∈ (m.step .proposeNow).2.1) :
    Waits P True m [] (m.step .proposeNow).2.1 (m.step .proposeNow).1 ∨
      Finished base P (m.step .proposeNow).2.1 (m.step .proposeNow).1 := by
  obtain ⟨-, hidle⟩ := reachable_idle hn
  have halike : Alike m (proposed m P) := by
    obtain ⟨hid, hstore, hcommitted, hpeers, hqueue, hrejects⟩ := alike_adopt m.tickClock P
    exact ⟨hid, hstore, hcommitted, hpeers, hqueue, hrejects⟩
  have husable : UsableShares (proposed m P) := by
    have hticked : UsableShares m.tickClock := (reachable_usable hn hm.keys).of_eq rfl rfl
    exact (hticked.adopt (hm.keys.congr rfl) P).of_core_eq (core_proposed m P)
  have hheld : (proposed m P).proposals[P.proposalHash]? = some P :=
    proposals_adopt_self m.tickClock P
  have hout := outgoing_proposed m P
  rw [hidle.outgoing, List.nil_append] at hout
  show Waits _ _ _ _ m.proposeInternal.outgoing m.proposeInternal.drain.1 ∨
    Finished _ _ m.proposeInternal.outgoing m.proposeInternal.drain.1
  rw [proposeInternal_of_sent hn hP]
  rcases hm.maybeCommit halike husable with ⟨hshort, heq⟩ | hdone
  · left
    rw [heq]
    have hfiled : shareAt (proposed m P) P.proposalHash m.nodeId = some (m.signatureShare P) :=
      (shareAt_adopt m.tickClock P P.proposalHash m.nodeId).trans (if_pos ⟨rfl, rfl⟩)
    refine ⟨halike.trans (untouching_drain _).toAlike, ?_, by simp, by simp,
      .inr ⟨hheld, ?_, ?_⟩, fun _ => ⟨hheld, by simp, hshort⟩⟩
    · rw [hout]
      simp
    · rw [(halike.trans (untouching_drain _).toAlike).nodeId_eq]
      show (shareAt (proposed m P) P.proposalHash m.nodeId).isSome
      rw [hfiled]
      rfl
    · rw [hout, signatureShare_congr (halike.trans (untouching_drain _).toAlike).identity_eq]
      exact List.mem_cons_self
  · exact .inr (hdone [])

/-! ## Runs -/

/-- The operations of one node. -/
def opsOf (id : String) (actions : List (String × Node.Op)) : List Node.Op :=
  (actions.filter fun a => a.1 = id).map Prod.snd

omit [Crates] [SerdeReadsBack] in
/-- An operation of the node is added to its operations. -/
@[simp] theorem opsOf_concat_self (id : String) (past : List (String × Node.Op)) (op : Node.Op) :
    opsOf id (past ++ [(id, op)]) = opsOf id past ++ [op] := by
  simp [opsOf]

omit [Crates] [SerdeReadsBack] in
/-- One of another node is not. -/
theorem opsOf_concat_of_ne {id other : String} (past : List (String × Node.Op)) (op : Node.Op)
    (h : other ≠ id) : opsOf other (past ++ [(id, op)]) = opsOf other past := by
  simp [opsOf, h.symm]

omit [Crates] [SerdeReadsBack] in
/-- The operations of a node are those of its actions. -/
theorem mem_opsOf {id : String} {actions : List (String × Node.Op)} {op : Node.Op} :
    op ∈ opsOf id actions ↔ (id, op) ∈ actions := by
  simp [opsOf]

omit [SerdeReadsBack] in
/-- Nodes that perform operations of the round, in any order. -/
def roundMachine (ids : Finset String) (P : CheckpointProposal) :
    Machine Network (String × Node.Op) where
  admits _ a := a.1 ∈ ids ∧ RoundOp P a.2
  step net a := net.act a.1 a.2

/-- The live nodes `ids` start with the same chain and with nothing in flight, and the
proposal of the sealer is acceptable to all of them. -/
structure Round (ids : Finset String) (base : List Checkpoint) (sealer : String)
    (P : CheckpointProposal) (start : Network) : Prop extends Network.Start ids base start where
  sealer_mem : sealer ∈ ids
  offered : (Topics.proposals, Message.proposalMessage P) ∈
    ((start.nodes sealer).step .proposeNow).2.1
  accepts : ∀ id ∈ ids, Accepts base P (start.nodes id)
  unknown : ∀ id ∈ ids, (start.nodes id).proposals[P.proposalHash]? = none ∧
    P.proposalHash ∉ (start.nodes id).signed
  numbers : (chainNodeSeqs base ++ P.nodeSeqs).Nodup
  measured : ∀ s ∈ P.claims, (computeUnits s.claim).isNaN = false
  quorum : (start.nodes sealer).quorumSize ≤ ids.card

/-- Whatever one of the nodes published has been delivered to each of the others. -/
def Delivered (ids : Finset String) (actions : List (String × Node.Op)) (net : Network) : Prop :=
  ∀ i ∈ ids, ∀ j ∈ ids, i ≠ j → ∀ e ∈ net.sent j, (i, Node.Op.receive e.1 e.2) ∈ actions

variable {ids : Finset String} {sealer : String} {start : Network}

/-- Each node waits or is finished, and the proposal is on its way. -/
structure Proceeds (ids : Finset String) (base : List Checkpoint) (sealer : String)
    (P : CheckpointProposal) (start : Network) (past : List (String × Node.Op))
    (net : Network) : Prop where
  reachable : ∀ id ∈ ids, Node.Reachable (net.nodes id)
  offered : (Topics.proposals, Message.proposalMessage P) ∈ net.sent sealer
  status : ∀ id ∈ ids,
    Waits P (id = sealer) (start.nodes id) (opsOf id past) (net.sent id) (net.nodes id) ∨
      Finished base P (net.sent id) (net.nodes id)

omit [SerdeReadsBack] in
/-- Blocks of the proposal have hashes that the chain does not have, for they have another
height. -/
theorem Round.hash_fresh [RyuReadsBack] (hsha : Sha256CollisionFree)
    (h : Round ids base sealer P start) {c : Checkpoint} (hc : c.proposal = P) :
    c.blockHash ∉ base.map Checkpoint.blockHash := by
  intro hmem
  obtain ⟨b, hb, heq⟩ := List.mem_map.mp hmem
  obtain ⟨i, hi, rfl⟩ := List.getElem_of_mem hb
  have hproposal := (blockHash_injective hsha heq).1
  have hheight := LedgerChain.getElem_height (h.chain sealer h.sealer_mem).chain_ok hi
  have hnext := (h.accepts sealer h.sealer_mem).passes.height_eq
  rw [Checkpoint.height, hproposal, hc] at hheight
  omega

omit [SerdeReadsBack] in
/-- In a round each live node expects the proposal. -/
theorem Round.expects [RyuReadsBack] (hsha : Sha256CollisionFree)
    (h : Round ids base sealer P start) {id : String} (hid : id ∈ ids) :
    Expects base P (start.nodes id) := by
  have haccepts := h.accepts id hid
  refine ⟨haccepts, fun c hc => ?_⟩
  obtain ⟨hinv, -⟩ := reachable_idle (h.reachable id hid)
  have hpasses : ProposalPasses _ base (start.nodes id).committedClaimIds false c.proposal :=
    hc.symm ▸ haccepts.passes
  have hpairs : (chainNodeSeqs (base ++ [c])).Nodup := by
    rw [chainNodeSeqs_concat, hc]
    exact h.numbers
  obtain ⟨hnodup, hnew⟩ := (pairs_nodup_iff haccepts.stored c).mp hpairs
  have hblocks : (start.nodes id).store.blocks.map BlockRow.blockHash =
      base.map Checkpoint.blockHash := by
    rw [haccepts.stored.blocks_eq, List.map_map]
    rfl
  have hadvances : ∀ tip ∈ base.getLast?, tip.epoch < c.epoch := hpasses.epoch_advances
  refine (extends_iff_insertable haccepts.stored hpasses hinv.committed).mpr
    ⟨hnodup, hnew, hc.symm ▸ h.measured, fun _ => ?_, hblocks ▸ h.hash_fresh hsha hc⟩
  exact epoch_nonneg_of_advances haccepts.stored hadvances h.nonempty

variable [RyuReadsBack]

/-- The round is under way once the sealer has proposed. -/
theorem Round.proceeds (hsha : Sha256CollisionFree) (h : Round ids base sealer P start) :
    Proceeds ids base sealer P start [] (start.act sealer .proposeNow) := by
  refine ⟨fun id hid => ?_, ?_, fun id hid => ?_⟩
  · by_cases heq : id = sealer
    · rw [heq, Network.act_nodes_self]
      exact .step (h.reachable sealer h.sealer_mem) _
    · rw [Network.act_nodes_of_ne _ _ heq]
      exact h.reachable id hid
  · exact Network.mem_act_sent.mpr (.inr ⟨rfl, h.offered⟩)
  · by_cases heq : id = sealer
    · subst heq
      rw [Network.act_sent_self, h.silent, List.nil_append, Network.act_nodes_self, eq_true rfl]
      exact (h.expects hsha hid).propose (h.reachable id hid) h.offered
    · rw [Network.act_sent_of_ne _ _ heq, h.silent, Network.act_nodes_of_ne _ _ heq]
      exact .inl ⟨.refl _, by simp, by simp [opsOf], by simp [opsOf], .inl (h.unknown id hid),
        fun hlead => absurd hlead heq⟩

/-- The round proceeds with every operation of a node. -/
theorem Proceeds.step (hsha : Sha256CollisionFree) (hround : Round ids base sealer P start)
    {past : List (String × Node.Op)} {net : Network}
    (h : Proceeds ids base sealer P start past net) {a : String × Node.Op}
    (ha : (roundMachine ids P).admits net a) :
    Proceeds ids base sealer P start (past ++ [a]) ((roundMachine ids P).step net a) := by
  obtain ⟨id, op⟩ := a
  obtain ⟨hid, hop⟩ := ha
  show Proceeds _ _ _ _ _ _ (net.act id op)
  refine ⟨fun other hother => ?_, Network.sent_subset_act net id sealer op h.offered,
    fun other hother => ?_⟩
  · by_cases heq : other = id
    · rw [heq, Network.act_nodes_self]
      exact .step (h.reachable id hid) op
    · rw [Network.act_nodes_of_ne _ _ heq]
      exact h.reachable other hother
  · by_cases heq : other = id
    · subst heq
      rw [Network.act_sent_self, Network.act_nodes_self, opsOf_concat_self]
      rcases h.status other hother with hwaits | hfinished
      · exact hwaits.step (hround.expects hsha hother) (h.reachable other hother) hop
      · exact .inr (hfinished.step hop)
    · rw [Network.act_sent_of_ne _ _ heq, Network.act_nodes_of_ne _ _ heq,
        opsOf_concat_of_ne _ _ heq]
      exact h.status other hother

omit [SerdeReadsBack] [RyuReadsBack] in
/-- While everybody waits, the sealer gets the share of everybody. -/
theorem Proceeds.shares_arrive (hround : Round ids base sealer P start)
    {actions : List (String × Node.Op)} {net : Network}
    (h : Proceeds ids base sealer P start actions net) (hall : Delivered ids actions net)
    (hwaits : ∀ id ∈ ids,
      Waits P (id = sealer) (start.nodes id) (opsOf id actions) (net.sent id) (net.nodes id)) :
    ids ⊆ ((net.nodes sealer).signatures.getD P.proposalHash ∅).keys.toFinset := by
  have hcollects := (hwaits sealer hround.sealer_mem).collects rfl
  intro id hid
  have hnamed : (net.nodes id).nodeId = id :=
    (hwaits id hid).alike.nodeId_eq.trans (hround.named id hid)
  suffices hshare : (shareAt (net.nodes sealer) P.proposalHash id).isSome by
    rw [List.mem_toFinset, Std.ExtTreeMap.mem_keys, Std.ExtTreeMap.mem_iff_isSome_getElem?]
    exact hshare
  have hvoted (hheld : (net.nodes id).proposals[P.proposalHash]? = some P) :
      Voted P (net.sent id) (net.nodes id) := by
    rcases (hwaits id hid).vote with ⟨hnone, -⟩ | hvoted
    · rw [hheld] at hnone
      cases hnone
    · exact hvoted
  by_cases heq : id = sealer
  · subst heq
    have hfiled := (hvoted hcollects.held).filed
    rwa [hnamed] at hfiled
  · -- the proposal reached the node, and its share the sealer
    have hmet := hall id hid sealer hround.sealer_mem heq _ h.offered
    have hpublished := (hvoted ((hwaits id hid).held (mem_opsOf.mpr hmet))).published
    have hback := hall sealer hround.sealer_mem id hid (Ne.symm heq) _ hpublished
    have hcounted := hcollects.counted _ (mem_opsOf.mpr hback)
    rwa [show ((net.nodes id).signatureShare P).nodeId = id from hnamed] at hcounted

/-- A round in which the live nodes are a quorum and everything published gets to them: each
of them stores, on top of the common chain, a signed block for the sealer's proposal. -/
theorem round_commits (hsha : Sha256CollisionFree) (hround : Round ids base sealer P start)
    {actions : List (String × Node.Op)}
    (hlegal : (roundMachine ids P).Legal (start.act sealer .proposeNow) actions)
    (hall : Delivered ids actions ((roundMachine ids P).run (start.act sealer .proposeNow) actions))
    {id : String} (hid : id ∈ ids) :
    ∃ c, c.proposal = P ∧ Signed c ∧
      Refines (((roundMachine ids P).run (start.act sealer .proposeNow) actions).nodes id).store
        (base ++ [c]) := by
  have hproceeds := hlegal.history (P := Proceeds ids base sealer P start) (hround.proceeds hsha)
    fun past t a h ha => h.step hsha hround ha
  generalize (roundMachine ids P).run (start.act sealer .proposeNow) actions = net at *
  by_contra hnone
  have hunfinished (sent : List (String × Message)) : ¬ Finished base P sent (net.nodes id) :=
    fun hfinished => hnone hfinished.stored
  -- a commit that anybody published would have reached the node
  have hwaits : ∀ j ∈ ids,
      Waits P (j = sealer) (start.nodes j) (opsOf j actions) (net.sent j) (net.nodes j) := by
    intro j hj
    apply (hproceeds.status j hj).resolve_right
    intro hfinished
    obtain ⟨c, hc⟩ := hfinished.announced
    have hmine := (hproceeds.status id hid).resolve_right (hunfinished _)
    by_cases heq : id = j
    · exact hmine.silent _ c (heq ▸ hc)
    · exact hmine.unmet c (mem_opsOf.mpr (hall id hid j hj heq _ hc))
  -- so everybody has voted, and the sealer has a quorum
  have hcollects := (hwaits sealer hround.sealer_mem).collects rfl
  have hcard := Finset.card_le_card (hproceeds.shares_arrive hround hall hwaits)
  have hkeys := List.toFinset_card_le ((net.nodes sealer).signatures.getD P.proposalHash ∅).keys
  rw [Std.ExtTreeMap.length_keys] at hkeys
  have hshort := hcollects.short
  rw [(hwaits sealer hround.sealer_mem).alike.quorumSize_eq] at hshort
  have := hround.quorum
  omega

end Exodus.Analysis

/-! ## On the sample -/

namespace Exodus.Analysis

open Exodus.Library Exodus.Model Exodus.Interface Exodus.Sample Signer

/-- The block at the head is known. -/
theorem onCommit_of_head {n : Node} {c : Checkpoint} (h : n.store.head = some (readBack c)) :
    n.onCommit c = n := by
  unfold Node.onCommit
  rw [h]
  dsimp only
  rw [readBack_height, readBack_blockHash, if_pos le_rfl]
  exact if_neg fun hne => hne.1 rfl

/-- The first block carries its signatures. -/
theorem firstBlock_signed : Signed firstBlock := by
  rcases first_follows.passes with hg | ⟨-, -, hs⟩
  · exact absurd hg (by decide)
  · exact hs

/-- Each of the two accepts the first proposal. -/
theorem pair_accepts {s : Signer} (hs : s ∈ [a, b]) :
    Accepts [genesisCheckpoint] firstProposal (pair.nodes s.nodeId) := by
  have h := pair_poised hs
  rcases first_follows.passes with hg | ⟨-, hpasses, -⟩
  · exact absurd hg (by decide)
  · refine ⟨h.refines, keysMatch_sample h.seed_eq h.key_eq, ?_, (pair_sealer hs).symm, h.unqueued,
      fun _ _ => h.unrejected ▸ List.not_mem_nil⟩
    rw [h.config_eq, h.committed]
    exact hpasses

/-- The node `b` seals the first proposal on genesis. -/
theorem pair_round :
    Round {a.nodeId, b.nodeId} [genesisCheckpoint] b.nodeId firstProposal pair := by
  refine ⟨pair_start, by simp, ?_, fun id hid => ?_, fun id hid => ?_, ?_, ?_, ?_⟩
  · rw [b_publishes]
    simp
  · obtain ⟨s, hs, rfl⟩ := mem_pair hid
    exact pair_accepts hs
  · obtain ⟨s, hs, rfl⟩ := mem_pair hid
    rw [(pair_poised hs).idle, (pair_poised hs).unvoted]
    exact ⟨rfl, Finset.notMem_empty _⟩
  · have hpairs := first_follows.can_append.pairs_nodup
    rwa [chainNodeSeqs_concat] at hpairs
  · exact first_follows.can_append.cu_notNull
  · have hb : Poised b _ := pair_poised (by decide)
    rw [pair_quorum hb.config_eq (pair_committee (by decide))]
    decide

/-- What the nodes publish reaches the other one: `a` gets the block of `b` first. -/
noncomputable def exchangeOfPair : List (String × Node.Op) :=
  [(a.nodeId, .receive Topics.commits (.commitMessage firstBlock)),
    (a.nodeId, .receive Topics.proposals (.proposalMessage firstProposal)),
    (a.nodeId, .receive Topics.signatures (.signatureShare (firstVote.share 1))),
    (b.nodeId, .receive Topics.commits (.commitMessage firstBlock))]

/-- The exchange is made of operations of the round. -/
theorem exchangeOfPair_legal : (roundMachine {a.nodeId, b.nodeId} firstProposal).Legal
    (pair.act b.nodeId .proposeNow) exchangeOfPair := by
  have hshare : About firstProposal (.signatureShare (firstVote.share 1)) :=
    .share _ (firstVote.share_verify (by simp [votes]) 1) first_proposalHash.symm
  have hblock : About firstProposal (.commitMessage firstBlock) := .block _ rfl firstBlock_signed
  exact ⟨⟨by simp, .deliver _ _ hblock⟩, ⟨by simp, .deliver _ _ .proposal⟩,
    ⟨by simp, .deliver _ _ hshare⟩, ⟨by simp, .deliver _ _ hblock⟩, trivial⟩

/-- The node `a` appends the block of `b` and passes it on; the proposal and the share come
late. -/
theorem a_relays :
    ((pair.nodes a.nodeId).step (.receive Topics.commits (.commitMessage firstBlock))).2.1 =
        [(Topics.commits, .commitMessage firstBlock)] ∧
      ∀ sent, Finished [genesisCheckpoint] firstProposal
        (sent ++ [(Topics.commits, .commitMessage firstBlock)])
        ((pair.nodes a.nodeId).step (.receive Topics.commits (.commitMessage firstBlock))).1 := by
  show ((pair.nodes a.nodeId).onCommit firstBlock).outgoing = _ ∧
    ∀ sent, Finished _ _ _ ((pair.nodes a.nodeId).onCommit firstBlock).drain.1
  have ha : Poised a (pair.nodes a.nodeId) := pair_poised (by decide)
  have hfollows : Follows (pair.nodes a.nodeId).config.flopsTolerance [genesisCheckpoint]
      firstBlock := by
    rw [ha.config_eq]
    exact first_follows
  obtain ⟨st, hst, heq⟩ := onCommit_of_follows ha.refines hfollows
    ha.unqueued (fun id _ => ha.committed ▸ Finset.notMem_empty id)
    (ha.unrejected ▸ List.not_mem_nil)
  have hout : ((pair.nodes a.nodeId).onCommit firstBlock).outgoing =
      [(Topics.commits, .commitMessage firstBlock)] := by
    rw [heq, outgoing_announceCommit, show Node.outgoing _ = [] from ha.silent]
    rfl
  refine ⟨hout, fun sent => ?_⟩
  rw [← hout, heq]
  exact finished_announceCommit rfl firstBlock_signed hst

/-- It delivers all that the two publish. -/
theorem exchangeOfPair_delivered : Delivered {a.nodeId, b.nodeId} exchangeOfPair
    ((roundMachine {a.nodeId, b.nodeId} firstProposal).run (pair.act b.nodeId .proposeNow)
      exchangeOfPair) := by
  obtain ⟨hcommit, hfinished⟩ := a_relays
  have hshare : (firstVote.share 1).verify = true := firstVote.share_verify (by simp [votes]) 1
  -- what comes late makes `a` publish nothing
  generalize hm : ((pair.nodes a.nodeId).step
    (.receive Topics.commits (.commitMessage firstBlock))).1 = m at hfinished
  have hidle : Idle m :=
    hm ▸ (reachable_idle (.step (pair_start.reachable a.nodeId (by simp)) _)).2
  have hproposal : m.step (.receive Topics.proposals (.proposalMessage firstProposal)) =
      (m, [], []) := by
    rw [step_receive_proposal, (hfinished []).onProposal_eq]
    exact Prod.ext (drain_of_idle hidle) (Prod.ext hidle.outgoing hidle.calls)
  have hlate : m.step (.receive Topics.signatures (.signatureShare (firstVote.share 1))) =
      (m, [], []) := by
    rw [step_receive_share, (hfinished []).onSignature_eq hshare first_proposalHash.symm]
    exact Prod.ext (drain_of_idle hidle) (Prod.ext hidle.outgoing hidle.calls)
  -- and `b` knows its own block
  have hown : (((pair.nodes b.nodeId).step .proposeNow).1.step
      (.receive Topics.commits (.commitMessage firstBlock))).2.1 = [] := by
    have hidle := (reachable_idle (.step (pair_start.reachable b.nodeId (by simp)) .proposeNow)).2
    show (Node.onCommit _ firstBlock).outgoing = []
    rw [onCommit_of_head (by rw [b_commits.head]; rfl)]
    exact hidle.outgoing
  show Delivered _ _ (((((pair.act b.nodeId .proposeNow).act a.nodeId
    (.receive Topics.commits (.commitMessage firstBlock))).act a.nodeId
      (.receive Topics.proposals (.proposalMessage firstProposal))).act a.nodeId
        (.receive Topics.signatures (.signatureShare (firstVote.share 1)))).act b.nodeId
          (.receive Topics.commits (.commitMessage firstBlock)))
  intro i hi j hj hij e he
  have hne : a.nodeId ≠ b.nodeId := nodeId_ne (by decide)
  simp only [Finset.mem_insert, Finset.mem_singleton] at hi hj
  rcases hj with rfl | rfl
  · obtain rfl : i = b.nodeId := hi.resolve_left hij
    simp only [Network.act_sent_of_ne _ _ hne, Network.act_sent_self, Network.act_nodes_self,
      Network.act_nodes_of_ne _ _ hne, hm, hproposal, hlate, hcommit,
      pair_start.silent, List.nil_append, List.append_nil, List.mem_singleton] at he
    subst he
    simp [exchangeOfPair]
  · obtain rfl : i = a.nodeId := hi.resolve_right hij
    simp only [Network.act_sent_self, Network.act_nodes_of_ne _ _ hne.symm,
      Network.act_sent_of_ne _ _ hne.symm, Network.act_nodes_self, b_publishes] at he
    simp only [hown, pair_start.silent, List.nil_append, List.append_nil,
      List.mem_cons, List.not_mem_nil, or_false] at he
    rcases he with rfl | rfl | rfl <;> simp [exchangeOfPair]

/-- The node `a` ends with a block for the proposal of `b`. -/
theorem pair_round_commits : ∃ c, c.proposal = firstProposal ∧ Signed c ∧
    Refines (((roundMachine {a.nodeId, b.nodeId} firstProposal).run
      (pair.act b.nodeId .proposeNow) exchangeOfPair).nodes a.nodeId).store [genesisCheckpoint, c] :=
  round_commits sha256_injective pair_round exchangeOfPair_legal exchangeOfPair_delivered (by simp)

end Exodus.Analysis
