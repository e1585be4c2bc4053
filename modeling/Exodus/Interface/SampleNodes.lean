import Exodus.Interface.Handlers
import Exodus.Interface.Network
import Exodus.Interface.SampleChain

/-!
# Nodes of the sample that know each other

Nodes that have started on genesis, have received each other's heartbeats and have the first
claim to propose.  Their committee is all of them, in the order of their ids, so the node
`b` seals the first view.
-/

set_option autoImplicit false

namespace Exodus.Sample

open Exodus.Library Exodus.Model Exodus.Interface Signer

/-! ## Heartbeats -/

/-- The heartbeat of a node on genesis. -/
def greeting (s : Signer) : Heartbeat where
  nodeId := s.nodeId
  height := 0
  blockHash := digestText genesisBlockDigest
  epoch := 0
  sealedBy := genesisSealer
  quorumWeight := 0

/-- A node after the heartbeat of another one. -/
noncomputable def hears (n : Node) (s : Signer) : Node :=
  { n with
    peers := n.peers.insert s.nodeId (greeting s)
    peerSeen := n.peerSeen.insert s.nodeId n.now
    reads := n.reads + 1 }

/-- A node that has heard of others, one after the other. -/
noncomputable def greeted (s : Signer) (others : List Signer) (time : String) : Node :=
  others.foldl hears (fresh s time)

/-- A node that has heard of others and has the first claim to propose. -/
noncomputable def ready (s : Signer) (others : List Signer) (time : String) (view : Int64)
    (reads : ℕ) (lastActivity : Float) : Node :=
  { greeted s others time with
    reads, view, lastActivity
    pending := (∅ : HashMap SignedContribution).insert "a1" firstClaim.signed }

/-- A heartbeat of a node on genesis is noted. -/
theorem step_greeting {n : Node} {s : Signer} (href : Refines n.store [genesisCheckpoint])
    (hother : s.nodeId ≠ n.nodeId) (hout : n.outgoing = []) (hcalls : n.listenerCalls = []) :
    (n.step (.receive Topics.heartbeats (.heartbeat (greeting s)))).1 = hears n s := by
  have hhash : (greeting s).blockHash = (readBack genesisCheckpoint).blockHash :=
    genesis_blockHash.symm.trans (readBack_blockHash _).symm
  have hheight : (greeting s).height.toInt = (readBack genesisCheckpoint).height :=
    (readBack_height genesisCheckpoint).symm
  have hheard : n.onHeartbeat (greeting s) = hears n s :=
    onHeartbeat_of_same_head hother href.head hheight hhash
  rw [step_receive_heartbeat, hheard]
  unfold hears Node.drain
  rw [hout, hcalls]

/-- Heartbeats only add to the peers and to the readings of the clock. -/
theorem greeted_eq (s : Signer) (others : List Signer) (time : String) :
    ∃ peers seen, greeted s others time =
        { fresh s time with peers := peers, peerSeen := seen, reads := 2 + others.length } ∧
      ∀ id, id ∈ peers ↔ ∃ o ∈ others, o.nodeId = id := by
  induction others using List.reverseRecOn with
  | nil => exact ⟨∅, ∅, rfl, by simp⟩
  | append_singleton others o ih =>
    obtain ⟨peers, seen, heq, hpeers⟩ := ih
    refine ⟨peers.insert o.nodeId (greeting o), seen.insert o.nodeId
      ((ambient time).now (2 + others.length)), ?_, fun id => ?_⟩
    · rw [greeted, List.foldl_append]
      show hears (greeted s others time) o = _
      rw [heq, List.length_append]
      rfl
    · simp only [Std.ExtTreeMap.mem_insert, hpeers, Std.LawfulEqCmp.compare_eq_iff_eq,
        List.mem_append, List.mem_singleton]
      constructor
      · rintro (rfl | ⟨x, hx, rfl⟩)
        · exact ⟨o, .inr rfl, rfl⟩
        · exact ⟨x, .inl hx, rfl⟩
      · rintro ⟨x, hx | rfl, rfl⟩
        · exact .inr ⟨x, hx, rfl⟩
        · exact .inl rfl

/-- Heartbeats of others are all that it takes to get there. -/
theorem greeted_reachable {s : Signer} {others : List Signer} (hs : s ∉ others) (time : String) :
    Node.Reachable (greeted s others time) := by
  induction others using List.reverseRecOn with
  | nil => exact fresh_reachable s time
  | append_singleton others o ih =>
    obtain ⟨peers, seen, heq, -⟩ := greeted_eq s others time
    have hreach := ih fun h => hs (List.mem_append_left _ h)
    have hne : o ≠ s := fun h => hs (h ▸ List.mem_append_right _ (List.mem_singleton_self _))
    have hstep : ((greeted s others time).step
        (.receive Topics.heartbeats (.heartbeat (greeting o)))).1 =
        hears (greeted s others time) o := by
      rw [heq]
      exact step_greeting (fresh_refines s time) (fun h => hne (nodeId_injective h)) rfl rfl
    rw [greeted, List.foldl_append]
    show Node.Reachable (hears (greeted s others time) o)
    rw [← hstep]
    exact .step hreach _

/-- The first claim is admitted by a node that has no claims. -/
theorem step_claim {n : Node} (hpending : n.pending = ∅) (hcommitted : n.committedClaimIds = ∅)
    (hproposed : n.proposedClaimIds = ∅) :
    (n.step (.receive Topics.claims (.contributionGossip firstClaim.signed))).1 =
      ({ n with pending := (∅ : HashMap SignedContribution).insert "a1" firstClaim.signed } :
        Node).drain.1 := by
  have hverify : firstClaim.signed.verify = true := firstClaim.verify (by simp [claims]) rfl
  have hroom : ((∅ : HashMap SignedContribution).insert "a1" firstClaim.signed).size ≤
      maxPendingClaims := by
    rw [show Std.ExtTreeMap.size _ = 1 from rfl, maxPendingClaims]
    norm_num
  have hnone (id : String) : id ∉ (∅ : Finset String) := Finset.notMem_empty id
  rw [step_receive_claim, onClaims_of_new hverify (hpending ▸ rfl) (hcommitted ▸ hnone _)
    (hproposed ▸ hnone _) (hpending ▸ hroom), hpending]
  rfl

/-! ## The nodes -/

section Ready

variable (s : Signer) (others : List Signer) (time : String) (view : Int64) (reads : ℕ)
  (last : Float)

/-- The peers apart, a node that is ready is a fresh one with a claim. -/
theorem ready_eq : ∃ peers seen, ready s others time view reads last =
      { fresh s time with
        peers := peers, peerSeen := seen, reads, view, lastActivity := last
        pending := (∅ : HashMap SignedContribution).insert "a1" firstClaim.signed } ∧
    ∀ id, id ∈ peers ↔ ∃ o ∈ others, o.nodeId = id := by
  obtain ⟨peers, seen, heq, hpeers⟩ := greeted_eq s others time
  exact ⟨peers, seen, by rw [ready, heq], hpeers⟩

/-- It is on genesis. -/
theorem ready_refines : Refines (ready s others time view reads last).store [genesisCheckpoint] := by
  obtain ⟨peers, seen, heq, -⟩ := ready_eq s others time view reads last
  rw [heq]
  exact fresh_refines s time

/-- The heartbeats and a claim make a node ready. -/
theorem ready_reachable (hs : s ∉ others) :
    Node.Reachable (ready s others time 1 (2 + others.length) 0.0) := by
  obtain ⟨peers, seen, heq, -⟩ := greeted_eq s others time
  have hready : ((greeted s others time).step
      (.receive Topics.claims (.contributionGossip firstClaim.signed))).1 =
      ready s others time 1 (2 + others.length) 0.0 := by
    rw [ready, heq]
    exact step_claim rfl rfl rfl
  exact hready ▸ .step (greeted_reachable hs time) _

/-- The committee is the node and the others. -/
theorem committeeMembers_ready (hnodup : (s :: others).Nodup) :
    (ready s others time view reads last).committeeMembers =
      ((s :: others).map nodeId).insertionSort (· ≤ ·) := by
  rw [committeeMembers_on_genesis (ready_refines s others time view reads last)]
  obtain ⟨peers, seen, heq, hpeers⟩ := ready_eq s others time view reads last
  rw [heq]
  have hnames : ((s :: others).map nodeId).Nodup := hnodup.map nodeId_injective
  have hperm : (s.nodeId :: peers.keys).dedup.Perm ((s :: others).map nodeId) := by
    refine (List.perm_ext_iff_of_nodup (List.nodup_dedup _) hnames).mpr fun id => ?_
    simp [Std.ExtTreeMap.mem_keys, hpeers, eq_comm]
  exact List.Perm.eq_of_pairwise (fun _ _ _ _ hab hba => le_antisymm hab hba)
    (List.pairwise_insertionSort _ _) (List.pairwise_insertionSort _ _)
    ((List.perm_insertionSort _ _).trans (hperm.trans (List.perm_insertionSort _ _).symm))

/-- The quorum of such a node is that of the committee in Byzantine mode. -/
theorem quorumSize_ready (hnodup : (s :: others).Nodup) :
    (ready s others time view reads last).quorumSize = 2 * (others.length / 3) + 1 := by
  obtain ⟨peers, seen, heq, -⟩ := ready_eq s others time view reads last
  have hbyzantine : (ready s others time view reads last).config.byzantine = true := by
    rw [heq]
    rfl
  unfold Node.quorumSize
  rw [committeeMembers_ready s others time view reads last hnodup, List.length_insertionSort,
    List.length_map, List.length_cons, hbyzantine]
  simp

/-- The committee takes turns in the order of the ids. -/
theorem sealerForView_ready (hnodup : (s :: others).Nodup) (k : Int64) :
    (ready s others time view reads last).sealerForView k =
      (((s :: others).map nodeId).insertionSort (· ≤ ·)).getD
        (k.toInt % (others.length + 1 : ℕ)).toNat s.nodeId := by
  obtain ⟨peers, seen, heq, -⟩ := ready_eq s others time view reads last
  have hid : (ready s others time view reads last).nodeId = s.nodeId := by
    rw [heq]
    rfl
  rw [sealerForView_on_genesis (ready_refines s others time view reads last),
    committeeMembers_ready s others time view reads last hnodup, hid, List.length_insertionSort,
    List.length_map, List.length_cons]

end Ready

/-! ## A network of such nodes -/

/-- The time at which a node makes its proposals. -/
def Signer.time : Signer → String
  | a => "t2"
  | _ => "t1"

/-- Members that have all heard of each other, before they have published anything. -/
noncomputable def meeting (members : List Signer) : Network where
  nodes id := (members.find? fun s => s.nodeId = id).elim (fresh a "t1") fun s =>
    ready s (members.erase s) s.time 1 (2 + (members.erase s).length) 0.0
  sent _ := []

/-- Every member stands under its node id. -/
theorem meeting_nodes {members : List Signer} {s : Signer} (hs : s ∈ members) :
    (meeting members).nodes s.nodeId =
      ready s (members.erase s) s.time 1 (2 + (members.erase s).length) 0.0 := by
  have hfind : (members.find? fun t => t.nodeId = s.nodeId) = some s := by
    cases h : members.find? fun t => t.nodeId = s.nodeId with
    | none => exact absurd (decide_eq_true rfl) (List.find?_eq_none.mp h s hs)
    | some t =>
      have ht := List.find?_some h
      rw [nodeId_injective (of_decide_eq_true ht)]
  unfold meeting
  dsimp only
  rw [hfind]
  rfl

/-- They have the same committee, in the same order. -/
theorem meeting_committee {members : List Signer} {s : Signer} (hnodup : members.Nodup)
    (hs : s ∈ members) :
    ((meeting members).nodes s.nodeId).committeeMembers =
      (members.map nodeId).insertionSort (· ≤ ·) := by
  have hperm := List.perm_cons_erase hs
  rw [meeting_nodes hs, committeeMembers_ready _ _ _ _ _ _ (hperm.nodup hnodup)]
  refine List.Perm.eq_of_pairwise (fun _ _ _ _ hab hba => le_antisymm hab hba)
    (List.pairwise_insertionSort _ _) (List.pairwise_insertionSort _ _) ?_
  exact (List.perm_insertionSort _ _).trans
    ((hperm.symm.map nodeId).trans (List.perm_insertionSort _ _).symm)

/-- So they elect the same sealers. -/
theorem meeting_sealer {members : List Signer} {s : Signer} (hnodup : members.Nodup)
    (hs : s ∈ members) (k : Int64) :
    ((meeting members).nodes s.nodeId).sealerForView k =
      ((members.map nodeId).insertionSort (· ≤ ·)).getD (k.toInt % members.length).toNat
        s.nodeId := by
  have href : Refines ((meeting members).nodes s.nodeId).store [genesisCheckpoint] := by
    rw [meeting_nodes hs]
    exact ready_refines ..
  have hid : ((meeting members).nodes s.nodeId).nodeId = s.nodeId := by
    rw [meeting_nodes hs]
    obtain ⟨peers, seen, heq, -⟩ := ready_eq s (members.erase s) s.time 1
      (2 + (members.erase s).length) 0.0
    rw [heq]
    rfl
  rw [sealerForView_on_genesis href, meeting_committee hnodup hs, hid, List.length_insertionSort,
    List.length_map]

/-- A meeting is a start for every group of its members. -/
theorem meeting_start {members : List Signer} {ids : Finset String} (hnodup : members.Nodup)
    (hids : ∀ id ∈ ids, ∃ s ∈ members, s.nodeId = id) :
    Network.Start ids [genesisCheckpoint] (meeting members) := by
  refine ⟨fun id hid => ?_, fun id hid => ?_, fun id hid => ?_, by simp, fun id hid => ?_,
    fun id hid => ?_, fun _ => rfl⟩ <;>
    obtain ⟨s, hs, rfl⟩ := hids id hid <;> rw [meeting_nodes hs] <;>
    obtain ⟨peers, seen, heq, -⟩ := ready_eq s (members.erase s) s.time 1
      (2 + (members.erase s).length) 0.0
  · exact ready_reachable _ _ _ fun h => (hnodup.mem_erase_iff.mp h).1 rfl
  · rw [heq]
    rfl
  · exact ready_refines ..
  · rw [heq]
    rfl
  · rw [heq]
    rfl

/-! ## Proposals on genesis -/

/-- The proposal of a node for the first claim. -/
def offer (s : Signer) (time : String) (view : Int64) : CheckpointProposal where
  epoch := view
  height := 1
  prevHash := digestText genesisBlockDigest
  sealedBy := s.nodeId
  claims := [firstClaim.signed]
  createdAt := time

/-- The block for a node's proposal with the node's own signature. -/
def sealedBlock (v : Vote) (time : String) (view : Int64) : Checkpoint :=
  ⟨offer v.signer time view, [v.signed], 1⟩

/-- The share that a vote is published as. -/
def Vote.share (v : Vote) (view : Int64) : SignatureShare where
  proposalHash := digestText v.digest
  height := 1
  epoch := view
  nodeId := v.signed.nodeId
  publicKeyHex := v.signed.publicKeyHex
  signatureHex := v.signed.signatureHex

/-- A node on genesis with the first claim to propose. -/
structure Waiting (s : Signer) (n : Node) : Prop where
  refines : Refines n.store [genesisCheckpoint]
  nodeId_eq : n.nodeId = s.nodeId
  key_eq : n.publicKeyHex = hex s.key
  seed_eq : n.privateKey = s.seed
  config_eq : n.config = config
  committed : n.committedClaimIds = ∅
  unsigned : n.signatures = ∅
  idle : n.proposals = ∅
  claims_eq : n.eligibleClaims = [firstClaim.signed]

/-- A node that is ready waits. -/
theorem ready_waiting (s : Signer) (others : List Signer) (time : String) (view : Int64)
    (reads : ℕ) (last : Float) : Waiting s (ready s others time view reads last) := by
  have href := ready_refines s others time view reads last
  obtain ⟨peers, seen, heq, -⟩ := ready_eq s others time view reads last
  rw [heq] at href ⊢
  exact ⟨href, rfl, rfl, rfl, rfl, rfl, rfl, rfl, rfl⟩

/-- A node that waits in the first view and has signed nothing. -/
structure Poised (s : Signer) (n : Node) : Prop extends Waiting s n where
  view_eq : n.view = 1
  time_eq : ∀ k, n.ambient.utcNow k = s.time
  unvoted : n.signed = ∅
  silent : n.outgoing = []
  unqueued : n.pendingCommits = ∅
  unrejected : n.recentCommitRejects = []

/-- So is every member of a meeting. -/
theorem meeting_poised {members : List Signer} {s : Signer} (hs : s ∈ members) :
    Poised s ((meeting members).nodes s.nodeId) := by
  rw [meeting_nodes hs]
  refine ⟨ready_waiting .., ?_, ?_, ?_, ?_, ?_, ?_⟩ <;>
    obtain ⟨peers, seen, heq, -⟩ := ready_eq s (members.erase s) s.time 1
      (2 + (members.erase s).length) 0.0
  · rw [heq]
  · intro k
    rw [heq]
    rfl
  · rw [heq]
    rfl
  · rw [heq]
    rfl
  · rw [heq]
    rfl
  · rw [heq]
    rfl

/-- What the sample has on a proposal that one of its nodes makes on genesis. -/
structure Seals (v : Vote) (time : String) (view : Int64) : Prop where
  listed : v ∈ votes
  hash : (offer v.signer time view).proposalHash = digestText v.digest
  view_pos : 0 < view.toInt
  later : time ≠ genesisTimestamp

/-- The first proposal is one that `b` makes in the first view. -/
theorem first_seals : Seals firstVote "t1" 1 :=
  ⟨by simp [votes], first_proposalHash, by decide, by decide⟩

/-- The rival proposal is one that `a` makes in the second view. -/
theorem rival_seals : Seals rivalVote "t2" 2 :=
  ⟨by simp [votes], rival_proposalHash, by decide, by decide⟩

section Seals

variable {v : Vote} {s : Signer} {time : String} {view : Int64} {n : Node}

/-- Its head is genesis. -/
theorem Waiting.head_eq (h : Waiting s n) :
    n.store.head = some (readBack genesisCheckpoint) := h.refines.head

/-- A waiting node would propose the first claim, at its time and in its view. -/
theorem Waiting.nextProposal_eq (h : Waiting s n) :
    n.nextProposal (readBack genesisCheckpoint) =
      offer s (n.ambient.utcNow n.reads) n.view := by
  have hheight : Int64.ofInt ((readBack genesisCheckpoint).height + 1) = 1 := by
    rw [readBack_height]
    rfl
  have hhash : (readBack genesisCheckpoint).blockHash = digestText genesisBlockDigest :=
    (readBack_blockHash _).trans genesis_blockHash
  rw [Node.nextProposal, hheight, hhash, h.claims_eq, h.nodeId_eq, offer]

/-- The node's share is the vote of the sample. -/
theorem Waiting.signatureShare_eq (h : Waiting v.signer n) (hv : v ∈ votes)
    {p : CheckpointProposal} (hhash : p.proposalHash = digestText v.digest)
    (hheight : p.height = 1) : n.signatureShare p = v.share p.epoch := by
  unfold Node.signatureShare
  rw [hhash, hheight, h.nodeId_eq, h.key_eq, h.seed_eq, Vote.sign_eq hv]
  rfl

/-- The shares that a node has for the proposal which it takes in. -/
theorem Waiting.shares_eq (h : Waiting v.signer n) (hv : v ∈ votes) {p : CheckpointProposal}
    (hhash : p.proposalHash = digestText v.digest) (hheight : p.height = 1) :
    sharesWithOwn n p =
      (∅ : HashMap SignatureShare).insert v.signer.nodeId (v.share p.epoch) := by
  rw [sharesWithOwn, h.unsigned, Std.ExtTreeMap.getD_empty, h.nodeId_eq,
    h.signatureShare_eq hv hhash hheight]

/-- The block with the sealer's signature follows genesis. -/
theorem Seals.follows (h : Seals v time view) :
    Follows tolerance [genesisCheckpoint] (sealedBlock v time view) :=
  follows_genesis rfl rfl h.view_pos rfl h.later (signed_of_vote h.listed h.hash)

/-- The proposal passes on every ledger with genesis alone. -/
theorem Seals.validateProposal_ok (h : Seals v time view) {st : ChainStore}
    (href : Refines st [genesisCheckpoint]) :
    ∃ seen, validateProposal (offer v.signer time view) st ∅ tolerance false = .ok seen := by
  rcases h.follows.passes with hg | ⟨-, hp, -⟩
  · exact absurd (congrArg CheckpointProposal.createdAt ((isCanonicalGenesis_iff _).mp hg)) h.later
  · exact ⟨_, (href.validateProposal_ok_iff _ _ _ _).mpr ⟨hp, rfl⟩⟩

/-- The sealer of the view takes its proposal in and looks for a quorum. -/
theorem Seals.proposes (h : Seals v time view) (hn : Waiting v.signer n) (hview : n.view = view)
    (htime : n.ambient.utcNow n.reads = time) (hsealer : n.sealerForView view = n.nodeId) :
    Offers n (offer v.signer time view) ∧ n.proposeInternal =
      (proposed n (offer v.signer time view)).maybeCommit (offer v.signer time view) := by
  have hnext := hn.nextProposal_eq
  rw [hview, htime] at hnext
  obtain ⟨seen, hval⟩ := h.validateProposal_ok hn.refines
  have hfree : n.outstandingAt ((readBack genesisCheckpoint).height + 1) = false := by
    rw [Node.outstandingAt, hn.idle]
    rfl
  have hval' : validateProposal (n.nextProposal (readBack genesisCheckpoint)) n.store ∅
      n.config.flopsTolerance false = .ok seen := by
    rw [hnext, hn.config_eq]
    exact hval
  have hpropose := proposeInternal_of_valid (hview ▸ hsealer) hn.head_eq hfree
    (by rw [hn.claims_eq]; simp) hval'
  rw [hnext] at hpropose hval'
  exact ⟨⟨hview ▸ hsealer, ⟨_, hn.head_eq, hfree, hnext.symm⟩, seen, hval'⟩, hpropose⟩

/-- The block that the sealer's own share makes. -/
theorem Seals.assembleCheckpoint_eq (h : Seals v time view) (hn : Waiting v.signer n)
    (hquorum : n.quorumSize = 1) :
    (proposed n (offer v.signer time view)).assembleCheckpoint (offer v.signer time view) =
      sealedBlock v time view := by
  unfold Node.assembleCheckpoint
  rw [shares_proposed, hn.shares_eq h.listed h.hash rfl, quorumSize_proposed, hquorum]
  rfl

/-- The sealer of the view commits its proposal at once, if its share is a quorum. -/
theorem Seals.propose (h : Seals v time view) (hn : Waiting v.signer n)
    (hquorum : n.quorumSize = 1) (hview : n.view = view)
    (htime : n.ambient.utcNow n.reads = time) (hsealer : n.sealerForView view = n.nodeId) :
    ∃ st, Refines st [genesisCheckpoint, sealedBlock v time view] ∧
      n.proposeInternal = ({ proposed n (offer v.signer time view) with
        store := st } : Node).announceCommit (sealedBlock v time view) := by
  have hcore := (core_proposed n (offer v.signer time view)).trans (core_adopt _ _)
  have hassembled := h.assembleCheckpoint_eq hn hquorum
  have hsize : (proposed n (offer v.signer time view)).quorumSize ≤
      ((proposed n (offer v.signer time view)).signatures.getD
        (offer v.signer time view).proposalHash ∅).size := by
    rw [quorumSize_proposed, hquorum, shares_proposed, hn.shares_eq h.listed h.hash rfl]
    rfl
  rw [(h.proposes hn hview htime hsealer).2]
  generalize proposed n (offer v.signer time view) = m at *
  have hstore : m.store = n.store := congrArg Core.store hcore
  have hconfig : m.config = config := (congrArg Core.config hcore).trans hn.config_eq
  have hcommitted : m.committedClaimIds = ∅ :=
    (congrArg Core.committedClaimIds hcore).trans hn.committed
  refine maybeCommit_of_follows (hstore ▸ hn.refines) hassembled hsize (hconfig ▸ h.follows) ?_
  rw [hcommitted]
  exact fun id _ => Finset.notMem_empty id

/-- What the sealer publishes then. -/
theorem Seals.propose_sends (h : Seals v time view) (hn : Waiting v.signer n)
    (hquorum : n.quorumSize = 1) (hview : n.view = view)
    (htime : n.ambient.utcNow n.reads = time) (hsealer : n.sealerForView view = n.nodeId) :
    n.proposeInternal.outgoing = n.outgoing ++
      [(Topics.signatures, .signatureShare (v.share view)),
        (Topics.proposals, .proposalMessage (offer v.signer time view)),
        (Topics.commits, .commitMessage (sealedBlock v time view))] := by
  obtain ⟨st, -, heq⟩ := h.propose hn hquorum hview htime hsealer
  have hshare := hn.signatureShare_eq h.listed h.hash rfl
  rw [heq, outgoing_announceCommit, show Node.outgoing _ = _ from outgoing_proposed n _, hshare,
    List.append_assoc]
  rfl

/-- A sealer whose own share is a quorum has then appended the block. -/
theorem Seals.propose_refines (h : Seals v time view) (hn : Waiting v.signer n)
    (hquorum : n.quorumSize = 1) (hview : n.view = view)
    (htime : n.ambient.utcNow n.reads = time) (hsealer : n.sealerForView view = n.nodeId) :
    Refines n.proposeInternal.store [genesisCheckpoint, sealedBlock v time view] := by
  obtain ⟨st, href, heq⟩ := h.propose hn hquorum hview htime hsealer
  rw [heq, store_announceCommit]
  exact href

/-- Without a quorum the sealer publishes its share and its proposal, and waits. -/
theorem Seals.propose_waits (h : Seals v time view) (hn : Waiting v.signer n)
    (hquorum : 1 < n.quorumSize) (hview : n.view = view)
    (htime : n.ambient.utcNow n.reads = time) (hsealer : n.sealerForView view = n.nodeId) :
    n.step .proposeNow = (proposed n (offer v.signer time view)).drain := by
  have hfew : ((proposed n (offer v.signer time view)).signatures.getD
      (offer v.signer time view).proposalHash ∅).size <
      (proposed n (offer v.signer time view)).quorumSize := by
    rw [quorumSize_proposed, shares_proposed, hn.shares_eq h.listed h.hash rfl]
    exact hquorum
  show n.proposeInternal.drain = _
  rw [(h.proposes hn hview htime hsealer).2, maybeCommit_of_few hfew]

/-- The others sign the sealer's proposal. -/
theorem Seals.signs (h : Seals v time view) (hn : Waiting s n) (hunsigned : n.signed = ∅)
    (hsealer : n.sealerForView view = v.signer.nodeId) :
    Signs n (offer v.signer time view) := by
  obtain ⟨seen, hval⟩ := h.validateProposal_ok hn.refines
  refine ⟨by rw [hn.idle]; rfl, hunsigned ▸ Finset.notMem_empty _, ?_, hsealer.symm, seen, ?_⟩
  · rw [hn.head_eq]
    rintro head ⟨⟩
    rw [readBack_height]
    show (0 : ℤ) < (1 : Int64).toInt
    decide
  · rw [hn.committed, hn.config_eq]
    exact hval

/-- They take the proposal in and wait. -/
theorem Seals.adopts (h : Seals v time view) (hn : Waiting s n) (hunsigned : n.signed = ∅)
    (hview : n.view = view) (hsealer : n.sealerForView view = v.signer.nodeId)
    (hother : v.signer ≠ s) :
    n.step (.receive Topics.proposals (.proposalMessage (offer v.signer time view))) =
      (adopted n (offer v.signer time view)).drain := by
  rw [step_receive_proposal, (h.signs hn hunsigned hsealer).onProposal_waits]
  rw [hview, hsealer, hn.nodeId_eq]
  exact fun h => hother (nodeId_injective h)

end Seals

/-- The share of a vote verifies. -/
theorem Vote.share_verify {v : Vote} (hv : v ∈ votes) (view : Int64) :
    (v.share view).verify = true := by
  unfold SignatureShare.verify
  simp only [Vote.share, Vote.signed, hexDecode_hex]
  exact v.verify hv

end Exodus.Sample
