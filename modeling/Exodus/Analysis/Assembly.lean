import Exodus.Analysis.Equivocation
import Exodus.Interface.Canonical
import Exodus.Interface.Network
import Exodus.Interface.SampleNodes

/-!
# Blocks for one proposal

Every node assembles the block for a proposal from the shares that it has when its quorum
is met, and the block hash covers the signatures.  Among honest nodes a signature is
determined by the signer and the proposal, and the signatures stand in the order of the
ids; so the nodes store the same block for a proposal if the shares that they count at that
moment are of the same nodes (`one_block`).
-/

set_option autoImplicit false

namespace Exodus.Analysis

open Exodus.Library Exodus.Model Exodus.Interface

variable [Crates] {ids : Finset String} {start net : Network} {base : List Checkpoint}

/-- The nodes whose signatures a block carries. -/
def signers (c : Checkpoint) : Finset String :=
  (c.signatures.map QuorumSignature.nodeId).toFinset

/-- What is delivered: no sync response, and no share or commit that no node has published. -/
structure Forwards (ids : Finset String) (net : Network) (op : Node.Op) : Prop where
  no_sync : ∀ resp, op ≠ .syncResponse resp
  share : ∀ share, op = .receive Topics.signatures (.signatureShare share) →
    ∃ j ∈ ids, (Topics.signatures, Message.signatureShare share) ∈ net.sent j
  commit : ∀ c, op = .receive Topics.commits (.commitMessage c) →
    ∃ j ∈ ids, (Topics.commits, Message.commitMessage c) ∈ net.sent j

/-- If the operation completes a quorum for the proposal `P`, the shares are those of `S`. -/
def Completes (P : CheckpointProposal) (S : Finset String) (n : Node) (op : Node.Op) : Prop :=
  ∀ who q, Counts n op P who q → q ≤ who.card → who = S

/-! ## Honest signatures -/

/-- The signature of a node over a proposal hash. -/
def ownSignature (n : Node) (hash : String) : QuorumSignature where
  nodeId := n.nodeId
  publicKeyHex := n.publicKeyHex
  signatureHex := hex (sign (asBytes hash) n.privateKey)

/-- The signature that a share becomes in a block. -/
def quorumSignature (s : SignatureShare) : QuorumSignature where
  nodeId := s.nodeId
  publicKeyHex := s.publicKeyHex
  signatureHex := s.signatureHex

/-- The signatures of a block are the signers' own, in the order of the ids. -/
structure WellSigned (start : Network) (c : Checkpoint) : Prop where
  sorted : (c.signatures.map QuorumSignature.nodeId).Pairwise (· < ·)
  own : ∀ sig ∈ c.signatures,
    sig = ownSignature (start.nodes sig.nodeId) c.proposal.proposalHash

/-- The evidence of honest nodes: the shares and signatures are the signers' own, and a block
for `P` is signed by `S`. -/
def honest (start : Network) (P : CheckpointProposal) (S : Finset String) : Evidence where
  share hash id s := s.nodeId = id ∧ quorumSignature s = ownSignature (start.nodes id) hash
  queued c := WellSigned start c ∧ (c.proposal = P → signers c = S)
  block c := WellSigned start c ∧ (c.proposal = P → signers c = S)

/-- The signatures are determined by the signers. -/
theorem WellSigned.signatures_eq {c d : Checkpoint} (hc : WellSigned start c)
    (hd : WellSigned start d) (hp : c.proposal = d.proposal) (h : signers c = signers d) :
    c.signatures = d.signatures := by
  have hmap {c : Checkpoint} (hc : WellSigned start c) :
      c.signatures = (c.signatures.map QuorumSignature.nodeId).map fun id =>
        ownSignature (start.nodes id) c.proposal.proposalHash := by
    rw [List.map_map]
    exact (List.map_id' _).symm.trans (List.map_congr_left hc.own)
  have hnodup {c : Checkpoint} (hc : WellSigned start c) :
      (c.signatures.map QuorumSignature.nodeId).Nodup := hc.sorted.imp ne_of_lt
  have hperm := (List.perm_ext_iff_of_nodup (hnodup hc) (hnodup hd)).mpr fun id => by
    rw [← List.mem_toFinset, ← List.mem_toFinset]
    exact Finset.ext_iff.mp h id
  have hnames : c.signatures.map QuorumSignature.nodeId = d.signatures.map QuorumSignature.nodeId :=
    hperm.eq_of_pairwise (fun _ _ _ _ hab hba => absurd hba hab.asymm) hc.sorted hd.sorted
  rw [hmap hc, hmap hd, hnames, hp]

section Assembling

variable {P : CheckpointProposal} {S : Finset String} {I : Inputs} {m : Node} {c : Checkpoint}

/-- The signers of an assembled block are the nodes whose shares it is made of. -/
theorem signers_assembleCheckpoint {p : CheckpointProposal}
    (h : ∀ nodeId s, shareAt m p.proposalHash nodeId = some s → s.nodeId = nodeId) :
    signers (m.assembleCheckpoint p) = shareIds m p.proposalHash := by
  ext id
  rw [signers, List.mem_toFinset, List.mem_map, shareIds, List.mem_toFinset,
    Std.ExtTreeMap.mem_keys, Std.ExtTreeMap.mem_iff_isSome_getElem?, Option.isSome_iff_exists]
  constructor
  · rintro ⟨sig, hsig, rfl⟩
    obtain ⟨nodeId, s, hs, rfl⟩ := mem_assembled hsig
    exact ⟨s, (h nodeId s hs).symm ▸ hs⟩
  · rintro ⟨s, hs⟩
    refine ⟨quorumSignature s, List.mem_map.mpr ⟨s, ?_, rfl⟩, h id s hs⟩
    exact (List.perm_insertionSort _ _).mem_iff.mpr (mem_values_iff.mpr ⟨id, hs⟩)

/-- A block that is assembled from own shares is well signed, and by `S` if it is for `P`. -/
theorem honest_of_assembled (h : Holds (honest start P S) base m) (hc : Assembled I m c)
    (hI : ∀ who q, I.counts P who q → q ≤ who.card → who = S) :
    (honest start P S).block c := by
  obtain ⟨p, -, rfl, hsize, hcounts⟩ := hc
  have hentry (nodeId : String) (s : SignatureShare)
      (hs : shareAt m p.proposalHash nodeId = some s) :
      s.nodeId = nodeId ∧ quorumSignature s = ownSignature (start.nodes nodeId) p.proposalHash :=
    h.shares p.proposalHash nodeId s hs
  have hname (nodeId : String) (s : SignatureShare)
      (hs : shareAt m p.proposalHash nodeId = some s) : s.nodeId = nodeId := (hentry nodeId s hs).1
  refine ⟨⟨assembled_signers_sorted hname, fun sig hsig => ?_⟩, ?_⟩
  · obtain ⟨nodeId, s, hs, rfl⟩ := mem_assembled hsig
    obtain ⟨hid, hown⟩ := hentry nodeId s hs
    show quorumSignature s = ownSignature (start.nodes s.nodeId) p.proposalHash
    rw [hid, hown]
  · rintro rfl
    rw [signers_assembleCheckpoint hname]
    exact hI _ _ hcounts (hsize.trans_eq (card_shareIds m _).symm)

end Assembling

/-! ## Runs -/

section Runs

variable {P : CheckpointProposal} {S : Finset String}

/-- The nodes of a run have honest evidence for what they hold and for the blocks that they
published. -/
theorem run_honest (hstart : Network.Start ids base start)
    (hrun : Network.Run ids (fun net id op => Forwards ids net op ∧
      Completes P S (net.nodes id) op) start net) :
    (∀ id ∈ ids, Holds (honest start P S) base (net.nodes id)) ∧
      ∀ id ∈ ids, ∀ (topic : String) (c : Checkpoint),
        (topic, Message.commitMessage c) ∈ net.sent id → (honest start P S).block c := by
  induction hrun with
  | start =>
    refine ⟨fun id hid => hstart.holds hid, fun id _ topic c hc => ?_⟩
    rw [hstart.silent] at hc
    simp at hc
  | act hrun j hj op hop ih =>
    rename_i net
    have hsettled := hrun.settled hstart hj
    have hshare {id : String} (hid : id ∈ ids) (p : CheckpointProposal) :
        (honest start P S).share p.proposalHash id ((start.nodes id).signatureShare p) :=
      ⟨hstart.named id hid, rfl⟩
    have hin : Admits (honest start P S) base (inputs (net.nodes j) op) (net.nodes j) := by
      refine ⟨fun s hs _ => ?_, fun c hc => ?_, fun c hc _ => hc,
        fun m c _ hm hc => honest_of_assembled hm hc hop.2⟩
      · obtain ⟨id, hid, hsent⟩ := hop.1.share s hs
        obtain ⟨p, rfl⟩ := hrun.ownShare hstart hid hsent
        have hname : ((start.nodes id).signatureShare p).nodeId = id := hstart.named id hid
        rw [hname]
        exact hshare hid p
      · rcases hc with hc | ⟨resp, hresp, -⟩ | ⟨k, hk⟩
        · obtain ⟨id, hid, hsent⟩ := hop.1.commit c hc
          exact ih.2 id hid _ c hsent
        · exact absurd hresp (hop.1.no_sync resp)
        · exact (ih.1 j hj).queued k c hk
    obtain ⟨hholds, hsent⟩ := hsettled.act_holds hop.1.no_sync hstart.nonempty (fun p _ _ => by
      rw [hsettled.nodeId_eq hstart hj, signatureShare_congr hsettled.identity_eq]
      exact hshare hj p) hin (ih.1 j hj)
    refine ⟨fun id hid => ?_, fun id hid topic c hc => ?_⟩
    · by_cases heq : id = j
      · exact heq ▸ hholds
      · rw [Network.act_nodes_of_ne _ op heq]
        exact ih.1 id hid
    · rcases Network.mem_act_sent.mp hc with hc | ⟨-, hc⟩
      · exact ih.2 id hid topic c hc
      · exact hsent topic c hc

/-- **One proposal, one block.**  In every run of honest nodes in which each operation that
completes a quorum for the proposal `P` counts the shares of the same nodes `S`, the nodes that
append a block for `P` store the same block hash, and the block is signed by `S`. -/
theorem one_block [SerdeReadsBack] (hstart : Network.Start ids base start)
    (hrun : Network.Run ids (fun net id op => Forwards ids net op ∧
      Completes P S (net.nodes id) op) start net) {i j : String} (hi : i ∈ ids) (hj : j ∈ ids)
    {a b : Checkpoint} (ha : (net.nodes i).store.getBlock P.height.toInt = some a)
    (haP : a.proposal = P) (hb : (net.nodes j).store.getBlock P.height.toInt = some b)
    (hbP : b.proposal = P) :
    a.blockHash = b.blockHash ∧ (base.length ≤ P.height.toInt → signers a = S) := by
  have hholds := (run_honest hstart hrun).1
  have hsame (c : Checkpoint) : signers (readBack c) = signers c := by simp [signers]
  refine ⟨?_, fun hnew => ?_⟩
  · rcases (hholds i hi).getBlock_both (hholds j hj) ha hb with rfl | ⟨c, d, rfl, rfl, hc, hd⟩
    · rfl
    · rw [readBack_proposal] at haP hbP
      have hp : c.proposal = d.proposal := haP.trans hbP.symm
      have hsigs := hc.1.signatures_eq hd.1 hp ((hc.2 haP).trans (hd.2 hbP).symm)
      rw [readBack_blockHash, readBack_blockHash, Checkpoint.blockHash, Checkpoint.blockHash,
        Checkpoint.signaturesValue, Checkpoint.signaturesValue, hp, hsigs]
  · rcases (hholds i hi).getBlock ha with ⟨hold, -⟩ | ⟨-, c, rfl, hc⟩
    · exact absurd hold (not_lt.mpr hnew)
    · rw [readBack_proposal] at haP
      rw [hsame, hc.2 haP]

end Runs

end Exodus.Analysis

namespace Exodus.Analysis

open Exodus.Library Exodus.Model Exodus.Interface Exodus.Sample

open Signer

/-! ### Four nodes -/

/-- Four nodes that have heard of each other; their quorum is three. -/
noncomputable def quartet : Network := meeting [a, b, c, d]

/-- The votes for the first proposal. -/
def firstVotes : List Vote := [firstVoteToo, firstVote, firstVoteOfC]

/-- The share of a vote for the first proposal is delivered. -/
def deliverVote (v : Vote) : Node.Op := .receive Topics.signatures (.signatureShare (v.share 1))

/-- The first proposal is delivered. -/
def deliverFirst : Node.Op := .receive Topics.proposals (.proposalMessage firstProposal)

/-- The node `b` proposes, and `a` and `c` take the proposal in. -/
noncomputable def quartetSigned : Network :=
  ((quartet.act b.nodeId .proposeNow).act a.nodeId deliverFirst).act c.nodeId deliverFirst

/-- Then `b` and `c` get the shares that they miss. -/
noncomputable def quartetCommitted : Network :=
  (((quartetSigned.act b.nodeId (deliverVote firstVoteToo)).act b.nodeId
    (deliverVote firstVoteOfC)).act c.nodeId (deliverVote firstVote)).act c.nodeId
      (deliverVote firstVoteToo)

/-- What happens in the run: a node that has published nothing makes the first proposal or
receives it, or one of the shares that were published is delivered. -/
inductive QuartetStep (net : Network) (id : String) : Node.Op → Prop
  | proposes (hsilent : net.sent id = []) : QuartetStep net id .proposeNow
  | adopts (hsilent : net.sent id = []) : QuartetStep net id deliverFirst
  | counts {v : Vote} (hv : v ∈ firstVotes)
      (hsent : (Topics.signatures, Message.signatureShare (v.share 1)) ∈
        net.sent v.signer.nodeId) : QuartetStep net id (deliverVote v)

/-- The ids of the quartet, in their order. -/
def quartetIds : List String := [a.nodeId, b.nodeId, c.nodeId, d.nodeId]

/-- All four are in the committee of each. -/
theorem quartet_committee (s : Signer) :
    (quartet.nodes s.nodeId).committeeMembers = quartetIds :=
  (meeting_committee (by decide) (by cases s <;> decide)).trans rfl

/-- `b` seals the first view. -/
theorem quartet_sealer (s : Signer) : (quartet.nodes s.nodeId).sealerForView 1 = b.nodeId :=
  (meeting_sealer (by decide) (by cases s <;> decide) 1).trans rfl

/-- Each is ready to sign. -/
theorem quartet_poised (s : Signer) : Poised s (quartet.nodes s.nodeId) :=
  meeting_poised (by cases s <;> decide)

/-- A node with the committee of the quartet needs three signatures. -/
theorem quartet_quorum {n : Node} (hconfig : n.config = config)
    (hmembers : n.committeeMembers = quartetIds) : n.quorumSize = 3 := by
  unfold Node.quorumSize
  rw [hconfig, hmembers]
  rfl

/-- The node `b` makes the first proposal and waits for a quorum. -/
theorem b_proposes : (quartet.nodes b.nodeId).step .proposeNow =
    (proposed (quartet.nodes b.nodeId) firstProposal).drain := by
  have hb := quartet_poised b
  refine first_seals.propose_waits hb.toWaiting ?_ hb.view_eq (hb.time_eq _) ?_
  · rw [quartet_quorum hb.config_eq (quartet_committee b)]
    decide
  · exact (quartet_sealer b).trans hb.nodeId_eq.symm

/-- Another node takes the first proposal in and waits. -/
theorem adopts_first {s : Signer} (hs : b ≠ s) : (quartet.nodes s.nodeId).step deliverFirst =
    (adopted (quartet.nodes s.nodeId) firstProposal).drain :=
  first_seals.adopts (quartet_poised s).toWaiting (quartet_poised s).unvoted
    (quartet_poised s).view_eq (quartet_sealer s) hs

/-- The shares of some votes. -/
noncomputable def sharesOf (vs : List Vote) : HashMap SignatureShare :=
  vs.foldl (fun shares v => shares.insert v.signer.nodeId (v.share 1)) ∅

/-- Another vote is another share. -/
theorem sharesOf_concat (vs : List Vote) (v : Vote) :
    sharesOf (vs ++ [v]) = (sharesOf vs).insert v.signer.nodeId (v.share 1) := by
  rw [sharesOf, List.foldl_append]
  rfl

/-- They are the shares of the signers. -/
theorem keys_sharesOf (vs : List Vote) :
    (sharesOf vs).keys.toFinset = (vs.map fun v => v.signer.nodeId).toFinset := by
  induction vs using List.reverseRecOn with
  | nil => rfl
  | append_singleton vs v ih =>
    rw [sharesOf_concat, toFinset_keys_insert, ih]
    ext id
    simp

/-- A node of the quartet that has the proposal of `b` and the shares of some votes for it. -/
abbrev Counting (vs : List Vote) (n : Node) : Prop :=
  Gathers config [genesisCheckpoint] firstProposal quartetIds (sharesOf vs) n

/-- After its proposal `b` counts its own share. -/
theorem b_counting : Counting [firstVote] ((quartet.nodes b.nodeId).step .proposeNow).1 := by
  have hb := quartet_poised b
  have h := gathers_proposed (P := firstProposal) hb.refines fun id _ =>
    hb.committed ▸ Finset.notMem_empty id
  have hown := hb.shares_eq (v := firstVote) (by simp [votes]) first_proposalHash rfl
  rw [hb.config_eq, quartet_committee b, hown] at h
  rw [b_proposes]
  exact h

/-- So does `c` after it has received the proposal. -/
theorem c_counting : Counting [firstVoteOfC] ((quartet.nodes c.nodeId).step deliverFirst).1 := by
  have hc := quartet_poised c
  have h := gathers_adopted (P := firstProposal) hc.refines fun id _ =>
    hc.committed ▸ Finset.notMem_empty id
  have hown := hc.shares_eq (v := firstVoteOfC) (by simp [votes]) first_proposalHash rfl
  rw [hc.config_eq, quartet_committee c, hown] at h
  rw [adopts_first (by decide)]
  exact h

section Counting

variable {v : Vote} {vs : List Vote} {n : Node}

/-- The votes are of the sample and for the first proposal. -/
theorem firstVotes_hash (hv : v ∈ firstVotes) :
    v ∈ votes ∧ (v.share 1).proposalHash = firstProposal.proposalHash := by
  rw [first_proposalHash]
  simp only [firstVotes, List.mem_cons, List.not_mem_nil, or_false] at hv
  rcases hv with rfl | rfl | rfl <;> exact ⟨by simp [votes], rfl⟩

/-- A share that does not complete the quorum is filed. -/
theorem Counting.files (h : Counting vs n) (hv : v ∈ firstVotes)
    (hfew : (sharesOf (vs ++ [v])).size < 3) : Counting (vs ++ [v]) (n.step (deliverVote v)).1 := by
  obtain ⟨hlisted, hhash⟩ := firstVotes_hash hv
  rw [sharesOf_concat] at hfew
  rw [Counting, sharesOf_concat]
  refine Gathers.gathers_on h (v.share_verify hlisted 1) hhash ?_
  rw [quartet_quorum h.config_eq h.members_eq]
  exact hfew

/-- With the last share the node appends the block with the three signatures. -/
theorem Counting.appends (h : Counting vs n) (hv : v ∈ firstVotes)
    (henough : 3 ≤ (sharesOf (vs ++ [v])).size)
    (hblock : blockOf firstProposal (sharesOf (vs ++ [v])) 3 = firstBlockThree) :
    Refines (n.step (deliverVote v)).1.store [genesisCheckpoint, firstBlockThree] := by
  obtain ⟨hlisted, hhash⟩ := firstVotes_hash hv
  have hquorum := quartet_quorum h.config_eq h.members_eq
  have hname : (v.share 1).nodeId = v.signer.nodeId := rfl
  rw [sharesOf_concat] at henough hblock
  have hcommits := Gathers.commits h (v.share_verify hlisted 1) hhash (hquorum ▸ henough)
  rw [hquorum, hname, hblock] at hcommits
  exact hcommits firstThree_follows

/-- Which shares a node with some shares counts when one more is delivered. -/
theorem Counting.completes (h : Counting vs n) (hv : v ∈ firstVotes) {S : Finset String}
    (hall : 3 ≤ (insert v.signer.nodeId (vs.map fun v => v.signer.nodeId).toFinset).card →
      insert v.signer.nodeId (vs.map fun v => v.signer.nodeId).toFinset = S) :
    Completes firstProposal S n (deliverVote v) := by
  have hids : shareIds n (v.share 1).proposalHash =
      (vs.map fun v => v.signer.nodeId).toFinset := by
    rw [(firstVotes_hash hv).2, shareIds, h.shares_eq, keys_sharesOf]
  have hquorum := quartet_quorum h.config_eq h.members_eq
  intro who q hcounts
  generalize hop : deliverVote v = op at hcounts
  cases hcounts with
  | share _ _ =>
    obtain rfl : v.share 1 = _ := by simpa [deliverVote] using hop
    rw [hids, hquorum]
    exact hall
  | proposal _ => simp [deliverVote] at hop
  | own _ => simp [deliverVote] at hop
  | takeover _ _ => simp [deliverVote] at hop

/-- A node that has no shares yet does not complete a quorum with its own. -/
theorem completes_of_poised {s : Signer} (h : Poised s n) (hmembers : n.committeeMembers = quartetIds)
    {op : Node.Op} (hop : op = .proposeNow ∨ op = deliverFirst) (S : Finset String) :
    Completes firstProposal S n op := by
  have hids (hash : String) : shareIds n hash = ∅ := by
    rw [shareIds, h.unsigned, Std.ExtTreeMap.getD_empty]
    rfl
  have hquorum := quartet_quorum h.config_eq hmembers
  intro who q hcounts hle
  cases hcounts with
  | share _ _ => simp [deliverFirst] at hop
  | proposal _ => simp [hids, hquorum] at hle
  | own _ => simp [hids, hquorum] at hle
  | takeover _ _ => simp [deliverFirst] at hop

end Counting

/-- `b` counts the share of `a`, which is not enough. -/
theorem b_counting_two : Counting [firstVote, firstVoteToo]
    (((quartet.nodes b.nodeId).step .proposeNow).1.step (deliverVote firstVoteToo)).1 :=
  b_counting.files (v := firstVoteToo) (by simp [firstVotes]) (by decide)

/-- `c` counts that of `b`, which is not enough either. -/
theorem c_counting_two : Counting [firstVoteOfC, firstVote]
    (((quartet.nodes c.nodeId).step deliverFirst).1.step (deliverVote firstVote)).1 :=
  c_counting.files (v := firstVote) (by simp [firstVotes]) (by decide)

/-- With the share of `c`, `b` has three and appends the block. -/
theorem b_appends : Refines ((((quartet.nodes b.nodeId).step .proposeNow).1.step
    (deliverVote firstVoteToo)).1.step (deliverVote firstVoteOfC)).1.store
      [genesisCheckpoint, firstBlockThree] :=
  b_counting_two.appends (v := firstVoteOfC) (by simp [firstVotes]) (by decide) rfl

/-- With the share of `a`, `c` has the same three and appends the same block. -/
theorem c_appends : Refines ((((quartet.nodes c.nodeId).step deliverFirst).1.step
    (deliverVote firstVote)).1.step (deliverVote firstVoteToo)).1.store
      [genesisCheckpoint, firstBlockThree] :=
  c_counting_two.appends (v := firstVoteToo) (by simp [firstVotes]) (by decide) rfl


/-- Different signers have different ids. -/
theorem nodeId_ne {s t : Signer} (h : s ≠ t) : s.nodeId ≠ t.nodeId :=
  fun heq => h (nodeId_injective heq)

/-- What `b` is like when all three have signed. -/
theorem quartetSigned_b : quartetSigned.nodes b.nodeId =
    ((quartet.nodes b.nodeId).step .proposeNow).1 := by
  unfold quartetSigned
  rw [Network.act_nodes_of_ne _ _ (nodeId_ne (by decide)),
    Network.act_nodes_of_ne _ _ (nodeId_ne (by decide)), Network.act_nodes_self]

/-- What `c` is like then. -/
theorem quartetSigned_c : quartetSigned.nodes c.nodeId =
    ((quartet.nodes c.nodeId).step deliverFirst).1 := by
  unfold quartetSigned
  rw [Network.act_nodes_self, Network.act_nodes_of_ne _ _ (nodeId_ne (by decide)),
    Network.act_nodes_of_ne _ _ (nodeId_ne (by decide))]

/-- The three nodes have published their shares. -/
theorem quartetSigned_sent {v : Vote} (hv : v ∈ firstVotes) :
    (Topics.signatures, Message.signatureShare (v.share 1)) ∈
      quartetSigned.sent v.signer.nodeId := by
  have hadopts {s : Signer} (hs : b ≠ s) {v : Vote} (hlisted : v ∈ votes)
      (hdigest : v.digest = firstDigest) (hsigner : v.signer = s) :
      (Topics.signatures, Message.signatureShare (v.share 1)) ∈
        ((quartet.nodes s.nodeId).step deliverFirst).2.1 := by
    subst hsigner
    have hown := (quartet_poised v.signer).signatureShare_eq hlisted
      (hdigest ▸ first_proposalHash) rfl
    rw [adopts_first hs]
    show _ ∈ ((quartet.nodes v.signer.nodeId).adoptProposal firstProposal
      |>.addOwnSignature firstProposal).outgoing
    rw [outgoing_adopt, hown]
    exact List.mem_append_right _ (List.mem_singleton_self _)
  simp only [firstVotes, List.mem_cons, List.not_mem_nil, or_false] at hv
  rcases hv with rfl | rfl | rfl
  · refine Network.sent_subset_act _ _ _ _ (Network.mem_act_sent.mpr (.inr ⟨rfl, ?_⟩))
    rw [Network.act_nodes_of_ne _ _ (nodeId_ne (by decide))]
    exact hadopts (by decide) (by simp [votes]) rfl rfl
  · refine Network.sent_subset_act _ _ _ _ (Network.sent_subset_act _ _ _ _
      (Network.mem_act_sent.mpr (.inr ⟨rfl, ?_⟩)))
    have hown := (quartet_poised b).signatureShare_eq (v := firstVote) (by simp [votes])
      first_proposalHash rfl
    rw [b_proposes]
    show _ ∈ (proposed (quartet.nodes b.nodeId) firstProposal).outgoing
    rw [outgoing_proposed, hown]
    simp [firstVote, firstProposal]
  · refine Network.mem_act_sent.mpr (.inr ⟨rfl, ?_⟩)
    rw [Network.act_nodes_of_ne _ _ (nodeId_ne (by decide)),
      Network.act_nodes_of_ne _ _ (nodeId_ne (by decide))]
    exact hadopts (by decide) (by simp [votes]) rfl rfl

/-- The nodes that act in the run. -/
def trio : Finset String := {a.nodeId, b.nodeId, c.nodeId}

/-- What is known of every operation of the run. -/
structure InQuartet (net : Network) (id : String) (op : Node.Op) : Prop where
  step : QuartetStep net id op
  members_eq : (net.nodes id).committeeMembers = quartetIds
  completes : Completes firstProposal trio (net.nodes id) op

/-- Up to there the run is one of the quartet. -/
theorem quartetSigned_run : Network.Run trio InQuartet quartet quartetSigned := by
  have hpoised {net : Network} {s : Signer} {op : Node.Op}
      (hnode : net.nodes s.nodeId = quartet.nodes s.nodeId)
      (hop : op = .proposeNow ∨ op = deliverFirst) (hstep : QuartetStep net s.nodeId op) :
      InQuartet net s.nodeId op :=
    ⟨hstep, hnode ▸ quartet_committee s,
      hnode ▸ completes_of_poised (quartet_poised s) (quartet_committee s) hop trio⟩
  refine .act (.act (.act .start _ (by decide) _ (hpoised rfl (.inl rfl) (.proposes rfl)))
    _ (by decide) _ (hpoised ?_ (.inr rfl) (.adopts ?_))) _ (by decide) _
      (hpoised ?_ (.inr rfl) (.adopts ?_))
  · rw [Network.act_nodes_of_ne _ _ (nodeId_ne (by decide))]
  · rw [Network.act_sent_of_ne _ _ (nodeId_ne (by decide))]
    rfl
  · rw [Network.act_nodes_of_ne _ _ (nodeId_ne (by decide)),
      Network.act_nodes_of_ne _ _ (nodeId_ne (by decide))]
  · rw [Network.act_sent_of_ne _ _ (nodeId_ne (by decide)),
      Network.act_sent_of_ne _ _ (nodeId_ne (by decide))]
    rfl

/-- A node that counts gets one more of the published shares. -/
theorem Counting.inQuartet {net : Network} {id : String} {vs : List Vote} {v : Vote}
    (h : Counting vs (net.nodes id)) (hv : v ∈ firstVotes)
    (hsent : (Topics.signatures, Message.signatureShare (v.share 1)) ∈ net.sent v.signer.nodeId)
    (hall : 3 ≤ (insert v.signer.nodeId (vs.map fun v => v.signer.nodeId).toFinset).card →
      insert v.signer.nodeId (vs.map fun v => v.signer.nodeId).toFinset = trio) :
    InQuartet net id (deliverVote v) :=
  ⟨.counts hv hsent, h.members_eq, h.completes hv hall⟩

/-- So is the whole run. -/
theorem quartet_run : Network.Run trio InQuartet quartet quartetCommitted := by
  have hb : Counting [firstVote] (quartetSigned.nodes b.nodeId) := quartetSigned_b ▸ b_counting
  have hb' : Counting [firstVote, firstVoteToo]
      ((quartetSigned.act b.nodeId (deliverVote firstVoteToo)).nodes b.nodeId) := by
    rw [Network.act_nodes_self, quartetSigned_b]
    exact b_counting_two
  have hc : Counting [firstVoteOfC] (((quartetSigned.act b.nodeId
      (deliverVote firstVoteToo)).act b.nodeId (deliverVote firstVoteOfC)).nodes c.nodeId) := by
    rw [Network.act_nodes_of_ne _ _ (nodeId_ne (by decide)),
      Network.act_nodes_of_ne _ _ (nodeId_ne (by decide)), quartetSigned_c]
    exact c_counting
  have hc' : Counting [firstVoteOfC, firstVote] ((((quartetSigned.act b.nodeId
      (deliverVote firstVoteToo)).act b.nodeId (deliverVote firstVoteOfC)).act c.nodeId
      (deliverVote firstVote)).nodes c.nodeId) := by
    rw [Network.act_nodes_self, Network.act_nodes_of_ne _ _ (nodeId_ne (by decide)),
      Network.act_nodes_of_ne _ _ (nodeId_ne (by decide)), quartetSigned_c]
    exact c_counting_two
  have hlisted {v : Vote} (hv : v ∈ firstVotes) := quartetSigned_sent hv
  refine .act (.act (.act (.act quartetSigned_run _ (by decide) _
    (hb.inQuartet (by simp [firstVotes]) (hlisted (by simp [firstVotes])) (by decide)))
    _ (by decide) _ (hb'.inQuartet (by simp [firstVotes]) ?_ (by decide)))
    _ (by decide) _ (hc.inQuartet (by simp [firstVotes]) ?_ (by decide)))
    _ (by decide) _ (hc'.inQuartet (by simp [firstVotes]) ?_ (by decide))
  · exact Network.sent_subset_act _ _ _ _ (hlisted (by simp [firstVotes]))
  · exact Network.sent_subset_act _ _ _ _ (Network.sent_subset_act _ _ _ _
      (hlisted (by simp [firstVotes])))
  · exact Network.sent_subset_act _ _ _ _ (Network.sent_subset_act _ _ _ _
      (Network.sent_subset_act _ _ _ _ (hlisted (by simp [firstVotes]))))

/-- `b` stores the block with three signatures. -/
theorem quartetCommitted_b : Refines (quartetCommitted.nodes b.nodeId).store
    [genesisCheckpoint, firstBlockThree] := by
  unfold quartetCommitted
  rw [Network.act_nodes_of_ne _ _ (nodeId_ne (by decide)),
    Network.act_nodes_of_ne _ _ (nodeId_ne (by decide)), Network.act_nodes_self,
    Network.act_nodes_self, quartetSigned_b]
  exact b_appends

/-- So does `c`. -/
theorem quartetCommitted_c : Refines (quartetCommitted.nodes c.nodeId).store
    [genesisCheckpoint, firstBlockThree] := by
  unfold quartetCommitted
  rw [Network.act_nodes_self, Network.act_nodes_self,
    Network.act_nodes_of_ne _ _ (nodeId_ne (by decide)),
    Network.act_nodes_of_ne _ _ (nodeId_ne (by decide)), quartetSigned_c]
  exact c_appends

/-- The run starts on genesis, with nothing in flight. -/
theorem quartet_start : Network.Start trio [genesisCheckpoint] quartet := by
  refine meeting_start (by decide) fun id hid => ?_
  simp only [trio, Finset.mem_insert, Finset.mem_singleton] at hid
  rcases hid with rfl | rfl | rfl
  · exact ⟨a, by decide, rfl⟩
  · exact ⟨b, by decide, rfl⟩
  · exact ⟨c, by decide, rfl⟩

/-- The run only forwards shares that were published. -/
theorem InQuartet.forwards {net : Network} {id : String} {op : Node.Op}
    (h : InQuartet net id op) : Forwards trio net op := by
  cases h.step with
  | proposes => exact ⟨by simp, by simp, by simp⟩
  | adopts => exact ⟨by simp [deliverFirst], by simp [deliverFirst], by simp [deliverFirst]⟩
  | counts hv hsent =>
    rename_i v
    refine ⟨by simp [deliverVote], fun share hop => ?_, by simp [deliverVote]⟩
    obtain rfl : v.share 1 = share := by simpa [deliverVote] using hop
    refine ⟨_, ?_, hsent⟩
    simp only [firstVotes, List.mem_cons, List.not_mem_nil, or_false] at hv
    rcases hv with rfl | rfl | rfl <;> decide

/-- Two nodes of four get the shares in different orders and store one block. -/
theorem quartet_one_block :
    ∃ x y : Checkpoint, (quartetCommitted.nodes b.nodeId).store.getBlock 1 = some x ∧
      (quartetCommitted.nodes c.nodeId).store.getBlock 1 = some y ∧
      x.blockHash = y.blockHash ∧ signers x = {a.nodeId, b.nodeId, c.nodeId} := by
  have hx := quartetCommitted_b.getBlock 1
  have hy := quartetCommitted_c.getBlock 1
  obtain ⟨hhash, hsigners⟩ := one_block (P := firstProposal) (S := trio) quartet_start
    (quartet_run.imp fun _ _ _ h => ⟨h.forwards, h.completes⟩) (by decide : b.nodeId ∈ trio)
    (by decide : c.nodeId ∈ trio) hx (readBack_proposal _) hy (readBack_proposal _)
  exact ⟨_, _, hx, hy, hhash, hsigners (by decide)⟩

/-! ### Two nodes -/

/-- Two nodes that have heard of each other; their quorum is one. -/
noncomputable def pair : Network := meeting [a, b]

/-- The node `b` proposes and commits; the node `a` receives the proposal, then the share. -/
noncomputable def sharedRun : Network :=
  ((pair.act b.nodeId .proposeNow).act a.nodeId deliverFirst).act a.nodeId (deliverVote firstVote)

/-- Each of the two is ready to sign. -/
theorem pair_poised {s : Signer} (hs : s ∈ [a, b]) : Poised s (pair.nodes s.nodeId) :=
  meeting_poised hs

/-- Both are in the committee of each. -/
theorem pair_committee {s : Signer} (hs : s ∈ [a, b]) :
    (pair.nodes s.nodeId).committeeMembers = [a.nodeId, b.nodeId] :=
  (meeting_committee (by decide) hs).trans rfl

/-- `b` seals the first view. -/
theorem pair_sealer {s : Signer} (hs : s ∈ [a, b]) :
    (pair.nodes s.nodeId).sealerForView 1 = b.nodeId := by
  rw [pair, meeting_sealer (by decide) hs 1]
  rfl

/-- One share is a quorum of two. -/
theorem pair_quorum {n : Node} (hconfig : n.config = config)
    (hmembers : n.committeeMembers = [a.nodeId, b.nodeId]) : n.quorumSize = 1 := by
  unfold Node.quorumSize
  rw [hconfig, hmembers]
  rfl

/-- The two are `a` and `b`. -/
theorem mem_pair {id : String} (hid : id ∈ ({a.nodeId, b.nodeId} : Finset String)) :
    ∃ s ∈ [a, b], s.nodeId = id := by
  simp only [Finset.mem_insert, Finset.mem_singleton] at hid
  rcases hid with rfl | rfl
  · exact ⟨a, by decide, rfl⟩
  · exact ⟨b, by decide, rfl⟩

/-- They start on genesis, with nothing in flight. -/
theorem pair_start : Network.Start {a.nodeId, b.nodeId} [genesisCheckpoint] pair :=
  meeting_start (by decide) fun _ => mem_pair

/-- What the node `b` publishes. -/
theorem b_publishes : ((pair.nodes b.nodeId).step .proposeNow).2.1 =
    [(Topics.signatures, .signatureShare (firstVote.share 1)),
      (Topics.proposals, .proposalMessage firstProposal),
      (Topics.commits, .commitMessage firstBlock)] := by
  have hb : Poised b _ := pair_poised (by decide)
  have hsends := first_seals.propose_sends hb.toWaiting
    (pair_quorum hb.config_eq (pair_committee (by decide))) hb.view_eq (hb.time_eq _)
    ((pair_sealer (by decide)).trans hb.nodeId_eq.symm)
  rw [hb.silent] at hsends
  exact hsends

/-- `b` commits its proposal with its own share. -/
theorem b_commits : Refines ((pair.nodes b.nodeId).step .proposeNow).1.store
    [genesisCheckpoint, firstBlock] := by
  have hb : Poised b _ := pair_poised (by decide)
  exact first_seals.propose_refines hb.toWaiting
    (pair_quorum hb.config_eq (pair_committee (by decide))) hb.view_eq (hb.time_eq _)
    ((pair_sealer (by decide)).trans hb.nodeId_eq.symm)

/-- The node `a` takes the proposal in. -/
theorem a_gathers : Gathers config [genesisCheckpoint] firstProposal [a.nodeId, b.nodeId]
    (sharesOf [firstVoteToo]) ((pair.nodes a.nodeId).step deliverFirst).1 := by
  have ha : Poised a _ := pair_poised (by decide)
  have h := gathers_adopted (P := firstProposal) ha.refines fun id _ =>
    ha.committed ▸ Finset.notMem_empty id
  have hown := ha.shares_eq (v := firstVoteToo) (by simp [votes]) first_proposalHash rfl
  rw [ha.config_eq, pair_committee (by decide), hown] at h
  rw [deliverFirst, show firstProposal = offer firstVote.signer "t1" 1 from rfl,
    first_seals.adopts ha.toWaiting ha.unvoted ha.view_eq (pair_sealer (by decide)) (by decide)]
  exact h

/-- `a` stores the block with both signatures. -/
theorem sharedRun_a :
    Refines (sharedRun.nodes a.nodeId).store [genesisCheckpoint, firstBlockBoth] := by
  have hquorum := pair_quorum a_gathers.config_eq a_gathers.members_eq
  have hblock :
      blockOf firstProposal ((sharesOf [firstVoteToo]).insert b.nodeId (firstVote.share 1)) 1 =
      firstBlockBoth := rfl
  have hverify : (firstVote.share 1).verify = true := firstVote.share_verify (by simp [votes]) 1
  have hcommits := a_gathers.commits hverify first_proposalHash.symm
  unfold sharedRun
  rw [Network.act_nodes_self, Network.act_nodes_self,
    Network.act_nodes_of_ne pair _ (nodeId_ne (by decide))]
  rw [hquorum] at hcommits
  exact hcommits (by decide) (hblock ▸ firstBoth_follows)

/-- `b` stores the one with its own signature only. -/
theorem sharedRun_b : Refines (sharedRun.nodes b.nodeId).store [genesisCheckpoint, firstBlock] := by
  unfold sharedRun
  rw [Network.act_nodes_of_ne _ _ (nodeId_ne (by decide)),
    Network.act_nodes_of_ne _ _ (nodeId_ne (by decide)), Network.act_nodes_self]
  exact b_commits

/-- The run forwards what was published, and the committee of every node that acts is the two
nodes. -/
theorem sharedRun_run :
    Network.Run {a.nodeId, b.nodeId} (fun net id op => Forwards {a.nodeId, b.nodeId} net op ∧
      (net.nodes id).committeeMembers.toFinset = {a.nodeId, b.nodeId}) pair sharedRun := by
  have hmembers {n : Node} (h : n.committeeMembers = [a.nodeId, b.nodeId]) :
      n.committeeMembers.toFinset = {a.nodeId, b.nodeId} := by
    rw [h]
    rfl
  have hb : (pair.nodes b.nodeId).committeeMembers = [a.nodeId, b.nodeId] :=
    pair_committee (by decide)
  have ha : ((pair.act b.nodeId .proposeNow).nodes a.nodeId).committeeMembers =
      [a.nodeId, b.nodeId] := by
    rw [Network.act_nodes_of_ne pair _ (nodeId_ne (by decide))]
    exact pair_committee (by decide)
  have ha' : (((pair.act b.nodeId .proposeNow).act a.nodeId deliverFirst).nodes
      a.nodeId).committeeMembers = [a.nodeId, b.nodeId] := by
    rw [Network.act_nodes_self, Network.act_nodes_of_ne pair _ (nodeId_ne (by decide))]
    exact a_gathers.members_eq
  refine .act (.act (.act .start b.nodeId (by simp) _ ⟨⟨by simp, by simp, by simp⟩, hmembers hb⟩)
    a.nodeId (by simp) _ ⟨⟨by simp [deliverFirst], by simp [deliverFirst],
      by simp [deliverFirst]⟩, hmembers ha⟩) a.nodeId (by simp) _
      ⟨⟨by simp [deliverVote], fun share hop => ?_, by simp [deliverVote]⟩, hmembers ha'⟩
  obtain rfl : firstVote.share 1 = share := by simpa [deliverVote] using hop
  refine ⟨b.nodeId, by simp,
    Network.sent_subset_act _ _ _ _ (Network.mem_act_sent.mpr (.inr ⟨rfl, ?_⟩))⟩
  rw [b_publishes]
  exact List.mem_cons_self

/-- The only proposal of the run is the one that the node `b` makes. -/
theorem sharedRun_proposals {id : String} {p : CheckpointProposal}
    (hp : p ∈ proposalsIn (sharedRun.sent id)) : p = firstProposal := by
  have hreceive {net : Network} (hnet : Network.Settled pair net a.nodeId) (op : Node.Op)
      (topic : String) (msg : Message) (hop : op = .receive topic msg) :
      proposalsIn ((net.nodes a.nodeId).step op).2.1 = [] := by
    rw [hop]
    exact proposalsIn_receive (reachable_idle hnet.reachable).1.keyed
      (reachable_idle hnet.reachable).2.outgoing topic msg
  have hstart : Network.Settled pair pair a.nodeId := ⟨pair_start.reachable _ (by simp), rfl⟩
  obtain ⟨topic, hp⟩ := mem_proposalsIn.mp hp
  -- the deliveries to `a` make no proposal, and at the start nothing was published
  rcases Network.mem_act_sent.mp hp with hp | ⟨-, hp⟩
  · rcases Network.mem_act_sent.mp hp with hp | ⟨-, hp⟩
    · rcases Network.mem_act_sent.mp hp with hp | ⟨-, hp⟩
      · rw [pair_start.silent] at hp
        cases hp
      · rw [b_publishes] at hp
        exact (by simpa using hp : topic = Topics.proposals ∧ p = firstProposal).2
    · have hmem := mem_proposalsIn.mpr ⟨topic, hp⟩
      rw [hreceive (hstart.act _) deliverFirst _ _ rfl] at hmem
      cases hmem
  · have hmem := mem_proposalsIn.mpr ⟨topic, hp⟩
    rw [hreceive ((hstart.act _).act _) (deliverVote firstVote) _ _ rfl] at hmem
    cases hmem

/-- Two honest nodes with a fixed committee, one proposal and no response: the node `b` commits
with its own signature alone, and the node `a` with both. -/
theorem one_proposal_two_blocks :
    Network.Start {a.nodeId, b.nodeId} [genesisCheckpoint] pair ∧
      Network.Run {a.nodeId, b.nodeId} (fun net id op => Forwards {a.nodeId, b.nodeId} net op ∧
        (net.nodes id).committeeMembers.toFinset = {a.nodeId, b.nodeId}) pair sharedRun ∧
      (∀ id ∈ ({a.nodeId, b.nodeId} : Finset String), ∀ p ∈ proposalsIn (sharedRun.sent id),
        p = firstProposal) ∧
      ∃ c d : Checkpoint, c.proposal = firstProposal ∧ d.proposal = firstProposal ∧
        (sharedRun.nodes a.nodeId).store.getBlock 1 = some c ∧
        (sharedRun.nodes b.nodeId).store.getBlock 1 = some d ∧ c.blockHash ≠ d.blockHash := by
  refine ⟨pair_start, sharedRun_run, fun _ _ _ hp => sharedRun_proposals hp,
    readBack firstBlockBoth, readBack firstBlock, readBack_proposal _, readBack_proposal _,
    sharedRun_a.getBlock 1, sharedRun_b.getBlock 1, fun h => ?_⟩
  rw [readBack_blockHash, readBack_blockHash] at h
  have hlength := congrArg List.length (blockHash_injective sha256_injective h).2
  cases hlength

end Exodus.Analysis
