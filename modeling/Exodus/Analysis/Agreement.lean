import Exodus.Analysis.Assembly
import Exodus.Library.Quorum

/-!
# Agreement in a committee with faulty members

Members of a fixed committee exchange proposals, shares and commits; some of them are
faulty and send anything that is not a forgery.  The quorum is `2f + 1` of `n` with
`f = (n - 1) / 3`, shares and commits are taken from any key under any node id, a commit
passes with the quorum that it records itself, and a node signs a second proposal for a
height in a later view.  `agreement` says what has to hold in a run, beyond what the
network guarantees, for the correct members to append the same proposals.
-/

set_option autoImplicit false

namespace Exodus.Analysis

open Exodus.Library Exodus.Model Exodus.Interface

/-- The members of a committee, the faulty ones among them, and the members' public keys. -/
structure Committee where
  members : Finset String
  faulty : Finset String
  key : String → List UInt8

namespace Committee

/-- The members that follow the protocol. -/
def correct (C : Committee) : Finset String := C.members \ C.faulty

/-- `quorum_size` in Byzantine mode. -/
def quorum (C : Committee) : ℕ := 2 * ((C.members.card - 1) / 3) + 1

/-- The node id is a member's, and the key is that member's. -/
def Knows (C : Committee) (nodeId publicKeyHex : String) : Prop :=
  nodeId ∈ C.members ∧ hexDecode publicKeyHex = some (C.key nodeId)

end Committee

variable [Crates] {C : Committee} {start net : Network} {base : List Checkpoint}

/-- The node has published a share for the proposal hash. -/
def HasSigned (net : Network) (id hash : String) : Prop :=
  ∃ share, (Topics.signatures, Message.signatureShare share) ∈ net.sent id ∧
    share.proposalHash = hash

/-- What a node has signed stays signed. -/
theorem HasSigned.act {id hash : String} (h : HasSigned net id hash) (other : String)
    (op : Node.Op) : HasSigned (net.act other op) id hash := by
  obtain ⟨share, hshare, hhash⟩ := h
  exact ⟨share, Network.sent_subset_act net other id op hshare, hhash⟩

/-- A committee of nodes in Byzantine mode before its first message. -/
structure Convened (C : Committee) (base : List Checkpoint) (net : Network) : Prop where
  start : Network.Start C.correct base net
  byzantine : ∀ id ∈ C.correct, (net.nodes id).config.byzantine = true
  keys : ∀ id ∈ C.correct, hexDecode (net.nodes id).publicKeyHex = some (C.key id)

/-- What the network guarantees: there are no sync responses, the committee of the node stays
as it is, and no signature under the key of a correct member is delivered that the member
has not made. -/
structure Delivers (C : Committee) (net : Network) (id : String) (op : Node.Op) : Prop where
  no_sync : ∀ resp, op ≠ .syncResponse resp
  committee : (net.nodes id).committeeMembers.toFinset = C.members
  committee_after : op = .tick →
    (net.nodes id).advanceView.1.committeeMembers.toFinset = C.members
  share : ∀ share, op = .receive Topics.signatures (.signatureShare share) →
    share.verify = true → ∀ j ∈ C.correct, hexDecode share.publicKeyHex = some (C.key j) →
      HasSigned net j share.proposalHash
  commit : ∀ c, op = .receive Topics.commits (.commitMessage c) → ∀ sig ∈ c.signatures,
    verifyShareForProposal sig.signatureHex sig.publicKeyHex c.proposal.proposalHash = true →
      ∀ j ∈ C.correct, hexDecode sig.publicKeyHex = some (C.key j) →
        HasSigned net j c.proposal.proposalHash

/-- The node has signed one proposal per height. -/
def OneVote (net : Network) (id : String) : Prop :=
  ∀ share share', (Topics.signatures, Message.signatureShare share) ∈ net.sent id →
    (Topics.signatures, Message.signatureShare share') ∈ net.sent id →
    share.height = share'.height → share.proposalHash = share'.proposalHash

/-- What the code does not see to: a proposal that the operation makes the node sign is the
one that it has signed for the height, if it has signed any; a delivered share stands under its
member's key, and a delivered commit carries a quorum of members. -/
structure Guarded (C : Committee) (net : Network) (id : String) (op : Node.Op) : Prop where
  votes : ∀ p, WillSign (net.nodes id) op p → ∀ share,
    (Topics.signatures, Message.signatureShare share) ∈ net.sent id → share.height = p.height →
      share.proposalHash = p.proposalHash
  share : ∀ share, op = .receive Topics.signatures (.signatureShare share) →
    C.Knows share.nodeId share.publicKeyHex
  commit : ∀ c, op = .receive Topics.commits (.commitMessage c) →
    C.quorum ≤ c.signatures.length ∧ ∀ sig ∈ c.signatures, C.Knows sig.nodeId sig.publicKeyHex

/-! ## Certificates -/

/-- Votes for a proposal are the shares that were published for its hash. -/
def Votes (net : Network) (id : String) (p : CheckpointProposal) : Prop :=
  HasSigned net id p.proposalHash

/-- Shares and signatures of correct members are ones that they have made, and an appended
block has a quorum of them. -/
def Committee.evidence (C : Committee) (net : Network) : Evidence where
  share hash id _ := id ∈ C.members ∧ (id ∉ C.faulty → HasSigned net id hash)
  queued c := C.quorum ≤ c.signatures.length ∧ ∀ sig ∈ c.signatures, sig.nodeId ∈ C.members ∧
    (sig.nodeId ∉ C.faulty →
      verifyShareForProposal sig.signatureHex sig.publicKeyHex c.proposal.proposalHash = true →
        HasSigned net sig.nodeId c.proposal.proposalHash)
  block c := Certified C.members C.faulty C.quorum (Votes net) c.proposal

/-- Later votes do not take evidence away. -/
theorem holds_act {n : Node} (h : Holds (C.evidence net) base n) (id : String) (op : Node.Op) :
    Holds (C.evidence (net.act id op)) base n := by
  refine h.mono (fun hash j s hs => ⟨hs.1, fun hj => (hs.2 hj).act id op⟩) (fun c hc => ?_)
    (fun c hc => hc.mono fun j hj => hj.act id op)
  exact ⟨hc.1, fun sig hsig =>
    ⟨(hc.2 sig hsig).1, fun hj hv => ((hc.2 sig hsig).2 hj hv).act id op⟩⟩

/-- Signatures that passed the checks certify the proposal. -/
theorem certified_of_signed {c : Checkpoint} (hc : (C.evidence net).queued c) (hs : Signed c) :
    (C.evidence net).block c := by
  refine ⟨(c.signatures.map QuorumSignature.nodeId).toFinset, ?_, ?_, ?_⟩
  · intro x hx
    obtain ⟨sig, hsig, rfl⟩ := List.mem_map.mp (List.mem_toFinset.mp hx)
    exact (hc.2 sig hsig).1
  · rw [List.toFinset_card_of_nodup hs.pass.signers_nodup, List.length_map]
    exact hc.1
  · intro x hx hcorrect
    obtain ⟨sig, hsig, rfl⟩ := List.mem_map.mp (List.mem_toFinset.mp hx)
    exact (hc.2 sig hsig).2 hcorrect (hs.pass.verified sig hsig)

/-- A node with the committee's members counts the committee's quorum. -/
theorem quorum_le_quorumSize {m : Node} (hbyz : m.config.byzantine = true)
    (hmembers : m.committeeMembers.toFinset = C.members) : C.quorum ≤ m.quorumSize := by
  have hcard : m.committeeMembers.length = C.members.card := by
    rw [← hmembers, List.toFinset_card_of_nodup (committeeMembers_nodup m)]
  simp only [Node.quorumSize, hbyz, if_true, hcard, Committee.quorum]
  omega

/-- Whatever an operation counts, it counts against the committee's quorum. -/
theorem quorum_le_of_counts {id : String} {op : Node.Op} (hd : Delivers C net id op)
    (hbyz : (net.nodes id).config.byzantine = true) {p : CheckpointProposal}
    {ids : Finset String} {q : ℕ} (h : Counts (net.nodes id) op p ids q) : C.quorum ≤ q := by
  cases h with
  | share => exact quorum_le_quorumSize hbyz hd.committee
  | proposal => exact quorum_le_quorumSize hbyz hd.committee
  | own => exact quorum_le_quorumSize hbyz hd.committee
  | takeover =>
    have hconfig : (net.nodes id).advanceView.1.config = (net.nodes id).config :=
      congrArg Core.config (advanceView_cases _).1
    exact quorum_le_quorumSize (hconfig ▸ hbyz) (hd.committee_after rfl)

/-- A block that a node assembles has the shares of a quorum. -/
theorem certified_of_assembled {I : Inputs} {m : Node} {c : Checkpoint}
    (hI : ∀ p ids q, I.counts p ids q → C.quorum ≤ q) (h : Holds (C.evidence net) base m)
    (hc : Assembled I m c) : (C.evidence net).block c := by
  obtain ⟨p, -, rfl, hsize, hcounts⟩ := hc
  have hshare (id : String) (hid : id ∈ shareIds m p.proposalHash) :
      id ∈ C.members ∧ (id ∉ C.faulty → HasSigned net id p.proposalHash) := by
    obtain ⟨s, hs⟩ := Option.isSome_iff_exists.mp (Std.ExtTreeMap.mem_iff_isSome_getElem?.mp
      (Std.ExtTreeMap.mem_keys.mp (List.mem_toFinset.mp hid)))
    exact h.shares p.proposalHash id s hs
  refine ⟨shareIds m p.proposalHash, fun id hid => (hshare id hid).1, ?_,
    fun id hid => (hshare id hid).2⟩
  rw [card_shareIds]
  exact (hI _ _ _ hcounts).trans hsize

/-! ## Runs -/

/-- An operation that is delivered and guarded brings evidence along. -/
theorem admits_of_guarded {id : String} {op : Node.Op} (hd : Delivers C net id op)
    (hg : Guarded C net id op) (hbyz : (net.nodes id).config.byzantine = true)
    (h : Holds (C.evidence net) base (net.nodes id)) :
    Admits (C.evidence (net.act id op)) base (inputs (net.nodes id) op) (net.nodes id) := by
  have hcorrect {j : String} (hj : j ∈ C.members) (hj' : j ∉ C.faulty) : j ∈ C.correct :=
    Finset.mem_sdiff.mpr ⟨hj, hj'⟩
  refine ⟨fun s hs hv => ?_, fun c hc => ?_, fun c => certified_of_signed, fun m c _ hm =>
    certified_of_assembled (fun _ _ _ => quorum_le_of_counts hd hbyz) hm⟩
  · obtain ⟨hmember, hkey⟩ := hg.share s hs
    exact ⟨hmember, fun hj => (hd.share s hs hv _ (hcorrect hmember hj) hkey).act id op⟩
  · rcases hc with hc | ⟨resp, hresp, -⟩ | ⟨k, hk⟩
    · obtain ⟨henough, hknown⟩ := hg.commit c hc
      refine ⟨henough, fun sig hsig => ?_⟩
      obtain ⟨hmember, hkey⟩ := hknown sig hsig
      exact ⟨hmember, fun hj hv =>
        (hd.commit c hc sig hsig hv _ (hcorrect hmember hj) hkey).act id op⟩
    · exact absurd hresp (hd.no_sync resp)
    · exact (holds_act h id op).queued k c hk

/-- The operations of a guarded run. -/
def Allowed (C : Committee) (net : Network) (id : String) (op : Node.Op) : Prop :=
  Delivers C net id op ∧ Guarded C net id op

/-- Every correct member of a guarded run has evidence for what it holds. -/
theorem run_holds (hstart : Convened C base start)
    (hrun : Network.Run C.correct (Allowed C) start net) {id : String} (hid : id ∈ C.correct) :
    Holds (C.evidence net) base (net.nodes id) := by
  induction hrun generalizing id with
  | start => exact hstart.start.holds hid
  | act hrun j hj op hop ih =>
    by_cases heq : id = j
    · subst heq
      have hsettled := hrun.settled hstart.start hid
      have hconfig : (Network.nodes _ id).config = (start.nodes id).config :=
        congrArg (fun t => t.2.2.2) hsettled.identity_eq
      have hbyz := hconfig ▸ hstart.byzantine id hid
      refine (hsettled.act_holds hop.1.no_sync hstart.start.nonempty (fun p _ hp => ?_)
        (admits_of_guarded hop.1 hop.2 hbyz (ih hid)) (holds_act (ih hid) id op)).1
      -- the own share is published in this very step
      rw [hsettled.nodeId_eq hstart.start hid]
      exact ⟨(Finset.mem_sdiff.mp hid).1, fun _ =>
        ⟨_, Network.mem_act_sent.mpr (.inr ⟨rfl, hp⟩), rfl⟩⟩
    · rw [Network.act_nodes_of_ne _ op heq]
      exact holds_act (ih hid) j op

/-- What an operation publishes keeps to the votes before it, since it publishes shares for
one proposal at most. -/
theorem OneVote.act {id : String} {op : Node.Op} (h : OneVote net id)
    (hsettled : Network.Settled start net id) (hop : Guarded C net id op) :
    OneVote (net.act id op) id := by
  intro share share' hshare hshare' hheight
  rcases Network.mem_act_sent.mp hshare with hold | ⟨-, hnew⟩
  · rcases Network.mem_act_sent.mp hshare' with hold' | ⟨-, hnew'⟩
    · exact h share share' hold hold' hheight
    · obtain ⟨p, hp, rfl⟩ := hsettled.share_of_step hnew'
      exact hop.votes p hp share hold hheight
  · obtain ⟨p, hp, rfl⟩ := hsettled.share_of_step hnew
    rcases Network.mem_act_sent.mp hshare' with hold' | ⟨-, hnew'⟩
    · exact (hop.votes p hp share' hold' hheight.symm).symm
    · obtain ⟨p', hp', rfl⟩ := hsettled.share_of_step hnew'
      rw [hp.unique hp']

/-- A correct member of a guarded run has signed one proposal per height. -/
theorem run_oneVote (hstart : Convened C base start)
    (hrun : Network.Run C.correct (Allowed C) start net) (id : String) : OneVote net id := by
  induction hrun with
  | start =>
    intro share share' hshare
    rw [hstart.start.silent] at hshare
    simp at hshare
  | act hrun j hj op hop ih =>
    by_cases heq : id = j
    · subst heq
      exact ih.act (hrun.settled hstart.start hj) hop.2
    · intro share share' hshare hshare'
      rw [Network.mem_act_sent, or_iff_left fun h => heq h.1] at hshare hshare'
      exact ih share share' hshare hshare'

/-- A correct member that voted for two proposals of one height voted twice for the same. -/
theorem votes_unique [RyuReadsBack] (hsha : Sha256CollisionFree) (hstart : Convened C base start)
    (hrun : Network.Run C.correct (Allowed C) start net) {id : String} (hid : id ∈ C.correct)
    {p p' : CheckpointProposal} (hp : Votes net id p) (hp' : Votes net id p')
    (hheight : p.height = p'.height) : p = p' := by
  have hown {p : CheckpointProposal} (hp : Votes net id p) :
      (Topics.signatures, Message.signatureShare ((start.nodes id).signatureShare p)) ∈
        net.sent id := by
    obtain ⟨share, hshare, hhash⟩ := hp
    obtain ⟨p₀, rfl⟩ := hrun.ownShare hstart.start hid hshare
    rwa [← proposalHash_injective hsha hhash]
  exact proposalHash_injective hsha
    (run_oneVote hstart hrun id _ _ (hown hp) (hown hp') hheight)

/-- The correct members of a committee append the same proposals, in every run in which each
of them signs one proposal per height, the shares and commits they are given are members'
under their own keys, a commit carries a quorum of them, and the quorums overlap in more
than the faulty members. -/
theorem agreement [SerdeReadsBack] [RyuReadsBack] (hsha : Sha256CollisionFree)
    (hstart : Convened C base start) (hfew : C.faulty.card + C.members.card < 2 * C.quorum)
    (hrun : Network.Run C.correct (Allowed C) start net) {i j : String} (hi : i ∈ C.correct)
    (hj : j ∈ C.correct) {h : ℤ} {a b : Checkpoint}
    (ha : (net.nodes i).store.getBlock h = some a) (hb : (net.nodes j).store.getBlock h = some b) :
    a.proposal = b.proposal := by
  obtain ⟨_, href, _⟩ := (run_holds hstart hrun hi).chain
  obtain ⟨_, href', _⟩ := (run_holds hstart hrun hj).chain
  have hheight : a.height = b.height :=
    (href.height_of_getBlock ha).trans (href'.height_of_getBlock hb).symm
  rcases (run_holds hstart hrun hi).getBlock_both (run_holds hstart hrun hj) ha hb with
    rfl | ⟨c, d, rfl, rfl, hc, hd⟩
  · rfl
  · rw [readBack_height, readBack_height] at hheight
    rw [readBack_proposal, readBack_proposal]
    refine hc.unique hfew (fun id hid hid' hvote hvote' => ?_) hd (Int64.toInt_inj.mp hheight)
    exact votes_unique hsha hstart hrun (Finset.mem_sdiff.mpr ⟨hid, hid'⟩) hvote hvote'

end Exodus.Analysis

namespace Exodus.Analysis

open Exodus.Library Exodus.Model Exodus.Interface Exodus.Sample

open Signer

/-- The four nodes of the sample, one of them faulty. -/
def quartetCommittee : Committee where
  members := quartetIds.toFinset
  faulty := {d.nodeId}
  key id := if id = a.nodeId then a.key else if id = b.nodeId then b.key
    else if id = c.nodeId then c.key else d.key

/-- Three of the four are correct. -/
theorem quartetCommittee_correct : quartetCommittee.correct = trio := by decide

/-- Each member has its own key. -/
theorem quartetCommittee_key (s : Signer) : quartetCommittee.key s.nodeId = s.key := by
  cases s <;> rfl

/-- No two have the same. -/
theorem key_injective : Function.Injective Signer.key := by
  intro s t
  cases s <;> cases t <;> decide

/-- The correct members are nodes of the sample. -/
theorem mem_trio {id : String} (hid : id ∈ trio) : ∃ s : Signer, s.nodeId = id := by
  simp only [trio, Finset.mem_insert, Finset.mem_singleton] at hid
  rcases hid with rfl | rfl | rfl
  · exact ⟨a, rfl⟩
  · exact ⟨b, rfl⟩
  · exact ⟨c, rfl⟩

/-- The four are convened on genesis. -/
theorem quartet_convened : Convened quartetCommittee [genesisCheckpoint] quartet := by
  refine ⟨quartetCommittee_correct ▸ quartet_start, fun id hid => ?_, fun id hid => ?_⟩ <;>
    obtain ⟨s, rfl⟩ := mem_trio (quartetCommittee_correct ▸ hid)
  · rw [(quartet_poised s).config_eq]
    rfl
  · rw [(quartet_poised s).key_eq, quartetCommittee_key]
    exact hexDecode_hex s.key

/-- The signatures of the run are their members', and no member signs twice. -/
theorem InQuartet.allowed {net : Network} {id : String} {op : Node.Op}
    (h : InQuartet net id op) : Allowed quartetCommittee net id op := by
  have hmembers : (net.nodes id).committeeMembers.toFinset = quartetCommittee.members := by
    rw [h.members_eq]
    rfl
  cases h.step with
  | proposes hsilent =>
    exact ⟨⟨by simp, hmembers, by simp, by simp, by simp⟩,
      fun _ _ _ hs => (by rw [hsilent] at hs; cases hs), by simp, by simp⟩
  | adopts hsilent =>
    unfold deliverFirst
    exact ⟨⟨by simp, hmembers, by simp, by simp, by simp⟩,
      fun _ _ _ hs => (by rw [hsilent] at hs; cases hs), by simp, by simp⟩
  | counts hv hsent =>
    rename_i v
    unfold deliverVote
    refine ⟨⟨by simp, hmembers, by simp, fun share hop _ j hj hkey => ?_, by simp⟩,
      fun p hp => ?_, fun share hop => ?_, by simp⟩
    · obtain rfl : v.share 1 = share := by simpa using hop
      obtain ⟨s, rfl⟩ := mem_trio (quartetCommittee_correct ▸ hj)
      have hkeys : some v.signer.key = some s.key := by
        rw [← quartetCommittee_key s, ← hkey]
        exact (hexDecode_hex v.signer.key).symm
      obtain rfl : v.signer = s := key_injective (Option.some.inj hkeys)
      exact ⟨_, hsent, rfl⟩
    · generalize hop : Node.Op.receive _ _ = op at hp
      cases hp <;> simp at hop
    · obtain rfl : v.share 1 = share := by simpa using hop
      refine ⟨?_, ?_⟩
      · simp only [firstVotes, List.mem_cons, List.not_mem_nil, or_false] at hv
        rcases hv with rfl | rfl | rfl <;> decide
      · exact (hexDecode_hex v.signer.key).trans
          (congrArg some (quartetCommittee_key v.signer).symm)

/-- Two correct members of the four commit what `b` proposes, each with a quorum of three. -/
theorem quartet_agrees :
    ∃ x y : Checkpoint, (quartetCommitted.nodes b.nodeId).store.getBlock 1 = some x ∧
      (quartetCommitted.nodes c.nodeId).store.getBlock 1 = some y ∧ x.proposal = y.proposal := by
  have hb : b.nodeId ∈ quartetCommittee.correct := quartetCommittee_correct ▸ (by decide)
  have hc : c.nodeId ∈ quartetCommittee.correct := quartetCommittee_correct ▸ (by decide)
  have hrun : Network.Run quartetCommittee.correct (Allowed quartetCommittee) quartet
      quartetCommitted :=
    quartetCommittee_correct ▸ quartet_run.imp fun _ _ _ h => h.allowed
  exact ⟨_, _, quartetCommitted_b.getBlock 1, quartetCommitted_c.getBlock 1,
    agreement sha256_injective quartet_convened (by decide) hrun hb hc
      (quartetCommitted_b.getBlock 1) (quartetCommitted_c.getBlock 1)⟩

/-- The two nodes of the sample, both correct. -/
def bothCorrect : Committee where
  members := {a.nodeId, b.nodeId}
  faulty := ∅
  key id := if id = a.nodeId then a.key else b.key

/-- Both of the two are correct. -/
theorem bothCorrect_correct : bothCorrect.correct = {a.nodeId, b.nodeId} := Finset.sdiff_empty

/-- They are convened on genesis. -/
theorem bothCorrect_convened : Convened bothCorrect [genesisCheckpoint] pair := by
  have hkey {s : Signer} (hs : s ∈ [a, b]) : bothCorrect.key s.nodeId = s.key := by
    revert s
    decide
  refine ⟨bothCorrect_correct ▸ pair_start, fun id hid => ?_, fun id hid => ?_⟩ <;>
    obtain ⟨s, hs, rfl⟩ := mem_pair (bothCorrect_correct ▸ hid)
  · rw [(pair_poised hs).config_eq]
    rfl
  · rw [(pair_poised hs).key_eq, hkey hs]
    exact hexDecode_hex s.key

/-- The heartbeat of the other node, 20 s ago, is not stale. -/
theorem pruneStalePeers_pair (s t : Signer) (time : String) (view : Int64) (reads : ℕ)
    (last : Float) : (ready s [t] time view reads last).pruneStalePeers 100.0 config.peerStaleAfter =
      ready s [t] time view reads last := by
  refine pruneStalePeers_of_seen fun id hid => ⟨80.0, ?_, by decide +kernel⟩
  obtain rfl : t.nodeId = id := by
    simpa [ready, greeted, hears, fresh] using hid
  exact Std.ExtTreeMap.getElem?_insert_self

/-- The node `a` times out, keeps `b` in its committee and takes over. -/
theorem a_takes_over :
    (pair.nodes a.nodeId).advanceView = (ready a [b] a.time 2 4 100.0, true) := by
  have hnode : pair.nodes a.nodeId = ready a [b] a.time 1 3 0.0 := meeting_nodes (by decide)
  have hpruned : (ready a [b] a.time 1 3 0.0).tickClock.pruneStalePeers
      (ready a [b] a.time 1 3 0.0).now (ready a [b] a.time 1 3 0.0).config.peerStaleAfter =
      ready a [b] a.time 1 4 0.0 := pruneStalePeers_pair a b a.time 1 4 0.0
  have hfirst : (ready a [b] a.time 1 4 0.0).sealerForView (ready a [b] a.time 1 4 0.0).view =
      b.nodeId := sealerForView_ready a [b] a.time 1 4 0.0 (by decide) 1
  have hsecond : (ready a [b] a.time 2 4 0.0).sealerForView 2 = a.nodeId :=
    sealerForView_ready a [b] a.time 2 4 0.0 (by decide) 2
  rw [hnode]
  unfold Node.advanceView
  dsimp only
  rw [hpruned, if_pos (by show (90.0 : Float) < 100.0 - 0.0; decide +kernel), hfirst]
  exact Prod.ext rfl (congrArg (fun id => !decide (b.nodeId = a.nodeId) &&
    decide (id = a.nodeId)) hsecond)

/-- It proposes the rival block and commits it with its own share. -/
theorem a_commits : Refines ((pair.nodes a.nodeId).step .tick).1.store
    [genesisCheckpoint, rivalBlock] := by
  have hquorum : (ready a [b] a.time 2 4 100.0).quorumSize = 1 :=
    quorumSize_ready a [b] a.time 2 4 100.0 (by decide)
  have hdrained : (ready a [b] a.time 2 4 100.0).drain.1 = ready a [b] a.time 2 4 100.0 := rfl
  rw [step_tick_of_takeover a_takes_over, hdrained, store_drain]
  exact rival_seals.propose_refines (ready_waiting a [b] a.time 2 4 100.0) hquorum rfl rfl
    (sealerForView_ready a [b] a.time 2 4 100.0 (by decide) 2)

/-- The node `b` seals the first view and commits its proposal; the node `a` times out, seals
the second view and commits its own. -/
theorem pair_disagrees :
    ∃ (C : Committee) (start net : Network),
      Convened C [genesisCheckpoint] start ∧ C.faulty.card ≤ (C.members.card - 1) / 3 ∧
      Network.Run C.correct (Delivers C) start net ∧
      ∃ i ∈ C.correct, ∃ j ∈ C.correct, ∃ c d : Checkpoint,
        (net.nodes i).store.getBlock 1 = some c ∧ (net.nodes j).store.getBlock 1 = some d ∧
          c.proposal ≠ d.proposal := by
  have ha : a.nodeId ∈ bothCorrect.correct := by simp [bothCorrect_correct]
  have hb : b.nodeId ∈ bothCorrect.correct := by simp [bothCorrect_correct]
  have hne : a.nodeId ≠ b.nodeId := nodeId_ne (by decide)
  have hmembers {n : Node} (h : n.committeeMembers = [a.nodeId, b.nodeId]) :
      n.committeeMembers.toFinset = bothCorrect.members := by
    rw [h]
    rfl
  have hbMembers : (pair.nodes b.nodeId).committeeMembers = [a.nodeId, b.nodeId] :=
    pair_committee (by decide)
  have haMembers : (pair.nodes a.nodeId).committeeMembers = [a.nodeId, b.nodeId] :=
    pair_committee (by decide)
  have hnode : (pair.act b.nodeId .proposeNow).nodes a.nodeId = pair.nodes a.nodeId :=
    Network.act_nodes_of_ne pair _ hne
  have hrun : Network.Run bothCorrect.correct (Delivers bothCorrect) pair
      ((pair.act b.nodeId .proposeNow).act a.nodeId .tick) := by
    refine .act (.act .start _ hb _ ⟨by simp, hmembers hbMembers, by simp, by simp, by simp⟩)
      _ ha _ ⟨by simp, ?_, fun _ => ?_, by simp, by simp⟩
    · rw [hnode]
      exact hmembers haMembers
    · rw [hnode, a_takes_over]
      exact hmembers (committeeMembers_ready a [b] a.time 2 4 100.0 (by decide))
  refine ⟨bothCorrect, pair, _, bothCorrect_convened, by decide, hrun, a.nodeId, ha, b.nodeId, hb,
    readBack rivalBlock, readBack firstBlock, ?_, ?_, ?_⟩
  · rw [Network.act_nodes_self, hnode]
    exact a_commits.getBlock 1
  · rw [Network.act_nodes_of_ne _ _ hne.symm, Network.act_nodes_self]
    exact b_commits.getBlock 1
  · rw [readBack_proposal, readBack_proposal]
    decide

end Exodus.Analysis
