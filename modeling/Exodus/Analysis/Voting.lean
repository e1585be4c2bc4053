import Exodus.Analysis.Announcements
import Exodus.Analysis.Equivocation
import Exodus.Analysis.Reorg
import Exodus.Interface.SampleNodes

/-!
# One vote per height and epoch

A node signs a proposal for the height above its head.  What it has signed stays in the map
of outstanding proposals until the chain reaches that height, so the node could see that
it has already voted for a height and an epoch; `propose_internal` looks there, and
`on_proposal` does not.  `one_vote` says that the votes of a run agree when no proposal is
signed next to such a sibling and no reorganisation drops an outstanding proposal or
shortens the chain.
-/

set_option autoImplicit false

namespace Exodus.Analysis

open Exodus.Library Exodus.Model Exodus.Interface

variable {I : Inputs} {n n' : Node} {p : CheckpointProposal} {chain peer : List Checkpoint}

/-! ## Votes -/

/-- The shares among some messages. -/
def sharesIn (msgs : List (String × Message)) : List SignatureShare :=
  msgs.filterMap fun e =>
    match e.2 with
    | .signatureShare s => some s
    | _ => none

/-- The shares among the messages of two lists. -/
@[simp] theorem sharesIn_append (a b : List (String × Message)) :
    sharesIn (a ++ b) = sharesIn a ++ sharesIn b := List.filterMap_append

/-- Routine messages have none. -/
theorem sharesIn_routine {msgs : List (String × Message)} (hmsgs : ∀ e ∈ msgs, Routine e.2) :
    sharesIn msgs = [] := by
  rw [sharesIn, List.filterMap_eq_nil_iff]
  rintro ⟨topic, m⟩ he
  have hroutine := hmsgs _ he
  cases m with
  | signatureShare s => exact absurd hroutine id
  | _ => rfl

/-- Votes for one height and one epoch are for one proposal hash. -/
def SignsOnce (shares : List SignatureShare) : Prop :=
  ∀ s ∈ shares, ∀ t ∈ shares, s.height = t.height → s.epoch = t.epoch →
    s.proposalHash = t.proposalHash

variable [Crates]

/-- The votes of a node in a run. -/
def votesOf : Node → List Node.Op → List SignatureShare
  | _, [] => []
  | n, op :: ops => sharesIn (n.step op).2.1 ++ votesOf (n.step op).1 ops

/-- Every operation of the run meets the condition in the state it starts from. -/
def Along (ok : Node → Node.Op → Prop) : Node → List Node.Op → Prop
  | _, [] => True
  | n, op :: ops => ok n op ∧ Along ok (n.step op).1 ops

/-- Every outstanding proposal for the height and the epoch has the proposal's hash. -/
def NoSibling (n : Node) (p : CheckpointProposal) : Prop :=
  ∀ (k : String) (q : CheckpointProposal), n.proposals[k]? = some q → q.height = p.height →
    q.epoch = p.epoch → q.proposalHash = p.proposalHash

/-- What the code does not see to: a proposal that is about to be signed has no outstanding
sibling, and a full-chain response neither abandons blocks nor stops before its last one. -/
structure SingleVote (n : Node) (op : Node.Op) : Prop where
  proposal : ∀ p, op = .receive Topics.proposals (.proposalMessage p) → Signs n p → NoSibling n p
  response : ∀ resp, op = .syncResponse resp → (∃ b ∈ resp.blocks, b.height = 0) →
    ¬ Abandons n resp.blocks ∧ ¬ Stranded n resp.blocks

/-! ## Outstanding proposals -/

/-- The chain has reached the height of the proposal, or the proposal is outstanding. -/
def Awaited (n : Node) (p : CheckpointProposal) : Prop :=
  p.height.toInt ≤ n.store.height ∨ n.proposals[p.proposalHash]? = some p

/-- Whether a block is awaited is read from the core. -/
theorem Awaited.of_core_eq (h : Awaited n p) (hcore : core n' = core n) : Awaited n' p := by
  unfold Awaited
  rw [show n'.store = n.store from congrArg Core.store hcore,
    show n'.proposals = n.proposals from congrArg Core.proposals hcore]
  exact h

section Awaiting

variable [RyuReadsBack]

/-- An outstanding proposal stays until a block for it is appended. -/
theorem Effect.awaited (hsha : Sha256CollisionFree) (he : Effect I n n') (hI : ¬ I.reorg)
    (href : Refines n.store chain) (h : Awaited n p) : Awaited n' p := by
  rcases h with hreached | hheld
  · obtain ⟨more, hmore⟩ := he.grows hI href
    refine .inl (hreached.trans ?_)
    rw [href.height, hmore.height, List.length_append]
    omega
  cases he with
  | quiet hq => exact Awaited.of_core_eq (.inr hheld) hq.core_eq
  | timeout hI htime hcore => exact Awaited.of_core_eq (.inr hheld) hcore
  | adopt q hq hval =>
    refine .inr ?_
    rw [proposals_adopt, Std.ExtTreeMap.getElem?_insert]
    by_cases hsame : q.proposalHash = p.proposalHash
    · obtain rfl := proposalHash_injective hsha hsame
      simp
    · rw [if_neg (by simpa using hsame), hheld]
  | commit c hsrc hval st happ =>
    obtain ⟨hext, hst⟩ := href.append_ok happ
    unfold Awaited
    rw [store_announceCommit, proposals_announceCommit, Std.ExtTreeMap.getElem?_erase]
    by_cases hsame : c.proposal.proposalHash = p.proposalHash
    · -- the block is the one that was waited for
      refine .inl ?_
      obtain rfl := proposalHash_injective hsha hsame
      have hheight : c.proposal.height.toInt = chain.length := hext.height_eq
      rw [hheight, hst.height, List.length_append, List.length_singleton]
      push_cast
      omega
    · exact .inr (by rw [if_neg (by simpa using hsame), hheld])
  | twin c hsrc hval e happ hcom =>
    refine .inr ?_
    rw [proposals_settleTwin]
    exact hheld
  | cut hr => exact absurd hr hI
  | resettle hr => exact absurd hr hI
  | pend | evict | emit | file | learn | queue | unqueue | requeue | reject => exact .inr hheld

/-- Without a reorganisation a block that is awaited stays so. -/
theorem Effects.awaited (hsha : Sha256CollisionFree) (he : Effects I n n') (hI : ¬ I.reorg)
    (href : Refines n.store chain) (h : Awaited n p) : Awaited n' p := by
  induction he with
  | refl => exact h
  | tail hes he ih =>
    obtain ⟨more, hmore⟩ := Effects.grows hes hI href
    exact Effect.awaited hsha he hI hmore ih

end Awaiting

/-- An effect that announces no block keeps the outstanding proposals, if none is taken in. -/
theorem Effect.proposals_or_calls (he : Effect I n n') (hI : ∀ p, ¬ I.proposals p)
    (hI' : ¬ I.proposes) :
    n'.proposals = n.proposals ∧ n'.listenerCalls = n.listenerCalls ∨
      n.listenerCalls.length < n'.listenerCalls.length := by
  cases he with
  | quiet hq => exact .inl ⟨congrArg Core.proposals hq.core_eq, hq.calls_eq⟩
  | timeout hI htime hcore hview hcalls => exact .inl ⟨congrArg Core.proposals hcore, hcalls⟩
  | adopt p hp hval =>
    rcases hp with ⟨hp, -⟩ | ⟨hp, -⟩
    · exact absurd hp (hI p)
    · exact absurd hp hI'
  | commit c hsrc hval st happ =>
    refine .inr ?_
    rw [listenerCalls_announceCommit]
    simp
  | twin c hsrc hval e happ hcom =>
    rw [settleTwin_eq]
    exact .inl ⟨rfl, rfl⟩
  | pend | evict | emit | file | learn | queue | unqueue | requeue | reject | cut | resettle =>
    exact .inl ⟨rfl, rfl⟩

/-- Without new proposals the held ones stay unless a block is appended. -/
theorem Effects.proposals_or_calls (he : Effects I n n') (hI : ∀ p, ¬ I.proposals p)
    (hI' : ¬ I.proposes) :
    n'.proposals = n.proposals ∧ n'.listenerCalls = n.listenerCalls ∨
      n.listenerCalls.length < n'.listenerCalls.length := by
  induction he with
  | refl => exact .inl ⟨rfl, rfl⟩
  | tail hes he ih =>
    rcases Effect.proposals_or_calls he hI hI' with ⟨hprops, hcalls⟩ | hmore
    · rw [hprops, hcalls]
      exact ih
    · rcases ih with ⟨-, hcalls⟩ | hmore'
      · exact .inr (hcalls ▸ hmore)
      · exact .inr (hmore'.trans hmore)

variable [SerdeReadsBack]

/-- A reorganisation that abandons nothing and is not stranded drops no outstanding proposal
above the head. -/
theorem reconcileChain_awaited [RyuReadsBack] (hsha : Sha256CollisionFree)
    (href : Refines n.store chain) (habandons : ¬ Abandons n peer) (hstranded : ¬ Stranded n peer)
    (h : Awaited n p) : Awaited (n.reconcileChain peer) p := by
  by_cases hin : Enters n peer
  case neg => rwa [reconcileChain_of_not_enters hin]
  rcases h with hreached | hheld
  · exact .inl (hreached.trans (allOrNothing_of_enters href hin hstranded).height_le)
  obtain ⟨k, hk, ha, -, -⟩ := href.commonAncestor (sortedBlocks peer)
  have hcut : (cutNode n peer).proposals = n.proposals ∧
      (cutNode n peer).listenerCalls = n.listenerCalls := by
    unfold cutNode
    split_ifs <;> exact ⟨rfl, rfl⟩
  by_cases hkept : (∃ st, adoptAll n.config.flopsTolerance (incomingOf n peer) (baseOf n peer) =
      some st) ∨ ∃ st, LastRefused n.config.flopsTolerance (incomingOf n peer) (baseOf n peer) st
  · obtain ⟨m, hm, heq⟩ := href.reconcileChain_kept (I := noReorg) hk ha hin hkept fun _ _ => trivial
    have hstart : Awaited (cutNode n peer) p := .inr (hcut.1 ▸ hheld)
    have hdone : Awaited m p := Effects.awaited hsha hm id (href.cut hk ha) hstart
    rw [heq]
    exact hdone
  · -- nothing was announced, so nothing was dropped
    obtain ⟨hadopt, hlast⟩ := not_or.mp hkept
    replace hadopt := Option.eq_none_iff_forall_ne_some.mpr (not_exists.mp hadopt)
    replace hlast := not_exists.mp hlast
    have hsilent := reconcileChain_silent href hin hadopt hlast fun hfirst =>
      habandons ⟨hin, hadopt, hlast, hfirst⟩
    have heff : Effects { Inputs.none with blocks := fun _ => True, reorg := True } n
        (n.reconcileChain peer) := reconcileChain_effects trivial peer fun _ _ => trivial
    rcases Effects.proposals_or_calls heff (fun _ hp => hp) id with ⟨hprops, -⟩ | hmore
    · exact .inr (hprops ▸ hheld)
    · rw [hsilent.calls_eq, hcut.2] at hmore
      exact absurd hmore (lt_irrefl _)

/-- An operation that meets the condition keeps what is awaited. -/
theorem step_awaited [RyuReadsBack] (hsha : Sha256CollisionFree) (hinv : Invariant (core n))
    (hidle : Idle n) {op : Node.Op} (hop : SingleVote n op) (h : Awaited n p) :
    Awaited (n.step op).1 p := by
  obtain ⟨chain, href⟩ := hinv.chain
  replace href : Refines n.store chain := href
  by_cases hfull : ∃ resp, op = .syncResponse resp ∧ ∃ b ∈ resp.blocks, b.height = 0
  · obtain ⟨resp, rfl, hzero⟩ := hfull
    obtain ⟨habandons, hstranded⟩ := hop.response resp rfl hzero
    show Awaited (n.onSyncResponse resp) p
    rw [onSyncResponse_full hzero]
    exact reconcileChain_awaited hsha href habandons hstranded h
  · obtain ⟨m, hm⟩ := step_effects hinv.keyed hidle.outgoing hidle.calls op
    have hdone : Awaited m p := Effects.awaited hsha hm.effects hfull href h
    rw [hm.state]
    exact hdone

/-! ## The votes of an operation -/

omit [SerdeReadsBack] in
/-- Without a proposal nothing is signed. -/
theorem Effect.sharesIn_eq (he : Effect I n n') (hI : ∀ p, ¬ I.proposals p) (hI' : ¬ I.proposes) :
    sharesIn n'.outgoing = sharesIn n.outgoing := by
  cases he with
  | quiet hq =>
    obtain ⟨msgs, hout, hmsgs⟩ := hq.sends
    rw [hout, sharesIn_append, sharesIn_routine hmsgs, List.append_nil]
  | timeout hI htime hcore hview hcalls hout => rw [hout]
  | adopt p hp hval =>
    rcases hp with ⟨hp, -⟩ | ⟨hp, -⟩
    · exact absurd hp (hI p)
    · exact absurd hp hI'
  | emit p hp => exact absurd hp hI'
  | commit c hsrc hval st happ =>
    rw [outgoing_announceCommit, sharesIn_append]
    exact List.append_nil _
  | twin c hsrc hval e happ hcom => rw [settleTwin_eq]
  | pend | evict | file | learn | queue | unqueue | requeue | reject | cut | resettle => rfl

omit [SerdeReadsBack] in
/-- Without new proposals no share is sent. -/
theorem Effects.sharesIn_eq (he : Effects I n n') (hI : ∀ p, ¬ I.proposals p)
    (hI' : ¬ I.proposes) : sharesIn n'.outgoing = sharesIn n.outgoing := by
  induction he with
  | refl => rfl
  | tail _ he ih => exact (Effect.sharesIn_eq he hI hI').trans ih

/-- What was signed on the way from `n` to `n'`: at most one proposal, for the height above
the head and without a sibling, and it is awaited now. -/
def VotesNext (n n' : Node) (shares : List SignatureShare) : Prop :=
  shares = [] ∨ ∃ (p : CheckpointProposal) (share : SignatureShare), shares = [share] ∧
    (share.proposalHash = p.proposalHash ∧ share.height = p.height ∧ share.epoch = p.epoch) ∧
    p.height.toInt = n.store.height + 1 ∧ NoSibling n p ∧ Awaited n' p

/-- The height of a proposal that passes its validation. -/
theorem height_of_valid (href : Refines n.store chain) {seen seen' : Finset String} {tol : Float}
    (hval : validateProposal p n.store seen tol false = .ok seen') :
    p.height.toInt = n.store.height + 1 := by
  rw [((validateProposal_ok_iff_head _ _ _ _).mp hval).1, href.head_height, href.height]

omit [SerdeReadsBack] in
/-- Draining leaves the votes. -/
theorem VotesNext.drain {shares : List SignatureShare} (h : VotesNext n n' shares) :
    VotesNext n n'.drain.1 shares := h

variable [RyuReadsBack]

omit [SerdeReadsBack] in
/-- An attempt to commit a proposal signs nothing, and the proposal stays awaited. -/
theorem maybeCommit_awaited (hsha : Sha256CollisionFree) (href : Refines n.store chain)
    (hheld : n.proposals[p.proposalHash]? = some p) :
    sharesIn (n.maybeCommit p).outgoing = sharesIn n.outgoing ∧ Awaited (n.maybeCommit p) p := by
  have heff : Effects Inputs.none n (n.maybeCommit p) := maybeCommit_effects p hheld trivial
  exact ⟨Effects.sharesIn_eq heff (fun _ hp => hp) id,
    Effects.awaited hsha heff id href (.inr hheld)⟩

/-- A proposal is voted for if it is the next one and has no sibling. -/
theorem onProposal_votesNext (hsha : Sha256CollisionFree) (href : Refines n.store chain)
    (hout : n.outgoing = []) (p : CheckpointProposal) (hfresh : Signs n p → NoSibling n p) :
    VotesNext n (n.onProposal p) (sharesIn (n.onProposal p).outgoing) := by
  rcases onProposal_cases n p with hsame | ⟨hsigns, hnext⟩
  · rw [hsame, hout]
    exact .inl rfl
  obtain ⟨seen, hval⟩ := hsigns.valid
  have hsent : sharesIn (adopted n p).outgoing = [n.signatureShare p] := by
    rw [show (adopted n p).outgoing = _ from outgoing_adopt n p, hout]
    rfl
  have hheld : (adopted n p).proposals[p.proposalHash]? = some p := proposals_adopt_self n p
  have hstore : (adopted n p).store = n.store := store_adopt n p
  refine .inr ⟨p, n.signatureShare p, ?_, ⟨rfl, rfl, rfl⟩, height_of_valid href hval,
    hfresh hsigns, ?_⟩
  · rcases hnext with heq | heq
    · rw [heq, hsent]
    · rw [heq, (maybeCommit_awaited hsha (hstore ▸ href) hheld).1, hsent]
  · rcases hnext with heq | heq
    · rw [heq]
      exact .inr hheld
    · rw [heq]
      exact (maybeCommit_awaited hsha (hstore ▸ href) hheld).2

/-- The node's own proposal has no sibling, since nothing is outstanding at its height. -/
theorem proposeInternal_votesNext (hsha : Sha256CollisionFree) (href : Refines n.store chain)
    (hout : n.outgoing = []) :
    VotesNext n n.proposeInternal (sharesIn n.proposeInternal.outgoing) := by
  rcases proposeInternal_cases n with hq | ⟨head, seen, -, hhead, hnone, hval, heq⟩
  · obtain ⟨msgs, hsent, hmsgs⟩ := hq.sends
    rw [hsent, hout]
    exact .inl (sharesIn_routine hmsgs)
  have hheight := height_of_valid href hval
  obtain ⟨heff, hheld⟩ := proposed_effects (I := Inputs.any) trivial hhead hnone hval trivial
  have hstore := store_proposed n (n.nextProposal head)
  obtain ⟨hshares, hawaited⟩ := maybeCommit_awaited hsha (hstore ▸ href) hheld
  have hheads : head.height = n.store.height := by
    have hlast := href.head_height
    rw [hhead, Option.map_some, Option.getD_some, ← href.height] at hlast
    exact hlast
  rw [heq]
  refine .inr ⟨n.nextProposal head, n.signatureShare (n.nextProposal head), ?_, ⟨rfl, rfl, rfl⟩,
    hheight, ?_, hawaited⟩
  · rw [hshares, outgoing_proposed, hout]
    rfl
  · intro k q hq hqh _
    have hoccupied : n.outstandingAt (head.height + 1) = true := by
      refine outstandingAt_iff.mpr ⟨k, q, hq, ?_⟩
      rw [hqh, hheight, hheads]
    rw [hnone] at hoccupied
    cases hoccupied

/-- An operation with a single vote casts it for a next proposal. -/
theorem step_votesNext (hsha : Sha256CollisionFree) (hinv : Invariant (core n)) (hidle : Idle n)
    {op : Node.Op} (hop : SingleVote n op) :
    VotesNext n (n.step op).1 (sharesIn (n.step op).2.1) := by
  obtain ⟨chain, href⟩ := hinv.chain
  replace href : Refines n.store chain := href
  have hother (m : Node) (hI : ∀ p, ¬ (inputs n op).proposals p) (hI' : ¬ (inputs n op).proposes)
      (heff : Effects (inputs n op) n m) : sharesIn m.outgoing = [] := by
    rw [Effects.sharesIn_eq heff hI hI', hidle.outgoing]
    rfl
  cases op with
  | submitClaim s =>
    exact .inl (hother _ (by simp [inputs]) (by simp [inputs]) (submitClaim_effects s (.inl rfl)))
  | receive topic msg =>
    by_cases hproposal : ∃ p, topic = Topics.proposals ∧ msg = .proposalMessage p
    · obtain ⟨p, rfl, rfl⟩ := hproposal
      exact (onProposal_votesNext hsha href hidle.outgoing p (hop.proposal p rfl)).drain
    · refine .inl (hother _ ?_ (by simp [inputs]) (receive_effects hinv.keyed topic msg))
      intro p hp
      cases hp
      exact hproposal ⟨p, rfl, rfl⟩
  | syncRequest req =>
    exact .inl (hother _ (by simp [inputs]) (by simp [inputs]) (.quiet (quiet_onSyncRequest n req)))
  | syncResponse resp =>
    exact .inl (hother _ (by simp [inputs]) (by simp [inputs]) (onSyncResponse_effects resp))
  | proposeNow => exact (proposeInternal_votesNext hsha href hidle.outgoing).drain
  | tick =>
    obtain ⟨m, hm, hcore, -, ⟨-, -, hmsgs⟩ | ⟨-, htick, -, beat, hmsgs, hbeat⟩⟩ :=
      tick_cases hidle.outgoing hidle.calls
    · refine .inl (sharesIn_routine fun e he => ?_)
      by_contra hno
      exact hmsgs e hno he
    · show VotesNext n n.tick.1 (sharesIn n.tick.2.1)
      have hstore : m.store = n.store := congrArg Core.store hcore
      have hproposals : m.proposals = n.proposals := congrArg Core.proposals hcore
      have hempty : m.outgoing = [] := hm ▸ rfl
      have hnext := (proposeInternal_votesNext hsha (hstore ▸ href) hempty).drain
      rw [hmsgs, sharesIn_append, sharesIn_routine hbeat, List.nil_append, htick]
      generalize m.proposeInternal.drain.1 = m' at hnext ⊢
      unfold VotesNext NoSibling at hnext ⊢
      rw [← hstore, ← hproposals]
      exact hnext

/-! ## Runs -/

/-- The votes of a run agree with each other and with what is awaited at its start. -/
theorem votesOf_consistent (hsha : Sha256CollisionFree) {ops : List Node.Op}
    (hn : Node.Reachable n) (hops : Along SingleVote n ops) :
    (∀ s ∈ votesOf n ops, ∀ p, Awaited n p → p.height = s.height → p.epoch = s.epoch →
      p.proposalHash = s.proposalHash) ∧ SignsOnce (votesOf n ops) := by
  induction ops generalizing n with
  | nil => exact ⟨by simp [votesOf], by simp [votesOf, SignsOnce]⟩
  | cons op ops ih =>
    obtain ⟨hop, hrest⟩ := hops
    obtain ⟨hinv, hidle⟩ := reachable_idle hn
    obtain ⟨hlater, hone⟩ := ih (hn.step op) hrest
    have hkeep (p : CheckpointProposal) (hp : Awaited n p) : Awaited (n.step op).1 p :=
      step_awaited hsha hinv hidle hop hp
    rcases step_votesNext hsha hinv hidle hop with
      hnone | ⟨p, share, hshare, ⟨hhash, hheight, hepoch⟩, hnext, hfresh, hawaited⟩
    · rw [votesOf, hnone, List.nil_append]
      exact ⟨fun s hs p hp => hlater s hs p (hkeep p hp), hone⟩
    rw [votesOf, hshare, List.singleton_append]
    -- a later vote agrees with the one of this operation, since its proposal is awaited
    have hagree (s : SignatureShare) (hs : s ∈ votesOf (n.step op).1 ops)
        (hsheight : share.height = s.height) (hsepoch : share.epoch = s.epoch) :
        share.proposalHash = s.proposalHash := by
      rw [hhash]
      exact hlater s hs p hawaited (hheight ▸ hsheight) (hepoch ▸ hsepoch)
    refine ⟨?_, ?_⟩
    · intro s hs q hq hqheight hqepoch
      rcases List.mem_cons.mp hs with rfl | hs
      · -- the chain has not reached the height yet, so the awaited proposal is outstanding
        rw [hheight] at hqheight
        rw [hepoch] at hqepoch
        rcases hq with hreached | hheld
        · rw [hqheight] at hreached
          omega
        · rw [hhash]
          exact hfresh _ q hheld hqheight hqepoch
      · exact hlater s hs q (hkeep q hq) hqheight hqepoch
    · intro s hs t ht hst hst'
      rcases List.mem_cons.mp hs with rfl | hearlier
      · rcases List.mem_cons.mp ht with rfl | hlate
        · rfl
        · exact hagree t hlate hst hst'
      · rcases List.mem_cons.mp ht with rfl | hlate
        · exact (hagree s hearlier hst.symm hst'.symm).symm
        · exact hone s hearlier t hlate hst hst'

/-- **One vote per height and epoch.**  In every run from a reachable state whose operations
all meet the condition, the node signs no two proposals with different hashes for the same
height and epoch. -/
theorem one_vote (hsha : Sha256CollisionFree) (hn : Node.Reachable n) (ops : List Node.Op)
    (hops : Along SingleVote n ops) : SignsOnce (votesOf n ops) :=
  (votesOf_consistent hsha hn hops).2

end Exodus.Analysis

namespace Exodus.Analysis

open Exodus.Library Exodus.Model Exodus.Interface Exodus.Sample

/-- A node on genesis that takes `b` for the sealer of every other view and does not seal its
own view. -/
structure Listening (n : Node) : Prop where
  refines : Refines n.store [genesisCheckpoint]
  config_eq : n.config = config
  committed_eq : n.committedClaimIds = ∅
  elected : ∀ k : Int64, k.toInt % 2 = 1 → n.sealerForView k = Signer.b.nodeId
  waits : n.sealerForView n.view ≠ n.nodeId
  outgoing_eq : n.outgoing = []

/-- A proposal that `b` may make on genesis. -/
structure OfB (p : CheckpointProposal) : Prop where
  passes : ProposalPasses tolerance [genesisCheckpoint] ∅ false p
  height_eq : p.height = 1
  sealer : p.sealedBy = Signer.b.nodeId
  odd : p.epoch.toInt % 2 = 1

/-- The node `a` beside `b`. -/
noncomputable def besideB : Node := ready .a [.b] "t2" 1 3 0.0

/-- The node that has heard of `b` can be reached. -/
theorem besideB_reachable : Node.Reachable besideB := ready_reachable .a [.b] "t2" (by decide)

/-- It takes proposals of `b`. -/
theorem besideB_listens : Listening besideB := by
  have hready : Waiting .a besideB := ready_waiting .a [.b] "t2" 1 3 0.0
  have helected (k : Int64) (hk : k.toInt % 2 = 1) :
      besideB.sealerForView k = Signer.b.nodeId := by
    have hlength : (([.b] : List Signer).length + 1 : ℕ) = ((2 : ℕ) : ℤ) := rfl
    rw [besideB, sealerForView_ready .a [.b] "t2" 1 3 0.0 (by decide) k, hlength]
    rw [show k.toInt % ((2 : ℕ) : ℤ) = 1 from hk]
    rfl
  exact ⟨hready.refines, rfl, rfl, helected,
    fun heq => absurd ((helected 1 rfl).symm.trans heq) (by decide), rfl⟩

/-- It still does after it has signed one. -/
theorem Listening.takesIn {n : Node} (h : Listening n) (p : CheckpointProposal) :
    Listening (adopted n p).drain.1 := by
  have hcore := core_adopt n p
  have hsealer (view : Int64) : (adopted n p).sealerForView view = n.sealerForView view :=
    sealerForView_adopt n p view
  have hview : (adopted n p).view = n.view := view_adopt n p
  have hid : (adopted n p).nodeId = n.nodeId := congrArg Core.nodeId hcore
  have hstore : (adopted n p).store = n.store := store_adopt n p
  have hwaits : (adopted n p).sealerForView (adopted n p).view ≠
      (adopted n p).nodeId := by
    rw [hsealer, hview, hid]
    exact h.waits
  exact ⟨hstore ▸ h.refines, (congrArg Core.config hcore).trans h.config_eq,
    (congrArg Core.committedClaimIds hcore).trans h.committed_eq,
    fun k hk => (hsealer k).trans (h.elected k hk), hwaits, rfl⟩

/-- Such a node signs a proposal of `b` that it has not seen, and listens on. -/
theorem Listening.signs {n : Node} {p : CheckpointProposal} (h : Listening n) (hp : OfB p)
    (hnew : n.proposals.contains p.proposalHash = false) (hunsigned : p.proposalHash ∉ n.signed) :
    n.step (.receive Topics.proposals (.proposalMessage p)) = (adopted n p).drain ∧
      sharesIn (n.step (.receive Topics.proposals (.proposalMessage p))).2.1 =
        [n.signatureShare p] ∧
      Listening (adopted n p).drain.1 := by
  have hval : ∃ seen, validateProposal p n.store n.committedClaimIds n.config.flopsTolerance
      false = .ok seen := by
    rw [h.committed_eq, h.config_eq]
    exact ⟨_, (h.refines.validateProposal_ok_iff _ _ _ _).mpr ⟨hp.passes, rfl⟩⟩
  have habove : ∀ head ∈ n.store.head, head.height < p.height.toInt := by
    intro head hhead
    have hheight := h.refines.head_height
    rw [show n.store.head = some head from hhead, Option.map_some, Option.getD_some] at hheight
    rw [hheight, hp.height_eq]
    decide
  have hstep : n.onProposal p = adopted n p :=
    Signs.onProposal_waits ⟨hnew, hunsigned, habove, hp.sealer.trans (h.elected _ hp.odd).symm,
      hval⟩ h.waits
  refine ⟨?_, ?_, h.takesIn p⟩
  · rw [step_receive_proposal, hstep]
  · rw [step_receive_proposal, hstep]
    show sharesIn (adopted n p).outgoing = _
    rw [show (adopted n p).outgoing = _ from outgoing_adopt n _, h.outgoing_eq]
    rfl

/-- Two proposals that come one after the other are both signed. -/
theorem Listening.votesOf_eq {n : Node} {p q : CheckpointProposal} (h : Listening n)
    (hproposals : n.proposals = ∅) (hsigned : n.signed = ∅) (hp : OfB p) (hq : OfB q)
    (hne : p.proposalHash ≠ q.proposalHash) :
    n.step (.receive Topics.proposals (.proposalMessage p)) = (adopted n p).drain ∧
      (adopted n p).drain.1.proposals =
        (∅ : HashMap CheckpointProposal).insert p.proposalHash p ∧
      votesOf n [.receive Topics.proposals (.proposalMessage p),
        .receive Topics.proposals (.proposalMessage q)] =
      [n.signatureShare p, (adopted n p).drain.1.signatureShare q] := by
  have hnone : n.proposals.contains p.proposalHash = false := by
    rw [hproposals]
    exact Std.ExtTreeMap.contains_empty
  obtain ⟨hstep, hsent, hlistens⟩ := h.signs hp hnone (hsigned ▸ Finset.notMem_empty _)
  have hcore := core_adopt n p
  have hheld : (adopted n p).drain.1.proposals =
      (∅ : HashMap CheckpointProposal).insert p.proposalHash p := by
    rw [show (adopted n p).drain.1.proposals = _ from congrArg Core.proposals hcore, hproposals]
  have hnew : (adopted n p).drain.1.proposals.contains q.proposalHash = false := by
    rw [hheld, Std.ExtTreeMap.contains_insert, Std.ExtTreeMap.contains_empty, Bool.or_false]
    simpa using hne
  have hunsigned : q.proposalHash ∉ (adopted n p).drain.1.signed := by
    rw [show (adopted n p).drain.1.signed = _ from congrArg Core.signed hcore, hsigned]
    simpa using hne.symm
  obtain ⟨-, hsent', -⟩ := hlistens.signs hq hnew hunsigned
  refine ⟨hstep, hheld, ?_⟩
  rw [votesOf, hsent, hstep, votesOf, hsent', votesOf]
  rfl

/-- The first proposal as the node `b` could have made it at another time. -/
def variant (time : String) : CheckpointProposal := { firstProposal with createdAt := time }

/-- The variants of the first proposal are of `b`. -/
theorem variant_ofB (time : String) : OfB (variant time) := by
  have hclaims : ClaimsPass tolerance 0 ∅ [firstClaim.signed] :=
    claimsPass_singleton (by simp [claims]) rfl (by decide)
  have hepoch : 0 < firstProposal.epoch.toInt := by decide
  exact ⟨proposalPasses_on_genesis rfl rfl hepoch (by simp [variant, firstProposal]) hclaims, rfl,
    rfl, rfl⟩

/-- So is the proposal of the last epoch. -/
theorem lastEpoch_ofB : OfB lastEpochProposal := by
  rcases lastEpoch_follows.passes with hg | ⟨-, hpasses, -⟩
  · exact absurd hg (by decide)
  · exact ⟨hpasses, rfl, rfl, by decide⟩

/-- The node `a` signs two proposals of `b` for height 1, in two epochs. -/
theorem one_vote_two_epochs :
    (votesOf besideB [.receive Topics.proposals (.proposalMessage firstProposal),
        .receive Topics.proposals (.proposalMessage lastEpochProposal)]).map
          SignatureShare.epoch = [1, Int64.maxValue] ∧
      SignsOnce (votesOf besideB [.receive Topics.proposals (.proposalMessage firstProposal),
        .receive Topics.proposals (.proposalMessage lastEpochProposal)]) := by
  have hne : firstProposal.proposalHash ≠ lastEpochProposal.proposalHash := by
    rw [first_proposalHash, lastEpoch_proposalHash]
    decide
  have hfirst : OfB firstProposal := variant_ofB "t1"
  obtain ⟨hstep, hheld, hvotes⟩ := besideB_listens.votesOf_eq rfl rfl hfirst lastEpoch_ofB hne
  refine ⟨by rw [hvotes]; rfl,
    one_vote sha256_injective besideB_reachable _ ⟨⟨?_, by simp⟩, ⟨?_, by simp⟩, trivial⟩⟩
  · intro p _ _ k q hq
    rw [show besideB.proposals = ∅ from rfl] at hq
    simp at hq
  · intro p hop _ k q hq _ hepoch
    obtain rfl : lastEpochProposal = p := by simpa using hop
    rw [hstep, hheld, Std.ExtTreeMap.getElem?_insert] at hq
    -- the only proposal that is outstanding is of the first epoch
    split_ifs at hq
    · obtain rfl := Option.some.inj hq
      exact absurd hepoch (by decide)
    · simp at hq

/-- The share for a variant is for its hash, at height and epoch 1. -/
theorem share_variant (n : Node) (time : String) :
    (n.signatureShare (variant time)).proposalHash = (variant time).proposalHash ∧
      (n.signatureShare (variant time)).height = 1 ∧ (n.signatureShare (variant time)).epoch = 1 :=
  ⟨rfl, rfl, rfl⟩

/-- The node `a` signs two proposals of `b` for height 1 and epoch 1. -/
theorem first_and_variant_signed :
    Node.Reachable besideB ∧
      ¬ SignsOnce (votesOf besideB [.receive Topics.proposals (.proposalMessage (variant "t1")),
        .receive Topics.proposals (.proposalMessage (variant "t3"))]) := by
  have hne : (variant "t1").proposalHash ≠ (variant "t3").proposalHash := by
    intro heq
    exact absurd (congrArg CheckpointProposal.createdAt
      (proposalHash_injective sha256_injective heq)) (by decide)
  obtain ⟨-, -, hvotes⟩ := besideB_listens.votesOf_eq rfl rfl (variant_ofB "t1")
    (variant_ofB "t3") hne
  obtain ⟨hhash, hheight, hepoch⟩ := share_variant besideB "t1"
  obtain ⟨hhash', hheight', hepoch'⟩ := share_variant (adopted besideB (variant "t1")).drain.1 "t3"
  refine ⟨besideB_reachable, fun hone => hne ?_⟩
  rw [hvotes] at hone
  rw [← hhash, ← hhash']
  exact hone _ List.mem_cons_self _ (List.mem_cons_of_mem _ List.mem_cons_self)
    (hheight.trans hheight'.symm) (hepoch.trans hepoch'.symm)

end Exodus.Analysis
