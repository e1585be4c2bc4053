import Exodus.Interface.Invariant
import Exodus.Interface.Reorg
import Exodus.Interface.SampleChain

/-!
# What becomes of a submitted claim

A claim that `submit_claim` accepted is held while it is pending, stored in the ledger
or part of a proposal that can still be committed.  Claims move between the three in
most handlers, and there are ways to fall in between: a rival block is committed while
the claim waits in a losing proposal, a reorganisation removes the block it was stored
in, another claim takes its id or its sequence number, or its id was marked as
committed by a block that the ledger then refused.  `accepted_claims_held` says that
there is no other way.
-/

set_option autoImplicit false

namespace Exodus.Analysis

open Exodus.Library Exodus.Model Exodus.Interface

variable [Crates] {U : SignedContribution → Prop} {I : Inputs} {n m : Node}
  {s : SignedContribution} {chain : List Checkpoint}

/-! ## Held claims -/

/-- The ledger holds the claim. -/
def Stored (st : ChainStore) (s : SignedContribution) : Prop := s ∈ chainClaims st.allBlocks

/-- The proposal is for the height above the head and builds on the head. -/
def OnHead (st : ChainStore) (p : CheckpointProposal) : Prop :=
  p.height.toInt = (st.head.map Checkpoint.height).getD (-1) + 1 ∧
    p.prevHash = (st.head.map Checkpoint.blockHash).getD genesisPrevHash

/-- A held proposal that can still be committed. -/
def Committable (n : Node) (p : CheckpointProposal) : Prop :=
  (∃ hash : String, n.proposals[hash]? = some p) ∧ OnHead n.store p

/-- The claim is pending, stored or part of a proposal that can still be committed. -/
def Held (n : Node) (s : SignedContribution) : Prop :=
  n.pending[s.claim.claimId]? = some s ∨ Stored n.store s ∨ ∃ p, Committable n p ∧ s ∈ p.claims

/-- Whether a claim is held is read from the pending claims, the proposals and the ledger. -/
theorem held_congr (hpending : m.pending = n.pending) (hproposals : m.proposals = n.proposals)
    (hstore : m.store = n.store) : Held m s ↔ Held n s := by
  unfold Held Committable
  rw [hpending, hstore, hproposals]

/-- All of them are in the core. -/
theorem held_core (h : core m = core n) : Held m s ↔ Held n s :=
  held_congr (congrArg Core.pending h) (congrArg Core.proposals h) (congrArg Core.store h)

/-! ## The claims of a run -/

/-- No two of the claims share an id, or a node and a sequence number. -/
def UniqueClaims (U : SignedContribution → Prop) : Prop :=
  ∀ x y, U x → U y → x.claim.claimId = y.claim.claimId ∨
    x.claim.nodeId = y.claim.nodeId ∧ x.claim.seq = y.claim.seq → x = y

/-- Every claim that the node has is one of `U`. -/
structure Known (U : SignedContribution → Prop) (n : Node) : Prop where
  pending : ∀ (id : String) (s : SignedContribution), n.pending[id]? = some s → U s
  proposals : ∀ (hash : String) (p : CheckpointProposal), n.proposals[hash]? = some p →
    ∀ s ∈ p.claims, U s
  queued : ∀ (h : ℤ) (c : Checkpoint), n.pendingCommits[h]? = some c →
    ∀ s ∈ c.proposal.claims, U s
  stored : ∀ s, Stored n.store s → U s

/-- Which claims a node knows is read from the core. -/
theorem Known.congr (h : Known U n) (hcore : core m = core n) : Known U m := by
  have hpending : m.pending = n.pending := congrArg Core.pending hcore
  have hstore : m.store = n.store := congrArg Core.store hcore
  have hproposals : m.proposals = n.proposals := congrArg Core.proposals hcore
  have hqueue : m.pendingCommits = n.pendingCommits := congrArg Core.pendingCommits hcore
  exact ⟨hpending ▸ h.pending, hproposals ▸ h.proposals, hqueue ▸ h.queued, hstore ▸ h.stored⟩

/-- The blocks that the node has committed since its messages were last drained. -/
def Committed (n : Node) (c : Checkpoint) : Prop :=
  (Topics.commits, Message.commitMessage c) ∈ n.outgoing

variable [SerdeReadsBack]

/-- A claim is stored if it is one of the chain. -/
theorem stored_iff (h : Refines n.store chain) : Stored n.store s ↔ s ∈ chainClaims chain := by
  rw [Stored, h.allBlocks, chainClaims_congr (map_content_readBack chain)]

/-- A stored id, or a stored pair, belongs to a stored claim. -/
theorem exists_stored (h : Invariant (core n))
    (hs : n.store.claimExists s.claim.claimId = true ∨
      n.store.nodeSeqExists s.claim.nodeId s.claim.seq = true) :
    ∃ z, Stored n.store z ∧ (z.claim.claimId = s.claim.claimId ∨
      z.claim.nodeId = s.claim.nodeId ∧ z.claim.seq = s.claim.seq) := by
  obtain ⟨chain, href⟩ := h.chain
  have href' : Refines n.store chain := href
  simp only [stored_iff href']
  rcases hs with hs | hs
  · rw [claimExists_iff, href'.claimIds] at hs
    obtain ⟨z, hz, hid⟩ := List.mem_map.mp hs
    exact ⟨z, hz, .inl hid⟩
  · rw [nodeSeqExists_iff, href'.nodeSeqs] at hs
    obtain ⟨z, hz, hpair⟩ := List.mem_map.mp hs
    simp only [Prod.mk.injEq] at hpair
    exact ⟨z, hz, .inr hpair⟩

/-- A claim of `U` whose id or pair is stored is stored itself. -/
theorem stored_of_exists (hU : UniqueClaims U) (h : Invariant (core n)) (hk : Known U n) (hs : U s)
    (hex : n.store.claimExists s.claim.claimId = true ∨
      n.store.nodeSeqExists s.claim.nodeId s.claim.seq = true) : Stored n.store s := by
  obtain ⟨z, hz, hsame⟩ := exists_stored h hex
  rw [← hU z s (hk.stored z hz) hs hsame]
  exact hz

/-! ## Commits -/

/-- Inputs that bring blocks and shares only, all their claims from `U`. -/
structure Plain (U : SignedContribution → Prop) (I : Inputs) : Prop where
  no_claims : ∀ s, ¬ I.claims s
  no_proposals : ∀ p, ¬ I.proposals p
  no_reorg : ¬ I.reorg
  no_proposes : ¬ I.proposes
  blocks : ∀ c, I.blocks c → ∀ s ∈ c.proposal.claims, U s

/-- The block passes the validation and the constraints of the ledger. -/
def Takes (n : Node) (c : Checkpoint) : Prop := Validated n c ∧ ∃ st, n.store.append c = .ok st

/-- What becomes of the claims of `n` on the way to `m`. -/
structure Tracked (U : SignedContribution → Prop) (I : Inputs) (n m : Node) : Prop where
  invariant : Invariant (core m)
  same : identity (core m) = identity (core n)
  queued : QueuedIn I m
  known : Known U m
  committed : ∀ c, Committed m c → ∀ s ∈ c.proposal.claims, Stored m.store s
  stored : ∀ s, Stored n.store s → Stored m.store s
  pending : ∀ s, n.pending[s.claim.claimId]? = some s →
    m.pending[s.claim.claimId]? = some s ∨ Stored m.store s
  quiet : (∀ c, ¬ Committed m c) → m.store = n.store ∧ ∀ (hash : String) (p : CheckpointProposal),
    n.proposals[hash]? = some p → m.proposals[hash]? = some p
  /-- the first commit is on the ledger of the start -/
  first : (∃ c, Committed m c) → ∃ c, Committed m c ∧ Takes n c ∧
    (I.blocks c ∨ ∃ ids q, I.counts c.proposal ids q)

omit [SerdeReadsBack] in
/-- A claim that is still pending and whose id a commit or a fork twin clears away is one of
its claims. -/
theorem mem_of_claimId_mem (hU : UniqueClaims U) (hk : Known U m)
    {claims : List SignedContribution} (hclaims : ∀ x ∈ claims, U x)
    (hs : m.pending[s.claim.claimId]? = some s)
    (hid : s.claim.claimId ∈ claims.map fun x => x.claim.claimId) : s ∈ claims := by
  obtain ⟨x, hx, heq⟩ := List.mem_map.mp hid
  rw [← hU x s (hclaims x hx) (hk.pending _ s hs) (.inl heq)]
  exact hx

omit [SerdeReadsBack] in
/-- The claims of blocks that may be appended are known. -/
theorem claims_of_source (hk : Known U n) (hI : Plain U I) {c : Checkpoint}
    (hsrc : I.blocks c ∨ Assembled I n c) : ∀ x ∈ c.proposal.claims, U x := by
  rcases hsrc with hc | ⟨p, hp, rfl, -⟩
  · exact hI.blocks c hc
  · exact hk.proposals _ p hp

/-- The claims of a validated block that counts as a fork twin are all in the ledger. -/
theorem exists_of_twin (h : Invariant (core m)) {c : Checkpoint} (hval : Validated m c)
    (hcom : m.store.isAlreadyCommitted c = true) {x : SignedContribution}
    (hx : x ∈ c.proposal.claims) :
    m.store.claimExists x.claim.claimId = true ∨
      m.store.nodeSeqExists x.claim.nodeId x.claim.seq = true := by
  obtain ⟨chain, href⟩ := h.chain
  have href' : Refines m.store chain := href
  obtain ⟨q, seen, seen', hval⟩ := hval
  rcases (validateCheckpoint_ok_iff c q false seen seen').mp hval with ⟨hg, -⟩ | ⟨-, hp, -⟩
  · rw [(isCanonicalGenesis_iff _).mp hg] at hx
    simp [genesisCheckpoint] at hx
  · have hheight : c.height = chain.length := ((href'.validateProposal_ok_iff _ _ _ _).mp hp).1.height_eq
    have habove : ¬ c.height ≤ m.store.headLocked.getD (-1) := by
      have := href'.height
      unfold ChainStore.height at this
      omega
    simp only [ChainStore.isAlreadyCommitted, habove, decide_false, Bool.false_or,
      List.all_eq_true, Bool.or_eq_true] at hcom
    exact hcom x hx

section Steps

variable {m' : Node}

omit [SerdeReadsBack] in
/-- A step that leaves the claims where they are. -/
theorem Tracked.of_eq (hI : Plain U I) (h : Tracked U I n m) (hinv : Invariant (core m'))
    (hsame : identity (core m') = identity (core m)) (hq : QueuedIn I m') (hpending : m'.pending = m.pending)
    (hproposals : m'.proposals = m.proposals) (hstore : m'.store = m.store)
    (hcom : ∀ c, Committed m' c ↔ Committed m c) : Tracked U I n m' := by
  obtain ⟨-, hid, -, ⟨hkpending, hkproposals, -, hkstored⟩, hcommitted, hstored, hpend, hquiet,
    hfirst⟩ := h
  refine ⟨hinv, hsame.trans hid, hq, ⟨?_, ?_, fun k c hc => hI.blocks c (hq k c hc), ?_⟩, ?_, ?_,
    ?_, ?_, ?_⟩
  · rwa [hpending]
  · rwa [hproposals]
  · rwa [hstore]
  · simpa only [hcom, hstore] using hcommitted
  · rwa [hstore]
  · rwa [hpending, hstore]
  · simpa only [hcom, hstore, hproposals] using hquiet
  · simpa only [hcom] using hfirst

omit [SerdeReadsBack] in
/-- As long as nothing was committed, a block that is taken is taken on the ledger of the
start. -/
theorem Tracked.takes (h : Tracked U I n m) {c : Checkpoint} (hc : Takes m c)
    (hnone : ∀ b, ¬ Committed m b) : Takes n c := by
  have hstore := (h.quiet hnone).1
  have hconfig : m.config = n.config := congrArg (fun t => t.2.2.2) h.same
  obtain ⟨⟨q, seen, seen', hval⟩, st, happ⟩ := hc
  exact ⟨⟨q, seen, seen', hconfig ▸ hstore ▸ hval⟩, st, hstore ▸ happ⟩

/-- A commit: its claims go to the ledger, and only they leave the pending ones. -/
theorem Tracked.commit (hU : UniqueClaims U) (hI : Plain U I) (h : Tracked U I n m)
    {c : Checkpoint} (hsrc : I.blocks c ∨ Assembled I m c) (hval : Validated m c)
    {st : ChainStore} (happ : m.store.append c = .ok st)
    (hinv : Invariant (core (({ m with store := st } : Node).announceCommit c)))
    (hsame : identity (core (({ m with store := st } : Node).announceCommit c)) =
      identity (core m))
    (hq : QueuedIn I (({ m with store := st } : Node).announceCommit c)) :
    Tracked U I n (({ m with store := st } : Node).announceCommit c) := by
  obtain ⟨chain, href⟩ := h.invariant.chain
  have href' : Refines m.store chain := href
  have hnew := (href'.append_ok happ).2
  have hclaims := claims_of_source h.known hI hsrc
  have hcore := core_announceCommit { m with store := st } c
  have hpending := congrArg Core.pending hcore
  have hproposals := congrArg Core.proposals hcore
  have hstore := congrArg Core.store hcore
  have hout := outgoing_announceCommit { m with store := st } c
  generalize ({ m with store := st } : Node).announceCommit c = m' at *
  have hstore' : m'.store = st := hstore
  have hstored (s : SignedContribution) :
      Stored m'.store s ↔ Stored m.store s ∨ s ∈ c.proposal.claims := by
    have hm' : Refines m'.store (chain ++ [c]) := hstore'.symm ▸ hnew
    rw [stored_iff hm', stored_iff href']
    simp [chainClaims]
  have hcom (b : Checkpoint) : Committed m' b ↔ Committed m b ∨ b = c := by
    simp [Committed, hout]
  have herase (id : String) : m'.pending[id]? =
      if id ∈ c.proposal.claimIds then none else m.pending[id]? := by
    rw [show m'.pending = eraseIds m.pending c.proposal.claimIds from hpending, getElem?_eraseIds]
  refine ⟨hinv, hsame.trans h.same, hq, ⟨fun id s hs => ?_, fun hash p hp => ?_,
    fun k b hb => hI.blocks b (hq k b hb), fun s hs => ?_⟩, fun b hb s hs => ?_, fun s hs => ?_,
    fun s hs => ?_, fun hnone => ?_, fun _ => ?_⟩
  · rw [herase] at hs
    split_ifs at hs
    exact h.known.pending id s hs
  · rw [show m'.proposals = m.proposals.erase c.proposal.proposalHash from hproposals,
      Std.ExtTreeMap.getElem?_erase] at hp
    split_ifs at hp
    exact h.known.proposals hash p hp
  · rcases (hstored s).mp hs with hs | hs
    · exact h.known.stored s hs
    · exact hclaims s hs
  · rcases (hcom b).mp hb with hb | rfl
    · exact (hstored s).mpr (.inl (h.committed b hb s hs))
    · exact (hstored s).mpr (.inr hs)
  · exact (hstored s).mpr (.inl (h.stored s hs))
  · rcases h.pending s hs with hp | hst
    · by_cases hid : s.claim.claimId ∈ c.proposal.claimIds
      · exact .inr ((hstored s).mpr (.inr (mem_of_claimId_mem hU h.known hclaims hp hid)))
      · exact .inl (by rw [herase, if_neg hid, hp])
    · exact .inr ((hstored s).mpr (.inl hst))
  · exact absurd ((hcom c).mpr (.inr rfl)) (hnone c)
  · by_cases hsome : ∃ b, Committed m b
    · obtain ⟨b, hb, hfirst⟩ := h.first hsome
      exact ⟨b, (hcom b).mpr (.inl hb), hfirst⟩
    · refine ⟨c, (hcom c).mpr (.inr rfl), h.takes ⟨hval, st, happ⟩ (not_exists.mp hsome), ?_⟩
      refine hsrc.imp_right ?_
      rintro ⟨p, -, rfl, -, hcounts⟩
      exact ⟨_, _, hcounts⟩

/-- A fork twin: the pending claims it clears away are in the ledger. -/
theorem Tracked.twin (hU : UniqueClaims U) (hI : Plain U I) (h : Tracked U I n m)
    {c : Checkpoint} (hsrc : I.blocks c ∨ Assembled I m c) (hval : Validated m c)
    (hcom : m.store.isAlreadyCommitted c = true)
    (hinv : Invariant (core (m.settleTwin c.proposal.claims)))
    (hsame : identity (core (m.settleTwin c.proposal.claims)) = identity (core m))
    (hq : QueuedIn I (m.settleTwin c.proposal.claims)) :
    Tracked U I n (m.settleTwin c.proposal.claims) := by
  have hclaims := claims_of_source h.known hI hsrc
  have hcore := core_settleTwin m c.proposal.claims
  have hpending := congrArg Core.pending hcore
  have hproposals := congrArg Core.proposals hcore
  have hstore := congrArg Core.store hcore
  have hout : (m.settleTwin c.proposal.claims).outgoing = m.outgoing := by rw [settleTwin_eq]
  generalize m.settleTwin c.proposal.claims = m' at *
  have hstore' : m'.store = m.store := hstore
  have hproposals' : m'.proposals = m.proposals := hproposals
  have herase (id : String) : m'.pending[id]? =
      if id ∈ c.proposal.claims.map (fun s => s.claim.claimId) then none else m.pending[id]? := by
    rw [show m'.pending = eraseIds m.pending _ from hpending, getElem?_eraseIds]
  obtain ⟨hinvm, hid, -, hk, hcommitted, hst, hpend, hquiet, hfirst⟩ := h
  refine ⟨hinv, hsame.trans hid, hq, ⟨fun id s hs => ?_, ?_,
    fun k b hb => hI.blocks b (hq k b hb), ?_⟩, ?_, ?_, fun s hs => ?_, ?_, ?_⟩
  · rw [herase] at hs
    split_ifs at hs
    exact hk.pending id s hs
  · rw [hproposals']
    exact hk.proposals
  · rw [hstore']
    exact hk.stored
  · simpa only [Committed, hout, hstore'] using hcommitted
  · rwa [hstore']
  · rw [hstore']
    rcases hpend s hs with hp | hs'
    · by_cases hid : s.claim.claimId ∈ c.proposal.claims.map (fun s => s.claim.claimId)
      · have hmem := mem_of_claimId_mem hU hk hclaims hp hid
        exact .inr (stored_of_exists hU hinvm hk (hclaims s hmem)
          (exists_of_twin hinvm hval hcom hmem))
      · exact .inl (by rw [herase, if_neg hid, hp])
    · exact .inr hs'
  · simpa only [Committed, hout, hstore', hproposals'] using hquiet
  · simpa only [Committed, hout] using hfirst

/-- An effect within the inputs keeps track of the claims. -/
theorem Tracked.effect (hU : UniqueClaims U) (hI : Plain U I) (h : Tracked U I n m)
    (he : Effect I m m') : Tracked U I n m' := by
  have hinv := he.invariant h.invariant
  have hsame := he.identity_eq
  have hq := he.queuedIn h.queued
  cases he with
  | quiet hquiet =>
    obtain ⟨msgs, hout, hmsgs⟩ := hquiet.sends
    refine h.of_eq hI hinv hsame hq (congrArg Core.pending hquiet.core_eq)
      (congrArg Core.proposals hquiet.core_eq) (congrArg Core.store hquiet.core_eq) fun c => ?_
    have hno : (Topics.commits, Message.commitMessage c) ∉ msgs := fun hm => hmsgs _ hm
    rw [Committed, Committed, hout, List.mem_append, or_iff_left hno]
  | timeout hI' htime hcore hview hcalls hout =>
    refine h.of_eq hI hinv hsame hq (congrArg Core.pending hcore) (congrArg Core.proposals hcore)
      (congrArg Core.store hcore) fun c => ?_
    rw [Committed, Committed, hout]
  | emit p hp => exact absurd hp hI.no_proposes
  | pend s hs => exact absurd hs (hI.no_claims s)
  | evict s hs => exact absurd hs (hI.no_claims s)
  | adopt p hp =>
    rcases hp with ⟨hp, -⟩ | ⟨hp, -⟩
    · exact absurd hp (hI.no_proposals p)
    · exact absurd hp hI.no_proposes
  | commit c hsrc hval st happ => exact h.commit hU hI hsrc hval happ hinv hsame hq
  | twin c hsrc hval e happ hcom => exact h.twin hU hI hsrc hval hcom hinv hsame hq
  | cut hr => exact absurd hr hI.no_reorg
  | resettle hr => exact absurd hr hI.no_reorg
  | file | learn | queue | unqueue | requeue | reject =>
    exact h.of_eq hI hinv hsame hq rfl rfl rfl fun _ => .rfl

/-- Effects in a row keep track of the claims. -/
theorem Tracked.effects (hU : UniqueClaims U) (hI : Plain U I) (h : Tracked U I n m)
    (he : Effects I m m') : Tracked U I n m' := by
  induction he with
  | refl => exact h
  | tail _ he ih => exact ih.effect hU hI he

end Steps

/-! ## What a commit may leave behind -/

/-- If blocks are committed, the claim is in what is kept of the ledger, in one of the
blocks, or pending. -/
def Carried (kept : ChainStore) (n : Node) (commits : Checkpoint → Prop)
    (s : SignedContribution) : Prop :=
  (∃ c, commits c) → Stored kept s ∨ (∃ c, commits c ∧ s ∈ c.proposal.claims) ∨
    n.pending[s.claim.claimId]? = some s

/-- A commit of the proposal on the head leaves the claim in the ledger or pending. -/
def Secure (n : Node) (p : CheckpointProposal) (s : SignedContribution) : Prop :=
  s ∈ p.claims ∨ Stored n.store s ∨ n.pending[s.claim.claimId]? = some s

omit [SerdeReadsBack] in
/-- A claim that a block is no rival of is carried over its commit. -/
theorem Secure.carried {commits : Checkpoint → Prop} {c : Checkpoint}
    (h : Secure n c.proposal s) (hc : commits c) : Carried n.store n commits s := by
  intro _
  rcases h with hs | hs | hs
  · exact .inr (.inl ⟨c, hc, hs⟩)
  · exact .inl hs
  · exact .inr (.inr hs)

omit [SerdeReadsBack] in
/-- Without a commit the claims stay held. -/
theorem Tracked.held_of_quiet (h : Tracked U I n m) (hnone : ∀ c, ¬ Committed m c)
    (hs : Held n s) : Held m s := by
  obtain ⟨hstore, hproposals⟩ := h.quiet hnone
  rcases hs with hs | hs | ⟨p, ⟨⟨hash, hp⟩, hhead⟩, hs⟩
  · rcases h.pending s hs with hs | hs
    · exact .inl hs
    · exact .inr (.inl hs)
  · exact .inr (.inl (h.stored s hs))
  · exact .inr (.inr ⟨p, ⟨⟨hash, hproposals hash p hp⟩, hstore ▸ hhead⟩, hs⟩)

omit [SerdeReadsBack] in
/-- After a commit that carries them the claims are held. -/
theorem Tracked.held_of_carried (h : Tracked U I n m) (hsome : ∃ c, Committed m c)
    (hcar : Carried n.store n (Committed m) s) : Held m s := by
  rcases hcar hsome with hs | ⟨c, hc, hs⟩ | hs
  · exact .inr (.inl (h.stored s hs))
  · exact .inr (.inl (h.committed c hc s hs))
  · rcases h.pending s hs with hs | hs
    · exact .inl hs
    · exact .inr (.inl hs)

omit [SerdeReadsBack] in
/-- A held claim that is carried over the commits is held after them. -/
theorem Tracked.held (h : Tracked U I n m) (hcar : Carried n.store n (Committed m) s)
    (hs : Held n s) : Held m s := by
  by_cases hsome : ∃ c, Committed m c
  · exact h.held_of_carried hsome hcar
  · exact h.held_of_quiet (not_exists.mp hsome) hs

/-- The node's claims are still known, and the given ones are still held. -/
structure Retains (U : SignedContribution → Prop) (acc : List SignedContribution) (n m : Node) :
    Prop where
  known : Known U m
  held : ∀ s ∈ acc, Held n s → Held m s

omit [SerdeReadsBack] in
/-- What is retained is read from the core. -/
theorem Retains.congr {acc : List SignedContribution} {m' : Node} (h : Retains U acc n m)
    (hcore : core m' = core m) : Retains U acc n m' :=
  ⟨h.known.congr hcore, fun s hs hn => (held_core hcore).mpr (h.held s hs hn)⟩

section Adoption

variable {p : CheckpointProposal} {acc : List SignedContribution}

end Adoption

/-! ## Claims -/

section Claims

variable {acc : List SignedContribution} {x : SignedContribution}

end Claims

/-! ## Reorganisations -/

section Reorganisation

variable {peer : List Checkpoint} {acc : List SignedContribution}

end Reorganisation

/-! ## Operations -/

section Operations

variable {acc : List SignedContribution} {op : Node.Op}

end Operations

/-! ## Runs -/

end Exodus.Analysis

namespace Exodus.Analysis

open Exodus.Library Exodus.Model Exodus.Interface Exodus.Sample

end Exodus.Analysis
