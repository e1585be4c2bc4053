import Exodus.Interface.Adoption
import Exodus.Interface.Invariant
import Exodus.Interface.SampleChain

/-!
# Delivering a message twice

What a handler leaves behind decides what a second delivery of the same message does.
A proposal that was taken in is marked as signed; a share that led to a commit finds no
proposal any more, and one that did not is filed again with the same outcome; a commit
that was appended is at or below the head, and one that the ledger refused has its
claims among the committed ones, so it fails the validation.
-/

set_option autoImplicit false

namespace Exodus.Analysis

open Exodus.Library Exodus.Model Exodus.Interface

variable {I : Inputs} {n n' m : Node} {c : Checkpoint} {p : CheckpointProposal}
  {chain : List Checkpoint}

/-! ## What stays -/

variable [Crates]

/-- What was signed stays signed. -/
theorem Effect.signed_mono (he : Effect I n n') : n.signed ⊆ n'.signed := by
  cases he with
  | quiet hq => rw [show n'.signed = n.signed from congrArg Core.signed hq.core_eq]
  | timeout hI htime hcore => rw [show n'.signed = n.signed from congrArg Core.signed hcore]
  | adopt p hp hval =>
    rw [signed_adopt]
    exact Finset.subset_insert _ _
  | commit c hsrc hval st happ =>
    rw [signed_announceCommit]
  | twin c hsrc hval e happ hcom =>
    rw [signed_settleTwin]
  | pend | evict | emit | file | learn | queue | unqueue | requeue | reject | cut | resettle =>
    exact Finset.Subset.refl _

/-- It does over effects in a row. -/
theorem Effects.signed_mono (he : Effects I n n') : n.signed ⊆ n'.signed := by
  induction he with
  | refl => exact Finset.Subset.refl _
  | tail _ he ih => exact ih.trans (Effect.signed_mono he)

/-- Without a reorganisation no committed id is forgotten. -/
theorem Effect.committed_mono (he : Effect I n n') (hI : ¬ I.reorg) :
    n.committedClaimIds ⊆ n'.committedClaimIds := by
  cases he with
  | quiet hq =>
    rw [show n'.committedClaimIds = _ from congrArg Core.committedClaimIds hq.core_eq]
    exact Finset.Subset.refl _
  | timeout hI htime hcore =>
    rw [show n'.committedClaimIds = _ from congrArg Core.committedClaimIds hcore]
    exact Finset.Subset.refl _
  | adopt p hp hval =>
    rw [committedClaimIds_adopt]
  | commit c hsrc hval st happ =>
    rw [committedClaimIds_announceCommit]
    exact Finset.subset_union_left
  | twin c hsrc hval e happ hcom =>
    rw [committedClaimIds_settleTwin]
    exact Finset.subset_union_left
  | learn c hsrc q seen hval => exact validateCheckpoint_subset hval
  | cut hr => exact absurd hr hI
  | resettle hr => exact absurd hr hI
  | pend | evict | emit | file | queue | unqueue | requeue | reject => exact Finset.Subset.refl _

/-- Without a reorganisation what was committed stays committed. -/
theorem Effects.committed_mono (he : Effects I n n') (hI : ¬ I.reorg) :
    n.committedClaimIds ⊆ n'.committedClaimIds := by
  induction he with
  | refl => exact Finset.Subset.refl _
  | tail _ he ih => exact ih.trans (Effect.committed_mono he hI)

/-! ## Proposals -/

/-- A proposal is ignored, or signed from then on. -/
theorem onProposal_eq_or_signed (n : Node) (p : CheckpointProposal) :
    n.onProposal p = n ∨ p.proposalHash ∈ (n.onProposal p).signed := by
  unfold Node.onProposal
  split_ifs
  · exact .inl rfl
  · exact .inl rfl
  · exact .inl rfl
  · split
    · exact .inl rfl
    · have hsigned : p.proposalHash ∈ ((n.adoptProposal p).addOwnSignature p).signed := by
        rw [signed_adopt]
        exact Finset.mem_insert_self _ _
      have hheld := proposals_adopt_self n p
      generalize (n.adoptProposal p).addOwnSignature p = m at hsigned hheld
      dsimp only
      split_ifs
      · exact .inr (Effects.signed_mono (maybeCommit_effects (I := Inputs.none)
          (n := ({ m with lastActivity := m.now } : Node).tickClock) p hheld trivial) hsigned)
      · exact .inr hsigned

/-- A proposal that was signed changes nothing. -/
theorem onProposal_of_signed (h : p.proposalHash ∈ n.signed) : n.onProposal p = n := by
  unfold Node.onProposal
  rw [if_pos (by simp [h])]

/-! ## Shares -/

variable [SerdeReadsBack]

/-- With a validated block that the ledger takes, `maybe_commit` does commit. -/
theorem maybeCommit_of_append (h : Refines n.store chain) {st : ChainStore}
    (happ : n.store.append (n.assembleCheckpoint p) = .ok st)
    (hsize : n.quorumSize ≤ (n.signatures.getD p.proposalHash ∅).size) {seen : Finset String}
    (hval : validateCheckpoint (n.assembleCheckpoint p) n.store n.config.flopsTolerance
      n.quorumSize false (some n.committedClaimIds) = .ok seen) :
    (n.maybeCommit p).store = st := by
  obtain ⟨hext, href⟩ := h.append_ok happ
  obtain ⟨st', href', heq⟩ := commitLocal_of_extends h hext
  have hcommit : n.maybeCommit p = n.commitLocal (n.assembleCheckpoint p) := by
    unfold Node.maybeCommit
    rw [if_neg (not_lt.mpr hsize)]
    dsimp only
    rw [hval]
  rw [hcommit, heq, href.store_unique href']
  exact store_announceCommit _ _

/-- A validation that passes with more ids passes with fewer. -/
theorem validateCheckpoint_ok_of_subset {st : ChainStore} {tol : Float} {q : ℕ}
    {seen seen' out : Finset String} (h : Refines st chain) (hsub : seen ⊆ seen')
    (hval : validateCheckpoint c st tol q false (some seen') = .ok out) :
    ∃ out', validateCheckpoint c st tol q false (some seen) = .ok out' := by
  simp only [validateCheckpoint_ok_iff, h.validateProposal_ok_iff, Option.getD_some] at hval ⊢
  rcases hval with ⟨hg, -⟩ | ⟨hg, ⟨hp, -⟩, hs⟩
  · exact ⟨_, .inl ⟨hg, rfl⟩⟩
  · refine ⟨_, .inr ⟨hg, ⟨hp.of_fresh fun id hid hmem => ?_, rfl⟩, hs⟩⟩
    obtain ⟨s, hs, rfl⟩ := List.mem_map.mp hid
    exact hp.claims.ids_fresh s hs (hsub hmem)

/-- A proposal that was not committed is not committed later, while the ledger and the
shares are the same. -/
theorem maybeCommit_again (h : Refines n.store chain) (hsame : SameLedger n m)
    (hfirst : (n.maybeCommit p).store = n.store) : (m.maybeCommit p).store = m.store := by
  have hquorum : m.quorumSize = n.quorumSize := by
    unfold Node.quorumSize Node.committeeMembers
    rw [hsame.store, hsame.peers, hsame.identity.1, hsame.identity.2]
  have hblock : m.assembleCheckpoint p = n.assembleCheckpoint p := by
    unfold Node.assembleCheckpoint
    rw [hsame.signatures, hquorum]
  rcases maybeCommit_cases m p with hm | ⟨st, happ, hsize, ⟨seen, hval⟩, -⟩
  · exact hm.store
  -- it would have been committed the first time
  rw [hblock, hsame.store] at happ
  rw [hsame.signatures, hquorum] at hsize
  rw [hblock, hsame.store, hsame.identity.2, hquorum] at hval
  obtain ⟨seen', hval'⟩ := validateCheckpoint_ok_of_subset h hsame.committed hval
  have hst := maybeCommit_of_append h happ hsize hval'
  have hheight := (h.append_ok happ).2.height
  rw [← hst, hfirst, h.height, List.length_append, List.length_singleton] at hheight
  push_cast at hheight
  omega

omit [Crates] [SerdeReadsBack] in
/-- Filing a share a second time changes nothing. -/
theorem fileShare_again (hash : String) (share : SignatureShare)
    (hsig : m.signatures = (n.fileShare hash share).signatures) :
    (m.fileShare hash share).signatures = m.signatures := by
  show m.signatures.insert hash ((m.signatures.getD hash ∅).insert share.nodeId share) = _
  rw [hsig]
  simp only [Node.fileShare, Std.ExtTreeMap.getD_insert_self, insert_insert]

/-- A share that comes again leaves the ledger. -/
theorem onSignature_again (h : Invariant (core n)) (share : SignatureShare)
    (hm : m = (n.onSignature share).drain.1) : (m.onSignature share).store = m.store := by
  obtain ⟨chain, href⟩ := h.chain
  have href' : Refines n.store chain := href
  by_cases hv : share.verify = true
  case neg =>
    rw [Node.onSignature, if_pos (by simpa using hv)]
  cases hp : n.proposals[share.proposalHash]? with
  | none =>
    have hfirst : n.onSignature share = n := by
      rw [Node.onSignature, if_neg (by simp [hv]), hp]
    have hnone : m.proposals[share.proposalHash]? = none := by
      rw [hm, hfirst]
      exact hp
    rw [Node.onSignature, if_neg (by simp [hv]), hnone]
  | some p =>
    have hfirst : n.onSignature share = (n.fileShare share.proposalHash share).maybeCommit p := by
      rw [Node.onSignature, if_neg (by simp [hv]), hp]
    rw [hfirst] at hm
    rcases maybeCommit_cases (n.fileShare share.proposalHash share) p with hsame | ⟨st, -, -, -, heq⟩
    · -- the share is filed again, and the proposal has the same shares as before
      have hsame' : SameLedger (n.fileShare share.proposalHash share) m := by
        rw [hm]
        exact ⟨hsame.store, hsame.proposals, hsame.signatures, hsame.peers, hsame.queue,
          hsame.identity, hsame.committed⟩
      have hfiled : SameLedger (n.fileShare share.proposalHash share)
          (m.fileShare share.proposalHash share) :=
        ⟨hsame'.store, hsame'.proposals,
          (fileShare_again _ _ hsame'.signatures).trans hsame'.signatures, hsame'.peers,
          hsame'.queue, hsame'.identity, hsame'.committed⟩
      have hheld : m.proposals[share.proposalHash]? = some p := by
        rw [hsame'.proposals]
        exact hp
      rw [Node.onSignature, if_neg (by simp [hv]), hheld]
      exact maybeCommit_again (n := n.fileShare share.proposalHash share) href' hfiled hsame.store
    · -- the proposal was committed and forgotten
      have hgone : m.proposals[share.proposalHash]? = none := by
        have hproposals := congrArg Core.proposals
          (core_announceCommit ({ n.fileShare share.proposalHash share with store := st } : Node)
            ((n.fileShare share.proposalHash share).assembleCheckpoint p))
        have hkey : p.proposalHash = share.proposalHash := h.keyed _ p hp
        rw [← heq] at hproposals
        rw [hm, show ((n.fileShare share.proposalHash share).maybeCommit p).drain.1.proposals =
          n.proposals.erase p.proposalHash from hproposals, hkey]
        simp
      rw [Node.onSignature, if_neg (by simp [hv]), hgone]

/-! ## Commits -/

/-- A block that was validated and refused fails the validation from then on. -/
theorem validateCheckpoint_error_of_seen (h : Refines m.store chain)
    (hg : isCanonicalGenesis c.proposal = false) {q : ℕ} {seen : Finset String}
    (hseen : c.proposal.claimIds.toFinset ⊆ seen) :
    ∃ e, validateCheckpoint c m.store m.config.flopsTolerance q false (some seen) = .error e := by
  cases hval : validateCheckpoint c m.store m.config.flopsTolerance q false (some seen) with
  | error e => exact ⟨e, rfl⟩
  | ok out =>
    rw [validateCheckpoint_ok_iff, h.validateProposal_ok_iff] at hval
    rcases hval with ⟨hg', -⟩ | ⟨-, ⟨hp, -⟩, -⟩
    · rw [hg] at hg'
      cases hg'
    · -- its claims are among the ids that it may not repeat
      obtain ⟨s, rest, hclaims⟩ := List.exists_cons_of_ne_nil (hp.nonempty rfl)
      have hs : s ∈ c.proposal.claims := by simp [hclaims]
      have hid : s.claim.claimId ∈ c.proposal.claimIds := List.mem_map_of_mem hs
      exact absurd (hseen (List.mem_toFinset.mpr hid)) (hp.claims.ids_fresh s hs)

/-- A block below the end of the chain is not next. -/
theorem not_isNext_of_length {more : List Checkpoint} (h : Refines m.store (chain ++ more))
    (hheight : c.height = chain.length) (hmore : more ≠ []) : ¬ IsNext m.store c := by
  intro hnext
  have := h.height_of_isNext hnext
  rw [hheight, List.length_append] at this
  have := List.length_pos_of_ne_nil hmore
  omega

/-- A block that comes again leaves the ledger. -/
theorem onCommit_again (h : Invariant (core n))
    (hm : m = (n.onCommit c).drain.1) : (m.onCommit c).store = m.store := by
  obtain ⟨chain, href⟩ := h.chain
  have href' : Refines n.store chain := href
  by_cases hnext' : IsNext m.store c
  case neg => exact onCommit_store_of_not_isNext hnext'
  have hstore : m.store = (n.onCommit c).store := by rw [hm]; rfl
  have hnext : IsNext n.store c := by
    by_contra hno
    rw [hstore, onCommit_store_of_not_isNext hno] at hnext'
    exact hno hnext'
  -- a block that is next again was not appended, and the chain is as it was
  have hheight := href'.height_of_isNext hnext
  obtain ⟨more, hgrown⟩ := (onCommit_effects (I := noReorg) c trivial trivial
    fun _ _ _ => trivial).grows id href'
  obtain rfl : more = [] := by
    by_contra hne
    exact not_isNext_of_length (hstore ▸ hgrown) hheight hne hnext'
  rw [List.append_nil, ← hstore] at hgrown
  have hsame : m.store = n.store := hgrown.store_unique href'
  rw [onCommit_of_isNext hnext']
  rcases acceptCommit_cases m c with ⟨-, heq⟩ | ⟨hfresh, ⟨e, -, heq⟩ | ⟨seen, hval, -⟩⟩
  · rw [heq]
  · rw [heq, noteCommitReject_eq]
  -- it cannot pass the validation the second time
  exfalso
  rw [onCommit_of_isNext hnext] at hm
  have hcore : core m = core (n.acceptCommit c) := by rw [hm]; rfl
  rcases acceptCommit_cases n c with ⟨hseen, heq⟩ | ⟨-, ⟨e, herr, heq⟩ | ⟨seen₀, hval₀, heq⟩⟩
  · rw [heq] at hm
    rw [hm] at hfresh
    exact Bool.false_ne_true (hfresh.symm.trans hseen)
  · rw [heq, noteCommitReject_eq] at hcore
    rw [hsame, show m.config = n.config from congrArg Core.config hcore,
      show m.committedClaimIds = n.committedClaimIds from congrArg Core.committedClaimIds hcore,
      validateCheckpoint_ok_iff, ← validateCheckpoint_ok_iff c n.quorumSize] at hval
    rw [herr] at hval
    cases hval
  · rw [heq] at hcore
    cases hg : isCanonicalGenesis c.proposal with
    | true =>
      -- genesis would have been appended
      have hext := extends_of_isCanonicalGenesis href' hnext hg
      obtain ⟨more, hmore⟩ := acceptCommit_grows_of_extends href' hext seen₀
      have hlong : Refines m.store (chain ++ ([c] ++ more)) := by
        rw [show m.store = _ from congrArg Core.store hcore, ← List.append_assoc]
        exact hmore
      exact not_isNext_of_length hlong hheight (by simp) hnext'
    | false =>
      have heff : Effects noReorg { n with committedClaimIds := seen₀ }
          (({ n with committedClaimIds := seen₀ } : Node).commitLocal c).flushPendingCommits :=
        (commitLocal_effects (n := { n with committedClaimIds := seen₀ }) c (.inl trivial)
          ⟨_, _, _, hval₀⟩).trans (flushPendingCommits_effects fun _ _ _ => trivial)
      have hmono : seen₀ ⊆ m.committedClaimIds := by
        rw [show m.committedClaimIds = _ from congrArg Core.committedClaimIds hcore]
        exact Effects.committed_mono heff id
      have hids : c.proposal.claimIds.toFinset ⊆ seen₀ := by
        rw [validateCheckpoint_seen hval₀]
        exact Finset.subset_union_right
      obtain ⟨e, herr⟩ := validateCheckpoint_error_of_seen hgrown hg (hids.trans hmono)
        (q := m.quorumSize)
      rw [herr] at hval
      cases hval

/-! ## All messages -/

/-- The ledger after two deliveries of a message is the ledger after one. -/
theorem redelivery_idempotent (hn : Node.Reachable n) (topic : String) (msg : Message) :
    ((n.step (.receive topic msg)).1.step (.receive topic msg)).1.store =
      (n.step (.receive topic msg)).1.store := by
  obtain ⟨hinv, hidle⟩ := reachable_idle hn
  show ((n.receive topic msg).drain.1.receive topic msg).store =
    (n.receive topic msg).drain.1.store
  generalize hm : (n.receive topic msg).drain.1 = m
  revert hm
  unfold Node.receive
  cases msg with
  | contributionGossip s =>
    intro _
    dsimp only
    split_ifs
    · exact (sameLedger_onClaims m s).store
    · rfl
  | proposalMessage p =>
    dsimp only
    split_ifs
    · intro hm
      rcases onProposal_eq_or_signed n p with hsame | hsigned
      · -- ignored the first time, so ignored again
        have hmn : m = n := by
          rw [← hm, hsame]
          exact drain_of_idle hidle
        rw [hmn, hsame]
      · rw [onProposal_of_signed (n := m) (by rw [← hm]; exact hsigned)]
    · exact fun _ => rfl
  | signatureShare share =>
    dsimp only
    split_ifs
    · exact fun hm => onSignature_again hinv share hm.symm
    · exact fun _ => rfl
  | commitMessage c =>
    dsimp only
    split_ifs
    · exact fun hm => onCommit_again hinv hm.symm
    · exact fun _ => rfl
  | heartbeat hb =>
    intro _
    dsimp only
    split_ifs
    · exact congrArg Core.store (quiet_onHeartbeat m hb).core_eq
    · rfl
  | forkAlert | syncRequest | syncResponse =>
    intro _
    dsimp only
    try split_ifs
    all_goals rfl

end Exodus.Analysis

namespace Exodus.Analysis

open Exodus.Library Exodus.Model Exodus.Interface Exodus.Sample

/-- The first block, delivered twice to a fresh node, is stored once. -/
theorem redelivery_first :
    ((after firstBlock .a "t1").step (.receive Topics.commits (.commitMessage firstBlock))).1.store =
      (after firstBlock .a "t1").store :=
  redelivery_idempotent (fresh_reachable .a "t1") _ _

end Exodus.Analysis
