import Exodus.Interface.Effects

/-!
# The operations of a node as effects

Every handler of `protocol.rs` is a sequence of effects, and so is every operation
(`step_effects`).  `inputs` says what an operation takes in, read off the operation and the
state it starts from: what it delivers, the blocks that are queued, the proposal that it
makes the node sign (`WillSign`) and the shares that it counts (`Counts`).
-/

set_option autoImplicit false

namespace Exodus.Interface

open Exodus.Library Exodus.Model

variable [Crates] {I : Inputs} {n : Node}

/-! ## Claims -/

/-- Evicting claims for a new one is made of effects. -/
theorem evictClaims_effects (s : SignedContribution) (hs : I.claims s) (fuel : ℕ) (n : Node) :
    Effects I n (Node.evictClaims fuel n) := by
  induction fuel generalizing n with
  | zero => exact .refl
  | succ fuel ih =>
    unfold Node.evictClaims
    split_ifs with hfull
    · split
      · rename_i id _
        refine .head (.evict s hs id hfull) (.head (.quiet ?_) (ih _))
        exact .of_core_eq rfl rfl rfl rfl
      · exact .refl
    · exact .refl

/-- Receiving a claim is made of effects. -/
theorem onClaims_effects (s : SignedContribution) (hs : I.claims s) : Effects I n (n.onClaims s) := by
  unfold Node.onClaims
  split_ifs with hv hknown
  · exact .refl
  · exact .refl
  · simp only [Bool.or_eq_true, not_or, Bool.not_eq_true] at hknown
    refine .head (.pend s hs (by simpa using hv) hknown.1.1) ?_
    exact evictClaims_effects s hs _ _

/-! ## Proposals and shares -/

/-- Signing leaves who seals a view. -/
theorem sealerForView_adopt (n : Node) (p : CheckpointProposal) (view : Int64) :
    ((n.adoptProposal p).addOwnSignature p).sealerForView view = n.sealerForView view := by
  rw [adoptProposal_eq]
  rfl

/-- The node after it took a delivered proposal in. -/
def adopted (n : Node) (p : CheckpointProposal) : Node :=
  let m := (n.adoptProposal p).addOwnSignature p
  ({ m with lastActivity := m.now } : Node).tickClock

/-- The activity time is no part of the core. -/
theorem core_adopted (n : Node) (p : CheckpointProposal) :
    core (adopted n p) = core ((n.adoptProposal p).addOwnSignature p) := rfl

/-- The shares for a proposal that was just signed. -/
theorem shares_adopted (n : Node) (p : CheckpointProposal) :
    (adopted n p).signatures.getD p.proposalHash ∅ = sharesWithOwn n p := by
  have hsigs : (adopted n p).signatures =
      n.signatures.insert p.proposalHash (sharesWithOwn n p) := signatures_adopt n p
  rw [hsigs, Std.ExtTreeMap.getD_insert_self]

/-- The committee of a node that has just signed. -/
theorem committeeMembers_adopted (n : Node) (p : CheckpointProposal) :
    (adopted n p).committeeMembers = n.committeeMembers := committeeMembers_adopt n p

/-- Its quorum. -/
theorem quorumSize_adopted (n : Node) (p : CheckpointProposal) :
    (adopted n p).quorumSize = n.quorumSize := quorumSize_adopt n p

/-- The checks of `on_proposal`. -/
structure Signs (n : Node) (p : CheckpointProposal) : Prop where
  unknown : n.proposals.contains p.proposalHash = false
  unsigned : p.proposalHash ∉ n.signed
  above : ∀ head ∈ n.store.head, head.height < p.height.toInt
  sealer : p.sealedBy = n.sealerForView p.epoch
  valid : ∃ seen, validateProposal p n.store n.committedClaimIds n.config.flopsTolerance false =
    .ok seen

/-- A proposal that passes the checks is taken in; the sealer of the node's own view counts
the shares at once. -/
theorem Signs.onProposal_eq {p : CheckpointProposal} (h : Signs n p) :
    n.onProposal p =
      if (adopted n p).sealerForView (adopted n p).view = (adopted n p).nodeId then
        (adopted n p).maybeCommit p
      else adopted n p := by
  obtain ⟨seen, hval⟩ := h.valid
  have hbelow : (n.store.head.any fun h => p.height.toInt ≤ h.height) = false := by
    cases hhead : n.store.head with
    | none => rfl
    | some head =>
      have := h.above head hhead
      simp [this]
  unfold Node.onProposal
  rw [if_neg (by simp [h.unknown, h.unsigned]), if_neg (by simp [hbelow]),
    if_neg (not_not.mpr h.sealer), hval]
  rfl

/-- A node that does not seal its own view waits for a commit or for shares. -/
theorem Signs.onProposal_waits {p : CheckpointProposal} (h : Signs n p)
    (hother : n.sealerForView n.view ≠ n.nodeId) : n.onProposal p = adopted n p := by
  have hself : (adopted n p).sealerForView (adopted n p).view ≠ (adopted n p).nodeId := by
    rw [show (adopted n p).nodeId = n.nodeId from congrArg Core.nodeId (core_adopt n p),
      show (adopted n p).view = n.view from view_adopt n p]
    exact fun h => hother ((sealerForView_adopt n p n.view).symm.trans h)
  rw [h.onProposal_eq, if_neg hself]

/-- A proposal that is not signed changes nothing. -/
theorem onProposal_of_not_signs {p : CheckpointProposal} (h : ¬ Signs n p) :
    n.onProposal p = n := by
  unfold Node.onProposal
  split_ifs with hknown hheight hsealer
  · rfl
  · rfl
  · rfl
  · cases hval : validateProposal p n.store n.committedClaimIds n.config.flopsTolerance false with
    | error e => rfl
    | ok seen =>
      simp only [Bool.or_eq_true, not_or, Bool.not_eq_true, decide_eq_true_eq] at hknown
      refine absurd ⟨hknown.1, hknown.2, ?_, not_not.mp hsealer, seen, hval⟩ h
      intro head hhead
      rw [show n.store.head = some head from hhead] at hheight
      simpa using hheight

/-- `on_proposal` drops the proposal, or takes it in and perhaps commits it. -/
theorem onProposal_cases (n : Node) (p : CheckpointProposal) :
    n.onProposal p = n ∨ Signs n p ∧
      (n.onProposal p = adopted n p ∨ n.onProposal p = (adopted n p).maybeCommit p) := by
  by_cases hsigns : Signs n p
  · refine .inr ⟨hsigns, ?_⟩
    rw [hsigns.onProposal_eq]
    split_ifs
    · exact .inr rfl
    · exact .inl rfl
  · exact .inl (onProposal_of_not_signs hsigns)

/-- A share for a held proposal is filed and counted. -/
theorem onSignature_of_held {p : CheckpointProposal} {share : SignatureShare}
    (hv : share.verify = true) (hp : n.proposals[share.proposalHash]? = some p) :
    n.onSignature share = (n.fileShare share.proposalHash share).maybeCommit p := by
  unfold Node.onSignature
  rw [hv, hp]
  rfl

/-- Receiving a proposal is made of effects: it is signed, and perhaps its block is committed. -/
theorem onProposal_effects (p : CheckpointProposal) (hp : I.proposals p)
    (hsigns : Signs n p → I.signs p)
    (hcounts : Signs n p →
      I.counts p (insert n.nodeId (shareIds n p.proposalHash)) n.quorumSize) :
    Effects I n (n.onProposal p) := by
  rcases onProposal_cases n p with heq | ⟨hs, hcase⟩
  · rw [heq]
  have hadopt : Effect I n ((n.adoptProposal p).addOwnSignature p) := by
    obtain ⟨seen, hval⟩ := hs.valid
    exact .adopt p (.inl ⟨hp, hs.unknown, hs.unsigned⟩) ⟨_, seen, hval⟩ (hsigns hs)
  have hquiet : Quiet ((n.adoptProposal p).addOwnSignature p) (adopted n p) :=
    .of_core_eq rfl rfl rfl rfl
  have heffects : Effects I n (adopted n p) := .head hadopt (.single (.quiet hquiet))
  rcases hcase with heq | heq
  · rw [heq]
    exact heffects
  · rw [heq]
    refine heffects.trans (maybeCommit_effects p (proposals_adopt_self n p) ?_)
    have hids : shareIds (adopted n p) p.proposalHash = _ := shareIds_adopt n p
    rw [hids, quorumSize_adopted]
    exact hcounts hs

/-- Receiving a share is made of effects: it is filed, and perhaps the block is committed. -/
theorem onSignature_effects (share : SignatureShare) (hs : I.shares share) (hkey : Keyed n)
    (hcounts : ∀ p, share.verify = true → n.proposals[share.proposalHash]? = some p →
      I.counts p (insert share.nodeId (shareIds n share.proposalHash)) n.quorumSize) :
    Effects I n (n.onSignature share) := by
  unfold Node.onSignature
  split_ifs with hv
  · exact .refl
  · split
    · exact .refl
    · rename_i p hp
      have hverify : share.verify = true := by simpa using hv
      refine .head (.file share hs hverify p hp) (maybeCommit_effects p ?_ ?_)
      · rw [hkey _ p hp]
        exact hp
      · rw [hkey _ p hp, shareIds_fileShare]
        exact hcounts p hverify hp

/-! ## Blocks -/

/-- `on_commit` for a next block: known as rejected, rejected now, or handed on. -/
theorem acceptCommit_cases (n : Node) (c : Checkpoint) :
    n.commitRejectSeen c.blockHash = true ∧ n.acceptCommit c = n ∨
      n.commitRejectSeen c.blockHash = false ∧
        ((∃ e, validateCheckpoint c n.store n.config.flopsTolerance n.quorumSize false
            (some n.committedClaimIds) = .error e ∧
            n.acceptCommit c = n.noteCommitReject c.blockHash) ∨
          ∃ seen, validateCheckpoint c n.store n.config.flopsTolerance n.quorumSize false
            (some n.committedClaimIds) = .ok seen ∧
            n.acceptCommit c =
              (({ n with committedClaimIds := seen } : Node).commitLocal c).flushPendingCommits) := by
  unfold Node.acceptCommit
  split_ifs with hseen
  · exact .inl ⟨hseen, rfl⟩
  · refine .inr ⟨Bool.eq_false_iff.mpr hseen, ?_⟩
    cases hval : validateCheckpoint c n.store n.config.flopsTolerance n.quorumSize false
        (some n.committedClaimIds) with
    | error e => exact .inl ⟨e, rfl, rfl⟩
    | ok seen => exact .inr ⟨seen, rfl, rfl⟩

/-- Taking a next block is made of effects. -/
theorem acceptCommit_effects (c : Checkpoint) (hc : I.blocks c) (hrec : I.received c)
    (h : QueuedIn I n) :
    Effects I n (n.acceptCommit c) := by
  rcases acceptCommit_cases n c with ⟨-, heq⟩ | ⟨-, ⟨e, -, heq⟩ | ⟨seen, hval, heq⟩⟩
  · rw [heq]
  · rw [heq, noteCommitReject_eq]
    exact .single (.reject _)
  · have hlearn : Effect I n { n with committedClaimIds := seen } := .learn c hrec _ seen hval
    have hcommit : Effects I { n with committedClaimIds := seen }
        (({ n with committedClaimIds := seen } : Node).commitLocal c) :=
      commitLocal_effects c (.inl hc) ⟨_, _, _, hval⟩
    rw [heq]
    exact .head hlearn (hcommit.trans
      (flushPendingCommits_effects (hcommit.queuedIn (hlearn.queuedIn h))))

/-- The block is for the height above the head and builds on the head. -/
def IsNext (st : ChainStore) (c : Checkpoint) : Prop :=
  match st.head with
  | none => c.height = 0
  | some h => c.height = h.height + 1 ∧ c.proposal.prevHash = h.blockHash

/-- A block that comes next goes to the validation. -/
theorem onCommit_of_isNext {c : Checkpoint} (h : IsNext n.store c) :
    n.onCommit c = n.acceptCommit c := by
  unfold IsNext at h
  unfold Node.onCommit
  cases hhead : n.store.head with
  | none =>
    rw [hhead] at h
    exact if_neg (not_not.mpr h)
  | some b =>
    rw [hhead] at h
    dsimp only at h ⊢
    rw [if_neg (by omega), if_neg (by omega), if_neg (by simp [h.2])]

/-- Any other block is only answered, or queued at a height that is not the next one. -/
theorem onCommit_of_not_isNext {c : Checkpoint} (h : ¬ IsNext n.store c) :
    Quiet n (n.onCommit c) ∨ c.height ≠ (n.store.head.map Checkpoint.height).getD (-1) + 1 ∧
      Quiet (n.insertPendingCommit c) (n.onCommit c) := by
  unfold IsNext at h
  unfold Node.onCommit
  cases hhead : n.store.head with
  | none =>
    rw [hhead] at h
    dsimp only at h ⊢
    rw [if_pos h]
    exact .inr ⟨h, quiet_requestSync _ _⟩
  | some b =>
    rw [hhead] at h
    dsimp only [Option.map_some, Option.getD_some] at h ⊢
    split_ifs with hle hfork hless hgap hlink
    · exact .inl ((quiet_send n _ (.forkAlert _) trivial).trans (quiet_requestSync _ _))
    · exact .inl (quiet_send _ _ _ trivial)
    · exact .inl (.of_core_eq rfl rfl rfl rfl)
    · exact .inr ⟨by omega, quiet_requestSync _ _⟩
    · exact .inl (quiet_requestSync _ _)
    · refine absurd ⟨by omega, ?_⟩ h
      by_contra hne
      exact hlink ⟨by omega, hne⟩

/-- Any other block leaves the ledger. -/
theorem onCommit_store_of_not_isNext {c : Checkpoint} (h : ¬ IsNext n.store c) :
    (n.onCommit c).store = n.store := by
  rcases onCommit_of_not_isNext h with hq | ⟨-, hq⟩
  · exact congrArg Core.store hq.core_eq
  · exact congrArg Core.store hq.core_eq

/-- Receiving a block is made of effects. -/
theorem onCommit_effects (c : Checkpoint) (hc : I.blocks c) (hrec : I.received c)
    (h : QueuedIn I n) : Effects I n (n.onCommit c) := by
  by_cases hnext : IsNext n.store c
  · rw [onCommit_of_isNext hnext]
    exact acceptCommit_effects c hc hrec h
  · rcases onCommit_of_not_isNext hnext with hq | ⟨-, hq⟩
    · exact .quiet hq
    · exact .head (.queue c hc) (Effects.quiet hq)

/-- Restoring the old blocks is a way of rewriting the ledger. -/
theorem rewritten_restoreBlocks (saved : List Checkpoint) (st : ChainStore) :
    Rewritten st (Node.restoreBlocks st saved) := by
  induction saved generalizing st with
  | nil => exact .refl
  | cons b rest ih =>
    unfold Node.restoreBlocks
    rw [List.foldl_cons]
    split_ifs
    · exact .head (.append st b) (ih _)
    · exact ih st

/-- Applying the blocks of a peer is made of effects, and so is giving up half way. -/
theorem reapply_effects (hr : I.reorg) (ancestor : ℤ) (saved incoming : List Checkpoint)
    (hin : ∀ b ∈ incoming, I.blocks b) (applied : ℕ) (n : Node) :
    Effects I n (Node.reapply ancestor saved incoming applied n) := by
  induction incoming generalizing applied n with
  | nil => exact .single (.resettle hr n.store .refl)
  | cons b rest ih =>
    unfold Node.reapply
    split
    · refine .single (.resettle hr _ ?_)
      exact ((rewritten_restoreBlocks _ _).tail (.rollback _ ancestor)).trans
        (rewritten_restoreBlocks _ _)
    · rename_i seen hval
      exact (commitLocal_effects b (.inl (hin b (by simp))) ⟨_, _, _, hval⟩).trans
        (ih (fun x hx => hin x (by simp [hx])) _ _)

/-- A reorganisation is made of effects. -/
theorem reconcileChain_effects (hr : I.reorg) (peer : List Checkpoint)
    (hpeer : ∀ b ∈ peer, I.blocks b) : Effects I n (n.reconcileChain peer) := by
  have hin (keep : Checkpoint → Bool) :
      ∀ b ∈ (peer.insertionSort fun a b => a.height ≤ b.height).filter keep, I.blocks b := by
    intro b hb
    exact hpeer b ((List.perm_insertionSort _ _).mem_iff.mp (List.mem_of_mem_filter hb))
  unfold Node.reconcileChain
  dsimp only
  split
  · exact .refl
  · split_ifs
    · exact .refl
    · exact .refl
    · exact .head (.cut hr _) (.head (.requeue _) (reapply_effects hr _ _ _ (hin _) _ _))
    · exact reapply_effects hr _ _ _ (hin _) _ _

/-- Blocks that are received one after another. -/
theorem onCommits_effects (blocks : List Checkpoint) (hb : ∀ b ∈ blocks, I.blocks b)
    (hrec : ∀ b ∈ blocks, I.received b) (n : Node) (h : QueuedIn I n) :
    Effects I n (blocks.foldl Node.onCommit n) := by
  induction blocks generalizing n with
  | nil => exact .refl
  | cons b rest ih =>
    have he := onCommit_effects b (hb b (by simp)) (hrec b (by simp)) h
    exact he.trans (ih (fun x hx => hb x (by simp [hx])) (fun x hx => hrec x (by simp [hx])) _
      (he.queuedIn h))

/-! ## Own proposals -/

/-- The node after it took its own proposal in and sent it. -/
def proposed (n : Node) (p : CheckpointProposal) : Node :=
  let m := (n.tickClock.adoptProposal p).addOwnSignature p
  ({ m with lastActivity := m.now } : Node).tickClock.send Topics.proposals (.proposalMessage p)

/-- A proposal of the node itself is signed as one of another. -/
theorem core_proposed (n : Node) (p : CheckpointProposal) :
    core (proposed n p) = core ((n.tickClock.adoptProposal p).addOwnSignature p) := rfl

/-- Proposing leaves the ledger. -/
theorem store_proposed (n : Node) (p : CheckpointProposal) : (proposed n p).store = n.store :=
  store_adopt n.tickClock p

/-- The two messages of proposing are the share and the proposal. -/
theorem outgoing_proposed (n : Node) (p : CheckpointProposal) :
    (proposed n p).outgoing = n.outgoing ++
      [(Topics.signatures, .signatureShare (n.signatureShare p)),
        (Topics.proposals, .proposalMessage p)] := by
  show ((n.tickClock.adoptProposal p).addOwnSignature p).outgoing ++ _ = _
  rw [outgoing_adopt, List.append_assoc]
  rfl

/-- The shares for the proposal that was taken in. -/
theorem shares_proposed (n : Node) (p : CheckpointProposal) :
    (proposed n p).signatures.getD p.proposalHash ∅ = sharesWithOwn n p := by
  have hsigs : (proposed n p).signatures =
      n.signatures.insert p.proposalHash (sharesWithOwn n p) := signatures_adopt n.tickClock p
  rw [hsigs, Std.ExtTreeMap.getD_insert_self]

/-- The committee of a node that has just proposed. -/
theorem committeeMembers_proposed (n : Node) (p : CheckpointProposal) :
    (proposed n p).committeeMembers = n.committeeMembers := committeeMembers_adopt n.tickClock p

/-- Its quorum. -/
theorem quorumSize_proposed (n : Node) (p : CheckpointProposal) :
    (proposed n p).quorumSize = n.quorumSize := quorumSize_adopt n.tickClock p

/-- `propose_internal` makes no proposal, or a valid one for a height that has none. -/
theorem proposeInternal_cases (n : Node) :
    Quiet n n.proposeInternal ∨ ∃ head seen, n.sealerForView n.view = n.nodeId ∧
      n.store.head = some head ∧ n.outstandingAt (head.height + 1) = false ∧
      validateProposal (n.nextProposal head) n.store ∅ n.config.flopsTolerance false = .ok seen ∧
      n.proposeInternal =
        (proposed n (n.nextProposal head)).maybeCommit (n.nextProposal head) := by
  have hsame : Quiet n n := .of_core_eq rfl rfl rfl rfl
  unfold Node.proposeInternal
  split
  · exact .inl hsame
  rename_i hsealer
  split
  · exact .inl hsame
  rename_i head hhead
  split
  · exact .inl hsame
  rename_i hout
  split
  · exact .inl hsame
  dsimp only
  split
  · exact .inl (.of_core_eq rfl rfl rfl rfl)
  rename_i seen hval
  exact .inr ⟨head, seen, not_not.mp hsealer, hhead, Bool.eq_false_iff.mpr hout, hval, rfl⟩

omit [Crates] in
/-- The node holds a proposal for the height. -/
theorem outstandingAt_iff {h : ℤ} :
    n.outstandingAt h = true ↔
      ∃ (k : String) (p : CheckpointProposal), n.proposals[k]? = some p ∧ p.height.toInt = h := by
  unfold Node.outstandingAt
  rw [List.any_eq_true]
  constructor
  · rintro ⟨p, hp, heq⟩
    obtain ⟨k, hk⟩ := mem_values_iff.mp hp
    exact ⟨k, p, hk, by simpa using heq⟩
  · rintro ⟨k, p, hk, heq⟩
    exact ⟨p, mem_values_iff.mpr ⟨k, hk⟩, by simpa using heq⟩

/-- The checks of `propose_internal` on the proposal that it makes. -/
structure Offers (n : Node) (p : CheckpointProposal) : Prop where
  sealer : n.sealerForView n.view = n.nodeId
  next : ∃ head, n.store.head = some head ∧ n.outstandingAt (head.height + 1) = false ∧
    p = n.nextProposal head
  valid : ∃ seen, validateProposal p n.store ∅ n.config.flopsTolerance false = .ok seen

/-- A node makes one proposal at a time. -/
theorem Offers.unique {p q : CheckpointProposal} (hp : Offers n p) (hq : Offers n q) : p = q := by
  obtain ⟨head, hhead, -, rfl⟩ := hp.next
  obtain ⟨head', hhead', -, rfl⟩ := hq.next
  rw [hhead] at hhead'
  cases hhead'
  rfl

/-- The own proposal of a node is taken in like one that was delivered, and sent. -/
theorem proposed_effects (hI : I.proposes) {head : Checkpoint} {seen : Finset String}
    (hhead : n.store.head = some head) (hout : n.outstandingAt (head.height + 1) = false)
    (hval : validateProposal (n.nextProposal head) n.store ∅ n.config.flopsTolerance false =
      .ok seen) (hsigns : I.signs (n.nextProposal head)) :
    Effects I n (proposed n (n.nextProposal head)) ∧
      (proposed n (n.nextProposal head)).proposals[(n.nextProposal head).proposalHash]? =
        some (n.nextProposal head) := by
  have htick : Effect I n n.tickClock := .quiet (.of_core_eq rfl rfl rfl rfl)
  have hadopt : Effect I n.tickClock
      ((n.tickClock.adoptProposal (n.nextProposal head)).addOwnSignature (n.nextProposal head)) :=
    .adopt _ (.inr ⟨hI, head, _, hhead, hout, rfl⟩) ⟨_, _, hval⟩ hsigns
  have hheld : ((n.tickClock.adoptProposal (n.nextProposal head)).addOwnSignature
      (n.nextProposal head)).proposals[(n.nextProposal head).proposalHash]? =
        some (n.nextProposal head) := proposals_adopt_self n.tickClock (n.nextProposal head)
  refine ⟨.head htick (.head hadopt ?_), hheld⟩
  unfold proposed
  generalize (n.tickClock.adoptProposal (n.nextProposal head)).addOwnSignature
    (n.nextProposal head) = m at hheld
  have hquiet : Quiet m ({ m with lastActivity := m.now } : Node).tickClock :=
    .of_core_eq rfl rfl rfl rfl
  exact .head (.quiet hquiet) (.single (.emit _ hI hheld))

/-- Proposing is made of effects. -/
theorem proposeInternal_effects (hI : I.proposes) (hsigns : ∀ p, Offers n p → I.signs p)
    (hcounts : ∀ p, Offers n p →
      I.counts p (insert n.nodeId (shareIds n p.proposalHash)) n.quorumSize) :
    Effects I n n.proposeInternal := by
  rcases proposeInternal_cases n with hq | ⟨head, seen, hsealer, hhead, hout, hval, heq⟩
  · exact .quiet hq
  · have hoffers : Offers n (n.nextProposal head) :=
      ⟨hsealer, ⟨head, hhead, hout, rfl⟩, seen, hval⟩
    obtain ⟨heff, hheld⟩ := proposed_effects hI hhead hout hval (hsigns _ hoffers)
    have hids : shareIds (proposed n (n.nextProposal head)) (n.nextProposal head).proposalHash =
        insert n.nodeId (shareIds n (n.nextProposal head).proposalHash) :=
      shareIds_adopt n.tickClock _
    rw [heq]
    refine heff.trans (maybeCommit_effects _ hheld ?_)
    rw [hids, quorumSize_proposed]
    exact hcounts _ hoffers

/-- Submitting a claim is made of effects. -/
theorem submitClaim_effects (s : SignedContribution) (hs : I.claims s) :
    Effects I n (n.submitClaim s).1 := by
  unfold Node.submitClaim
  split_ifs with hnode hv hflops hknown
  · exact .refl
  · exact .refl
  · exact .refl
  · exact .refl
  · simp only [Bool.or_eq_true, not_or, Bool.not_eq_true] at hknown
    refine .head (.pend s hs (by simpa using hv) hknown.1) ?_
    exact Effects.quiet (quiet_send _ _ (.contributionGossip s) trivial)

/-! ## Operations -/

/-- The proposal that an operation makes the node sign. -/
inductive WillSign (n : Node) : Node.Op → CheckpointProposal → Prop
  | proposal {p : CheckpointProposal} (h : Signs n p) :
      WillSign n (.receive Topics.proposals (.proposalMessage p)) p
  | own {p : CheckpointProposal} (h : Offers n p) : WillSign n .proposeNow p
  | takeover {p : CheckpointProposal} (htakes : n.advanceView.2 = true)
      (h : Offers n.advanceView.1 p) : WillSign n .tick p

/-- An operation makes the node sign one proposal at most. -/
theorem WillSign.unique {op : Node.Op} {p q : CheckpointProposal} (hp : WillSign n op p)
    (hq : WillSign n op q) : p = q := by
  cases hp with
  | proposal _ =>
    cases hq
    rfl
  | own hp =>
    cases hq with
    | own hq => exact hp.unique hq
  | takeover _ hp =>
    cases hq with
    | takeover _ hq => exact hp.unique hq

/-- A commit message brings no proposal to sign. -/
theorem not_willSign_commit {p : CheckpointProposal} (c : Checkpoint) :
    ¬ WillSign n (.receive Topics.commits (.commitMessage c)) p := by
  generalize hop : Node.Op.receive Topics.commits (.commitMessage c) = op
  intro h
  cases h <;> simp at hop

/-- The shares that an operation counts for a proposal: the nodes they are of, and the quorum
that they are counted against. -/
inductive Counts (n : Node) : Node.Op → CheckpointProposal → Finset String → ℕ → Prop
  | share {share : SignatureShare} {p : CheckpointProposal} (hv : share.verify = true)
      (hp : n.proposals[share.proposalHash]? = some p) :
      Counts n (.receive Topics.signatures (.signatureShare share)) p
        (insert share.nodeId (shareIds n share.proposalHash)) n.quorumSize
  | proposal {p : CheckpointProposal} (h : Signs n p) :
      Counts n (.receive Topics.proposals (.proposalMessage p)) p
        (insert n.nodeId (shareIds n p.proposalHash)) n.quorumSize
  | own {p : CheckpointProposal} (h : Offers n p) :
      Counts n .proposeNow p (insert n.nodeId (shareIds n p.proposalHash)) n.quorumSize
  | takeover {p : CheckpointProposal} (htakes : n.advanceView.2 = true)
      (h : Offers n.advanceView.1 p) :
      Counts n .tick p (insert n.nodeId (shareIds n p.proposalHash)) n.advanceView.1.quorumSize

/-- What an operation takes in, the blocks that are queued included. -/
def inputs (n : Node) (op : Node.Op) : Inputs where
  claims s := op = .submitClaim s ∨ op = .receive Topics.claims (.contributionGossip s)
  proposals p := op = .receive Topics.proposals (.proposalMessage p)
  shares share := op = .receive Topics.signatures (.signatureShare share)
  blocks c := op = .receive Topics.commits (.commitMessage c) ∨
    (∃ resp, op = .syncResponse resp ∧ c ∈ resp.blocks) ∨
    ∃ h : ℤ, n.pendingCommits[h]? = some c
  received c := op = .receive Topics.commits (.commitMessage c) ∨
    ∃ resp, op = .syncResponse resp ∧ c ∈ resp.blocks
  reorg := ∃ resp, op = .syncResponse resp ∧ ∃ b ∈ resp.blocks, b.height = 0
  proposes := op = .tick ∨ op = .proposeNow
  ticks := op = .tick
  signs := WillSign n op
  counts := Counts n op

/-- Receiving any message is made of effects, from what the message brings. -/
theorem receive_effects (hkey : Keyed n) (topic : String) (m : Message) :
    Effects (inputs n (.receive topic m)) n (n.receive topic m) := by
  have hqueue : QueuedIn (inputs n (.receive topic m)) n := fun h c hc => .inr (.inr ⟨h, hc⟩)
  unfold Node.receive
  cases m with
  | contributionGossip s =>
    dsimp only
    split_ifs with ht
    · exact onClaims_effects s (.inr (by rw [ht]))
    · exact .refl
  | proposalMessage p =>
    dsimp only
    split_ifs with ht
    · subst ht
      exact onProposal_effects p rfl .proposal .proposal
    · exact .refl
  | signatureShare share =>
    dsimp only
    split_ifs with ht
    · subst ht
      exact onSignature_effects share rfl hkey fun p hv hp => .share hv hp
    · exact .refl
  | commitMessage c =>
    dsimp only
    split_ifs with ht
    · exact onCommit_effects c (.inl (by rw [ht])) (.inl (by rw [ht])) hqueue
    · exact .refl
  | heartbeat hb =>
    dsimp only
    split_ifs
    · exact .quiet (quiet_onHeartbeat n hb)
    · exact .refl
  | forkAlert a =>
    dsimp only
    split_ifs
    · exact .quiet (.of_core_eq rfl rfl rfl rfl)
    · exact .refl
  | syncRequest req => exact .refl
  | syncResponse resp => exact .refl

/-- A response from genesis on is a full chain. -/
theorem onSyncResponse_full {resp : SyncResponse} (h : ∃ b ∈ resp.blocks, b.height = 0) :
    n.onSyncResponse resp = n.reconcileChain resp.blocks := by
  rw [Node.onSyncResponse, if_pos (by simpa using h)]

/-- So is receiving a sync response. -/
theorem onSyncResponse_effects (resp : SyncResponse) :
    Effects (inputs n (.syncResponse resp)) n (n.onSyncResponse resp) := by
  have hqueue : QueuedIn (inputs n (.syncResponse resp)) n := fun h c hc => .inr (.inr ⟨h, hc⟩)
  have hblocks : ∀ b ∈ resp.blocks, (inputs n (.syncResponse resp)).blocks b :=
    fun b hb => .inr (.inl ⟨resp, rfl, hb⟩)
  unfold Node.onSyncResponse
  split_ifs with hfull
  · have hreorg : (inputs n (.syncResponse resp)).reorg := ⟨resp, rfl, by simpa using hfull⟩
    exact reconcileChain_effects hreorg _ hblocks
  · exact onCommits_effects _ hblocks (fun b hb => .inr ⟨resp, rfl, hb⟩) n hqueue

/-- Heartbeats are routine. -/
theorem routine_heartbeats {e : String × Message} (he : e ∈ n.heartbeats) : Routine e.2 := by
  unfold Node.heartbeats at he
  split at he
  · rw [List.mem_singleton.mp he]
    trivial
  · simp at he

omit [Crates] in
/-- Draining twice is draining once. -/
theorem drain_drain (n : Node) : n.drain.1.drain.1 = n.drain.1 := rfl

omit [Crates] in
/-- Draining leaves the core. -/
theorem core_drain (n : Node) : core n.drain.1 = core n := rfl

omit [Crates] in
/-- It leaves no message. -/
theorem drain_outgoing (n : Node) : n.drain.1.outgoing = [] := rfl

/-- A tick is the clock part, and on a takeover a proposal; apart from the heartbeat it
publishes what the proposal sends. -/
theorem tick_cases (hout : n.outgoing = []) (hcalls : n.listenerCalls = []) :
    ∃ m, m = n.advanceView.1.drain.1 ∧ core m = core n ∧
      (m.view = n.view ∨ TimesOut n ∧ m.view = n.view + 1) ∧
      (n.tick.1 = m.drain.1 ∧ n.tick.2.2 = [] ∧
          (∀ e : String × Message, ¬ Routine e.2 → e ∉ n.tick.2.1) ∨
        n.advanceView.2 = true ∧ n.tick.1 = m.proposeInternal.drain.1 ∧
          n.tick.2.2 = m.proposeInternal.listenerCalls ∧
          ∃ beat, n.tick.2.1 = beat ++ m.proposeInternal.outgoing ∧ ∀ e ∈ beat, Routine e.2) := by
  obtain ⟨hcore, hsame, hcalls', hview⟩ := advanceView_cases n
  have hfirst : n.advanceView.1.drain.2.1 = [] := hsame.trans hout
  have hfirst' : n.advanceView.1.drain.2.2 = [] := hcalls'.trans hcalls
  have hbeat (e : String × Message) (he : e ∈ n.advanceView.1.drain.1.heartbeats) :
      Routine e.2 := routine_heartbeats he
  refine ⟨n.advanceView.1.drain.1, rfl, hcore, hview, ?_⟩
  unfold Node.tick
  dsimp only
  rw [hfirst, hfirst', List.nil_append]
  have hdrained : n.advanceView.1.drain.1 = n.advanceView.1.drain.1.drain.1 :=
    (drain_drain n.advanceView.1).symm
  generalize n.advanceView.1.drain.1 = m at hbeat hdrained
  generalize m.proposeInternal = done
  split_ifs with htakes
  · exact .inr ⟨htakes, rfl, List.nil_append _, _, rfl, hbeat⟩
  · exact .inl ⟨hdrained, rfl, fun e he hm => he (hbeat e hm)⟩

/-- An operation as a sequence of effects and a drain: what it publishes is what the
effects sent, apart from routine messages. -/
structure Performs (I : Inputs) (n : Node) (op : Node.Op) (m : Node) : Prop where
  effects : Effects I n m
  state : (n.step op).1 = m.drain.1
  sent : ∀ e : String × Message, ¬ Routine e.2 → (e ∈ (n.step op).2.1 ↔ e ∈ m.outgoing)
  called : (n.step op).2.2 = m.listenerCalls

/-- An operation that only drains what its handler did. -/
theorem performs_of_drain {op : Node.Op} {m : Node} (h : Effects I n m)
    (hstep : n.step op = m.drain) : Performs I n op m := by
  refine ⟨h, ?_, ?_, ?_⟩
  · rw [hstep]
  · intro e _
    rw [hstep]
    exact Iff.rfl
  · rw [hstep]
    rfl

/-- A tick is made of effects: the view may advance, and then the node may propose. -/
theorem tick_effects (hI : I.proposes) (hI' : I.ticks)
    (hsigns : ∀ p, WillSign n .tick p → I.signs p)
    (hcounts : ∀ p ids q, Counts n .tick p ids q → I.counts p ids q) (hout : n.outgoing = [])
    (hcalls : n.listenerCalls = []) : ∃ m, Performs I n .tick m := by
  obtain ⟨m, hm, hcore, hview, hcases⟩ := tick_cases hout hcalls
  have hempty : m.outgoing = [] := hm ▸ rfl
  have hnone : m.listenerCalls = [] := hm ▸ rfl
  have hstart : Effects I n m := by
    rcases hview with hview | ⟨htime, hview⟩
    · exact .quiet (.of_core_eq hcore hview (hnone.trans hcalls.symm) (hempty.trans hout.symm))
    · exact .single (.timeout hI' htime hcore hview (hnone.trans hcalls.symm)
        (hempty.trans hout.symm))
  rcases hcases with ⟨htick, hlist, hmsgs⟩ | ⟨htakes, htick, hlist, beat, hmsgs, hbeat⟩
  · refine ⟨m, hstart, htick, fun e he => iff_of_false (hmsgs e he) ?_, hlist.trans hnone.symm⟩
    rw [hempty]
    exact List.not_mem_nil
  · -- what the drained node offers is what the node offers before it is drained
    have hoffers (p : CheckpointProposal) (hp : Offers m p) : Offers n.advanceView.1 p := by
      subst hm
      exact ⟨hp.sealer, hp.next, hp.valid⟩
    have hid : m.nodeId = n.nodeId := congrArg Core.nodeId hcore
    have hids (hash : String) : shareIds m hash = shareIds n hash :=
      shareIds_congr (congrArg Core.signatures hcore) hash
    have hquorum : m.quorumSize = n.advanceView.1.quorumSize := by
      rw [hm]
      rfl
    refine ⟨_, hstart.trans (proposeInternal_effects hI (fun p hp => ?_) fun p hp => ?_), htick,
      fun e he => ?_, hlist⟩
    · exact hsigns p (.takeover htakes (hoffers p hp))
    · rw [hid, hids, hquorum]
      exact hcounts p _ _ (.takeover htakes (hoffers p hp))
    · show e ∈ n.tick.2.1 ↔ _
      rw [hmsgs, List.mem_append, or_iff_right fun hm => he (hbeat e hm)]

/-- Every operation performs effects, from what it brings and what the node holds. -/
theorem step_effects (hkey : Keyed n) (hout : n.outgoing = []) (hcalls : n.listenerCalls = [])
    (op : Node.Op) : ∃ m, Performs (inputs n op) n op m := by
  cases op with
  | submitClaim s => exact ⟨_, performs_of_drain (submitClaim_effects s (.inl rfl)) rfl⟩
  | receive topic m => exact ⟨_, performs_of_drain (receive_effects hkey topic m) rfl⟩
  | syncRequest req => exact ⟨_, performs_of_drain (.quiet (quiet_onSyncRequest n req)) rfl⟩
  | syncResponse resp => exact ⟨_, performs_of_drain (onSyncResponse_effects resp) rfl⟩
  | proposeNow =>
    have heff : Effects (inputs n .proposeNow) n n.proposeInternal :=
      proposeInternal_effects (.inr rfl) (fun _ => .own) fun _ => .own
    exact ⟨_, performs_of_drain heff rfl⟩
  | tick => exact tick_effects (.inl rfl) rfl (fun _ h => h) (fun _ _ _ h => h) hout hcalls

end Exodus.Interface
