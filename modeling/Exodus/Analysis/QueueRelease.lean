import Exodus.Analysis.CatchUp
import Exodus.Analysis.Shares
import Exodus.Interface.Reorg

/-!
# Queued commits and the head

A commit that arrives early waits in `pending_commits` until the blocks below it are stored.
`flush_pending_commits` leaves nothing at the next height (`flushPendingCommits_next`), but it
is called from `on_commit` only.  A block that the node commits on its own quorum, and a
full-chain response that extends the local chain, move the head without a flush.
`queue_released` says that nothing else is needed: if these two do not end right below a
waiting block that links to them, no block waits that could be stored.
-/

set_option autoImplicit false

namespace Exodus.Analysis

open Exodus.Library Exodus.Model Exodus.Interface

variable [Crates] {n m : Node} {chain peer : List Checkpoint} {c : Checkpoint}
  {p : CheckpointProposal} {op : Node.Op}

/-- The block passes `validate_checkpoint` and `append` on the current store. -/
def Releasable (n : Node) (c : Checkpoint) : Prop :=
  (∃ seen, validateCheckpoint c n.store n.config.flopsTolerance n.quorumSize false none =
    .ok seen) ∧ ∃ st, n.store.append c = .ok st

/-- No block waits at the next height that could be stored. -/
def Released (n : Node) : Prop :=
  ∀ c, n.pendingCommits[n.store.height + 1]? = some c → ¬ Releasable n c

/-- Without a queued block above the head nothing is kept back. -/
theorem released_of_none (h : n.pendingCommits[n.store.height + 1]? = none) : Released n := by
  intro c hc
  rw [h] at hc
  cases hc

/-- The ledger, the settings and the queue are as before. -/
structure Untouched (n m : Node) : Prop where
  store : m.store = n.store
  config : m.config = n.config
  queue : m.pendingCommits = n.pendingCommits

omit [Crates] in
/-- A step that leaves the core leaves ledger and queue. -/
theorem Untouched.of_core_eq (h : core m = core n) : Untouched n m :=
  ⟨congrArg Core.store h, congrArg Core.config h, congrArg Core.pendingCommits h⟩

omit [Crates] in
/-- Two such steps are one. -/
theorem Untouched.trans {l : Node} (h : Untouched n m) (h' : Untouched m l) : Untouched n l :=
  ⟨h'.store.trans h.store, h'.config.trans h.config, h'.queue.trans h.queue⟩

omit [Crates] in
/-- Draining is such a step. -/
theorem untouched_drain (n : Node) : Untouched n n.drain.1 := ⟨rfl, rfl, rfl⟩

omit [Crates] in
/-- So is one that leaves the ledger and the queue of blocks. -/
theorem SameLedger.untouched (h : SameLedger n m) : Untouched n m :=
  ⟨h.store, h.identity.2, h.queue⟩

/-! ## Operations that commit nothing -/

/-- So is submitting a claim. -/
theorem submitClaim_untouched (n : Node) (s : SignedContribution) :
    Untouched n (n.submitClaim s).1 := by
  unfold Node.submitClaim
  split_ifs
  · exact .of_core_eq rfl
  · exact .of_core_eq rfl
  · exact .of_core_eq rfl
  · exact .of_core_eq rfl
  · exact ⟨rfl, rfl, rfl⟩

/-- So is signing. -/
theorem adopt_untouched (n : Node) (p : CheckpointProposal) :
    Untouched n ((n.adoptProposal p).addOwnSignature p) := by
  exact ⟨store_adopt n p, config_adopt n p, queue_adopt n p⟩

/-- So is proposing, before the shares are counted. -/
theorem proposed_untouched (n : Node) (p : CheckpointProposal) : Untouched n (proposed n p) := by
  have hclock : Untouched n n.tickClock := ⟨rfl, rfl, rfl⟩
  exact hclock.trans ((adopt_untouched n.tickClock p).trans (.of_core_eq (core_proposed n p)))

/-- An attempt to commit starts from the ledger and the queue before the operation. -/
theorem Attempts.untouched (h : Attempts n op m p) : Untouched n m := by
  cases h with
  | share hv hp => exact ⟨rfl, rfl, rfl⟩
  | proposal hs hself =>
    obtain ⟨hstore, hconfig, hqueue⟩ := adopt_untouched n p
    exact ⟨hstore, hconfig, hqueue⟩
  | propose hp => exact proposed_untouched n p
  | takeover htake hp =>
    have hadvanced : Untouched n n.advanceView.1 := .of_core_eq (advanceView_cases n).1
    exact (hadvanced.trans (untouched_drain _)).trans (proposed_untouched _ p)

/-- `propose_internal` makes a proposal, or changes neither the ledger nor the queue. -/
theorem proposes_or_untouched (n : Node) :
    (∃ p, Proposes n p) ∨ Untouched n n.proposeInternal := by
  rcases proposeInternal_cases n with hq | ⟨head, seen, hsealer, hhead, hout, hval, -⟩
  · exact .inr (.of_core_eq hq.core_eq)
  · have hclaims : n.eligibleClaims ≠ [] :=
      ((validateProposal_ok_iff_head _ _ _ _).mp hval).2.2.2.1 rfl
    exact .inl ⟨_, hsealer, ⟨head, hhead, hout, hclaims, rfl⟩, seen, hval⟩

/-- `maybe_commit` leaves the settings and the queue. -/
theorem maybeCommit_queue (n : Node) (p : CheckpointProposal) :
    (n.maybeCommit p).config = n.config ∧ (n.maybeCommit p).pendingCommits = n.pendingCommits := by
  rcases maybeCommit_cases n p with hsame | ⟨st, -, -, -, heq⟩
  · exact ⟨hsame.identity.2, hsame.queue⟩
  · have hcore := core_announceCommit ({ n with store := st } : Node) (n.assembleCheckpoint p)
    rw [heq]
    exact ⟨congrArg Core.config hcore, congrArg Core.pendingCommits hcore⟩

/-- The queue is not touched by what the node commits on its own. -/
theorem proposeInternal_queue (n : Node) :
    n.proposeInternal.config = n.config ∧
      n.proposeInternal.pendingCommits = n.pendingCommits := by
  rcases proposes_or_untouched n with ⟨p, hp⟩ | hsame
  · obtain ⟨hconfig, hqueue⟩ := maybeCommit_queue (proposed n p) p
    have hstart := proposed_untouched n p
    rw [hp.proposeInternal_eq]
    exact ⟨hconfig.trans hstart.config, hqueue.trans hstart.queue⟩
  · exact ⟨hsame.config, hsame.queue⟩

/-- A message is a block, makes the node count shares, or leaves ledger and queue. -/
theorem receive_cases (n : Node) (topic : String) (msg : Message) :
    (∃ c, Node.Op.receive topic msg = .receive Topics.commits (.commitMessage c)) ∨
      (∃ m p, Attempts n (.receive topic msg) m p) ∨ Untouched n (n.receive topic msg) := by
  have hsame : Untouched n n := .of_core_eq rfl
  unfold Node.receive
  cases msg with
  | contributionGossip s =>
    dsimp only
    split_ifs
    · exact .inr (.inr (SameLedger.untouched (sameLedger_onClaims n s)))
    · exact .inr (.inr hsame)
  | proposalMessage p =>
    dsimp only
    split_ifs with htopic
    · subst htopic
      by_cases hs : Signs n p
      · by_cases hself : (adopted n p).sealerForView (adopted n p).view = (adopted n p).nodeId
        · exact .inr (.inl ⟨_, p, .proposal hs hself⟩)
        · rw [hs.onProposal_eq, if_neg hself]
          obtain ⟨hstore, hconfig, hqueue⟩ := adopt_untouched n p
          exact .inr (.inr ⟨hstore, hconfig, hqueue⟩)
      · rw [onProposal_of_not_signs hs]
        exact .inr (.inr hsame)
    · exact .inr (.inr hsame)
  | signatureShare share =>
    dsimp only
    split_ifs with htopic
    · subst htopic
      cases hv : share.verify with
      | false =>
        right; right
        unfold Node.onSignature
        rw [hv]
        exact hsame
      | true =>
        cases hp : n.proposals[share.proposalHash]? with
        | none =>
          right; right
          unfold Node.onSignature
          rw [hv, hp]
          exact hsame
        | some p => exact .inr (.inl ⟨_, p, .share hv hp⟩)
    · exact .inr (.inr hsame)
  | commitMessage c =>
    dsimp only
    split_ifs with htopic
    · subst htopic
      exact .inl ⟨c, rfl⟩
    · exact .inr (.inr hsame)
  | heartbeat hb =>
    dsimp only
    split_ifs
    · exact .inr (.inr (.of_core_eq (quiet_onHeartbeat n hb).core_eq))
    · exact .inr (.inr hsame)
  | forkAlert a =>
    dsimp only
    split_ifs
    · exact .inr (.inr ⟨rfl, rfl, rfl⟩)
    · exact .inr (.inr hsame)
  | syncRequest | syncResponse => exact .inr (.inr hsame)

/-- A tick advances the view or not, and proposes only if it does. -/
theorem tick_fst (n : Node) : (n.step .tick).1 = if n.advanceView.2 = true
    then n.advanceView.1.drain.1.proposeInternal.drain.1 else n.advanceView.1.drain.1 := by
  show n.tick.1 = _
  unfold Node.tick
  dsimp only
  split_ifs
  · rfl
  · rfl

/-- A tick makes the node count shares, or leaves ledger and queue. -/
theorem tick_cases_commit (n : Node) :
    (∃ m p, Attempts n .tick m p) ∨ Untouched n (n.step .tick).1 := by
  have hadvanced : Untouched n n.advanceView.1 := .of_core_eq (advanceView_cases n).1
  have hviewed := hadvanced.trans (untouched_drain _)
  rw [tick_fst]
  by_cases htake : n.advanceView.2 = true
  · rw [if_pos htake]
    rcases proposes_or_untouched n.advanceView.1.drain.1 with ⟨p, hp⟩ | hsame
    · exact .inl ⟨_, p, .takeover htake hp⟩
    · exact .inr ((hviewed.trans hsame).trans (untouched_drain _))
  · rw [if_neg htake]
    exact .inr hviewed

/-- Besides commits and sync responses, an operation attempts one commit or changes neither
the ledger nor the queue. -/
theorem step_cases (n : Node) (op : Node.Op) :
    (∃ c, op = .receive Topics.commits (.commitMessage c)) ∨ (∃ resp, op = .syncResponse resp) ∨
      (∃ m p, Attempts n op m p) ∨ Untouched n (n.step op).1 := by
  cases op with
  | submitClaim s =>
    exact .inr (.inr (.inr ((submitClaim_untouched n s).trans (untouched_drain _))))
  | receive topic msg =>
    rcases receive_cases n topic msg with hc | ha | hsame
    · exact .inl hc
    · exact .inr (.inr (.inl ha))
    · exact .inr (.inr (.inr (hsame.trans (untouched_drain _))))
  | syncRequest req =>
    have hsame : Untouched n (n.onSyncRequest req) := .of_core_eq (quiet_onSyncRequest n req).core_eq
    exact .inr (.inr (.inr (hsame.trans (untouched_drain _))))
  | syncResponse resp => exact .inr (.inl ⟨resp, rfl⟩)
  | proposeNow =>
    rcases proposes_or_untouched n with ⟨p, hp⟩ | hsame
    · exact .inr (.inr (.inl ⟨_, p, .propose hp⟩))
    · exact .inr (.inr (.inr (hsame.trans (untouched_drain _))))
  | tick => exact .inr (.inr (tick_cases_commit n))

/-! ## The condition -/

/-- A full chain that extends the local one does not end right below a waiting block that
links to it.  If the ledger refuses the last block, the end is the block before it. -/
structure ClearAbove (n : Node) (peer : List Checkpoint) (last : Checkpoint) : Prop where
  adopted : (∃ st, adoptAll n.config.flopsTolerance (incomingOf n peer) (baseOf n peer) = some st) →
    ∀ d, n.pendingCommits[last.height + 1]? = some d → d.proposal.prevHash ≠ last.blockHash
  refused : (∃ st, LastRefused n.config.flopsTolerance (incomingOf n peer) (baseOf n peer) st) →
    ∀ d, n.pendingCommits[last.height]? = some d → d.proposal.prevHash ≠ last.proposal.prevHash

/-- The operation does not move the head right below a waiting block that links to it, but
by `on_commit`. -/
structure KeepsUp (n : Node) (op : Node.Op) : Prop where
  /-- no block waits for the one that the node commits on its own quorum -/
  own : ∀ m p, Attempts n op m p → m.quorumSize ≤ (m.signatures.getD p.proposalHash ∅).size →
    ∀ d, n.pendingCommits[n.store.height + 2]? = some d →
      d.proposal.prevHash ≠ (m.assembleCheckpoint p).blockHash
  /-- nor for the last one of a full chain that extends the local chain -/
  response : ∀ resp, op = .syncResponse resp → (∃ b ∈ resp.blocks, b.height = 0) →
    Enters n resp.blocks → n.store.height ≤ ancestorOf n resp.blocks →
    ∀ last ∈ (incomingOf n resp.blocks).getLast?, ClearAbove n resp.blocks last

/-! ## Released states -/

variable [SerdeReadsBack]

/-- Nothing is kept back if the block queued above the head, if there is one, does not follow it.
-/
theorem released_iff (h : Refines n.store chain) :
    Released n ↔ ∀ c, n.pendingCommits[(chain.length : ℤ)]? = some c →
      ¬ Follows n.config.flopsTolerance chain c := by
  have hnext : n.store.height + 1 = chain.length := by
    rw [h.height]
    omega
  have hreleasable (c : Checkpoint) :
      Releasable n c ↔ Follows n.config.flopsTolerance chain c := by
    rw [Releasable, h.validateCheckpoint_ok_iff c _ none rfl, h.append_ok_iff_extends]
    exact ⟨fun hc => ⟨hc.1, hc.2⟩, fun hc => ⟨hc.passes, hc.can_append⟩⟩
  unfold Released
  rw [hnext]
  simp only [hreleasable]

/-- Steps that leave ledger and queue keep nothing back. -/
theorem Released.untouched (h : Released n) (href : Refines n.store chain)
    (hsame : Untouched n m) : Released m := by
  have href' : Refines m.store chain := hsame.store ▸ href
  rw [released_iff href', hsame.config, hsame.queue]
  exact (released_iff href).mp h

/-- A block that waits above the chain and does not link to its end cannot be stored. -/
theorem released_of_unlinked (h : Refines n.store chain)
    (hlink : ∀ d, n.pendingCommits[(chain.length : ℤ)]? = some d →
      d.proposal.prevHash ≠ headHash chain) : Released n := by
  rw [released_iff h]
  intro d hd hfollows
  exact hlink d hd hfollows.can_append.prevHash_eq

/-! ## The flush -/

/-- Every waiting height is still to come, or it is below all that are and not the next one. -/
def Scanned (heights : List ℤ) (n : Node) : Prop :=
  ∀ h ∈ n.pendingCommits, h ∈ heights ∨ h ≠ n.store.height + 1 ∧ ∀ x ∈ heights, h < x

/-- One height of the flush: it is passed over, or it is the next one and leaves the queue,
and the chain grows by one block at most. -/
theorem flushHeight_cases (h : Refines n.store chain) (x : ℤ) :
    x ≠ n.store.height + 1 ∧ n.flushHeight x = n ∨
      x = n.store.height + 1 ∧
        (∀ y ∈ (n.flushHeight x).pendingCommits, y ∈ n.pendingCommits ∧ y ≠ x) ∧
        ∃ more, Refines (n.flushHeight x).store (chain ++ more) ∧ more.length ≤ 1 := by
  have hhead : (n.store.head.map Checkpoint.height).getD (-1) = n.store.height := by
    rw [h.head_height, h.height]
  have hkept : ∃ more, Refines n.store (chain ++ more) ∧ more.length ≤ 1 :=
    ⟨[], by rwa [List.append_nil], by simp⟩
  by_cases hx : x = n.store.height + 1
  case neg =>
    left
    refine ⟨hx, ?_⟩
    unfold Node.flushHeight
    rw [hhead, if_pos hx]
  right
  refine ⟨hx, ?_⟩
  cases hc : n.pendingCommits[x]? with
  | none =>
    have hflush : n.flushHeight x = n := by
      unfold Node.flushHeight
      rw [hhead, if_neg (not_not.mpr hx), hc]
    rw [hflush]
    refine ⟨?_, hkept⟩
    intro y hy
    refine ⟨hy, ?_⟩
    rintro rfl
    rw [Std.ExtTreeMap.mem_iff_isSome_getElem?, hc] at hy
    cases hy
  | some c =>
    have herased : ∀ y ∈ n.pendingCommits.erase x, y ∈ n.pendingCommits ∧ y ≠ x := by
      intro y hy
      rw [Std.ExtTreeMap.mem_erase, ne_eq, Std.compare_eq_iff_eq] at hy
      exact ⟨hy.2, fun heq => hy.1 heq.symm⟩
    generalize hm : ({ n with pendingCommits := n.pendingCommits.erase x } : Node) = m
    have hstore : m.store = n.store := by rw [← hm]
    have hqueue : m.pendingCommits = n.pendingCommits.erase x := by rw [← hm]
    have hflush : n.flushHeight x = m ∨ n.flushHeight x = m.commitLocal c := by
      unfold Node.flushHeight
      rw [hhead, if_neg (not_not.mpr hx), hc]
      dsimp only
      rw [hm]
      cases validateCheckpoint c n.store n.config.flopsTolerance m.quorumSize false none with
      | error e => exact .inl rfl
      | ok seen => exact .inr rfl
    rcases hflush with hflush | hflush
    · rw [hflush, hqueue, hstore]
      exact ⟨herased, hkept⟩
    · rw [hflush]
      rcases commitLocal_cases m c with hsame | ⟨st, happ, heq⟩
      · rw [hsame.queue, hsame.store, hqueue, hstore]
        exact ⟨herased, hkept⟩
      · rw [heq, queue_announceCommit, store_announceCommit]
        rw [hstore] at happ
        refine ⟨?_, [c], (h.append_ok happ).2, by simp⟩
        show ∀ y ∈ m.pendingCommits, _
        rw [hqueue]
        exact herased

/-- Taking the lowest of the queued heights: the chain may grow, and the others are still to be
looked at. -/
theorem Scanned.flushHeight {x : ℤ} {rest : List ℤ} (hscan : Scanned (x :: rest) n)
    (h : Refines n.store chain) (hsorted : ∀ y ∈ rest, x < y) :
    Scanned rest (n.flushHeight x) ∧ ∃ more, Refines (n.flushHeight x).store (chain ++ more) := by
  rcases flushHeight_cases h x with ⟨hne, heq⟩ | ⟨rfl, hqueue, more, hmore, hlen⟩
  · rw [heq]
    refine ⟨?_, [], by rwa [List.append_nil]⟩
    intro y hy
    rcases hscan y hy with hmem | ⟨hnext, hbelow⟩
    · rcases List.mem_cons.mp hmem with rfl | hmem
      · exact .inr ⟨hne, hsorted⟩
      · exact .inl hmem
    · exact .inr ⟨hnext, fun z hz => hbelow z (List.mem_cons_of_mem _ hz)⟩
  · refine ⟨?_, more, hmore⟩
    intro y hy
    obtain ⟨hqueued, hne⟩ := hqueue y hy
    rcases hscan y hqueued with hmem | ⟨-, hbelow⟩
    · rcases List.mem_cons.mp hmem with rfl | hmem
      · exact absurd rfl hne
      · exact .inl hmem
    · -- the head has not gone down, so a height below the old next one is not next
      have hlow := hbelow _ List.mem_cons_self
      refine .inr ⟨?_, fun z hz => hbelow z (List.mem_cons_of_mem _ hz)⟩
      rw [hmore.height, List.length_append]
      rw [h.height] at hlow
      omega

/-- When all heights have been looked at, nothing is kept back. -/
theorem Scanned.flush {heights : List ℤ} (hscan : Scanned heights n) (h : Refines n.store chain)
    (hsorted : heights.Pairwise (· < ·)) :
    Scanned [] (heights.foldl Node.flushHeight n) := by
  induction heights generalizing n chain with
  | nil => exact hscan
  | cons x rest ih =>
    rw [List.pairwise_cons] at hsorted
    obtain ⟨hnext, more, hmore⟩ := hscan.flushHeight h hsorted.1
    exact ih hnext hmore hsorted.2

/-- After a flush on a ledger with a head nothing waits at the next height. -/
theorem flushPendingCommits_next (h : Refines n.store chain) (hne : chain ≠ []) :
    Released n.flushPendingCommits := by
  obtain ⟨tip, htip⟩ := Option.ne_none_iff_exists'.mp (mt List.getLast?_eq_none_iff.mp hne)
  have hhead : n.store.head = some (readBack tip) := by rw [h.head, htip, Option.map_some]
  have hscan : Scanned n.pendingCommits.keys n := by
    intro y hy
    exact .inl (Std.ExtTreeMap.mem_keys.mpr hy)
  have hdone := hscan.flush h
    (Std.ExtTreeMap.ordered_keys.imp fun hlt => Std.compare_eq_lt.mp hlt)
  apply released_of_none
  unfold Node.flushPendingCommits
  rw [hhead]
  dsimp only
  generalize n.pendingCommits.keys.foldl Node.flushHeight n = m at hdone
  by_contra hsome
  have hmem : m.store.height + 1 ∈ m.pendingCommits :=
    Std.ExtTreeMap.mem_iff_isSome_getElem?.mpr (Option.ne_none_iff_isSome.mp hsome)
  rcases hdone _ hmem with hnil | ⟨hnext, -⟩
  · cases hnil
  · exact hnext rfl

/-! ## Received commits -/

/-- A next block keeps nothing back, for the queue is emptied behind it. -/
theorem acceptCommit_released (h : Released n) (href : Refines n.store chain) (c : Checkpoint) :
    Released (n.acceptCommit c) := by
  rcases acceptCommit_cases n c with ⟨-, heq⟩ | ⟨-, ⟨e, -, heq⟩ | ⟨seen, -, heq⟩⟩
  · rwa [heq]
  · rw [heq, noteCommitReject_eq]
    exact h.untouched href ⟨rfl, rfl, rfl⟩
  rw [heq]
  rcases commitLocal_cases { n with committedClaimIds := seen } c with hsame | ⟨st, happ, hcommit⟩
  · generalize ({ n with committedClaimIds := seen } : Node).commitLocal c = m at hsame
    have hm : Untouched n m := ⟨hsame.store, hsame.identity.2, hsame.queue⟩
    have href' : Refines m.store chain := hm.store ▸ href
    by_cases hne : chain = []
    · -- without a head there is no flush
      have hflush : m.flushPendingCommits = m := by
        unfold Node.flushPendingCommits
        rw [href'.head, hne]
        rfl
      rw [hflush]
      exact h.untouched href hm
    · exact flushPendingCommits_next href' hne
  · have hcore := core_announceCommit
      ({ ({ n with committedClaimIds := seen } : Node) with store := st } : Node) c
    rw [← hcommit] at hcore
    generalize ({ n with committedClaimIds := seen } : Node).commitLocal c = m at hcore
    have href' : Refines m.store (chain ++ [c]) := by
      rw [show m.store = st from congrArg Core.store hcore]
      exact (href.append_ok happ).2
    exact flushPendingCommits_next href' (by simp)

/-- Nor does any other block. -/
theorem onCommit_released (h : Released n) (href : Refines n.store chain) (c : Checkpoint) :
    Released (n.onCommit c) := by
  by_cases hnext : IsNext n.store c
  · rw [onCommit_of_isNext hnext]
    exact acceptCommit_released h href c
  rcases onCommit_of_not_isNext hnext with hq | ⟨hheight, hq⟩
  · exact h.untouched href (.of_core_eq hq.core_eq)
  · -- the block is queued at another height, and the trim only drops blocks
    have hsame := Untouched.of_core_eq hq.core_eq
    have href' : Refines (n.onCommit c).store chain := by
      rw [hsame.store]
      exact href
    rw [href.head_height] at hheight
    rw [released_iff href', hsame.config, hsame.queue]
    intro d hd
    have hd' := getElem?_trimPendingCommits _ hd
    have hother : ¬ compare c.height (chain.length : ℤ) = .eq := by
      rw [Std.compare_eq_iff_eq]
      omega
    rw [Std.ExtTreeMap.getElem?_insert, if_neg hother] at hd'
    exact (released_iff href).mp h d hd'

/-- Nor do blocks in a row. -/
theorem onCommits_released (blocks : List Checkpoint) (hinv : Invariant (core n))
    (h : Released n) : Released (blocks.foldl Node.onCommit n) := by
  induction blocks generalizing n with
  | nil => exact h
  | cons c rest ih =>
    have heff : Effects Inputs.any n (n.onCommit c) :=
      onCommit_effects c trivial trivial fun _ _ _ => trivial
    obtain ⟨chain, href⟩ := hinv.chain
    exact ih (heff.invariant hinv) (onCommit_released h href c)

/-! ## Own commits -/

/-- Nor does a block of the node itself, unless a queued one is linked to it. -/
theorem maybeCommit_released (h : Released m) (href : Refines m.store chain)
    (hlink : m.quorumSize ≤ (m.signatures.getD p.proposalHash ∅).size →
      ∀ d, m.pendingCommits[m.store.height + 2]? = some d →
        d.proposal.prevHash ≠ (m.assembleCheckpoint p).blockHash) :
    Released (m.maybeCommit p) := by
  rcases maybeCommit_cases m p with hsame | ⟨st, happ, hsize, -, heq⟩
  · exact h.untouched href (SameLedger.untouched hsame)
  · have hcore := core_announceCommit ({ m with store := st } : Node) (m.assembleCheckpoint p)
    rw [← heq] at hcore
    have href' : Refines (m.maybeCommit p).store (chain ++ [m.assembleCheckpoint p]) := by
      rw [show (m.maybeCommit p).store = st from congrArg Core.store hcore]
      exact (href.append_ok happ).2
    apply released_of_unlinked href'
    intro d hd
    rw [show (m.maybeCommit p).pendingCommits = m.pendingCommits from
      congrArg Core.pendingCommits hcore] at hd
    rw [headHash_concat]
    apply hlink hsize
    rw [href.height]
    convert hd using 2
    rw [List.length_append, List.length_singleton]
    push_cast
    ring

/-! ## Reorganisations -/

omit [SerdeReadsBack] in
/-- `commit_local` leaves the queue. -/
theorem commitLocal_queue (n : Node) (c : Checkpoint) :
    (n.commitLocal c).pendingCommits = n.pendingCommits := by
  rcases commitLocal_cases n c with hsame | ⟨st, -, heq⟩
  · exact hsame.queue
  · rw [heq]
    exact queue_announceCommit ({ n with store := st } : Node) c

omit [SerdeReadsBack] in
/-- So does applying the blocks of a peer. -/
theorem reapply_queue (ancestor : ℤ) (saved incoming : List Checkpoint) (applied : ℕ) (n : Node) :
    (Node.reapply ancestor saved incoming applied n).pendingCommits = n.pendingCommits := by
  induction incoming generalizing applied n with
  | nil => rfl
  | cons b rest ih =>
    unfold Node.reapply
    split
    · rfl
    · rw [ih, commitLocal_queue]

omit [SerdeReadsBack] in
/-- A reorganisation leaves the settings. -/
theorem reconcileChain_config (n : Node) (peer : List Checkpoint) :
    (n.reconcileChain peer).config = n.config := by
  have heff : Effects Inputs.any n (n.reconcileChain peer) :=
    reconcileChain_effects trivial peer fun _ _ => trivial
  exact congrArg (fun i => i.2.2.2) (Effects.identity_eq heff)

/-- A reorganisation that rolls back drops every block that waits above the ancestor. -/
theorem reconcileChain_released_of_cut (href : Refines n.store chain) (hin : Enters n peer)
    (hcut : ancestorOf n peer < n.store.height) : Released (n.reconcileChain peer) := by
  obtain ⟨k, hk, ha, -, -⟩ := href.commonAncestor (sortedBlocks peer)
  replace ha : ancestorOf n peer = (k : ℤ) - 1 := ha
  have hqueue : (n.reconcileChain peer).pendingCommits =
      n.pendingCommits.filter fun h _ => decide (h ≤ (baseOf n peer).height) := by
    rw [reconcileChain_of_enters hin, reapply_queue, cutNode, if_pos hcut]
  have hbase : (baseOf n peer).height = (k : ℤ) - 1 := by
    rw [(href.baseOf ha).height, List.length_take, min_eq_left hk]
  -- whatever the outcome, the ledger holds the blocks up to the ancestor
  obtain ⟨more, hmore⟩ : ∃ more, Refines (n.reconcileChain peer).store (chain.take k ++ more) := by
    rcases href.reconcileChain_cases hk ha hin with ⟨_, _, h'⟩ | ⟨_, _, _, _, h'⟩ | ⟨_, _, h'⟩
    · exact ⟨_, h'⟩
    · exact ⟨_, h'⟩
    · exact ⟨_, h'⟩
  apply released_of_unlinked hmore
  intro d hd
  rw [hqueue, hbase, List.length_append, List.length_take, min_eq_left hk] at hd
  rw [Std.ExtTreeMap.getElem?_filter] at hd
  obtain ⟨hx, hkeep⟩ := Option.pfilter_eq_some_iff.mp hd
  rw [Std.ExtTreeMap.getKey_eq, decide_eq_true_eq] at hkeep
  omega

/-- A reorganisation without a rollback is a run of commits on top of the local chain. -/
theorem reconcileChain_released_of_extend (h : Released n) (href : Refines n.store chain)
    (hin : Enters n peer) (hcut : n.store.height ≤ ancestorOf n peer)
    (hclear : ∀ last ∈ (incomingOf n peer).getLast?, ClearAbove n peer last) :
    Released (n.reconcileChain peer) := by
  obtain ⟨k, hk, ha, -, -⟩ := href.commonAncestor (sortedBlocks peer)
  replace ha : ancestorOf n peer = (k : ℤ) - 1 := ha
  have hwhole : chain.take k = chain := by
    rw [href.height] at hcut
    exact List.take_of_length_le (by omega)
  have hlen : chain.length = k := by
    rw [href.height] at hcut
    omega
  have hqueue : (n.reconcileChain peer).pendingCommits = n.pendingCommits := by
    rw [reconcileChain_of_enters hin, reapply_queue, cutNode, if_neg (not_lt.mpr hcut)]
  have hsame (href' : Refines (n.reconcileChain peer).store chain) :
      Released (n.reconcileChain peer) := by
    rw [released_iff href', reconcileChain_config, hqueue]
    exact (released_iff href).mp h
  rcases href.reconcileChain_cases hk ha hin with ⟨st', hst', href'⟩ |
    ⟨init, last, hincoming, ⟨st', hlast⟩, href'⟩ | ⟨-, -, href'⟩
  · rw [hwhole] at href'
    rcases List.eq_nil_or_concat' (incomingOf n peer) with hnil | ⟨init, last, hincoming⟩
    · rw [hnil, List.append_nil] at href'
      exact hsame href'
    · have hend : last ∈ (incomingOf n peer).getLast? := by
        rw [hincoming, List.getLast?_concat]
        exact rfl
      rw [hincoming, ← List.append_assoc] at href'
      have hheight := (Log.snoc_iff.mp href'.chain_ok).2.height_eq
      apply released_of_unlinked href'
      intro d hd
      rw [hqueue] at hd
      rw [headHash_concat]
      apply (hclear last hend).adopted ⟨st', hst'⟩ d
      rw [hheight]
      simpa [add_assoc] using hd
  · rw [hwhole] at href'
    have hend : last ∈ (incomingOf n peer).getLast? := by
      rw [hincoming, List.getLast?_concat]
      exact rfl
    obtain ⟨init', last', hsplit, hinit, ⟨seen, hval⟩, -⟩ := id hlast
    obtain ⟨rfl, heq⟩ := List.append_inj' (hincoming.symm.trans hsplit) rfl
    obtain rfl : last = last' := by simpa using heq
    have hst := ((href.baseOf ha).adoptAll_eq_some_iff _).mp hinit
    rw [hwhole] at hst
    have hheight : last.height = (chain ++ init).length := by
      have hpos : init.length < (incomingOf n peer).length := by simp [hincoming]
      have hat := contiguous_getElem hin.2 hpos
      have hget : (incomingOf n peer)[init.length] = last := by simp [hincoming]
      rw [hget, ha] at hat
      rw [hat, List.length_append, hlen]
      push_cast
      ring
    -- the refused block links to the block before it
    have hlink : last.proposal.prevHash = headHash (chain ++ init) := by
      rcases (hst.2.validateCheckpoint_ok_iff last 0 (some ∅) rfl).mp ⟨seen, hval⟩ with
        hg | ⟨-, hp, -⟩
      · have hgenesis := (isCanonicalGenesis_iff _).mp hg
        have hnil : chain ++ init = [] := by
          rw [Checkpoint.height, hgenesis] at hheight
          have hzero : (0 : ℤ) = (chain ++ init).length := hheight
          exact List.length_eq_zero_iff.mp (by omega)
        rw [hnil, hgenesis]
        rfl
      · exact hp.prevHash_eq
    apply released_of_unlinked href'
    intro d hd
    rw [hqueue, ← hheight] at hd
    rw [← hlink]
    exact (hclear last hend).refused ⟨st', hlast⟩ d hd
  · rw [← hlen, List.take_length, List.drop_length, List.map_nil, List.append_nil] at href'
    exact hsame href'

/-! ## Runs -/

/-- An operation that keeps up keeps nothing back. -/
theorem step_released (hinv : Invariant (core n)) (h : Released n) (hop : KeepsUp n op) :
    Released (n.step op).1 := by
  obtain ⟨chain, href⟩ := hinv.chain
  replace href : Refines n.store chain := href
  rcases step_cases n op with ⟨c, rfl⟩ | ⟨resp, rfl⟩ | ⟨m, p, ha⟩ | hsame
  · exact onCommit_released h href c
  · show Released (n.onSyncResponse resp)
    unfold Node.onSyncResponse
    split_ifs with hfull
    · by_cases hin : Enters n resp.blocks
      case neg => rwa [reconcileChain_of_not_enters hin]
      rcases lt_or_ge (ancestorOf n resp.blocks) n.store.height with hcut | hcut
      · exact reconcileChain_released_of_cut href hin hcut
      · exact reconcileChain_released_of_extend h href hin hcut
          (hop.response resp rfl (by simpa using hfull) hin hcut)
    · exact onCommits_released resp.blocks hinv h
  · have hm := ha.untouched
    have hlink := hop.own m p ha
    rw [← hm.queue, ← hm.store] at hlink
    have hdone := maybeCommit_released (h.untouched href hm) (hm.store ▸ href) hlink
    rw [ha.step_eq]
    exact hdone
  · exact h.untouched href hsame

omit [SerdeReadsBack] in
/-- A new node keeps nothing back. -/
theorem released_new (nodeId : String) (privateKey : List UInt8) (publicKeyHex : String)
    (st : ChainStore) (config : ExodusConfig) (ambient : Ambient) :
    Released (Node.new nodeId privateKey publicKeyHex st config ambient) := by
  apply released_of_none
  rw [(started_new nodeId privateKey publicKeyHex st config ambient).queue]
  simp

/-- In every run whose own commits and full-chain responses do not end right below a waiting
block that links to them, no block waits that could be stored. -/
theorem queue_released (hn : ReachableBy KeepsUp n) : Released n := by
  induction hn with
  | start => exact released_new _ _ _ _ _ _
  | restart => exact released_new _ _ _ _ _ _
  | step hn op hop ih =>
    exact step_released (reachable_idle hn.reachable).1 ih hop

end Exodus.Analysis

/-! ## On the sample -/

namespace Exodus.Analysis

open Exodus.Library Exodus.Model Exodus.Interface Exodus.Sample Signer

/-- Receiving a commit meets the condition in every state. -/
theorem keepsUp_commit (n : Node) (c : Checkpoint) :
    KeepsUp n (.receive Topics.commits (.commitMessage c)) := by
  constructor
  · intro m p ha
    generalize hop : Node.Op.receive Topics.commits (.commitMessage c) = op at ha
    cases ha with
    | share => simp at hop
    | proposal => simp at hop
    | propose | takeover => cases hop
  · intro resp hop
    cases hop

/-- The second block of the sample comes first and waits. -/
theorem second_waits_released :
    Released ((fresh a "t1").step (.receive Topics.commits (.commitMessage secondBlock))).1 := by
  have hstart : ReachableBy KeepsUp (fresh a "t1") := by
    rw [fresh_eq_new]
    exact .start _ _ _ _ _
  exact queue_released (hstart.step _ (keepsUp_commit _ _))

/-- A block above the next height is queued, and a sync may be requested. -/
theorem step_early {n : Node} {c head : Checkpoint} (hhead : n.store.head = some head)
    (hgap : head.height + 1 < c.height) :
    ∃ reads last, (n.step (.receive Topics.commits (.commitMessage c))).1 =
      { n.drain.1 with
        pendingCommits := (n.insertPendingCommit c).pendingCommits
        reads := reads
        lastSyncRequest := last } := by
  show ∃ reads last, (n.onCommit c).drain.1 = _
  unfold Node.onCommit
  rw [hhead]
  dsimp only
  rw [if_neg (by omega), if_pos hgap]
  unfold Node.requestSync
  dsimp only
  split_ifs
  · exact ⟨_, _, rfl⟩
  · exact ⟨_, _, rfl⟩

/-- What a node waits with does not depend on its queue or its clock. -/
theorem waiting_requeue {s : Signer} {n : Node} (h : Waiting s n)
    (queue : Std.ExtTreeMap ℤ Checkpoint compare) (reads : ℕ) (last : Float) :
    Waiting s { n with pendingCommits := queue, reads := reads, lastSyncRequest := last } :=
  ⟨h.refines, h.nodeId_eq, h.key_eq, h.seed_eq, h.config_eq, h.committed, h.unsigned, h.idle,
    h.claims_eq⟩

/-- Nor do the committee and its election. -/
theorem sealerForView_requeue (n : Node) (queue : Std.ExtTreeMap ℤ Checkpoint compare)
    (reads : ℕ) (last : Float) (view : Int64) :
    ({ n with pendingCommits := queue, reads := reads, lastSyncRequest := last } :
        Node).sealerForView view = n.sealerForView view ∧
      ({ n with pendingCommits := queue, reads := reads, lastSyncRequest := last } :
        Node).quorumSize = n.quorumSize := ⟨rfl, rfl⟩

/-- The node `b`, ready to propose, with the second block in its queue. -/
noncomputable def early : Node :=
  ((ready b [a] b.time 1 3 0.0).step (.receive Topics.commits (.commitMessage secondBlock))).1

/-- The node has the second block in its queue and is ready to propose the first. -/
theorem early_spec : Waiting b early ∧ early.quorumSize = 1 ∧ early.view = 1 ∧
    early.sealerForView 1 = early.nodeId ∧
    early.ambient.utcNow early.reads = "t1" ∧
    early.pendingCommits[(2 : ℤ)]? = some secondBlock := by
  obtain ⟨reads, last, heq⟩ := step_early (n := ready b [a] b.time 1 3 0.0) (c := secondBlock)
    (fresh_head b b.time) (by rw [readBack_height]; decide)
  have hdrained : (ready b [a] b.time 1 3 0.0).drain.1 = ready b [a] b.time 1 3 0.0 := rfl
  have hempty : (ready b [a] b.time 1 3 0.0).pendingCommits = ∅ := rfl
  rw [hdrained] at heq
  have hqueue : ((ready b [a] b.time 1 3 0.0).insertPendingCommit secondBlock).pendingCommits =
      (∅ : Std.ExtTreeMap ℤ Checkpoint compare).insert 2 secondBlock := by
    unfold Node.insertPendingCommit
    dsimp only
    rw [hempty]
    apply trimPendingCommits_of_size_le
    rw [Std.ExtTreeMap.size_insert]
    simp [maxPendingCommits]
  rw [hqueue] at heq
  have hsealer := sealerForView_ready b [a] b.time 1 3 0.0 (by decide) 1
  have hwaiting := ready_waiting b [a] b.time 1 3 0.0
  rw [early, heq]
  refine ⟨waiting_requeue hwaiting _ _ _, ?_, rfl, ?_, rfl, ?_⟩
  · rw [(sealerForView_requeue _ _ _ _ 1).2]
    exact quorumSize_ready b [a] b.time 1 3 0.0 (by decide)
  · rw [(sealerForView_requeue _ _ _ _ 1).1]
    exact hsealer
  · simp

/-- The node commits the first block on its own quorum, and the second one, which could now be
stored, stays in the queue. -/
theorem second_left_waiting :
    Node.Reachable (early.step .proposeNow).1 ∧
    (early.step .proposeNow).1.pendingCommits[(early.step .proposeNow).1.store.height + 1]? =
      some secondBlock ∧
    Releasable (early.step .proposeNow).1 secondBlock := by
  obtain ⟨hwaiting, hquorum, hview, hsealer, htime, hqueued⟩ := early_spec
  have hreachable : Node.Reachable early := (ready_reachable b [a] b.time (by decide)).step _
  have href := first_seals.propose_refines hwaiting hquorum hview htime hsealer
  obtain ⟨hconfig, hqueue⟩ := proposeInternal_queue early
  rw [hwaiting.config_eq] at hconfig
  refine ⟨hreachable.step _, ?_⟩
  rw [step_proposeNow]
  have hdrain := untouched_drain early.proposeInternal
  generalize early.proposeInternal = m at href hconfig hqueue hdrain
  constructor
  · rw [hdrain.store, hdrain.queue, href.height, hqueue]
    exact hqueued
  · rw [Releasable, hdrain.store, hdrain.config, hconfig]
    exact ⟨(href.validateCheckpoint_ok_iff secondBlock _ none rfl).mpr second_follows.passes,
      href.append_extends second_follows.can_append⟩

end Exodus.Analysis
