import Exodus.Interface.Invariant
import Exodus.Interface.Reorg
import Exodus.Interface.SampleChain

/-!
# The view against the epochs of the chain

Epochs increase along the chain, and `commit_local` moves the view past the epoch of each
block it appends.  The epoch of a block is chosen by its sender and bounded from below
only, so the addition `epoch + 1` may wrap, and so may `view + 1` in a tick.  As long as
neither does, the view is above all stored epochs, and a proposal of the node fits on its
head.
-/

set_option autoImplicit false

namespace Exodus.Analysis

open Exodus.Library Exodus.Model Exodus.Interface

variable {I : Inputs} {n n' : Node} {st : ChainStore} {c : Checkpoint}
  {chain peer : List Checkpoint}

/-! ## Machine integers -/

/-- Below the greatest value the addition is exact. -/
theorem toInt_succ {x : Int64} (h : x ≠ Int64.maxValue) : (x + 1).toInt = x.toInt + 1 := by
  have hlt := x.toInt_lt
  have hle := x.le_toInt
  have hne : x.toInt ≠ Int64.maxValue.toInt := fun heq => h (Int64.toInt_inj.mp heq)
  have hmax : Int64.maxValue.toInt = 2 ^ 63 - 1 := by decide
  rw [Int64.toInt_add, show (1 : Int64).toInt = 1 by decide]
  exact Int.bmod_eq_of_le (by omega) (by omega)

/-- The addition wraps at the greatest value only. -/
theorem toInt_succ_iff (x : Int64) : (x + 1).toInt = x.toInt + 1 ↔ x ≠ Int64.maxValue := by
  refine ⟨?_, toInt_succ⟩
  rintro h rfl
  revert h
  decide

/-- The greater of two machine integers is the greater integer. -/
theorem toInt_max (x y : Int64) : (max x y).toInt = max x.toInt y.toInt := by
  show (if x ≤ y then y else x).toInt = _
  split_ifs with h
  · exact (max_eq_right (Int64.le_iff_toInt_le.mp h)).symm
  · rw [Int64.le_iff_toInt_le, not_le] at h
    exact (max_eq_left h.le).symm

/-! ## The invariant -/

/-- The epochs of the stored blocks. -/
def epochs (st : ChainStore) : List ℤ := st.blocks.map BlockRow.epoch

/-- The stored epochs increase, and the view is above them. -/
structure Ahead (n : Node) : Prop where
  increasing : (epochs n.store).Pairwise (· < ·)
  below : ∀ e ∈ epochs n.store, e < n.view.toInt

/-- The additions that compute views do not overflow. -/
structure NoOverflow [Crates] (n : Node) (op : Node.Op) : Prop where
  commits : ∀ topic c, (topic, Message.commitMessage c) ∈ (n.step op).2.1 →
    (c.proposal.epoch + 1).toInt = c.epoch + 1
  tick : op = .tick → TimesOut n → (n.view + 1).toInt = n.view.toInt + 1

/-- No block that is delivered with its signatures and no proposal that the node signs has the
greatest epoch, and no tick times out at the greatest view. -/
structure Fits [Crates] (n : Node) (op : Node.Op) : Prop where
  blocks : ∀ c, (inputs n op).received c → Signed c → c.proposal.epoch ≠ Int64.maxValue
  proposals : ∀ p, WillSign n op p → p.epoch ≠ Int64.maxValue
  tick : op = .tick → TimesOut n → n.view ≠ Int64.maxValue

/-- Nothing that the node may still append, and nothing that it announces, has the greatest
epoch. -/
structure Bounded [Crates] (n : Node) : Prop where
  held : ∀ (hash : String) (p : CheckpointProposal), n.proposals[hash]? = some p →
    p.epoch ≠ Int64.maxValue
  queued : ∀ (h : ℤ) (c : Checkpoint), n.pendingCommits[h]? = some c → Signed c →
    c.proposal.epoch ≠ Int64.maxValue
  announced : ∀ (topic : String) (c : Checkpoint),
    (topic, Message.commitMessage c) ∈ n.outgoing → c.proposal.epoch ≠ Int64.maxValue

/-- The invariant reads the stored epochs and the view. -/
theorem Ahead.congr (h : Ahead n) (hepochs : epochs n'.store = epochs n.store)
    (hview : n.view.toInt ≤ n'.view.toInt) : Ahead n' := by
  refine ⟨hepochs ▸ h.increasing, fun e he => ?_⟩
  rw [hepochs] at he
  exact (h.below e he).trans_le hview

/-- The invariant reads the ledger and the view. -/
theorem Ahead.of_core_eq (h : Ahead n) (hcore : core n' = core n)
    (hview : n.view.toInt ≤ n'.view.toInt) : Ahead n' :=
  h.congr (congrArg (fun k => epochs k.store) hcore) hview

/-- To take the messages out changes nothing. -/
theorem Ahead.drain (h : Ahead n) : Ahead n.drain.1 := h.congr rfl le_rfl

variable [Crates]

/-- The stored epochs are those of the chain. -/
theorem Refines.epochs (h : Refines st chain) :
    Analysis.epochs st = chain.map Checkpoint.epoch := by
  rw [Analysis.epochs, h.blocks_eq, List.map_map]
  rfl

omit [Crates] in
/-- In an increasing chain no epoch is above the last. -/
theorem le_last_epoch {l : List Checkpoint} {tip : Checkpoint}
    (h : ((l ++ [tip]).map Checkpoint.epoch).Pairwise (· < ·)) {e : ℤ}
    (he : e ∈ (l ++ [tip]).map Checkpoint.epoch) : e ≤ tip.epoch := by
  rw [List.map_append, List.pairwise_append] at h
  rw [List.map_append, List.mem_append] at he
  rcases he with he | he
  · exact (h.2.2 e he _ (by simp)).le
  · simp only [List.map_cons, List.map_nil, List.mem_singleton] at he
    exact he.le

/-! ## Bounded epochs -/

/-- Genesis apart, a block that passes the validation is signed. -/
theorem epoch_of_validated (hval : Validated n c)
    (hsigned : Signed c → c.proposal.epoch ≠ Int64.maxValue) :
    c.proposal.epoch ≠ Int64.maxValue := by
  obtain ⟨q, seen, seen', hval⟩ := hval
  rcases (validateCheckpoint_ok_iff c q false seen seen').mp hval with ⟨hgen, -⟩ | ⟨-, -, hs⟩
  · rw [(isCanonicalGenesis_iff _).mp hgen]
    decide
  · exact hsigned hs

/-- The bounds read the proposals, the queue and the announced blocks. -/
theorem Bounded.of_eq (h : Bounded n) (hproposals : n'.proposals = n.proposals)
    (hqueue : n'.pendingCommits = n.pendingCommits)
    (hout : ∀ topic c, (topic, Message.commitMessage c) ∈ n'.outgoing →
      (topic, Message.commitMessage c) ∈ n.outgoing) : Bounded n' :=
  ⟨hproposals ▸ h.held, hqueue ▸ h.queued, fun topic c hc => h.announced topic c (hout topic c hc)⟩

/-- An effect keeps the bounds, if what it takes in is within them. -/
theorem Effect.bounded (he : Effect I n n')
    (hblocks : ∀ c, I.blocks c → Signed c → c.proposal.epoch ≠ Int64.maxValue)
    (hsigns : ∀ p, I.signs p → p.epoch ≠ Int64.maxValue) (h : Bounded n) : Bounded n' := by
  have hqueue : QueuedIn { I with blocks := fun c => Signed c →
      c.proposal.epoch ≠ Int64.maxValue } n := h.queued
  cases he with
  | quiet hq =>
    refine h.of_eq (congrArg Core.proposals hq.core_eq) (congrArg Core.pendingCommits hq.core_eq)
      fun topic c hc => ?_
    obtain ⟨msgs, hmsgs, hroutine⟩ := hq.sends
    rw [hmsgs, List.mem_append] at hc
    exact hc.resolve_right fun hc => hroutine _ hc
  | timeout _ _ hcore _ _ hout =>
    exact h.of_eq (congrArg Core.proposals hcore) (congrArg Core.pendingCommits hcore)
      fun topic c hc => hout ▸ hc
  | adopt p hp hval hs =>
    refine ⟨fun hash q hq => ?_, queue_adopt n p ▸ h.queued, fun topic c hc => ?_⟩
    · rw [proposals_adopt, Std.ExtTreeMap.getElem?_insert] at hq
      split_ifs at hq
      · cases hq
        exact hsigns p hs
      · exact h.held hash q hq
    · rw [outgoing_adopt] at hc
      exact h.announced topic c (by simpa using hc)
  | emit p hp => exact h.of_eq rfl rfl fun topic c hc => by simpa [Node.send] using hc
  | commit c hsrc hval st happ =>
    have hfit : c.proposal.epoch ≠ Int64.maxValue := by
      rcases hsrc with hc | ⟨p, hp, rfl, -⟩
      · exact epoch_of_validated hval (hblocks c hc)
      · exact h.held _ p hp
    refine ⟨fun hash q hq => ?_, ?_, fun topic b hb => ?_⟩
    · rw [proposals_announceCommit, Std.ExtTreeMap.getElem?_erase] at hq
      split_ifs at hq
      exact h.held hash q hq
    · rw [queue_announceCommit]
      exact h.queued
    · rw [outgoing_announceCommit, List.mem_append, List.mem_singleton] at hb
      rcases hb with hb | hb
      · exact h.announced topic b hb
      · cases hb
        exact hfit
  | twin c hsrc hval e happ hcom =>
    refine h.of_eq (proposals_settleTwin n _) (queue_settleTwin n _) fun topic b hb => ?_
    rwa [settleTwin_eq] at hb
  | queue c hsrc => exact ⟨h.held, Effect.queuedIn (.queue c (hblocks c hsrc)) hqueue, h.announced⟩
  | unqueue height => exact ⟨h.held, Effect.queuedIn (.unqueue height) hqueue, h.announced⟩
  | requeue keep => exact ⟨h.held, Effect.queuedIn (.requeue keep) hqueue, h.announced⟩
  | pend | evict | file | learn | reject | cut | resettle =>
    exact h.of_eq rfl rfl fun _ _ hc => hc

/-- A sequence of effects keeps the bounds. -/
theorem Effects.bounded (he : Effects I n n')
    (hblocks : ∀ c, I.blocks c → Signed c → c.proposal.epoch ≠ Int64.maxValue)
    (hsigns : ∀ p, I.signs p → p.epoch ≠ Int64.maxValue) (h : Bounded n) : Bounded n' := by
  induction he with
  | refl => exact h
  | tail _ he ih => exact Effect.bounded he hblocks hsigns ih

/-- An operation that fits keeps the bounds, and its additions do not overflow. -/
theorem step_bounded (hinv : Invariant (core n)) (hidle : Idle n) (h : Bounded n) {op : Node.Op}
    (hfit : Fits n op) : Bounded (n.step op).1 ∧ NoOverflow n op := by
  obtain ⟨m, hm⟩ := step_effects hinv.keyed hidle.outgoing hidle.calls op
  have hblocks (c : Checkpoint) (hc : (inputs n op).blocks c) (hs : Signed c) :
      c.proposal.epoch ≠ Int64.maxValue := by
    rcases hc with hc | hc | ⟨k, hk⟩
    · exact hfit.blocks c (.inl hc) hs
    · exact hfit.blocks c (.inr hc) hs
    · exact h.queued k c hk hs
  have hdone : Bounded m := Effects.bounded hm.effects hblocks hfit.proposals h
  refine ⟨?_, fun topic c hc => ?_, fun hop htime => toInt_succ (hfit.tick hop htime)⟩
  · rw [hm.state]
    exact ⟨hdone.held, hdone.queued, fun topic c hc => by simp [drain_outgoing] at hc⟩
  · exact toInt_succ (hdone.announced topic c ((hm.sent _ id).mp hc))

/-! ## Effects -/

/-- Without a tick the view does not go down. -/
theorem Effect.view_le (he : Effect I n n') (hI : ¬ I.ticks) :
    n.view.toInt ≤ n'.view.toInt := by
  cases he with
  | quiet hq => rw [hq.view_eq]
  | timeout ht => exact absurd ht hI
  | adopt p hp hval => rw [view_adopt]
  | commit c hsrc hval st happ =>
    rw [view_announceCommit, toInt_max]
    exact le_max_left _ _
  | twin c hsrc hval e happ hcom => rw [settleTwin_eq]
  | pend | evict | emit | file | learn | queue | unqueue | requeue | reject | cut | resettle =>
    exact le_rfl

/-- Without a tick the view does not go down over a sequence of effects. -/
theorem Effects.view_le (he : Effects I n n') (hI : ¬ I.ticks) :
    n.view.toInt ≤ n'.view.toInt := by
  induction he with
  | refl => exact le_rfl
  | tail _ he ih => exact ih.trans (Effect.view_le he hI)

variable [SerdeReadsBack]

/-- The epoch of a validated block is above those of the chain it is appended to. -/
theorem epoch_gt_of_validated (href : Refines n.store chain) (h : Ahead n)
    (hval : Validated n c) (hext : Extends chain c) :
    ∀ e ∈ chain.map Checkpoint.epoch, e < c.epoch := by
  obtain ⟨q, seen, seen', hval⟩ := hval
  rcases List.eq_nil_or_concat' chain with rfl | ⟨l, tip, rfl⟩
  · simp
  rw [validateCheckpoint_ok_iff, href.validateProposal_ok_iff] at hval
  rcases hval with ⟨hg, -⟩ | ⟨-, ⟨hp, -⟩, -⟩
  · -- genesis is appended to nothing
    have hzero : c.height = 0 := by
      rw [Checkpoint.height, (isCanonicalGenesis_iff _).mp hg]
      rfl
    have hlen := hext.height_eq
    rw [List.length_append, List.length_singleton] at hlen
    omega
  · intro e he
    have hinc := h.increasing
    rw [Refines.epochs href] at hinc
    exact (le_last_epoch hinc he).trans_lt (hp.epoch_advances tip (by simp))

/-- An effect keeps the view ahead, if no announced block has the greatest epoch. -/
theorem Effect.ahead (he : Effect I n n') (hI : ¬ I.reorg) (ht : ¬ I.ticks)
    (hout : ∀ topic c, (topic, Message.commitMessage c) ∈ n'.outgoing →
      c.proposal.epoch ≠ Int64.maxValue)
    (href : Refines n.store chain) (h : Ahead n) : Ahead n' := by
  have hview := Effect.view_le he ht
  cases he with
  | quiet hq => exact h.of_core_eq hq.core_eq hview
  | timeout hticks => exact absurd hticks ht
  | adopt p hp hval => exact h.congr (congrArg (fun k => epochs k.store) (core_adopt n p)) hview
  | commit c hsrc hval st happ =>
    obtain ⟨hext, href'⟩ := href.append_ok happ
    have hgt := epoch_gt_of_validated href h hval hext
    have hstore : (({ n with store := st } : Node).announceCommit c).store = st :=
      store_announceCommit { n with store := st } c
    have hfit : c.proposal.epoch ≠ Int64.maxValue := by
      refine hout Topics.commits c ?_
      rw [outgoing_announceCommit]
      simp
    have habove : c.epoch < (({ n with store := st } : Node).announceCommit c).view.toInt := by
      rw [view_announceCommit, toInt_max, toInt_succ hfit]
      exact (lt_add_one _).trans_le (le_max_right _ _)
    have hold := h.below
    have hinc := h.increasing
    rw [Refines.epochs href] at hold hinc
    refine ⟨?_, ?_⟩
    · rw [hstore, Refines.epochs href', List.map_append, List.pairwise_append]
      exact ⟨hinc, by simp, fun e he e' he' => by
        rw [List.mem_singleton.mp he']
        exact hgt e he⟩
    · intro e he
      rw [hstore, Refines.epochs href', List.map_append, List.mem_append] at he
      rcases he with he | he
      · exact (hold e he).trans_le hview
      · rw [List.mem_singleton.mp he]
        exact habove
  | twin c hsrc hval e happ hcom =>
    exact h.congr (congrArg (fun k => epochs k.store) (core_settleTwin n _)) hview
  | cut hr => exact absurd hr hI
  | resettle hr => exact absurd hr hI
  | pend | evict | emit | file | learn | queue | unqueue | requeue | reject => exact h.congr rfl hview

/-- A sequence of effects keeps the view ahead. -/
theorem Effects.ahead (he : Effects I n n') (hI : ¬ I.reorg) (ht : ¬ I.ticks)
    (href : Refines n.store chain) (h : Ahead n)
    (hout : ∀ topic c, (topic, Message.commitMessage c) ∈ n'.outgoing →
      c.proposal.epoch ≠ Int64.maxValue) : Ahead n' := by
  induction he with
  | refl => exact h
  | tail hes he ih =>
    obtain ⟨more, hmore⟩ := Effects.grows hes hI href
    refine Effect.ahead he hI ht hout hmore (ih fun topic c hc => ?_)
    exact hout topic c ((Effect.outgoing_grows he).subset hc)

/-! ## Reorganisations -/

omit [SerdeReadsBack] in
/-- To cut the chain back keeps the view ahead. -/
theorem ahead_cutNode (h : Ahead n) : Ahead (cutNode n peer) := by
  unfold cutNode
  split_ifs
  · have hsub : (epochs (baseOf n peer)).Sublist (epochs n.store) :=
      List.filter_sublist.map _
    exact ⟨h.increasing.sublist hsub, fun e he => h.below e (hsub.subset he)⟩
  · exact h

/-- A reorganisation keeps the view ahead, whether it is kept or undone. -/
theorem reconcileChain_ahead (href : Refines n.store chain) (h : Ahead n)
    (hout : ∀ topic c, (topic, Message.commitMessage c) ∈ (n.reconcileChain peer).outgoing →
      c.proposal.epoch ≠ Int64.maxValue) : Ahead (n.reconcileChain peer) := by
  by_cases hin : Enters n peer
  case neg => rwa [reconcileChain_of_not_enters hin]
  obtain ⟨k, hk, ha, -, -⟩ := href.commonAncestor (sortedBlocks peer)
  replace ha : ancestorOf n peer = (k : ℤ) - 1 := ha
  have hbase := href.cut hk ha
  by_cases hkept : (∃ st, adoptAll n.config.flopsTolerance (incomingOf n peer) (baseOf n peer) =
      some st) ∨ ∃ st, LastRefused n.config.flopsTolerance (incomingOf n peer) (baseOf n peer) st
  · obtain ⟨m, hm, heq⟩ := href.reconcileChain_kept
      (I := { Inputs.none with blocks := fun _ => True }) hk ha hin hkept fun _ _ => trivial
    rw [heq] at hout ⊢
    have hahead : Ahead m := Effects.ahead hm id id hbase (ahead_cutNode h) hout
    exact ⟨hahead.increasing, hahead.below⟩
  · -- the local blocks are put back, and the view has not gone down
    obtain ⟨hadopt, hlast⟩ := not_or.mp hkept
    have hrestored := href.reconcileChain_restored hk ha hin
      (Option.eq_none_iff_forall_ne_some.mpr (not_exists.mp hadopt)) (not_exists.mp hlast)
    have heff : Effects { Inputs.any with ticks := False } n (n.reconcileChain peer) :=
      reconcileChain_effects trivial peer fun _ _ => trivial
    refine h.congr ?_ (Effects.view_le heff id)
    rw [Refines.epochs hrestored, Refines.epochs href, List.map_append, List.map_map,
      show Checkpoint.epoch ∘ readBack = Checkpoint.epoch from funext readBack_epoch,
      ← List.map_append, List.take_append_drop]

/-! ## Operations -/

/-- A tick that does not overflow keeps the view ahead. -/
theorem tick_ahead (hinv : Invariant (core n)) (hidle : Idle n) (h : Ahead n)
    (hfit : NoOverflow n .tick) : Ahead (n.step .tick).1 := by
  obtain ⟨chain, href⟩ := hinv.chain
  obtain ⟨m, hm, hcore, hview, hcases⟩ := tick_cases hidle.outgoing hidle.calls
  have hahead : Ahead m := by
    refine h.of_core_eq hcore ?_
    rcases hview with hview | ⟨htime, hview⟩
    · rw [hview]
    · rw [hview, hfit.tick rfl htime]
      exact (lt_add_one _).le
  have hsent := hfit.commits
  show Ahead n.tick.1
  rcases hcases with ⟨hstate, -, -⟩ | ⟨-, hstate, -, beat, hmsgs, -⟩
  · rw [hstate]
    exact hahead.drain
  · have heff : Effects { Inputs.any with reorg := False, ticks := False } m m.proposeInternal :=
      proposeInternal_effects trivial (fun _ _ => trivial) fun _ _ => trivial
    have hdone : Ahead m.proposeInternal := by
      have href' : Refines m.store chain := by
        rw [show m.store = n.store from congrArg Core.store hcore]
        exact href
      refine Effects.ahead heff id id href' hahead fun topic c hc => (toInt_succ_iff _).mp ?_
      refine hsent topic c ?_
      show _ ∈ n.tick.2.1
      rw [hmsgs]
      exact List.mem_append_right _ hc
    rw [hstate]
    exact hdone.drain

/-- An operation that does not overflow keeps the view ahead. -/
theorem step_ahead (hinv : Invariant (core n)) (hidle : Idle n) (h : Ahead n) (op : Node.Op)
    (hfit : NoOverflow n op) : Ahead (n.step op).1 := by
  by_cases htick : op = .tick
  · subst htick
    exact tick_ahead hinv hidle h hfit
  obtain ⟨chain, href⟩ := hinv.chain
  replace href : Refines n.store chain := href
  by_cases hfull : ∃ resp, op = .syncResponse resp ∧ ∃ b ∈ resp.blocks, b.height = 0
  · obtain ⟨resp, rfl, hzero⟩ := hfull
    have hresp : n.onSyncResponse resp = n.reconcileChain resp.blocks := onSyncResponse_full hzero
    have hdone : Ahead (n.onSyncResponse resp) := by
      rw [hresp]
      refine reconcileChain_ahead href h fun topic c hc => ?_
      rw [← hresp] at hc
      exact (toInt_succ_iff _).mp (hfit.commits topic c hc)
    exact hdone.drain
  · obtain ⟨m, hm⟩ := step_effects hinv.keyed hidle.outgoing hidle.calls op
    have hI : ¬ (inputs n op).reorg := hfull
    have hdone : Ahead m := Effects.ahead hm.effects hI htick href h fun topic c hc =>
      (toInt_succ_iff _).mp (hfit.commits topic c ((hm.sent _ id).mpr hc))
    rw [hm.state]
    exact hdone.drain

/-- A node that starts on a ledger with increasing epochs is ahead of it. -/
theorem ahead_new (nodeId : String) (privateKey : List UInt8) (publicKeyHex : String)
    (config : ExodusConfig) (ambient : Ambient) (href : Refines st chain)
    (hinc : (epochs st).Pairwise (· < ·)) (hfit : ∀ e ∈ epochs st, e < Int64.maxValue.toInt) :
    Ahead (Node.new nodeId privateKey publicKeyHex st config ambient) := by
  unfold Node.new
  dsimp only
  split_ifs with hheight
  · refine ⟨hinc, fun e he => ?_⟩
    rcases List.eq_nil_or_concat' chain with rfl | ⟨l, tip, rfl⟩
    · exact absurd href.height hheight
    · rw [Refines.epochs href] at hinc hfit
      have he' : e ∈ (l ++ [tip]).map Checkpoint.epoch := (Refines.epochs href) ▸ he
      have htip : tip.proposal.epoch ≠ Int64.maxValue := fun heq => by
        have hlt : tip.epoch < Int64.maxValue.toInt := hfit tip.epoch (by simp)
        rw [Checkpoint.epoch, heq] at hlt
        exact lt_irrefl _ hlt
      simp only [href.head, List.getLast?_concat, Option.map_some, readBack_proposal]
      rw [toInt_succ htip]
      exact (le_last_epoch hinc he').trans_lt (lt_add_one _)
  · -- genesis has epoch 0, and the first view is 1
    have hnil : chain = [] := by
      rw [href.height] at hheight
      exact List.length_eq_zero_iff.mp (by omega)
    subst hnil
    have hgen : epochs (st.appended genesisCheckpoint) = [0] :=
      Refines.epochs (href.appended_extends extends_genesis)
    refine ⟨?_, fun e he => ?_⟩
    · show (epochs (st.appended genesisCheckpoint)).Pairwise (· < ·)
      rw [hgen]
      simp
    · replace he : e ∈ epochs (st.appended genesisCheckpoint) := he
      rw [hgen, List.mem_singleton] at he
      rw [he]
      show (0 : ℤ) < (1 : Int64).toInt
      decide

omit [SerdeReadsBack] in
/-- A node that starts holds nothing that is to be bounded. -/
theorem bounded_new (nodeId : String) (privateKey : List UInt8) (publicKeyHex : String)
    (st : ChainStore) (config : ExodusConfig) (ambient : Ambient) :
    Bounded (Node.new nodeId privateKey publicKeyHex st config ambient) := by
  have hempty (m : Node) (hproposals : m.proposals = ∅) (hqueue : m.pendingCommits = ∅)
      (hout : m.outgoing = []) : Bounded m := by
    refine ⟨fun hash p hp => ?_, fun h c hc => ?_, fun topic c hc => ?_⟩
    · simp [hproposals] at hp
    · simp [hqueue] at hc
    · simp [hout] at hc
  unfold Node.new
  dsimp only
  split_ifs
  · exact hempty _ rfl rfl rfl
  · exact hempty _ rfl rfl rfl

/-- In a run whose operations fit, the view is ahead and the bounds hold. -/
theorem reachableBy_ahead (hn : ReachableBy Fits n) : Ahead n ∧ Bounded n := by
  induction hn with
  | start =>
    refine ⟨ahead_new _ _ _ _ _ refines_empty List.Pairwise.nil fun e he => ?_, bounded_new ..⟩
    simp [epochs, ChainStore.empty] at he
  | @restart n hn _ _ _ _ _ ih =>
    obtain ⟨chain, href⟩ := (reachable_idle hn.reachable).1.chain
    have hview := n.view.toInt_le
    refine ⟨ahead_new _ _ _ _ _ href ih.1.increasing fun e he => ?_, bounded_new ..⟩
    exact (ih.1.below e he).trans_le hview
  | step hn op hop ih =>
    obtain ⟨hinv, hidle⟩ := reachable_idle hn.reachable
    obtain ⟨hbounded, hfit⟩ := step_bounded hinv hidle ih.2 hop
    exact ⟨step_ahead hinv hidle ih.1 op hfit, hbounded⟩

omit [SerdeReadsBack] in
/-- Epochs that increase from 0 on are no less than the heights. -/
theorem length_le_epoch {l : List Checkpoint} {tip : Checkpoint}
    (hchain : LedgerChain (l ++ [tip]))
    (hinc : ((l ++ [tip]).map Checkpoint.epoch).Pairwise (· < ·)) : (l.length : ℤ) ≤ tip.epoch := by
  obtain ⟨hinit, hlast⟩ := Log.snoc_iff.mp hchain
  induction l using List.reverseRecOn generalizing tip with
  | nil => exact hlast.epoch_nonneg
  | append_singleton l mid ih =>
    rw [List.map_append, List.pairwise_append] at hinc
    have hmid : (l.length : ℤ) ≤ mid.epoch := ih hinit hinc.1 (Log.snoc_iff.mp hinit).1
      (Log.snoc_iff.mp hinit).2
    have hlt : mid.epoch < tip.epoch := hinc.2.2 _ (by simp) _ (by simp)
    rw [List.length_append, List.length_singleton]
    push_cast
    omega

/-- The head of an ahead node has an epoch below the view, and no greater height. -/
theorem Ahead.head (href : Refines n.store chain) (h : Ahead n) {head : Checkpoint}
    (hhead : n.store.head = some head) :
    0 ≤ head.height ∧ head.height ≤ head.epoch ∧ head.epoch < n.view.toInt := by
  obtain ⟨tip, htip, rfl⟩ := Option.map_eq_some_iff.mp (href.head ▸ hhead)
  obtain ⟨l, rfl⟩ := List.getLast?_eq_some_iff.mp htip
  have hinc := h.increasing
  rw [Refines.epochs href] at hinc
  have hheight : tip.height = l.length := (Log.snoc_iff.mp href.chain_ok).2.height_eq
  rw [readBack_height, readBack_epoch, hheight]
  refine ⟨Int.natCast_nonneg _, length_le_epoch href.chain_ok hinc, h.below _ ?_⟩
  rw [Refines.epochs href]
  simp

omit [SerdeReadsBack] in
/-- A proposal above a head whose epoch is below the view comes to the check of its claims. -/
theorem validateProposal_nextProposal {head : Checkpoint} (hhead : n.store.head = some head)
    (hnonneg : 0 ≤ head.height) (hheight : head.height < Int64.maxValue.toInt)
    (hepoch : head.epoch < n.view.toInt) :
    validateProposal (n.nextProposal head) n.store ∅ n.config.flopsTolerance false =
      if n.eligibleClaims.isEmpty then .error ⟨"empty proposal"⟩
      else validateClaims n.config.flopsTolerance head.height n.eligibleClaims ∅ ∅ ∅ := by
  have hfits : (n.nextProposal head).height.toInt = head.height + 1 := by
    show (Int64.ofInt (head.height + 1)).toInt = _
    have hmax : Int64.maxValue.toInt = 2 ^ 63 - 1 := by decide
    have hsize : Int64.size = 2 ^ 64 := rfl
    rw [Int64.toInt_ofInt, hsize]
    exact Int.bmod_eq_of_le (by omega) (by omega)
  have hprev : (n.nextProposal head).prevHash = head.blockHash := rfl
  have hempty : (!false && (n.nextProposal head).claims.isEmpty) = n.eligibleClaims.isEmpty := rfl
  unfold validateProposal
  simp only [hhead, Option.map_some, Option.getD_some, hfits, hprev, Option.any_some, hempty]
  rw [if_neg (not_not.mpr rfl), if_neg (not_not.mpr rfl), if_neg]
  · rfl
  · rw [decide_eq_true_eq, not_le]
    exact hepoch

/-- A next block that passes every check is announced. -/
theorem announces_next (hn : Node.Reachable n) (hnext : IsNext n.store c)
    (hfresh : n.commitRejectSeen c.blockHash = false)
    (hval : ∃ seen, validateCheckpoint c n.store n.config.flopsTolerance n.quorumSize false
      (some n.committedClaimIds) = .ok seen)
    (happ : ∃ st, n.store.append c = .ok st) :
    (Topics.commits, Message.commitMessage c) ∈
      (n.step (.receive Topics.commits (.commitMessage c))).2.1 := by
  obtain ⟨chain, href⟩ := (reachable_idle hn).1.chain
  replace href : Refines n.store chain := href
  obtain ⟨st, happ⟩ := happ
  show _ ∈ (n.onCommit c).outgoing
  rw [onCommit_of_isNext hnext]
  rcases acceptCommit_cases n c with ⟨hseen, -⟩ | ⟨-, ⟨e, herr, -⟩ | ⟨seen, -, heq⟩⟩
  · rw [hfresh] at hseen
    cases hseen
  · obtain ⟨seen, hok⟩ := hval
    rw [herr] at hok
    cases hok
  · obtain ⟨st', -, hcommit⟩ := commitLocal_of_extends
      (n := { n with committedClaimIds := seen }) href (href.append_ok happ).1
    rw [heq, hcommit]
    have hflush : Effects Inputs.any _ (Node.flushPendingCommits _) :=
      flushPendingCommits_effects (n := ({ ({ n with committedClaimIds := seen } : Node) with
        store := st' } : Node).announceCommit c) fun _ _ _ => trivial
    refine (Effects.outgoing_grows hflush).subset ?_
    rw [outgoing_announceCommit]
    simp

/-- In every run in which no delivered signed block and no proposal that is signed has the
greatest epoch, and no tick times out at the greatest view, the view is above the head's epoch
in every state, a restart can add one to that epoch, a proposal of the node passes the checks of
its height, its prev-hash and its epoch, and no addition of a next operation overflows.  A next
block with the greatest epoch that passes all checks does make the addition overflow, on every
node. -/
theorem view_stays_ahead :
    (∀ n, ReachableBy Fits n →
      (∀ head, n.store.head = some head →
        head.epoch < n.view.toInt ∧ (head.proposal.epoch + 1).toInt = head.epoch + 1 ∧
        validateProposal (n.nextProposal head) n.store ∅ n.config.flopsTolerance false =
          if n.eligibleClaims.isEmpty then .error ⟨"empty proposal"⟩
          else validateClaims n.config.flopsTolerance head.height n.eligibleClaims ∅ ∅ ∅) ∧
      ∀ op, Fits n op → NoOverflow n op) ∧
    ∀ n c, Node.Reachable n → IsNext n.store c → n.commitRejectSeen c.blockHash = false →
      (∃ seen, validateCheckpoint c n.store n.config.flopsTolerance n.quorumSize false
        (some n.committedClaimIds) = .ok seen) →
      (∃ st, n.store.append c = .ok st) → c.proposal.epoch = Int64.maxValue →
        ¬ NoOverflow n (.receive Topics.commits (.commitMessage c)) := by
  refine ⟨fun n hn => ?_, fun n c hn hnext hfresh hval happ hmax hno => ?_⟩
  · obtain ⟨hinv, hidle⟩ := reachable_idle hn.reachable
    obtain ⟨hahead, hbounded⟩ := reachableBy_ahead hn
    refine ⟨fun head hhead => ?_, fun op hop => (step_bounded hinv hidle hbounded hop).2⟩
    obtain ⟨chain, href⟩ := hinv.chain
    replace href : Refines n.store chain := href
    obtain ⟨hnonneg, hheight, hepoch⟩ := hahead.head href hhead
    have hview := n.view.toInt_le
    refine ⟨hepoch, toInt_succ fun heq => ?_, ?_⟩
    · rw [Checkpoint.epoch, heq] at hepoch
      exact absurd hepoch (not_lt.mpr hview)
    · exact validateProposal_nextProposal hhead hnonneg (by omega) hepoch
  · have hsum := hno.commits _ c (announces_next hn hnext hfresh hval happ)
    exact (toInt_succ_iff _).mp hsum hmax

end Exodus.Analysis

namespace Exodus.Analysis

open Exodus.Library Exodus.Model Exodus.Interface Exodus.Sample

/-- The view of a node that has appended the first block is above the block's epoch, and the
node's next proposal comes to the check of its claims. -/
theorem view_ahead_first :
    (readBack firstBlock).epoch < (after firstBlock .a "t1").view.toInt ∧
      validateProposal ((after firstBlock .a "t1").nextProposal (readBack firstBlock))
          (after firstBlock .a "t1").store ∅ (after firstBlock .a "t1").config.flopsTolerance false =
        if (after firstBlock .a "t1").eligibleClaims.isEmpty then .error ⟨"empty proposal"⟩
        else validateClaims (after firstBlock .a "t1").config.flopsTolerance
          (readBack firstBlock).height (after firstBlock .a "t1").eligibleClaims ∅ ∅ ∅ := by
  have hfits : Fits (fresh .a "t1") (.receive Topics.commits (.commitMessage firstBlock)) := by
    refine ⟨fun c hc _ => ?_, fun p hp => absurd hp (not_willSign_commit firstBlock), by simp⟩
    rcases hc with hc | ⟨resp, hresp, -⟩
    · cases hc
      decide
    · cases hresp
  have hrun : ReachableBy Fits (after firstBlock .a "t1") := by
    refine .step ?_ _ hfits
    rw [fresh_eq_new]
    exact .start _ _ _ _ _
  have hhead : (after firstBlock .a "t1").store.head = some (readBack firstBlock) :=
    (after_spec first_follows .a "t1").1.head
  obtain ⟨hview, -, hproposal⟩ := (view_stays_ahead.1 _ hrun).1 _ hhead
  exact ⟨hview, hproposal⟩

/-- A block with the greatest epoch: the next view overflows, and the view stays below the
epoch of the head. -/
theorem lastEpoch_above_view :
    Node.Reachable
        ((fresh .a "t1").step (.receive Topics.commits (.commitMessage lastEpochBlock))).1 ∧
      ∃ head,
        ((fresh .a "t1").step
          (.receive Topics.commits (.commitMessage lastEpochBlock))).1.store.head = some head ∧
        ¬ head.epoch < ((fresh .a "t1").step
          (.receive Topics.commits (.commitMessage lastEpochBlock))).1.view.toInt := by
  obtain ⟨st, href, heq⟩ := fresh_commits lastEpoch_follows .a "t1"
  refine ⟨.step (fresh_reachable .a "t1") _, readBack lastEpochBlock, ?_, ?_⟩
  · rw [heq]
    refine (congrArg ChainStore.head ?_).trans href.head
    exact store_announceCommit _ lastEpochBlock
  · rw [heq, readBack_epoch]
    refine not_lt.mpr (le_of_eq_of_le (congrArg Int64.toInt (view_announceCommit _ _)) ?_)
    show (max (1 : Int64) (Int64.maxValue + 1)).toInt ≤ Int64.maxValue.toInt
    decide

end Exodus.Analysis
