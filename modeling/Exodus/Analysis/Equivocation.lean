import Exodus.Interface.Invariant
import Exodus.Interface.SampleChain

/-!
# The proposals that a node emits

`propose_internal` proposes for the height above the head, and only when no proposal
for that height is outstanding.  A proposal leaves the map of outstanding ones only
when a block with its hash is committed, and then the head has reached its height.  So
a height that was proposed for stays covered, and the next proposal is for a greater
one.
-/

set_option autoImplicit false

namespace Exodus.Analysis

open Exodus.Library Exodus.Model Exodus.Interface

variable {I : Inputs} {n n' : Node} {h : ℤ}

/-- The proposals among some messages. -/
def proposalsIn (msgs : List (String × Message)) : List CheckpointProposal :=
  msgs.filterMap fun e =>
    match e.2 with
    | .proposalMessage p => some p
    | _ => none

/-- The proposals among the messages of two lists. -/
@[simp] theorem proposalsIn_append (a b : List (String × Message)) :
    proposalsIn (a ++ b) = proposalsIn a ++ proposalsIn b := List.filterMap_append

/-- They are the messages that carry one. -/
theorem mem_proposalsIn {msgs : List (String × Message)} {p : CheckpointProposal} :
    p ∈ proposalsIn msgs ↔ ∃ topic, (topic, Message.proposalMessage p) ∈ msgs := by
  rw [proposalsIn, List.mem_filterMap]
  constructor
  · rintro ⟨⟨topic, m⟩, he, hm⟩
    cases m with
    | proposalMessage q =>
      cases hm
      exact ⟨topic, he⟩
    | _ => cases hm
  · rintro ⟨topic, he⟩
    exact ⟨_, he, rfl⟩

/-- Routine messages carry none. -/
theorem proposalsIn_routine {msgs : List (String × Message)} (hmsgs : ∀ e ∈ msgs, Routine e.2) :
    proposalsIn msgs = [] := by
  rw [proposalsIn, List.filterMap_eq_nil_iff]
  rintro ⟨topic, m⟩ he
  have hroutine := hmsgs _ he
  cases m with
  | proposalMessage p => exact absurd hroutine id
  | _ => rfl

/-- The chain has reached the height, or a proposal for it is outstanding just above the
head. -/
def Covered (n : Node) (h : ℤ) : Prop :=
  h ≤ n.store.height ∨ h = n.store.height + 1 ∧ n.outstandingAt h = true

/-- Whether a height is covered is read from the ledger and the held proposals. -/
theorem covered_congr (hstore : n'.store = n.store) (hproposals : n'.proposals = n.proposals) :
    Covered n' h ↔ Covered n h := by
  unfold Covered Node.outstandingAt
  rw [hstore, hproposals]

variable [Crates] [SerdeReadsBack]

/-- A node takes no proposal in over one that covers the height. -/
theorem covered_adopt (hinv : Invariant (core n)) {p : CheckpointProposal}
    (hp : I.proposals p ∧ n.proposals.contains p.proposalHash = false ∧ p.proposalHash ∉ n.signed ∨
      I.proposes ∧ ∃ head time, n.store.head = some head ∧
        n.outstandingAt (head.height + 1) = false ∧ p = { n.nextProposal head with createdAt := time })
    (hc : Covered n h) : Covered ((n.adoptProposal p).addOwnSignature p) h := by
  have hstore := store_adopt n p
  have hproposals := proposals_adopt n p
  rcases hc with hc | ⟨hheight, hout⟩
  · exact .inl (hstore ▸ hc)
  · refine .inr ⟨hstore ▸ hheight, ?_⟩
    obtain ⟨k, q, hq, hqh⟩ := outstandingAt_iff.mp hout
    have hother : p.proposalHash ≠ k := by
      rintro rfl
      rcases hp with ⟨-, hnew, -⟩ | ⟨-, head, time, hhead, hfree, -⟩
      · rw [Std.ExtTreeMap.contains_eq_isSome_getElem?, hq] at hnew
        cases hnew
      · -- the outstanding proposal is for the height above the head
        obtain ⟨chain, href⟩ := hinv.chain
        have hlast := href.head_height
        rw [show (core n).store.head = some head from hhead, Option.map_some, Option.getD_some,
          ← href.height] at hlast
        rw [hlast, show (core n).store.height + 1 = h from hheight.symm] at hfree
        rw [hout] at hfree
        cases hfree
    refine outstandingAt_iff.mpr ⟨k, q, ?_, hqh⟩
    rw [hproposals, Std.ExtTreeMap.getElem?_insert, if_neg (by simpa using hother), hq]

/-- A height stays covered unless the chain is cut. -/
theorem Effect.covered (he : Effect I n n') (hI : ¬ I.reorg) (hinv : Invariant (core n))
    (hc : Covered n h) : Covered n' h := by
  cases he with
  | quiet hq =>
    exact (covered_congr (congrArg Core.store hq.core_eq)
      (congrArg Core.proposals hq.core_eq)).mpr hc
  | timeout hI htime hcore =>
    exact (covered_congr (congrArg Core.store hcore) (congrArg Core.proposals hcore)).mpr hc
  | adopt p hp hval => exact covered_adopt hinv hp hc
  | commit c hsrc hval st happ =>
    -- the chain grows by one block
    obtain ⟨chain, href⟩ := hinv.chain
    have hold : n.store.height = (chain.length : ℤ) - 1 := href.height
    have hnew := (href.append_ok happ).2.height
    rw [List.length_append, List.length_singleton] at hnew
    have hstore : (({ n with store := st } : Node).announceCommit c).store = st :=
      store_announceCommit _ c
    refine .inl ?_
    rw [hstore]
    rcases hc with hc | ⟨hc, -⟩
    · push_cast at hnew
      omega
    · push_cast at hnew
      omega
  | twin c hsrc hval e happ hcom =>
    exact (covered_congr (store_settleTwin n _) (proposals_settleTwin n _)).mpr hc
  | cut hr => exact absurd hr hI
  | resettle hr => exact absurd hr hI
  | pend | evict | emit | file | learn | queue | unqueue | requeue | reject => exact hc

/-- Without a reorganisation a height that is covered stays so. -/
theorem Effects.covered (he : Effects I n n') (hI : ¬ I.reorg) (hinv : Invariant (core n))
    (hc : Covered n h) : Covered n' h := by
  induction he with
  | refl => exact hc
  | tail hpre he ih => exact Effect.covered he hI (Effects.invariant hpre hinv) ih

/-! ## Emissions -/

omit [SerdeReadsBack] in
/-- Only a call to propose sends proposals. -/
theorem Effect.proposalsIn_eq (he : Effect I n n') (hI : ¬ I.proposes) :
    proposalsIn n'.outgoing = proposalsIn n.outgoing := by
  cases he with
  | quiet hq =>
    obtain ⟨msgs, hout, hmsgs⟩ := hq.sends
    rw [hout, proposalsIn_append, proposalsIn_routine hmsgs, List.append_nil]
  | timeout hI htime hcore hview hcalls hout => rw [hout]
  | adopt p hp hval =>
    rw [outgoing_adopt, proposalsIn_append]
    exact List.append_nil _
  | emit p hp => exact absurd hp hI
  | commit c hsrc hval st happ =>
    rw [outgoing_announceCommit, proposalsIn_append]
    exact List.append_nil _
  | twin c hsrc hval e happ hcom => rw [settleTwin_eq]
  | pend | evict | file | learn | queue | unqueue | requeue | reject | cut | resettle => rfl

omit [SerdeReadsBack] in
/-- A node that does not propose sends no proposal. -/
theorem Effects.proposalsIn_eq (he : Effects I n n') (hI : ¬ I.proposes) :
    proposalsIn n'.outgoing = proposalsIn n.outgoing := by
  induction he with
  | refl => rfl
  | tail _ he ih => exact (Effect.proposalsIn_eq he hI).trans ih

/-- What was emitted on the way from `n` to `n'`: at most one proposal, for a height that
was not covered and is now. -/
def EmitsNext (n n' : Node) (emitted : List CheckpointProposal) : Prop :=
  emitted = [] ∨ ∃ p, emitted = [p] ∧ (∀ k, Covered n k → k < p.height.toInt) ∧
    Covered n' p.height.toInt

omit [Crates] [SerdeReadsBack] in
/-- Draining leaves what was sent. -/
theorem EmitsNext.drain {ps : List CheckpointProposal} (hnext : EmitsNext n n' ps) :
    EmitsNext n n'.drain.1 ps := hnext

/-- A node proposes for the height that comes next, and covers it. -/
theorem proposeInternal_emitsNext (hinv : Invariant (core n)) (hout : n.outgoing = []) :
    EmitsNext n n.proposeInternal (proposalsIn n.proposeInternal.outgoing) := by
  rcases proposeInternal_cases n with hq | ⟨head, seen, -, hhead, hnone, hval, heq⟩
  · obtain ⟨msgs, hsent, hmsgs⟩ := hq.sends
    rw [hsent, hout]
    exact .inl (proposalsIn_routine hmsgs)
  obtain ⟨chain, href⟩ := hinv.chain
  have hheight : (n.nextProposal head).height.toInt = n.store.height + 1 := by
    rw [((validateProposal_ok_iff_head _ _ _ _).mp hval).1, show n.store = (core n).store from rfl,
      href.head_height, href.height]
  have hhead' : head.height = n.store.height := by
    have hlast := href.head_height
    rw [show (core n).store.head = some head from hhead, Option.map_some, Option.getD_some,
      ← href.height] at hlast
    exact hlast
  obtain ⟨heff, hheld⟩ := proposed_effects (I := Inputs.any) trivial hhead hnone hval trivial
  have hcommit := maybeCommit_effects (I := Inputs.none) (n.nextProposal head) hheld trivial
  rw [heq]
  refine .inr ⟨n.nextProposal head, ?_, fun k hk => ?_, ?_⟩
  · rw [Effects.proposalsIn_eq hcommit id, outgoing_proposed, hout]
    rfl
  · rcases hk with hk | ⟨rfl, hout⟩
    · omega
    · rw [← hhead', hnone] at hout
      cases hout
  · refine Effects.covered hcommit id (heff.invariant hinv) (.inr ⟨?_, ?_⟩)
    · rw [store_proposed, hheight]
    · exact outstandingAt_iff.mpr ⟨_, _, hheld, rfl⟩

/-- The operation carries no block of height 0 in a response. -/
def SuffixOnly (op : Node.Op) : Prop :=
  ∀ resp, op = .syncResponse resp → ∀ b ∈ resp.blocks, b.height ≠ 0

omit [SerdeReadsBack] in
/-- Such an operation starts no reorganisation. -/
theorem SuffixOnly.no_reorg {op : Node.Op} (hop : SuffixOnly op) : ¬ (inputs n op).reorg := by
  rintro ⟨resp, hresp, b, hb, hzero⟩
  exact hop resp hresp b hb hzero

/-- An operation without a reorganisation uncovers no height. -/
theorem step_covered {op : Node.Op} (hinv : Invariant (core n)) (hidle : Idle n)
    (hop : SuffixOnly op) (hc : Covered n h) : Covered (n.step op).1 h := by
  obtain ⟨m, hm⟩ := step_effects hinv.keyed hidle.outgoing hidle.calls op
  rw [hm.state]
  have hcov : Covered m h := Effects.covered hm.effects hop.no_reorg hinv hc
  exact hcov

omit [SerdeReadsBack] in
/-- No delivery makes a node propose. -/
theorem proposalsIn_receive (hkeyed : Keyed n) (hout : n.outgoing = []) (topic : String)
    (msg : Message) : proposalsIn (n.step (.receive topic msg)).2.1 = [] := by
  have heff : Effects (inputs n (.receive topic msg)) n _ := receive_effects hkeyed topic msg
  exact (Effects.proposalsIn_eq heff (by simp [inputs])).trans (by rw [hout]; rfl)

/-- An operation proposes for the height that comes next, if at all. -/
theorem step_emitsNext (op : Node.Op) (hinv : Invariant (core n)) (hidle : Idle n) :
    EmitsNext n (n.step op).1 (proposalsIn (n.step op).2.1) := by
  have hother (m : Node) (hI : ¬ (inputs n op).proposes) (heff : Effects (inputs n op) n m) :
      proposalsIn m.outgoing = [] := by
    rw [Effects.proposalsIn_eq heff hI, hidle.outgoing]
    rfl
  cases op with
  | submitClaim s => exact .inl (hother _ (by simp [inputs]) (submitClaim_effects s (.inl rfl)))
  | receive topic msg =>
    exact .inl (hother _ (by simp [inputs]) (receive_effects hinv.keyed topic msg))
  | syncRequest req =>
    exact .inl (hother _ (by simp [inputs]) (.quiet (quiet_onSyncRequest n req)))
  | syncResponse resp =>
    exact .inl (hother _ (by simp [inputs]) (onSyncResponse_effects resp))
  | proposeNow => exact (proposeInternal_emitsNext hinv hidle.outgoing).drain
  | tick =>
    obtain ⟨m, hm, hcore, -, ⟨-, -, hmsgs⟩ | ⟨-, htick, -, beat, hmsgs, hbeat⟩⟩ :=
      tick_cases hidle.outgoing hidle.calls
    · refine .inl (proposalsIn_routine fun e he => ?_)
      by_contra hno
      exact hmsgs e hno he
    · show EmitsNext n n.tick.1 (proposalsIn n.tick.2.1)
      rw [hmsgs, proposalsIn_append, proposalsIn_routine hbeat, List.nil_append, htick]
      have hcov (k : ℤ) : Covered m k ↔ Covered n k :=
        covered_congr (congrArg Core.store hcore) (congrArg Core.proposals hcore)
      have hempty : m.outgoing = [] := hm ▸ rfl
      have hnext := (proposeInternal_emitsNext (hcore ▸ hinv) hempty).drain
      generalize m.proposeInternal.drain.1 = m' at hnext ⊢
      simpa only [EmitsNext, hcov] using hnext

/-! ## Runs -/

/-- The proposals that a node emits in a run. -/
def emitted : Node → List Node.Op → List CheckpointProposal
  | _, [] => []
  | n, op :: ops => proposalsIn (n.step op).2.1 ++ emitted (n.step op).1 ops

/-- Every height that is covered at the start is below those of the run's proposals, and
these increase. -/
theorem emitted_increasing {ops : List Node.Op} (hn : Node.Reachable n)
    (hops : ∀ op ∈ ops, SuffixOnly op) :
    (∀ k, Covered n k → ∀ p ∈ emitted n ops, k < p.height.toInt) ∧
      (emitted n ops).Pairwise fun p q => p.height.toInt < q.height.toInt := by
  induction ops generalizing n with
  | nil => exact ⟨by simp [emitted], List.Pairwise.nil⟩
  | cons op ops ih =>
    obtain ⟨hinv, hidle⟩ := reachable_idle hn
    obtain ⟨habove, hrest⟩ := ih (hn.step op) fun x hx => hops x (by simp [hx])
    have hkeep (k : ℤ) (hk : Covered n k) : Covered (n.step op).1 k :=
      step_covered hinv hidle (hops op (by simp)) hk
    rcases step_emitsNext op hinv hidle with hnone | ⟨p, hp, hfresh, hcov⟩
    · rw [emitted, hnone, List.nil_append]
      exact ⟨fun k hk => habove k (hkeep k hk), hrest⟩
    · rw [emitted, hp, List.singleton_append]
      refine ⟨fun k hk q hq => ?_, List.pairwise_cons.mpr ⟨habove _ hcov, hrest⟩⟩
      rcases List.mem_cons.mp hq with rfl | hq
      · exact hfresh k hk
      · exact habove k (hkeep k hk) q hq

/-- The heights of the proposals that a node emits increase strictly, so no two of them
are for one height. -/
theorem emitted_heights_increase (hn : Node.Reachable n) (ops : List Node.Op)
    (hops : ∀ op ∈ ops, SuffixOnly op) :
    ((emitted n ops).map fun p => p.height.toInt).Pairwise (· < ·) ∧
      ∀ p ∈ emitted n ops, ∀ q ∈ emitted n ops, p.height = q.height → p = q := by
  have hincreasing : ((emitted n ops).map fun p => p.height.toInt).Pairwise (· < ·) :=
    List.pairwise_map.mpr (emitted_increasing hn hops).2
  have hnodup : ((emitted n ops).map fun p => p.height.toInt).Nodup := hincreasing.imp ne_of_lt
  exact ⟨hincreasing, fun p hp q hq heq =>
    List.inj_on_of_nodup_map hnodup hp hq (congrArg Int64.toInt heq)⟩

end Exodus.Analysis

namespace Exodus.Analysis

open Exodus.Library Exodus.Model Exodus.Interface Exodus.Sample

/-- A run of the sample in which the node is asked twice to propose. -/
theorem increase_firstClaim :
    ((emitted (fresh .a "t1")
      [.submitClaim firstClaim.signed, .proposeNow, .proposeNow]).map
        fun p => p.height.toInt).Pairwise (· < ·) :=
  (emitted_heights_increase (fresh_reachable .a "t1") _ (by simp [SuffixOnly])).1

end Exodus.Analysis
