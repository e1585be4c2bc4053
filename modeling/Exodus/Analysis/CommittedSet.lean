import Exodus.Interface.Invariant
import Exodus.Interface.Reorg
import Exodus.Interface.SampleChain

/-!
# The committed set in memory

`committed_claim_ids` should be the ids that the ledger holds.  `commit_local` adds the
ids of a block that was appended, and of a fork twin those that are stored; a
reorganisation reads the set from the ledger.  `on_commit` is the exception: it keeps
the ids of a block once it has validated it, and the ledger may refuse the block after
that.  In a run where this does not happen the set mirrors the ledger.
-/

set_option autoImplicit false

namespace Exodus.Analysis

open Exodus.Library Exodus.Model Exodus.Interface

variable {I : Inputs} {n n' : Node} {c : Checkpoint}

/-- `committed_claim_ids` is what `all_committed_claim_ids` returns. -/
def Mirrors (n : Node) : Prop := n.committedClaimIds = n.store.allCommittedClaimIds

/-- Whether the set mirrors the ledger is read from the core. -/
theorem Mirrors.of_core_eq (h : Mirrors n) (hcore : core n' = core n) : Mirrors n' := by
  rw [Mirrors, show n'.committedClaimIds = n.committedClaimIds from
    congrArg Core.committedClaimIds hcore, show n'.store = n.store from congrArg Core.store hcore]
  exact h

variable [Crates]

/-! ## The condition -/

/-- `on_commit` takes the block for the next one and validates it, and the ledger refuses it. -/
structure RefusedNext (n : Node) (c : Checkpoint) : Prop where
  next : IsNext n.store c
  unseen : n.commitRejectSeen c.blockHash = false
  validated : ∃ seen, validateCheckpoint c n.store n.config.flopsTolerance n.quorumSize false
    (some n.committedClaimIds) = .ok seen
  refused : ∃ e, n.store.append c = .error e

/-- No block of a list is refused in this way when they go to `on_commit` in turn. -/
def NoneRefused : List Checkpoint → Node → Prop
  | [], _ => True
  | c :: rest, n => ¬ RefusedNext n c ∧ NoneRefused rest (n.onCommit c)

omit [Crates] in
/-- The blocks that an operation hands to `on_commit`. -/
def commitsOf : Node.Op → List Checkpoint
  | .receive topic (.commitMessage c) => if topic = Topics.commits then [c] else []
  | .syncResponse resp => if resp.blocks.any fun b => b.height = 0 then [] else resp.blocks
  | _ => []

/-- The ledger refuses no block that the operation has validated as the next one. -/
def CommitsTaken (n : Node) (op : Node.Op) : Prop := NoneRefused (commitsOf op) n

/-! ## Steps -/

/-- Where no block comes through `on_commit` and nothing is reorganised, the two sets
change alike. -/
theorem Effect.mirrors (he : Effect I n n') (hrec : ∀ c, ¬ I.received c) (hI : ¬ I.reorg)
    (hinv : Invariant (core n)) (h : Mirrors n) : Mirrors n' := by
  cases he with
  | quiet hq => exact h.of_core_eq hq.core_eq
  | timeout hI htime hcore => exact h.of_core_eq hcore
  | adopt p hp hval =>
    rw [Mirrors, committedClaimIds_adopt, store_adopt]
    exact h
  | commit c hsrc hval st happ =>
    obtain ⟨chain, href⟩ := hinv.chain
    rw [Mirrors, committedClaimIds_announceCommit, store_announceCommit,
      href.allCommittedClaimIds_append happ]
    exact congrArg (· ∪ c.proposal.claimIds.toFinset) h
  | twin c hsrc hval e happ hcom =>
    -- only ids that the ledger has are added
    rw [Mirrors, committedClaimIds_settleTwin, store_settleTwin]
    refine (Finset.union_eq_left.mpr fun id hid => ?_).trans h
    have hstored := (List.mem_filter.mp (List.mem_toFinset.mp hid)).2
    rw [h, ChainStore.allCommittedClaimIds, List.mem_toFinset]
    simpa [ChainStore.claimExists] using hstored
  | learn c hsrc => exact absurd hsrc (hrec c)
  | cut hr => exact absurd hr hI
  | resettle hr => exact absurd hr hI
  | pend | evict | emit | file | queue | unqueue | requeue | reject => exact h

/-- Effects that receive no block and start no reorganisation keep the mirror. -/
theorem Effects.mirrors (he : Effects I n n') (hrec : ∀ c, ¬ I.received c) (hI : ¬ I.reorg)
    (hinv : Invariant (core n)) (h : Mirrors n) : Mirrors n' := by
  induction he with
  | refl => exact h
  | tail hes he ih => exact Effect.mirrors he hrec hI (Effects.invariant hes hinv) ih

omit [Crates] in
/-- Blocks from the queue may come in, and nothing else. -/
def queueOnly : Inputs := { Inputs.none with blocks := fun _ => True }

/-- Applying the blocks of a peer ends with the set read from the ledger. -/
theorem reapply_mirrors (ancestor : ℤ) (saved incoming : List Checkpoint) (applied : ℕ)
    (n : Node) : Mirrors (Node.reapply ancestor saved incoming applied n) := by
  induction incoming generalizing applied n with
  | nil => rfl
  | cons b rest ih =>
    unfold Node.reapply
    split
    · rfl
    · exact ih _ _

/-- So a reorganisation keeps the mirror. -/
theorem reconcileChain_mirrors (peer : List Checkpoint) (h : Mirrors n) :
    Mirrors (n.reconcileChain peer) := by
  by_cases hin : Enters n peer
  · rw [reconcileChain_of_enters hin]
    exact reapply_mirrors _ _ _ _ _
  · rwa [reconcileChain_of_not_enters hin]

variable [SerdeReadsBack]

/-- So does a block that the ledger does not refuse. -/
theorem onCommit_mirrors (hinv : Invariant (core n)) (h : Mirrors n) (hc : ¬ RefusedNext n c) :
    Mirrors (n.onCommit c) := by
  by_cases hnext : IsNext n.store c
  case neg =>
    rcases onCommit_of_not_isNext hnext with hq | ⟨-, hq⟩
    · exact h.of_core_eq hq.core_eq
    · exact Mirrors.of_core_eq (n := n.insertPendingCommit c) h hq.core_eq
  rw [onCommit_of_isNext hnext]
  rcases acceptCommit_cases n c with ⟨-, heq⟩ | ⟨hfresh, ⟨e, -, heq⟩ | ⟨seen, hval, heq⟩⟩
  · rwa [heq]
  · rw [heq, noteCommitReject_eq]
    exact h
  obtain ⟨chain, href⟩ := hinv.chain
  obtain ⟨st, happ⟩ : ∃ st, n.store.append c = .ok st := by
    cases happ : n.store.append c with
    | ok st => exact ⟨st, rfl⟩
    | error e => exact absurd ⟨hnext, hfresh, ⟨seen, hval⟩, e, happ⟩ hc
  obtain ⟨st', href', hcommit⟩ := commitLocal_of_extends
    (n := { n with committedClaimIds := seen }) href (href.append_ok happ).1
  rw [heq, hcommit, href'.store_unique (href.append_ok happ).2]
  have hcore := core_announceCommit
    ({ ({ n with committedClaimIds := seen } : Node) with store := st } : Node) c
  have heff : Effects Inputs.any n (({ ({ n with committedClaimIds := seen } : Node) with
      store := st } : Node).announceCommit c) :=
    .head (.learn c trivial _ seen hval)
      (.single (.commit (n := { n with committedClaimIds := seen }) c (.inl trivial)
        ⟨_, _, _, hval⟩ st happ))
  generalize ({ ({ n with committedClaimIds := seen } : Node) with store := st } :
    Node).announceCommit c = m at hcore heff
  have hm : Mirrors m := by
    rw [Mirrors, show m.committedClaimIds = seen ∪ c.proposal.claimIds.toFinset from
      congrArg Core.committedClaimIds hcore, show m.store = st from congrArg Core.store hcore,
      validateCheckpoint_seen hval, href.allCommittedClaimIds_append happ, Option.getD_some,
      Finset.union_assoc, Finset.union_self]
    exact congrArg (· ∪ c.proposal.claimIds.toFinset) h
  have hflush : Effects queueOnly m m.flushPendingCommits :=
    flushPendingCommits_effects fun _ _ _ => trivial
  exact Effects.mirrors hflush (fun _ => id) id (heff.invariant hinv) hm

/-- So do blocks in a row. -/
theorem onCommits_mirrors (blocks : List Checkpoint) (n : Node) (hinv : Invariant (core n))
    (h : Mirrors n) (hb : NoneRefused blocks n) : Mirrors (blocks.foldl Node.onCommit n) := by
  induction blocks generalizing n with
  | nil => exact h
  | cons c rest ih =>
    have heff : Effects Inputs.any n (n.onCommit c) :=
      onCommit_effects c trivial trivial fun _ _ _ => trivial
    exact ih _ (heff.invariant hinv) (onCommit_mirrors hinv h hb.1) hb.2

/-- So does an operation whose blocks the ledger takes. -/
theorem step_mirrors (hinv : Invariant (core n)) (hidle : Idle n) (h : Mirrors n)
    (op : Node.Op) (hop : CommitsTaken n op) : Mirrors (n.step op).1 := by
  by_cases hcommit : ∃ c, op = .receive Topics.commits (.commitMessage c)
  · obtain ⟨c, rfl⟩ := hcommit
    exact (onCommit_mirrors hinv h hop.1).of_core_eq (core_drain _)
  by_cases hsync : ∃ resp, op = .syncResponse resp
  · obtain ⟨resp, rfl⟩ := hsync
    refine Mirrors.of_core_eq (n := n.onSyncResponse resp) ?_ (core_drain _)
    have hblocks : NoneRefused (if resp.blocks.any fun b => b.height = 0 then []
      else resp.blocks) n := hop
    unfold Node.onSyncResponse
    split_ifs with hfull
    · exact reconcileChain_mirrors _ h
    · rw [if_neg hfull] at hblocks
      exact onCommits_mirrors _ n hinv h hblocks
  -- no other operation hands a block to `on_commit`
  obtain ⟨m, hm⟩ := step_effects hinv.keyed hidle.outgoing hidle.calls op
  rw [hm.state]
  refine (Effects.mirrors hm.effects ?_ ?_ hinv h).of_core_eq (core_drain m)
  · rintro c (rfl | ⟨resp, rfl, -⟩)
    · exact hcommit ⟨c, rfl⟩
    · exact hsync ⟨resp, rfl⟩
  · rintro ⟨resp, rfl, -⟩
    exact hsync ⟨resp, rfl⟩

/-! ## The refused block -/

/-- A refused block leaves its ids in the set. -/
theorem RefusedNext.not_mirrors (hinv : Invariant (core n)) (h : Mirrors n)
    (hc : RefusedNext n c) (hqueue : n.pendingCommits[c.height]? = none) :
    ¬ Mirrors (n.onCommit c) := by
  obtain ⟨hnext, hfresh, ⟨seen, hval⟩, e, happ⟩ := hc
  obtain ⟨chain, href⟩ := hinv.chain
  have href' : Refines n.store chain := href
  have haccept : n.acceptCommit c =
      (({ n with committedClaimIds := seen } : Node).commitLocal c).flushPendingCommits := by
    unfold Node.acceptCommit
    rw [if_neg (by simp [hfresh]), hval]
  have hsame : SameLedger { n with committedClaimIds := seen }
      (({ n with committedClaimIds := seen } : Node).commitLocal c) := by
    rcases commitLocal_cases { n with committedClaimIds := seen } c with hsame | ⟨st, hok, -⟩
    · exact hsame
    · rw [show Node.store _ = n.store from rfl, happ] at hok
      cases hok
  rw [onCommit_of_isNext hnext, haccept]
  generalize ({ n with committedClaimIds := seen } : Node).commitLocal c = m at hsame
  rw [flushPendingCommits_of_none]
  · -- an id of the block is in the set and not in the ledger
    intro hmirror
    have hids := validateCheckpoint_seen hval
    rw [validateCheckpoint_ok_iff, href'.validateProposal_ok_iff] at hval
    rcases hval with ⟨hg, -⟩ | ⟨-, ⟨hp, -⟩, -⟩
    · obtain ⟨st, hok⟩ := href'.append_extends (extends_of_isCanonicalGenesis href' hnext hg)
      rw [happ] at hok
      cases hok
    · obtain ⟨s, rest, hclaims⟩ := List.exists_cons_of_ne_nil (hp.nonempty rfl)
      have hs : s ∈ c.proposal.claims := by simp [hclaims]
      have hseen : s.claim.claimId ∈ seen := by
        rw [hids]
        exact Finset.mem_union_right _ (List.mem_toFinset.mpr (List.mem_map_of_mem hs))
      have hstored := hsame.committed hseen
      rw [hmirror, hsame.store, show Node.store _ = n.store from rfl, ← h] at hstored
      exact hp.claims.ids_fresh s hs hstored
  · rw [hsame.store, hsame.queue, show Node.store _ = n.store from rfl, href'.head_height,
      show (chain.length : ℤ) - 1 + 1 = c.height by rw [href'.height_of_isNext hnext]; omega]
    exact hqueue

/-! ## Runs -/

omit [SerdeReadsBack] in
/-- A new node reads the set from its ledger. -/
theorem mirrors_new (nodeId : String) (privateKey : List UInt8) (publicKeyHex : String)
    {st : ChainStore} (config : ExodusConfig) (ambient : Ambient)
    (h : ∃ chain, Refines st chain) :
    Mirrors (Node.new nodeId privateKey publicKeyHex st config ambient) := by
  obtain ⟨chain, h⟩ := h
  unfold Node.new
  dsimp only
  split_ifs with hheight
  · rfl
  · -- genesis has no claims
    have hnil : chain = [] := by
      rw [h.height] at hheight
      exact List.length_eq_zero_iff.mp (by omega)
    subst hnil
    obtain ⟨st', happ⟩ := h.append_extends extends_genesis
    have happended : st.appended genesisCheckpoint = st' := by rw [ChainStore.appended, happ]
    show st.allCommittedClaimIds = (st.appended genesisCheckpoint).allCommittedClaimIds
    rw [happended, h.allCommittedClaimIds_append happ]
    exact (Finset.union_empty _).symm

/-- In every run in which the ledger refuses no block that `on_commit` has validated as the
next one, the committed set mirrors the ledger in every state; and such a refused block
breaks this at once, unless a block of the same height is queued. -/
theorem committed_mirrors_ledger :
    (∀ n, ReachableBy CommitsTaken n → n.committedClaimIds = n.store.allCommittedClaimIds) ∧
    ∀ n c, Node.Reachable n → n.committedClaimIds = n.store.allCommittedClaimIds →
      RefusedNext n c → n.pendingCommits[c.height]? = none →
      (n.step (.receive Topics.commits (.commitMessage c))).1.committedClaimIds ≠
        (n.step (.receive Topics.commits (.commitMessage c))).1.store.allCommittedClaimIds := by
  refine ⟨fun n hn => ?_, fun n c hn h hc hqueue => ?_⟩
  · induction hn with
    | start => exact mirrors_new _ _ _ _ _ ⟨[], refines_empty⟩
    | restart hn =>
      exact mirrors_new _ _ _ _ _ (reachable_idle hn.reachable).1.chain
    | step hn op hop ih =>
      obtain ⟨hinv, hidle⟩ := reachable_idle hn.reachable
      exact step_mirrors hinv hidle ih op hop
  · intro hmirror
    exact hc.not_mirrors (reachable_idle hn).1 h hqueue
      (Mirrors.of_core_eq (n := (n.onCommit c).drain.1) hmirror (core_drain _).symm)

end Exodus.Analysis

namespace Exodus.Analysis

open Exodus.Library Exodus.Model Exodus.Interface Exodus.Sample

/-- A node that has appended the first block mirrors its ledger: both sets have the id of the
one claim. -/
theorem mirrors_first :
    (after firstBlock .a "t1").committedClaimIds = {"a1"} ∧
      (after firstBlock .a "t1").committedClaimIds =
        (after firstBlock .a "t1").store.allCommittedClaimIds := by
  refine ⟨?_, committed_mirrors_ledger.1 _ ?_⟩
  · obtain ⟨st, -, heq⟩ := fresh_commits first_follows .a "t1"
    have hcore := congrArg core heq
    rw [core_drain, core_announceCommit] at hcore
    exact congrArg Core.committedClaimIds hcore
  · have hstart : ReachableBy CommitsTaken (fresh .a "t1") := fresh_eq_new .a "t1" ▸ .start _ _ _ _ _
    obtain ⟨st, happ⟩ := (fresh_refines .a "t1").append_extends first_follows.can_append
    refine .step hstart _ ⟨fun hrefused => ?_, trivial⟩
    obtain ⟨e, he⟩ := hrefused.refused
    cases happ.symm.trans he

/-- A commit message whose block is validated and then refused by the ledger leaves its claim
ids among the committed ones. -/
theorem clash_marks_committed :
    Node.Reachable ((fresh .a "t1").step (.receive Topics.commits (.commitMessage clashBlock))).1 ∧
      ((fresh .a "t1").step (.receive Topics.commits (.commitMessage clashBlock))).1.committedClaimIds ≠
        ((fresh .a "t1").step
          (.receive Topics.commits (.commitMessage clashBlock))).1.store.allCommittedClaimIds := by
  have href := fresh_refines .a "t1"
  have hmirrors : Mirrors (fresh .a "t1") := by
    rw [Mirrors, ChainStore.allCommittedClaimIds, href.claimIds]
    rfl
  have hnext : IsNext (fresh .a "t1").store clashBlock := by
    rw [IsNext, href.head]
    exact ⟨rfl, (readBack_blockHash genesisCheckpoint).trans genesis_blockHash ▸ rfl⟩
  have hrefused : RefusedNext (fresh .a "t1") clashBlock := by
    refine ⟨hnext, rfl, fresh_validates clash_passes .a "t1" _, ?_⟩
    cases happ : (fresh .a "t1").store.append clashBlock with
    | error e => exact ⟨e, rfl⟩
    | ok st => exact absurd (href.append_ok happ).1 clash_not_extends
  exact ⟨.step (fresh_reachable .a "t1") _, RefusedNext.not_mirrors
    (reachable_idle (fresh_reachable .a "t1")).1 hmirrors hrefused rfl⟩

end Exodus.Analysis
