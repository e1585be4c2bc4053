import Exodus.Interface.Operations
import Exodus.Interface.ValidationSpec

/-!
# Adopting blocks one after the other

A block follows a chain when it passes the validation and the ledger can take it.
`adoptAll` is what a node does with a list of blocks that all follow: validate,
append, go on.  On a store that holds a chain it succeeds exactly when each block
follows the chain before it, and the store then holds the longer chain.
-/

set_option autoImplicit false

namespace Exodus.Interface

open Exodus.Library Exodus.Model

variable [Crates] {st st' : ChainStore} {chain : List Checkpoint} {c : Checkpoint} {tol : Float}
  {n : Node}

/-! ## Blocks that follow a chain -/

/-- `validate_checkpoint` on a chain, with no claim ids seen before. -/
def Passes (tol : Float) (chain : List Checkpoint) (c : Checkpoint) : Prop :=
  isCanonicalGenesis c.proposal = true ∨
    isCanonicalGenesis c.proposal = false ∧ ProposalPasses tol chain ∅ false c.proposal ∧ Signed c

/-- The block passes the validation, and the ledger can take it. -/
structure Follows (tol : Float) (chain : List Checkpoint) (c : Checkpoint) : Prop where
  passes : Passes tol chain c
  can_append : Extends chain c

/-- A chain from genesis on whose blocks each follow the blocks below. -/
structure ValidChain (tol : Float) (chain : List Checkpoint) : Prop where
  follows : Log (Follows tol) chain
  genesis : chain.head? = some genesisCheckpoint

/-- Blocks that follow each other are a chain of the ledger. -/
theorem ledgerChain_of_follows (h : Log (Follows tol) chain) : LedgerChain chain :=
  h.imp fun _ _ _ hf => hf.can_append

omit [Crates] in
/-- The canonical genesis has the proposal of genesis. -/
theorem isCanonicalGenesis_iff (p : CheckpointProposal) :
    isCanonicalGenesis p = true ↔ p = genesisCheckpoint.proposal := by
  obtain ⟨epoch, height, prevHash, sealedBy, claims, createdAt⟩ := p
  simp only [isCanonicalGenesis, genesisCheckpoint, Bool.and_eq_true, decide_eq_true_eq,
    List.isEmpty_iff, CheckpointProposal.mk.injEq]
  have hheight : height.toInt = 0 ↔ height = 0 := Int64.toInt_inj (y := 0)
  have hepoch : epoch.toInt = 0 ↔ epoch = 0 := Int64.toInt_inj (y := 0)
  rw [hheight, hepoch]
  tauto

/-- A validation adds the ids of the block to those it was given. -/
theorem validateCheckpoint_seen {q : ℕ} {allowEmpty : Bool} {seen : Option (Finset String)}
    {seen' : Finset String} (hval : validateCheckpoint c st tol q allowEmpty seen = .ok seen') :
    seen' = seen.getD ∅ ∪ c.proposal.claimIds.toFinset := by
  rcases (validateCheckpoint_ok_iff c q allowEmpty _ seen').mp hval with ⟨hg, rfl⟩ | ⟨-, hp, -⟩
  · rw [(isCanonicalGenesis_iff _).mp hg]
    exact (Finset.union_empty _).symm
  · obtain ⟨-, -, -, -, hclaims⟩ := (validateProposal_ok_iff_head _ _ _ _).mp hp
    exact ((validateClaims_ok_iff _ _ _).mp hclaims).2

/-- The validation only adds to the seen ids. -/
theorem validateCheckpoint_subset {q : ℕ} {allowEmpty : Bool} {seen seen' : Finset String}
    (hval : validateCheckpoint c st tol q allowEmpty (some seen) = .ok seen') : seen ⊆ seen' := by
  rw [validateCheckpoint_seen hval]
  exact Finset.subset_union_left

/-- The ids that a proposal may not repeat only matter where it repeats one. -/
theorem ProposalPasses.of_fresh {allowEmpty : Bool} {p : CheckpointProposal}
    {seen seen' : Finset String} (h : ProposalPasses tol chain seen allowEmpty p)
    (hfresh : ∀ id ∈ p.claimIds, id ∉ seen') : ProposalPasses tol chain seen' allowEmpty p :=
  ⟨h.height_eq, h.prevHash_eq, h.epoch_advances, h.nonempty, h.claims.each,
    fun _ hs => hfresh _ (List.mem_map_of_mem hs), h.claims.ids_nodup, h.claims.seqs_change⟩

/-- Whether a proposal passes depends on the contents of the chain only. -/
theorem ProposalPasses.congr {l m : List Checkpoint} {seen : Finset String} {allowEmpty : Bool}
    {p : CheckpointProposal} (h : l.map content = m.map content)
    (hp : ProposalPasses tol l seen allowEmpty p) : ProposalPasses tol m seen allowEmpty p := by
  have hlen : l.length = m.length := by simpa using congrArg List.length h
  refine ⟨hlen ▸ hp.height_eq, headHash_congr h ▸ hp.prevHash_eq, fun tip htip => ?_, hp.nonempty,
    hlen ▸ hp.claims⟩
  have hlast := congrArg List.getLast? h
  rw [List.getLast?_map, List.getLast?_map, htip, Option.map_some, Option.map_eq_some_iff] at hlast
  obtain ⟨tip', htip', heq⟩ := hlast
  have hproposal : tip'.proposal = tip.proposal := congrArg Prod.fst heq
  have := hp.epoch_advances tip' htip'
  rwa [Checkpoint.epoch, hproposal] at this

/-- Whether a block follows depends on the contents of the blocks below only. -/
theorem Follows.congr {l m : List Checkpoint} (h : l.map content = m.map content)
    (hf : Follows tol l c) : Follows tol m c := by
  refine ⟨?_, hf.can_append.congr h rfl⟩
  rcases hf.passes with hg | ⟨hg, hp, hs⟩
  · exact .inl hg
  · exact .inr ⟨hg, hp.congr h, hs⟩

/-- So does whether blocks follow. -/
theorem LogFrom.follows_congr {l m bs : List Checkpoint} (h : l.map content = m.map content)
    (hf : LogFrom (Follows tol) l bs) : LogFrom (Follows tol) m bs := by
  induction bs generalizing l m with
  | nil => trivial
  | cons b rest ih =>
    refine ⟨hf.1.congr h, ih (l := l ++ [b]) ?_ hf.2⟩
    rw [List.map_append, List.map_append, h]

variable [SerdeReadsBack]

/-- `validate_checkpoint` on a store that holds a chain. -/
theorem Refines.validateCheckpoint_ok_iff (h : Refines st chain) (c : Checkpoint) (q : ℕ)
    (seen : Option (Finset String)) (hseen : seen.getD ∅ = ∅) :
    (∃ seen', validateCheckpoint c st tol q false seen = .ok seen') ↔ Passes tol chain c := by
  simp only [Interface.validateCheckpoint_ok_iff, hseen, h.validateProposal_ok_iff, Passes]
  constructor
  · rintro ⟨seen', ⟨hg, -⟩ | ⟨hg, ⟨hp, -⟩, hs⟩⟩
    · exact .inl hg
    · exact .inr ⟨hg, hp, hs⟩
  · rintro (hg | ⟨hg, hp, hs⟩)
    · exact ⟨_, .inl ⟨hg, rfl⟩⟩
    · exact ⟨_, .inr ⟨hg, ⟨hp, rfl⟩, hs⟩⟩

/-- A block that follows is validated against any set of ids that has none of its own. -/
theorem Follows.validateCheckpoint_ok (h : Refines st chain) (hf : Follows tol chain c) (q : ℕ)
    (seen : Option (Finset String)) (hfresh : ∀ id ∈ c.proposal.claimIds, id ∉ seen.getD ∅) :
    validateCheckpoint c st tol q false seen =
      .ok (seen.getD ∅ ∪ c.proposal.claimIds.toFinset) := by
  rw [Interface.validateCheckpoint_ok_iff, h.validateProposal_ok_iff]
  rcases hf.passes with hg | ⟨hg, hp, hs⟩
  · refine .inl ⟨hg, ?_⟩
    rw [(isCanonicalGenesis_iff _).mp hg]
    exact Finset.union_empty _
  · exact .inr ⟨hg, ⟨hp.of_fresh hfresh, rfl⟩, hs⟩

/-! ## Lists of blocks -/

omit [SerdeReadsBack] in
/-- Validate and append the blocks one by one; `none` when one is refused. -/
def adoptAll (tol : Float) : List Checkpoint → ChainStore → Option ChainStore
  | [], st => some st
  | b :: rest, st =>
    match validateCheckpoint b st tol 0 false (some ∅), st.append b with
    | .ok _, .ok st' => adoptAll tol rest st'
    | _, _ => none

omit [SerdeReadsBack] in
/-- All blocks are adopted if the first is and the rest are after it. -/
theorem adoptAll_cons_eq_some {b : Checkpoint} {rest : List Checkpoint} :
    adoptAll tol (b :: rest) st = some st' ↔
      (∃ seen, validateCheckpoint b st tol 0 false (some ∅) = .ok seen) ∧
      ∃ st₁, st.append b = .ok st₁ ∧ adoptAll tol rest st₁ = some st' := by
  rw [adoptAll]
  cases validateCheckpoint b st tol 0 false (some ∅) <;> cases st.append b <;> simp

/-- The list is adopted exactly when each block follows those before it. -/
theorem Refines.adoptAll_eq_some_iff (h : Refines st chain) (bs : List Checkpoint) :
    adoptAll tol bs st = some st' ↔
      LogFrom (Follows tol) chain bs ∧ Refines st' (chain ++ bs) := by
  induction bs generalizing st chain with
  | nil =>
    simp only [adoptAll, Option.some.injEq, LogFrom, List.append_nil, true_and]
    constructor
    · rintro rfl
      exact h
    · exact fun h' => h.store_unique h'
  | cons b rest ih =>
    rw [adoptAll_cons_eq_some, h.validateCheckpoint_ok_iff b 0 (some ∅) rfl, LogFrom]
    constructor
    · rintro ⟨hpass, st₁, happ, hrest⟩
      obtain ⟨hext, href⟩ := h.append_ok happ
      obtain ⟨hfollow, href'⟩ := (ih href).mp hrest
      exact ⟨⟨⟨hpass, hext⟩, hfollow⟩, by simpa using href'⟩
    · rintro ⟨⟨hb, hrest⟩, href'⟩
      obtain ⟨st₁, happ⟩ := h.append_extends hb.can_append
      exact ⟨hb.passes, st₁, happ,
        (ih (h.append_ok happ).2).mpr ⟨hrest, by simpa using href'⟩⟩

/-- Blocks that follow the chain are all adopted. -/
theorem Refines.exists_adoptAll (h : Refines st chain) {bs : List Checkpoint}
    (hbs : LogFrom (Follows tol) chain bs) :
    ∃ st', adoptAll tol bs st = some st' ∧ Refines st' (chain ++ bs) := by
  induction bs generalizing st chain with
  | nil => exact ⟨st, rfl, by simpa using h⟩
  | cons b rest ih =>
    obtain ⟨st₁, happ⟩ := h.append_extends hbs.1.can_append
    obtain ⟨st', hrest, href⟩ := ih (h.append_ok happ).2 hbs.2
    have hval := (h.validateCheckpoint_ok_iff b 0 (some ∅) rfl).mpr hbs.1.passes
    exact ⟨st', adoptAll_cons_eq_some.mpr ⟨hval, st₁, happ, hrest⟩, by simpa using href⟩

/-! ## `commit_local` -/

omit [Crates] [SerdeReadsBack] in
/-- The ledger and what else decides about a commit are as before, and no committed id is
forgotten. -/
structure SameLedger (n m : Node) : Prop where
  store : m.store = n.store
  proposals : m.proposals = n.proposals
  signatures : m.signatures = n.signatures
  peers : m.peers = n.peers
  queue : m.pendingCommits = n.pendingCommits
  identity : m.nodeId = n.nodeId ∧ m.config = n.config
  committed : n.committedClaimIds ⊆ m.committedClaimIds

omit [Crates] [SerdeReadsBack] in
/-- A node has the ledger that it has. -/
theorem SameLedger.refl (n : Node) : SameLedger n n :=
  ⟨rfl, rfl, rfl, rfl, rfl, ⟨rfl, rfl⟩, Finset.Subset.refl _⟩

omit [Crates] [SerdeReadsBack] in
/-- A twin leaves the ledger. -/
theorem sameLedger_settleTwin (n : Node) (claims : List SignedContribution) :
    SameLedger n (n.settleTwin claims) := by
  rw [settleTwin_eq]
  exact ⟨rfl, rfl, rfl, rfl, rfl, ⟨rfl, rfl⟩, Finset.subset_union_left⟩

omit [Crates] [SerdeReadsBack] in
/-- So does a sync request. -/
theorem sameLedger_requestSync (n : Node) (fromHeight : ℤ) :
    SameLedger n (n.requestSync fromHeight) := by
  unfold Node.requestSync
  dsimp only
  split_ifs
  · exact ⟨rfl, rfl, rfl, rfl, rfl, ⟨rfl, rfl⟩, Finset.Subset.refl _⟩
  · exact ⟨rfl, rfl, rfl, rfl, rfl, ⟨rfl, rfl⟩, Finset.Subset.refl _⟩

omit [Crates] [SerdeReadsBack] in
/-- So does evicting claims. -/
theorem sameLedger_evictClaims (fuel : ℕ) (n : Node) :
    SameLedger n (Node.evictClaims fuel n) := by
  induction fuel generalizing n with
  | zero => exact .refl n
  | succ fuel ih =>
    unfold Node.evictClaims
    split_ifs
    · split
      · obtain ⟨hstore, hprops, hsigs, hpeers, hqueue, hidentity, hcommitted⟩ :=
          ih (Node.tickClock _)
        exact ⟨hstore, hprops, hsigs, hpeers, hqueue, hidentity, hcommitted⟩
      · exact .refl n
    · exact .refl n

omit [SerdeReadsBack] in
/-- So does receiving a claim. -/
theorem sameLedger_onClaims (n : Node) (s : SignedContribution) :
    SameLedger n (n.onClaims s) := by
  unfold Node.onClaims
  split_ifs
  · exact .refl n
  · exact .refl n
  · obtain ⟨hstore, hprops, hsigs, hpeers, hqueue, hidentity, hcommitted⟩ :=
      sameLedger_evictClaims _ ({ n with pending := n.pending.insert s.claim.claimId s } : Node)
    exact ⟨hstore, hprops, hsigs, hpeers, hqueue, hidentity, hcommitted⟩

omit [SerdeReadsBack] in
/-- `commit_local` appends the block and announces it, or leaves the ledger. -/
theorem commitLocal_cases (n : Node) (c : Checkpoint) :
    SameLedger n (n.commitLocal c) ∨ ∃ st, n.store.append c = .ok st ∧
      n.commitLocal c = ({ n with store := st } : Node).announceCommit c := by
  have happend : SameLedger n (n.appendLocal c) ∨ ∃ st, n.store.append c = .ok st ∧
      n.appendLocal c = ({ n with store := st } : Node).announceCommit c := by
    unfold Node.appendLocal
    cases happ : n.store.append c with
    | ok st => exact .inr ⟨st, rfl, rfl⟩
    | error e =>
      dsimp only
      split_ifs
      · exact .inl (sameLedger_settleTwin n _)
      · exact .inl (sameLedger_requestSync n _)
  unfold Node.commitLocal
  split
  · split_ifs
    · exact .inl (.refl n)
    · exact happend
  · exact happend

omit [SerdeReadsBack] in
/-- `maybe_commit` appends the assembled block, which passed the validation, or leaves the
ledger. -/
theorem maybeCommit_cases (n : Node) (p : CheckpointProposal) :
    SameLedger n (n.maybeCommit p) ∨ ∃ st, n.store.append (n.assembleCheckpoint p) = .ok st ∧
      n.quorumSize ≤ (n.signatures.getD p.proposalHash ∅).size ∧
      (∃ seen, validateCheckpoint (n.assembleCheckpoint p) n.store n.config.flopsTolerance
        n.quorumSize false (some n.committedClaimIds) = .ok seen) ∧
      n.maybeCommit p = ({ n with store := st } : Node).announceCommit (n.assembleCheckpoint p) := by
  unfold Node.maybeCommit
  split_ifs with hsize
  · exact .inl (.refl n)
  dsimp only
  split
  · exact .inl (.refl n)
  rename_i seen hval
  rcases commitLocal_cases n (n.assembleCheckpoint p) with hsame | ⟨st, happ, heq⟩
  · exact .inl hsame
  · exact .inr ⟨st, happ, not_lt.mp hsize, ⟨seen, hval⟩, heq⟩

omit [SerdeReadsBack] in
/-- The local append leaves the ledger as `append` does. -/
theorem appendLocal_store (n : Node) (c : Checkpoint) :
    (n.appendLocal c).store = n.store.appended c := by
  unfold Node.appendLocal ChainStore.appended
  cases n.store.append c with
  | error e =>
    dsimp only
    split_ifs
    · exact store_settleTwin n _
    · exact congrArg Core.store (quiet_requestSync n _).core_eq
  | ok st' => exact store_announceCommit { n with store := st' } c

/-- A validated block goes to the ledger, which takes it or not. -/
theorem commitLocal_store (h : Refines n.store chain) (hpass : Passes tol chain c) :
    (n.commitLocal c).store = n.store.appended c := by
  unfold Node.commitLocal
  rw [h.head]
  rcases List.eq_nil_or_concat' chain with rfl | ⟨l, tip, rfl⟩
  · exact appendLocal_store n c
  · rw [List.getLast?_concat, Option.map_some]
    dsimp only
    rw [readBack_height, (Log.snoc_iff.mp h.chain_ok).2.height_eq]
    split_ifs with hle
    · -- only a genesis block passes at or below the head, and the ledger has its height
      rcases h.appended c with ⟨hext, -⟩ | ⟨-, heq⟩
      · have := hext.height_eq
        rw [List.length_append, List.length_singleton] at this
        omega
      · exact heq.symm
    · exact appendLocal_store n c

/-- A block that extends the chain is committed. -/
theorem commitLocal_of_extends (h : Refines n.store chain) (hext : Extends chain c) :
    ∃ st, Refines st (chain ++ [c]) ∧
      n.commitLocal c = ({ n with store := st } : Node).announceCommit c := by
  obtain ⟨st, happ⟩ := h.append_extends hext
  refine ⟨st, (h.append_ok happ).2, ?_⟩
  have hlocal : n.appendLocal c = ({ n with store := st } : Node).announceCommit c := by
    unfold Node.appendLocal
    rw [happ]
  unfold Node.commitLocal
  rw [h.head]
  rcases List.eq_nil_or_concat' chain with rfl | ⟨l, tip, rfl⟩
  · exact hlocal
  · rw [List.getLast?_concat, Option.map_some]
    dsimp only
    rw [if_neg, hlocal]
    rw [readBack_height, (Log.snoc_iff.mp h.chain_ok).2.height_eq, hext.height_eq]
    simp

/-- A next block has the height that comes next. -/
theorem Refines.height_of_isNext (h : Refines st chain) (hnext : IsNext st c) :
    c.height = chain.length := by
  have hlast := h.head_height
  unfold IsNext at hnext
  split at hnext
  · rename_i hhead
    rw [hhead] at hlast
    simp only [Option.map_none, Option.getD_none] at hlast
    omega
  · rename_i b hhead
    rw [hhead, Option.map_some, Option.getD_some] at hlast
    omega

/-- A block that extends the chain comes next. -/
theorem Extends.isNext (h : Refines st chain) (hext : Extends chain c) : IsNext st c := by
  unfold IsNext
  rw [h.head]
  rcases List.eq_nil_or_concat' chain with rfl | ⟨l, tip, rfl⟩
  · exact hext.height_eq
  · rw [List.getLast?_concat, Option.map_some]
    refine ⟨?_, ?_⟩
    · rw [readBack_height, (Log.snoc_iff.mp h.chain_ok).2.height_eq, hext.height_eq]
      simp
    · rw [readBack_blockHash, hext.prevHash_eq, headHash_concat]

omit [SerdeReadsBack] in
/-- With no block queued at the next height nothing is flushed. -/
theorem flushPendingCommits_of_none
    (h : n.pendingCommits[(n.store.head.map Checkpoint.height).getD (-1) + 1]? = none) :
    n.flushPendingCommits = n := by
  have hheight (k : ℤ) : n.flushHeight k = n := by
    unfold Node.flushHeight
    split_ifs with hk
    · rfl
    · rw [not_not.mp hk, h]
  have hfold (heights : List ℤ) : heights.foldl Node.flushHeight n = n := by
    induction heights with
    | nil => rfl
    | cons k rest ih => rw [List.foldl_cons, hheight, ih]
  unfold Node.flushPendingCommits
  split
  · rfl
  · exact hfold _

omit [SerdeReadsBack] in
/-- Emptying an empty queue does nothing. -/
theorem flushPendingCommits_of_empty (h : n.pendingCommits = ∅) : n.flushPendingCommits = n := by
  apply flushPendingCommits_of_none
  rw [h]
  simp

/-- `on_commit` on a block that follows, when no block waits: it is committed. -/
theorem onCommit_of_follows (h : Refines n.store chain)
    (hf : Follows n.config.flopsTolerance chain c) (hqueue : n.pendingCommits = ∅)
    (hfresh : ∀ id ∈ c.proposal.claimIds, id ∉ n.committedClaimIds)
    (hrejects : c.blockHash ∉ n.recentCommitRejects) :
    ∃ st, Refines st (chain ++ [c]) ∧
      n.onCommit c = ({ n with
        committedClaimIds := n.committedClaimIds ∪ c.proposal.claimIds.toFinset
        store := st } : Node).announceCommit c := by
  have hval := hf.validateCheckpoint_ok h n.quorumSize (some n.committedClaimIds) hfresh
  rw [onCommit_of_isNext (hf.can_append.isNext h)]
  rcases acceptCommit_cases n c with ⟨hseen, -⟩ | ⟨-, ⟨e, herr, -⟩ | ⟨seen, hok, heq⟩⟩
  · exact absurd (by simpa [Node.commitRejectSeen] using hseen) hrejects
  · rw [hval] at herr
    cases herr
  · rw [hval] at hok
    cases hok
    obtain ⟨st, href, hcommit⟩ := commitLocal_of_extends (n := { n with
      committedClaimIds := n.committedClaimIds ∪ c.proposal.claimIds.toFinset }) h hf.can_append
    refine ⟨st, href, ?_⟩
    rw [heq]
    refine (flushPendingCommits_of_empty ?_).trans hcommit
    refine (congrArg Node.pendingCommits hcommit).trans ?_
    exact (queue_announceCommit _ c).trans hqueue

/-- The genesis block can always be appended where it comes next. -/
theorem extends_of_isCanonicalGenesis (h : Refines n.store chain) (hnext : IsNext n.store c)
    (hg : isCanonicalGenesis c.proposal = true) : Extends chain c := by
  have hproposal := (isCanonicalGenesis_iff _).mp hg
  have hheight := h.height_of_isNext hnext
  have hzero : c.height = 0 := by
    rw [Checkpoint.height, hproposal]
    rfl
  obtain rfl : chain = [] := List.length_eq_zero_iff.mp (by omega)
  refine ⟨hheight, ?_, ?_, by simp, ?_, ?_, ?_⟩
  · rw [hproposal]
    rfl
  · rw [Checkpoint.epoch, hproposal]
    decide
  · simp [chainClaimIds, chainClaims, hproposal, genesisCheckpoint]
  · simp [chainNodeSeqs, chainClaims, hproposal, genesisCheckpoint]
  · simp [hproposal, genesisCheckpoint]

omit [SerdeReadsBack] in
/-- `commit_local` leaves the settings. -/
theorem commitLocal_config {q : ℕ} {seen : Option (Finset String)} {seen' : Finset String}
    (hval : validateCheckpoint c n.store n.config.flopsTolerance q false seen = .ok seen') :
    (n.commitLocal c).config = n.config := by
  have heff : Effects Inputs.any n (n.commitLocal c) :=
    commitLocal_effects c (.inl trivial) ⟨q, seen, seen', hval⟩
  exact congrArg (fun i => i.2.2.2) heff.identity_eq

/-- `maybe_commit` with enough shares for a block that follows: it is committed. -/
theorem maybeCommit_of_follows {p : CheckpointProposal} (h : Refines n.store chain)
    (hc : n.assembleCheckpoint p = c)
    (hsize : n.quorumSize ≤ (n.signatures.getD p.proposalHash ∅).size)
    (hf : Follows n.config.flopsTolerance chain c)
    (hfresh : ∀ id ∈ c.proposal.claimIds, id ∉ n.committedClaimIds) :
    ∃ st, Refines st (chain ++ [c]) ∧
      n.maybeCommit p = ({ n with store := st } : Node).announceCommit c := by
  have hval := hf.validateCheckpoint_ok h n.quorumSize (some n.committedClaimIds) hfresh
  obtain ⟨st, href, hlocal⟩ := commitLocal_of_extends h hf.can_append
  refine ⟨st, href, ?_⟩
  unfold Node.maybeCommit
  rw [if_neg (not_lt.mpr hsize)]
  dsimp only
  rw [hc, hval]
  exact hlocal

omit [SerdeReadsBack] in
/-- The sealer with eligible claims and no outstanding proposal takes its next proposal in,
if it is valid. -/
theorem proposeInternal_of_valid {head : Checkpoint} {seen : Finset String}
    (hsealer : n.sealerForView n.view = n.nodeId) (hhead : n.store.head = some head)
    (hfree : n.outstandingAt (head.height + 1) = false) (hclaims : n.eligibleClaims ≠ [])
    (hval : validateProposal (n.nextProposal head) n.store ∅ n.config.flopsTolerance false =
      .ok seen) :
    n.proposeInternal = (proposed n (n.nextProposal head)).maybeCommit (n.nextProposal head) := by
  have hempty : n.eligibleClaims.isEmpty = false := by simpa using hclaims
  have hval' : validateProposal (n.nextProposal head) n.tickClock.store ∅
      n.tickClock.config.flopsTolerance false = .ok seen := hval
  unfold Node.proposeInternal
  rw [if_neg (not_not.mpr hsealer), hhead]
  dsimp only
  rw [if_neg (by simp [hfree]), if_neg (by simp [hempty]), hval']
  rfl

end Exodus.Interface
