import Exodus.Model.Protocol
import Mathlib.Logic.Relation

/-!
# What an operation of a node can do

`Effect I n n'` lists the changes that the handlers of `protocol.rs` make to the part of a
node's state that the ledger, the claims and the certificates live in, each with the checks
that come before it.  `I` is what the operation takes in, the blocks that were queued
included.  Every operation is a sequence of such effects, so an invariant is proved once
for each effect.
-/

set_option autoImplicit false

namespace Exodus.Interface

open Exodus.Library Exodus.Model

/-! ## Maps -/

/-- The values of a map are the second components of its entries. -/
theorem values_eq_map_snd {α β : Type} {cmp : α → α → Ordering} [Std.TransCmp cmp]
    (m : Std.ExtTreeMap α β cmp) : m.values = m.toList.map Prod.snd := by
  obtain ⟨⟨q⟩⟩ := m
  induction q using Quotient.inductionOn with
  | h t =>
    show t.inner.values = (Std.DTreeMap.Internal.Impl.Const.toList t.inner).map Prod.snd
    rw [Std.DTreeMap.Internal.Impl.values_eq_map_snd,
      Std.DTreeMap.Internal.Impl.Const.toList_eq_toListModel_map, List.map_map]
    rfl

/-- A value of a table is one that stands under some key. -/
theorem mem_values_iff {V : Type} {m : HashMap V} {v : V} :
    v ∈ m.values ↔ ∃ k : String, m[k]? = some v := by
  rw [values_eq_map_snd, List.mem_map]
  constructor
  · rintro ⟨e, he, rfl⟩
    exact ⟨e.1, Std.ExtTreeMap.mem_toList_iff_getElem?_eq_some.mp he⟩
  · rintro ⟨k, hk⟩
    exact ⟨(k, v), Std.ExtTreeMap.mem_toList_iff_getElem?_eq_some.mpr hk, rfl⟩

/-- The second of two values under one key is the one that stays. -/
theorem insert_insert {V : Type} (m : HashMap V) (k : String) (a b : V) :
    (m.insert k a).insert k b = m.insert k b := by
  ext key v
  simp only [Std.ExtTreeMap.getElem?_insert]
  split_ifs <;> rfl

/-- Remove the entries of the given ids. -/
def eraseIds {V : Type} (m : HashMap V) (ids : List String) : HashMap V :=
  ids.foldl (fun m id => m.erase id) m

/-- Exactly the given ids are gone. -/
@[simp] theorem getElem?_eraseIds {V : Type} (m : HashMap V) (ids : List String) (id : String) :
    (eraseIds m ids)[id]? = if id ∈ ids then none else m[id]? := by
  induction ids generalizing m with
  | nil => simp [eraseIds]
  | cons a rest ih =>
    show (eraseIds (m.erase a) rest)[id]? = _
    rw [ih, Std.ExtTreeMap.getElem?_erase]
    by_cases ha : a = id
    · simp [ha]
    · have ha' : id ≠ a := fun h => ha h.symm
      by_cases hr : id ∈ rest <;> simp [hr, ha, ha']

/-- `settle_claims` touches the three sets of claim ids and nothing else. -/
theorem settleClaims_eq (n : Node) (claims : List SignedContribution) :
    n.settleClaims claims =
      { n with
        pending := eraseIds n.pending (claims.map fun s => s.claim.claimId)
        proposedClaimIds := n.proposedClaimIds \ (claims.map fun s => s.claim.claimId).toFinset
        committedClaimIds :=
          n.committedClaimIds ∪ (claims.map fun s => s.claim.claimId).toFinset } := by
  induction claims generalizing n with
  | nil => simp [Node.settleClaims, eraseIds]
  | cons s rest ih =>
    show Node.settleClaims _ rest = _
    rw [ih]
    congr 1
    · ext x
      simp only [Finset.mem_union, Finset.mem_insert, List.mem_toFinset, List.map_cons,
        List.mem_cons]
      tauto
    · ext x
      simp only [Finset.mem_sdiff, Finset.mem_erase, List.mem_toFinset, List.map_cons,
        List.mem_cons]
      tauto

/-- A twin of a stored block takes its claims out of the pending ones and marks those that the
ledger has. -/
theorem settleTwin_eq (n : Node) (claims : List SignedContribution) :
    n.settleTwin claims =
      { n with
        pending := eraseIds n.pending (claims.map fun s => s.claim.claimId)
        proposedClaimIds := n.proposedClaimIds \ (claims.map fun s => s.claim.claimId).toFinset
        committedClaimIds := n.committedClaimIds ∪
          ((claims.map fun s => s.claim.claimId).filter n.store.claimExists).toFinset } := by
  induction claims generalizing n with
  | nil => simp [Node.settleTwin, eraseIds]
  | cons s rest ih =>
    show Node.settleTwin _ rest = _
    rw [ih]
    congr 1
    · ext x
      by_cases hs : n.store.claimExists s.claim.claimId = true <;>
        simp only [hs, Finset.mem_union, Finset.mem_insert, List.mem_toFinset, List.map_cons,
          List.mem_filter, List.mem_cons, if_true, if_false, Bool.false_eq_true] <;>
        grind
    · ext x
      simp only [Finset.mem_sdiff, Finset.mem_erase, List.mem_toFinset, List.map_cons,
        List.mem_cons]
      tauto

variable [Crates]

/-- `adopt_proposal` holds the proposal, marks it signed and moves its claims from the pending to
the proposed ones. -/
theorem adoptProposal_eq (n : Node) (p : CheckpointProposal) :
    n.adoptProposal p =
      { n with
        proposals := n.proposals.insert p.proposalHash p
        signatures := n.signatures.insert p.proposalHash (n.signatures.getD p.proposalHash ∅)
        pending := eraseIds n.pending p.claimIds
        proposedClaimIds := n.proposedClaimIds ∪ p.claimIds.toFinset } := by
  have hfold (claims : List SignedContribution) (n : Node) :
      claims.foldl (fun n s =>
        { n with
          proposedClaimIds := insert s.claim.claimId n.proposedClaimIds
          pending := n.pending.erase s.claim.claimId }) n =
      { n with
        pending := eraseIds n.pending (claims.map fun s => s.claim.claimId)
        proposedClaimIds :=
          n.proposedClaimIds ∪ (claims.map fun s => s.claim.claimId).toFinset } := by
    induction claims generalizing n with
    | nil => simp [eraseIds]
    | cons s rest ih =>
      rw [List.foldl_cons, ih]
      congr 1
      ext x
      simp only [Finset.mem_union, Finset.mem_insert, List.mem_toFinset, List.map_cons,
        List.mem_cons]
      tauto
  exact hfold p.claims _

/-! ## Effects -/

/-- The part of the state that the effects are about. -/
structure Core where
  nodeId : String
  privateKey : List UInt8
  publicKeyHex : String
  config : ExodusConfig
  store : ChainStore
  pending : HashMap SignedContribution
  committedClaimIds : Finset String
  proposedClaimIds : Finset String
  proposals : HashMap CheckpointProposal
  signatures : HashMap (HashMap SignatureShare)
  signed : Finset String
  pendingCommits : Std.ExtTreeMap ℤ Checkpoint compare
  recentCommitRejects : List String

def core (n : Node) : Core :=
  ⟨n.nodeId, n.privateKey, n.publicKeyHex, n.config, n.store, n.pending, n.committedClaimIds,
    n.proposedClaimIds, n.proposals, n.signatures, n.signed, n.pendingCommits,
    n.recentCommitRejects⟩

/-- Messages that carry neither a proposal or a signature of the node nor a block it
appended. -/
def Routine : Message → Prop
  | .proposalMessage _ => False
  | .signatureShare _ => False
  | .commitMessage _ => False
  | _ => True

/-- Nothing but clocks, peers, counters and routine messages changes. -/
structure Quiet (n n' : Node) : Prop where
  core_eq : core n' = core n
  view_eq : n'.view = n.view
  calls_eq : n'.listenerCalls = n.listenerCalls
  sends : ∃ msgs, n'.outgoing = n.outgoing ++ msgs ∧ ∀ e ∈ msgs, Routine e.2

/-- What an operation takes in. -/
structure Inputs where
  claims : SignedContribution → Prop
  proposals : CheckpointProposal → Prop
  shares : SignatureShare → Prop
  blocks : Checkpoint → Prop
  /-- the blocks handed to `on_commit` -/
  received : Checkpoint → Prop
  /-- a full-chain response -/
  reorg : Prop
  /-- a call to propose, or a tick that may lead to one -/
  proposes : Prop
  ticks : Prop
  /-- the proposals that the node may sign -/
  signs : CheckpointProposal → Prop
  /-- the shares that may be counted for a proposal: whose they are, and the quorum -/
  counts : CheckpointProposal → Finset String → ℕ → Prop

/-- Anything may come in. -/
def Inputs.any : Inputs where
  claims _ := True
  proposals _ := True
  shares _ := True
  blocks _ := True
  received _ := True
  reorg := True
  proposes := True
  ticks := True
  signs _ := True
  counts _ _ _ := True

/-- Nothing comes in. -/
def Inputs.none : Inputs where
  claims _ := False
  proposals _ := False
  shares _ := False
  blocks _ := False
  received _ := False
  reorg := False
  proposes := False
  ticks := False
  signs _ := False
  counts _ _ _ := True

/-- `validate_checkpoint` lets the block pass on the node's store. -/
def Validated (n : Node) (c : Checkpoint) : Prop :=
  ∃ q seen seen', validateCheckpoint c n.store n.config.flopsTolerance q false seen = .ok seen'

/-- The nodes whose shares for a proposal hash the node has. -/
def shareIds (n : Node) (hash : String) : Finset String :=
  (n.signatures.getD hash ∅).keys.toFinset

/-- The block that `maybe_commit` assembles for a proposal the node holds. -/
def Assembled (I : Inputs) (n : Node) (c : Checkpoint) : Prop :=
  ∃ p, n.proposals[p.proposalHash]? = some p ∧ c = n.assembleCheckpoint p ∧
    n.quorumSize ≤ (n.signatures.getD p.proposalHash ∅).size ∧
    I.counts p (shareIds n p.proposalHash) n.quorumSize

/-- The node has been without activity for longer than its election timeout. -/
def TimesOut (n : Node) : Prop := n.config.electionTimeoutSeconds < n.now - n.lastActivity

/-- A write of the ledger. -/
inductive LedgerWrite : ChainStore → ChainStore → Prop
  | append (st : ChainStore) (c : Checkpoint) : LedgerWrite st (st.appended c)
  | rollback (st : ChainStore) (k : ℤ) : LedgerWrite st (st.rolledBack k)

/-- A sequence of writes of the ledger. -/
abbrev Rewritten : ChainStore → ChainStore → Prop := Relation.ReflTransGen LedgerWrite

/-- One change of the state, with the checks that come before it. -/
inductive Effect (I : Inputs) : Node → Node → Prop
  | quiet {n n' : Node} (h : Quiet n n') : Effect I n n'
  | timeout {n n' : Node} (hI : I.ticks) (htime : TimesOut n) (hcore : core n' = core n)
      (hview : n'.view = n.view + 1) (hcalls : n'.listenerCalls = n.listenerCalls)
      (hout : n'.outgoing = n.outgoing) : Effect I n n'
  | pend {n : Node} (s : SignedContribution) (hs : I.claims s) (hv : s.verify = true)
      (hnew : n.pending.contains s.claim.claimId = false) :
      Effect I n { n with pending := n.pending.insert s.claim.claimId s }
  | evict {n : Node} (s : SignedContribution) (hs : I.claims s) (id : String)
      (hfull : maxPendingClaims < n.pending.size) :
      Effect I n { n with pending := n.pending.erase id }
  | adopt {n : Node} (p : CheckpointProposal)
      (hp : I.proposals p ∧ n.proposals.contains p.proposalHash = false ∧
          p.proposalHash ∉ n.signed ∨
        I.proposes ∧ ∃ head time, n.store.head = some head ∧
          n.outstandingAt (head.height + 1) = false ∧
          p = { n.nextProposal head with createdAt := time })
      (hval : ∃ seen seen',
        validateProposal p n.store seen n.config.flopsTolerance false = .ok seen')
      (hsigns : I.signs p) :
      Effect I n ((n.adoptProposal p).addOwnSignature p)
  | emit {n : Node} (p : CheckpointProposal) (hI : I.proposes)
      (hp : n.proposals[p.proposalHash]? = some p) :
      Effect I n (n.send Topics.proposals (.proposalMessage p))
  | file {n : Node} (share : SignatureShare) (hs : I.shares share) (hv : share.verify = true)
      (p : CheckpointProposal) (hp : n.proposals[share.proposalHash]? = some p) :
      Effect I n (n.fileShare share.proposalHash share)
  | commit {n : Node} (c : Checkpoint) (hsrc : I.blocks c ∨ Assembled I n c) (hval : Validated n c)
      (st : ChainStore) (happ : n.store.append c = .ok st) :
      Effect I n ({ n with store := st }.announceCommit c)
  | twin {n : Node} (c : Checkpoint) (hsrc : I.blocks c ∨ Assembled I n c) (hval : Validated n c)
      (e : LedgerError) (happ : n.store.append c = .error e)
      (hcom : n.store.isAlreadyCommitted c = true) :
      Effect I n (n.settleTwin c.proposal.claims)
  | learn {n : Node} (c : Checkpoint) (hsrc : I.received c) (q : ℕ) (seen : Finset String)
      (hval : validateCheckpoint c n.store n.config.flopsTolerance q false
        (some n.committedClaimIds) = .ok seen) :
      Effect I n { n with committedClaimIds := seen }
  | queue {n : Node} (c : Checkpoint) (hsrc : I.blocks c) : Effect I n (n.insertPendingCommit c)
  | unqueue {n : Node} (height : ℤ) :
      Effect I n { n with pendingCommits := n.pendingCommits.erase height }
  | requeue {n : Node} (keep : ℤ → Checkpoint → Bool) :
      Effect I n { n with pendingCommits := n.pendingCommits.filter keep }
  | reject {n : Node} (hash : String) :
      Effect I n { n with recentCommitRejects := (n.noteCommitReject hash).recentCommitRejects }
  | cut {n : Node} (hr : I.reorg) (k : ℤ) : Effect I n { n with store := n.store.rolledBack k }
  | resettle {n : Node} (hr : I.reorg) (st : ChainStore) (hst : Rewritten n.store st) :
      Effect I n { n with store := st, committedClaimIds := st.allCommittedClaimIds }

/-- A sequence of effects. -/
abbrev Effects (I : Inputs) : Node → Node → Prop := Relation.ReflTransGen (Effect I)

/-! ## The state after an effect -/

/-- What the announcement of a block changes of the core: its claims are settled, and its proposal
and the shares for it are dropped. -/
theorem core_announceCommit (n : Node) (c : Checkpoint) :
    core (n.announceCommit c) = { core n with
      pending := eraseIds n.pending c.proposal.claimIds
      proposedClaimIds := n.proposedClaimIds \ c.proposal.claimIds.toFinset
      committedClaimIds := n.committedClaimIds ∪ c.proposal.claimIds.toFinset
      proposals := n.proposals.erase c.proposal.proposalHash
      signatures := n.signatures.erase c.proposal.proposalHash } := by
  unfold Node.announceCommit
  rw [settleClaims_eq]
  rfl

/-- The announcement leaves the ledger. -/
theorem store_announceCommit (n : Node) (c : Checkpoint) : (n.announceCommit c).store = n.store :=
  congrArg Core.store (core_announceCommit n c)

/-- The announcement leaves the queue. -/
theorem queue_announceCommit (n : Node) (c : Checkpoint) :
    (n.announceCommit c).pendingCommits = n.pendingCommits :=
  congrArg Core.pendingCommits (core_announceCommit n c)

/-- The proposal of an announced block is no longer held. -/
theorem proposals_announceCommit (n : Node) (c : Checkpoint) :
    (n.announceCommit c).proposals = n.proposals.erase c.proposal.proposalHash :=
  congrArg Core.proposals (core_announceCommit n c)

/-- Nor are the shares for it. -/
theorem signatures_announceCommit (n : Node) (c : Checkpoint) :
    (n.announceCommit c).signatures = n.signatures.erase c.proposal.proposalHash :=
  congrArg Core.signatures (core_announceCommit n c)

/-- The claims of an announced block count as committed. -/
theorem committedClaimIds_announceCommit (n : Node) (c : Checkpoint) :
    (n.announceCommit c).committedClaimIds =
      n.committedClaimIds ∪ c.proposal.claimIds.toFinset :=
  congrArg Core.committedClaimIds (core_announceCommit n c)

/-- The announcement leaves what the node has signed. -/
theorem signed_announceCommit (n : Node) (c : Checkpoint) :
    (n.announceCommit c).signed = n.signed := congrArg Core.signed (core_announceCommit n c)

/-- The one message of the announcement is the block. -/
theorem outgoing_announceCommit (n : Node) (c : Checkpoint) :
    (n.announceCommit c).outgoing = n.outgoing ++ [(Topics.commits, .commitMessage c)] := by
  unfold Node.announceCommit
  rw [settleClaims_eq]
  rfl

/-- The view is at least one above the epoch of an announced block. -/
theorem view_announceCommit (n : Node) (c : Checkpoint) :
    (n.announceCommit c).view = max n.view (c.proposal.epoch + 1) := by
  unfold Node.announceCommit
  rw [settleClaims_eq]
  rfl

/-- The listener is called once, with the height and the hash of the block. -/
theorem listenerCalls_announceCommit (n : Node) (c : Checkpoint) :
    (n.announceCommit c).listenerCalls = n.listenerCalls ++ [(c.height, c.blockHash)] := by
  unfold Node.announceCommit
  rw [settleClaims_eq]
  rfl

omit [Crates] in
/-- What a twin of a stored block changes of the core. -/
theorem core_settleTwin (n : Node) (claims : List SignedContribution) :
    core (n.settleTwin claims) = { core n with
      pending := eraseIds n.pending (claims.map fun s => s.claim.claimId)
      proposedClaimIds := n.proposedClaimIds \ (claims.map fun s => s.claim.claimId).toFinset
      committedClaimIds := n.committedClaimIds ∪
        ((claims.map fun s => s.claim.claimId).filter n.store.claimExists).toFinset } := by
  rw [settleTwin_eq]
  rfl

section SettleTwin

omit [Crates]

variable (n : Node) (claims : List SignedContribution)

/-- A twin leaves the ledger. -/
theorem store_settleTwin : (n.settleTwin claims).store = n.store :=
  congrArg Core.store (core_settleTwin n claims)

/-- A twin leaves the queue. -/
theorem queue_settleTwin : (n.settleTwin claims).pendingCommits = n.pendingCommits :=
  congrArg Core.pendingCommits (core_settleTwin n claims)

/-- A twin leaves the held proposals. -/
theorem proposals_settleTwin : (n.settleTwin claims).proposals = n.proposals :=
  congrArg Core.proposals (core_settleTwin n claims)

/-- A twin leaves the shares. -/
theorem signatures_settleTwin : (n.settleTwin claims).signatures = n.signatures :=
  congrArg Core.signatures (core_settleTwin n claims)

/-- A twin leaves what the node has signed. -/
theorem signed_settleTwin : (n.settleTwin claims).signed = n.signed :=
  congrArg Core.signed (core_settleTwin n claims)

/-- Of the claims of a twin those that the ledger has count as committed. -/
theorem committedClaimIds_settleTwin :
    (n.settleTwin claims).committedClaimIds = n.committedClaimIds ∪
      ((claims.map fun s => s.claim.claimId).filter n.store.claimExists).toFinset :=
  congrArg Core.committedClaimIds (core_settleTwin n claims)

end SettleTwin

/-- The shares the node holds for a proposal it takes in and signs. -/
def sharesWithOwn (n : Node) (p : CheckpointProposal) : HashMap SignatureShare :=
  (n.signatures.getD p.proposalHash ∅).insert n.nodeId (n.signatureShare p)

/-- What signing a proposal changes of the core. -/
theorem core_adopt (n : Node) (p : CheckpointProposal) :
    core ((n.adoptProposal p).addOwnSignature p) = { core n with
      proposals := n.proposals.insert p.proposalHash p
      signatures := n.signatures.insert p.proposalHash (sharesWithOwn n p)
      pending := eraseIds n.pending p.claimIds
      proposedClaimIds := n.proposedClaimIds ∪ p.claimIds.toFinset
      signed := insert p.proposalHash n.signed } := by
  have hgetD : (n.signatures.insert p.proposalHash (n.signatures.getD p.proposalHash ∅)).getD
      p.proposalHash ∅ = n.signatures.getD p.proposalHash ∅ := by
    simp [Std.ExtTreeMap.getD_insert_self]
  rw [adoptProposal_eq]
  simp only [Node.addOwnSignature, Node.fileShare, Node.send, core, hgetD, insert_insert]
  rfl

section Adopt

variable (n : Node) (p : CheckpointProposal)

/-- Signing leaves the ledger. -/
theorem store_adopt : ((n.adoptProposal p).addOwnSignature p).store = n.store :=
  congrArg Core.store (core_adopt n p)

/-- Signing leaves the settings. -/
theorem config_adopt : ((n.adoptProposal p).addOwnSignature p).config = n.config :=
  congrArg Core.config (core_adopt n p)

/-- Signing leaves the queue. -/
theorem queue_adopt :
    ((n.adoptProposal p).addOwnSignature p).pendingCommits = n.pendingCommits :=
  congrArg Core.pendingCommits (core_adopt n p)

/-- A signed proposal is held. -/
theorem proposals_adopt : ((n.adoptProposal p).addOwnSignature p).proposals =
    n.proposals.insert p.proposalHash p := congrArg Core.proposals (core_adopt n p)

/-- The node's own share joins those for the proposal. -/
theorem signatures_adopt : ((n.adoptProposal p).addOwnSignature p).signatures =
    n.signatures.insert p.proposalHash (sharesWithOwn n p) :=
  congrArg Core.signatures (core_adopt n p)

/-- A signed proposal is marked. -/
theorem signed_adopt :
    ((n.adoptProposal p).addOwnSignature p).signed = insert p.proposalHash n.signed :=
  congrArg Core.signed (core_adopt n p)

/-- Signing commits no claim. -/
theorem committedClaimIds_adopt :
    ((n.adoptProposal p).addOwnSignature p).committedClaimIds = n.committedClaimIds :=
  congrArg Core.committedClaimIds (core_adopt n p)

/-- A proposal that was taken in is held. -/
theorem proposals_adopt_self :
    ((n.adoptProposal p).addOwnSignature p).proposals[p.proposalHash]? = some p := by
  rw [proposals_adopt]
  exact Std.ExtTreeMap.getElem?_insert_self

end Adopt

/-- The one message of signing is the share. -/
theorem outgoing_adopt (n : Node) (p : CheckpointProposal) :
    ((n.adoptProposal p).addOwnSignature p).outgoing =
      n.outgoing ++ [(Topics.signatures, .signatureShare (n.signatureShare p))] := by
  rw [adoptProposal_eq]
  rfl

/-- No member stands twice in the committee. -/
theorem committeeMembers_nodup (n : Node) : n.committeeMembers.Nodup :=
  (List.perm_insertionSort _ _).nodup_iff.mpr (List.nodup_dedup _)

/-- Signing leaves the committee. -/
theorem committeeMembers_adopt (n : Node) (p : CheckpointProposal) :
    ((n.adoptProposal p).addOwnSignature p).committeeMembers = n.committeeMembers := by
  rw [adoptProposal_eq]
  rfl

/-- Signing leaves the view. -/
theorem view_adopt (n : Node) (p : CheckpointProposal) :
    ((n.adoptProposal p).addOwnSignature p).view = n.view := by
  rw [adoptProposal_eq]
  rfl

/-- Signing calls no listener. -/
theorem listenerCalls_adopt (n : Node) (p : CheckpointProposal) :
    ((n.adoptProposal p).addOwnSignature p).listenerCalls = n.listenerCalls := by
  rw [adoptProposal_eq]
  rfl

omit [Crates] in
/-- Who has signed is read from the shares. -/
theorem shareIds_congr {n n' : Node} (h : n'.signatures = n.signatures) (hash : String) :
    shareIds n' hash = shareIds n hash := by
  unfold shareIds
  rw [h]

omit [Crates] in
/-- There are as many shares as nodes that they are of. -/
theorem card_shareIds (n : Node) (hash : String) :
    (shareIds n hash).card = (n.signatures.getD hash ∅).size := by
  rw [shareIds, List.toFinset_card_of_nodup Std.ExtTreeMap.nodup_keys, Std.ExtTreeMap.length_keys]

omit [Crates] in
/-- An insertion adds its key to the keys of a table. -/
theorem toFinset_keys_insert {V : Type} (m : HashMap V) (k : String) (v : V) :
    (m.insert k v).keys.toFinset = insert k m.keys.toFinset := by
  ext x
  rw [List.mem_toFinset, Std.ExtTreeMap.mem_keys, Std.ExtTreeMap.mem_insert,
    Std.LawfulEqCmp.compare_eq_iff_eq, Finset.mem_insert, List.mem_toFinset,
    Std.ExtTreeMap.mem_keys, eq_comm]

omit [Crates] in
/-- A share that is filed adds the node it is of. -/
theorem shareIds_fileShare (n : Node) (hash : String) (share : SignatureShare) :
    shareIds (n.fileShare hash share) hash = insert share.nodeId (shareIds n hash) := by
  unfold shareIds Node.fileShare
  rw [Std.ExtTreeMap.getD_insert_self, toFinset_keys_insert]

/-- A proposal that is taken in has the node's own share. -/
theorem shareIds_adopt (n : Node) (p : CheckpointProposal) :
    shareIds ((n.adoptProposal p).addOwnSignature p) p.proposalHash =
      insert n.nodeId (shareIds n p.proposalHash) := by
  unfold shareIds
  rw [signatures_adopt, Std.ExtTreeMap.getD_insert_self, sharesWithOwn, toFinset_keys_insert]

/-- Signing leaves the quorum. -/
theorem quorumSize_adopt (n : Node) (p : CheckpointProposal) :
    ((n.adoptProposal p).addOwnSignature p).quorumSize = n.quorumSize := by
  rw [Node.quorumSize, Node.quorumSize, committeeMembers_adopt, config_adopt]

omit [Crates] in
/-- The queue within its cap has no entries that it did not have. -/
theorem getElem?_trimPendingCommits {queue : Std.ExtTreeMap ℤ Checkpoint compare} {h : ℤ}
    {c : Checkpoint} (fuel : ℕ) (hc : (Node.trimPendingCommits fuel queue)[h]? = some c) :
    queue[h]? = some c := by
  induction fuel generalizing queue with
  | zero => exact hc
  | succ fuel ih =>
    unfold Node.trimPendingCommits at hc
    split_ifs at hc
    · split at hc
      · have := ih hc
        rw [Std.ExtTreeMap.getElem?_erase] at this
        split_ifs at this
        exact this
      · exact hc
    · exact hc

/-! ## Quiet steps -/

omit [Crates] in
/-- A step that changes neither the core, the view, the calls nor the messages is quiet. -/
theorem Quiet.of_core_eq {n n' : Node} (hcore : core n' = core n)
    (hview : n'.view = n.view) (hcalls : n'.listenerCalls = n.listenerCalls)
    (hout : n'.outgoing = n.outgoing) : Quiet n n' :=
  ⟨hcore, hview, hcalls, [], by simp [hout], by simp⟩

omit [Crates] in
/-- Two quiet steps are one. -/
theorem Quiet.trans {n n' n'' : Node} (h : Quiet n n') (h' : Quiet n' n'') : Quiet n n'' := by
  obtain ⟨hcore, hview, hcalls, msgs, hout, hmsgs⟩ := h
  obtain ⟨hcore', hview', hcalls', msgs', hout', hmsgs'⟩ := h'
  refine ⟨hcore'.trans hcore, hview'.trans hview, hcalls'.trans hcalls, msgs ++ msgs',
    by rw [hout', hout, List.append_assoc], ?_⟩
  intro e he
  rcases List.mem_append.mp he with he | he
  · exact hmsgs e he
  · exact hmsgs' e he

omit [Crates] in
/-- A routine message is quiet. -/
theorem quiet_send (n : Node) (topic : String) (m : Message) (hm : Routine m) :
    Quiet n (n.send topic m) := ⟨rfl, rfl, rfl, [(topic, m)], rfl, by simpa using hm⟩

omit [Crates] in
/-- A sync request is quiet. -/
theorem quiet_requestSync (n : Node) (fromHeight : ℤ) : Quiet n (n.requestSync fromHeight) := by
  unfold Node.requestSync
  dsimp only
  split_ifs
  · exact .of_core_eq rfl rfl rfl rfl
  · exact ⟨rfl, rfl, rfl, [_], rfl, by simp [Routine]⟩

omit [Crates] in
/-- To note a rejected block changes nothing but the list of them. -/
theorem noteCommitReject_eq (n : Node) (hash : String) : n.noteCommitReject hash =
    { n with recentCommitRejects := (n.noteCommitReject hash).recentCommitRejects } := by
  unfold Node.noteCommitReject
  generalize maxRecentCommitRejects = cap
  split_ifs <;> rfl

/-- A heartbeat is quiet. -/
theorem quiet_onHeartbeat (n : Node) (hb : Heartbeat) : Quiet n (n.onHeartbeat hb) := by
  unfold Node.onHeartbeat
  split_ifs
  · exact .of_core_eq rfl rfl rfl rfl
  · have hseen : Quiet n ({ n with
        peers := n.peers.insert hb.nodeId hb
        peerSeen := n.peerSeen.insert hb.nodeId n.now } : Node).tickClock :=
      .of_core_eq rfl rfl rfl rfl
    refine hseen.trans ?_
    dsimp only
    split
    · exact quiet_requestSync _ _
    · split_ifs
      · exact quiet_requestSync _ _
      · exact quiet_send _ _ _ trivial
      · exact .of_core_eq rfl rfl rfl rfl

/-- So is the answer to a sync request. -/
theorem quiet_onSyncRequest (n : Node) (req : SyncRequest) : Quiet n (n.onSyncRequest req) := by
  unfold Node.onSyncRequest
  dsimp only
  split_ifs
  · exact .of_core_eq rfl rfl rfl rfl
  · exact .of_core_eq rfl rfl rfl rfl
  · exact quiet_send _ _ _ trivial

/-- The clock part of a tick moves the view on when the node times out. -/
theorem advanceView_cases (n : Node) :
    core n.advanceView.1 = core n ∧ n.advanceView.1.outgoing = n.outgoing ∧
      n.advanceView.1.listenerCalls = n.listenerCalls ∧
      (n.advanceView.1.view = n.view ∨ TimesOut n ∧ n.advanceView.1.view = n.view + 1) := by
  have hpruned : ∃ peers, n.tickClock.pruneStalePeers n.now n.config.peerStaleAfter =
      { n.tickClock with peers := peers } := by
    unfold Node.pruneStalePeers
    split_ifs
    · exact ⟨_, rfl⟩
    · exact ⟨_, rfl⟩
  obtain ⟨peers, hpruned⟩ := hpruned
  unfold Node.advanceView
  dsimp only
  rw [hpruned]
  split_ifs with htime
  · exact ⟨rfl, rfl, rfl, .inr ⟨htime, rfl⟩⟩
  · exact ⟨rfl, rfl, rfl, .inl rfl⟩

variable {I : Inputs} {n : Node}

/-- Who the node is and how it is configured. -/
def identity (k : Core) : String × List UInt8 × String × ExodusConfig :=
  (k.nodeId, k.privateKey, k.publicKeyHex, k.config)

/-- No effect changes who the node is or its settings. -/
theorem Effect.identity_eq {n' : Node} (he : Effect I n n') : identity (core n') = identity (core n) := by
  cases he with
  | quiet h => rw [h.core_eq]
  | timeout hI htime hcore => rw [hcore]
  | adopt p hp hval =>
    rw [core_adopt]
    rfl
  | commit c hsrc hval st happ =>
    rw [core_announceCommit]
    rfl
  | twin c hsrc hval e happ hcom =>
    rw [core_settleTwin]
    rfl
  | pend | evict | emit | file | learn | queue | unqueue | requeue | reject | cut | resettle => rfl

/-- Nor do effects in a row. -/
theorem Effects.identity_eq {n' : Node} (he : Effects I n n') :
    identity (core n') = identity (core n) := by
  induction he with
  | refl => rfl
  | tail _ he ih => exact he.identity_eq.trans ih

/-- An operation only adds messages. -/
theorem Effect.outgoing_grows {n' : Node} (he : Effect I n n') :
    n.outgoing <+: n'.outgoing := by
  cases he with
  | quiet h =>
    obtain ⟨msgs, hmsgs, -⟩ := h.sends
    exact ⟨msgs, hmsgs.symm⟩
  | timeout hI htime hcore hview hcalls hout => rw [hout]
  | emit p => exact ⟨_, rfl⟩
  | adopt p hp hval => exact ⟨_, (outgoing_adopt n p).symm⟩
  | commit c hsrc hval st happ => exact ⟨_, (outgoing_announceCommit { n with store := st } c).symm⟩
  | twin c hsrc hval e happ hcom =>
    rw [settleTwin_eq]
  | pend | evict | file | learn | queue | unqueue | requeue | reject | cut | resettle =>
    exact List.prefix_refl _

/-- Messages are only added. -/
theorem Effects.outgoing_grows {n' : Node} (he : Effects I n n') :
    n.outgoing <+: n'.outgoing := by
  induction he with
  | refl => exact List.prefix_refl _
  | tail _ he ih => exact ih.trans (Effect.outgoing_grows he)

/-! ## Commits -/

/-- A quiet step is an effect. -/
theorem Effects.quiet {n' : Node} (h : Quiet n n') : Effects I n n' := .single (.quiet h)

/-- What `commit_local` does above the head is made of effects. -/
theorem appendLocal_effects (c : Checkpoint) (hsrc : I.blocks c ∨ Assembled I n c)
    (hval : Validated n c) : Effects I n (n.appendLocal c) := by
  unfold Node.appendLocal
  cases happ : n.store.append c with
  | error e =>
    by_cases hcom : n.store.isAlreadyCommitted c = true
    · simp only [hcom, if_true]
      exact .single (.twin c hsrc hval e happ hcom)
    · simp only [hcom]
      exact .quiet (quiet_requestSync _ _)
  | ok st => exact .single (.commit c hsrc hval st happ)

/-- `commit_local` is made of effects. -/
theorem commitLocal_effects (c : Checkpoint) (hsrc : I.blocks c ∨ Assembled I n c)
    (hval : Validated n c) : Effects I n (n.commitLocal c) := by
  unfold Node.commitLocal
  split
  · split_ifs
    · exact .refl
    · exact appendLocal_effects c hsrc hval
  · exact appendLocal_effects c hsrc hval

/-- So is `maybe_commit`, which appends only with a quorum of the shares that the node counts. -/
theorem maybeCommit_effects (p : CheckpointProposal)
    (hp : n.proposals[p.proposalHash]? = some p)
    (hcounts : I.counts p (shareIds n p.proposalHash) n.quorumSize) :
    Effects I n (n.maybeCommit p) := by
  unfold Node.maybeCommit
  split_ifs with hsize
  · exact .refl
  · dsimp only
    split
    · exact .refl
    · rename_i seen hval
      exact commitLocal_effects _ (.inr ⟨p, hp, rfl, not_lt.mp hsize, hcounts⟩) ⟨_, _, _, hval⟩

/-! ## The queue -/

/-- The queued blocks are among those the operation may use. -/
def QueuedIn (I : Inputs) (n : Node) : Prop :=
  ∀ (h : ℤ) (c : Checkpoint), n.pendingCommits[h]? = some c → I.blocks c

omit [Crates] in
/-- Where the queued blocks come from is read from the queue. -/
theorem QueuedIn.of_queue_eq {n' : Node} (h : QueuedIn I n)
    (heq : n'.pendingCommits = n.pendingCommits) : QueuedIn I n' := by
  unfold QueuedIn
  rw [heq]
  exact h

/-- No effect queues a block from elsewhere. -/
theorem Effect.queuedIn {n' : Node} (he : Effect I n n') (h : QueuedIn I n) : QueuedIn I n' := by
  cases he with
  | quiet hq => exact h.of_queue_eq (congrArg Core.pendingCommits hq.core_eq)
  | timeout hI htime hcore => exact h.of_queue_eq (congrArg Core.pendingCommits hcore)
  | adopt p hp hval => exact h.of_queue_eq (queue_adopt n p)
  | commit c hsrc hval st happ =>
    exact h.of_queue_eq (queue_announceCommit _ c)
  | twin c hsrc hval e happ hcom =>
    exact h.of_queue_eq (queue_settleTwin n _)
  | queue c hsrc =>
    intro k b hb
    have hb' := getElem?_trimPendingCommits _ hb
    rw [Std.ExtTreeMap.getElem?_insert] at hb'
    split_ifs at hb' with hk
    · cases hb'
      exact hsrc
    · exact h k b hb'
  | unqueue height =>
    intro k b hb
    rw [Std.ExtTreeMap.getElem?_erase] at hb
    split_ifs at hb
    exact h k b hb
  | requeue keep =>
    intro k b hb
    rw [Std.ExtTreeMap.getElem?_filter] at hb
    exact h k b (by cases hk : n.pendingCommits[k]? <;> simp_all)
  | pend | evict | emit | file | learn | reject | cut | resettle => exact h.of_queue_eq rfl

/-- Nor do effects in a row. -/
theorem Effects.queuedIn {n' : Node} (he : Effects I n n') (h : QueuedIn I n) : QueuedIn I n' := by
  induction he with
  | refl => exact h
  | tail _ he ih => exact he.queuedIn ih

/-- Proposals are filed under their own hashes. -/
def Keyed (n : Node) : Prop :=
  ∀ (k : String) (p : CheckpointProposal), n.proposals[k]? = some p → p.proposalHash = k

/-- Whether proposals stand under their hashes is read from the held ones. -/
theorem Keyed.of_proposals_eq {n' : Node} (h : Keyed n) (heq : n'.proposals = n.proposals) :
    Keyed n' := by
  unfold Keyed
  rw [heq]
  exact h

/-- An effect keeps the held proposals under their hashes. -/
theorem Effect.keyed {n' : Node} (he : Effect I n n') (h : Keyed n) : Keyed n' := by
  cases he with
  | quiet hq => exact h.of_proposals_eq (congrArg Core.proposals hq.core_eq)
  | timeout hI htime hcore => exact h.of_proposals_eq (congrArg Core.proposals hcore)
  | adopt p hp hval =>
    intro k b hb
    rw [proposals_adopt, Std.ExtTreeMap.getElem?_insert] at hb
    split_ifs at hb with hk
    · cases hb
      exact Std.LawfulEqCmp.eq_of_compare hk
    · exact h k b hb
  | commit c hsrc hval st happ =>
    intro k b hb
    rw [proposals_announceCommit, Std.ExtTreeMap.getElem?_erase] at hb
    split_ifs at hb
    exact h k b hb
  | twin c hsrc hval e happ hcom =>
    exact h.of_proposals_eq (proposals_settleTwin n _)
  | pend | evict | emit | file | learn | queue | unqueue | requeue | reject | cut | resettle =>
    exact h.of_proposals_eq rfl

/-- So do effects in a row. -/
theorem Effects.keyed {n' : Node} (he : Effects I n n') (h : Keyed n) : Keyed n' := by
  induction he with
  | refl => exact h
  | tail _ he ih => exact he.keyed ih

/-- Taking a block from the queue is made of effects. -/
theorem flushHeight_effects (h : QueuedIn I n) (height : ℤ) : Effects I n (n.flushHeight height) := by
  unfold Node.flushHeight
  split_ifs
  · exact .refl
  · split
    · exact .refl
    · rename_i c hc
      refine .head (.unqueue height) ?_
      dsimp only
      split
      · rename_i seen hval
        exact commitLocal_effects c (.inl (h _ _ hc)) ⟨_, _, _, hval⟩
      · exact .refl

/-- So is emptying the queue. -/
theorem flushPendingCommits_effects (h : QueuedIn I n) : Effects I n n.flushPendingCommits := by
  have hfold (heights : List ℤ) : ∀ n : Node, QueuedIn I n →
      Effects I n (heights.foldl Node.flushHeight n) := by
    induction heights with
    | nil => exact fun n _ => .refl
    | cons k rest ih =>
      intro n hn
      have he := flushHeight_effects hn k
      exact he.trans (ih _ (he.queuedIn hn))
  unfold Node.flushPendingCommits
  split
  · exact .refl
  · exact hfold _ n h

end Exodus.Interface
