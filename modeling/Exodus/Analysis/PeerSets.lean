import Exodus.Interface.Reorg

/-!
# Accepting blocks does not depend on the local peer set

Every path on which a committed block is accepted, directly, from the queue or in a
reorganisation, hands the quorum of the current committee to `validate_checkpoint`, and that
committee contains the local peers.  The number only reaches the text of an error.  So
`on_commit` and `on_sync_response` do the same in two states that differ in the peers, and
leave states that still differ in nothing else.
-/

set_option autoImplicit false

namespace Exodus.Analysis

open Exodus.Library Exodus.Model Exodus.Interface

/-- The state with another set of peers. -/
def withPeers (peers : HashMap Heartbeat) (peerSeen : HashMap Float) (n : Node) : Node :=
  { n with peers, peerSeen }

variable [Crates] (peers : HashMap Heartbeat) (peerSeen : HashMap Float)

/-- The local quorum does not decide a validation. -/
theorem validateCheckpoint_quorum (c : Checkpoint) (st : ChainStore) (tol : Float)
    (allowEmpty : Bool) (seen : Option (Finset String)) (q q' : ℕ) :
    (validateCheckpoint c st tol q allowEmpty seen).toOption =
      (validateCheckpoint c st tol q' allowEmpty seen).toOption := by
  unfold validateCheckpoint
  by_cases hgenesis : isCanonicalGenesis c.proposal = true
  · rw [if_pos hgenesis, if_pos hgenesis]
  rw [if_neg hgenesis, if_neg hgenesis]
  cases validateProposal c.proposal st (seen.getD ∅) tol allowEmpty with
  | error e => rfl
  | ok seen' =>
    dsimp only
    by_cases hfew : c.signatures.length < c.required
    · rw [if_pos hfew, if_pos hfew]
      rfl
    · rw [if_neg hfew, if_neg hfew]

section Validation

variable {c : Checkpoint} {st : ChainStore} {tol : Float} {allowEmpty : Bool}
  {seen : Option (Finset String)} {q q' : ℕ} {seen₁ seen₂ : Finset String} {e : ValidationError}

/-- The committee does not matter for what the validation returns. -/
theorem validateCheckpoint_ok_unique
    (h : validateCheckpoint c st tol q allowEmpty seen = .ok seen₁)
    (h' : validateCheckpoint c st tol q' allowEmpty seen = .ok seen₂) : seen₁ = seen₂ := by
  have hquorum := validateCheckpoint_quorum c st tol allowEmpty seen q q'
  rw [h, h'] at hquorum
  exact Option.some.inj hquorum

/-- Nor for whether it fails. -/
theorem validateCheckpoint_not_error
    (h : validateCheckpoint c st tol q allowEmpty seen = .ok seen₁) :
    validateCheckpoint c st tol q' allowEmpty seen ≠ .error e := by
  intro h'
  have hquorum := validateCheckpoint_quorum c st tol allowEmpty seen q q'
  rw [h, h'] at hquorum
  cases hquorum

end Validation

/-! ## Commits -/

omit [Crates] in
/-- Other peers do not change a sync request. -/
theorem requestSync_withPeers (n : Node) (fromHeight : ℤ) :
    (withPeers peers peerSeen n).requestSync fromHeight =
      withPeers peers peerSeen (n.requestSync fromHeight) := by
  unfold Node.requestSync
  dsimp only
  rw [apply_ite (withPeers peers peerSeen)]
  rfl

omit [Crates] in
/-- They do not change how claims are settled. -/
theorem settleClaims_withPeers (n : Node) (claims : List SignedContribution) :
    (withPeers peers peerSeen n).settleClaims claims =
      withPeers peers peerSeen (n.settleClaims claims) := by
  rw [settleClaims_eq, settleClaims_eq]
  rfl

omit [Crates] in
/-- They do not change how the claims of a twin are settled. -/
theorem settleTwin_withPeers (n : Node) (claims : List SignedContribution) :
    (withPeers peers peerSeen n).settleTwin claims =
      withPeers peers peerSeen (n.settleTwin claims) := by
  rw [settleTwin_eq, settleTwin_eq]
  rfl

/-- They do not change how a block is announced. -/
theorem announceCommit_withPeers (n : Node) (c : Checkpoint) :
    (withPeers peers peerSeen n).announceCommit c =
      withPeers peers peerSeen (n.announceCommit c) := by
  unfold Node.announceCommit
  rw [settleClaims_withPeers]
  rfl

/-- They do not change what is done with a block above the head. -/
theorem appendLocal_withPeers (n : Node) (c : Checkpoint) :
    (withPeers peers peerSeen n).appendLocal c = withPeers peers peerSeen (n.appendLocal c) := by
  have hstore : (withPeers peers peerSeen n).store = n.store := rfl
  unfold Node.appendLocal
  rw [hstore]
  cases n.store.append c with
  | error e =>
    dsimp only
    split_ifs
    · exact settleTwin_withPeers peers peerSeen n _
    · exact requestSync_withPeers peers peerSeen n _
  | ok st => exact announceCommit_withPeers peers peerSeen { n with store := st } c

/-- They do not change `commit_local`. -/
theorem commitLocal_withPeers (n : Node) (c : Checkpoint) :
    (withPeers peers peerSeen n).commitLocal c = withPeers peers peerSeen (n.commitLocal c) := by
  have hstore : (withPeers peers peerSeen n).store = n.store := rfl
  unfold Node.commitLocal
  rw [hstore]
  cases n.store.head with
  | none => exact appendLocal_withPeers peers peerSeen n c
  | some head =>
    dsimp only
    split_ifs
    · rfl
    · exact appendLocal_withPeers peers peerSeen n c

omit [Crates] in
/-- They do not change how a rejected commit is remembered. -/
theorem noteCommitReject_withPeers (n : Node) (hash : String) :
    (withPeers peers peerSeen n).noteCommitReject hash =
      withPeers peers peerSeen (n.noteCommitReject hash) := by
  have hseen : (withPeers peers peerSeen n).commitRejectSeen hash = n.commitRejectSeen hash := rfl
  have hrejects : (withPeers peers peerSeen n).recentCommitRejects = n.recentCommitRejects := rfl
  unfold Node.noteCommitReject
  rw [hseen, hrejects]
  dsimp only
  generalize (n.recentCommitRejects ++ [hash]).drop
    ((n.recentCommitRejects ++ [hash]).length - maxRecentCommitRejects) = rejects
  split_ifs
  · rfl
  · rfl

/-- They do not change what is done with a block from the queue. -/
theorem flushHeight_withPeers (n : Node) (height : ℤ) :
    (withPeers peers peerSeen n).flushHeight height =
      withPeers peers peerSeen (n.flushHeight height) := by
  have hstore : (withPeers peers peerSeen n).store = n.store := rfl
  have hqueue : (withPeers peers peerSeen n).pendingCommits = n.pendingCommits := rfl
  have hcommit (c : Checkpoint) := commitLocal_withPeers peers peerSeen
    { n with pendingCommits := n.pendingCommits.erase height } c
  unfold Node.flushHeight
  rw [hstore, hqueue]
  by_cases hnext : height ≠ (n.store.head.map Checkpoint.height).getD (-1) + 1
  · rw [if_pos hnext, if_pos hnext]
  rw [if_neg hnext, if_neg hnext]
  cases n.pendingCommits[height]? with
  | none => rfl
  | some c =>
    dsimp only
    split
    · rename_i seen hval
      split
      · exact hcommit c
      · rename_i e hval'
        exact absurd hval' (validateCheckpoint_not_error hval)
    · rename_i e hval
      split
      · rename_i seen hval'
        exact absurd hval (validateCheckpoint_not_error hval')
      · rfl

/-- They do not change how the queue is emptied. -/
theorem flushPendingCommits_withPeers (n : Node) :
    (withPeers peers peerSeen n).flushPendingCommits =
      withPeers peers peerSeen n.flushPendingCommits := by
  have hstore : (withPeers peers peerSeen n).store = n.store := rfl
  have hqueue : (withPeers peers peerSeen n).pendingCommits = n.pendingCommits := rfl
  have hfold (heights : List ℤ) (m : Node) :
      heights.foldl Node.flushHeight (withPeers peers peerSeen m) =
        withPeers peers peerSeen (heights.foldl Node.flushHeight m) :=
    List.foldl_hom (withPeers peers peerSeen) fun m h =>
      (flushHeight_withPeers peers peerSeen m h)
  unfold Node.flushPendingCommits
  rw [hstore, hqueue]
  cases n.store.head with
  | none => rfl
  | some head => exact hfold _ n

/-- They do not change what is done with a next block. -/
theorem acceptCommit_withPeers (n : Node) (c : Checkpoint) :
    (withPeers peers peerSeen n).acceptCommit c = withPeers peers peerSeen (n.acceptCommit c) := by
  have hreject : (withPeers peers peerSeen n).commitRejectSeen c.blockHash =
      n.commitRejectSeen c.blockHash := rfl
  unfold Node.acceptCommit
  rw [hreject]
  by_cases hseen : n.commitRejectSeen c.blockHash = true
  · rw [if_pos hseen, if_pos hseen]
  rw [if_neg hseen, if_neg hseen]
  split
  · rename_i e hval
    split
    · exact noteCommitReject_withPeers peers peerSeen n _
    · rename_i seen hval'
      exact absurd hval (validateCheckpoint_not_error hval')
  · rename_i seen hval
    split
    · rename_i e hval'
      exact absurd hval' (validateCheckpoint_not_error hval)
    · rename_i seen' hval'
      obtain rfl := validateCheckpoint_ok_unique hval hval'
      have hcommit := commitLocal_withPeers peers peerSeen { n with committedClaimIds := seen } c
      rw [← flushPendingCommits_withPeers, ← hcommit]
      rfl

/-- They do not change what is done with any block that is received. -/
theorem onCommit_withPeers (n : Node) (c : Checkpoint) :
    (withPeers peers peerSeen n).onCommit c = withPeers peers peerSeen (n.onCommit c) := by
  have hstore : (withPeers peers peerSeen n).store = n.store := rfl
  unfold Node.onCommit
  rw [hstore]
  cases n.store.head with
  | none =>
    dsimp only
    split_ifs
    · exact requestSync_withPeers peers peerSeen (n.insertPendingCommit c) _
    · exact acceptCommit_withPeers peers peerSeen n c
  | some head =>
    dsimp only
    split_ifs
    · exact requestSync_withPeers peers peerSeen (n.send Topics.forks (.forkAlert {
          nodeId := n.nodeId
          height := c.proposal.height
          observedHashA := head.blockHash
          observedHashB := c.blockHash })) _
    · rfl
    · rfl
    · exact requestSync_withPeers peers peerSeen (n.insertPendingCommit c) _
    · exact requestSync_withPeers peers peerSeen n _
    · exact acceptCommit_withPeers peers peerSeen n c

/-! ## Sync responses -/

/-- They do not change how the blocks of a peer are applied. -/
theorem reapply_withPeers (ancestor : ℤ) (saved incoming : List Checkpoint) (applied : ℕ)
    (n : Node) :
    Node.reapply ancestor saved incoming applied (withPeers peers peerSeen n) =
      withPeers peers peerSeen (Node.reapply ancestor saved incoming applied n) := by
  induction incoming generalizing applied n with
  | nil => rfl
  | cons b rest ih =>
    rw [Node.reapply, Node.reapply]
    split
    · rename_i e hval
      split
      · rfl
      · rename_i seen hval'
        exact absurd hval (validateCheckpoint_not_error hval')
    · rename_i seen hval
      split
      · rename_i e hval'
        exact absurd hval' (validateCheckpoint_not_error hval)
      · rw [commitLocal_withPeers]
        exact ih _ _

/-- They do not change the rollback before that. -/
theorem cutNode_withPeers (n : Node) (blocks : List Checkpoint) :
    cutNode (withPeers peers peerSeen n) blocks = withPeers peers peerSeen (cutNode n blocks) := by
  unfold cutNode
  rw [apply_ite (withPeers peers peerSeen)]
  rfl

/-- They do not change a whole reorganisation. -/
theorem reconcileChain_withPeers (n : Node) (blocks : List Checkpoint) :
    (withPeers peers peerSeen n).reconcileChain blocks =
      withPeers peers peerSeen (n.reconcileChain blocks) := by
  by_cases hin : Enters n blocks
  · have hin' : Enters (withPeers peers peerSeen n) blocks := hin
    rw [reconcileChain_of_enters hin, reconcileChain_of_enters hin', cutNode_withPeers]
    exact reapply_withPeers peers peerSeen _ _ _ _ _
  · have hin' : ¬ Enters (withPeers peers peerSeen n) blocks := hin
    rw [reconcileChain_of_not_enters hin, reconcileChain_of_not_enters hin']

/-- They do not change what is done with a sync response. -/
theorem onSyncResponse_withPeers (n : Node) (resp : SyncResponse) :
    (withPeers peers peerSeen n).onSyncResponse resp =
      withPeers peers peerSeen (n.onSyncResponse resp) := by
  unfold Node.onSyncResponse
  split_ifs
  · exact reconcileChain_withPeers peers peerSeen n _
  · exact List.foldl_hom (withPeers peers peerSeen) fun m c => onCommit_withPeers peers peerSeen m c

/-! ## Sequences -/

/-- A message that brings committed blocks. -/
inductive BlockMessage where
  | commit (c : Checkpoint)
  | response (resp : SyncResponse)

/-- The handler of the message. -/
def BlockMessage.handle (n : Node) : BlockMessage → Node
  | .commit c => n.onCommit c
  | .response resp => n.onSyncResponse resp

/-- So blocks are handled alike whatever the peers are. -/
theorem handle_withPeers (n : Node) (m : BlockMessage) :
    m.handle (withPeers peers peerSeen n) = withPeers peers peerSeen (m.handle n) := by
  cases m with
  | commit c => exact onCommit_withPeers peers peerSeen n c
  | response resp => exact onSyncResponse_withPeers peers peerSeen n resp

/-- Two runs over the same messages from states that differ in the peers end in states that
differ in the peers. -/
theorem handleAll_withPeers (msgs : List BlockMessage) (n : Node) :
    msgs.foldl BlockMessage.handle (withPeers peers peerSeen n) =
      withPeers peers peerSeen (msgs.foldl BlockMessage.handle n) := by
  induction msgs generalizing n with
  | nil => rfl
  | cons m msgs ih =>
    rw [List.foldl_cons, List.foldl_cons, handle_withPeers]
    exact ih _

/-- **Acceptance does not depend on the peer set.**  After any sequence of commits and sync
responses, two states that differed only in `peers` and `peer_seen` hold the same chain, the
same committed claims, the same queued commits and the same remembered rejects. -/
theorem acceptance_ignores_peers (n : Node) (msgs : List BlockMessage) :
    let left := msgs.foldl BlockMessage.handle n
    let right := msgs.foldl BlockMessage.handle { n with peers, peerSeen }
    right.store = left.store ∧ right.committedClaimIds = left.committedClaimIds ∧
      right.pendingCommits = left.pendingCommits ∧
      right.recentCommitRejects = left.recentCommitRejects := by
  intro left right
  have hruns : right = withPeers peers peerSeen left := handleAll_withPeers peers peerSeen msgs n
  rw [hruns]
  exact ⟨rfl, rfl, rfl, rfl⟩

end Exodus.Analysis
