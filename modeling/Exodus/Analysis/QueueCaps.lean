import Exodus.Analysis.CatchUp
import Exodus.Library.Machine

/-!
# The queues that the network feeds

Claims wait in `pending` for a proposal and blocks in `pending_commits` for the gap below them,
and the hashes of rejected blocks are kept in `recent_commit_rejects`.  All three are filled by
messages, so all three have a cap: `on_claims` evicts claims, `insert_pending_commit` drops the
lowest heights and `note_commit_reject` the oldest hashes.  `submit_claim` does not evict, so
the operator's own claims may take `pending` above its cap, by one each.  `queues_capped` says
that this is all that any run can do, whatever messages come in.
-/

set_option autoImplicit false

namespace Exodus.Analysis

open Exodus.Library Exodus.Model Exodus.Interface

/-! ## The loops that make room -/

/-- With as many rounds as entries, the queue of blocks gets within its cap. -/
theorem size_trimPendingCommits {fuel : ℕ} {queue : Std.ExtTreeMap ℤ Checkpoint compare}
    (hfuel : queue.size ≤ fuel) : (Node.trimPendingCommits fuel queue).size ≤ maxPendingCommits := by
  induction fuel generalizing queue with
  | zero => exact hfuel.trans (Nat.zero_le _)
  | succ fuel ih =>
    unfold Node.trimPendingCommits
    by_cases hfull : maxPendingCommits < queue.size
    · rw [if_pos hfull]
      cases hmin : queue.minKey? with
      | none =>
        rw [Std.ExtTreeMap.minKey?_eq_none_iff.mp hmin] at hfull
        exact absurd hfull (Nat.not_lt_zero _)
      | some low =>
        apply ih
        have hmem := Std.ExtTreeMap.contains_iff_mem.mpr (Std.ExtTreeMap.minKey?_mem hmin)
        rw [Std.ExtTreeMap.size_erase, if_pos hmem]
        omega
    · rw [if_neg hfull]
      exact not_lt.mp hfull

/-- With as many rounds as entries, the queue of claims gets within its cap. -/
theorem size_evictClaims {fuel : ℕ} {n : Node} (hfuel : n.pending.size ≤ fuel) :
    (Node.evictClaims fuel n).pending.size ≤ maxPendingClaims := by
  induction fuel generalizing n with
  | zero => exact hfuel.trans (Nat.zero_le _)
  | succ fuel ih =>
    unfold Node.evictClaims
    by_cases hfull : maxPendingClaims < n.pending.size
    · rw [if_pos hfull]
      have hindex : n.ambient.hashOrder n.reads % n.pending.size < n.pending.keys.length := by
        rw [Std.ExtTreeMap.length_keys]
        exact Nat.mod_lt _ (by omega)
      rw [List.getElem?_eq_getElem hindex]
      apply ih
      have hmem := List.getElem_mem hindex
      rw [Std.ExtTreeMap.mem_keys, ← Std.ExtTreeMap.contains_iff_mem] at hmem
      show (n.pending.erase _).size ≤ fuel
      rw [Std.ExtTreeMap.size_erase, if_pos hmem]
      omega
    · rw [if_neg hfull]
      exact not_lt.mp hfull

/-- To remove entries makes no queue longer. -/
theorem size_eraseIds_le {V : Type} (queue : HashMap V) (ids : List String) :
    (eraseIds queue ids).size ≤ queue.size := by
  induction ids generalizing queue with
  | nil => exact le_rfl
  | cons id rest ih => exact (ih (queue.erase id)).trans Std.ExtTreeMap.size_erase_le

/-! ## One operation -/

variable [Crates] {n n' : Node} {I : Inputs}

/-- An effect keeps the queue of blocks within its cap. -/
theorem size_pendingCommits_of_effect (he : Effect I n n')
    (h : n.pendingCommits.size ≤ maxPendingCommits) :
    n'.pendingCommits.size ≤ maxPendingCommits := by
  cases he with
  | quiet hquiet =>
    have hqueue : n'.pendingCommits = n.pendingCommits :=
      congrArg Core.pendingCommits hquiet.core_eq
    rwa [hqueue]
  | timeout hI htime hcore =>
    have hqueue : n'.pendingCommits = n.pendingCommits := congrArg Core.pendingCommits hcore
    rwa [hqueue]
  | adopt p hp hval =>
    have hqueue := congrArg Core.pendingCommits (core_adopt n p)
    exact (congrArg Std.ExtTreeMap.size hqueue).trans_le h
  | commit c hsrc hval st happ =>
    rw [queue_announceCommit]
    exact h
  | twin c hsrc hval e happ hcom =>
    have hqueue := congrArg Core.pendingCommits (core_settleTwin n c.proposal.claims)
    exact (congrArg Std.ExtTreeMap.size hqueue).trans_le h
  | queue c hsrc => exact size_trimPendingCommits le_rfl
  | unqueue height => exact Std.ExtTreeMap.size_erase_le.trans h
  | requeue keep => exact Std.ExtTreeMap.size_filter_le_size.trans h
  | _ => exact h

/-- A sequence of effects keeps the queue of blocks within its cap. -/
theorem size_pendingCommits_of_effects (he : Effects I n n')
    (h : n.pendingCommits.size ≤ maxPendingCommits) :
    n'.pendingCommits.size ≤ maxPendingCommits := by
  induction he with
  | refl => exact h
  | tail _ he ih => exact size_pendingCommits_of_effect he ih

/-- Without a claim coming in, the queue of claims does not grow. -/
theorem size_pending_of_effect (he : Effect I n n') (hnone : ∀ s, ¬ I.claims s) :
    n'.pending.size ≤ n.pending.size := by
  cases he with
  | quiet hquiet =>
    have hqueue : n'.pending = n.pending := congrArg Core.pending hquiet.core_eq
    rw [hqueue]
  | timeout hI htime hcore =>
    have hqueue : n'.pending = n.pending := congrArg Core.pending hcore
    rw [hqueue]
  | pend s hs hv hnew => exact absurd hs (hnone s)
  | evict s hs id hfull => exact absurd hs (hnone s)
  | adopt p hp hval =>
    have hqueue := congrArg Core.pending (core_adopt n p)
    exact (congrArg Std.ExtTreeMap.size hqueue).trans_le (size_eraseIds_le _ _)
  | commit c hsrc hval st happ =>
    have hqueue := congrArg Core.pending (core_announceCommit { n with store := st } c)
    exact (congrArg Std.ExtTreeMap.size hqueue).trans_le (size_eraseIds_le _ _)
  | twin c hsrc hval e happ hcom =>
    have hqueue := congrArg Core.pending (core_settleTwin n c.proposal.claims)
    exact (congrArg Std.ExtTreeMap.size hqueue).trans_le (size_eraseIds_le _ _)
  | _ => exact le_rfl

/-- Without claims coming in, a sequence of effects does not make the queue of claims grow. -/
theorem size_pending_of_effects (he : Effects I n n') (hnone : ∀ s, ¬ I.claims s) :
    n'.pending.size ≤ n.pending.size := by
  induction he with
  | refl => exact le_rfl
  | tail _ he ih => exact (size_pending_of_effect he hnone).trans ih

/-- An operation keeps the queue of blocks within its cap. -/
theorem size_pendingCommits_step (hn : Node.Reachable n) (op : Node.Op)
    (h : n.pendingCommits.size ≤ maxPendingCommits) :
    (n.step op).1.pendingCommits.size ≤ maxPendingCommits := by
  obtain ⟨hinv, hidle⟩ := reachable_idle hn
  obtain ⟨m, hm⟩ := step_effects hinv.keyed hidle.outgoing hidle.calls op
  have hqueue : (n.step op).1.pendingCommits = m.pendingCommits := by
    rw [hm.state]
    rfl
  rw [hqueue]
  exact size_pendingCommits_of_effects hm.effects h

/-- An operation that brings no claim does not make the queue of claims grow. -/
theorem size_pending_step_of_no_claim (hn : Node.Reachable n) {op : Node.Op}
    (hnone : ∀ s, ¬ (inputs n op).claims s) : (n.step op).1.pending.size ≤ n.pending.size := by
  obtain ⟨hinv, hidle⟩ := reachable_idle hn
  obtain ⟨m, hm⟩ := step_effects hinv.keyed hidle.outgoing hidle.calls op
  have hqueue : (n.step op).1.pending = m.pending := by
    rw [hm.state]
    rfl
  rw [hqueue]
  exact size_pending_of_effects hm.effects hnone

/-- A claim of the network does not take the queue above its cap. -/
theorem size_pending_onClaims (n : Node) (s : SignedContribution) :
    (n.onClaims s).pending.size ≤ max n.pending.size maxPendingClaims := by
  unfold Node.onClaims
  split_ifs
  · exact le_max_left _ _
  · exact le_max_left _ _
  · exact (size_evictClaims le_rfl).trans (le_max_right _ _)

/-- A claim of the operator adds one at most. -/
theorem size_pending_submitClaim (n : Node) (s : SignedContribution) :
    (n.submitClaim s).1.pending.size ≤ n.pending.size + 1 := by
  unfold Node.submitClaim
  split_ifs
  · exact Nat.le_succ _
  · exact Nat.le_succ _
  · exact Nat.le_succ _
  · exact Nat.le_succ _
  · exact Std.ExtTreeMap.size_insert_le

/-! ## Rejected blocks -/

/-- The rejected blocks that a node remembers: not too many, and none twice. -/
def Remembered (rejects : List String) : Prop :=
  rejects.length ≤ maxRecentCommitRejects ∧ rejects.Nodup

omit [Crates] in
/-- A new hash at the end, and the oldest ones dropped. -/
theorem Remembered.push {rejects : List String} (h : Remembered rejects) {hash : String}
    (hnew : hash ∉ rejects) : Remembered
      ((rejects ++ [hash]).drop ((rejects ++ [hash]).length - maxRecentCommitRejects)) := by
  constructor
  · rw [List.length_drop]
    generalize maxRecentCommitRejects = cap
    omega
  · apply List.Nodup.sublist (List.drop_sublist _ _)
    apply h.2.append (List.nodup_singleton hash)
    rw [List.disjoint_singleton]
    exact hnew

omit [Crates] in
/-- A hash is noted once, and the oldest one makes room for it. -/
theorem remembered_noteCommitReject (h : Remembered n.recentCommitRejects) (hash : String) :
    Remembered (n.noteCommitReject hash).recentCommitRejects := by
  unfold Node.noteCommitReject
  by_cases hseen : n.commitRejectSeen hash = true
  · rw [if_pos hseen]
    exact h
  · have hnew : hash ∉ n.recentCommitRejects := by simpa [Node.commitRejectSeen] using hseen
    rw [if_neg hseen]
    dsimp only
    exact h.push hnew

/-- Of all the effects, only a rejection touches the rejected blocks. -/
theorem remembered_of_effect (he : Effect I n n') (h : Remembered n.recentCommitRejects) :
    Remembered n'.recentCommitRejects := by
  have hsame {k : Core} (hcore : core n' = k) (hk : k.recentCommitRejects = n.recentCommitRejects) :
      Remembered n'.recentCommitRejects := by
    have heq : n'.recentCommitRejects = k.recentCommitRejects :=
      congrArg Core.recentCommitRejects hcore
    rwa [heq, hk]
  cases he with
  | quiet hquiet => exact hsame hquiet.core_eq rfl
  | timeout hI htime hcore => exact hsame hcore rfl
  | adopt p hp hval => exact hsame (core_adopt n p) rfl
  | commit c hsrc hval st happ => exact hsame (core_announceCommit _ c) rfl
  | twin c hsrc hval e happ hcom => exact hsame (core_settleTwin n c.proposal.claims) rfl
  | reject hash => exact remembered_noteCommitReject h hash
  | _ => exact h

/-- A sequence of effects keeps within the cap of rejected blocks. -/
theorem remembered_of_effects (he : Effects I n n') (h : Remembered n.recentCommitRejects) :
    Remembered n'.recentCommitRejects := by
  induction he with
  | refl => exact h
  | tail _ he ih => exact remembered_of_effect he ih

/-- An operation keeps within the cap of rejected blocks. -/
theorem remembered_step (hn : Node.Reachable n) (op : Node.Op)
    (h : Remembered n.recentCommitRejects) : Remembered (n.step op).1.recentCommitRejects := by
  obtain ⟨hinv, hidle⟩ := reachable_idle hn
  obtain ⟨m, hm⟩ := step_effects hinv.keyed hidle.outgoing hidle.calls op
  have hsame : (n.step op).1.recentCommitRejects = m.recentCommitRejects := by
    rw [hm.state]
    rfl
  rw [hsame]
  exact remembered_of_effects hm.effects h

/-! ## Runs -/

/-- The operation is a claim of the operator. -/
def isSubmit : Node.Op → Bool
  | .submitClaim _ => true
  | _ => false

/-- Only a claim of the operator takes the queue of claims above its cap, by one. -/
theorem size_pending_step (hn : Node.Reachable n) (op : Node.Op) :
    (n.step op).1.pending.size ≤
      max n.pending.size maxPendingClaims + if isSubmit op then 1 else 0 := by
  cases op with
  | submitClaim s =>
    have hsize : (n.step (.submitClaim s)).1.pending.size ≤ n.pending.size + 1 :=
      size_pending_submitClaim n s
    exact hsize.trans (Nat.add_le_add_right (le_max_left _ _) 1)
  | receive topic m =>
    cases m with
    | contributionGossip s =>
      show (if topic = Topics.claims then n.onClaims s else n).pending.size ≤
        max n.pending.size maxPendingClaims
      split_ifs
      · exact size_pending_onClaims n s
      · exact le_max_left _ _
    | _ => exact (size_pending_step_of_no_claim hn (by simp [inputs])).trans (le_max_left _ _)
  | _ => exact (size_pending_step_of_no_claim hn (by simp [inputs])).trans (le_max_left _ _)

/-- The operations of a node, any of which may come next. -/
def nodeMachine : Machine Node Node.Op where
  admits _ _ := True
  step n op := (n.step op).1

/-- Over any run of a new node, the waiting blocks and the rejected ones are within their caps,
and the waiting claims exceed theirs by no more than the claims that were submitted locally. -/
theorem queues_capped (nodeId : String) (privateKey : List UInt8) (publicKeyHex : String)
    (config : ExodusConfig) (ambient : Ambient) (ops : List Node.Op) :
    let n := nodeMachine.run
      (Node.new nodeId privateKey publicKeyHex ChainStore.empty config ambient) ops
    n.pendingCommits.size ≤ maxPendingCommits ∧
      n.pending.size ≤ maxPendingClaims + ops.countP isSubmit ∧
      Remembered n.recentCommitRejects := by
  intro n
  have hlegal : nodeMachine.Legal
      (Node.new nodeId privateKey publicKeyHex ChainStore.empty config ambient) ops :=
    Machine.legal_of_forall _ fun _ _ _ => trivial
  have hrun := hlegal.history (P := fun past t => Node.Reachable t ∧
    t.pendingCommits.size ≤ maxPendingCommits ∧
    t.pending.size ≤ maxPendingClaims + past.countP isSubmit ∧
    Remembered t.recentCommitRejects) ?_ ?_
  · exact hrun.2
  · refine ⟨.start _ _ _ _ _, ?_⟩
    unfold Node.new
    dsimp only
    split_ifs <;> exact ⟨Nat.zero_le _, Nat.zero_le _, Nat.zero_le _, List.nodup_nil⟩
  · rintro past t op ⟨hreach, hcommits, hclaims, hrejects⟩ -
    refine ⟨.step hreach op, size_pendingCommits_step hreach op hcommits, ?_,
      remembered_step hreach op hrejects⟩
    apply (size_pending_step hreach op).trans
    rw [List.countP_append, List.countP_singleton, ← Nat.add_assoc]
    apply Nat.add_le_add_right
    exact max_le hclaims (Nat.le_add_right _ _)

end Exodus.Analysis
