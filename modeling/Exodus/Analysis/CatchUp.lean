import Exodus.Interface.Adoption
import Exodus.Interface.SampleChain

/-!
# Catching up from commit messages

A node whose chain is a first segment of a valid chain receives the missing blocks
in any order.  Early blocks wait in `pending_commits` under their heights; the
invariant `CatchingUp` says that every block met so far is stored or waits, and
that none waits at the height that comes next.
-/

set_option autoImplicit false

namespace Exodus.Analysis

open Exodus.Library Exodus.Model Exodus.Interface

variable [Crates] {V met : List Checkpoint} {n : Node} {k first : ℕ}

/-! ## The invariant -/

/-- The node has stored `k` blocks of the chain `V`, `first` of them before the exchange;
`met` are the blocks delivered so far. -/
structure Behind (V : List Checkpoint) (first : ℕ) (met : List Checkpoint) (n : Node) (k : ℕ) :
    Prop where
  stored : Refines n.store (V.take k)
  first_le : first ≤ k
  le_length : k ≤ V.length
  valid : Log (Follows n.config.flopsTolerance) V
  committed : n.committedClaimIds = n.store.allCommittedClaimIds
  /-- the queue holds blocks of the chain, under their heights -/
  queued : ∀ (h : ℤ) (c : Checkpoint), n.pendingCommits[h]? = some c →
    ∃ i, ∃ hi : i < V.length, first ≤ i ∧ h = i ∧ c = V[i]
  /-- a block that was met and does not come next is stored or waits -/
  waiting : ∀ i (hi : i < V.length), k < i → V[i] ∈ met → n.pendingCommits[(i : ℤ)]? = some V[i]
  rejects : ∀ b ∈ V.drop first, b.blockHash ∉ n.recentCommitRejects

/-- Besides, if the block that comes next was met, it waits. -/
structure Unflushed (V : List Checkpoint) (first : ℕ) (met : List Checkpoint) (n : Node)
    (k : ℕ) : Prop extends Behind V first met n k where
  next : ∀ hk : k < V.length, V[k] ∈ met → n.pendingCommits[(k : ℤ)]? = some V[k]

/-- The state between two messages: the block that comes next was not met and does not wait. -/
structure CatchingUp (V : List Checkpoint) (first : ℕ) (met : List Checkpoint) (n : Node)
    (k : ℕ) : Prop extends Behind V first met n k where
  unmet : ∀ hk : k < V.length, V[k] ∉ met
  settled : n.pendingCommits[(k : ℤ)]? = none

/-- A chain has no block twice. -/
theorem getElem_inj_of_ledgerChain (hV : LedgerChain V) {i j : ℕ} (hi : i < V.length)
    (hj : j < V.length) (h : V[i] = V[j]) : i = j := by
  have hheight := congrArg Checkpoint.height h
  rw [LedgerChain.getElem_height hV hi, LedgerChain.getElem_height hV hj] at hheight
  omega

/-- The chain is one of the ledger. -/
theorem Behind.ledgerChain (h : Behind V first met n k) : LedgerChain V :=
  ledgerChain_of_follows h.valid

/-- The next block follows what is stored. -/
theorem Behind.follows (h : Behind V first met n k) (hk : k < V.length) :
    Follows n.config.flopsTolerance (V.take k) V[k] := h.valid.ok_getElem hk

/-- The ids of the next block are not committed. -/
theorem Behind.ids_fresh (h : Behind V first met n k) (hk : k < V.length) :
    ∀ id ∈ V[k].proposal.claimIds, id ∉ n.committedClaimIds := by
  intro id hid hcommitted
  have hnodup := (h.follows hk).can_append.ids_nodup
  rw [chainClaimIds_concat] at hnodup
  rw [h.committed, ChainStore.allCommittedClaimIds, List.mem_toFinset, h.stored.claimIds]
    at hcommitted
  exact List.disjoint_of_nodup_append hnodup hcommitted hid

/-! ## Commits -/

variable [SerdeReadsBack]

/-- Committing the next block moves the node one block on.  The id set that `on_commit`
passes along makes no difference, since the commit adds the same ids. -/
theorem Behind.commitLocal (h : Behind V first met n k) (hk : k < V.length)
    {seen : Finset String} (hseen : seen ∪ V[k].proposal.claimIds.toFinset =
      n.committedClaimIds ∪ V[k].proposal.claimIds.toFinset) :
    Unflushed V first met (({ n with committedClaimIds := seen } : Node).commitLocal V[k])
        (k + 1) ∧
      (({ n with committedClaimIds := seen } : Node).commitLocal V[k]).pendingCommits =
        n.pendingCommits := by
  obtain ⟨st, href, heq⟩ := commitLocal_of_extends
    (n := { n with committedClaimIds := seen }) h.stored (h.follows hk).can_append
  have htake : V.take (k + 1) = V.take k ++ [V[k]] := by
    rw [List.take_add_one, List.getElem?_eq_getElem hk, Option.toList_some]
  rw [← htake] at href
  have hcore := core_announceCommit
    ({ ({ n with committedClaimIds := seen } : Node) with store := st } : Node) V[k]
  rw [← heq] at hcore
  generalize hm : ({ n with committedClaimIds := seen } : Node).commitLocal V[k] = m at hcore
  have hstore : m.store = st := congrArg Core.store hcore
  have hqueue : m.pendingCommits = n.pendingCommits := congrArg Core.pendingCommits hcore
  have hconfig : m.config = n.config := congrArg Core.config hcore
  have hrejects : m.recentCommitRejects = n.recentCommitRejects :=
    congrArg Core.recentCommitRejects hcore
  refine ⟨⟨⟨hstore ▸ href, h.first_le.trans (Nat.le_succ k), hk, hconfig ▸ h.valid, ?_,
    hqueue ▸ h.queued, fun i hi hik => ?_, hrejects ▸ h.rejects⟩, fun hk' => ?_⟩, hqueue⟩
  · have hids : m.committedClaimIds = seen ∪ V[k].proposal.claimIds.toFinset :=
      congrArg Core.committedClaimIds hcore
    rw [hids, hseen, h.committed, hstore, ChainStore.allCommittedClaimIds,
      ChainStore.allCommittedClaimIds, h.stored.claimIds, href.claimIds, htake,
      chainClaimIds_concat, List.toFinset_append]
  · rw [hqueue]
    exact h.waiting i hi (by omega)
  · rw [hqueue]
    exact h.waiting (k + 1) hk' (Nat.lt_succ_self k)

/-! ## The flush -/

/-- The height that comes next is the number of stored blocks. -/
theorem Behind.next_height (h : Behind V first met n k) :
    (n.store.head.map Checkpoint.height).getD (-1) + 1 = k := by
  rw [h.stored.head_height, List.length_take, min_eq_left h.le_length]
  omega

/-- Heights other than the next one, and heights that nothing waits for, are passed over. -/
theorem Behind.flushHeight_skip (h : Behind V first met n k) {x : ℤ}
    (hx : x ≠ k ∨ n.pendingCommits[x]? = none) : n.flushHeight x = n := by
  unfold Node.flushHeight
  rw [h.next_height]
  split_ifs with hne
  · rfl
  · rcases hx with hx | hx
    · exact absurd hx hne
    · rw [hx]

/-- The waiting block that comes next is committed. -/
theorem Behind.flushHeight_next (h : Behind V first met n k) {c : Checkpoint}
    (hc : n.pendingCommits[(k : ℤ)]? = some c) :
    Unflushed V first met (n.flushHeight k) (k + 1) ∧
      (n.flushHeight k).pendingCommits = n.pendingCommits.erase (k : ℤ) := by
  obtain ⟨i, hi, -, hki, rfl⟩ := h.queued k c hc
  obtain rfl : k = i := by omega
  have herased : Behind V first met { n with pendingCommits := n.pendingCommits.erase (k : ℤ) } k := by
    refine ⟨h.stored, h.first_le, h.le_length, h.valid, h.committed, fun x c hx => ?_,
      fun j hj hkj hmet => ?_, h.rejects⟩
    · rw [Std.ExtTreeMap.getElem?_erase] at hx
      split_ifs at hx
      exact h.queued x c hx
    · show (n.pendingCommits.erase (k : ℤ))[(j : ℤ)]? = _
      have hne : ¬ compare (k : ℤ) (j : ℤ) = .eq := by
        rw [Std.compare_eq_iff_eq]
        omega
      rw [Std.ExtTreeMap.getElem?_erase, if_neg hne]
      exact h.waiting j hj hkj hmet
  generalize hm : ({ n with pendingCommits := n.pendingCommits.erase (k : ℤ) } : Node) = m at herased
  have hval := (h.follows hi).validateCheckpoint_ok h.stored m.quorumSize none (by simp)
  obtain ⟨hnext, hqueue⟩ := herased.commitLocal hi rfl
  have hflush : n.flushHeight k = m.commitLocal V[k] := by
    unfold Node.flushHeight
    rw [h.next_height, if_neg (not_not.mpr rfl), hc]
    dsimp only
    rw [hm, hval]
  rw [hflush]
  exact ⟨hnext, hqueue.trans (by rw [← hm])⟩

/-- The flush, over heights in ascending order: either all that may still be committed is
among the heights to come, or nothing waits at the next height and they are all above it. -/
theorem Unflushed.flush (h : Unflushed V first met n k) (heights : List ℤ)
    (hsorted : heights.Pairwise (· < ·))
    (hlive : (∀ x c, n.pendingCommits[x]? = some c → (k : ℤ) ≤ x → x ∈ heights) ∨
      n.pendingCommits[(k : ℤ)]? = none ∧ ∀ y ∈ heights, (k : ℤ) < y) :
    ∃ k', CatchingUp V first met (heights.foldl Node.flushHeight n) k' := by
  induction heights generalizing n k with
  | nil =>
    have hnone : n.pendingCommits[(k : ℤ)]? = none := by
      rcases hlive with hlive | ⟨hnone, -⟩
      · rw [Option.eq_none_iff_forall_ne_some]
        intro c hc
        exact absurd (hlive k c hc le_rfl) (by simp)
      · exact hnone
    refine ⟨k, ⟨h.toBehind, fun hk hmet => ?_, hnone⟩⟩
    rw [h.next hk hmet] at hnone
    cases hnone
  | cons x rest ih =>
    rw [List.pairwise_cons] at hsorted
    rw [List.foldl_cons]
    by_cases hx : x = k ∧ n.pendingCommits[x]? ≠ none
    · obtain ⟨rfl, hsome⟩ := hx
      obtain ⟨c, hc⟩ := Option.ne_none_iff_exists'.mp hsome
      obtain ⟨hnext, hqueue⟩ := h.flushHeight_next hc
      refine ih hnext hsorted.2 (.inl fun y c' hy hky => ?_)
      rw [hqueue, Std.ExtTreeMap.getElem?_erase] at hy
      split_ifs at hy
      rcases hlive with hlive | ⟨hnone, -⟩
      · rcases List.mem_cons.mp (hlive y c' hy (by omega)) with rfl | hmem
        · omega
        · exact hmem
      · rw [hc] at hnone
        cases hnone
    · have hskip : x ≠ k ∨ n.pendingCommits[x]? = none := by tauto
      rw [h.flushHeight_skip hskip]
      refine ih h hsorted.2 ?_
      rcases hlive with hlive | ⟨hnone, habove⟩
      · rcases lt_or_ge (k : ℤ) x with hlt | hle
        · -- the next height is not among the heights to come, so nothing waits there
          right
          refine ⟨?_, fun y hy => hlt.trans (hsorted.1 y hy)⟩
          rw [Option.eq_none_iff_forall_ne_some]
          intro c hc
          rcases List.mem_cons.mp (hlive k c hc le_rfl) with heq | hmem
          · omega
          · have := hsorted.1 _ hmem
            omega
        · left
          intro y c hy hky
          rcases List.mem_cons.mp (hlive y c hy hky) with rfl | hmem
          · rcases hskip with hne | hnone
            · omega
            · rw [hy] at hnone
              cases hnone
          · exact hmem
      · exact .inr ⟨hnone, fun y hy => habove y (by simp [hy])⟩

/-- Emptying the queue takes the node on to the next block that was not met. -/
theorem Unflushed.flushPendingCommits (h : Unflushed V first met n k) (hpos : 0 < k) :
    ∃ k', CatchingUp V first met n.flushPendingCommits k' := by
  have hne : V.take k ≠ [] := by
    have := h.le_length
    rw [← List.length_pos_iff, List.length_take]
    omega
  obtain ⟨tip, htip⟩ := Option.ne_none_iff_exists'.mp
    (mt List.getLast?_eq_none_iff.mp hne)
  have hhead : n.store.head = some (readBack tip) := by rw [h.stored.head, htip, Option.map_some]
  unfold Node.flushPendingCommits
  rw [hhead]
  refine h.flush _ ?_ (.inl fun x c hx _ => ?_)
  · exact Std.ExtTreeMap.ordered_keys.imp fun hlt => Std.compare_eq_lt.mp hlt
  · rw [Std.ExtTreeMap.mem_keys, Std.ExtTreeMap.mem_iff_isSome_getElem?, hx]
    rfl

/-! ## The queue -/

omit [SerdeReadsBack] in
/-- The queue never outgrows the missing blocks. -/
theorem Behind.size_insert_le (h : Behind V first met n k) {i : ℕ} (hi : i < V.length)
    (hfirst : first ≤ i) (hcap : V.length - first ≤ maxPendingCommits) :
    (n.pendingCommits.insert (i : ℤ) V[i]).size ≤ maxPendingCommits := by
  refine le_trans ?_ hcap
  have hsub : (n.pendingCommits.insert (i : ℤ) V[i]).keys ⊆
      (List.range' first (V.length - first)).map Int.ofNat := by
    intro x hx
    rw [Std.ExtTreeMap.mem_keys, Std.ExtTreeMap.mem_insert] at hx
    have hwithin (j : ℕ) (hj : j < V.length) (hfj : first ≤ j) :
        (j : ℤ) ∈ (List.range' first (V.length - first)).map Int.ofNat :=
      List.mem_map.mpr ⟨j, List.mem_range'_1.mpr ⟨hfj, by omega⟩, rfl⟩
    rcases hx with hx | hx
    · rw [← Std.compare_eq_iff_eq.mp hx]
      exact hwithin i hi hfirst
    · rw [Std.ExtTreeMap.mem_iff_isSome_getElem?] at hx
      obtain ⟨c, hc⟩ := Option.isSome_iff_exists.mp hx
      obtain ⟨j, hj, hfj, rfl, -⟩ := h.queued x c hc
      exact hwithin j hj hfj
  have hlen := (List.subperm_of_subset Std.ExtTreeMap.nodup_keys hsub).length_le
  simpa [Std.ExtTreeMap.length_keys] using hlen

omit [Crates] [SerdeReadsBack] in
/-- Within the cap no queued block is dropped. -/
theorem trimPendingCommits_of_size_le {queue : Std.ExtTreeMap ℤ Checkpoint compare}
    (hsize : queue.size ≤ maxPendingCommits) (fuel : ℕ) :
    Node.trimPendingCommits fuel queue = queue := by
  cases fuel with
  | zero => rfl
  | succ fuel =>
    unfold Node.trimPendingCommits
    rw [if_neg (not_lt.mpr hsize)]

/-! ## One message -/

/-- The head is the last stored block, if there is one. -/
theorem Behind.head_cases (h : Behind V first met n k) :
    k = 0 ∧ n.store.head = none ∨
      ∃ m, k = m + 1 ∧ ∃ hm : m < V.length, n.store.head = some (readBack V[m]) := by
  cases k with
  | zero => exact .inl ⟨rfl, by rw [h.stored.head]; rfl⟩
  | succ m =>
    have hm : m < V.length := h.le_length
    refine .inr ⟨m, rfl, hm, ?_⟩
    rw [h.stored.head, List.take_add_one, List.getElem?_eq_getElem hm, Option.toList_some,
      List.getLast?_concat, Option.map_some]

/-- A block that is stored already changes nothing. -/
theorem Behind.onCommit_stored (h : Behind V first met n k) {j : ℕ} (hj : j < V.length)
    (hjk : j < k) : n.onCommit V[j] = n := by
  obtain ⟨rfl, -⟩ | ⟨m, rfl, hm, hhead⟩ := h.head_cases
  · omega
  · have hheight (i : ℕ) (hi : i < V.length) : (V[i]).height = i :=
      LedgerChain.getElem_height h.ledgerChain hi
    have hsame :
        ¬ ((readBack V[m]).blockHash ≠ V[j].blockHash ∧ V[j].height = (readBack V[m]).height) := by
      rintro ⟨hne, heq⟩
      rw [readBack_height, hheight j hj, hheight m hm] at heq
      obtain rfl : j = m := by omega
      exact hne (readBack_blockHash _)
    unfold Node.onCommit
    rw [hhead]
    dsimp only
    rw [if_pos (by rw [readBack_height, hheight j hj, hheight m hm]; omega), if_neg hsame]

/-- A block above the next one is queued. -/
theorem Behind.onCommit_early (h : Behind V first met n k) {j : ℕ} (hj : j < V.length)
    (hkj : k < j) : ∃ fromHeight, n.onCommit V[j] =
      (n.insertPendingCommit V[j]).requestSync fromHeight := by
  have hheight (i : ℕ) (hi : i < V.length) : (V[i]).height = i :=
    LedgerChain.getElem_height h.ledgerChain hi
  unfold Node.onCommit
  obtain ⟨rfl, hhead⟩ | ⟨m, rfl, hm, hhead⟩ := h.head_cases
  · rw [hhead]
    exact ⟨-1, if_pos (by rw [hheight j hj]; omega)⟩
  · rw [hhead]
    dsimp only
    rw [readBack_height, hheight m hm, hheight j hj, if_neg (by omega), if_pos (by omega)]
    exact ⟨_, rfl⟩

/-- The next block is offered to the ledger. -/
theorem Behind.onCommit_next (h : Behind V first met n k) (hk : k < V.length) :
    n.onCommit V[k] = n.acceptCommit V[k] := by
  have hheight (i : ℕ) (hi : i < V.length) : (V[i]).height = i :=
    LedgerChain.getElem_height h.ledgerChain hi
  have hprev := (h.follows hk).can_append.prevHash_eq
  unfold Node.onCommit
  obtain ⟨rfl, hhead⟩ | ⟨m, rfl, hm, hhead⟩ := h.head_cases
  · rw [hhead]
    exact if_neg (by rw [hheight 0 hk]; simp)
  · rw [List.take_add_one, List.getElem?_eq_getElem hm, Option.toList_some,
      headHash_concat] at hprev
    rw [hhead]
    dsimp only
    rw [readBack_height, readBack_blockHash, hheight m hm, hheight (m + 1) hk,
      if_neg (by push_cast; omega), if_neg (by push_cast; omega), if_neg]
    rintro ⟨-, hne⟩
    exact hne hprev

omit [SerdeReadsBack] in
/-- Another block that was met is stored, comes next or waits. -/
theorem Behind.meet (h : Behind V first met n k) {j : ℕ} (hj : j < V.length)
    (hwaits : k < j → n.pendingCommits[(j : ℤ)]? = some V[j]) :
    Behind V first (met ++ [V[j]]) n k := by
  refine { h with waiting := fun i hi hki hmet => ?_ }
  rcases List.mem_append.mp hmet with hmet | hmet
  · exact h.waiting i hi hki hmet
  · obtain rfl := getElem_inj_of_ledgerChain h.ledgerChain hi hj (List.mem_singleton.mp hmet)
    exact hwaits hki

omit [SerdeReadsBack] in
/-- The next block is still to be met after another one was. -/
theorem CatchingUp.unmet_concat (h : CatchingUp V first met n k) {j : ℕ} (hj : j < V.length)
    (hjk : j ≠ k) (hk : k < V.length) : V[k] ∉ met ++ [V[j]] := by
  intro hmem
  rcases List.mem_append.mp hmem with hmem | hmem
  · exact h.unmet hk hmem
  · exact hjk (getElem_inj_of_ledgerChain h.ledgerChain hj hk (List.mem_singleton.mp hmem).symm)

/-- The next block is committed, and with it the blocks that waited for it. -/
theorem CatchingUp.acceptCommit (h : CatchingUp V first met n k) (hk : k < V.length) :
    ∃ k', CatchingUp V first (met ++ [V[k]]) (n.acceptCommit V[k]) k' := by
  have hbehind : Behind V first (met ++ [V[k]]) n k :=
    h.toBehind.meet hk fun hlt => absurd hlt (lt_irrefl k)
  have hunseen : n.commitRejectSeen V[k].blockHash = false := by
    have hmem : V[k] ∈ V.drop first := by
      rw [List.mem_drop_iff_getElem]
      exact ⟨k - first, by have := h.first_le; omega, by congr 1; have := h.first_le; omega⟩
    simpa [Node.commitRejectSeen] using h.rejects _ hmem
  have hval := (h.follows hk).validateCheckpoint_ok h.stored n.quorumSize
    (some n.committedClaimIds) (h.ids_fresh hk)
  have hseen : n.committedClaimIds ∪ V[k].proposal.claimIds.toFinset ∪
      V[k].proposal.claimIds.toFinset =
        n.committedClaimIds ∪ V[k].proposal.claimIds.toFinset := by simp
  obtain ⟨hnext, -⟩ := hbehind.commitLocal hk hseen
  have haccept : n.acceptCommit V[k] =
      (({ n with committedClaimIds := n.committedClaimIds ∪ V[k].proposal.claimIds.toFinset } :
        Node).commitLocal V[k]).flushPendingCommits := by
    unfold Node.acceptCommit
    rw [hunseen, if_neg (by simp), hval]
    rfl
  rw [haccept]
  exact hnext.flushPendingCommits (Nat.succ_pos k)

omit [SerdeReadsBack] in
/-- An early block joins the queue. -/
theorem CatchingUp.enqueue (h : CatchingUp V first met n k) {j : ℕ} (hj : j < V.length)
    (hkj : k < j) (hcap : V.length - first ≤ maxPendingCommits) (fromHeight : ℤ) :
    CatchingUp V first (met ++ [V[j]]) ((n.insertPendingCommit V[j]).requestSync fromHeight) k := by
  have hheight : (V[j]).height = j := LedgerChain.getElem_height h.ledgerChain hj
  have hfirst : first ≤ j := h.first_le.trans hkj.le
  have hinsert : n.insertPendingCommit V[j] =
      { n with pendingCommits := n.pendingCommits.insert (j : ℤ) V[j] } := by
    unfold Node.insertPendingCommit
    dsimp only
    rw [hheight, trimPendingCommits_of_size_le (h.size_insert_le hj hfirst hcap)]
  have hcore := (quiet_requestSync (n.insertPendingCommit V[j]) fromHeight).core_eq
  generalize (n.insertPendingCommit V[j]).requestSync fromHeight = m at hcore
  rw [hinsert] at hcore
  have hstore : m.store = n.store := congrArg Core.store hcore
  have hconfig : m.config = n.config := congrArg Core.config hcore
  have hids : m.committedClaimIds = n.committedClaimIds := congrArg Core.committedClaimIds hcore
  have hrejects : m.recentCommitRejects = n.recentCommitRejects :=
    congrArg Core.recentCommitRejects hcore
  have hqueue : m.pendingCommits = n.pendingCommits.insert (j : ℤ) V[j] :=
    congrArg Core.pendingCommits hcore
  have hother {i : ℕ} (hij : i ≠ j) : m.pendingCommits[(i : ℤ)]? = n.pendingCommits[(i : ℤ)]? := by
    have hne : ¬ compare (j : ℤ) (i : ℤ) = .eq := by
      rw [Std.compare_eq_iff_eq]
      omega
    rw [hqueue, Std.ExtTreeMap.getElem?_insert, if_neg hne]
  have hmine : m.pendingCommits[(j : ℤ)]? = some V[j] := by
    rw [hqueue, Std.ExtTreeMap.getElem?_insert_self]
  have hbehind : Behind V first met m k := by
    refine ⟨hstore ▸ h.stored, h.first_le, h.le_length, hconfig ▸ h.valid, ?_, fun x c hx => ?_,
      fun i hi hki hmet => ?_, hrejects ▸ h.rejects⟩
    · rw [hids, hstore, h.committed]
    · rw [hqueue, Std.ExtTreeMap.getElem?_insert] at hx
      split_ifs at hx with hjx
      · cases hx
        exact ⟨j, hj, hfirst, (Std.compare_eq_iff_eq.mp hjx).symm, rfl⟩
      · exact h.queued x c hx
    · by_cases hij : i = j
      · subst hij
        exact hmine
      · rw [hother hij]
        exact h.waiting i hi hki hmet
  refine ⟨hbehind.meet hj fun _ => hmine, h.unmet_concat hj hkj.ne', ?_⟩
  rw [hother hkj.ne]
  exact h.settled

/-- The invariant is kept by every commit message of the chain. -/
theorem CatchingUp.onCommit (h : CatchingUp V first met n k)
    (hcap : V.length - first ≤ maxPendingCommits) {c : Checkpoint} (hc : c ∈ V) :
    ∃ k', CatchingUp V first (met ++ [c]) (n.onCommit c) k' := by
  obtain ⟨j, hj, rfl⟩ := List.mem_iff_getElem.mp hc
  rcases lt_trichotomy j k with hjk | rfl | hkj
  · rw [h.onCommit_stored hj hjk]
    exact ⟨k, h.toBehind.meet hj fun hkj => absurd hkj (by omega), h.unmet_concat hj hjk.ne,
      h.settled⟩
  · rw [h.onCommit_next hj]
    exact h.acceptCommit hj
  · obtain ⟨fromHeight, heq⟩ := h.onCommit_early hj hkj
    rw [heq]
    exact ⟨k, h.enqueue hj hkj hcap fromHeight⟩

/-! ## All messages -/

/-- The node after a sequence of commit messages. -/
def afterCommits (n : Node) (msgs : List Checkpoint) : Node := msgs.foldl Node.onCommit n

/-- The invariant is kept by all messages. -/
theorem CatchingUp.afterCommits (h : CatchingUp V first met n k)
    (hcap : V.length - first ≤ maxPendingCommits) {msgs : List Checkpoint}
    (hmsgs : ∀ c ∈ msgs, c ∈ V) :
    ∃ k', CatchingUp V first (met ++ msgs) (Analysis.afterCommits n msgs) k' := by
  induction msgs generalizing n met k with
  | nil => exact ⟨k, by simpa [Analysis.afterCommits] using h⟩
  | cons c rest ih =>
    obtain ⟨k₁, h₁⟩ := h.onCommit hcap (hmsgs c (by simp))
    obtain ⟨k', h'⟩ := ih h₁ fun x hx => hmsgs x (by simp [hx])
    exact ⟨k', by simpa [Analysis.afterCommits] using h'⟩

/-- A node that stores the first `k` blocks of a valid chain, with an empty queue, the
ledger's ids as committed ids, no missing block among the rejected ones and a queue
large enough, holds the whole chain after any sequence of commit messages of its blocks
that has each missing block in it, and nothing is queued at the height that comes next. -/
theorem catch_up_complete (hvalid : ValidChain n.config.flopsTolerance V) (hk : k < V.length)
    (hlocal : Refines n.store (V.take k)) (hqueue : n.pendingCommits = ∅)
    (hcommitted : n.committedClaimIds = n.store.allCommittedClaimIds)
    (hrejects : ∀ b ∈ V.drop k, b.blockHash ∉ n.recentCommitRejects)
    (hcap : V.length - k ≤ maxPendingCommits) (msgs : List Checkpoint)
    (hmsgs : ∀ c ∈ msgs, c ∈ V) (hall : ∀ c ∈ V.drop k, c ∈ msgs) :
    Refines (afterCommits n msgs).store V ∧
      (afterCommits n msgs).pendingCommits[(afterCommits n msgs).store.height + 1]? = none := by
  have hstart : CatchingUp V k [] n k := by
    refine ⟨⟨hlocal, le_rfl, hk.le, hvalid.follows, hcommitted, fun h c hc => ?_, by simp,
      hrejects⟩, by simp, by simp [hqueue]⟩
    simp [hqueue] at hc
  obtain ⟨k', h⟩ := hstart.afterCommits hcap hmsgs
  rw [List.nil_append] at h
  -- every missing block was met, so none can come next
  have hdone : k' = V.length := by
    by_contra hne
    have hlt : k' < V.length := lt_of_le_of_ne h.le_length hne
    refine h.unmet hlt (hall _ ?_)
    rw [List.mem_drop_iff_getElem]
    exact ⟨k' - k, by have := h.first_le; omega, by congr 1; have := h.first_le; omega⟩
  subst hdone
  have hstored := h.stored
  rw [List.take_length] at hstored
  refine ⟨hstored, ?_⟩
  rw [hstored.height, show (V.length : ℤ) - 1 + 1 = V.length by omega]
  exact h.settled

end Exodus.Analysis

namespace Exodus.Analysis

open Exodus.Library Exodus.Model Exodus.Interface Exodus.Sample

/-- A fresh node that receives the second block before the first one, with genesis and the
second block again in between, has caught up. -/
theorem catch_up_early :
    Refines (afterCommits (fresh .a "t1")
        [secondBlock, genesisCheckpoint, secondBlock, firstBlock]).store
      [genesisCheckpoint, firstBlock, secondBlock] := by
  have href := fresh_refines .a "t1"
  refine (catch_up_complete (k := 1) validChain_second (by decide) href rfl ?_ (by simp [fresh]) (by decide)
    [secondBlock, genesisCheckpoint, secondBlock, firstBlock] (by simp) (by simp)).1
  rw [ChainStore.allCommittedClaimIds, href.claimIds]
  rfl

end Exodus.Analysis
