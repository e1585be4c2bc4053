import Exodus.Interface.SampleNodes
import Exodus.Library.Quorum

/-!
# Where two quorums meet

`quorum_size` is `2f + 1` with `f = (n - 1) / 3` in Byzantine mode and `n / 2 + 1`
otherwise.  Two majorities always have a member in common.  Two Byzantine quorums share
`f + 1` members exactly when `n` is `3f + 1`: for the other sizes the division has lost
a remainder, and the quorum is too small by it (`quorums_meet_iff`).
-/

set_option autoImplicit false

namespace Exodus.Analysis

open Exodus.Library Exodus.Model Exodus.Interface

section

variable [Crates] (n : Node)

/-- The faulty members that the quorum of a node allows for. -/
def toleratedFaults : ℕ := (n.committeeMembers.length - 1) / 3

/-- The members that two quorums are to share. -/
def requiredOverlap : ℕ := if n.config.byzantine then toleratedFaults n + 1 else 1

/-- Some overlap is always required. -/
theorem requiredOverlap_pos : 0 < requiredOverlap n := by
  unfold requiredOverlap
  split_ifs <;> omega

/-- Any two sets of committee members with a quorum each share enough members. -/
def QuorumsMeet : Prop :=
  ∀ Q ⊆ n.committeeMembers.toFinset, ∀ Q' ⊆ n.committeeMembers.toFinset,
    n.quorumSize ≤ Q.card → n.quorumSize ≤ Q'.card → requiredOverlap n ≤ (Q ∩ Q').card

/-- The committee has as many members as it lists. -/
theorem card_committeeMembers : n.committeeMembers.toFinset.card = n.committeeMembers.length :=
  List.toFinset_card_of_nodup (committeeMembers_nodup n)

/-- It has at least the node itself. -/
theorem committeeMembers_pos : 0 < n.committeeMembers.length := by
  have hself : n.nodeId ∈ n.committeeMembers := by
    unfold Node.committeeMembers
    rw [List.mem_insertionSort, List.mem_dedup]
    exact List.mem_cons_self
  exact List.length_pos_of_mem hself

/-- In Byzantine mode the quorum is `2f + 1`. -/
theorem quorumSize_byzantine (h : n.config.byzantine = true) :
    n.quorumSize = 2 * toleratedFaults n + 1 := by
  have hpos := committeeMembers_pos n
  unfold Node.quorumSize toleratedFaults
  rw [if_pos h, max_eq_left (show 1 ≤ n.committeeMembers.length from hpos)]
  exact max_eq_left (by omega)

/-- Otherwise the quorum is a majority. -/
theorem quorumSize_majority (h : n.config.byzantine = false) :
    n.quorumSize = n.committeeMembers.length / 2 + 1 := by
  have hpos := committeeMembers_pos n
  unfold Node.quorumSize
  rw [if_neg (by simp [h]), max_eq_left (show 1 ≤ n.committeeMembers.length from hpos)]

/-- A quorum is no larger than the committee. -/
theorem quorumSize_le_card : n.quorumSize ≤ n.committeeMembers.toFinset.card := by
  have hpos := committeeMembers_pos n
  rw [card_committeeMembers]
  cases hmode : n.config.byzantine with
  | true =>
    rw [quorumSize_byzantine n hmode, toleratedFaults]
    omega
  | false =>
    rw [quorumSize_majority n hmode]
    omega

/-- Two quorums of a committee share `f + 1` members in Byzantine mode, or one member in
majority mode, exactly when the mode is majority or the size of the committee is `3f + 1`. -/
theorem quorums_meet_iff :
    QuorumsMeet n ↔ (n.config.byzantine = true → n.committeeMembers.length % 3 = 1) := by
  have hpos := committeeMembers_pos n
  unfold QuorumsMeet
  rw [quorums_share_iff (quorumSize_le_card n), card_committeeMembers, requiredOverlap]
  cases hmode : n.config.byzantine with
  | true =>
    -- `2 (2f + 1) - n` is `f + 1` for `n = 3f + 1`, and less for `3f + 2` and `3f + 3`
    rw [quorumSize_byzantine n hmode, toleratedFaults]
    simp only [if_true, true_implies]
    omega
  | false =>
    rw [quorumSize_majority n hmode]
    simp only [Bool.false_eq_true, if_false, false_implies, iff_true]
    omega

end

end Exodus.Analysis

namespace Exodus.Analysis

open Exodus.Library Exodus.Model Exodus.Interface Exodus.Sample

open Signer

/-- In a committee of four, any two quorums of three share two members. -/
theorem quorums_meet_four : (ready .b [.a, .c, .d] "t1" 1 5 0.0).quorumSize = 3 ∧
    requiredOverlap (ready .b [.a, .c, .d] "t1" 1 5 0.0) = 2 ∧
    QuorumsMeet (ready .b [.a, .c, .d] "t1" 1 5 0.0) := by
  have hmembers := committeeMembers_ready .b [.a, .c, .d] "t1" 1 5 0.0 (by decide)
  have hlength : (ready .b [.a, .c, .d] "t1" 1 5 0.0).committeeMembers.length = 4 := by
    rw [hmembers, List.length_insertionSort]
    rfl
  have hmode : (ready .b [.a, .c, .d] "t1" 1 5 0.0).config.byzantine = true := rfl
  refine ⟨quorumSize_ready .b [.a, .c, .d] "t1" 1 5 0.0 (by decide), ?_,
    (quorums_meet_iff (ready .b [.a, .c, .d] "t1" 1 5 0.0)).mpr fun _ => by rw [hlength]⟩
  rw [requiredOverlap, hmode, toleratedFaults, hlength]
  rfl

/-- In a committee of two in Byzantine mode each member is a quorum of its own. -/
theorem pair_quorums_disjoint :
    (ready .b [.a] "t1" 1 3 0.0).config.byzantine = true ∧ ¬ QuorumsMeet (ready .b [.a] "t1" 1 3 0.0) := by
  refine ⟨rfl, fun hmeet => ?_⟩
  have hmembers : (ready .b [.a] "t1" 1 3 0.0).committeeMembers = [a.nodeId, b.nodeId] :=
    committeeMembers_ready .b [.a] "t1" 1 3 0.0 (by decide)
  have hquorum : (ready .b [.a] "t1" 1 3 0.0).quorumSize = 1 :=
    quorumSize_ready .b [.a] "t1" 1 3 0.0 (by decide)
  have hshare := hmeet {a.nodeId} (by simp [hmembers]) {b.nodeId} (by simp [hmembers])
    (by rw [hquorum, Finset.card_singleton]) (by rw [hquorum, Finset.card_singleton])
  have hdisjoint : ({a.nodeId} ∩ {b.nodeId} : Finset String) = ∅ := by decide
  rw [hdisjoint, Finset.card_empty] at hshare
  exact absurd hshare (not_le.mpr (requiredOverlap_pos _))

end Exodus.Analysis
