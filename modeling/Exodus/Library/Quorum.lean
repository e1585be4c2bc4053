import Mathlib.Data.Finset.Card
import Mathlib.Tactic

/-!
# Quorums and votes

Parties vote for values, and a value with a quorum of votes is certified.  What the
faulty parties have voted for is not known, so a certificate only speaks for the others.
When two quorums always share a correct party, and a correct party votes for one value
per slot, a slot has at most one certified value.
-/

set_option autoImplicit false

namespace Exodus.Library

variable {α β σ : Type} [DecidableEq α] {members faulty : Finset α} {q : ℕ}

/-- Two quorums share at least what they outnumber the members by. -/
theorem le_card_inter_of_quorums {Q Q' : Finset α} (hQ : Q ⊆ members) (hQ' : Q' ⊆ members)
    (hq : q ≤ Q.card) (hq' : q ≤ Q'.card) : 2 * q - members.card ≤ (Q ∩ Q').card := by
  have hunion : (Q ∪ Q').card ≤ members.card := Finset.card_le_card (Finset.union_subset hQ hQ')
  have hsum := Finset.card_union_add_card_inter Q Q'
  omega

/-- Some quorums share no more than that. -/
theorem exists_quorums_card_inter (hq : q ≤ members.card) :
    ∃ Q ⊆ members, ∃ Q' ⊆ members, Q.card = q ∧ Q'.card = q ∧
      (Q ∩ Q').card = 2 * q - members.card := by
  obtain ⟨Q, hQ, hcard⟩ := Finset.exists_subset_card_eq hq
  have hrest : (members \ Q).card = members.card - q := by
    rw [Finset.card_sdiff_of_subset hQ, hcard]
  by_cases hroom : q ≤ members.card - q
  · -- there is room for a second quorum outside the first one
    obtain ⟨Q', hQ', hcard'⟩ := Finset.exists_subset_card_eq (hrest ▸ hroom)
    have hdisj : Q ∩ Q' = ∅ :=
      Finset.disjoint_iff_inter_eq_empty.mp (Finset.disjoint_of_subset_right hQ' Finset.disjoint_sdiff)
    refine ⟨Q, hQ, Q', hQ'.trans Finset.sdiff_subset, hcard, hcard', ?_⟩
    rw [hdisj, Finset.card_empty]
    omega
  · -- the second quorum has all the others in it
    obtain ⟨Q', hrest', hQ', hcard'⟩ := Finset.exists_subsuperset_card_eq
      (Finset.sdiff_subset (s := members) (t := Q)) (by omega) hq
    have hunion : Q ∪ Q' = members := by
      refine (Finset.union_subset hQ hQ').antisymm ?_
      rw [← Finset.union_sdiff_of_subset hQ]
      exact Finset.union_subset_union_right hrest'
    have hsum := Finset.card_union_add_card_inter Q Q'
    rw [hunion, hcard, hcard'] at hsum
    exact ⟨Q, hQ, Q', hQ', hcard, hcard', by omega⟩

/-- All pairs of quorums share `k` members exactly when twice the quorum outnumbers the
members by `k`. -/
theorem quorums_share_iff {k : ℕ} (hq : q ≤ members.card) :
    (∀ Q ⊆ members, ∀ Q' ⊆ members, q ≤ Q.card → q ≤ Q'.card → k ≤ (Q ∩ Q').card) ↔
      k ≤ 2 * q - members.card := by
  constructor
  · intro h
    obtain ⟨Q, hQ, Q', hQ', hcard, hcard', hinter⟩ := exists_quorums_card_inter hq
    rw [← hinter]
    exact h Q hQ Q' hQ' hcard.ge hcard'.ge
  · intro hk Q hQ Q' hQ' hcard hcard'
    exact hk.trans (le_card_inter_of_quorums hQ hQ' hcard hcard')

/-- Two quorums that together outnumber the members and the faulty ones share a correct
member. -/
theorem exists_correct_of_quorums {Q Q' : Finset α} (hQ : Q ⊆ members) (hQ' : Q' ⊆ members)
    (hq : q ≤ Q.card) (hq' : q ≤ Q'.card) (hfew : faulty.card + members.card < 2 * q) :
    ∃ x ∈ Q, x ∈ Q' ∧ x ∉ faulty := by
  have hshare := le_card_inter_of_quorums hQ hQ' hq hq'
  have hmany : faulty.card < (Q ∩ Q').card := by omega
  obtain ⟨x, hx, hcorrect⟩ := Finset.exists_mem_notMem_of_card_lt_card hmany
  rw [Finset.mem_inter] at hx
  exact ⟨x, hx.1, hx.2, hcorrect⟩

/-- A quorum of members stands for the value, and the correct ones among them voted for it. -/
def Certified (members faulty : Finset α) (q : ℕ) (votes : α → β → Prop) (v : β) : Prop :=
  ∃ Q ⊆ members, q ≤ Q.card ∧ ∀ x ∈ Q, x ∉ faulty → votes x v

omit [DecidableEq α] in
/-- More votes certify as well. -/
theorem Certified.mono {votes votes' : α → β → Prop} {v : β}
    (h : Certified members faulty q votes v) (hmono : ∀ x, votes x v → votes' x v) :
    Certified members faulty q votes' v := by
  obtain ⟨Q, hQ, hq, hvotes⟩ := h
  exact ⟨Q, hQ, hq, fun x hx hcorrect => hmono x (hvotes x hx hcorrect)⟩

/-- Correct parties that vote for one value per slot certify one value per slot. -/
theorem Certified.unique {votes : α → β → Prop} {slot : β → σ} {v w : β}
    (hfew : faulty.card + members.card < 2 * q)
    (hone : ∀ x ∈ members, x ∉ faulty → votes x v → votes x w → slot v = slot w → v = w)
    (hv : Certified members faulty q votes v) (hw : Certified members faulty q votes w)
    (hslot : slot v = slot w) : v = w := by
  obtain ⟨Q, hQ, hq, hvotes⟩ := hv
  obtain ⟨Q', hQ', hq', hvotes'⟩ := hw
  obtain ⟨x, hx, hx', hcorrect⟩ := exists_correct_of_quorums hQ hQ' hq hq' hfew
  exact hone x (hQ hx) hcorrect (hvotes x hx hcorrect) (hvotes' x hx' hcorrect) hslot

end Exodus.Library
