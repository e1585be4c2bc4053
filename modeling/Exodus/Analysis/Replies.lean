import Exodus.Library.FirstMax
import Exodus.Model.Replies

/-!
# The reply that is chosen

In exact arithmetic `pick_agreed_reply` returns the first of the longest of the best
supported replies, the local one being ahead of those of the peers.  The scan compares votes
and length, which is the lexicographic order of the pair, so it is a scan for a first maximum.
-/

set_option autoImplicit false

namespace Exodus.Analysis

open Exodus.Library Exodus.Model

variable [UnicodeTables] {candidates : List (String × String)}

/-! ## Similarity -/

/-- The similarity of two replies is a rational number. -/
theorem dice_eq (a b : String) :
    diceSimilarityIn ℚ a b =
      if a = b then 1
      else if (normalizedChars a).length < 2 ∨ (normalizedChars b).length < 2 then
        if normalizedChars a = normalizedChars b then 1 else 0
      else
        2 * ((bigrams (normalizedChars a) ∩ bigrams (normalizedChars b)).card : ℚ) /
          ((bigrams (normalizedChars a)).card + (bigrams (normalizedChars b)).card : ℚ) := by
  rfl

omit [UnicodeTables] in
/-- Two characters have a bigram. -/
theorem bigrams_card_pos {chars : List Char} (h : 2 ≤ chars.length) : 0 < (bigrams chars).card := by
  cases chars with
  | nil => simp at h
  | cons a rest =>
    cases rest with
    | nil => simp at h
    | cons b rest =>
      apply Finset.card_pos.mpr
      exact ⟨(a, b), by simp [bigrams]⟩

/-- Where the similarity divides, the divisor is positive. -/
theorem dice_divisor_pos {a b : String} (ha : 2 ≤ (normalizedChars a).length)
    (hb : 2 ≤ (normalizedChars b).length) :
    (0 : ℚ) < (bigrams (normalizedChars a)).card + (bigrams (normalizedChars b)).card := by
  have hga := bigrams_card_pos ha
  have hgb := bigrams_card_pos hb
  exact_mod_cast Nat.add_pos_left hga _

/-- Similarity is symmetric. -/
theorem dice_comm (a b : String) : diceSimilarityIn ℚ a b = diceSimilarityIn ℚ b a := by
  rw [dice_eq, dice_eq]
  by_cases hab : a = b
  · rw [if_pos hab, if_pos hab.symm]
  rw [if_neg hab, if_neg (Ne.symm hab)]
  by_cases hshort : (normalizedChars a).length < 2 ∨ (normalizedChars b).length < 2
  · rw [if_pos hshort, if_pos hshort.symm]
    by_cases heq : normalizedChars a = normalizedChars b
    · rw [if_pos heq, if_pos heq.symm]
    · rw [if_neg heq, if_neg (Ne.symm heq)]
  · rw [if_neg hshort, if_neg fun h => hshort h.symm, Finset.inter_comm, add_comm]

/-- It is between 0 and 1. -/
theorem dice_mem_unit (a b : String) :
    0 ≤ diceSimilarityIn ℚ a b ∧ diceSimilarityIn ℚ a b ≤ 1 := by
  rw [dice_eq]
  split_ifs with hab hshort heq
  · exact ⟨zero_le_one, le_rfl⟩
  · exact ⟨zero_le_one, le_rfl⟩
  · exact ⟨le_rfl, zero_le_one⟩
  · obtain ⟨ha, hb⟩ := not_or.mp hshort
    have hpos := dice_divisor_pos (not_lt.mp ha) (not_lt.mp hb)
    generalize bigrams (normalizedChars a) = ga at hpos ⊢
    generalize bigrams (normalizedChars b) = gb at hpos ⊢
    refine ⟨by positivity, ?_⟩
    -- the common bigrams are among those of either side
    have hleft : ((ga ∩ gb).card : ℚ) ≤ ga.card := by
      exact_mod_cast Finset.card_le_card Finset.inter_subset_left
    have hright : ((ga ∩ gb).card : ℚ) ≤ gb.card := by
      exact_mod_cast Finset.card_le_card Finset.inter_subset_right
    rw [div_le_one hpos]
    linarith

/-! ## What the choice is to be -/

/-- All replies with their nodes, the local one first. -/
def offered (localReply : Option String) (peers : List (String × String)) :
    List (String × String) :=
  (localReply.toList.map fun l => ("local", l)) ++ peers

/-- The replies that are not blank. -/
def spoken (localReply : Option String) (peers : List (String × String)) :
    List (String × String) :=
  (offered localReply peers).filter fun c => !isBlank c.2

/-- The candidate itself and the others that are similar to it. -/
def support (candidates : List (String × String)) (i : Fin candidates.length) : ℕ :=
  1 + (Finset.univ.filter fun j => j ≠ i ∧
    1 / 2 ≤ diceSimilarityIn ℚ candidates[i].2 candidates[j].2).card

/-- The first of the longest of the best supported candidates, with its support. -/
def Agreed (candidates : List (String × String)) (result : String × String × ℕ) : Prop :=
  ∃ i : Fin candidates.length, result = (candidates[i].1, candidates[i].2, support candidates i) ∧
    (∀ j, support candidates j ≤ support candidates i) ∧
    (∀ j, support candidates j = support candidates i →
      candidates[j].2.length ≤ candidates[i].2.length) ∧
    ∀ j < i, ¬(support candidates j = support candidates i ∧
      candidates[j].2.length = candidates[i].2.length)

/-! ## The scan -/

/-- The candidates are the replies that say something. -/
theorem replyCandidates_eq (localReply : Option String) (peers : List (String × String)) :
    replyCandidates localReply peers = spoken localReply peers := by
  cases localReply with
  | none => rfl
  | some l =>
    by_cases hblank : isBlank l = true
    · simp [replyCandidates, spoken, offered, hblank]
    · simp [replyCandidates, spoken, offered, hblank]

/-- The rank of a candidate: votes first, then length. -/
def rank (candidates : List (String × String)) (i : ℕ) : ℕ ×ₗ ℕ :=
  toLex (votesFor ℚ candidates i, replyLength candidates i)

/-- A candidate with what the scan remembers of it. -/
def scored (candidates : List (String × String)) (i : ℕ) : ℕ × ℕ × ℕ :=
  (i, votesFor ℚ candidates i, replyLength candidates i)

/-- A turn of the loop keeps the better of two candidates, with its score. -/
theorem considerReply_scored (best i : ℕ) :
    considerReply ℚ candidates (scored candidates best) i =
      scored candidates (keepBest (rank candidates) best i) := by
  have hbetter : rank candidates best < rank candidates i ↔
      votesFor ℚ candidates best < votesFor ℚ candidates i ∨
        votesFor ℚ candidates i = votesFor ℚ candidates best ∧
          replyLength candidates best < replyLength candidates i := by
    rw [rank, rank, Prod.Lex.toLex_lt_toLex, eq_comm]
  unfold considerReply keepBest
  by_cases hlt : rank candidates best < rank candidates i
  · rw [if_pos hlt]
    exact if_pos (hbetter.mp hlt)
  · rw [if_neg hlt]
    exact if_neg fun h => hlt (hbetter.mpr h)

/-- The loop keeps the best one. -/
theorem foldl_considerReply (best : ℕ) (l : List ℕ) :
    l.foldl (considerReply ℚ candidates) (scored candidates best) =
      scored candidates (l.foldl (keepBest (rank candidates)) best) := by
  induction l generalizing best with
  | nil => rfl
  | cons i rest ih => rw [List.foldl_cons, List.foldl_cons, considerReply_scored, ih]

/-- Every candidate has a vote, so the first one replaces the empty start. -/
theorem scan_eq (candidates : List (String × String)) (n : ℕ) :
    (List.range (n + 1)).foldl (considerReply ℚ candidates) (0, 0, 0) =
      scored candidates (((List.range n).map Nat.succ).foldl (keepBest (rank candidates)) 0) := by
  have hfirst : considerReply ℚ candidates (0, 0, 0) 0 = scored candidates 0 := by
    apply if_pos
    left
    show 0 < 1 + _
    omega
  rw [List.range_succ_eq_map, List.foldl_cons, hfirst, foldl_considerReply]

/-- The scan of the positions ends at the first maximum of the rank. -/
theorem scan_firstMax (candidates : List (String × String)) (n : ℕ) :
    FirstMax (rank candidates) (List.range (n + 1))
      (((List.range n).map Nat.succ).foldl (keepBest (rank candidates)) 0) := by
  rw [List.range_succ_eq_map]
  exact firstMax_foldl 0 _

/-- The votes of a candidate are its support. -/
theorem votesFor_eq_support (i : Fin candidates.length) :
    votesFor ℚ candidates i = support candidates i := by
  have hget (j : Fin candidates.length) : candidates.getD j ("", "") = candidates[j] := by simp
  have hsims (j : Fin candidates.length) (hj : j ≠ i) :
      sims ℚ candidates i j = diceSimilarityIn ℚ candidates[i].2 candidates[j].2 := by
    have hne : (i : ℕ) ≠ j := fun h => hj (Fin.ext h.symm)
    rw [sims, if_neg hne, hget, hget]
  have hcount : (List.range candidates.length).countP (fun j => decide (j ≠ (i : ℕ)) &&
        FloatArith.le (FloatArith.literal (1 / 2)) (sims ℚ candidates i j)) =
      (List.finRange candidates.length).countP (fun j => decide (j ≠ i ∧
        1 / 2 ≤ diceSimilarityIn ℚ candidates[i].2 candidates[j].2)) := by
    rw [← List.map_coe_finRange_eq_range, List.countP_map]
    apply List.countP_congr
    intro j _
    by_cases hj : j = i
    · simp [hj]
    · have hne : (j : ℕ) ≠ i := fun h => hj (Fin.ext h)
      have hle (a b : ℚ) : FloatArith.le a b = decide (a ≤ b) := rfl
      have hhalf (q : ℚ) : (FloatArith.literal q : ℚ) = q := rfl
      simp [hj, hne, hsims j hj, hle, hhalf]
  rw [votesFor, support, hcount, Finset.card_def, Finset.filter_val, ← Multiset.countP_eq_card_filter]
  rfl

/-- A first maximum of the rank is the agreed candidate. -/
theorem agreed_of_firstMax {r : ℕ}
    (h : FirstMax (rank candidates) (List.range candidates.length) r) :
    Agreed candidates ((candidates.getD r ("", "")).1, (candidates.getD r ("", "")).2,
      votesFor ℚ candidates r) := by
  have hr : r < candidates.length := List.mem_range.mp h.mem
  have hrank (j : Fin candidates.length) :
      rank candidates j = toLex (support candidates j, candidates[j].2.length) := by
    rw [rank, votesFor_eq_support, replyLength]
    simp
  have hle (j : Fin candidates.length) : rank candidates j ≤ rank candidates r :=
    h.le (List.mem_range.mpr j.2)
  have hbefore {j : Fin candidates.length} (hj : (j : ℕ) < r) :
      rank candidates j < rank candidates r := by
    obtain ⟨before, after, hrange, hlt, -⟩ := h
    apply hlt
    -- the positions before `r` in the range are the smaller ones
    have hmem : (j : ℕ) ∈ before ++ r :: after := hrange ▸ List.mem_range.mpr j.2
    have hsorted : (before ++ r :: after).Pairwise (· < ·) := hrange ▸ List.pairwise_lt_range
    rcases List.mem_append.mp hmem with hmem | hmem
    · exact hmem
    · have hrest := (List.pairwise_append.mp hsorted).2.1
      rcases List.mem_cons.mp hmem with heq | hmem
      · omega
      · have := (List.pairwise_cons.mp hrest).1 _ hmem
        omega
  obtain ⟨i, rfl⟩ : ∃ i : Fin candidates.length, r = i := ⟨⟨r, hr⟩, rfl⟩
  refine ⟨i, ?_, ?_, ?_, ?_⟩
  · rw [votesFor_eq_support]
    simp
  · intro j
    have hj := hle j
    rw [hrank, hrank, Prod.Lex.toLex_le_toLex] at hj
    rcases hj with hj | hj
    · exact hj.le
    · exact hj.1.le
  · intro j hj
    have hle' := hle j
    rw [hrank, hrank, Prod.Lex.toLex_le_toLex] at hle'
    rcases hle' with hlt | hlen
    · exact absurd hj hlt.ne
    · exact hlen.2
  · rintro j hj ⟨hvotes, hlen⟩
    have hlt := hbefore (j := j) hj
    rw [hrank, hrank, hvotes, hlen] at hlt
    exact lt_irrefl _ hlt

/-- With some candidate the loop picks an agreed one. -/
theorem pickAgreedReply_of_ne_nil {localReply : Option String} {peers : List (String × String)}
    (h : spoken localReply peers ≠ []) :
    Agreed (spoken localReply peers) (pickAgreedReplyIn ℚ localReply peers) := by
  rw [← replyCandidates_eq] at h ⊢
  unfold pickAgreedReplyIn
  cases hc : replyCandidates localReply peers with
  | nil => exact absurd hc h
  | cons first rest =>
    have hscan := scan_firstMax (first :: rest) rest.length
    cases rest with
    | nil => exact agreed_of_firstMax hscan
    | cons second rest =>
      have hall := scan_eq (first :: second :: rest) (second :: rest).length
      have hagreed := agreed_of_firstMax hscan
      rw [← List.length_cons (a := first)] at hall
      dsimp only
      rw [hall]
      exact hagreed

/-- The choice is the empty one exactly when every reply is blank, and otherwise the agreed
candidate.  The similarity is symmetric, between 0 and 1, and never divides by 0. -/
theorem reply_is_optimum :
    (∀ (localReply : Option String) (peers : List (String × String)),
      (pickAgreedReplyIn ℚ localReply peers = ("", "", 0) ↔
        ∀ c ∈ offered localReply peers, isBlank c.2 = true) ∧
      ((∃ c ∈ offered localReply peers, isBlank c.2 = false) →
        Agreed (spoken localReply peers) (pickAgreedReplyIn ℚ localReply peers))) ∧
    ∀ a b : String, diceSimilarityIn ℚ a b = diceSimilarityIn ℚ b a ∧
      0 ≤ diceSimilarityIn ℚ a b ∧ diceSimilarityIn ℚ a b ≤ 1 ∧
      (2 ≤ (normalizedChars a).length → 2 ≤ (normalizedChars b).length →
        ((bigrams (normalizedChars a)).card : ℚ) + (bigrams (normalizedChars b)).card ≠ 0) := by
  refine ⟨?_, ?_⟩
  · intro localReply peers
    have hnil : spoken localReply peers = [] ↔
        ∀ c ∈ offered localReply peers, isBlank c.2 = true := by
      simp [spoken, List.filter_eq_nil_iff]
    refine ⟨⟨?_, ?_⟩, ?_⟩
    · intro hempty
      rw [← hnil]
      by_contra hne
      obtain ⟨i, hresult, -⟩ := pickAgreedReply_of_ne_nil hne
      rw [hempty] at hresult
      -- a candidate has its own vote
      have hvotes : 0 = support (spoken localReply peers) i :=
        congrArg (fun r : String × String × ℕ => r.2.2) hresult
      rw [support] at hvotes
      omega
    · intro hblank
      rw [← hnil, ← replyCandidates_eq] at hblank
      simp only [pickAgreedReplyIn, hblank]
    · rintro ⟨c, hc, hspoken⟩
      apply pickAgreedReply_of_ne_nil
      intro hempty
      rw [hnil.mp hempty c hc] at hspoken
      cases hspoken
  · intro a b
    obtain ⟨hlow, hhigh⟩ := dice_mem_unit a b
    refine ⟨dice_comm a b, hlow, hhigh, ?_⟩
    intro ha hb
    exact (dice_divisor_pos ha hb).ne'

end Exodus.Analysis

/-! ## On a sample -/

namespace Exodus.Analysis

open Exodus.Library Exodus.Model

/-- The tables on ASCII text. -/
local instance asciiTables : UnicodeTables where
  isAlphanumeric := Char.isAlphanum
  isWhitespace := Char.isWhitespace

/-- The local reply disagrees, two peers agree with each other. -/
theorem peers_agreed :
    let peers := [("b", "the sky is blue"), ("c", "The sky is blue."), ("d", " ")]
    pickAgreedReplyIn ℚ (some "no answer") peers = ("c", "The sky is blue.", 2) ∧
      Agreed (spoken (some "no answer") peers)
        (pickAgreedReplyIn ℚ (some "no answer") peers) := by
  refine ⟨by decide +kernel, ?_⟩
  apply (reply_is_optimum.1 _ _).2
  exact ⟨("local", "no answer"), by simp [offered], by decide +kernel⟩

end Exodus.Analysis
