import Mathlib

/-!
# The first maximum of a list

A scan from left to right that keeps its best entry, and replaces it only by a strictly
better one, ends with the first of the entries of the greatest key.
-/

set_option autoImplicit false

namespace Exodus.Library

variable {α κ : Type*} [LinearOrder κ] {key : α → κ} {l : List α} {a r : α}

/-- The entry has the greatest key, and every entry before it a smaller one. -/
def FirstMax (key : α → κ) (l : List α) (r : α) : Prop :=
  ∃ before after, l = before ++ r :: after ∧ (∀ x ∈ before, key x < key r) ∧
    ∀ x ∈ after, key x ≤ key r

/-- One comparison of the scan. -/
def keepBest (key : α → κ) (best a : α) : α := if key best < key a then a else best

/-- A first maximum is one of the list. -/
theorem FirstMax.mem (h : FirstMax key l r) : r ∈ l := by
  obtain ⟨before, after, rfl, -, -⟩ := h
  simp

/-- It is a maximum. -/
theorem FirstMax.le (h : FirstMax key l r) {x : α} (hx : x ∈ l) : key x ≤ key r := by
  obtain ⟨before, after, rfl, hbefore, hafter⟩ := h
  rcases List.mem_append.mp hx with hx | hx
  · exact (hbefore x hx).le
  · rcases List.mem_cons.mp hx with rfl | hx
    · exact le_rfl
    · exact hafter x hx

/-- The only entry is the first maximum. -/
theorem firstMax_singleton (a : α) : FirstMax key [a] a :=
  ⟨[], [], rfl, by simp, by simp⟩

/-- One more entry replaces it only if it is larger. -/
theorem FirstMax.concat (h : FirstMax key l r) (a : α) :
    FirstMax key (l ++ [a]) (keepBest key r a) := by
  unfold keepBest
  split_ifs with hlt
  · refine ⟨l, [], rfl, ?_, by simp⟩
    intro x hx
    exact (h.le hx).trans_lt hlt
  · obtain ⟨before, after, rfl, hbefore, hafter⟩ := h
    refine ⟨before, after ++ [a], by simp, hbefore, ?_⟩
    intro x hx
    rcases List.mem_append.mp hx with hx | hx
    · exact hafter x hx
    · rw [List.mem_singleton.mp hx]
      exact not_lt.mp hlt

/-- The scan finds the first maximum. -/
theorem firstMax_foldl (a : α) (l : List α) :
    FirstMax key (a :: l) (l.foldl (keepBest key) a) := by
  induction l using List.reverseRecOn with
  | nil => exact firstMax_singleton a
  | append_singleton l b ih =>
    rw [List.foldl_append, ← List.cons_append]
    exact ih.concat b

end Exodus.Library
