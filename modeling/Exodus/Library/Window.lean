import Mathlib

/-!
# A bounded list of the values seen last

`note` puts a new value at the end of a list and drops the oldest one beyond a capacity; a
value that is in the list stays where it is.  `HeldSince` follows a value from the time it
is put in: it is held while fewer other values than the capacity are noted.  Over a whole
history the list is the end of the sequence of values that were new (`note_eq_rtake`).
-/

set_option autoImplicit false

namespace Exodus.Library

variable {α : Type} [DecidableEq α] {cap : ℕ} {order : List α} {x y : α}

omit [DecidableEq α] in
/-- A new entry repeats none. -/
theorem nodup_snoc (h : order.Nodup) (hx : x ∉ order) : (order ++ [x]).Nodup := by
  rw [← List.concat_eq_append]
  exact h.concat hx

/-- Note a value: a known one changes nothing, a new one may push the oldest one out. -/
def note (cap : ℕ) (order : List α) (x : α) : List α :=
  if x ∈ order then order
  else if cap < (order ++ [x]).length then (order ++ [x]).tail
  else order ++ [x]

/-- A known entry leaves the window. -/
theorem note_of_mem (h : x ∈ order) : note cap order x = order := if_pos h

/-- The window has no entry twice. -/
theorem note_nodup (h : order.Nodup) : (note cap order x).Nodup := by
  unfold note
  split_ifs with hx hfull
  · exact h
  · exact (nodup_snoc h hx).tail
  · exact nodup_snoc h hx

/-- A new entry comes last and may push out the first. -/
theorem note_of_not_mem (h : x ∉ order) :
    note cap order x = if cap < (order ++ [x]).length then (order ++ [x]).tail else order ++ [x] :=
  if_neg h

/-- A list that is the end of a history stays the end of it when a new value is noted. -/
theorem note_eq_rtake {history : List α} (horder : order = history.rtake cap) (hx : x ∉ order) :
    note cap order x = (history ++ [x]).rtake cap := by
  rw [note_of_not_mem hx, horder, List.rtake, List.rtake]
  simp only [List.length_append, List.length_drop, List.length_singleton]
  by_cases hroom : history.length < cap
  · have hall : history.length - cap = 0 := by omega
    have hall' : history.length + 1 - cap = 0 := by omega
    rw [if_neg (by omega), hall, hall', List.drop_zero, List.drop_zero]
  · have hnext : history.length + 1 - cap = history.length - cap + 1 := by omega
    have hback : history.drop (history.length - cap) ++ [x] =
        (history ++ [x]).drop (history.length - cap) := by
      rw [List.drop_append_of_le_length (Nat.sub_le _ _)]
    rw [if_pos (by omega), hback, hnext, List.tail_drop]

/-- The value stands in the list, and everything after it is among the others noted since. -/
def HeldSince (order : List α) (x : α) (since : Finset α) : Prop :=
  ∃ before after, order = before ++ x :: after ∧ ∀ y ∈ after, y ∈ since

omit [DecidableEq α] in
/-- What is held is in the window. -/
theorem HeldSince.mem {since : Finset α} (h : HeldSince order x since) : x ∈ order := by
  obtain ⟨before, after, rfl, -⟩ := h
  simp

/-- A value that is new to the list comes last. -/
theorem heldSince_note (hcap : 0 < cap) (hx : x ∉ order) (since : Finset α) :
    HeldSince (note cap order x) x since := by
  unfold note
  rw [if_neg hx]
  split_ifs with hfull
  · cases order with
    | nil =>
      rw [List.nil_append, List.length_singleton] at hfull
      omega
    | cons a rest => exact ⟨rest, [], rfl, by simp⟩
  · exact ⟨order, [], rfl, by simp⟩

/-- One more value leaves it in the list while there is room for the others noted since. -/
theorem HeldSince.note {since : Finset α} (h : HeldSince order x since) (hnodup : order.Nodup)
    (hy : y ≠ x → y ∈ since) (hroom : since.card < cap) :
    HeldSince (Library.note cap order y) x since := by
  by_cases hknown : y ∈ order
  · rwa [note_of_mem hknown]
  obtain ⟨before, after, rfl, hafter⟩ := h
  have hne : y ≠ x := by
    rintro rfl
    exact hknown (by simp)
  have hafter' : ∀ z ∈ after ++ [y], z ∈ since := by
    intro z hz
    rcases List.mem_append.mp hz with hz | hz
    · exact hafter z hz
    · rw [List.mem_singleton.mp hz]
      exact hy hne
  unfold Library.note
  rw [if_neg hknown]
  split_ifs with hfull
  · cases before with
    | cons b before => exact ⟨before, after ++ [y], by simp, hafter'⟩
    | nil =>
      -- the value is the oldest one, so all others in the list were noted since
      exfalso
      have hdistinct : (after ++ [y]).Nodup := by
        rw [List.nil_append, List.nodup_cons] at hnodup
        apply nodup_snoc hnodup.2
        intro hy
        exact hknown (List.mem_cons_of_mem x hy)
      have hcard : (after ++ [y]).length ≤ since.card := by
        rw [← List.toFinset_card_of_nodup hdistinct]
        exact Finset.card_le_card fun z hz => hafter' z (List.mem_toFinset.mp hz)
      simp only [List.nil_append, List.length_append, List.length_cons, List.length_nil]
        at hfull hcard
      omega
  · exact ⟨before, after ++ [y], by simp, hafter'⟩

end Exodus.Library
