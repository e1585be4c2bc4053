import Mathlib.Data.Int.Basic
import Mathlib.Data.List.Basic

/-!
# Texts that can be read in one way only

`ReadsBack print valid stop a` says that the text of `a`, wherever it may stop, is
not the beginning of any other text: from `print a ++ r = print b ++ s` follows
`a = b` and `r = s`.  It composes: a bracketed list of items that read back reads
back (`joinSep_inj`).
-/

set_option autoImplicit false

namespace Exodus.Library

variable {α β : Type*}

/-- A stretch of characters with a property ends at the first one without it. -/
theorem append_inj_of_forall {P : α → Prop} {x y r s : List α} (hx : ∀ c ∈ x, P c)
    (hy : ∀ c ∈ y, P c) (hr : ∀ c ∈ r.head?, ¬ P c) (hs : ∀ c ∈ s.head?, ¬ P c)
    (h : x ++ r = y ++ s) : x = y ∧ r = s := by
  induction x generalizing y with
  | nil =>
    cases y with
    | nil => exact ⟨rfl, h⟩
    | cons c y =>
      rw [List.nil_append] at h
      exact absurd (hy c (by simp)) (hr c (by simp [h]))
  | cons c x ih =>
    cases y with
    | nil =>
      rw [List.nil_append] at h
      exact absurd (hx c (by simp)) (hs c (by simp [← h]))
    | cons d y =>
      simp only [List.cons_append, List.cons.injEq] at h
      obtain ⟨rfl, h⟩ := h
      obtain ⟨rfl, hrs⟩ := ih (fun c hc => hx c (by simp [hc])) (fun c hc => hy c (by simp [hc])) h
      exact ⟨rfl, hrs⟩

/-- The text of `a` is read in one way, before any continuation where it may stop. -/
def ReadsBack (print : α → List β) (valid : α → Prop) (stop : List β → Prop) (a : α) : Prop :=
  ∀ b r s, valid b → stop r → stop s → print a ++ r = print b ++ s → a = b ∧ r = s

/-- The decimal text of an integer. -/
def intChars (i : ℤ) : List Char :=
  if i < 0 then '-' :: Nat.toDigits 10 i.natAbs else Nat.toDigits 10 i.natAbs

/-! ## Separated lists -/

/-- Items with a separator between them. -/
def joinSep (sep : β) : List (List β) → List β
  | [] => []
  | [x] => x
  | x :: y :: rest => x ++ sep :: joinSep sep (y :: rest)

/-- The first text has no separator before it. -/
theorem joinSep_cons (sep : β) (x : List β) (rest : List (List β)) :
    joinSep sep (x :: rest) = x ++ rest.flatMap fun y => sep :: y := by
  induction rest generalizing x with
  | nil => simp [joinSep]
  | cons y rest ih => simp [joinSep, ih]

/-- A joined character is the separator or one of a text. -/
theorem mem_joinSep {sep c : β} {l : List (List β)} (h : c ∈ joinSep sep l) :
    c = sep ∨ ∃ x ∈ l, c ∈ x := by
  cases l with
  | nil => cases h
  | cons x rest =>
    rw [joinSep_cons] at h
    rcases List.mem_append.mp h with h | h
    · exact .inr ⟨x, List.mem_cons_self, h⟩
    · obtain ⟨y, hy, hc⟩ := List.mem_flatMap.mp h
      rcases List.mem_cons.mp hc with rfl | hc
      · exact .inl rfl
      · exact .inr ⟨y, List.mem_cons_of_mem _ hy, hc⟩

/-- The characters of the texts are joined. -/
theorem mem_joinSep_of_mem {sep c : β} {x : List β} {l : List (List β)} (hx : x ∈ l) (hc : c ∈ x) :
    c ∈ joinSep sep l := by
  cases l with
  | nil => cases hx
  | cons y rest =>
    rw [joinSep_cons, List.mem_append, List.mem_flatMap]
    rcases List.mem_cons.mp hx with rfl | hx
    · exact .inl hc
    · exact .inr ⟨x, hx, List.mem_cons_of_mem _ hc⟩

section

variable {print : α → List β} {valid : α → Prop} {stop : List β → Prop} {sep close : β}

/-- The items after the first one are read back, each behind its separator. -/
theorem flatMap_sep_inj (hsep : ∀ r, stop (sep :: r)) (hclose : ∀ r, stop (close :: r))
    (hne : sep ≠ close) {l m : List α} {r s : List β}
    (hl : ∀ a ∈ l, ReadsBack print valid stop a) (hm : ∀ b ∈ m, valid b)
    (h : (l.flatMap fun a => sep :: print a) ++ close :: r =
      (m.flatMap fun a => sep :: print a) ++ close :: s) : l = m ∧ r = s := by
  have hstop (l : List α) (r : List β) :
      stop ((l.flatMap fun a => sep :: print a) ++ close :: r) := by
    cases l with
    | nil => exact hclose r
    | cons a l => exact hsep _
  induction l generalizing m with
  | nil =>
    cases m with
    | nil => exact ⟨rfl, (List.cons.inj h).2⟩
    | cons b m => exact absurd (List.cons.inj h).1.symm hne
  | cons a l ih =>
    cases m with
    | nil => exact absurd (List.cons.inj h).1 hne
    | cons b m =>
      simp only [List.flatMap_cons, List.cons_append, List.append_assoc, List.cons.injEq,
        true_and] at h
      obtain ⟨rfl, hrest⟩ := hl a (by simp) b _ _ (hm b (by simp)) (hstop l r) (hstop m s) h
      obtain ⟨rfl, hrs⟩ := ih (fun x hx => hl x (by simp [hx])) (fun x hx => hm x (by simp [hx]))
        hrest
      exact ⟨rfl, hrs⟩

/-- A closed list of items that read back reads back, when no item is empty or starts with
the closing character. -/
theorem joinSep_inj (hsep : ∀ r, stop (sep :: r)) (hclose : ∀ r, stop (close :: r))
    (hne : sep ≠ close) {l m : List α} {r s : List β}
    (hstart : ∀ a, valid a → ∃ c rest, print a = c :: rest ∧ c ≠ close)
    (hl : ∀ a ∈ l, valid a ∧ ReadsBack print valid stop a) (hm : ∀ b ∈ m, valid b)
    (h : joinSep sep (l.map print) ++ close :: r = joinSep sep (m.map print) ++ close :: s) :
    l = m ∧ r = s := by
  have hstop (l : List α) (r : List β) :
      stop ((l.flatMap fun a => sep :: print a) ++ close :: r) := by
    cases l with
    | nil => exact hclose r
    | cons a l => exact hsep _
  cases l with
  | nil =>
    cases m with
    | nil => exact ⟨rfl, (List.cons.inj h).2⟩
    | cons b m =>
      obtain ⟨c, rest, hb, hc⟩ := hstart b (hm b (by simp))
      rw [List.map_cons, joinSep_cons, hb] at h
      exact absurd (List.cons.inj h).1.symm hc
  | cons a l =>
    cases m with
    | nil =>
      obtain ⟨c, rest, ha, hc⟩ := hstart a (hl a (by simp)).1
      rw [List.map_cons, joinSep_cons, ha] at h
      exact absurd (List.cons.inj h).1 hc
    | cons b m =>
      simp only [List.map_cons, joinSep_cons, List.flatMap_map, List.append_assoc] at h
      obtain ⟨rfl, hrest⟩ :=
        (hl a (by simp)).2 b _ _ (hm b (by simp)) (hstop l r) (hstop m s) h
      obtain ⟨rfl, hrs⟩ := flatMap_sep_inj hsep hclose hne
        (fun x hx => (hl x (by simp [hx])).2) (fun x hx => hm x (by simp [hx])) hrest
      exact ⟨rfl, hrs⟩

end

/-- Units that read back without a stop make up texts that read back up to a mark that
starts no unit. -/
theorem flatMap_inj_of_mark {code : α → List β} {mark : β}
    (hcode : ∀ a b r s, code a ++ r = code b ++ s → a = b ∧ r = s)
    (hmark : ∀ a, ∃ c rest, code a = c :: rest ∧ c ≠ mark) {l m : List α} {r s : List β}
    (h : l.flatMap code ++ mark :: r = m.flatMap code ++ mark :: s) : l = m ∧ r = s := by
  induction l generalizing m with
  | nil =>
    cases m with
    | nil => exact ⟨rfl, (List.cons.inj h).2⟩
    | cons b m =>
      obtain ⟨c, rest, hb, hc⟩ := hmark b
      rw [List.flatMap_cons, hb] at h
      exact absurd (List.cons.inj h).1.symm hc
  | cons a l ih =>
    cases m with
    | nil =>
      obtain ⟨c, rest, ha, hc⟩ := hmark a
      rw [List.flatMap_cons, ha] at h
      exact absurd (List.cons.inj h).1 hc
    | cons b m =>
      simp only [List.flatMap_cons, List.append_assoc] at h
      obtain ⟨rfl, hrest⟩ := hcode a b _ _ h
      obtain ⟨rfl, hrs⟩ := ih hrest
      exact ⟨rfl, hrs⟩

end Exodus.Library
