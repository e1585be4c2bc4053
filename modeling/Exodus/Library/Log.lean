import Mathlib.Data.List.Basic
import Mathlib.Data.List.Induction

/-!
# Append-only logs

`Log ok l` says that `l` was built from the empty list by appending entries, each
admissible after the entries before it.  A hash-linked chain is a log whose rule
asks an entry to name the hash of the entry before it; `map_eq_of_tipHash_eq` is
what the links are for, that the last hash fixes the contents of the whole log.
-/

set_option autoImplicit false

namespace Exodus.Library

variable {α H K : Type*} {ok ok' : List α → α → Prop} {l m : List α} {a : α}

/-- Every entry was admissible after the entries before it. -/
inductive Log (ok : List α → α → Prop) : List α → Prop
  | nil : Log ok []
  | snoc {l : List α} {a : α} (h : Log ok l) (ha : ok l a) : Log ok (l ++ [a])

namespace Log

/-- A log is one that an entry was added to. -/
theorem snoc_iff : Log ok (l ++ [a]) ↔ Log ok l ∧ ok l a := by
  constructor
  · intro h
    generalize hm : l ++ [a] = m at h
    cases h with
    | nil => simp at hm
    | snoc h ha =>
      obtain ⟨rfl, heq⟩ := List.append_inj' hm rfl
      cases heq
      exact ⟨h, ha⟩
  · rintro ⟨h, ha⟩
    exact h.snoc ha

/-- An initial segment of a log is a log. -/
theorem of_prefix (hm : Log ok m) (h : l <+: m) : Log ok l := by
  induction hm with
  | nil =>
    rw [List.prefix_nil.mp h]
    exact .nil
  | snoc hl ha ih =>
    rcases List.prefix_concat_iff.mp h with rfl | h
    · exact hl.snoc ha
    · exact ih h

/-- A first part of a log is one. -/
theorem take (hm : Log ok m) (i : ℕ) : Log ok (m.take i) := hm.of_prefix (List.take_prefix i m)

/-- Each entry satisfies the rule on the entries before it. -/
theorem ok_getElem (hm : Log ok m) {i : ℕ} (hi : i < m.length) : ok (m.take i) m[i] := by
  have h := hm.take (i + 1)
  rw [List.take_add_one, List.getElem?_eq_getElem hi, Option.toList_some] at h
  exact (snoc_iff.mp h).2

/-- A rule that follows from the old one on its logs has the same logs. -/
theorem imp (h : ∀ l a, Log ok l → ok l a → ok' l a) (hl : Log ok l) : Log ok' l := by
  induction hl with
  | nil => exact .nil
  | snoc hl ha ih => exact ih.snoc (h _ _ hl ha)

/-- A rule that sees entries through `f` only has the same logs on lists of equal images. -/
theorem congr (f : α → K)
    (hok : ∀ l m a b, l.map f = m.map f → f a = f b → ok l a → ok m b) (hl : Log ok l)
    (h : l.map f = m.map f) : Log ok m := by
  induction hl generalizing m with
  | nil =>
    rw [List.map_eq_nil_iff.mp h.symm]
    exact .nil
  | @snoc l a hl ha ih =>
    rw [List.map_append] at h
    obtain ⟨m, rest, rfl, hm, hrest⟩ := List.map_eq_append_iff.mp h.symm
    obtain ⟨b, rfl, hb⟩ := List.map_eq_singleton_iff.mp hrest
    exact (ih hm.symm).snoc (hok l m a b hm.symm hb.symm ha)

end Log

/-- The entries of the second list are admissible one after the other, after those of the
first. -/
def LogFrom (ok : List α → α → Prop) : List α → List α → Prop
  | _, [] => True
  | l, a :: rest => ok l a ∧ LogFrom ok (l ++ [a]) rest

/-- Entries may follow a log exactly if the first part may, and the second part after it. -/
theorem LogFrom.append_iff {m' : List α} :
    LogFrom ok l (m ++ m') ↔ LogFrom ok l m ∧ LogFrom ok (l ++ m) m' := by
  induction m generalizing l with
  | nil => simp [LogFrom]
  | cons a rest ih => simp [LogFrom, ih, and_assoc]

/-- A list is a log exactly if its first part is one and the rest may follow it. -/
theorem Log.append_iff : Log ok (l ++ m) ↔ Log ok l ∧ LogFrom ok l m := by
  induction m generalizing l with
  | nil => simp [LogFrom]
  | cons a rest ih =>
    rw [List.append_cons, ih, Log.snoc_iff, LogFrom, and_assoc]

/-! ## Hash links -/

/-- The hash of the last entry, or the root of an empty log. -/
def tipHash (hash : α → H) (root : H) (l : List α) : H := (l.getLast?.map hash).getD root

variable {hash : α → H} {root : H}

/-- The empty log has the hash of the root. -/
@[simp] theorem tipHash_nil : tipHash hash root [] = root := rfl

/-- A log has the hash of its last entry. -/
@[simp] theorem tipHash_concat (l : List α) (a : α) :
    tipHash hash root (l ++ [a]) = hash a := by
  simp [tipHash]

/-- The entry names the hash of the log it extends. -/
def LinksTo (hash : α → H) (prev : α → H) (root : H) (l : List α) (a : α) : Prop :=
  prev a = tipHash hash root l

/-- Two hash-linked logs of one length with the same last hash have the same contents
throughout, where a hash fixes the contents of an entry and, position by position,
entries of equal contents name the same predecessor. -/
theorem map_eq_of_tipHash_eq {prev : α → H} (content : α → K)
    (hcontent : ∀ a b, hash a = hash b → content a = content b) :
    ∀ {l m : List α}, Log (LinksTo hash prev root) l → Log (LinksTo hash prev root) m →
      l.length = m.length → tipHash hash root l = tipHash hash root m →
      (∀ e ∈ l.zip m, content e.1 = content e.2 → prev e.1 = prev e.2) →
      l.map content = m.map content := by
  intro l m hl
  induction hl generalizing m with
  | nil =>
    intro _ hlen _ _
    rw [List.length_eq_zero_iff.mp hlen.symm]
  | @snoc l a hl ha ih =>
    intro hm hlen htip hprev
    cases hm with
    | nil => simp at hlen
    | @snoc m b hm hb =>
      have hlen' : l.length = m.length := by simpa using hlen
      have hab : content a = content b := hcontent a b (by simpa using htip)
      rw [List.zip_append hlen'] at hprev
      -- equal contents at the tip put equal hashes one entry below
      have hbelow : tipHash hash root l = tipHash hash root m := by
        rw [← show prev a = tipHash hash root l from ha,
          ← show prev b = tipHash hash root m from hb]
        exact hprev (a, b) (by simp) hab
      rw [List.map_append, List.map_append,
        ih hm hlen' hbelow fun e he => hprev e (List.mem_append_left _ he)]
      simp [hab]

end Exodus.Library
