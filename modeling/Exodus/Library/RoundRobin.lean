import Mathlib

/-!
# Taking turns

At time `v`, an integer, it is the turn of the member of a list at place `v` modulo the
length of the list.  Over as many consecutive times as there are members the turns are the
list itself, rotated by the place of the first one (`turns_eq_rotate`).
-/

set_option autoImplicit false

namespace Exodus.Library

variable {α : Type*}

/-- The member whose turn it is; the default for an empty list. -/
def turn (members : List α) (default : α) (v : ℤ) : α :=
  members.getD (v % members.length).toNat default

/-- After as many turns as members it is the same one's turn. -/
theorem turn_add_length (members : List α) (default : α) (v : ℤ) :
    turn members default (v + members.length) = turn members default v := by
  rw [turn, turn, Int.add_emod_right]

/-- As many turns in a row as members are a rotation of them. -/
theorem turns_eq_rotate (members : List α) (default : α) (start : ℤ) :
    (List.range members.length).map (fun k : ℕ => turn members default (start + k)) =
      members.rotate (start % members.length).toNat := by
  apply List.ext_getElem
  · rw [List.length_map, List.length_range, List.length_rotate]
  · intro k hk _
    rw [List.length_map, List.length_range] at hk
    have hpos : (0 : ℤ) < members.length := by omega
    have hfirst : ((start % members.length).toNat : ℤ) = start % members.length :=
      Int.toNat_of_nonneg (Int.emod_nonneg start hpos.ne')
    have hplace : (start + k) % members.length =
        (((k + (start % members.length).toNat) % members.length : ℕ) : ℤ) := by
      rw [Int.natCast_mod, Int.natCast_add, hfirst, Int.add_emod_emod, Int.add_comm]
    rw [List.getElem_rotate, List.getElem_map, List.getElem_range, turn, hplace, Int.toNat_natCast,
      List.getD_eq_getElem]

end Exodus.Library
