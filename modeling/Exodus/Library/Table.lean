import Mathlib.Data.List.Nodup
import Mathlib.Data.Nat.Basic
import Mathlib.Tactic

/-!
# Finite tables and byte strings

A function that is known on a few arguments, completed to an injective one: outside the
table an argument is mapped to itself behind a filler that is longer than every value of
the table.  The values are usually long byte strings, written as numbers (`bytesBE`).
-/

set_option autoImplicit false

namespace Exodus.Library

section Lookup

variable {β γ : Type} [BEq β] [LawfulBEq β] {table : List (β × γ)} {x : β} {d : γ}

/-- An entry is found when no two entries have the same key. -/
theorem lookup_of_mem (hkeys : (table.map Prod.fst).Nodup) (he : (x, d) ∈ table) :
    table.lookup x = some d := by
  induction table with
  | nil => simp at he
  | cons e rest ih =>
    rw [List.map_cons, List.nodup_cons] at hkeys
    rcases List.mem_cons.mp he with rfl | he
    · simp
    · have hne : x ≠ e.1 := fun heq => hkeys.1 (heq ▸ List.mem_map_of_mem he)
      rw [List.lookup_cons, beq_false_of_ne hne]
      exact ih hkeys.2 he

/-- What is found is in the table. -/
theorem mem_of_lookup (h : table.lookup x = some d) : (x, d) ∈ table := by
  induction table with
  | nil => simp at h
  | cons e rest ih =>
    rw [List.lookup_cons] at h
    split at h
    · rename_i heq
      cases h
      rw [eq_of_beq heq]
      exact List.mem_cons_self
    · exact List.mem_cons_of_mem _ (ih h)

end Lookup

section Table

variable {α : Type} [DecidableEq α] {fill : List α} {table : List (List α × List α)}

/-- The value of the table, or the argument itself behind the filler. -/
def completed (fill : List α) (table : List (List α × List α)) (x : List α) : List α :=
  (table.lookup x).getD (fill ++ x)

/-- The completed table has the entries of the table. -/
theorem completed_of_mem {x d : List α} (hkeys : (table.map Prod.fst).Nodup)
    (he : (x, d) ∈ table) : completed fill table x = d := by
  rw [completed, lookup_of_mem hkeys he, Option.getD_some]

/-- With different values, all shorter than the filler, the completed function is injective. -/
theorem completed_injective (hvalues : (table.map Prod.snd).Nodup)
    (hshort : ∀ e ∈ table, e.2.length < fill.length) :
    Function.Injective (completed fill table) := by
  -- a value of the table is too short to be one of the others
  have hapart {x y d : List α} (hx : table.lookup x = some d) (h : d = fill ++ y) : False := by
    have := hshort _ (mem_of_lookup hx)
    rw [h, List.length_append] at this
    omega
  intro x y h
  unfold completed at h
  cases hx : table.lookup x with
  | none =>
    cases hy : table.lookup y with
    | none => simpa [hx, hy] using h
    | some d => exact (hapart hy (by simpa [hx, hy] using h.symm)).elim
  | some d =>
    cases hy : table.lookup y with
    | none => exact (hapart hx (by simpa [hx, hy] using h)).elim
    | some d' =>
      obtain rfl : d = d' := by simpa [hx, hy] using h
      exact congrArg Prod.fst (List.inj_on_of_nodup_map hvalues (mem_of_lookup hx)
        (mem_of_lookup hy) rfl)

end Table

/-! ## Numbers as bytes -/

/-- The last bytes of a number, the most significant one first. -/
def bytesBE : ℕ → ℕ → List UInt8
  | 0, _ => []
  | len + 1, n => bytesBE len (n / 256) ++ [UInt8.ofNat n]

/-- A number has as many bytes as asked for. -/
@[simp] theorem length_bytesBE (len n : ℕ) : (bytesBE len n).length = len := by
  induction len generalizing n with
  | zero => rfl
  | succ len ih => simp [bytesBE, ih]

/-- The number of a byte string, the most significant byte first. -/
def natBE (bytes : List UInt8) : ℕ := bytes.foldl (fun n b => n * 256 + b.toNat) 0

/-- A number that fits is read back from its bytes. -/
theorem natBE_bytesBE {len n : ℕ} (h : n < 256 ^ len) : natBE (bytesBE len n) = n := by
  induction len generalizing n with
  | zero =>
    rw [pow_zero] at h
    rw [Nat.lt_one_iff.mp h]
    rfl
  | succ len ih =>
    have hhigh := ih (Nat.div_lt_of_lt_mul (by rw [pow_succ, mul_comm] at h; exact h))
    rw [natBE] at hhigh ⊢
    rw [bytesBE, List.foldl_append, hhigh, List.foldl_cons, List.foldl_nil, UInt8.toNat_ofNat']
    omega

/-- Another byte at the end multiplies the number by 256 and is added. -/
theorem natBE_concat (bytes : List UInt8) (b : UInt8) :
    natBE (bytes ++ [b]) = natBE bytes * 256 + b.toNat := by
  rw [natBE, List.foldl_append]
  rfl

/-- A byte string is read back from its number. -/
theorem bytesBE_natBE (bytes : List UInt8) : bytesBE bytes.length (natBE bytes) = bytes := by
  induction bytes using List.reverseRecOn with
  | nil => rfl
  | append_singleton bytes b ih =>
    have hhigh : (natBE bytes * 256 + b.toNat) / 256 = natBE bytes := by
      have := b.toNat_lt
      omega
    have hlow : UInt8.ofNat (natBE bytes * 256 + b.toNat) = b := by
      apply UInt8.toNat_inj.mp
      rw [UInt8.toNat_ofNat']
      have := b.toNat_lt
      omega
    rw [natBE_concat, List.length_append, List.length_singleton, bytesBE, hhigh, hlow, ih]

/-- Numbers that fit are told apart by their bytes. -/
theorem bytesBE_injOn {len n m : ℕ} (hn : n < 256 ^ len) (hm : m < 256 ^ len)
    (h : bytesBE len n = bytesBE len m) : n = m := by
  rw [← natBE_bytesBE hn, h, natBE_bytesBE hm]

end Exodus.Library
