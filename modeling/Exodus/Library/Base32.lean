import Mathlib

/-!
# Base32 without padding

The text that RFC 4648 defines for a byte string: its bits in order, the most significant
bit of each byte first, cut into groups of five, the last group filled up with zeros, and
one character for each group.  Byte strings of one length are told apart by their texts
(`base32_inj`).
-/

set_option autoImplicit false

namespace Exodus.Library

/-! ## Bits -/

/-- The last bits of a number, the most significant one first. -/
def bitsBE : ℕ → ℕ → List Bool
  | 0, _ => []
  | width + 1, n => n.testBit width :: bitsBE width n

/-- The number of a list of bits, the most significant one first. -/
def natOfBits : List Bool → ℕ
  | [] => 0
  | b :: bits => 2 ^ bits.length * b.toNat + natOfBits bits

/-- The bits of a number are as many as asked for. -/
@[simp] theorem length_bitsBE (width n : ℕ) : (bitsBE width n).length = width := by
  induction width with
  | zero => rfl
  | succ width ih => rw [bitsBE, List.length_cons, ih]

/-- Only the last bits count. -/
theorem bitsBE_congr {width n m : ℕ} (h : ∀ i < width, n.testBit i = m.testBit i) :
    bitsBE width n = bitsBE width m := by
  induction width with
  | zero => rfl
  | succ width ih =>
    rw [bitsBE, bitsBE, h width (Nat.lt_succ_self width),
      ih fun i hi => h i (Nat.lt_succ_of_lt hi)]

/-- The bits of zero are all off. -/
theorem bitsBE_zero (width : ℕ) : bitsBE width 0 = List.replicate width false := by
  induction width with
  | zero => rfl
  | succ width ih => rw [bitsBE, ih, Nat.zero_testBit, List.replicate_succ]

/-- The first bits are those of the shifted number. -/
theorem bitsBE_add (high low n : ℕ) :
    bitsBE (high + low) n = bitsBE high (n >>> low) ++ bitsBE low n := by
  induction high with
  | zero => rw [Nat.zero_add, bitsBE, List.nil_append]
  | succ high ih =>
    rw [Nat.succ_add, bitsBE, bitsBE, ih, Nat.testBit_shiftRight, Nat.add_comm low high]
    rfl

/-- A number is below the power of two of its width. -/
theorem natOfBits_lt (bits : List Bool) : natOfBits bits < 2 ^ bits.length := by
  induction bits with
  | nil => exact Nat.one_pos
  | cons b bits ih =>
    rw [natOfBits, List.length_cons, pow_succ]
    cases b <;> simp only [Bool.toNat_true, Bool.toNat_false] <;> omega

/-- Bits are read back from their number. -/
theorem bitsBE_natOfBits (bits : List Bool) : bitsBE bits.length (natOfBits bits) = bits := by
  induction bits with
  | nil => rfl
  | cons b bits ih =>
    have hbit (i : ℕ) : (natOfBits (b :: bits)).testBit i =
        if i < bits.length then (natOfBits bits).testBit i else b.toNat.testBit (i - bits.length) :=
      Nat.testBit_two_pow_mul_add b.toNat (natOfBits_lt bits) i
    have hhead : (natOfBits (b :: bits)).testBit bits.length = b := by
      rw [hbit, if_neg (lt_irrefl _), Nat.sub_self]
      cases b <;> rfl
    have htail : bitsBE bits.length (natOfBits (b :: bits)) =
        bitsBE bits.length (natOfBits bits) := by
      apply bitsBE_congr
      intro i hi
      rw [hbit, if_pos hi]
    rw [List.length_cons, bitsBE, hhead, htail, ih]

/-- Bits of one width are determined by their number. -/
theorem natOfBits_inj {l m : List Bool} (hlength : l.length = m.length)
    (h : natOfBits l = natOfBits m) : l = m := by
  rw [← bitsBE_natOfBits l, ← bitsBE_natOfBits m, h, hlength]

/-- A number is read back from its bits, up to their width. -/
theorem natOfBits_bitsBE (width n : ℕ) : natOfBits (bitsBE width n) = n % 2 ^ width := by
  induction width with
  | zero => rw [pow_zero, Nat.mod_one, bitsBE, natOfBits]
  | succ width ih =>
    rw [bitsBE, natOfBits, length_bitsBE, ih, Nat.toNat_testBit, Nat.mod_pow_succ, Nat.add_comm]

/-! ## Groups of five -/

/-- The groups of five bits as numbers; the last one is filled up with zeros. -/
def quintets : List Bool → List ℕ
  | [] => []
  | a :: b :: c :: d :: e :: rest => natOfBits [a, b, c, d, e] :: quintets rest
  | bits => [natOfBits (bits ++ List.replicate (5 - bits.length) false)]

/-- A full group of five comes first. -/
theorem quintets_append {group : List Bool} (h : group.length = 5) (rest : List Bool) :
    quintets (group ++ rest) = natOfBits group :: quintets rest := by
  rcases group with _ | ⟨a, _ | ⟨b, _ | ⟨c, _ | ⟨d, _ | ⟨e, _ | ⟨f, more⟩⟩⟩⟩⟩⟩
  case cons.cons.cons.cons.cons.nil => rfl
  all_goals simp at h

/-- A last group is filled up with zeros. -/
theorem quintets_of_short {bits : List Bool} (hpos : 0 < bits.length) (hshort : bits.length < 5) :
    quintets bits = [natOfBits (bits ++ List.replicate (5 - bits.length) false)] := by
  rcases bits with _ | ⟨a, _ | ⟨b, _ | ⟨c, _ | ⟨d, _ | ⟨e, rest⟩⟩⟩⟩⟩
  · exact absurd hpos (lt_irrefl 0)
  · rfl
  · rfl
  · rfl
  · rfl
  · simp only [List.length_cons] at hshort
    omega

/-- A list of bits is empty, short, or a group and a rest. -/
theorem bits_cases (bits : List Bool) :
    bits = [] ∨ (0 < bits.length ∧ bits.length < 5) ∨
      ∃ group rest, bits = group ++ rest ∧ group.length = 5 := by
  rcases Nat.lt_or_ge bits.length 5 with hshort | hlong
  · rcases Nat.eq_zero_or_pos bits.length with hzero | hpos
    · exact .inl (List.length_eq_zero_iff.mp hzero)
    · exact .inr (.inl ⟨hpos, hshort⟩)
  · refine .inr (.inr ⟨bits.take 5, bits.drop 5, (List.take_append_drop 5 bits).symm, ?_⟩)
    rw [List.length_take]
    omega

/-- There are as many groups as begin. -/
theorem length_quintets (bits : List Bool) : (quintets bits).length = (bits.length + 4) / 5 := by
  induction hlength : bits.length using Nat.strong_induction_on generalizing bits with
  | _ length ih =>
    rcases bits_cases bits with rfl | ⟨hpos, hshort⟩ | ⟨group, rest, rfl, hgroup⟩
    · rw [← hlength]
      rfl
    · rw [quintets_of_short hpos hshort, List.length_singleton]
      omega
    · rw [List.length_append, hgroup] at hlength
      rw [quintets_append hgroup, List.length_cons, ih rest.length (by omega) rest rfl]
      omega

/-- A group is a number below 32. -/
theorem quintets_lt {bits : List Bool} {v : ℕ} (h : v ∈ quintets bits) : v < 32 := by
  induction hlength : bits.length using Nat.strong_induction_on generalizing bits with
  | _ length ih =>
    rcases bits_cases bits with rfl | ⟨hpos, hshort⟩ | ⟨group, rest, rfl, hgroup⟩
    · cases h
    · rw [quintets_of_short hpos hshort, List.mem_singleton] at h
      have hlt := natOfBits_lt (bits ++ List.replicate (5 - bits.length) false)
      rw [List.length_append, List.length_replicate, Nat.add_sub_of_le (by omega)] at hlt
      omega
    · rw [List.length_append, hgroup] at hlength
      rw [quintets_append hgroup, List.mem_cons] at h
      rcases h with rfl | h
      · have hlt := natOfBits_lt group
        rwa [hgroup] at hlt
      · exact ih rest.length (by omega) h rfl

/-- Lists of bits of one length are told apart by their groups. -/
theorem quintets_inj {l m : List Bool} (hlength : l.length = m.length)
    (h : quintets l = quintets m) : l = m := by
  induction hn : l.length using Nat.strong_induction_on generalizing l m with
  | _ n ih =>
    rcases bits_cases l with rfl | ⟨hpos, hshort⟩ | ⟨group, rest, rfl, hgroup⟩
    · exact (List.length_eq_zero_iff.mp hlength.symm).symm
    · rw [quintets_of_short hpos hshort, quintets_of_short (hlength ▸ hpos) (hlength ▸ hshort),
        List.singleton_inj, hlength] at h
      exact List.append_cancel_right (natOfBits_inj (by simp [hlength]) h)
    · rcases bits_cases m with rfl | ⟨-, hshort⟩ | ⟨group', rest', rfl, hgroup'⟩
      · rw [List.length_append, hgroup, List.length_nil] at hlength
        omega
      · rw [List.length_append, hgroup] at hlength
        omega
      · rw [List.length_append, hgroup] at hn
        rw [List.length_append, List.length_append, hgroup, hgroup'] at hlength
        rw [quintets_append hgroup, quintets_append hgroup', List.cons.injEq] at h
        rw [natOfBits_inj (hgroup.trans hgroup'.symm) h.1,
          ih rest.length (by omega) (by omega) h.2 rfl]

/-! ## The text -/

/-- The alphabet: the letters and the digits from 2 to 7. -/
def base32Char (v : ℕ) : Char := if v < 26 then Char.ofNat (65 + v) else Char.ofNat (24 + v)

/-- The bits of a byte string. -/
def bitsOfBytes (data : List UInt8) : List Bool := data.flatMap fun b => bitsBE 8 b.toNat

def base32 (data : List UInt8) : List Char := (quintets (bitsOfBytes data)).map base32Char

/-- A byte has eight bits. -/
theorem length_bitsOfBytes (data : List UInt8) : (bitsOfBytes data).length = 8 * data.length := by
  induction data with
  | nil => rfl
  | cons b data ih =>
    rw [bitsOfBytes, List.flatMap_cons, List.length_append, length_bitsBE, List.length_cons]
    rw [bitsOfBytes] at ih
    omega

/-- The length of the text depends on that of the data only. -/
theorem length_base32 (data : List UInt8) : (base32 data).length = (8 * data.length + 4) / 5 := by
  rw [base32, List.length_map, length_quintets, length_bitsOfBytes]

/-- A byte is determined by its bits. -/
theorem bitsBE_byte_inj {a b : UInt8} (h : bitsBE 8 a.toNat = bitsBE 8 b.toNat) : a = b := by
  have hnumbers := congrArg natOfBits h
  rw [natOfBits_bitsBE, natOfBits_bitsBE, Nat.mod_eq_of_lt a.toNat_lt,
    Nat.mod_eq_of_lt b.toNat_lt] at hnumbers
  exact UInt8.toNat_inj.mp hnumbers

/-- So are bytes in a row. -/
theorem bitsOfBytes_inj {data data' : List UInt8} (h : bitsOfBytes data = bitsOfBytes data') :
    data = data' := by
  induction data generalizing data' with
  | nil =>
    have hlength := congrArg List.length h
    rw [length_bitsOfBytes, length_bitsOfBytes, List.length_nil] at hlength
    exact (List.length_eq_zero_iff.mp (by omega)).symm
  | cons a data ih =>
    cases data' with
    | nil =>
      have hlength := congrArg List.length h
      rw [length_bitsOfBytes, length_bitsOfBytes, List.length_nil, List.length_cons] at hlength
      omega
    | cons b data' =>
      rw [bitsOfBytes, bitsOfBytes, List.flatMap_cons, List.flatMap_cons] at h
      obtain ⟨hfirst, hrest⟩ := List.append_inj h (by simp)
      rw [bitsBE_byte_inj hfirst, ih hrest]

/-- Characters that tell the numbers below 32 apart tell lists of them apart. -/
theorem map_inj_of_lt {f : ℕ → Char} (hf : ∀ v < 32, ∀ w < 32, f v = f w → v = w)
    {l m : List ℕ} (hl : ∀ v ∈ l, v < 32) (hm : ∀ v ∈ m, v < 32) (h : l.map f = m.map f) :
    l = m := by
  induction l generalizing m with
  | nil => exact (List.map_eq_nil_iff.mp h.symm).symm
  | cons v l ih =>
    cases m with
    | nil => exact absurd h (List.cons_ne_nil _ _)
    | cons w m =>
      rw [List.map_cons, List.map_cons, List.cons.injEq] at h
      rw [hf v (hl v List.mem_cons_self) w (hm w List.mem_cons_self) h.1,
        ih (fun x hx => hl x (List.mem_cons_of_mem v hx))
          (fun x hx => hm x (List.mem_cons_of_mem w hx)) h.2]

/-- Byte strings of one length are told apart by their texts, also in other characters. -/
theorem base32_inj {g : Char → Char}
    (hg : ∀ v < 32, ∀ w < 32, g (base32Char v) = g (base32Char w) → v = w)
    {data data' : List UInt8} (hlength : data.length = data'.length)
    (h : (base32 data).map g = (base32 data').map g) : data = data' := by
  rw [base32, base32, List.map_map, List.map_map] at h
  have hgroups := map_inj_of_lt hg (fun _ hv => quintets_lt hv) (fun _ hv => quintets_lt hv) h
  have hbits : (bitsOfBytes data).length = (bitsOfBytes data').length := by
    rw [length_bitsOfBytes, length_bitsOfBytes, hlength]
  exact bitsOfBytes_inj (quintets_inj hbits hgroups)

end Exodus.Library
