import Exodus.Interface.Sample
import Exodus.Library.Base32

/-!
# Node ids

`base32_nopad` shifts each byte into a 64-bit accumulator that is never masked, so the high
bits of a long input are lost.  What it still has to write are the low `bits` bits of the
accumulator, fewer than five between two bytes; these are right after every byte, whatever
was lost above them (`base32Loop_eq`).  The text is base32 as RFC 4648 defines it, and a node
id of 29 characters determines the sixteen bytes of the digest it was made from
(`base32_exact`).
-/

set_option autoImplicit false

namespace Exodus.Analysis

open Exodus.Library Exodus.Model

/-- The text of a list of bits. -/
def textOfBits (bits : List Bool) : List Char := (quintets bits).map base32Char

/-- A full group of five is the first character. -/
theorem textOfBits_append {group : List Bool} (h : group.length = 5) (rest : List Bool) :
    textOfBits (group ++ rest) = base32Char (natOfBits group) :: textOfBits rest := by
  rw [textOfBits, quintets_append h, List.map_cons, textOfBits]

/-- The alphabet of the program is the one of the standard. -/
theorem b32_eq_base32Char : ∀ v < 32, b32.getD v 'A' = base32Char v := by decide

/-- The last five bits of a number select the character of base32. -/
theorem b32_and_mask (x : ℕ) : b32.getD (x &&& 0x1f) 'A' = base32Char (natOfBits (bitsBE 5 x)) := by
  have hmask : x &&& 0x1f = x % 2 ^ 5 := Nat.and_two_pow_sub_one_eq_mod x 5
  rw [hmask, natOfBits_bitsBE]
  exact b32_eq_base32Char _ (Nat.mod_lt x (by decide))

/-! ## The loops -/

/-- The inner loop writes groups of five from the top and leaves fewer than five bits. -/
theorem base32Emit_spec (buffer fuel bits : ℕ) (h : bits < 5 * (fuel + 1)) :
    (base32Emit buffer fuel bits).2 < 5 ∧
      ∀ later, (base32Emit buffer fuel bits).1 ++
          textOfBits (bitsBE (base32Emit buffer fuel bits).2 buffer ++ later) =
        textOfBits (bitsBE bits buffer ++ later) := by
  induction fuel generalizing bits with
  | zero => exact ⟨h, fun later => rfl⟩
  | succ fuel ih =>
    rw [base32Emit]
    split_ifs with hfive
    · obtain ⟨hfew, htext⟩ := ih (bits - 5) (by omega)
      refine ⟨hfew, ?_⟩
      intro later
      have hsplit : bitsBE bits buffer =
          bitsBE 5 (buffer >>> (bits - 5)) ++ bitsBE (bits - 5) buffer := by
        rw [← bitsBE_add, Nat.add_sub_of_le hfive]
      rw [hsplit, List.append_assoc, textOfBits_append (length_bitsBE 5 _), ← htext later,
        b32_and_mask]
      rfl
    · exact ⟨Nat.lt_of_not_le hfive, fun later => rfl⟩

/-- A byte comes in at the bottom, below the bits that are still to be written. -/
theorem bitsBE_push (buffer : ℕ) (b : UInt8) {bits : ℕ} (h : bits < 5) :
    bitsBE (bits + 8) (((buffer <<< 8) % 2 ^ 64) ||| b.toNat) =
      bitsBE bits buffer ++ bitsBE 8 b.toNat := by
  have hbyte (i : ℕ) (hi : 8 ≤ i) : b.toNat.testBit i = false := by
    apply Nat.testBit_lt_two_pow
    exact lt_of_lt_of_le b.toNat_lt (Nat.pow_le_pow_right (by decide) hi)
  rw [bitsBE_add]
  congr 1
  · apply bitsBE_congr
    intro i hi
    rw [Nat.testBit_shiftRight, Nat.testBit_or, Nat.testBit_mod_two_pow, Nat.testBit_shiftLeft,
      hbyte (8 + i) (by omega), Nat.add_sub_cancel_left, decide_eq_true (by omega),
      decide_eq_true (by omega), Bool.true_and, Bool.true_and, Bool.or_false]
  · apply bitsBE_congr
    intro i hi
    rw [Nat.testBit_or, Nat.testBit_mod_two_pow, Nat.testBit_shiftLeft,
      decide_eq_false (by omega : ¬ i ≥ 8), Bool.false_and, Bool.and_false, Bool.false_or]

/-- The last bits are filled up with zeros from below. -/
theorem bitsBE_fill (buffer : ℕ) {bits : ℕ} (h : bits < 5) :
    bitsBE 5 ((buffer <<< (5 - bits)) % 2 ^ 64) =
      bitsBE bits buffer ++ List.replicate (5 - bits) false := by
  have hwidth : 5 = bits + (5 - bits) := by omega
  nth_rewrite 1 [hwidth]
  rw [bitsBE_add, ← bitsBE_zero]
  congr 1
  · apply bitsBE_congr
    intro i hi
    rw [Nat.testBit_shiftRight, Nat.testBit_mod_two_pow, Nat.testBit_shiftLeft,
      Nat.add_sub_cancel_left, decide_eq_true (by omega), decide_eq_true (by omega),
      Bool.true_and, Bool.true_and]
  · apply bitsBE_congr
    intro i hi
    rw [Nat.testBit_mod_two_pow, Nat.testBit_shiftLeft, decide_eq_false (by omega : ¬ i ≥ 5 - bits),
      Bool.false_and, Bool.and_false, Nat.zero_testBit]

/-- The invariant of the outer loop: of the accumulator only the low bits count that are
still to be written. -/
theorem base32Loop_eq (data : List UInt8) (buffer : ℕ) {bits : ℕ} (h : bits < 5) :
    base32Loop data buffer bits = textOfBits (bitsBE bits buffer ++ bitsOfBytes data) := by
  induction data generalizing buffer bits with
  | nil =>
    rw [base32Loop, bitsOfBytes, List.flatMap_nil, List.append_nil, textOfBits]
    split_ifs with hpos
    · have hlength := length_bitsBE bits buffer
      rw [quintets_of_short (by omega) (by omega), hlength, ← bitsBE_fill buffer h, b32_and_mask]
      rfl
    · obtain rfl : bits = 0 := by omega
      rfl
  | cons b data ih =>
    rw [base32Loop]
    obtain ⟨hfew, htext⟩ := base32Emit_spec (((buffer <<< 8) % 2 ^ 64) ||| b.toNat)
      (bits + 8) (bits + 8) (by omega)
    have hbits : bitsOfBytes (b :: data) = bitsBE 8 b.toNat ++ bitsOfBytes data :=
      List.flatMap_cons
    rw [ih _ hfew, htext, bitsBE_push buffer b h, hbits, List.append_assoc]

/-- The loop computes base32. -/
theorem base32NoPad_eq (data : List UInt8) : base32NoPad data = String.ofList (base32 data) := by
  rw [base32NoPad, base32Loop_eq data 0 (by decide)]
  rfl

/-! ## Node ids -/

/-- The characters of the alphabet differ. -/
theorem base32Char_inj : ∀ v < 32, ∀ w < 32, base32Char v = base32Char w → v = w := by decide

/-- They differ in lower case too. -/
theorem toLower_base32Char_inj :
    ∀ v < 32, ∀ w < 32, (base32Char v).toLower = (base32Char w).toLower → v = w := by decide

/-- Data of one length are determined by their text. -/
theorem base32NoPad_inj {data data' : List UInt8} (hlength : data.length = data'.length)
    (h : base32NoPad data = base32NoPad data') : data = data' := by
  rw [base32NoPad_eq, base32NoPad_eq, String.ofList_inj] at h
  exact base32_inj base32Char_inj hlength (congrArg (List.map fun c => c) h)

/-- The characters are ASCII. -/
theorem utf8Size_toLower_base32Char : ∀ v < 32, (base32Char v).toLower.utf8Size = 1 := by decide

variable [Crates]

/-- A node id is `exd` and the digest's first 16 bytes in lower-case base32. -/
theorem toList_nodeId (publicKey : List UInt8) :
    (nodeIdFromPublicKey publicKey).toList =
      ['e', 'x', 'd'] ++ (base32 ((Crates.sha256 publicKey).take 16)).map Char.toLower := by
  have hexd : "exd".toList = ['e', 'x', 'd'] := rfl
  rw [nodeIdFromPublicKey, base32NoPad_eq, String.toList_append, String.toList_map, hexd,
    String.toList_ofList]

omit [Crates] in
/-- An ASCII text has as many bytes as characters. -/
theorem utf8Len_of_ascii {l : List Char} (h : ∀ c ∈ l, c.utf8Size = 1) :
    String.utf8Len l = l.length := by
  induction l with
  | nil => rfl
  | cons c l ih =>
    rw [String.utf8Len_cons, h c List.mem_cons_self,
      ih fun d hd => h d (List.mem_cons_of_mem c hd), List.length_cons]

/-- A node id has 29 bytes when the digest of the key has sixteen or more. -/
theorem length_nodeId {publicKey : List UInt8} (h : 16 ≤ (Crates.sha256 publicKey).length) :
    (asBytes (nodeIdFromPublicKey publicKey)).length = 29 := by
  have hascii : ∀ c ∈ (nodeIdFromPublicKey publicKey).toList, c.utf8Size = 1 := by
    intro c hc
    rw [toList_nodeId, List.mem_append, List.mem_map] at hc
    rcases hc with hc | ⟨d, hd, rfl⟩
    · simp only [List.mem_cons, List.not_mem_nil, or_false] at hc
      rcases hc with rfl | rfl | rfl <;> rfl
    · obtain ⟨v, hv, rfl⟩ := List.mem_map.mp hd
      exact utf8Size_toLower_base32Char v (quintets_lt hv)
  have hsize : (asBytes (nodeIdFromPublicKey publicKey)).length =
      (nodeIdFromPublicKey publicKey).utf8ByteSize := rfl
  have hdigest : ((Crates.sha256 publicKey).take 16).length = 16 := by
    rw [List.length_take]
    omega
  rw [hsize, ← String.ofList_toList (s := nodeIdFromPublicKey publicKey),
    String.utf8ByteSize_ofList, utf8Len_of_ascii hascii, toList_nodeId, List.length_append,
    List.length_map, length_base32, hdigest]
  rfl

/-- Keys with one node id have digests with the same first sixteen bytes. -/
theorem digest_of_nodeId {key other : List UInt8} (hkey : 16 ≤ (Crates.sha256 key).length)
    (hother : 16 ≤ (Crates.sha256 other).length)
    (h : nodeIdFromPublicKey key = nodeIdFromPublicKey other) :
    (Crates.sha256 key).take 16 = (Crates.sha256 other).take 16 := by
  have htexts := congrArg String.toList h
  rw [toList_nodeId, toList_nodeId] at htexts
  refine base32_inj toLower_base32Char_inj ?_ (List.append_cancel_left htexts)
  rw [List.length_take, List.length_take]
  omega

/-- `base32_nopad` is base32 without padding at every length and tells inputs of one length
apart; so do the node ids of keys whose digests, of 32 bytes, differ in the first sixteen. -/
theorem base32_exact :
    (∀ data, base32NoPad data = String.ofList (base32 data)) ∧
    (∀ data data' : List UInt8, data.length = data'.length →
      base32NoPad data = base32NoPad data' → data = data') ∧
    ∀ key : List UInt8, (Crates.sha256 key).length = 32 →
      (asBytes (nodeIdFromPublicKey key)).length = 29 ∧
      ∀ other : List UInt8, (Crates.sha256 other).length = 32 →
        (Crates.sha256 key).take 16 ≠ (Crates.sha256 other).take 16 →
        nodeIdFromPublicKey key ≠ nodeIdFromPublicKey other := by
  refine ⟨base32NoPad_eq, fun data data' => base32NoPad_inj, ?_⟩
  intro key hkey
  refine ⟨length_nodeId (by omega), ?_⟩
  intro other hother hne h
  exact hne (digest_of_nodeId (by omega) (by omega) h)

end Exodus.Analysis

namespace Exodus.Analysis

open Exodus.Library Exodus.Model Exodus.Sample

/-- The digests of two keys of the sample differ in the first sixteen bytes, so the keys have
different node ids, of 29 characters each. -/
theorem ids_of_keys : (asBytes (nodeIdFromPublicKey Signer.a.key)).length = 29 ∧
    (asBytes (nodeIdFromPublicKey Signer.b.key)).length = 29 ∧
    nodeIdFromPublicKey Signer.a.key ≠ nodeIdFromPublicKey Signer.b.key := by
  have ha : (Crates.sha256 Signer.a.key).length = 32 := by
    rw [sha256_key_a]
    decide
  have hb : (Crates.sha256 Signer.b.key).length = 32 := by
    rw [sha256_key_b]
    decide
  have hne : (Crates.sha256 Signer.a.key).take 16 ≠ (Crates.sha256 Signer.b.key).take 16 := by
    rw [sha256_key_a, sha256_key_b]
    decide
  obtain ⟨hlength, hdiffer⟩ := base32_exact.2.2 Signer.a.key ha
  exact ⟨hlength, (base32_exact.2.2 Signer.b.key hb).1, hdiffer Signer.b.key hb hne⟩

end Exodus.Analysis
