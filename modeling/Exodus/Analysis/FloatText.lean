import Exodus.Analysis.PythonForm
import Exodus.Interface.Sample

/-!
# The text of a double

`py_float` takes the text of `ryu` apart and lays its digits out anew.  The new text denotes
the same decimal number; it is positional when the exponent of the leading digit is at least
-4 and below 16, and scientific otherwise, with no more zeros than the notation asks for.
-/

set_option autoImplicit false

namespace Exodus.Analysis

open Exodus.Library Exodus.Model Exodus.Interface

variable {ds : List Char} {neg : Bool} {e : ℤ}

/-! ## The number that a text denotes -/

/-- The number a decimal text denotes: its digits, with the point moved by the exponent. -/
def textValue (s : List Char) : ℚ :=
  let signed := splitSign s
  let parts := splitExponent signed.2
  let mantissa := splitPoint parts.1
  let magnitude : ℚ := (Nat.ofDigitChars 10 (mantissa.1 ++ mantissa.2) 0 : ℚ) *
    10 ^ (parts.2.getD 0 - mantissa.2.length)
  if signed.1 then -magnitude else magnitude

/-- A sign and the digits, the leading one at the power `e` of ten. -/
def decimalValue (neg : Bool) (ds : List Char) (e : ℤ) : ℚ :=
  let magnitude : ℚ := (Nat.ofDigitChars 10 ds 0 : ℚ) * 10 ^ (e + 1 - ds.length)
  if neg then -magnitude else magnitude

example : textValue "-12.5e-1".toList = -5 / 4 := by decide +kernel

/-- The exponent of the leading digit. -/
def leadExponent (d : Decimal) : ℤ := d.exponent - 1

/-- The sign of a numeral is found. -/
theorem splitSign_numeral {ip : List Char} (fp ex : Option (List Char)) (hne : ip ≠ [])
    (hip : ∀ c ∈ ip, c.isDigit = true) :
    splitSign (numeral neg ip fp ex) = (neg, numeral false ip fp ex) := by
  cases neg with
  | true => rfl
  | false =>
    obtain ⟨c, rest, rfl⟩ := List.exists_cons_of_ne_nil hne
    have hc := hip c List.mem_cons_self
    have hminus : c ≠ '-' := fun h => by simp [h, minus_not_isDigit] at hc
    have hplus : c ≠ '+' := fun h => absurd (h ▸ hc) (by decide)
    simp [numeral, splitSign, hminus, hplus]

/-- The value of a numeral is computed from its digits and its exponent. -/
theorem textValue_numeral {ip : List Char} {fp ex : Option (List Char)} (hne : ip ≠ [])
    (hip : ∀ c ∈ ip, c.isDigit = true) (hfp : ∀ t ∈ fp, ∀ c ∈ t, c.isDigit = true) :
    textValue (numeral neg ip fp ex) =
      let magnitude : ℚ := (Nat.ofDigitChars 10 (ip ++ fp.getD []) 0 : ℚ) *
        10 ^ ((ex.bind parseI32).getD 0 - ((fp.getD []).length : ℤ))
      if neg then -magnitude else magnitude := by
  unfold textValue
  rw [splitSign_numeral fp ex hne hip]
  dsimp only
  rw [splitExponent_numeral ex hip hfp, splitPoint_numeral fp hip]

/-- Zeros in front do not count, and zeros behind are powers of ten. -/
theorem ofDigitChars_padded (a b : ℕ) (ds : List Char) :
    Nat.ofDigitChars 10 (List.replicate a '0' ++ ds ++ List.replicate b '0') 0 =
      Nat.ofDigitChars 10 ds 0 * 10 ^ b := by
  rw [Nat.ofDigitChars_append, Nat.ofDigitChars_append, Nat.ofDigitChars_replicate_zero,
    Nat.ofDigitChars_replicate_zero]
  simp [mul_comm]

/-- Every layout of the digits denotes the same number. -/
theorem Spells.textValue {s : List Char} (h : Spells s neg ds e) :
    textValue s = decimalValue neg ds e := by
  obtain ⟨ip, fp, ex, a, b, rfl, hne, hip, hfp, -, -, hpad, rfl⟩ := h
  have hlen := congrArg List.length hpad
  simp only [List.length_append, List.length_replicate] at hlen
  rw [textValue_numeral hne hip hfp, decimalValue, hpad, ofDigitChars_padded]
  generalize (ex.bind parseI32).getD 0 = shift
  -- the zeros on the right make up for the shift of the point
  have hpow : (10 : ℚ) ^ ((ip.length : ℤ) - 1 - a + shift + 1 - ds.length) =
      10 ^ b * 10 ^ (shift - ((fp.getD []).length : ℤ)) := by
    rw [← zpow_natCast, ← zpow_add₀ (by norm_num)]
    congr 1
    omega
  rw [hpow]
  push_cast
  simp only [mul_assoc]

/-! ## The layouts of `repr` -/

/-- Digits on both sides of a point, without superfluous zeros at either end. -/
structure Positional (ip fp : List Char) : Prop where
  left : ip ≠ [] ∧ ∀ c ∈ ip, c.isDigit = true
  right : fp ≠ [] ∧ ∀ c ∈ fp, c.isDigit = true
  left_short : ip = ['0'] ∨ ip.head? ≠ some '0'
  right_short : fp = ['0'] ∨ fp.getLast? ≠ some '0'

/-- At least two digits of a number, without superfluous zeros. -/
structure ExponentDigits (k : ℕ) (ex : List Char) : Prop where
  digits : ∀ c ∈ ex, c.isDigit = true
  two : 2 ≤ ex.length
  short : 2 < ex.length → ex.head? ≠ some '0'
  value : Nat.ofDigitChars 10 ex 0 = k

def signText (neg : Bool) : List Char := if neg then ['-'] else []

/-- The first digit, and a point before the others if there are any. -/
def mantissaText (ds : List Char) : List Char :=
  if ds.length = 1 then ds else ds.take 1 ++ '.' :: ds.drop 1

/-- The text of a decimal as `repr` lays it out. -/
structure Renders (d : Decimal) (s : List Char) : Prop where
  /-- the same signed number -/
  value : textValue s = decimalValue d.neg d.digits (leadExponent d)
  /-- positional for exponents from -4 to 15 -/
  positional : -4 ≤ leadExponent d → leadExponent d < 16 →
    ∃ ip fp, Positional ip fp ∧ s = signText d.neg ++ ip ++ '.' :: fp
  /-- scientific for the others -/
  scientific : leadExponent d < -4 ∨ 16 ≤ leadExponent d →
    ∃ ex, ExponentDigits (leadExponent d).natAbs ex ∧
      s = signText d.neg ++ mantissaText d.digits ++
        'e' :: (if leadExponent d < 0 then '-' else '+') :: ex
  repr : s = pyRepr d

/-- Significant digits do not start with a zero. -/
theorem Significant.head?_ne (hds : Significant ds) (rest : List Char) :
    (ds ++ rest).head? ≠ some '0' := by
  obtain ⟨c, tail, rfl, hc⟩ := hds.head_ne
  simpa using hc

/-- They do not end with one. -/
theorem Significant.getLast?_ne (hds : Significant ds) (front : List Char) :
    (front ++ ds).getLast? ≠ some '0' := by
  obtain ⟨init, c, rfl, hc⟩ := hds.last_ne
  rw [← List.append_assoc, List.getLast?_append]
  simpa using hc

/-- For a small exponent the layout is positional. -/
theorem layoutDigits_positional (hds : Significant ds) (neg : Bool) (hlow : -4 ≤ e)
    (hhigh : e < 16) :
    ∃ ip fp, Positional ip fp ∧ layoutDigits neg ds e = signText neg ++ ip ++ '.' :: fp := by
  have hzeros (k : ℕ) : ∀ c ∈ List.replicate k '0', c.isDigit = true := by
    intro c hc
    rw [List.eq_of_mem_replicate hc]
    decide
  unfold layoutDigits
  dsimp only
  rw [if_neg (by omega)]
  by_cases hneg : e < 0
  · -- zeros after the point
    rw [if_pos hneg]
    refine ⟨['0'], List.replicate (-e - 1).toNat '0' ++ ds, ⟨⟨by simp, by simp⟩, ⟨?_, ?_⟩,
      .inl rfl, .inr (Significant.getLast?_ne hds _)⟩, by simp [signText]⟩
    · simp [hds.ne_nil]
    · intro c hc
      rcases List.mem_append.mp hc with hc | hc
      · exact hzeros _ c hc
      · exact hds.isDigit c hc
  rw [if_neg hneg]
  by_cases hlen : ds.length ≤ (e + 1).toNat
  · -- zeros before the point
    rw [if_pos hlen]
    refine ⟨ds ++ List.replicate ((e + 1).toNat - ds.length) '0', ['0'],
      ⟨⟨by simp [hds.ne_nil], isDigit_append_zeros hds.isDigit _⟩, ⟨by simp, by simp⟩,
        .inr (Significant.head?_ne hds _), .inl rfl⟩, by simp [signText]⟩
  · -- the point between two digits
    rw [if_neg hlen]
    have htake : ds.take (e + 1).toNat ≠ [] := by
      simp only [ne_eq, List.take_eq_nil_iff, hds.ne_nil, or_false]
      omega
    have hdrop : ds.drop (e + 1).toNat ≠ [] := by
      simp only [ne_eq, List.drop_eq_nil_iff]
      exact hlen
    have hhead : (ds.take (e + 1).toNat).head? = ds.head? := by
      rw [List.head?_take, if_neg (by omega)]
    have hlast : (ds.drop (e + 1).toNat).getLast? = ds.getLast? := by
      rw [List.getLast?_drop, if_neg (by simpa using hlen)]
    refine ⟨_, _, ⟨⟨htake, fun c hc => hds.isDigit c (List.mem_of_mem_take hc)⟩,
      ⟨hdrop, fun c hc => hds.isDigit c (List.mem_of_mem_drop hc)⟩, .inr ?_, .inr ?_⟩, rfl⟩
    · rw [hhead]
      simpa using Significant.head?_ne hds []
    · rw [hlast]
      simpa using Significant.getLast?_ne hds []

/-- The digits of a positive number do not start with a zero. -/
theorem toDigits_head?_ne {k : ℕ} (hk : 0 < k) : (Nat.toDigits 10 k).head? ≠ some '0' := by
  induction k using Nat.strong_induction_on with
  | _ k ih =>
    by_cases hlt : k < 10
    · rw [Nat.toDigits_of_lt_base hlt]
      interval_cases k <;> decide
    · -- the leading digit is that of a tenth of the number
      rw [Nat.toDigits_of_base_le (by decide) (by omega),
        List.head?_append_of_ne_nil _ Nat.toDigits_ne_nil]
      exact ih (k / 10) (by omega) (by omega)

/-- An exponent is filled up to two digits. -/
theorem exponentDigits_padded (k : ℕ) :
    ExponentDigits k (if (Nat.toDigits 10 k).length < 2 then '0' :: Nat.toDigits 10 k
      else Nat.toDigits 10 k) := by
  have hpos : 0 < (Nat.toDigits 10 k).length := Nat.length_toDigits_pos
  split_ifs with hshort
  · refine ⟨?_, ?_, ?_, ofDigitChars_toDigits k⟩
    · intro c hc
      rcases List.mem_cons.mp hc with rfl | hc
      · decide
      · exact toDigits_isDigit hc
    · rw [List.length_cons]
      omega
    · rw [List.length_cons]
      omega
  · refine ⟨fun c hc => toDigits_isDigit hc, by omega, fun _ => toDigits_head?_ne ?_,
      ofDigitChars_toDigits k⟩
    by_contra hzero
    obtain rfl : k = 0 := by omega
    exact hshort (by decide)

/-- For any other exponent the layout is scientific. -/
theorem layoutDigits_scientific (ds : List Char) (neg : Bool) (hexp : e < -4 ∨ 16 ≤ e) :
    ∃ ex, ExponentDigits e.natAbs ex ∧ layoutDigits neg ds e =
      signText neg ++ mantissaText ds ++ 'e' :: (if e < 0 then '-' else '+') :: ex := by
  refine ⟨_, exponentDigits_padded e.natAbs, ?_⟩
  unfold layoutDigits
  dsimp only
  rw [if_pos hexp.symm]
  rfl

/-- The layout renders the decimal. -/
theorem renders_layoutDigits (d : Decimal) :
    Renders d (layoutDigits d.neg d.digits (leadExponent d)) := by
  refine ⟨Spells.textValue (Decimal.spells_canonical d), ?_, ?_, layoutDigits_eq_pyRepr d⟩
  · intro hlow hhigh
    exact layoutDigits_positional (significant_digits d) d.neg hlow hhigh
  · intro hexp
    exact layoutDigits_scientific d.digits d.neg hexp

/-! ## Doubles -/

variable [Crates]

/-- `py_float` lays out the digits that ryu prints. -/
theorem pyFloat_of_ryuText {v : Float} (hv : v.isFinite = true) (hz : (v == 0.0) = false)
    {d : Decimal} (hd : Crates.ryu v = d.ryuText) :
    pyFloat v = layoutDigits d.neg d.digits (leadExponent d) := by
  obtain ⟨hnan, hinf⟩ := not_nan_of_isFinite hv
  have hscan := (spells_ryuText d).scanDecimal (significant_digits d)
  simp only [pyFloat, hz, hnan, hinf, hd, relayRyu, hscan, Bool.false_eq_true, if_false]
  rfl

/-- `py_float` renders the decimal of every finite non-zero double as `repr` does, the number
that `ryu` printed, and no two finite doubles have the same text. -/
theorem pyFloat_is_repr [RyuReadsBack] :
    (∀ v : Float, v.isFinite = true → (v == 0.0) = false →
      (∃ d : Decimal, Crates.ryu v = d.ryuText) ∧
      ∀ d : Decimal, Crates.ryu v = d.ryuText →
        textValue (Crates.ryu v) = textValue (pyFloat v) ∧ Renders d (pyFloat v)) ∧
    ∀ v w : Float, v.isFinite = true → w.isFinite = true → pyFloat v = pyFloat w → v = w := by
  refine ⟨?_, fun v w hv hw => pyFloat_injective hv hw⟩
  intro v hv hz
  refine ⟨RyuReadsBack.format v hv hz, ?_⟩
  intro d hd
  rw [pyFloat_of_ryuText hv hz hd, hd]
  refine ⟨?_, renders_layoutDigits d⟩
  exact (Spells.textValue (spells_ryuText d)).trans (renders_layoutDigits d).value.symm

end Exodus.Analysis

/-! ## On the sample -/

namespace Exodus.Analysis

open Exodus.Library Exodus.Model Exodus.Interface Exodus.Sample

/-- Two doubles of one digit are rendered: one below the bound for positional texts, one above it.
-/
theorem large_rendered :
    (∃ d : Decimal, Crates.ryu 2000000000.0 = d.ryuText ∧ Renders d (pyFloat 2000000000.0)) ∧
      pyFloat 2000000000.0 = "2000000000.0".toList ∧
      (∃ d : Decimal, Crates.ryu 1e22 = d.ryuText ∧ Renders d (pyFloat 1e22)) ∧
      Crates.ryu 1e22 = "1e22".toList ∧ pyFloat 1e22 = "1e+22".toList := by
  have hrenders (v : Float) (hfinite : v.isFinite = true) (hne : (v == 0.0) = false) :
      ∃ d : Decimal, Crates.ryu v = d.ryuText ∧ Renders d (pyFloat v) := by
    obtain ⟨⟨d, hd⟩, hrender⟩ := pyFloat_is_repr.1 v hfinite hne
    exact ⟨d, hd, (hrender d hd).2⟩
  exact ⟨hrenders _ (by decide +kernel) (by decide +kernel), by decide +kernel,
    hrenders _ (by decide +kernel) (by decide +kernel), by decide +kernel, by decide +kernel⟩

end Exodus.Analysis
