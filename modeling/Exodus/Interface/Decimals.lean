import Exodus.Model.Crypto

/-!
# The texts of numbers

`py_float` lays out anew what `ryu` printed.  `scanDecimal` reads the sign, the digits
and the exponent out of both layouts, so the canonical text of a double determines the
double, and differs from the text of any integer.
-/

set_option autoImplicit false

namespace Exodus.Interface

open Exodus.Library Exodus.Model

/-! ## Integers -/

/-- The digits of a number are digits. -/
theorem toDigits_isDigit {n : ℕ} {c : Char} (hc : c ∈ Nat.toDigits 10 n) : c.isDigit = true :=
  Nat.isDigit_of_mem_toDigits (by decide) (by decide) hc

/-- A number is determined by its digits. -/
theorem toDigits_injective {n m : ℕ} (h : Nat.toDigits 10 n = Nat.toDigits 10 m) : n = m := by
  calc
    n = Nat.ofDigitChars 10 (Nat.toDigits 10 n) 0 := Nat.ofDigitChars_ten_toDigits.symm
    _ = Nat.ofDigitChars 10 (Nat.toDigits 10 m) 0 := by rw [h]
    _ = m := Nat.ofDigitChars_ten_toDigits

/-- The minus sign is not a digit. -/
theorem minus_not_isDigit : ('-').isDigit = false := by decide

/-- The text of an integer has only digits and a minus. -/
theorem mem_intChars {i : ℤ} {c : Char} (hc : c ∈ intChars i) : c.isDigit = true ∨ c = '-' := by
  unfold intChars at hc
  split_ifs at hc
  · rcases List.mem_cons.mp hc with rfl | hc
    · exact .inr rfl
    · exact .inl (toDigits_isDigit hc)
  · exact .inl (toDigits_isDigit hc)

/-- An integer is determined by its text. -/
theorem intChars_injective {i j : ℤ} (h : intChars i = intChars j) : i = j := by
  have hdigit (n m : ℕ) : '-' :: Nat.toDigits 10 n ≠ Nat.toDigits 10 m := by
    intro heq
    have : ('-').isDigit = true := toDigits_isDigit (heq ▸ List.mem_cons_self)
    simp [minus_not_isDigit] at this
  unfold intChars at h
  split_ifs at h with hi hj hj
  · have := toDigits_injective (List.cons.inj h).2
    omega
  · exact absurd h (hdigit _ _)
  · exact absurd h.symm (hdigit _ _)
  · have := toDigits_injective h
    omega

/-! ## Reading numbers -/

/-- A text is cut at the first place of a character. -/
theorem cutAt_append {c : Char} {x y : List Char} (hx : c ∉ x) :
    cutAt c (x ++ c :: y) = some (x, y) := by
  induction x with
  | nil => simp [cutAt]
  | cons d x ih =>
    have hd : d ≠ c := fun h => hx (by simp [h])
    simp [cutAt, hd, ih fun h => hx (by simp [h])]

/-- It is not cut at a character that it does not have. -/
theorem cutAt_eq_none {c : Char} {x : List Char} (hx : c ∉ x) : cutAt c x = none := by
  induction x with
  | nil => rfl
  | cons d x ih =>
    have hd : d ≠ c := fun h => hx (by simp [h])
    simp [cutAt, hd, ih fun h => hx (by simp [h])]

/-- Digits alone have no sign. -/
theorem splitSign_of_isDigit {ds : List Char} (hds : ∀ c ∈ ds, c.isDigit = true) :
    splitSign ds = (false, ds) := by
  unfold splitSign
  split
  · have := hds '-' (by simp)
    simp [minus_not_isDigit] at this
  · exact absurd (hds '+' (by simp)) (by decide)
  · rfl

/-- A sign and digits, also with zeros in front, are read as the number they spell. -/
theorem parseI32_of_splitSign {s ds : List Char} {neg : Bool} (hs : splitSign s = (neg, ds))
    (hne : ds ≠ []) (hds : ∀ c ∈ ds, c.isDigit = true) (hlt : Nat.ofDigitChars 10 ds 0 < 2 ^ 31) :
    parseI32 s = some (if neg then -(Nat.ofDigitChars 10 ds 0 : ℤ)
      else (Nat.ofDigitChars 10 ds 0 : ℤ)) := by
  have hall : ds.all Char.isDigit = true := List.all_eq_true.mpr hds
  unfold parseI32
  simp only [hs, hne, ne_eq, not_false_eq_true, hall, and_self, if_true]
  split_ifs <;> first | rfl | omega

/-- A number is read back from its digits. -/
theorem ofDigitChars_toDigits (n : ℕ) : Nat.ofDigitChars 10 (Nat.toDigits 10 n) 0 = n :=
  Nat.ofDigitChars_ten_toDigits

/-- An `i32` is read back from its text. -/
theorem parseI32_intChars {i : ℤ} (hi : -2 ^ 31 < i ∧ i < 2 ^ 31) :
    parseI32 (intChars i) = some i := by
  have hds : ∀ c ∈ Nat.toDigits 10 i.natAbs, c.isDigit = true := fun c hc => toDigits_isDigit hc
  have hlt : Nat.ofDigitChars 10 (Nat.toDigits 10 i.natAbs) 0 < 2 ^ 31 := by
    rw [ofDigitChars_toDigits]
    omega
  unfold intChars
  split_ifs with hneg
  · rw [parseI32_of_splitSign (rfl : splitSign ('-' :: _) = (true, _)) Nat.toDigits_ne_nil hds hlt,
      ofDigitChars_toDigits, if_pos rfl]
    congr 1
    omega
  · rw [parseI32_of_splitSign (splitSign_of_isDigit hds) Nat.toDigits_ne_nil hds hlt,
      ofDigitChars_toDigits]
    simp only [Bool.false_eq_true, if_false]
    congr 1
    omega

/-! ## Numerals -/

/-- A sign, integer digits, and perhaps a fraction and an exponent. -/
def numeral (neg : Bool) (ip : List Char) (fp ex : Option (List Char)) : List Char :=
  (if neg then ['-'] else []) ++
    (ip ++ (match fp with | none => [] | some fp => '.' :: fp) ++
      (match ex with | none => [] | some ex => 'e' :: ex))

/-- Digits without a zero at either end. -/
structure Significant (ds : List Char) : Prop where
  isDigit : ∀ c ∈ ds, c.isDigit = true
  head_ne : ∃ c rest, ds = c :: rest ∧ c ≠ '0'
  last_ne : ∃ rest c, ds = rest ++ [c] ∧ c ≠ '0'

/-- The digits of a decimal neither start nor end with a zero. -/
theorem significant_digits (d : Decimal) : Significant d.digits :=
  ⟨d.digits_isDigit, d.head_ne, d.last_ne⟩

/-- Such digits are not empty. -/
theorem Significant.ne_nil {ds : List Char} (h : Significant ds) : ds ≠ [] := by
  obtain ⟨c, rest, rfl, -⟩ := h.head_ne
  simp

/-- Leading zeros are dropped. -/
theorem dropWhile_replicate_append {ds : List Char} (a : ℕ)
    (h : ∃ c rest, ds = c :: rest ∧ c ≠ '0') :
    (List.replicate a '0' ++ ds).dropWhile (· = '0') = ds := by
  obtain ⟨c, rest, rfl, hc⟩ := h
  induction a with
  | zero => simp [hc]
  | succ a ih => simpa [List.replicate_succ] using ih

/-- Zeros on both sides are dropped. -/
theorem trimZeros_padded {ds : List Char} (h : Significant ds) (a b : ℕ) :
    trimZeros (List.replicate a '0' ++ ds ++ List.replicate b '0') = ds := by
  obtain ⟨c, rest, hhead, hc⟩ := h.head_ne
  obtain ⟨init, z, hlast, hz⟩ := h.last_ne
  unfold trimZeros
  rw [List.append_assoc, dropWhile_replicate_append a ⟨c, rest ++ List.replicate b '0',
    by rw [hhead]; rfl, hc⟩, List.reverse_append, List.reverse_replicate,
    dropWhile_replicate_append b ⟨z, init.reverse, by rw [hlast]; simp, hz⟩, List.reverse_reverse]

/-- The first digit that is not a zero stands behind the leading zeros. -/
theorem findIdx?_padded {ds tail : List Char} (h : ∃ c rest, ds = c :: rest ∧ c ≠ '0') (a : ℕ) :
    (List.replicate a '0' ++ ds ++ tail).findIdx? (· ≠ '0') = some a := by
  obtain ⟨c, rest, rfl, hc⟩ := h
  induction a with
  | zero => simp [List.findIdx?_cons, hc]
  | succ a ih =>
    rw [List.replicate_succ, List.cons_append, List.cons_append, List.findIdx?_cons, ih]
    simp

/-- A digit is none of the other characters. -/
theorem ne_of_isDigit {c x : Char} (hc : c.isDigit = true) (hx : x.isDigit = false) : c ≠ x :=
  fun h => by simp [h, hx] at hc

/-- The exponent of a numeral is found, and read if it is an `i32`. -/
theorem splitExponent_numeral {ip : List Char} {fp : Option (List Char)}
    (ex : Option (List Char)) (hip : ∀ c ∈ ip, c.isDigit = true)
    (hfp : ∀ t ∈ fp, ∀ c ∈ t, c.isDigit = true) :
    splitExponent (numeral false ip fp ex) = (numeral false ip fp none, ex.bind parseI32) := by
  have hnoe : 'e' ∉ numeral false ip fp none := by
    intro hmem
    cases fp with
    | none => exact ne_of_isDigit (hip 'e' (by simpa [numeral] using hmem)) (by decide) rfl
    | some t =>
      have hmem' : 'e' ∈ ip ∨ 'e' ∈ t := by simpa [numeral] using hmem
      rcases hmem' with h | h
      · exact ne_of_isDigit (hip 'e' h) (by decide) rfl
      · exact ne_of_isDigit (hfp t rfl 'e' h) (by decide) rfl
  unfold splitExponent
  cases ex with
  | none => rw [cutAt_eq_none hnoe]; rfl
  | some e =>
    have hsplit : numeral false ip fp (some e) = numeral false ip fp none ++ 'e' :: e := by
      simp [numeral]
    rw [hsplit, cutAt_append hnoe]
    rfl

/-- So are the parts before and behind the point. -/
theorem splitPoint_numeral {ip : List Char} (fp : Option (List Char))
    (hip : ∀ c ∈ ip, c.isDigit = true) :
    splitPoint (numeral false ip fp none) = (ip, fp.getD []) := by
  have hnodot : '.' ∉ ip := fun h => ne_of_isDigit (hip '.' h) (by decide) rfl
  unfold splitPoint
  cases fp with
  | none =>
    have hip' : numeral false ip none none = ip := by simp [numeral]
    rw [hip', cutAt_eq_none hnodot]
    rfl
  | some t =>
    have hsplit : numeral false ip (some t) none = ip ++ '.' :: t := by simp [numeral]
    rw [hsplit, cutAt_append hnodot]
    rfl

/-- What `scanDecimal` reads in a numeral whose digits are padded with zeros. -/
theorem scanDecimal_numeral {neg : Bool} {ip : List Char} {fp ex : Option (List Char)}
    {ds : List Char} {a b : ℕ} (hds : Significant ds) (hne : ip ≠ [])
    (hip : ∀ c ∈ ip, c.isDigit = true) (hfp : ∀ t ∈ fp, ∀ c ∈ t, c.isDigit = true)
    (hpad : ip ++ fp.getD [] = List.replicate a '0' ++ ds ++ List.replicate b '0') :
    scanDecimal (numeral neg ip fp ex) =
      (neg, ds, (ip.length : ℤ) - 1 - a + (ex.bind parseI32).getD 0) := by
  have hneg : decide ((numeral neg ip fp ex).head? = some '-') = neg := by
    obtain ⟨c, rest, rfl⟩ := List.exists_cons_of_ne_nil hne
    cases neg with
    | true => simp [numeral]
    | false =>
      have := ne_of_isDigit (hip c (by simp)) minus_not_isDigit
      simp [numeral, this]
  have hdrop : (if neg then (numeral neg ip fp ex).drop 1 else numeral neg ip fp ex) =
      numeral false ip fp ex := by
    cases neg <;> simp [numeral]
  have hparts := splitExponent_numeral ex hip hfp
  have hmantissa := splitPoint_numeral fp hip
  have htrim := trimZeros_padded hds a b
  unfold scanDecimal
  simp only [hneg, hdrop, hparts, hmantissa, hpad, htrim, hds.ne_nil, if_false,
    findIdx?_padded hds.head_ne, Option.getD_some]

/-! ## The two layouts -/

/-- The text is a numeral of the sign, the digits and the exponent of the leading one,
with a point or an exponent in it. -/
def Spells (s : List Char) (neg : Bool) (ds : List Char) (leadExp : ℤ) : Prop :=
  ∃ (ip : List Char) (fp ex : Option (List Char)) (a b : ℕ),
    s = numeral neg ip fp ex ∧ ip ≠ [] ∧ (∀ c ∈ ip, c.isDigit = true) ∧
    (∀ t ∈ fp, ∀ c ∈ t, c.isDigit = true) ∧
    (∀ t ∈ ex, ∀ c ∈ t, c.isDigit = true ∨ c = '+' ∨ c = '-') ∧
    (fp.isSome = true ∨ ex.isSome = true) ∧
    ip ++ fp.getD [] = List.replicate a '0' ++ ds ++ List.replicate b '0' ∧
    leadExp = (ip.length : ℤ) - 1 - a + (ex.bind parseI32).getD 0

/-- The scanner finds the sign, the digits and the exponent of a spelt decimal. -/
theorem Spells.scanDecimal {s ds : List Char} {neg : Bool} {e : ℤ} (h : Spells s neg ds e)
    (hds : Significant ds) : scanDecimal s = (neg, ds, e) := by
  obtain ⟨ip, fp, ex, a, b, rfl, hne, hip, hfp, -, -, hpad, rfl⟩ := h
  exact scanDecimal_numeral hds hne hip hfp hpad

/-- Digits with zeros behind them are digits. -/
theorem isDigit_append_zeros {ds : List Char} (hds : ∀ c ∈ ds, c.isDigit = true) (k : ℕ) :
    ∀ c ∈ ds ++ List.replicate k '0', c.isDigit = true := by
  intro c hc
  rcases List.mem_append.mp hc with hc | hc
  · exact hds c hc
  · rw [List.eq_of_mem_replicate hc]
    decide

/-- Digits, zeros and a point: `12340000000.0`. -/
theorem spells_integral {ds : List Char} (hds : Significant ds) (neg : Bool) (k : ℕ) :
    Spells (numeral neg (ds ++ List.replicate k '0') (some ['0']) none) neg ds
      ((ds.length : ℤ) + k - 1) := by
  refine ⟨_, _, _, 0, k + 1, rfl, by simp [hds.ne_nil], isDigit_append_zeros hds.isDigit k,
    by simp, by simp, by simp, ?_, ?_⟩
  · simp [List.replicate_succ', ← List.append_assoc]
  · simp

/-- A point between digits: `12.34`. -/
theorem spells_split {ds : List Char} (hds : Significant ds) (neg : Bool) (k : ℕ) (hpos : 0 < k)
    (hk : k < ds.length) :
    Spells (numeral neg (ds.take k) (some (ds.drop k)) none) neg ds ((k : ℤ) - 1) := by
  refine ⟨_, _, _, 0, 0, rfl, ?_, fun c hc => hds.isDigit c (List.mem_of_mem_take hc), ?_,
    by simp, by simp, by simp, ?_⟩
  · intro h
    simp only [List.take_eq_nil_iff] at h
    rcases h with h | h
    · omega
    · exact hds.ne_nil h
  · rintro t ⟨⟩ c hc
    exact hds.isDigit c (List.mem_of_mem_drop hc)
  · simp [List.length_take, hk.le]

/-- Zeros after the point: `0.001234`. -/
theorem spells_fraction {ds : List Char} (hds : Significant ds) (neg : Bool) (k : ℕ) :
    Spells (numeral neg ['0'] (some (List.replicate k '0' ++ ds)) none) neg ds (-(k : ℤ) - 1) := by
  refine ⟨_, _, _, k + 1, 0, rfl, by simp, by simp, ?_, by simp, by simp, ?_, ?_⟩
  · rintro t ⟨⟩ c hc
    rcases List.mem_append.mp hc with hc | hc
    · rw [List.eq_of_mem_replicate hc]
      decide
    · exact hds.isDigit c hc
  · simp [List.replicate_succ]
  · simp
    omega

/-- A mantissa and an exponent: `1e30`, `1.234e33`. -/
theorem spells_scientific {ds ex : List Char} (hds : Significant ds) (neg : Bool) {e : ℤ}
    (hex : ∀ c ∈ ex, c.isDigit = true ∨ c = '+' ∨ c = '-') (he : parseI32 ex = some e) :
    Spells (numeral neg (ds.take 1) (if ds.length = 1 then none else some (ds.drop 1)) (some ex))
      neg ds e := by
  obtain ⟨c, rest, rfl, hc⟩ := hds.head_ne
  refine ⟨_, _, _, 0, 0, rfl, by simp, ?_, ?_, by simpa using hex, by simp, ?_, ?_⟩
  · intro x hx
    exact hds.isDigit x (List.mem_of_mem_take hx)
  · intro t ht x hx
    split_ifs at ht
    · simp at ht
    · cases ht
      exact hds.isDigit x (List.mem_of_mem_drop hx)
  · by_cases hr : rest = [] <;> simp [hr]
  · simp [he]

/-- The text of `ryu` spells the digits with their exponent. -/
theorem spells_ryuText (d : Decimal) : Spells d.ryuText d.neg d.digits (d.exponent - 1) := by
  have hds := significant_digits d
  have hbound := d.exponent_bound
  have hexp : parseI32 (intChars (d.exponent - 1)) = some (d.exponent - 1) :=
    parseI32_intChars (by omega)
  have hchars : ∀ c ∈ intChars (d.exponent - 1), c.isDigit = true ∨ c = '+' ∨ c = '-' := by
    intro c hc
    rcases mem_intChars hc with h | h
    · exact .inl h
    · exact .inr (.inr h)
  unfold Decimal.ryuText
  dsimp only
  by_cases h1 : (d.digits.length : ℤ) ≤ d.exponent ∧ d.exponent ≤ 16
  · rw [if_pos h1]
    have h := spells_integral hds d.neg (d.exponent - d.digits.length).toNat
    rw [show (d.digits.length : ℤ) + (d.exponent - d.digits.length).toNat - 1 = d.exponent - 1 by
      omega] at h
    simpa [numeral] using h
  rw [if_neg h1]
  by_cases h2 : 0 < d.exponent ∧ d.exponent ≤ 16
  · rw [if_pos h2]
    have h := spells_split hds d.neg d.exponent.toNat (by omega) (by omega)
    rw [show (d.exponent.toNat : ℤ) - 1 = d.exponent - 1 by omega] at h
    simpa [numeral] using h
  rw [if_neg h2]
  by_cases h3 : -5 < d.exponent ∧ d.exponent ≤ 0
  · rw [if_pos h3]
    have h := spells_fraction hds d.neg (-d.exponent).toNat
    rw [show -((-d.exponent).toNat : ℤ) - 1 = d.exponent - 1 by omega] at h
    simpa [numeral] using h
  rw [if_neg h3]
  have h := spells_scientific hds d.neg hchars hexp
  by_cases h4 : (d.digits.length : ℤ) = 1
  · have hlen : d.digits.length = 1 := by omega
    rw [if_pos hlen, List.take_of_length_le hlen.le] at h
    rw [if_pos h4]
    simpa [numeral] using h
  · have hlen : d.digits.length ≠ 1 := by omega
    rw [if_neg hlen] at h
    rw [if_neg h4]
    simpa [numeral] using h

/-- The exponent of `py_float`: a sign and at least two digits. -/
def exponentText (e : ℤ) : List Char :=
  (if e < 0 then '-' else '+') :: if (Nat.toDigits 10 e.natAbs).length < 2 then
    '0' :: Nat.toDigits 10 e.natAbs else Nat.toDigits 10 e.natAbs

/-- The text of an exponent has a sign or digits, and is read back. -/
theorem exponentText_spec {e : ℤ} (hbound : -2 ^ 31 < e ∧ e < 2 ^ 31) :
    (∀ c ∈ exponentText e, c.isDigit = true ∨ c = '+' ∨ c = '-') ∧
      parseI32 (exponentText e) = some e := by
  unfold exponentText
  generalize hp : (if (Nat.toDigits 10 e.natAbs).length < 2 then '0' :: Nat.toDigits 10 e.natAbs
    else Nat.toDigits 10 e.natAbs) = padded
  have hpadded : (∀ c ∈ padded, c.isDigit = true) ∧ padded ≠ [] ∧
      Nat.ofDigitChars 10 padded 0 = e.natAbs := by
    rw [← hp]
    split_ifs
    · refine ⟨fun c hc => ?_, by simp, ?_⟩
      · rcases List.mem_cons.mp hc with rfl | hc
        · decide
        · exact toDigits_isDigit hc
      · exact ofDigitChars_toDigits _
    · exact ⟨fun c hc => toDigits_isDigit hc, Nat.toDigits_ne_nil, ofDigitChars_toDigits _⟩
  obtain ⟨hdigit, hne, hvalue⟩ := hpadded
  refine ⟨fun c hc => ?_, ?_⟩
  · rcases List.mem_cons.mp hc with rfl | hc
    · split_ifs <;> simp
    · exact .inl (hdigit c hc)
  · have hlt : Nat.ofDigitChars 10 padded 0 < 2 ^ 31 := by omega
    split_ifs with hneg
    · rw [parseI32_of_splitSign (rfl : splitSign ('-' :: _) = (true, _)) hne hdigit hlt, hvalue, if_pos rfl]
      congr 1
      omega
    · rw [parseI32_of_splitSign (rfl : splitSign ('+' :: _) = (false, _)) hne hdigit hlt, hvalue]
      simp only [Bool.false_eq_true, if_false]
      congr 1
      omega

/-- The text of `py_float` spells the digits with their exponent. -/
theorem spells_layoutDigits {ds : List Char} (hds : Significant ds) (neg : Bool) {e : ℤ}
    (hbound : -2 ^ 31 < e ∧ e < 2 ^ 31) : Spells (layoutDigits neg ds e) neg ds e := by
  unfold layoutDigits
  dsimp only
  by_cases h1 : 16 ≤ e ∨ e < -4
  · rw [if_pos h1]
    obtain ⟨hchars, hexp⟩ := exponentText_spec hbound
    have h := spells_scientific hds neg hchars hexp
    by_cases hlen : ds.length = 1
    · rw [if_pos hlen, List.take_of_length_le hlen.le] at h
      rw [if_pos hlen]
      simpa [numeral, exponentText] using h
    · rw [if_neg hlen] at h
      rw [if_neg hlen]
      simpa [numeral, exponentText] using h
  rw [if_neg h1]
  by_cases h2 : e < 0
  · rw [if_pos h2]
    have h := spells_fraction hds neg (-e - 1).toNat
    rw [show -((-e - 1).toNat : ℤ) - 1 = e by omega] at h
    simpa [numeral] using h
  rw [if_neg h2]
  by_cases h3 : ds.length ≤ (e + 1).toNat
  · rw [if_pos h3]
    have h := spells_integral hds neg ((e + 1).toNat - ds.length)
    rw [show (ds.length : ℤ) + ((e + 1).toNat - ds.length : ℕ) - 1 = e by omega] at h
    simpa [numeral] using h
  · rw [if_neg h3]
    have h := spells_split hds neg (e + 1).toNat (by omega) (by omega)
    rw [show ((e + 1).toNat : ℤ) - 1 = e by omega] at h
    simpa [numeral] using h

/-- The canonical layout spells the decimal. -/
theorem Decimal.spells_canonical (d : Decimal) :
    Spells (layoutDigits d.neg d.digits (d.exponent - 1)) d.neg d.digits (d.exponent - 1) := by
  have := d.exponent_bound
  exact spells_layoutDigits (significant_digits d) d.neg (by omega)

/-- The characters of a number's text. -/
def NumeralChar (c : Char) : Prop := c.isDigit = true ∨ c = '-' ∨ c = '+' ∨ c = '.' ∨ c = 'e'

/-- The text of an integer has characters of numbers only. -/
theorem numeralChar_intChars (i : ℤ) : ∀ c ∈ intChars i, NumeralChar c := by
  intro c hc
  rcases mem_intChars hc with h | h
  · exact .inl h
  · exact .inr (.inl h)

/-- So has every text that spells a decimal. -/
theorem Spells.numeralChars {s ds : List Char} {neg : Bool} {e : ℤ} (h : Spells s neg ds e) :
    ∀ c ∈ s, NumeralChar c := by
  obtain ⟨ip, fp, ex, a, b, rfl, -, hip, hfp, hex, -, -, -⟩ := h
  intro c hc
  unfold numeral at hc
  rcases List.mem_append.mp hc with hc | hc
  · split_ifs at hc
    · exact .inr (.inl (by simpa using hc))
    · simp at hc
  rcases List.mem_append.mp hc with hc | hc
  · rcases List.mem_append.mp hc with hc | hc
    · exact .inl (hip c hc)
    · cases fp with
      | none => simp at hc
      | some t =>
        rcases List.mem_cons.mp hc with rfl | hc
        · exact .inr (.inr (.inr (.inl rfl)))
        · exact .inl (hfp t rfl c hc)
  · cases ex with
    | none => simp at hc
    | some t =>
      rcases List.mem_cons.mp hc with rfl | hc
      · exact .inr (.inr (.inr (.inr rfl)))
      · rcases hex t rfl c hc with h | h | h
        · exact .inl h
        · exact .inr (.inr (.inl h))
        · exact .inr (.inl h)

/-- A point or an exponent tells the text from that of an integer. -/
theorem Spells.ne_intChars {s ds : List Char} {neg : Bool} {e : ℤ} (h : Spells s neg ds e)
    (i : ℤ) : s ≠ intChars i := by
  obtain ⟨ip, fp, ex, a, b, rfl, -, -, -, -, hmark, -, -⟩ := h
  intro heq
  have hno (c : Char) (hc : c.isDigit = false) (hm : c ≠ '-') : c ∉ numeral neg ip fp ex := by
    rw [heq]
    intro hmem
    rcases mem_intChars hmem with h | h
    · simp [hc] at h
    · exact hm h
  rcases hmark with h | h
  · obtain ⟨t, rfl⟩ := Option.isSome_iff_exists.mp h
    exact hno '.' (by decide) (by decide) (by simp [numeral])
  · obtain ⟨t, rfl⟩ := Option.isSome_iff_exists.mp h
    exact hno 'e' (by decide) (by decide) (by simp [numeral])

/-! ## Doubles -/

variable [Crates] [RyuReadsBack]

/-- The canonical text of a finite double: a signed zero, or the digits of `ryu`. -/
theorem pyFloat_cases {v : Float} (hv : v.isFinite = true) :
    ((v == 0.0) = true ∧ pyFloat v = if isSignNegative v then ['-', '0', '.', '0']
      else ['0', '.', '0']) ∨
    (v == 0.0) = false ∧ ∃ d : Decimal, Crates.ryu v = d.ryuText ∧
      pyFloat v = layoutDigits d.neg d.digits (d.exponent - 1) := by
  obtain ⟨hnan, hinf⟩ := not_nan_of_isFinite hv
  cases hz : v == 0.0 with
  | true => exact .inl ⟨rfl, by simp [pyFloat, hz]⟩
  | false =>
    obtain ⟨d, hd⟩ := RyuReadsBack.format v hv hz
    refine .inr ⟨rfl, d, hd, ?_⟩
    have hscan := (spells_ryuText d).scanDecimal (significant_digits d)
    simp only [pyFloat, hz, hnan, hinf, hd, relayRyu, hscan, Bool.false_eq_true, if_false]

/-- Finite doubles with the same canonical text are the same. -/
theorem pyFloat_injective {v w : Float} (hv : v.isFinite = true) (hw : w.isFinite = true)
    (h : pyFloat v = pyFloat w) : v = w := by
  -- reading a zero gives the digit 0, which is not significant
  have hzero (u : Float) (d : Decimal) :
      (if isSignNegative u then ['-', '0', '.', '0'] else ['0', '.', '0']) ≠
        layoutDigits d.neg d.digits (d.exponent - 1) := by
    intro heq
    have hscan := (Decimal.spells_canonical d).scanDecimal (significant_digits d)
    rw [← heq] at hscan
    have hdigits : d.digits = ['0'] := by
      have := congrArg (fun t => t.2.1) hscan
      split_ifs at this
      · exact this.symm
      · exact this.symm
    obtain ⟨c, rest, hc, hne⟩ := d.head_ne
    rw [hdigits] at hc
    exact hne (List.cons.inj hc).1.symm
  rcases pyFloat_cases hv with ⟨hvz, hvt⟩ | ⟨hvz, d, hvd, hvt⟩ <;>
    rcases pyFloat_cases hw with ⟨hwz, hwt⟩ | ⟨hwz, d', hwd, hwt⟩ <;> rw [hvt, hwt] at h
  · refine eq_of_beq_zero hvz hwz ?_
    cases h1 : isSignNegative v <;> cases h2 : isSignNegative w <;> simp_all
  · exact absurd h (hzero v d')
  · exact absurd h.symm (hzero w d)
  · have h1 := (Decimal.spells_canonical d).scanDecimal (significant_digits d)
    have h2 := (Decimal.spells_canonical d').scanDecimal (significant_digits d')
    rw [h, h2] at h1
    refine RyuReadsBack.inj v w hv hw hvz hwz ?_
    have hneg : d'.neg = d.neg := congrArg Prod.fst h1
    have hdig : d'.digits = d.digits := congrArg (fun t => t.2.1) h1
    have hexp : d'.exponent = d.exponent := by
      have : d'.exponent - 1 = d.exponent - 1 := congrArg (fun t => t.2.2) h1
      omega
    rw [hvd, hwd]
    simp only [Decimal.ryuText, hneg, hdig, hexp]

end Exodus.Interface
