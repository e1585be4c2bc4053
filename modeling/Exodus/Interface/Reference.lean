import Exodus.Interface.Canonical
import Exodus.Library.Table

/-!
# A reference instance of the crates

The results of this development rest on properties of the crates: `serde_json` reads back
what it wrote, `ryu` tells doubles apart, no two byte strings have one SHA-256 digest.
`crates` meets all of them at once, so they do not contradict each other.  On a small
sample of keys, claims and blocks it has the values of the real crates.
-/

set_option autoImplicit false

namespace Exodus.Reference

open Exodus.Library Exodus.Model Exodus.Interface

/-! ## Decimals -/

/-- One significant digit. -/
def digitDecimal (c : Char) (hc : c.isDigit = true) (hne : c ≠ '0') (exponent : ℤ)
    (hexp : -400 ≤ exponent ∧ exponent ≤ 400) : Decimal where
  neg := false
  digits := [c]
  exponent
  digits_isDigit d hd := by rwa [List.mem_singleton.mp hd]
  head_ne := ⟨c, [], rfl, hne⟩
  last_ne := ⟨[], c, rfl, hne⟩
  exponent_bound := hexp

/-- A bit as a digit that is not zero. -/
def bitDigit (b : UInt64) (i : ℕ) : Char := if b.toNat.testBit i then '2' else '1'

/-- The digits for the bits are digits. -/
theorem bitDigit_isDigit (b : UInt64) (i : ℕ) : (bitDigit b i).isDigit = true := by
  unfold bitDigit
  split_ifs <;> rfl

/-- None of them is a zero. -/
theorem bitDigit_ne (b : UInt64) (i : ℕ) : bitDigit b i ≠ '0' := by
  unfold bitDigit
  split_ifs <;> decide

def bitDigits (b : UInt64) : List Char := (List.range 64).map (bitDigit b)

/-- The bits of a double as digits. -/
def bitsDecimal (b : UInt64) : Decimal where
  neg := false
  digits := bitDigits b
  exponent := 400
  digits_isDigit c hc := by
    obtain ⟨i, -, rfl⟩ := List.mem_map.mp hc
    exact bitDigit_isDigit b i
  head_ne := ⟨bitDigit b 0, _, rfl, bitDigit_ne b 0⟩
  last_ne := ⟨(List.range 63).map (bitDigit b), bitDigit b 63,
    by rw [bitDigits, List.range_succ, List.map_append]; rfl, bitDigit_ne b 63⟩
  exponent_bound := by decide

/-- The shortest decimals of the doubles in the sample, by their bits. -/
def sampleDecimals : List (UInt64 × Decimal) := [
  ((1.0 : Float).toBits, digitDecimal '1' rfl (by decide) 1 (by decide)),
  ((2000000000.0 : Float).toBits, digitDecimal '2' rfl (by decide) 10 (by decide)),
  ((1e22 : Float).toBits, digitDecimal '1' rfl (by decide) 23 (by decide))]

/-- The decimal that a double is printed as; one outside the sample keeps its bits. -/
def decimalOf (v : Float) : Decimal :=
  (sampleDecimals.lookup v.toBits).getD (bitsDecimal v.toBits)

def ryu (v : Float) : List Char := (decimalOf v).ryuText

/-- They determine the bits. -/
theorem bitDigits_injective {a b : UInt64} (h : bitDigits a = bitDigits b) : a = b := by
  refine UInt64.toNat_inj.mp (Nat.eq_of_testBit_eq fun i => ?_)
  rcases lt_or_ge i 64 with hi | hi
  · have hpoint := congrArg (fun l => l[i]?) h
    simp only [bitDigits, List.getElem?_map, List.getElem?_range hi, Option.map_some,
      Option.some.injEq] at hpoint
    by_cases ha : a.toNat.testBit i <;> by_cases hb : b.toNat.testBit i <;>
      simp_all [bitDigit]
  · have hbound (x : UInt64) : x.toNat < 2 ^ i :=
      x.toNat_lt.trans_le (Nat.pow_le_pow_right (by decide) hi)
    rw [Nat.testBit_eq_false_of_lt (hbound a), Nat.testBit_eq_false_of_lt (hbound b)]

/-- The text of the filler decimal has its digits and a fixed exponent. -/
theorem ryuText_bitsDecimal (b : UInt64) :
    (bitsDecimal b).ryuText =
      (bitDigits b).take 1 ++ '.' :: (bitDigits b).drop 1 ++ ['e', '3', '9', '9'] := by
  have hlen : (bitDigits b).length = 64 := by simp [bitDigits]
  simp only [Decimal.ryuText, bitsDecimal, hlen]
  rfl

/-- It determines the bits. -/
theorem ryuText_bitsDecimal_injective {a b : UInt64}
    (h : (bitsDecimal a).ryuText = (bitsDecimal b).ryuText) : a = b := by
  rw [ryuText_bitsDecimal, ryuText_bitsDecimal] at h
  have hfront := List.append_cancel_right h
  obtain ⟨hhead, htail⟩ := List.append_inj hfront (by simp [bitDigits])
  refine bitDigits_injective ?_
  rw [← List.take_append_drop 1 (bitDigits a), hhead, (List.cons.inj htail).2,
    List.take_append_drop]

/-- It is longer than any of the sample. -/
theorem length_ryuText_bitsDecimal (b : UInt64) : (bitsDecimal b).ryuText.length = 69 := by
  rw [ryuText_bitsDecimal]
  simp [bitDigits]

/-- A double has the decimal of the sample, or the filler. -/
theorem ryu_cases (v : Float) :
    (∃ d, (v.toBits, d) ∈ sampleDecimals ∧ ryu v = d.ryuText) ∨
      ryu v = (bitsDecimal v.toBits).ryuText := by
  unfold ryu decimalOf
  cases h : sampleDecimals.lookup v.toBits with
  | none => exact .inr rfl
  | some d => exact .inl ⟨d, mem_of_lookup h, rfl⟩

/-- The texts of the sample are shorter than those of the bits. -/
theorem sample_ryuText_ne {e : UInt64 × Decimal} (he : e ∈ sampleDecimals) (b : UInt64) :
    e.2.ryuText ≠ (bitsDecimal b).ryuText := by
  have hshort : ∀ e ∈ sampleDecimals, e.2.ryuText.length < 69 := by decide
  intro h
  have hlt := hshort e he
  rw [h, length_ryuText_bitsDecimal] at hlt
  exact lt_irrefl _ hlt

/-- The texts of two doubles differ. -/
theorem ryu_injective : Function.Injective ryu := by
  have hnodup : (sampleDecimals.map fun e => e.2.ryuText).Nodup := by decide
  intro v w h
  refine toBits_injective ?_
  rcases ryu_cases v with ⟨d, hd, hv⟩ | hv <;> rcases ryu_cases w with ⟨e, he, hw⟩ | hw <;>
    rw [hv, hw] at h
  · exact congrArg Prod.fst (List.inj_on_of_nodup_map hnodup hd he h)
  · exact absurd h (sample_ryuText_ne hd _)
  · exact absurd h.symm (sample_ryuText_ne he _)
  · exact ryuText_bitsDecimal_injective h

/-! ## Texts -/

/-- The instance as far as the texts go. -/
@[reducible] def layout : Crates where
  sha256 := id
  verifyingKey := id
  ed25519Sign _ := id
  ed25519Verify _ _ _ := false
  ryu := ryu
  jsonToString _ := ""
  jsonFromStr _ := none
  sqliteSum := List.foldl (· + ·) 0.0

/-- An instance that prints doubles in the same way has the laws of `ryu`. -/
theorem ryuReadsBack_of_eq {C : Crates} (h : C.ryu = ryu) : @RyuReadsBack C where
  format v _ _ := ⟨decimalOf v, by rw [h]; rfl⟩
  inj v w _ _ _ _ heq := ryu_injective (by rwa [h] at heq)

mutual

/-- The texts of two instances agree when their doubles do. -/
theorem writeValue_congr {C D : Crates} (h : C.ryu = D.ryu) :
    (v : Json) → @writeValue C v = @writeValue D v
  | .null => by simp only [writeValue]
  | .bool true => by simp only [writeValue]
  | .bool false => by simp only [writeValue]
  | .int i => by simp only [writeValue]
  | .float f => by simp only [writeValue, pyFloat, h]
  | .str s => by simp only [writeValue]
  | .arr items => by simp only [writeValue, writeItems_congr h items]
  | .obj entries => by simp only [writeValue, writeEntries_congr h entries]

/-- How items are written depends on `ryu` only. -/
theorem writeItems_congr {C D : Crates} (h : C.ryu = D.ryu) :
    (items : List Json) → @writeItems C items = @writeItems D items
  | [] => by simp only [writeItems]
  | v :: vs => by simp only [writeItems, writeValue_congr h v, writeItems_congr h vs]

/-- So does how members are written. -/
theorem writeEntries_congr {C D : Crates} (h : C.ryu = D.ryu) :
    (entries : List (String × Json)) → @writeEntries C entries = @writeEntries D entries
  | [] => by simp only [writeEntries]
  | (k, v) :: es => by simp only [writeEntries, writeValue_congr h v, writeEntries_congr h es]

end

/-- The canonical text, and its bytes. -/
def textOf (v : Json) : String := @canonicalJson layout v

def bytesOf (v : Json) : List UInt8 := asBytes (textOf v)

/-- A well-formed value is determined by its text. -/
theorem textOf_injective {v w : Json} (hv : v.WellFormed) (hw : w.WellFormed)
    (h : textOf v = textOf w) : v = w := by
  have := ryuReadsBack_of_eq (C := layout) rfl
  exact @writeValue_injective layout this v w hv hw (String.ofList_injective h)

/-- The value that a text was written for. -/
noncomputable def readText (s : String) : Option Json :=
  open Classical in
  if h : ∃ v : Json, v.WellFormed ∧ textOf v = s then some h.choose else none

/-- It is read back from it. -/
theorem readText_textOf {v : Json} (hv : v.WellFormed) : readText (textOf v) = some v := by
  have h : ∃ w : Json, w.WellFormed ∧ textOf w = textOf v := ⟨v, hv, rfl⟩
  rw [readText, dif_pos h]
  exact congrArg some (textOf_injective h.choose_spec.1 hv h.choose_spec.2)

/-! ## Preimages -/

/-- What is hashed: a public key, a proposal, or a block by the digest of its proposal and
its signatures. -/
inductive Preimage where
  | publicKey (key : List UInt8)
  | proposal (p : CheckpointProposal)
  | block (digest : List UInt8) (sigs : List QuorumSignature)

namespace Preimage

def signaturesText (sigs : List QuorumSignature) : String :=
  textOf (.arr (sigs.map QuorumSignature.toValue))

def bytes : Preimage → List UInt8
  | publicKey key => key
  | proposal p => bytesOf p.toValue
  | block digest sigs => asBytes (hex digest ++ signaturesText sigs)

/-- A key that does not begin as a text does. -/
def Valid : Preimage → Prop
  | publicKey key => ∃ b rest, key = b :: rest ∧ 128 ≤ b
  | proposal _ => True
  | block _ _ => True

/-- The constructor, and how the first byte shows it: texts begin with ASCII, and the text of
a proposal with a brace. -/
def kind : Preimage → ℕ
  | publicKey _ => 0
  | proposal _ => 1
  | block _ _ => 2

def kindOfByte (b : UInt8) : ℕ := if 128 ≤ b then 0 else if b = 123 then 1 else 2

/-- The first byte of a text that starts with an ASCII character. -/
theorem asBytes_cons {c : Char} (hc : c.toNat ≤ 127) (rest : List Char) :
    asBytes (String.ofList (c :: rest)) = UInt8.ofNat c.toNat :: rest.flatMap String.utf8EncodeChar := by
  rw [asBytes_ofList, List.flatMap_cons, String.utf8EncodeChar]
  exact congrArg (· ++ _) (if_pos hc)

/-- The text of signatures starts with a bracket. -/
theorem signaturesText_eq (sigs : List QuorumSignature) :
    ∃ rest, (signaturesText sigs).toList = '[' :: rest := by
  have hopen (items : List Json) : ∃ rest, @writeValue layout (.arr items) = '[' :: rest :=
    ⟨_, by simp only [writeValue, List.cons_append]; rfl⟩
  obtain ⟨rest, hrest⟩ := hopen (sigs.map QuorumSignature.toValue)
  exact ⟨rest, by rw [← hrest]; exact String.toList_ofList⟩

/-- The first byte tells the kind of a preimage. -/
theorem bytes_kind {x : Preimage} (hx : x.Valid) :
    ∃ b rest, x.bytes = b :: rest ∧ kindOfByte b = x.kind := by
  cases x with
  | publicKey key =>
    obtain ⟨b, rest, rfl, hb⟩ := hx
    exact ⟨b, rest, rfl, if_pos hb⟩
  | proposal p =>
    obtain ⟨rest, hrest⟩ : ∃ rest, textOf p.toValue = String.ofList ('\x7b' :: rest) := by
      have hopen (entries : List (String × Json)) :
          ∃ rest, @writeValue layout (.obj entries) = '\x7b' :: rest :=
        ⟨_, by simp only [writeValue, List.cons_append]; rfl⟩
      obtain ⟨rest, hrest⟩ := hopen _
      exact ⟨rest, by rw [← hrest]; rfl⟩
    refine ⟨123, rest.flatMap String.utf8EncodeChar, ?_, rfl⟩
    rw [bytes, bytesOf, hrest]
    exact asBytes_cons (by decide) rest
  | block digest sigs =>
    obtain ⟨rest, hrest⟩ := signaturesText_eq sigs
    have htext : hex digest ++ signaturesText sigs =
        String.ofList ((hex digest).toList ++ '[' :: rest) := by
      rw [← String.toList_inj, String.toList_append, hrest, String.toList_ofList]
    have hdigit {n : ℕ} (hn : n < 16) : (Nat.digitChar n).toNat ≤ 127 ∧
        kindOfByte (UInt8.ofNat (Nat.digitChar n).toNat) = 2 := by
      interval_cases n <;> decide
    show ∃ b rest, asBytes (hex digest ++ signaturesText sigs) = b :: rest ∧ kindOfByte b = 2
    rw [htext]
    cases digest with
    | nil => exact ⟨91, _, asBytes_cons (c := '[') (by decide) rest, rfl⟩
    | cons d ds =>
      have hd := hdigit (n := d.toNat / 16) (by have := d.toNat_lt; omega)
      rw [hex, String.toList_ofList, List.flatMap_cons, List.cons_append, List.cons_append]
      exact ⟨_, _, asBytes_cons hd.1 _, hd.2⟩

/-- What is hashed is determined by its bytes. -/
theorem bytes_injOn {x y : Preimage} (hx : x.Valid) (hy : y.Valid) (h : x.bytes = y.bytes) :
    x = y := by
  have hkind : x.kind = y.kind := by
    obtain ⟨b, rest, hb, hbk⟩ := bytes_kind hx
    obtain ⟨b', rest', hb', hbk'⟩ := bytes_kind hy
    rw [hb, hb'] at h
    rw [← hbk, ← hbk', (List.cons.inj h).1]
  cases x with
  | publicKey key =>
    cases y with
    | publicKey key' => exact congrArg publicKey h
    | proposal | block => cases hkind
  | proposal p =>
    cases y with
    | proposal p' =>
      have hvalue := textOf_injective (checkpointProposal_toValue_wellFormed p)
        (checkpointProposal_toValue_wellFormed p') (asBytes_injective h)
      have := congrArg CheckpointProposal.fromValue hvalue
      rw [checkpointProposal_fromValue_toValue, checkpointProposal_fromValue_toValue] at this
      exact congrArg proposal (Option.some.inj this)
    | publicKey | block => cases hkind
  | block digest sigs =>
    cases y with
    | block digest' sigs' =>
      have htext := congrArg String.toList (asBytes_injective h)
      simp only [String.toList_append] at htext
      have hopen (sigs : List QuorumSignature) :
          ∀ c ∈ (signaturesText sigs).toList.head?, ¬ c ≠ '[' := by
        obtain ⟨rest, hrest⟩ := signaturesText_eq sigs
        simp [hrest]
      obtain ⟨hdigest, hsigs⟩ := append_inj_of_forall (P := fun c => c ≠ '[')
        (bracket_not_mem_hex digest) (bracket_not_mem_hex digest') (hopen sigs) (hopen sigs') htext
      have hvalue := textOf_injective (signaturesValue_wellFormed ⟨genesisCheckpoint.proposal, sigs, 0⟩)
        (signaturesValue_wellFormed ⟨genesisCheckpoint.proposal, sigs', 0⟩)
        (String.toList_inj.mp hsigs)
      have hlists : sigs = sigs' := signaturesValue_injective hvalue
      rw [hex_injective (String.toList_inj.mp hdigest), hlists]
    | publicKey | proposal => cases hkind

end Preimage

end Exodus.Reference
