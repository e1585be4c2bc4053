import Exodus.Interface.Canonical
import Exodus.Interface.Python
import Exodus.Interface.Sample

/-!
# The canonical text against the reference

`canonical_json` is to be the text of CPython's `json.dumps`, byte for byte.  The two agree
on numbers, on the order of keys and on every character but one: `crypto.rs` leaves all of
ASCII above the space as it is, and the reference escapes `U+007F`.  `python_form_iff` says
so: the texts agree, and the output is printable, exactly when no string of the value has
that character.
-/

set_option autoImplicit false

namespace Exodus.Analysis

open Exodus.Library Exodus.Model Exodus.Interface

/-- `U+007F` -/
def del : Char := Char.ofNat 0x7f

/-- The printable characters of ASCII. -/
def Printable (c : Char) : Prop := 0x20 ≤ c.toNat ∧ c.toNat ≤ 0x7e

instance : DecidablePred Printable := fun c =>
  inferInstanceAs (Decidable (0x20 ≤ c.toNat ∧ c.toNat ≤ 0x7e))

mutual

/-- A string of the value, or a key, has the character `U+007F` in it. -/
def HasDel : Json → Prop
  | .str s => del ∈ s.toList
  | .arr items => HasDelItems items
  | .obj entries => HasDelEntries entries
  | .null | .bool _ | .int _ | .float _ => False

def HasDelItems : List Json → Prop
  | [] => False
  | v :: vs => HasDel v ∨ HasDelItems vs

def HasDelEntries : List (String × Json) → Prop
  | [] => False
  | (k, v) :: es => (del ∈ k.toList ∨ HasDel v) ∨ HasDelEntries es

end

/-! ## Characters -/

/-- A character is determined by its code. -/
theorem ofNat_toNat_eq {c : Char} {k : ℕ} (h : c.toNat = k) : c = Char.ofNat k := by
  rw [← h, Char.ofNat_toNat]

/-- The characters that Python prints as they are. -/
theorem pyPlain_iff (c : Char) :
    pyPlain c = true ↔ 0x20 ≤ c.toNat ∧ c.toNat ≤ 0x7e ∧ c ≠ '"' ∧ c ≠ '\\' := by
  have hle (a b : Char) : a ≤ b ↔ a.toNat ≤ b.toNat := Iff.rfl
  simp only [pyPlain, Bool.and_eq_true, decide_eq_true_eq, hle, ne_eq, decide_not, Bool.not_eq_true',
    decide_eq_false_iff_not, and_assoc]
  exact Iff.rfl

/-- For ten bits the bitwise or with a surrogate's base is the sum. -/
theorem or_surrogate {k : ℕ} (hk : k < 1024) : 0xd800 ||| k = 0xd800 + k ∧ 0xdc00 ||| k = 0xdc00 + k := by
  have hall : ∀ k : Fin 1024, 0xd800 ||| k.1 = 0xd800 + k.1 ∧ 0xdc00 ||| k.1 = 0xdc00 + k.1 := by
    decide +kernel
  exact hall ⟨k, hk⟩

/-- Codes end below `0x110000`. -/
theorem toNat_lt (c : Char) : c.toNat < 0x110000 := by
  have := c.valid
  unfold UInt32.isValidChar Nat.isValidChar at this
  have heq : c.val.toNat = c.toNat := rfl
  omega

/-- Python escapes a code above `0xffff` as a pair of surrogates. -/
theorem pyUnicodeEscape_astral {code : ℕ} (hlo : 0x10000 ≤ code) (hhi : code < 0x110000) :
    pyUnicodeEscape code = ['\\', 'u'] ++ hex4 (0xd800 + (code - 0x10000) / 2 ^ 10) ++
      ['\\', 'u'] ++ hex4 (0xdc00 + (code - 0x10000) % 2 ^ 10) := by
  have hhigh : (code - 0x10000) >>> 10 &&& 0x3ff = (code - 0x10000) / 2 ^ 10 := by
    rw [Nat.shiftRight_eq_div_pow, show (0x3ff : ℕ) = 2 ^ 10 - 1 by rfl, Nat.and_two_pow_sub_one_eq_mod]
    exact Nat.mod_eq_of_lt (by omega)
  have hlow : (code - 0x10000) &&& 0x3ff = (code - 0x10000) % 2 ^ 10 := by
    rw [show (0x3ff : ℕ) = 2 ^ 10 - 1 by rfl, Nat.and_two_pow_sub_one_eq_mod]
  rw [pyUnicodeEscape, if_neg (by omega)]
  dsimp only
  rw [hhigh, hlow, (or_surrogate (by omega)).1, (or_surrogate (by omega)).2]

/-- The two escapers agree on every character but one. -/
theorem escapeChar_eq_py {c : Char} (hc : c ≠ del) : escapeChar c = pyEscapeChar c := by
  have hdel : c.toNat ≠ 0x7f := fun h => hc (ofNat_toNat_eq h)
  have hbound := toNat_lt c
  unfold escapeChar pyEscapeChar
  by_cases hplain : pyPlain c = true
  · obtain ⟨hlo, hhi, hquote, hback⟩ := (pyPlain_iff c).mp hplain
    have hne (d : Char) (hd : d.toNat < 0x20) : c ≠ d := by
      rintro rfl
      omega
    rw [if_pos hplain, if_neg hquote, if_neg hback, if_neg (by omega), if_neg (by omega),
      if_neg (hne '\n' (by decide)), if_neg (hne '\r' (by decide)), if_neg (hne '\t' (by decide)),
      if_neg (by omega), if_pos (by omega)]
  · rw [if_neg hplain]
    rw [pyPlain_iff] at hplain
    by_cases hquote : c = '"'
    · subst hquote
      rfl
    by_cases hback : c = '\\'
    · subst hback
      rfl
    have hchar (d : Char) : c = d ↔ c.toNat = d.toNat := Char.toNat_inj.symm
    have hn : c = '\n' ↔ c.toNat = 0x0a := hchar '\n'
    have hr : c = '\r' ↔ c.toNat = 0x0d := hchar '\r'
    have ht : c = '\t' ↔ c.toNat = 0x09 := hchar '\t'
    have hout : c.toNat < 0x20 ∨ 0x80 ≤ c.toNat := by
      by_contra hin
      exact hplain ⟨by omega, by omega, hquote, hback⟩
    rw [pyShortEscape, if_neg hquote, if_neg hback, if_neg hback, if_neg hquote]
    simp only [hn, hr, ht]
    by_cases h8 : c.toNat = 0x08
    · rw [if_pos h8, if_pos h8]
      rfl
    rw [if_neg h8, if_neg h8]
    by_cases hfeed : c.toNat = 0x0c
    · rw [if_pos hfeed, if_pos hfeed]
      rfl
    rw [if_neg hfeed, if_neg hfeed]
    by_cases ha : c.toNat = 0x0a
    · rw [if_pos ha, if_pos ha]
      rfl
    rw [if_neg ha, if_neg ha]
    by_cases hd : c.toNat = 0x0d
    · rw [if_pos hd, if_pos hd]
      rfl
    rw [if_neg hd, if_neg hd]
    by_cases h9 : c.toNat = 0x09
    · rw [if_pos h9, if_pos h9]
      rfl
    rw [if_neg h9, if_neg h9]
    rw [Option.getD_none]
    by_cases hcontrol : c.toNat < 0x20
    · rw [if_pos hcontrol, pyUnicodeEscape, if_pos (by omega)]
    rw [if_neg hcontrol, if_neg (by omega)]
    by_cases hbmp : c.toNat ≤ 0xffff
    · rw [if_pos hbmp, pyUnicodeEscape, if_pos (by omega)]
    · rw [if_neg hbmp, pyUnicodeEscape_astral (by omega) hbound]

/-- Printability can be decided on a concrete text. -/
theorem printable_of_all {l : List Char} (h : l.all (fun c => decide (Printable c)) = true) :
    ∀ x ∈ l, Printable x := by
  intro x hx
  exact of_decide_eq_true (List.all_eq_true.mp h x hx)

/-- Hexadecimal digits are printable. -/
theorem digitChar_printable {n : ℕ} (hn : n < 16) : Printable (Nat.digitChar n) := by
  interval_cases n <;> exact ⟨by decide, by decide⟩

/-- So are four of them. -/
theorem hex4_printable {n : ℕ} : ∀ x ∈ hex4 n, Printable x := by
  intro x hx
  simp only [hex4, List.mem_cons, List.not_mem_nil, or_false] at hx
  rcases hx with rfl | rfl | rfl | rfl <;> exact digitChar_printable (Nat.mod_lt _ (by decide))

/-- So is every Unicode escape. -/
theorem unicodeEscape_printable (code : ℕ) : ∀ x ∈ pyUnicodeEscape code, Printable x := by
  have hmark : ∀ x ∈ ['\\', 'u'], Printable x := printable_of_all (by decide)
  intro x hx
  unfold pyUnicodeEscape at hx
  split_ifs at hx
  · rcases List.mem_append.mp hx with hx | hx
    · exact hmark x hx
    · exact hex4_printable x hx
  · simp only [List.mem_append] at hx
    rcases hx with ((hx | hx) | hx) | hx
    · exact hmark x hx
    · exact hex4_printable x hx
    · exact hmark x hx
    · exact hex4_printable x hx

/-- So is every short escape. -/
theorem shortEscape_printable {c : Char} {l : List Char} (h : pyShortEscape c = some l) :
    ∀ x ∈ l, Printable x := by
  unfold pyShortEscape at h
  split_ifs at h <;> cases h <;> exact printable_of_all (by decide)

/-- The reference escapes to printable characters. -/
theorem pyEscapeChar_printable (c : Char) : ∀ x ∈ pyEscapeChar c, Printable x := by
  intro x hx
  unfold pyEscapeChar at hx
  split_ifs at hx with hplain
  · obtain rfl := List.mem_singleton.mp hx
    obtain ⟨hlo, hhi, -, -⟩ := (pyPlain_iff x).mp hplain
    exact ⟨hlo, hhi⟩
  · cases hshort : pyShortEscape c with
    | some l =>
      rw [hshort] at hx
      exact shortEscape_printable hshort x hx
    | none =>
      rw [hshort] at hx
      exact unicodeEscape_printable _ x hx

/-! ## Strings -/

/-- A text without DEL is escaped as Python does it. -/
theorem writeEscaped_eq_py {s : String} (hs : del ∉ s.toList) : writeEscaped s = pyString s := by
  unfold writeEscaped pyString
  congr 2
  refine List.flatMap_congr fun c hc => escapeChar_eq_py ?_
  rintro rfl
  exact hs hc

/-- Python's string literals are printable. -/
theorem pyString_printable (s : String) : ∀ x ∈ pyString s, Printable x := by
  intro x hx
  unfold pyString at hx
  rcases List.mem_append.mp hx with hx | hx
  · rcases List.mem_cons.mp hx with rfl | hx
    · exact ⟨by decide, by decide⟩
    · obtain ⟨c, -, hc⟩ := List.mem_flatMap.mp hx
      exact pyEscapeChar_printable c x hc
  · obtain rfl := List.mem_singleton.mp hx
    exact ⟨by decide, by decide⟩

/-- The program prints DEL as it is. -/
theorem del_mem_writeEscaped {s : String} (hs : del ∈ s.toList) : del ∈ writeEscaped s := by
  have hescape : del ∈ escapeChar del := by decide
  have hbody : del ∈ s.toList.flatMap escapeChar := List.mem_flatMap.mpr ⟨del, hs, hescape⟩
  exact List.mem_append_left _ (List.mem_cons_of_mem _ hbody)

/-! ## Numbers -/

/-- Exponents are written as Python writes them. -/
theorem exponentText_eq_py (e : ℤ) : exponentText e = pyExponent e := by
  unfold exponentText pyExponent
  have hpos : 0 < (Nat.toDigits 10 e.natAbs).length := Nat.length_toDigits_pos
  congr 1
  split_ifs with hshort
  · have hlen : 2 - (Nat.toDigits 10 e.natAbs).length = 1 := by omega
    rw [hlen]
    rfl
  · have hlen : 2 - (Nat.toDigits 10 e.natAbs).length = 0 := by omega
    rw [hlen]
    rfl

/-- The layout of `py_float` is that of `repr`. -/
theorem layoutDigits_eq_pyRepr (d : Decimal) :
    layoutDigits d.neg d.digits (d.exponent - 1) = pyRepr d := by
  have hexp := exponentText_eq_py (d.exponent - 1)
  unfold exponentText at hexp
  unfold layoutDigits pyRepr
  dsimp only
  by_cases h1 : d.exponent ≤ -4 ∨ 16 < d.exponent
  · rw [if_pos h1, if_pos (by omega), hexp]
    by_cases hlen : d.digits.length = 1
    · rw [if_pos hlen, if_pos hlen, List.take_of_length_le hlen.le, List.append_nil]
    · rw [if_neg hlen, if_neg hlen, ← List.append_assoc]
  rw [if_neg h1, if_neg (by omega)]
  by_cases h2 : d.exponent ≤ 0
  · rw [if_pos h2, if_pos (by omega)]
    have hzeros : (-(d.exponent - 1) - 1).toNat = d.exponent.natAbs := by omega
    rw [hzeros]
  rw [if_neg h2, if_neg (by omega)]
  have hint : (d.exponent - 1 + 1).toNat = d.exponent.toNat := by omega
  rw [hint]
  by_cases h3 : d.exponent < d.digits.length
  · rw [if_pos h3, if_neg (by omega)]
  · rw [if_neg h3, if_pos (by omega)]

/-- The characters of numbers are printable. -/
theorem numeralChar_printable {c : Char} (hc : NumeralChar c) : Printable c := by
  rcases hc with hdigit | rfl | rfl | rfl | rfl
  · simp only [Char.isDigit, Bool.and_eq_true, decide_eq_true_eq, ge_iff_le,
      UInt32.le_iff_toNat_le] at hdigit
    have hval : c.val.toNat = c.toNat := rfl
    have hzero : '0'.val.toNat = 0x30 := rfl
    have hnine : '9'.val.toNat = 0x39 := rfl
    exact ⟨by omega, by omega⟩
  all_goals exact ⟨by decide, by decide⟩

/-- Python's numbers are printable. -/
theorem pyRepr_printable (d : Decimal) : ∀ x ∈ pyRepr d, Printable x := by
  intro x hx
  rw [← layoutDigits_eq_pyRepr] at hx
  exact numeralChar_printable ((Decimal.spells_canonical d).numeralChars x hx)

/-- A finite double is written as Python writes it, if ryu prints its shortest digits. -/
theorem pyFloat_eq_py [Crates] {shortest : Float → Decimal} {v : Float} (hv : v.isFinite = true)
    (hshortest : (v == 0.0) = false → Crates.ryu v = (shortest v).ryuText) :
    pyFloat v = pyDouble shortest v := by
  obtain ⟨hnan, hinf⟩ := not_nan_of_isFinite hv
  unfold pyFloat pyDouble
  cases hzero : v == 0.0 with
  | true => rfl
  | false =>
    have hscan := (spells_ryuText (shortest v)).scanDecimal (significant_digits (shortest v))
    simp only [hnan, hinf, hshortest hzero, relayRyu, hscan, Bool.false_eq_true, if_false]
    exact layoutDigits_eq_pyRepr (shortest v)

/-- Python's doubles are printable, those without digits included. -/
theorem pyDouble_printable (shortest : Float → Decimal) (v : Float) :
    ∀ x ∈ pyDouble shortest v, Printable x := by
  intro x hx
  unfold pyDouble at hx
  split_ifs at hx
  · exact printable_of_all (by decide +kernel) x hx
  · exact printable_of_all (by decide +kernel) x hx
  · exact pyRepr_printable _ x hx

/-! ## Values -/

/-- Printable texts joined by a printable separator are printable. -/
theorem joinSep_printable {sep : Char} {texts : List (List Char)} (hsep : Printable sep)
    (htexts : ∀ t ∈ texts, ∀ x ∈ t, Printable x) : ∀ x ∈ joinSep sep texts, Printable x := by
  intro x hx
  rcases mem_joinSep hx with rfl | ⟨t, ht, hxt⟩
  · exact hsep
  · exact htexts t ht x hxt

/-- Sorting keeps the members. -/
theorem mem_sortByKey {α : Type} {e : String × α} {entries : List (String × α)} :
    e ∈ sortByKey entries ↔ e ∈ entries :=
  (List.perm_insertionSort _ entries).mem_iff

/-- An object has DEL in a key or in a value. -/
theorem hasDelEntries_iff (entries : List (String × Json)) :
    HasDelEntries entries ↔ ∃ e ∈ entries, del ∈ e.1.toList ∨ HasDel e.2 := by
  induction entries with
  | nil => simp [HasDelEntries]
  | cons e es ih => simp only [HasDelEntries, ih, List.mem_cons, exists_eq_or_imp]

/-- An array has DEL in an item. -/
theorem hasDelItems_iff (items : List Json) : HasDelItems items ↔ ∃ v ∈ items, HasDel v := by
  induction items with
  | nil => simp [HasDelItems]
  | cons v vs ih => simp only [HasDelItems, ih, List.mem_cons, exists_eq_or_imp]

variable (shortest : Float → Decimal)

/-- Items are written one by one. -/
theorem pyItems_eq_map (items : List Json) : pyItems shortest items = items.map (pyValue shortest) := by
  induction items with
  | nil => rfl
  | cons v vs ih => rw [pyItems, ih, List.map_cons]

/-- So are members. -/
theorem pyEntries_eq_map (entries : List (String × Json)) :
    pyEntries shortest entries = entries.map fun e => (e.1, pyValue shortest e.2) := by
  induction entries with
  | nil => rfl
  | cons e es ih => rw [pyEntries, ih, List.map_cons]

/-- The reference is printable. -/
theorem pyValue_printable (v : Json) : ∀ x ∈ pyValue shortest v, Printable x := by
  induction v using Json.induction with
  | null =>
    rw [pyValue]
    exact printable_of_all (by decide +kernel)
  | bool b =>
    cases b with
    | true =>
      rw [pyValue]
      exact printable_of_all (by decide +kernel)
    | false =>
      rw [pyValue]
      exact printable_of_all (by decide +kernel)
  | int i => exact fun x hx => numeralChar_printable (numeralChar_intChars i x hx)
  | float f => exact pyDouble_printable shortest f.1
  | str s => exact pyString_printable s
  | arr items ih =>
    have htexts : ∀ t ∈ pyItems shortest items, ∀ x ∈ t, Printable x := by
      intro t ht
      rw [pyItems_eq_map] at ht
      obtain ⟨v, hv, rfl⟩ := List.mem_map.mp ht
      exact ih v hv
    rw [pyValue]
    intro x hx
    simp only [List.cons_append, List.mem_cons, List.mem_append, List.not_mem_nil, or_false] at hx
    rcases hx with rfl | hx | rfl
    · decide
    · exact joinSep_printable (by decide) htexts x hx
    · decide
  | obj entries ih =>
    have htexts : ∀ t ∈ (sortByKey (pyEntries shortest entries)).map
        (fun e => pyString e.1 ++ ':' :: e.2), ∀ x ∈ t, Printable x := by
      intro t ht x hx
      obtain ⟨e, he, rfl⟩ := List.mem_map.mp ht
      rw [mem_sortByKey, pyEntries_eq_map] at he
      obtain ⟨m, hm, rfl⟩ := List.mem_map.mp he
      simp only [List.mem_append, List.mem_cons] at hx
      rcases hx with hx | rfl | hx
      · exact pyString_printable m.1 x hx
      · decide
      · exact ih m hm x hx
    rw [pyValue]
    intro x hx
    simp only [List.cons_append, List.mem_cons, List.mem_append, List.not_mem_nil, or_false] at hx
    rcases hx with rfl | hx | rfl
    · decide
    · exact joinSep_printable (by decide) htexts x hx
    · decide

variable [Crates] {shortest}

/-- Without the character the two texts are the same. -/
theorem writeValue_eq_py (hshortest : ∀ v : Float, v.isFinite = true → (v == 0.0) = false →
    Crates.ryu v = (shortest v).ryuText) (v : Json) (hdel : ¬HasDel v) :
    writeValue v = pyValue shortest v := by
  induction v using Json.induction with
  | null => rfl
  | bool b => cases b <;> rfl
  | int i => rfl
  | float f => exact pyFloat_eq_py f.2 (hshortest f.1 f.2)
  | str s => exact writeEscaped_eq_py hdel
  | arr items ih =>
    have hitems : ∀ v ∈ items, ¬HasDel v := by
      intro v hv hd
      exact hdel ((hasDelItems_iff items).mpr ⟨v, hv, hd⟩)
    have htexts : writeItems items = pyItems shortest items := by
      rw [writeItems_eq_map, pyItems_eq_map]
      exact List.map_congr_left fun v hv => ih v hv (hitems v hv)
    rw [writeValue, pyValue, htexts]
  | obj entries ih =>
    have hentries : ∀ e ∈ entries, del ∉ e.1.toList ∧ ¬HasDel e.2 := by
      intro e he
      rw [← not_or]
      intro hd
      exact hdel ((hasDelEntries_iff entries).mpr ⟨e, he, hd⟩)
    have htexts : writeEntries entries = pyEntries shortest entries := by
      rw [writeEntries_eq_map, pyEntries_eq_map]
      refine List.map_congr_left fun e he => ?_
      rw [ih e he (hentries e he).2]
    have hkeys : ∀ e ∈ sortByKey (writeEntries entries), del ∉ e.1.toList := by
      intro e he
      rw [mem_sortByKey, writeEntries_eq_map] at he
      obtain ⟨m, hm, rfl⟩ := List.mem_map.mp he
      exact (hentries m hm).1
    have hmembers : (sortByKey (writeEntries entries)).map (fun e => writeEscaped e.1 ++ ':' :: e.2) =
        (sortByKey (pyEntries shortest entries)).map (fun e => pyString e.1 ++ ':' :: e.2) := by
      rw [← htexts]
      refine List.map_congr_left fun e he => ?_
      rw [writeEscaped_eq_py (hkeys e he)]
    rw [writeValue, pyValue, hmembers]
    rfl

/-- The character is printed as it is. -/
theorem del_mem_writeValue (v : Json) (hdel : HasDel v) : del ∈ writeValue v := by
  induction v using Json.induction with
  | null | bool | int | float => exact hdel.elim
  | str s => exact del_mem_writeEscaped hdel
  | arr items ih =>
    obtain ⟨v, hv, hd⟩ := (hasDelItems_iff items).mp hdel
    have htext : writeValue v ∈ writeItems items := by
      rw [writeItems_eq_map]
      exact List.mem_map_of_mem hv
    rw [writeValue]
    exact List.mem_append_left _ (List.mem_cons_of_mem _ (mem_joinSep_of_mem htext (ih v hv hd)))
  | obj entries ih =>
    obtain ⟨e, he, hd⟩ := (hasDelEntries_iff entries).mp hdel
    have hsorted : (e.1, writeValue e.2) ∈ sortByKey (writeEntries entries) := by
      rw [mem_sortByKey, writeEntries_eq_map]
      exact List.mem_map.mpr ⟨e, he, rfl⟩
    have hmember : del ∈ writeEscaped e.1 ++ ':' :: writeValue e.2 := by
      rcases hd with hkey | hvalue
      · exact List.mem_append_left _ (del_mem_writeEscaped hkey)
      · exact List.mem_append_right _ (List.mem_cons_of_mem _ (ih e he hvalue))
    rw [writeValue]
    refine List.mem_append_left _ (List.mem_cons_of_mem _ (mem_joinSep_of_mem ?_ hmember))
    exact List.mem_map.mpr ⟨_, hsorted, rfl⟩

omit [Crates] in
/-- DEL is not printable. -/
theorem del_not_printable : ¬Printable del := by decide

/-- **The canonical text and the reference.**  With `shortest` the shortest digits of a
double, which `ryu` prints in its own layout, `canonical_json` is the text of `json.dumps`
exactly when no string or key of the value has `U+007F` in it, and its output is printable
ASCII exactly then. -/
theorem python_form_iff (shortest : Float → Decimal)
    (hshortest : ∀ v : Float, v.isFinite = true → (v == 0.0) = false →
    Crates.ryu v = (shortest v).ryuText) (v : Json) :
    (canonicalJson v = pyDumps shortest v ↔ ¬HasDel v) ∧
      ((∀ c ∈ (canonicalJson v).toList, Printable c) ↔ ¬HasDel v) := by
  have hraw : HasDel v → ¬∀ c ∈ writeValue v, Printable c := by
    intro hdel hall
    exact del_not_printable (hall del (del_mem_writeValue v hdel))
  have hequal := writeValue_eq_py hshortest v
  have hreference := pyValue_printable shortest v
  have htext : (canonicalJson v).toList = writeValue v := String.toList_ofList
  refine ⟨⟨?_, ?_⟩, ?_, ?_⟩
  · intro heq hdel
    have hlist : writeValue v = pyValue shortest v := String.ofList_injective heq
    exact hraw hdel (hlist ▸ hreference)
  · intro hdel
    exact congrArg String.ofList (hequal hdel)
  · intro hall hdel
    exact hraw hdel (htext ▸ hall)
  · intro hdel
    rw [htext, hequal hdel]
    exact hreference

end Exodus.Analysis

namespace Exodus.Analysis

open Exodus.Library Exodus.Model Exodus.Interface Exodus.Sample

/-- An object of the usual kind has the canonical form of Python, with its keys sorted. -/
theorem python_form_plain :
    let v : Json := .obj [("seq", .int 1), ("id", .str "n1")]
    canonicalJson v = pyDumps Reference.decimalOf v ∧ ∀ c ∈ (canonicalJson v).toList, Printable c := by
  intro v
  have hiff := python_form_iff Reference.decimalOf (fun _ _ _ => rfl) v
  have hplain : ¬HasDel v := by
    simp only [v, HasDel, HasDelEntries, or_false]
    decide
  exact ⟨hiff.1.mpr hplain, hiff.2.mpr hplain⟩

/-- The text of DEL alone has another form than in Python. -/
theorem del_printed_raw :
    canonicalJson (.str (String.singleton del)) ≠
        pyDumps Reference.decimalOf (.str (String.singleton del)) ∧
      del ∈ (canonicalJson (.str (String.singleton del))).toList ∧ ¬Printable del := by
  decide

end Exodus.Analysis
