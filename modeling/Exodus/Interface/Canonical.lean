import Exodus.Interface.Decimals
import Exodus.Library.JsonOrder
import Exodus.Interface.Wire

/-!
# Canonical JSON determines the value

The canonical text of a value with sorted keys is read in one way only
(`writeValue_readsBack`): strings by undoing the escapes, numbers up to the first
character that no number has, arrays and objects item by item.  So values with the
same canonical bytes are equal, and with a collision-free hash so are proposals with
the same proposal hash and blocks with the same block hash, up to the quorum that the
block hash leaves out.
-/

set_option autoImplicit false

namespace Exodus.Interface

open Exodus.Library Exodus.Model

/-! ## Strings -/

/-- The value of a hex digit. -/
def hexValue (c : Char) : ℕ := if c.toNat < 97 then c.toNat - 48 else c.toNat - 87

/-- A hexadecimal digit is read back. -/
theorem hexValue_digitChar {n : ℕ} (hn : n < 16) : hexValue (Nat.digitChar n) = n := by
  interval_cases n <;> rfl

/-- The number that four hex digits spell. -/
def unhex4 (a b c d : Char) : ℕ :=
  4096 * hexValue a + 256 * hexValue b + 16 * hexValue c + hexValue d

/-- Undo `escapeChar` at the front of a text. -/
def unescape : List Char → Option (Char × List Char)
  | '\\' :: 'u' :: a :: b :: c :: d :: rest =>
    if 0xd800 ≤ unhex4 a b c d ∧ unhex4 a b c d < 0xe000 then
      match rest with
      | _ :: _ :: a' :: b' :: c' :: d' :: rest' =>
        some (Char.ofNat (0x10000 + (unhex4 a b c d - 0xd800) * 2 ^ 10 +
          (unhex4 a' b' c' d' - 0xdc00)), rest')
      | _ => none
    else some (Char.ofNat (unhex4 a b c d), rest)
  | '\\' :: 'b' :: rest => some (Char.ofNat 0x08, rest)
  | '\\' :: 'f' :: rest => some (Char.ofNat 0x0c, rest)
  | '\\' :: 'n' :: rest => some ('\n', rest)
  | '\\' :: 'r' :: rest => some ('\r', rest)
  | '\\' :: 't' :: rest => some ('\t', rest)
  | '\\' :: c :: rest => some (c, rest)
  | c :: rest => some (c, rest)
  | [] => none

/-- So are four of them. -/
theorem unhex4_hex4 {n : ℕ} (hn : n < 0x10000) :
    unhex4 (Nat.digitChar (n / 4096 % 16)) (Nat.digitChar (n / 256 % 16))
      (Nat.digitChar (n / 16 % 16)) (Nat.digitChar (n % 16)) = n := by
  unfold unhex4
  rw [hexValue_digitChar (by omega), hexValue_digitChar (by omega), hexValue_digitChar (by omega),
    hexValue_digitChar (by omega)]
  omega

/-- No character is a surrogate. -/
theorem toNat_not_surrogate (c : Char) : ¬ (0xd800 ≤ c.toNat ∧ c.toNat < 0xe000) := by
  have := c.valid
  unfold UInt32.isValidChar Nat.isValidChar at this
  have heq : c.val.toNat = c.toNat := rfl
  omega

/-- A Unicode escape is read back as its character. -/
theorem unescape_hex4 {c : Char} (hc : c.toNat < 0x10000) (rest : List Char) :
    unescape (['\\', 'u'] ++ hex4 c.toNat ++ rest) = some (c, rest) := by
  simp only [hex4, List.cons_append, List.nil_append, unescape, unhex4_hex4 hc,
    toNat_not_surrogate, if_false, Char.ofNat_toNat]

/-- A character that is no backslash stands for itself. -/
theorem unescape_plain {c : Char} (h : c ≠ '\\') (rest : List Char) :
    unescape (c :: rest) = some (c, rest) := by
  rw [unescape] <;> intros <;> contradiction

/-- The two halves of a surrogate pair are read as one character. -/
theorem unescape_surrogates {c : Char} (h : 0xffff < c.toNat) (rest : List Char) :
    unescape (['\\', 'u'] ++ hex4 (0xd800 + (c.toNat - 0x10000) / 2 ^ 10) ++ ['\\', 'u'] ++
      hex4 (0xdc00 + (c.toNat - 0x10000) % 2 ^ 10) ++ rest) = some (c, rest) := by
  have hmax : c.toNat < 0x110000 := by
    have := c.valid
    unfold UInt32.isValidChar Nat.isValidChar at this
    have heq : c.val.toNat = c.toNat := rfl
    omega
  generalize hcp : c.toNat - 0x10000 = cp
  have hhi : 0xd800 + cp / 2 ^ 10 < 0x10000 := by omega
  have hlo : 0xdc00 + cp % 2 ^ 10 < 0x10000 := by omega
  have hrange : 0xd800 ≤ 0xd800 + cp / 2 ^ 10 ∧ 0xd800 + cp / 2 ^ 10 < 0xe000 := by omega
  have hsum : 0x10000 + (0xd800 + cp / 2 ^ 10 - 0xd800) * 2 ^ 10 +
      (0xdc00 + cp % 2 ^ 10 - 0xdc00) = c.toNat := by omega
  simp only [hex4, List.cons_append, List.nil_append, unescape, unhex4_hex4 hhi, unhex4_hex4 hlo]
  rw [if_pos hrange, hsum, Char.ofNat_toNat]

/-- Every character is read back from its escape. -/
theorem unescape_escapeChar (c : Char) (rest : List Char) :
    unescape (escapeChar c ++ rest) = some (c, rest) := by
  have hcode {k : ℕ} (h : c.toNat = k) : c = Char.ofNat k := by rw [← h, Char.ofNat_toNat]
  rw [escapeChar]
  by_cases hquote : c = '"'
  · subst hquote
    rfl
  rw [if_neg hquote]
  by_cases hback : c = '\\'
  · subst hback
    rfl
  rw [if_neg hback]
  by_cases h8 : c.toNat = 0x08
  · rw [hcode h8]
    rfl
  rw [if_neg h8]
  by_cases hc : c.toNat = 0x0c
  · rw [hcode hc]
    rfl
  rw [if_neg hc]
  by_cases hn : c = '\n'
  · subst hn
    rfl
  rw [if_neg hn]
  by_cases hr : c = '\r'
  · subst hr
    rfl
  rw [if_neg hr]
  by_cases ht : c = '\t'
  · subst ht
    rfl
  rw [if_neg ht]
  by_cases hcontrol : c.toNat < 0x20
  · rw [if_pos hcontrol]
    exact unescape_hex4 (by omega) rest
  rw [if_neg hcontrol]
  by_cases hascii : c.toNat < 0x80
  · rw [if_pos hascii]
    exact unescape_plain hback rest
  rw [if_neg hascii]
  by_cases hbmp : c.toNat ≤ 0xffff
  · rw [if_pos hbmp]
    exact unescape_hex4 (by omega) rest
  · rw [if_neg hbmp]
    exact unescape_surrogates (by omega) rest

/-- Two characters' escapes are never one the beginning of the other. -/
theorem escapeChar_inj (a b : Char) (r s : List Char) (h : escapeChar a ++ r = escapeChar b ++ s) :
    a = b ∧ r = s := by
  have := congrArg unescape h
  rw [unescape_escapeChar, unescape_escapeChar] at this
  simpa using this

/-- No escape starts with the closing quote. -/
theorem escapeChar_start (a : Char) : ∃ c rest, escapeChar a = c :: rest ∧ c ≠ '"' := by
  have hread := unescape_escapeChar a []
  cases hescape : escapeChar a with
  | nil =>
    rw [hescape] at hread
    cases hread
  | cons c rest =>
    refine ⟨c, rest, rfl, ?_⟩
    rintro rfl
    -- a quote is read as a quote, and that one is escaped
    rw [hescape, List.cons_append, unescape_plain (by decide)] at hread
    have hquote : '"' = a := congrArg Prod.fst (Option.some.inj hread)
    subst hquote
    cases hescape

/-- A string literal is read up to its closing quote. -/
theorem writeEscaped_inj {a b : String} {r s : List Char}
    (h : writeEscaped a ++ r = writeEscaped b ++ s) : a = b ∧ r = s := by
  have h' : a.toList.flatMap escapeChar ++ '"' :: r = b.toList.flatMap escapeChar ++ '"' :: s := by
    simpa [writeEscaped] using h
  obtain ⟨hab, hrs⟩ := flatMap_inj_of_mark escapeChar_inj escapeChar_start h'
  exact ⟨String.toList_inj.mp hab, hrs⟩

/-! ## Values -/

/-- Where a value's text may stop: before a character that no number has. -/
def Stops (r : List Char) : Prop := ∀ c ∈ r.head?, ¬ NumeralChar c

/-- A number ends before a character that is none of a number. -/
theorem stops_cons {c : Char} (hc : c.isDigit = false) (h1 : c ≠ '-') (h2 : c ≠ '+') (h3 : c ≠ '.')
    (h4 : c ≠ 'e') (r : List Char) : Stops (c :: r) := by
  intro x hx
  obtain rfl : c = x := by simpa using hx
  simp [NumeralChar, hc, h1, h2, h3, h4]

/-- A number ends before a comma. -/
theorem stops_comma (r : List Char) : Stops (',' :: r) :=
  stops_cons (by decide) (by decide) (by decide) (by decide) (by decide) r

/-- It ends before a closing bracket. -/
theorem stops_bracket (r : List Char) : Stops (']' :: r) :=
  stops_cons (by decide) (by decide) (by decide) (by decide) (by decide) r

/-- It ends before a closing brace. -/
theorem stops_brace (r : List Char) : Stops ('\x7d' :: r) :=
  stops_cons (by decide) (by decide) (by decide) (by decide) (by decide) r

/-- The kinds of values that their first character tells apart. -/
inductive Kind where
  | null | yes | no | number | text | array | object
deriving DecidableEq

def kind : Json → Kind
  | .null => .null
  | .bool true => .yes
  | .bool false => .no
  | .int _ => .number
  | .float _ => .number
  | .str _ => .text
  | .arr _ => .array
  | .obj _ => .object

/-- The kind of a value from the first character of its text. -/
def kindOf (c : Char) : Option Kind :=
  if c = 'n' then some .null else if c = 't' then some .yes else if c = 'f' then some .no
  else if c = '"' then some .text else if c = '[' then some .array
  else if c = '\x7b' then some .object
  else if c.isDigit = true ∨ c = '-' then some .number
  else none

/-- A digit or a minus sign starts a number. -/
theorem kindOf_isDigit {c : Char} (h : c.isDigit = true ∨ c = '-') :
    kindOf c = some .number := by
  have hne (x : Char) (hx : x.isDigit = false) (hm : x ≠ '-') : c ≠ x := by
    rintro rfl
    rcases h with h | h
    · simp [hx] at h
    · exact hm h
  unfold kindOf
  rw [if_neg (hne 'n' (by decide) (by decide)), if_neg (hne 't' (by decide) (by decide)),
    if_neg (hne 'f' (by decide) (by decide)), if_neg (hne '"' (by decide) (by decide)),
    if_neg (hne '[' (by decide) (by decide)), if_neg (hne '\x7b' (by decide) (by decide)),
    if_pos h]

/-- An integer starts with one of these. -/
theorem intChars_start (i : ℤ) :
    ∃ c rest, intChars i = c :: rest ∧ (c.isDigit = true ∨ c = '-') := by
  have hne : intChars i ≠ [] := by
    unfold intChars
    split_ifs
    · simp
    · exact Nat.toDigits_ne_nil
  obtain ⟨c, rest, h⟩ := List.exists_cons_of_ne_nil hne
  exact ⟨c, rest, h, mem_intChars (h ▸ List.mem_cons_self)⟩

section

variable [Crates] [RyuReadsBack]

/-- The text of a double: number characters, from a digit or a minus on, and never that
of an integer. -/
theorem pyFloat_text (f : FiniteFloat) :
    (∀ c ∈ pyFloat f.1, NumeralChar c) ∧ (∀ i, pyFloat f.1 ≠ intChars i) ∧
      ∃ c rest, pyFloat f.1 = c :: rest ∧ (c.isDigit = true ∨ c = '-') := by
  have hspells : ∃ neg ds e, Spells (pyFloat f.1) neg ds e := by
    rcases pyFloat_cases f.2 with ⟨-, htext⟩ | ⟨-, d, -, htext⟩
    · -- a zero is a numeral with no significant digit
      have hzero (neg : Bool) : Spells (numeral neg ['0'] (some ['0']) none) neg ['0', '0'] 0 :=
        ⟨_, _, _, 0, 0, rfl, by simp, by simp, by simp, by simp, by simp, by simp, by simp⟩
      refine ⟨isSignNegative f.1, ['0', '0'], 0, ?_⟩
      rw [htext]
      have := hzero (isSignNegative f.1)
      cases h : isSignNegative f.1 <;> simpa [numeral, h] using this
    · exact ⟨_, _, _, htext ▸ Decimal.spells_canonical d⟩
  obtain ⟨neg, ds, e, h⟩ := hspells
  refine ⟨h.numeralChars, h.ne_intChars, ?_⟩
  obtain ⟨ip, fp, ex, a, b, htext, hne, hip, -⟩ := h
  obtain ⟨c, rest, rfl⟩ := List.exists_cons_of_ne_nil hne
  cases neg with
  | true => exact ⟨'-', _, by rw [htext]; rfl, .inr rfl⟩
  | false => exact ⟨c, _, by rw [htext]; rfl, .inl (hip c (by simp))⟩

/-- The first character of a value tells its kind. -/
theorem writeValue_start (v : Json) :
    ∃ c rest, writeValue v = c :: rest ∧ kindOf c = some (kind v) := by
  cases v with
  | null => exact ⟨_, _, by rw [writeValue], by decide⟩
  | bool b =>
    cases b with
    | true => exact ⟨_, _, by rw [writeValue], by decide⟩
    | false => exact ⟨_, _, by rw [writeValue], by decide⟩
  | int i =>
    obtain ⟨c, rest, h, hc⟩ := intChars_start i
    exact ⟨c, rest, by rw [writeValue, h], kindOf_isDigit hc⟩
  | float f =>
    obtain ⟨-, -, c, rest, h, hc⟩ := pyFloat_text f
    exact ⟨c, rest, by rw [writeValue, h], kindOf_isDigit hc⟩
  | str s => exact ⟨_, _, by rw [writeValue]; rfl, rfl⟩
  | arr items => exact ⟨_, _, by rw [writeValue]; rfl, rfl⟩
  | obj entries => exact ⟨_, _, by rw [writeValue]; rfl, rfl⟩

/-- Values whose texts start the same way are of one kind. -/
theorem kind_eq_of_append_eq {v w : Json} {r s : List Char}
    (h : writeValue v ++ r = writeValue w ++ s) : kind v = kind w := by
  obtain ⟨c, rest, hv, hc⟩ := writeValue_start v
  obtain ⟨d, rest', hw, hd⟩ := writeValue_start w
  rw [hv, hw] at h
  rw [(List.cons.inj h).1, hd] at hc
  exact (Option.some.inj hc).symm

omit [RyuReadsBack] in
/-- Items are written one by one. -/
theorem writeItems_eq_map (items : List Json) : writeItems items = items.map writeValue := by
  induction items with
  | nil => rfl
  | cons v vs ih => rw [writeItems, ih, List.map_cons]

omit [RyuReadsBack] in
/-- So are members. -/
theorem writeEntries_eq_map (entries : List (String × Json)) :
    writeEntries entries = entries.map fun e => (e.1, writeValue e.2) := by
  induction entries with
  | nil => rfl
  | cons e es ih => rw [writeEntries, ih, List.map_cons]

/-- The text of one member of an object. -/
def writeEntry (e : String × Json) : List Char := writeEscaped e.1 ++ ':' :: writeValue e.2

omit [RyuReadsBack] in
/-- Members in the order of their keys are printed as they stand. -/
theorem writeValue_obj {entries : List (String × Json)}
    (h : (entries.map Prod.fst).Pairwise (· ≤ ·)) :
    writeValue (.obj entries) = '\x7b' :: joinSep ',' (entries.map writeEntry) ++ ['\x7d'] := by
  have hsorted : sortByKey (writeEntries entries) = writeEntries entries := by
    unfold sortByKey
    refine List.Pairwise.insertionSort_eq ?_
    rw [writeEntries_eq_map, List.pairwise_map]
    rw [List.pairwise_map] at h
    exact h
  rw [writeValue, hsorted, writeEntries_eq_map, List.map_map]
  rfl

/-- The text of a value reads back. -/
abbrev ValueReadsBack : Json → Prop := ReadsBack writeValue Json.SortedKeys Stops

/-- Integers are read back. -/
theorem readsBack_int (i : ℤ) : ValueReadsBack (.int i) := by
  intro w r s hw hr hs h
  have hkind := kind_eq_of_append_eq h
  cases w with
  | int j =>
    rw [writeValue, writeValue] at h
    obtain ⟨htext, hrs⟩ := append_inj_of_forall (numeralChar_intChars i) (numeralChar_intChars j) hr hs h
    exact ⟨congrArg Json.int (intChars_injective htext), hrs⟩
  | float f =>
    obtain ⟨hinner, hne, -⟩ := pyFloat_text f
    rw [writeValue, writeValue] at h
    exact absurd (append_inj_of_forall (numeralChar_intChars i) hinner hr hs h).1.symm (hne i)
  | bool b => cases b <;> simp [kind] at hkind
  | null | str | arr | obj => simp [kind] at hkind

/-- Finite doubles are. -/
theorem readsBack_float (f : FiniteFloat) : ValueReadsBack (.float f) := by
  intro w r s hw hr hs h
  have hkind := kind_eq_of_append_eq h
  obtain ⟨hinner, hne, -⟩ := pyFloat_text f
  cases w with
  | int j =>
    rw [writeValue, writeValue] at h
    exact absurd (append_inj_of_forall hinner (numeralChar_intChars j) hr hs h).1 (hne j)
  | float g =>
    rw [writeValue, writeValue] at h
    obtain ⟨htext, hrs⟩ := append_inj_of_forall hinner (pyFloat_text g).1 hr hs h
    exact ⟨congrArg Json.float (Subtype.ext (pyFloat_injective f.2 g.2 htext)), hrs⟩
  | bool b => cases b <;> simp [kind] at hkind
  | null | str | arr | obj => simp [kind] at hkind

/-- Strings are. -/
theorem readsBack_str (a : String) : ValueReadsBack (.str a) := by
  intro w r s hw hr hs h
  have hkind := kind_eq_of_append_eq h
  cases w with
  | str b =>
    rw [writeValue, writeValue] at h
    obtain ⟨rfl, hrs⟩ := writeEscaped_inj h
    exact ⟨rfl, hrs⟩
  | bool b => cases b <;> simp [kind] at hkind
  | null | int | float | arr | obj => simp [kind] at hkind

/-- Arrays are if their items are. -/
theorem readsBack_arr {items : List Json}
    (hitems : ∀ v ∈ items, v.SortedKeys ∧ ValueReadsBack v) : ValueReadsBack (.arr items) := by
  intro w r s hw hr hs h
  have hkind := kind_eq_of_append_eq h
  cases w with
  | arr items' =>
    rw [writeValue, writeValue, writeItems_eq_map, writeItems_eq_map] at h
    have hvalid : ∀ v ∈ items', v.SortedKeys := (Json.sortedItems_iff items').mp hw
    have hstart (v : Json) (_ : v.SortedKeys) :
        ∃ c rest, writeValue v = c :: rest ∧ c ≠ ']' := by
      obtain ⟨c, rest, hv, hc⟩ := writeValue_start v
      refine ⟨c, rest, hv, ?_⟩
      rintro rfl
      rw [show kindOf ']' = none by decide] at hc
      cases hc
    obtain ⟨rfl, hrs⟩ :=
      joinSep_inj stops_comma stops_bracket (by decide) hstart hitems hvalid (by simpa using h)
    exact ⟨rfl, hrs⟩
  | bool b => cases b <;> simp [kind] at hkind
  | null | int | float | str | obj => simp [kind] at hkind

/-- Objects are if their keys are sorted and their values are read back. -/
theorem readsBack_obj {entries : List (String × Json)} (hsorted : (Json.obj entries).SortedKeys)
    (hentries : ∀ e ∈ entries, e.2.SortedKeys ∧ ValueReadsBack e.2) :
    ValueReadsBack (.obj entries) := by
  have hentry {e : String × Json} (he : ValueReadsBack e.2) :
      ReadsBack writeEntry (fun e => e.2.SortedKeys) Stops e := by
    intro e' r s he' hr hs h
    unfold writeEntry at h
    rw [List.append_assoc, List.append_assoc] at h
    obtain ⟨hkey, hrest⟩ := writeEscaped_inj h
    obtain ⟨hvalue, hrs⟩ := he e'.2 r s he' hr hs (by simpa using hrest)
    exact ⟨Prod.ext hkey hvalue, hrs⟩
  intro w r s hw hr hs h
  have hkind := kind_eq_of_append_eq h
  cases w with
  | obj entries' =>
    rw [writeValue_obj hsorted.1, writeValue_obj hw.1] at h
    have hvalid : ∀ e ∈ entries', e.2.SortedKeys := (Json.sortedEntries_iff entries').mp hw.2
    have hstart (e : String × Json) (_ : e.2.SortedKeys) :
        ∃ c rest, writeEntry e = c :: rest ∧ c ≠ '}' := ⟨'"', _, rfl, by decide⟩
    obtain ⟨rfl, hrs⟩ := joinSep_inj stops_comma stops_brace (by decide) hstart
      (fun e he => ⟨(hentries e he).1, hentry (hentries e he).2⟩) hvalid (by simpa using h)
    exact ⟨rfl, hrs⟩
  | bool b => cases b <;> simp [kind] at hkind
  | null | int | float | str | arr => simp [kind] at hkind

end

/-- The canonical text of a value with sorted keys is read in one way only. -/
theorem writeValue_readsBack [Crates] [RyuReadsBack] (v : Json) (hsorted : v.SortedKeys) :
    ValueReadsBack v := by
  induction v using Json.induction with
  | null =>
    intro w r s hw hr hs h
    have hkind := kind_eq_of_append_eq h
    cases w with
    | null => exact ⟨rfl, List.append_cancel_left h⟩
    | bool b => cases b <;> simp [kind] at hkind
    | int | float | str | arr | obj => simp [kind] at hkind
  | bool b =>
    intro w r s hw hr hs h
    have hkind := kind_eq_of_append_eq h
    cases w with
    | bool b' =>
      obtain rfl : b = b' := by cases b <;> cases b' <;> simp [kind] at hkind ⊢
      exact ⟨rfl, List.append_cancel_left h⟩
    | null | int | float | str | arr | obj => cases b <;> simp [kind] at hkind
  | int i => exact readsBack_int i
  | float f => exact readsBack_float f
  | str a => exact readsBack_str a
  | arr items ih =>
    have hitems := (Json.sortedItems_iff items).mp hsorted
    exact readsBack_arr fun v hv => ⟨hitems v hv, ih v hv (hitems v hv)⟩
  | obj entries ih =>
    have hentries := (Json.sortedEntries_iff entries).mp hsorted.2
    exact readsBack_obj hsorted fun e he => ⟨hentries e he, ih e he (hentries e he)⟩

variable [Crates]

/-- Values with sorted keys and the same canonical text are equal. -/
theorem eq_of_writeValue_eq [RyuReadsBack] {v w : Json} (hv : v.SortedKeys) (hw : w.SortedKeys)
    (h : writeValue v = writeValue w) : v = w := by
  have hstop : Stops [] := by simp [Stops]
  exact (writeValue_readsBack v hv w [] [] hw hstop hstop (by rw [h])).1

/-- Well-formed values with the same canonical text are equal. -/
theorem writeValue_injective [RyuReadsBack] {v w : Json} (hv : v.WellFormed) (hw : w.WellFormed)
    (h : writeValue v = writeValue w) : v = w :=
  eq_of_writeValue_eq hv.sortedKeys hw.sortedKeys h

omit [Crates] in
/-- A text is determined by its bytes. -/
theorem asBytes_injective {a b : String} (h : asBytes a = asBytes b) : a = b := by
  have hbytes : a.toUTF8 = b.toUTF8 := ByteArray.ext (Array.toList_inj.mp h)
  exact String.toByteArray_inj.mp hbytes

omit [Crates] in
/-- The bytes of two texts in a row are those of the first and of the second. -/
theorem asBytes_append (a b : String) : asBytes (a ++ b) = asBytes a ++ asBytes b := by
  simp [asBytes]

/-- Well-formed values with the same canonical bytes are equal. -/
theorem canonicalBytes_injective [RyuReadsBack] {v w : Json} (hv : v.WellFormed)
    (hw : w.WellFormed) (h : canonicalBytes v = canonicalBytes w) : v = w :=
  writeValue_injective hv hw (String.ofList_injective (asBytes_injective h))

/-! ## Digests -/

omit [Crates] in
/-- Hexadecimal digits determine their values. -/
theorem digitChar_injective {n m : ℕ} (hn : n < 16) (hm : m < 16)
    (h : Nat.digitChar n = Nat.digitChar m) : n = m := by
  rw [← hexValue_digitChar hn, h, hexValue_digitChar hm]

omit [Crates] in
/-- Bytes are determined by their hexadecimal text. -/
theorem hex_injective {a b : List UInt8} (h : hex a = hex b) : a = b := by
  have h' := String.ofList_injective h
  induction a generalizing b with
  | nil =>
    cases b with
    | nil => rfl
    | cons y ys => simp at h'
  | cons x xs ih =>
    cases b with
    | nil => simp at h'
    | cons y ys =>
      simp only [List.flatMap_cons, List.cons_append, List.nil_append, List.cons.injEq] at h'
      obtain ⟨hhi, hlo, hrest⟩ := h'
      have hx := x.toNat_lt
      have hy := y.toNat_lt
      have h1 := digitChar_injective (by omega) (by omega) hhi
      have h2 := digitChar_injective (by omega) (by omega) hlo
      have hxy : x = y := UInt8.toNat_inj.mp (by omega)
      rw [hxy, ih (by unfold hex; rw [hrest]) hrest]

omit [Crates] in
/-- The bytes of a text are those of its characters. -/
theorem asBytes_ofList (l : List Char) :
    asBytes (String.ofList l) = l.flatMap String.utf8EncodeChar := by
  show (String.ofList l).toByteArray.data.toList = _
  rw [String.toByteArray_ofList]
  simp [List.utf8Encode]

omit [Crates] in
/-- The decoder reads a hexadecimal digit as its value. -/
theorem nib_digitChar {n : ℕ} (hn : n < 16) :
    ∃ x, String.utf8EncodeChar (Nat.digitChar n) = [x] ∧ nib x = some (UInt8.ofNat n) := by
  interval_cases n <;> exact ⟨_, rfl, by decide⟩

omit [Crates] in
/-- A byte is put together from its halves. -/
theorem byte_of_nibbles (b : UInt8) :
    (UInt8.ofNat (b.toNat / 16) <<< 4) ||| UInt8.ofNat (b.toNat % 16) = b := by
  have hall : ∀ n : Fin 256, (UInt8.ofNat (n.1 / 16) <<< 4) ||| UInt8.ofNat (n.1 % 16) =
      UInt8.ofNat n.1 := by decide +kernel
  simpa using hall ⟨b.toNat, b.toNat_lt⟩

omit [Crates] in
/-- `hex_decode` reads back what `hex` wrote. -/
theorem hexDecode_hex (data : List UInt8) : hexDecode (hex data) = some data := by
  unfold hexDecode hex
  rw [asBytes_ofList]
  induction data with
  | nil => rfl
  | cons b rest ih =>
    obtain ⟨hi, hhi, hhi'⟩ := nib_digitChar (n := b.toNat / 16) (by have := b.toNat_lt; omega)
    obtain ⟨lo, hlo, hlo'⟩ := nib_digitChar (n := b.toNat % 16) (by omega)
    simp only [List.flatMap_cons, hhi, hlo, List.cons_append, List.nil_append, hexPairs, hhi',
      hlo', ih]
    simp [byte_of_nibbles]

omit [Crates] in
/-- A hex text has no bracket in it. -/
theorem bracket_not_mem_hex (a : List UInt8) : ∀ c ∈ (hex a).toList, c ≠ '[' := by
  have hdigit {n : ℕ} (hn : n < 16) : Nat.digitChar n ≠ '[' := by
    interval_cases n <;> decide
  intro c hc
  simp only [hex, String.toList_ofList, List.mem_flatMap, List.mem_cons, List.not_mem_nil,
    or_false] at hc
  obtain ⟨b, -, rfl | rfl⟩ := hc
  · exact hdigit (by have := b.toNat_lt; omega)
  · exact hdigit (by omega)

variable [RyuReadsBack]

/-- The bytes under the proposal hash determine the proposal. -/
theorem proposalBytes_injective {p p' : CheckpointProposal}
    (h : canonicalBytes p.toValue = canonicalBytes p'.toValue) : p = p' := by
  have hvalue : p.toValue = p'.toValue :=
    canonicalBytes_injective (checkpointProposal_toValue_wellFormed p)
      (checkpointProposal_toValue_wellFormed p') h
  have := congrArg CheckpointProposal.fromValue hvalue
  rw [checkpointProposal_fromValue_toValue, checkpointProposal_fromValue_toValue] at this
  exact Option.some.inj this

/-- The proposal hash determines the proposal. -/
theorem proposalHash_injective (hsha : Sha256CollisionFree) {p p' : CheckpointProposal}
    (h : p.proposalHash = p'.proposalHash) : p = p' :=
  proposalBytes_injective (hsha (hex_injective h))

omit [Crates] [RyuReadsBack] in
/-- The signatures of a block are determined by their JSON. -/
theorem signaturesValue_injective {c c' : Checkpoint}
    (h : c.signaturesValue = c'.signaturesValue) : c.signatures = c'.signatures := by
  have := congrArg (Json.asList QuorumSignature.fromValue) h
  simp only [Checkpoint.signaturesValue,
    Json.asList_map _ _ quorumSignature_fromValue_toValue] at this
  exact Option.some.inj this

/-- The bytes under the block hash determine the block up to its quorum. -/
theorem blockBytes_injective (hsha : Sha256CollisionFree) {c c' : Checkpoint}
    (hbytes : asBytes c.proposal.proposalHash ++ canonicalBytes c.signaturesValue =
      asBytes c'.proposal.proposalHash ++ canonicalBytes c'.signaturesValue) :
    c.proposal = c'.proposal ∧ c.signatures = c'.signatures := by
  simp only [canonicalBytes, ← asBytes_append] at hbytes
  -- the proposal hash ends where the bracket of the signature list comes
  have htext := congrArg String.toList (asBytes_injective hbytes)
  simp only [String.toList_append, canonicalJson, String.toList_ofList] at htext
  have hopen (c : Checkpoint) : ∃ rest, writeValue c.signaturesValue = '[' :: rest :=
    ⟨_, by rw [Checkpoint.signaturesValue, writeValue]; rfl⟩
  obtain ⟨rest, hrest⟩ := hopen c
  obtain ⟨rest', hrest'⟩ := hopen c'
  have hstop (rest : List Char) : ∀ x ∈ ('[' :: rest).head?, ¬ x ≠ '[' := by simp
  obtain ⟨hhash, hsigs⟩ := append_inj_of_forall (P := fun x => x ≠ '[')
    (bracket_not_mem_hex _) (bracket_not_mem_hex _)
    (by rw [hrest]; exact hstop rest) (by rw [hrest']; exact hstop rest') htext
  refine ⟨proposalHash_injective hsha (String.toList_inj.mp hhash), ?_⟩
  exact signaturesValue_injective (writeValue_injective (signaturesValue_wellFormed c)
    (signaturesValue_wellFormed c') hsigs)

/-- The block hash determines the block up to its quorum. -/
theorem blockHash_injective (hsha : Sha256CollisionFree) {c c' : Checkpoint}
    (h : c.blockHash = c'.blockHash) :
    c.proposal = c'.proposal ∧ c.signatures = c'.signatures :=
  blockBytes_injective hsha (hsha (hex_injective h))

end Exodus.Interface
