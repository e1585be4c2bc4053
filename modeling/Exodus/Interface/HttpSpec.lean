import Exodus.Model.Http

/-!
# What the readers of a response do

Lines, trimmed text and numbers first; then the loop over header lines, on headers that stand
in a stream as text, and the loop over chunks, one turn at a time.
-/

set_option autoImplicit false

namespace Exodus.Interface

open Exodus.Library Exodus.Model

variable {bytes rest body : List UInt8} {s w line : List Char} {c : Char}

/-! ## Lines -/

def crlf : List Char := ['\r', '\n']

/-- A line of text in a stream is read as it is. -/
theorem readLine_text (h : '\n' ∉ s) (rest : List UInt8) :
    readLine (utf8Bytes (s ++ ['\n']) ++ rest) = (some (s ++ ['\n']), rest) := by
  rw [readLine, cutLine_utf8Bytes h, utf8Text_utf8Bytes]

/-- A line is read with its end. -/
theorem readLine_crlf (h : '\n' ∉ s) (rest : List UInt8) :
    readLine (utf8Bytes (s ++ crlf) ++ rest) = (some (s ++ crlf), rest) := by
  have hcr : '\n' ∉ s ++ ['\r'] := by simp [h]
  have hline := readLine_text hcr rest
  rwa [List.append_assoc, List.singleton_append] at hline

/-- A line that is not empty is read from a stream that is not. -/
theorem ne_nil_of_readLine (h : readLine bytes = (some line, rest)) (hne : line ≠ []) :
    bytes ≠ [] := by
  rintro rfl
  have hline : readLine [] = (some [], []) := rfl
  rw [hline, Prod.mk.injEq, Option.some_inj] at h
  exact hne h.1.symm

/-! ## Trimmed text -/

/-- Blanks at the end are trimmed. -/
theorem trimEnd_append (hw : ∀ c ∈ w, isWhitespace c = true) (s : List Char) :
    trimEnd (s ++ w) = trimEnd s := by
  induction w using List.reverseRecOn with
  | nil => rw [List.append_nil]
  | append_singleton w c ih =>
    rw [← List.append_assoc, trimEnd, List.rdropWhile_concat_pos _ _ _ (hw c (by simp))]
    exact ih fun d hd => hw d (by simp [hd])

/-- Trimming the end does not go beyond a character that is no whitespace. -/
theorem trimEnd_append_cons (hc : isWhitespace c = false) (s t : List Char) :
    trimEnd (s ++ c :: t) = s ++ c :: trimEnd t := by
  induction t using List.reverseRecOn with
  | nil => exact List.rdropWhile_concat_neg _ _ _ (by simp [hc])
  | append_singleton t d ih =>
    have hassoc : s ++ c :: (t ++ [d]) = (s ++ c :: t) ++ [d] := by simp
    rw [hassoc]
    by_cases hd : isWhitespace d = true
    · have hone : ∀ e ∈ [d], isWhitespace e = true := by simp [hd]
      rw [trimEnd_append hone, trimEnd_append hone, ih]
    · rw [trimEnd, trimEnd, List.rdropWhile_concat_neg _ _ _ hd,
        List.rdropWhile_concat_neg _ _ _ hd, hassoc]

/-- So is a line end. -/
theorem trimEnd_crlf (s : List Char) : trimEnd (s ++ crlf) = trimEnd s := by
  apply trimEnd_append
  intro c hc
  rcases List.mem_pair.mp hc with rfl | rfl <;> rfl

/-- A text without blanks stays. -/
theorem trimEnd_eq_self (hs : ∀ c ∈ s, isWhitespace c = false) : trimEnd s = s := by
  cases s using List.reverseRecOn with
  | nil => rfl
  | append_singleton s c =>
    exact trimEnd_append_cons (hs c (by simp)) s []

/-- Blanks at the start are trimmed. -/
theorem trimStart_append (hw : ∀ c ∈ w, isWhitespace c = true) (s : List Char) :
    trimStart (w ++ s) = trimStart s := List.dropWhile_append_of_pos hw

/-- So they are when both ends are. -/
theorem trim_append (hw : ∀ c ∈ w, isWhitespace c = true) (s : List Char) :
    trim (w ++ s) = trim s := by rw [trim, trimStart_append hw, trim]

/-- A text that starts with no blank keeps its start. -/
theorem trimStart_eq_self (hs : ∀ c ∈ s.head?, isWhitespace c = false) : trimStart s = s := by
  cases s with
  | nil => rfl
  | cons c s =>
    have hc := hs c rfl
    exact List.dropWhile_cons_of_neg (by simp [hc])

/-! ## Numbers -/

/-- A digit is a letter or one of the ten digits. -/
theorem alphanum_of_toDigit {radix d : ℕ} (h : toDigit radix c = some d) :
    48 ≤ c.toNat ∧ c.toNat ≤ 57 ∨ 65 ≤ c.toNat ∧ c.toNat ≤ 90 ∨ 97 ≤ c.toNat ∧ c.toNat ≤ 122 := by
  unfold toDigit at h
  dsimp only at h
  split_ifs at h
  · omega
  · omega
  · omega
  · cases h

/-- A text that has a value is made of digits. -/
theorem toDigit_of_digitsValue {radix value n : ℕ} (h : digitsValue radix s value = some n)
    (hc : c ∈ s) : ∃ d, toDigit radix c = some d := by
  induction s generalizing value with
  | nil => exact absurd hc List.not_mem_nil
  | cons e s ih =>
    rw [digitsValue, Option.bind_eq_some_iff] at h
    obtain ⟨d, hd, hrest⟩ := h
    rcases List.mem_cons.mp hc with rfl | hmem
    · exact ⟨d, hd⟩
    · exact ih hrest hmem

/-- Another digit behind a number multiplies it by the radix and is added. -/
theorem digitsValue_concat (radix value : ℕ) (s : List Char) (c : Char) :
    digitsValue radix (s ++ [c]) value =
      (digitsValue radix s value).bind fun v => (toDigit radix c).map (v * radix + ·) := by
  induction s generalizing value with
  | nil =>
    rw [List.nil_append, digitsValue, digitsValue, Option.bind_some]
    cases toDigit radix c <;> rfl
  | cons e s ih =>
    rw [List.cons_append, digitsValue, digitsValue, Option.bind_assoc]
    congr 1
    funext d
    exact ih _

/-- Digits are read back, in every radix up to 16. -/
theorem toDigit_digitChar :
    ∀ radix < 17, ∀ d < radix, toDigit radix (Nat.digitChar d) = some d := by decide

/-- A number is read back from its digits. -/
theorem digitsValue_toDigits {radix : ℕ} (hone : 1 < radix) (hradix : radix < 17) (n : ℕ) :
    digitsValue radix (Nat.toDigits radix n) 0 = some n := by
  induction n using Nat.strong_induction_on with
  | _ n ih =>
    rw [Nat.toDigits_eq_if hone]
    split_ifs with hlt
    · rw [digitsValue, toDigit_digitChar radix hradix n hlt, Option.bind_some, digitsValue,
        Nat.zero_mul, Nat.zero_add]
    · have hpos : 0 < n := by omega
      have hmod := Nat.mod_lt n (by omega : 0 < radix)
      rw [digitsValue_concat, ih _ (Nat.div_lt_self hpos hone), Option.bind_some,
        toDigit_digitChar radix hradix _ hmod, Option.map_some, Nat.div_add_mod']

/-- A text of digits has no whitespace, no sign and no semicolon. -/
theorem digits_plain {radix value n : ℕ} (h : digitsValue radix s value = some n) (hc : c ∈ s) :
    isWhitespace c = false ∧ c ≠ '+' ∧ c ≠ ';' := by
  obtain ⟨d, hd⟩ := toDigit_of_digitsValue h hc
  have hrange := alphanum_of_toDigit hd
  refine ⟨?_, ?_, ?_⟩
  · simp only [isWhitespace, Bool.or_eq_false_iff, Bool.and_eq_false_iff, decide_eq_false_iff_not]
    omega
  · rintro rfl
    revert hrange
    decide
  · rintro rfl
    revert hrange
    decide

/-- A number is parsed if it fits. -/
theorem fromStrRadix_of_digits {radix size n : ℕ} (hne : s ≠ [])
    (h : digitsValue radix s 0 = some n) :
    fromStrRadix radix size s = if n < size then some n else none := by
  have hsign : s.head? ≠ some '+' := by
    intro hhead
    exact (digits_plain h (List.mem_of_head? hhead)).2.1 rfl
  rw [fromStrRadix, if_neg hsign, if_neg hne, h, Option.filter_some]
  simp only [decide_eq_true_eq]

/-- Whitespace behind a number is trimmed off. -/
theorem trim_digits_append {radix value n : ℕ} (hne : s ≠ [])
    (h : digitsValue radix s value = some n) (hw : ∀ c ∈ w, isWhitespace c = true) :
    trim (s ++ w) = s := by
  have hhead : ∀ c ∈ (s ++ w).head?, isWhitespace c = false := by
    intro c hc
    rw [List.head?_append_of_ne_nil _ hne] at hc
    exact (digits_plain h (List.mem_of_head? hc)).1
  rw [trim, trimStart_eq_self hhead, trimEnd_append hw]
  exact trimEnd_eq_self fun c hc => (digits_plain h hc).1

/-- Digits have no blanks to trim. -/
theorem trim_digits {radix value n : ℕ} (hne : s ≠ []) (h : digitsValue radix s value = some n) :
    trim s = s := by
  have htrim := trim_digits_append hne h (List.forall_mem_nil _)
  rwa [List.append_nil] at htrim

/-- Nor has a text with digits at its end. -/
theorem trimEnd_append_digits {radix value n : ℕ} {digits : List Char} (hne : digits ≠ [])
    (h : digitsValue radix digits value = some n) (s : List Char) :
    trimEnd (s ++ digits) = s ++ digits := by
  cases digits using List.reverseRecOn with
  | nil => exact absurd rfl hne
  | append_singleton digits c =>
    rw [← List.append_assoc]
    exact trimEnd_append_cons (digits_plain h (by simp)).1 _ []

/-- Decimal digits are ASCII and have no case. -/
theorem toLower_of_isDigit (h : c.isDigit = true) : c.toNat < 128 ∧ c.toLower = c := by
  have hnat : c.toNat ≤ 57 := (Char.isDigit_iff_toNat.mp h).2
  refine ⟨by omega, Char.toLower_eq_of_not_isUpper ?_⟩
  intro hupper
  rw [Char.isUpper, decide_eq_true_eq] at hupper
  have hletter : 65 ≤ c.toNat := hupper.1
  omega

/-! ## Headers -/

section Headers

variable [RustText] {framing : Option ℕ × Bool}

/-- A blank line ends the headers. -/
theorem readHeaders_blank (hline : readLine bytes = (some line, rest)) (hne : line ≠ [])
    (hblank : trimEnd line = []) : readHeaders bytes framing = .ok (framing, rest) := by
  rw [readHeaders, dif_neg (ne_nil_of_readLine hline hne), hline]
  exact if_pos hblank

/-- A header is noted, and the next one is read. -/
theorem readHeaders_line (hline : readLine bytes = (some line, rest)) (hne : trimEnd line ≠ []) :
    readHeaders bytes framing = readHeaders rest (noteHeader (trimEnd line) framing) := by
  have hline' : line ≠ [] := by
    rintro rfl
    exact hne rfl
  rw [readHeaders, dif_neg (ne_nil_of_readLine hline hline'), hline]
  exact if_neg hne

/-- A status line and header lines as they stand in a stream. -/
def headBytes (status : List Char) (headers : List (List Char)) : List UInt8 :=
  utf8Bytes (status ++ crlf) ++ (headers.flatMap (fun h => utf8Bytes (h ++ crlf)) ++ utf8Bytes crlf)

/-- Headers in a row are noted one by one. -/
theorem readHeaders_lines {headers : List (List Char)}
    (h : ∀ s ∈ headers, '\n' ∉ s ∧ trimEnd s ≠ []) (rest : List UInt8) :
    readHeaders (headers.flatMap (fun h => utf8Bytes (h ++ crlf)) ++ (utf8Bytes crlf ++ rest))
        framing = .ok (headers.foldl (fun f s => noteHeader (trimEnd s) f) framing, rest) := by
  induction headers generalizing framing with
  | nil =>
    apply readHeaders_blank (readLine_crlf List.not_mem_nil rest)
    · decide
    · exact trimEnd_crlf []
  | cons s headers ih =>
    have hs := h s List.mem_cons_self
    have hline := readLine_crlf hs.1
      (headers.flatMap (fun h => utf8Bytes (h ++ crlf)) ++ (utf8Bytes crlf ++ rest))
    have hne : trimEnd (s ++ crlf) ≠ [] := by
      rw [trimEnd_crlf]
      exact hs.2
    rw [List.flatMap_cons, List.append_assoc, readHeaders_line hline hne, trimEnd_crlf]
    exact ih fun t ht => h t (List.mem_cons_of_mem s ht)

/-- What is read of a head that was written. -/
theorem readHead_headBytes {status : List Char} {headers : List (List Char)}
    (hstatus : '\n' ∉ status) (h : ∀ s ∈ headers, '\n' ∉ s ∧ trimEnd s ≠ [])
    (rest : List UInt8) :
    let framing := headers.foldl (fun f s => noteHeader (trimEnd s) f) (none, false)
    readHead (headBytes status headers ++ rest) =
      .ok ⟨statusCode (status ++ crlf), framing.1, framing.2, rest⟩ := by
  intro framing
  rw [headBytes, List.append_assoc, List.append_assoc, readHead, readLine_crlf hstatus]
  dsimp only
  rw [readHeaders_lines h]
  rfl

def chunkedHeader : List Char := "Transfer-Encoding: chunked".toList

def lengthHeader (n : ℕ) : List Char := "Content-Length: ".toList ++ Nat.toDigits 10 n

/-- The header for chunks is noted. -/
theorem noteHeader_chunkedHeader :
    noteHeader (trimEnd chunkedHeader) framing = (framing.1, true) := rfl

/-- Lower case leaves digits. -/
theorem toLowercase_append_digits {digits : List Char}
    (hs : s.all (fun c => c.toNat < 128) = true) (hdigits : ∀ c ∈ digits, c.isDigit = true) :
    toLowercase (s ++ digits) = s.map Char.toLower ++ digits := by
  have hascii : (s ++ digits).all (fun c => c.toNat < 128) = true := by
    rw [List.all_append, hs, Bool.true_and, List.all_eq_true]
    intro c hc
    exact decide_eq_true (toLower_of_isDigit (hdigits c hc)).1
  rw [toLowercase, if_pos hascii, List.map_append,
    List.map_congr_left fun c hc => (toLower_of_isDigit (hdigits c hc)).2, List.map_id']

/-- A content length in digits is noted. -/
theorem noteHeader_length {digits : List Char} {n : ℕ} (hne : digits ≠ [])
    (hdigits : ∀ c ∈ digits, c.isDigit = true) (hvalue : digitsValue 10 digits 0 = some n)
    (hn : n < 2 ^ 64) :
    noteHeader (trimEnd ("Content-Length: ".toList ++ digits)) framing = (some n, framing.2) := by
  have hascii : "Content-Length: ".toList.all (fun c => c.toNat < 128) = true := rfl
  have hname : "Content-Length: ".toList.map Char.toLower = "content-length:".toList ++ [' '] := rfl
  have hlower : toLowercase ("Content-Length: ".toList ++ digits) =
      "content-length:".toList ++ ([' '] ++ digits) := by
    rw [toLowercase_append_digits hascii hdigits, hname, List.append_assoc]
  have hdrop : (toLowercase ("Content-Length: ".toList ++ digits)).dropPrefix?
      "content-length:".toList = some ([' '] ++ digits) := by
    rw [hlower, List.dropPrefix?_eq_some_iff]
    exact ⟨_, rfl, beq_self_eq_true _⟩
  have hspace : ∀ c ∈ [' '], isWhitespace c = true := by
    intro c hc
    rw [List.mem_singleton.mp hc]
    rfl
  rw [noteHeader, trimEnd_append_digits hne hvalue, hdrop]
  dsimp only
  rw [trim_append hspace, trim_digits hne hvalue, fromStrRadix_of_digits hne hvalue, if_pos hn]

/-- The header for a length is noted, with its value. -/
theorem noteHeader_lengthHeader {n : ℕ} (hn : n < 2 ^ 64) :
    noteHeader (trimEnd (lengthHeader n)) framing = (some n, framing.2) := by
  apply noteHeader_length Nat.toDigits_ne_nil
  · intro c hc
    exact Nat.isDigit_of_mem_toDigits (by decide) (by decide) hc
  · exact digitsValue_toDigits (by decide) (by decide) n
  · exact hn

end Headers

/-! ## Chunks -/

/-- The loop ends where the stream does. -/
theorem readChunks_nil (body : List UInt8) : readChunks [] body = .ok body := by
  rw [readChunks, dif_pos rfl]

/-- The loop ends at a size of zero. -/
theorem readChunks_last (hline : readLine bytes = (some line, rest)) (hne : line ≠ [])
    (hsize : chunkSize line = 0) : readChunks bytes body = .ok body := by
  rw [readChunks, dif_neg (ne_nil_of_readLine hline hne), hline]
  exact if_pos hsize

/-- A turn with a chunk whose size line, bytes and line end stand in the stream. -/
theorem readChunks_chunk {chunk lineEnd more : List UInt8}
    (hline : readLine bytes = (some line, chunk ++ (lineEnd ++ more))) (hne : line ≠ [])
    (hsize : chunkSize line = chunk.length) (hpos : chunk ≠ [])
    (hfits : (body ++ chunk).length ≤ isizeMax)
    (hend : cutLine (lineEnd ++ more) = (lineEnd, more)) :
    readChunks bytes body = readChunks more (body ++ chunk) := by
  have hchunk : ¬isizeMax < chunk.length := by
    rw [List.length_append] at hfits
    omega
  have hlength : ¬(chunk ++ (lineEnd ++ more)).length < chunk.length := by
    rw [List.length_append]
    omega
  rw [readChunks, dif_neg (ne_nil_of_readLine hline hne), hline]
  dsimp only
  rw [hsize, if_neg (by simpa using hpos), if_neg hchunk, if_neg hlength, List.take_left,
    if_neg (Nat.not_lt.mpr hfits), List.drop_left, hend]

/-- What one turn of the loop does, when the loop ends well. -/
theorem readChunks_cases {text : List UInt8} (h : readChunks bytes body = .ok text) :
    (bytes = [] ∧ text = body) ∨
      (∃ line rest, readLine bytes = (some line, rest) ∧ chunkSize line = 0 ∧ text = body) ∨
      ∃ line chunk behind, readLine bytes = (some line, chunk ++ behind) ∧
        chunkSize line = chunk.length ∧ chunk ≠ [] ∧ (body ++ chunk).length ≤ isizeMax ∧
        (cutLine behind).2.length < bytes.length ∧
        readChunks (cutLine behind).2 (body ++ chunk) = .ok text := by
  rw [readChunks] at h
  split_ifs at h with hbytes
  · exact .inl ⟨hbytes, (Except.ok.inj h).symm⟩
  · cases hline : (readLine bytes).1 with
    | none =>
      rw [hline] at h
      cases h
    | some line =>
      have hread : readLine bytes = (some line, (readLine bytes).2) := Prod.ext hline rfl
      rw [hline] at h
      dsimp only at h
      split_ifs at h with hzero hsize hshort hfits
      · exact .inr (.inl ⟨line, _, hread, hzero, (Except.ok.inj h).symm⟩)
      · have hrest : (readLine bytes).2.length < bytes.length := length_cutLine_lt hbytes
        have htake := List.length_take_of_le (Nat.not_lt.mp hshort)
        have hbehind := length_cutLine_le ((readLine bytes).2.drop (chunkSize line))
        rw [List.length_drop] at hbehind
        refine .inr (.inr ⟨line, (readLine bytes).2.take (chunkSize line),
          (readLine bytes).2.drop (chunkSize line), ?_, htake.symm, ?_, Nat.not_lt.mp hfits, by omega,
          h⟩)
        · rw [List.take_append_drop]
          exact hread
        · intro hnil
          rw [hnil] at htake
          exact hzero htake.symm

end Exodus.Interface
