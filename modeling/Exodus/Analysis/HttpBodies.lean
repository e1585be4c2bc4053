import Exodus.Interface.HttpSpec

/-!
# Bodies of HTTP responses

`Chunked` is the format of a chunked body: chunks with their size lines and line ends, and a
size line of zero.  The loop over chunks reads every such body (`readChunks_of_chunked`), so
a body in chunks and the same body under a content length are one text.

The loop also ends at the end of the stream and at a size line that it cannot read, and it
does not look at the line behind a chunk.  So a body that was read is a complete one exactly
if the stream has none of these faults (`Fault`).
-/

set_option autoImplicit false

namespace Exodus.Analysis

open Exodus.Library Exodus.Model Exodus.Interface

variable {bytes body : List UInt8} {line : List Char} {size : ℕ} {chunks : List (List UInt8)}

/-! ## The format -/

/-- What may stand behind the size of a chunk: blanks, and extensions behind a semicolon. -/
def Extension (ext : List Char) : Prop :=
  '\n' ∉ ext ∧ ∃ blanks more, ext = blanks ++ more ∧ (∀ c ∈ blanks, c = ' ' ∨ c = '\t') ∧
    (more = [] ∨ ∃ t, more = ';' :: t)

/-- A size line: hexadecimal digits, perhaps extensions, and a line end. -/
def SizeLine (line : List Char) (size : ℕ) : Prop :=
  ∃ digits ext lineEnd, line = digits ++ (ext ++ lineEnd) ∧ digits ≠ [] ∧
    digitsValue 16 digits 0 = some size ∧ Extension ext ∧ (lineEnd = crlf ∨ lineEnd = ['\n'])

def LineEnd (bytes : List UInt8) : Prop := bytes = [13, 10] ∨ bytes = [10]

/-- A stream begins with a complete chunked body that holds these chunks. -/
inductive Chunked : List UInt8 → List (List UInt8) → Prop
  | last {line : List Char} (tail : List UInt8) (hline : SizeLine line 0) :
      Chunked (utf8Bytes line ++ tail) []
  | chunk {line : List Char} {chunk lineEnd rest : List UInt8} {chunks : List (List UInt8)}
      (hline : SizeLine line chunk.length) (hne : chunk ≠ []) (hend : LineEnd lineEnd)
      (hrest : Chunked rest chunks) :
      Chunked (utf8Bytes line ++ (chunk ++ (lineEnd ++ rest))) (chunk :: chunks)

/-- The faults of a stream that the loop over chunks lets pass: the stream ends where a size
line should stand; something else stands there; the size does not fit into 64 bits, and is
taken for zero; or there is no line end behind a chunk.  The stream up to the fault is made of
chunks. -/
inductive Fault : List UInt8 → Prop
  | ended : Fault []
  | malformed {bytes : List UInt8} (hne : bytes ≠ [])
      (hbad : ∀ line size rest, SizeLine line size → bytes ≠ utf8Bytes line ++ rest) :
      Fault bytes
  | oversized {line : List Char} {size : ℕ} (rest : List UInt8) (hline : SizeLine line size)
      (hsize : 2 ^ 64 ≤ size) : Fault (utf8Bytes line ++ rest)
  | unclosed {line : List Char} {chunk behind : List UInt8}
      (hline : SizeLine line chunk.length) (hne : chunk ≠ [])
      (hopen : ∀ lineEnd rest, LineEnd lineEnd → behind ≠ lineEnd ++ rest) :
      Fault (utf8Bytes line ++ (chunk ++ behind))
  | later {line : List Char} {chunk lineEnd rest : List UInt8}
      (hline : SizeLine line chunk.length) (hne : chunk ≠ []) (hend : LineEnd lineEnd)
      (hrest : Fault rest) : Fault (utf8Bytes line ++ (chunk ++ (lineEnd ++ rest)))

/-! ## Size lines -/

/-- A size line is not empty. -/
theorem SizeLine.ne_nil (h : SizeLine line size) : line ≠ [] := by
  obtain ⟨digits, ext, lineEnd, rfl, hne, -⟩ := h
  exact List.append_ne_nil_of_left_ne_nil hne _

/-- It is read as one line. -/
theorem SizeLine.readLine_eq (h : SizeLine line size) (rest : List UInt8) :
    readLine (utf8Bytes line ++ rest) = (some line, rest) := by
  obtain ⟨digits, ext, lineEnd, rfl, -, hvalue, ⟨hext, -⟩, hend⟩ := h
  have hdigits : '\n' ∉ digits := by
    intro hmem
    exact absurd (digits_plain hvalue hmem).1 (by decide)
  have hmem : '\n' ∉ digits ++ ext := by
    rw [List.mem_append, not_or]
    exact ⟨hdigits, hext⟩
  rw [← List.append_assoc]
  rcases hend with rfl | rfl
  · exact readLine_crlf hmem rest
  · exact readLine_text hmem rest

/-- The digits of a size line are what the code looks at. -/
theorem sizeField_eq {digits ext lineEnd : List Char} (hne : digits ≠ [])
    (hvalue : digitsValue 16 digits 0 = some size) (hext : Extension ext)
    (hend : lineEnd = crlf ∨ lineEnd = ['\n']) :
    trim ((trim (digits ++ (ext ++ lineEnd))).takeWhile (· ≠ ';')) = digits := by
  have hlineEnd : ∀ c ∈ lineEnd, isWhitespace c = true := by
    intro c hc
    rcases hend with rfl | rfl
    · rcases List.mem_pair.mp hc with rfl | rfl <;> rfl
    · rw [List.mem_singleton.mp hc]
      rfl
  have hdigits : ∀ c ∈ digits, decide (c ≠ ';') = true := by
    intro c hc
    exact decide_eq_true (digits_plain hvalue hc).2.2
  obtain ⟨-, blanks, more, rfl, hblanks, hmore⟩ := hext
  have hspace : ∀ c ∈ blanks, isWhitespace c = true := by
    intro c hc
    rcases hblanks c hc with rfl | rfl <;> rfl
  rcases hmore with rfl | ⟨t, rfl⟩
  · have hbehind : ∀ c ∈ blanks ++ [] ++ lineEnd, isWhitespace c = true := by
      intro c hc
      rw [List.append_nil, List.mem_append] at hc
      exact hc.elim (hspace c) (hlineEnd c)
    rw [trim_digits_append hne hvalue hbehind, List.takeWhile_eq_self_iff.mpr hdigits]
    exact trim_digits hne hvalue
  · have hline : digits ++ (blanks ++ ';' :: t ++ lineEnd) =
        digits ++ blanks ++ ';' :: (t ++ lineEnd) := by simp
    have hhead : ∀ c ∈ (digits ++ blanks ++ ';' :: (t ++ lineEnd)).head?,
        isWhitespace c = false := by
      intro c hc
      rw [List.append_assoc, List.head?_append_of_ne_nil _ hne] at hc
      exact (digits_plain hvalue (List.mem_of_head? hc)).1
    have hfield : ∀ c ∈ digits ++ blanks, decide (c ≠ ';') = true := by
      intro c hc
      rcases List.mem_append.mp hc with hmem | hmem
      · exact hdigits c hmem
      · rcases hblanks c hmem with rfl | rfl <;> rfl
    have htrim : trim (digits ++ blanks ++ ';' :: (t ++ lineEnd)) =
        digits ++ blanks ++ ';' :: trimEnd (t ++ lineEnd) := by
      rw [trim, trimStart_eq_self hhead, trimEnd_append_cons rfl]
    rw [hline, htrim, List.takeWhile_append_of_pos hfield,
      List.takeWhile_cons_of_neg (by decide), List.append_nil]
    exact trim_digits_append hne hvalue hspace

/-- A line has one size. -/
theorem SizeLine.unique {size' : ℕ} (h : SizeLine line size) (h' : SizeLine line size') :
    size = size' := by
  obtain ⟨digits, ext, lineEnd, rfl, hne, hvalue, hext, hend⟩ := h
  obtain ⟨digits', ext', lineEnd', hsame, hne', hvalue', hext', hend'⟩ := h'
  have hdigits : digits = digits' := by
    rw [← sizeField_eq hne hvalue hext hend, hsame]
    exact sizeField_eq hne' hvalue' hext' hend'
  rw [hdigits, hvalue'] at hvalue
  exact (Option.some.inj hvalue).symm

/-- A stream begins with one size line at most. -/
theorem SizeLine.append_inj {line' : List Char} {size' : ℕ} {rest rest' : List UInt8}
    (h : SizeLine line size) (h' : SizeLine line' size')
    (heq : utf8Bytes line ++ rest = utf8Bytes line' ++ rest') :
    line = line' ∧ size = size' ∧ rest = rest' := by
  have hread : readLine (utf8Bytes line ++ rest) = (some line', rest') :=
    heq ▸ h'.readLine_eq rest'
  rw [h.readLine_eq rest, Prod.mk.injEq, Option.some.injEq] at hread
  obtain ⟨rfl, rfl⟩ := hread
  exact ⟨rfl, h.unique h', rfl⟩

/-- Its size is read, if it fits into 64 bits. -/
theorem SizeLine.chunkSize_eq (h : SizeLine line size) (hsize : size < 2 ^ 64) :
    chunkSize line = size := by
  obtain ⟨digits, ext, lineEnd, rfl, hne, hvalue, hext, hend⟩ := h
  rw [chunkSize, sizeField_eq hne hvalue hext hend, fromStrRadix_of_digits hne hvalue, if_pos hsize]
  rfl

/-! ## Chunked bodies are read -/

/-- A line end is read as one line. -/
theorem LineEnd.cutLine_eq {lineEnd : List UInt8} (h : LineEnd lineEnd) (rest : List UInt8) :
    cutLine (lineEnd ++ rest) = (lineEnd, rest) := by
  rcases h with rfl | rfl <;> rfl

/-- A body that a vector can hold has a length that fits. -/
theorem lt_of_le_isizeMax {n : ℕ} (h : n ≤ isizeMax) : n < 2 ^ 64 := by
  have hmax : isizeMax = 2 ^ 63 - 1 := rfl
  omega

/-- The loop reads a complete body. -/
theorem readChunks_of_chunked (h : Chunked bytes chunks) (body : List UInt8)
    (hfits : (body ++ chunks.flatten).length ≤ isizeMax) :
    readChunks bytes body = .ok (body ++ chunks.flatten) := by
  induction h generalizing body with
  | @last line tail hline =>
    rw [List.flatten_nil, List.append_nil]
    exact readChunks_last (hline.readLine_eq tail) hline.ne_nil (hline.chunkSize_eq (by decide))
  | @chunk line chunk lineEnd rest chunks hline hne hend hrest ih =>
    have hassoc : body ++ (chunk :: chunks).flatten = body ++ chunk ++ chunks.flatten := by
      rw [List.flatten_cons, List.append_assoc]
    rw [hassoc] at hfits ⊢
    have hbodyfits : (body ++ chunk).length ≤ isizeMax := by
      rw [List.length_append] at hfits
      omega
    have hsize : chunk.length < 2 ^ 64 := by
      rw [List.length_append] at hbodyfits
      exact lt_of_le_isizeMax (by omega)
    rw [readChunks_chunk (hline.readLine_eq _) hline.ne_nil (hline.chunkSize_eq hsize) hne hbodyfits
      (hend.cutLine_eq rest)]
    exact ih _ hfits

/-! ## Faults -/

/-- Chunks of one length that follow the same size line are the same, and so is what follows. -/
theorem chunk_inj {line' : List Char} {chunk chunk' behind behind' : List UInt8}
    (h : SizeLine line chunk.length) (h' : SizeLine line' chunk'.length)
    (heq : utf8Bytes line ++ (chunk ++ behind) = utf8Bytes line' ++ (chunk' ++ behind')) :
    chunk = chunk' ∧ behind = behind' := by
  obtain ⟨-, hlength, hrest⟩ := h.append_inj h' heq
  exact List.append_inj hrest hlength

/-- A complete body has no fault. -/
theorem not_fault_of_chunked (h : Chunked bytes chunks) (hfits : chunks.flatten.length ≤ isizeMax) :
    ¬ Fault bytes := by
  induction h with
  | @last line tail hline =>
    generalize hbytes : utf8Bytes line ++ tail = bytes
    intro hfault
    cases hfault with
    | ended =>
      have hread := hline.readLine_eq tail
      exact ne_nil_of_readLine hread hline.ne_nil hbytes
    | malformed _ hbad => exact hbad _ _ _ hline hbytes.symm
    | oversized rest hline' hsize =>
      obtain ⟨-, rfl, -⟩ := hline.append_inj hline' hbytes
      exact absurd hsize (by decide)
    | unclosed hline' hne _ =>
      obtain ⟨-, hzero, -⟩ := hline.append_inj hline' hbytes
      exact hne (List.length_eq_zero_iff.mp hzero.symm)
    | later hline' hne _ _ =>
      obtain ⟨-, hzero, -⟩ := hline.append_inj hline' hbytes
      exact hne (List.length_eq_zero_iff.mp hzero.symm)
  | @chunk line chunk lineEnd rest chunks hline hne hend hrest ih =>
    rw [List.flatten_cons, List.length_append] at hfits
    generalize hbytes : utf8Bytes line ++ (chunk ++ (lineEnd ++ rest)) = bytes
    intro hfault
    cases hfault with
    | ended => exact ne_nil_of_readLine (hline.readLine_eq _) hline.ne_nil hbytes
    | malformed _ hbad => exact hbad _ _ _ hline hbytes.symm
    | oversized rest' hline' hsize =>
      obtain ⟨-, rfl, -⟩ := hline.append_inj hline' hbytes
      have := lt_of_le_isizeMax (n := chunk.length) (by omega)
      omega
    | unclosed hline' _ hopen =>
      exact hopen _ _ hend (chunk_inj hline hline' hbytes).2.symm
    | later hline' _ hend' hrest' =>
      have hcut := congrArg cutLine (chunk_inj hline hline' hbytes).2
      rw [hend.cutLine_eq, hend'.cutLine_eq, Prod.mk.injEq] at hcut
      exact ih (by omega) (hcut.2 ▸ hrest')

/-- A stream without a fault begins with a size line that fits. -/
theorem exists_sizeLine_of_not_fault (h : ¬ Fault bytes) :
    ∃ line size rest, SizeLine line size ∧ size < 2 ^ 64 ∧ bytes = utf8Bytes line ++ rest := by
  have hne : bytes ≠ [] := by
    rintro rfl
    exact h .ended
  by_contra hnone
  refine h (.malformed hne fun line size rest hline heq => hnone ⟨line, size, rest, hline, ?_, heq⟩)
  by_contra hsize
  exact h (heq ▸ .oversized rest hline (Nat.not_lt.mp hsize))

/-- What is read from a stream without a fault is a complete body. -/
theorem chunked_of_not_fault {text : List UInt8} (hfits : body.length ≤ isizeMax)
    (h : readChunks bytes body = .ok text) (hsound : ¬ Fault bytes) :
    ∃ chunks, Chunked bytes chunks ∧ text = body ++ chunks.flatten ∧ text.length ≤ isizeMax := by
  -- Each turn leaves a shorter stream.
  induction hn : bytes.length using Nat.strong_induction_on generalizing bytes body with
  | _ n ih =>
    obtain ⟨line, size, rest, hline, hsize, rfl⟩ := exists_sizeLine_of_not_fault hsound
    have hread := hline.readLine_eq rest
    have hvalue := hline.chunkSize_eq hsize
    rcases readChunks_cases h with ⟨hnil, -⟩ | ⟨line', rest', hread', hzero, rfl⟩ |
      ⟨line', chunk, behind, hread', hlength, hne, hlonger, hshorter, hlater⟩
    · exact absurd hnil (ne_nil_of_readLine hread hline.ne_nil)
    · rw [hread, Prod.mk.injEq, Option.some.injEq] at hread'
      rw [← hread'.1, hvalue] at hzero
      subst hzero
      refine ⟨[], .last rest hline, ?_, hfits⟩
      rw [List.flatten_nil, List.append_nil]
    · rw [hread, Prod.mk.injEq, Option.some.injEq] at hread'
      obtain ⟨rfl, rfl⟩ := hread'
      rw [hvalue] at hlength
      subst hlength
      -- the line behind the chunk is a line end
      obtain ⟨lineEnd, more, hend, rfl⟩ : ∃ lineEnd more, LineEnd lineEnd ∧
          behind = lineEnd ++ more := by
        by_contra hnone
        exact hsound (.unclosed hline hne fun lineEnd more hend heq =>
          hnone ⟨lineEnd, more, hend, heq⟩)
      rw [hend.cutLine_eq] at hshorter hlater
      have hmore : ¬ Fault more := fun hfault => hsound (.later hline hne hend hfault)
      obtain ⟨chunks, hchunked, hbody, hbodyfits⟩ :=
        ih _ (hn ▸ hshorter) hlonger hlater hmore rfl
      refine ⟨chunk :: chunks, .chunk hline hne hend hchunked, ?_, hbodyfits⟩
      rw [List.flatten_cons, ← List.append_assoc]
      exact hbody

/-! ## Two framings of one body -/

/-- A chunk with its extensions as it is sent. -/
def encodeChunk (part : List UInt8 × List Char) : List UInt8 :=
  utf8Bytes (Nat.toDigits 16 part.1.length ++ (part.2 ++ crlf)) ++ (part.1 ++ [13, 10])

/-- Chunks, the last size line, and whatever follows. -/
def encodeChunked (parts : List (List UInt8 × List Char)) (lastExt : List Char)
    (trailer : List UInt8) : List UInt8 :=
  parts.flatMap encodeChunk ++ (utf8Bytes (['0'] ++ (lastExt ++ crlf)) ++ trailer)

/-- Hexadecimal digits with an extension are a size line. -/
theorem sizeLine_toDigits {ext : List Char} (hext : Extension ext) (size : ℕ) :
    SizeLine (Nat.toDigits 16 size ++ (ext ++ crlf)) size :=
  ⟨_, _, _, rfl, Nat.toDigits_ne_nil, digitsValue_toDigits (by decide) (by decide) size, hext,
    .inl rfl⟩

/-- What is written in chunks is a chunked encoding of them. -/
theorem chunked_encodeChunked {parts : List (List UInt8 × List Char)} {lastExt : List Char}
    (hparts : ∀ p ∈ parts, p.1 ≠ [] ∧ Extension p.2) (hlast : Extension lastExt)
    (trailer : List UInt8) :
    Chunked (encodeChunked parts lastExt trailer) (parts.map Prod.fst) := by
  induction parts with
  | nil => exact .last trailer (sizeLine_toDigits hlast 0)
  | cons p parts ih =>
    obtain ⟨hne, hext⟩ := hparts p List.mem_cons_self
    have hrest := ih fun q hq => hparts q (List.mem_cons_of_mem p hq)
    have hchunk := Chunked.chunk (sizeLine_toDigits hext p.1.length) hne (.inl rfl) hrest
    rw [encodeChunked, List.flatMap_cons, encodeChunk]
    simpa only [List.append_assoc, List.map_cons, encodeChunked] using hchunk

/-! The two headers stand on one line each. -/

/-- The header for chunks is a line of its own. -/
theorem chunkedHeader_line : '\n' ∉ chunkedHeader ∧ trimEnd chunkedHeader ≠ [] := by
  decide

/-- So is a text with digits behind it. -/
theorem digits_line {s digits : List Char} {radix value n : ℕ} (hs : '\n' ∉ s) (hne : digits ≠ [])
    (hvalue : digitsValue radix digits value = some n) :
    '\n' ∉ s ++ digits ∧ trimEnd (s ++ digits) ≠ [] := by
  rw [trimEnd_append_digits hne hvalue, List.mem_append, not_or]
  refine ⟨⟨hs, ?_⟩, List.append_ne_nil_of_right_ne_nil _ hne⟩
  intro hmem
  exact absurd (digits_plain hvalue hmem).1 (by decide)

/-- So is the header for a length. -/
theorem lengthHeader_line (n : ℕ) : '\n' ∉ lengthHeader n ∧ trimEnd (lengthHeader n) ≠ [] :=
  digits_line (by decide) Nat.toDigits_ne_nil (digitsValue_toDigits (by decide) (by decide) n)

section Responses

variable [RustText] {status header : List Char} {before after : List (List Char)}

/-- A header that has nothing to do with the framing of the body. -/
structure PlainHeader (s : List Char) : Prop where
  oneLine : '\n' ∉ s
  notBlank : trimEnd s ≠ []
  plain : ∀ framing, noteHeader (trimEnd s) framing = framing

/-- Other headers leave the framing. -/
theorem foldl_plain {headers : List (List Char)} (h : ∀ s ∈ headers, PlainHeader s)
    (framing : Option ℕ × Bool) :
    headers.foldl (fun f s => noteHeader (trimEnd s) f) framing = framing := by
  induction headers with
  | nil => rfl
  | cons s headers ih =>
    rw [List.foldl_cons, (h s List.mem_cons_self).plain]
    exact ih fun t ht => h t (List.mem_cons_of_mem s ht)

/-- One header decides on the framing when all others are plain. -/
theorem readHead_plain (hstatus : '\n' ∉ status) (hbefore : ∀ s ∈ before, PlainHeader s)
    (hafter : ∀ s ∈ after, PlainHeader s) (hheader : '\n' ∉ header ∧ trimEnd header ≠ [])
    (rest : List UInt8) :
    let framing := noteHeader (trimEnd header) (none, false)
    readHead (headBytes status (before ++ header :: after) ++ rest) =
      .ok ⟨statusCode (status ++ crlf), framing.1, framing.2, rest⟩ := by
  intro framing
  have hlines : ∀ s ∈ before ++ header :: after, '\n' ∉ s ∧ trimEnd s ≠ [] := by
    intro s hs
    rcases List.mem_append.mp hs with hmem | hmem
    · exact ⟨(hbefore s hmem).oneLine, (hbefore s hmem).notBlank⟩
    · rcases List.mem_cons.mp hmem with rfl | hmem
      · exact hheader
      · exact ⟨(hafter s hmem).oneLine, (hafter s hmem).notBlank⟩
  rw [readHead_headBytes hstatus hlines, List.foldl_append, foldl_plain hbefore, List.foldl_cons,
    foldl_plain hafter]

/-- A body in chunks is read as the text of its chunks. -/
theorem readResponse_chunked {parts : List (List UInt8 × List Char)} {lastExt : List Char}
    (hstatus : '\n' ∉ status) (hbefore : ∀ s ∈ before, PlainHeader s)
    (hafter : ∀ s ∈ after, PlainHeader s) (hparts : ∀ p ∈ parts, p.1 ≠ [] ∧ Extension p.2)
    (hlast : Extension lastExt) (hfits : (parts.map Prod.fst).flatten.length ≤ isizeMax)
    (trailer : List UInt8) :
    readResponse (headBytes status (before ++ chunkedHeader :: after) ++
        encodeChunked parts lastExt trailer) =
      conclude (statusCode (status ++ crlf)) (parts.map Prod.fst).flatten := by
  have hchunked := chunked_encodeChunked hparts hlast trailer
  have hread := readChunks_of_chunked hchunked [] hfits
  rw [readResponse, readHead_plain hstatus hbefore hafter chunkedHeader_line,
    noteHeader_chunkedHeader]
  dsimp only
  rw [readBody, if_pos rfl, hread, List.nil_append]

/-- A body with its length is read as its text. -/
theorem readResponse_length (hstatus : '\n' ∉ status) (hbefore : ∀ s ∈ before, PlainHeader s)
    (hafter : ∀ s ∈ after, PlainHeader s) (hfits : body.length ≤ isizeMax) :
    readResponse (headBytes status (before ++ lengthHeader body.length :: after) ++ body) =
      conclude (statusCode (status ++ crlf)) body := by
  rw [readResponse, readHead_plain hstatus hbefore hafter (lengthHeader_line body.length),
    noteHeader_lengthHeader (lt_of_le_isizeMax hfits)]
  dsimp only
  rw [readBody, if_neg Bool.false_ne_true]
  dsimp only
  rw [if_neg (Nat.not_lt.mpr hfits), if_neg (Nat.lt_irrefl _), List.take_length]

/-! ## Complete bodies -/

/-- A stream begins with a complete chunked body, and the text is that of its chunks.  A body
is held in memory. -/
def Complete (rest : List UInt8) (text : String) : Prop :=
  ∃ chunks, Chunked rest chunks ∧ chunks.flatten.length ≤ isizeMax ∧
    text = RustText.fromUtf8Lossy chunks.flatten

/-- A response in chunks is read as the text of its body. -/
theorem text_of_readResponse {head : HttpHead} {text : String}
    (h : readResponse bytes = .ok text) (hhead : readHead bytes = .ok head)
    (hchunked : head.chunked = true) :
    ∃ body, readChunks head.rest [] = .ok body ∧ text = RustText.fromUtf8Lossy body := by
  rw [readResponse, hhead] at h
  dsimp only at h
  rw [readBody, if_pos hchunked] at h
  cases hr : readChunks head.rest [] with
  | error e =>
    rw [hr] at h
    cases h
  | ok body =>
    rw [hr] at h
    refine ⟨body, rfl, ?_⟩
    have hconclude : conclude head.code body = .ok text := h
    rw [conclude] at hconclude
    split_ifs at hconclude with hcode
    exact (Except.ok.inj hconclude).symm

/-- A body in chunks that was read is complete exactly if the stream has none of the faults
that the loop over chunks lets pass; and a body in chunks is read as under a content length. -/
theorem chunked_bodies :
    (∀ bytes text head, readResponse bytes = .ok text → readHead bytes = .ok head →
      head.chunked = true →
      (Complete head.rest text ↔ ¬ Fault head.rest)) ∧
    ∀ (status : List Char) (before after : List (List Char))
      (parts : List (List UInt8 × List Char)) (lastExt : List Char) (trailer : List UInt8),
      '\n' ∉ status → (∀ s ∈ before, PlainHeader s) → (∀ s ∈ after, PlainHeader s) →
      (∀ p ∈ parts, p.1 ≠ [] ∧ Extension p.2) → Extension lastExt →
      let body := (parts.map Prod.fst).flatten
      body.length ≤ isizeMax →
      readResponse (headBytes status (before ++ chunkedHeader :: after) ++
          encodeChunked parts lastExt trailer) =
        readResponse (headBytes status (before ++ lengthHeader body.length :: after) ++ body) := by
  refine ⟨?_, ?_⟩
  · intro bytes text head hok hhead hchunked
    constructor
    · rintro ⟨chunks, hchunks, hfits, -⟩
      exact not_fault_of_chunked hchunks hfits
    · intro hsound
      obtain ⟨body, hread, htext⟩ := text_of_readResponse hok hhead hchunked
      obtain ⟨chunks, hchunks, hbody, hfits⟩ :=
        chunked_of_not_fault (Nat.zero_le _) hread hsound
      rw [List.nil_append] at hbody
      exact ⟨chunks, hchunks, hbody ▸ hfits, hbody ▸ htext⟩
  · intro status before after parts lastExt trailer hstatus hbefore hafter hparts hlast body hfits
    rw [readResponse_chunked hstatus hbefore hafter hparts hlast hfits trailer,
      readResponse_length hstatus hbefore hafter hfits]

end Responses

/-! ## On a sample -/

/-- The functions on ASCII text. -/
local instance asciiText : RustText where
  toLowercase := id
  fromUtf8Lossy bytes := String.ofList (bytes.map fun b => Char.ofNat b.toNat)

def okStatus : List Char := "HTTP/1.1 200 OK".toList

def hola : List UInt8 := utf8Bytes "hola!".toList

/-- The body in two chunks, the second one with an extension, without the last size line. -/
def holaChunks : List UInt8 := utf8Bytes "3\r\nhol\r\n2;q=1\r\na!\r\n".toList

/-- A chunk may have no extension. -/
theorem extension_nil : Extension [] :=
  ⟨List.not_mem_nil, [], [], rfl, List.forall_mem_nil _, .inl rfl⟩

/-- It may have one behind a semicolon. -/
theorem extension_q : Extension ";q=1".toList :=
  ⟨by decide, [], _, rfl, List.forall_mem_nil _, .inr ⟨_, rfl⟩⟩

/-- The two chunks with what stands behind their sizes. -/
def holaParts : List (List UInt8 × List Char) :=
  [(utf8Bytes "hol".toList, []), (utf8Bytes "a!".toList, ";q=1".toList)]

/-- The two chunks are not empty and have proper extensions. -/
theorem holaParts_ok : ∀ p ∈ holaParts, p.1 ≠ [] ∧ Extension p.2 := by
  rw [holaParts, List.forall_mem_cons, List.forall_mem_singleton]
  exact ⟨⟨by decide, extension_nil⟩, by decide, extension_q⟩

/-- The status line is one line. -/
theorem okStatus_line : '\n' ∉ okStatus := by decide

/-- With this status the body is returned as a text. -/
theorem conclude_hola : conclude (statusCode (okStatus ++ crlf)) hola = .ok "hola!" := by
  decide +kernel

/-- The head of the response announces chunks. -/
theorem readHead_ok (rest : List UInt8) :
    readHead (headBytes okStatus [chunkedHeader] ++ rest) =
      .ok ⟨statusCode (okStatus ++ crlf), none, true, rest⟩ := by
  have hhead := readHead_plain okStatus_line (List.forall_mem_nil _) (List.forall_mem_nil _)
    chunkedHeader_line rest
  rwa [noteHeader_chunkedHeader] at hhead

/-- The two chunks and the last size line are read as a complete body. -/
theorem hola_complete :
    let rest := holaChunks ++ utf8Bytes "0\r\n\r\n".toList
    readResponse (headBytes okStatus [chunkedHeader] ++ rest) = .ok "hola!" ∧
      Complete rest "hola!" := by
  intro rest
  have hfits : ((holaParts.map Prod.fst).flatten).length ≤ isizeMax := by decide
  have hrest : encodeChunked holaParts [] (utf8Bytes crlf) = rest := by decide +kernel
  have hread := chunked_bodies.2 okStatus [] [] holaParts [] (utf8Bytes crlf) okStatus_line
    (List.forall_mem_nil _) (List.forall_mem_nil _) holaParts_ok extension_nil hfits
  rw [hrest] at hread
  have hok := hread.trans ((readResponse_length okStatus_line (List.forall_mem_nil _)
    (List.forall_mem_nil _) hfits).trans conclude_hola)
  have hchunked := chunked_encodeChunked holaParts_ok extension_nil (utf8Bytes crlf)
  rw [hrest] at hchunked
  exact ⟨hok, (chunked_bodies.1 _ _ _ hok (readHead_ok rest) rfl).mpr
    (not_fault_of_chunked hchunked hfits)⟩

/-- The body in one chunk, without the last size line. -/
def holaChunk : List UInt8 := utf8Bytes "5\r\nhola!\r\n".toList

/-- The stream ends behind the chunk, and the body is taken for a complete one. -/
theorem cut_body_accepted :
    readResponse (headBytes okStatus [chunkedHeader] ++ holaChunk) = .ok "hola!" ∧
      ∃ head, readHead (headBytes okStatus [chunkedHeader] ++ holaChunk) = .ok head ∧
        head.chunked = true ∧ ¬Complete head.rest "hola!" := by
  have hline := sizeLine_toDigits extension_nil hola.length
  have hchunk : utf8Bytes (Nat.toDigits 16 hola.length ++ ([] ++ crlf)) ++
      (hola ++ ([13, 10] ++ [])) = holaChunk := by decide +kernel
  have hfits : ([] ++ hola).length ≤ isizeMax := by decide
  have hend : LineEnd [13, 10] := .inl rfl
  have hread := readChunks_chunk (hline.readLine_eq _) hline.ne_nil
    (hline.chunkSize_eq (by decide)) (by decide) hfits (hend.cutLine_eq [])
  rw [hchunk, readChunks_nil] at hread
  refine ⟨?_, _, readHead_ok holaChunk, rfl, ?_⟩
  · rw [readResponse, readHead_ok]
    dsimp only
    rw [readBody, if_pos rfl, hread]
    exact conclude_hola
  · have hfault : Fault holaChunk := hchunk ▸ .later hline (by decide) hend .ended
    rintro ⟨chunks, hchunks, hshort, -⟩
    exact not_fault_of_chunked hchunks hshort hfault

end Exodus.Analysis
