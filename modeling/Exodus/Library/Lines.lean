import Mathlib

/-!
# Lines of text in a stream of bytes

`cutLine` cuts a stream after its first newline; `utf8Text` reads bytes as text.  A newline is
one byte in UTF-8 and no part of any other character, so a line of text is cut off its bytes
as a whole (`cutLine_utf8Bytes`).
-/

set_option autoImplicit false

namespace Exodus.Library

variable {bytes rest line : List UInt8} {text : List Char}

/-! ## Lines of bytes -/

/-- The bytes up to the first newline, with it, and those behind it. -/
def cutLine : List UInt8 → List UInt8 × List UInt8
  | [] => ([], [])
  | b :: rest => if b = 10 then ([b], rest) else (b :: (cutLine rest).1, (cutLine rest).2)

/-- A line and the rest make up the bytes. -/
theorem cutLine_append (bytes : List UInt8) : (cutLine bytes).1 ++ (cutLine bytes).2 = bytes := by
  induction bytes with
  | nil => rfl
  | cons b rest ih =>
    rw [cutLine]
    split_ifs
    · rfl
    · rw [List.cons_append, ih]

/-- The rest is no longer. -/
theorem length_cutLine_le (bytes : List UInt8) : (cutLine bytes).2.length ≤ bytes.length := by
  have hlength := congrArg List.length (cutLine_append bytes)
  rw [List.length_append] at hlength
  omega

/-- It is shorter unless there are no bytes. -/
theorem length_cutLine_lt (h : bytes ≠ []) : (cutLine bytes).2.length < bytes.length := by
  cases bytes with
  | nil => exact absurd rfl h
  | cons b rest =>
    rw [cutLine, List.length_cons]
    split_ifs
    · exact Nat.lt_succ_self _
    · exact Nat.lt_succ_of_le (length_cutLine_le rest)

/-- A line is cut behind its line feed. -/
theorem cutLine_of_newline (h : 10 ∉ line) (rest : List UInt8) :
    cutLine (line ++ 10 :: rest) = (line ++ [10], rest) := by
  induction line with
  | nil => rfl
  | cons b line ih =>
    rw [List.mem_cons, not_or] at h
    rw [List.cons_append, cutLine, if_neg (Ne.symm h.1), ih h.2]
    rfl

/-! ## Text -/

/-- The UTF-8 bytes of a text. -/
def utf8Bytes (text : List Char) : List UInt8 := text.flatMap String.utf8EncodeChar

/-- The text of bytes that are UTF-8. -/
def utf8Text (bytes : List UInt8) : Option (List Char) :=
  (String.fromUTF8? ⟨bytes.toArray⟩).map String.toList

/-- The bytes of two texts in a row are those of the first and of the second. -/
theorem utf8Bytes_append (text more : List Char) :
    utf8Bytes (text ++ more) = utf8Bytes text ++ utf8Bytes more := List.flatMap_append

/-- They are those of the string. -/
theorem utf8Bytes_eq (text : List Char) :
    (⟨(utf8Bytes text).toArray⟩ : ByteArray) = (String.ofList text).toByteArray := by
  apply ByteArray.ext
  rw [String.toByteArray_ofList, List.utf8Encode, List.data_toByteArray]
  rfl

/-- A text is read back from its bytes. -/
theorem utf8Text_utf8Bytes (text : List Char) : utf8Text (utf8Bytes text) = some text := by
  rw [utf8Text, utf8Bytes_eq, String.fromUTF8?, dif_pos (String.ofList text).isValidUTF8]
  exact congrArg some String.toList_ofList

/-- A byte made from a larger number is no newline. -/
theorem ten_ne_ofNat {v : ℕ} (h : 10 < v % 256) : (10 : UInt8) ≠ UInt8.ofNat v := by
  intro heq
  have hnat := congrArg UInt8.toNat heq
  have hten : (10 : UInt8).toNat = 10 := rfl
  rw [UInt8.toNat_ofNat'] at hnat
  omega

/-- The bytes of a character that is not ASCII are above 127. -/
theorem newline_mem_utf8EncodeChar {c : Char} : 10 ∈ String.utf8EncodeChar c ↔ c = '\n' := by
  constructor
  · intro h
    unfold String.utf8EncodeChar at h
    dsimp only at h
    split_ifs at h with hascii
    · rw [List.mem_singleton] at h
      have hnat := congrArg UInt8.toNat h
      have hten : (10 : UInt8).toNat = 10 := rfl
      rw [UInt8.toNat_ofNat'] at hnat
      apply Char.ext
      apply UInt32.toNat_inj.mp
      show c.val.toNat = 10
      omega
    all_goals simp only [List.mem_cons, List.not_mem_nil, or_false] at h
    · rcases h with h | h <;> exact absurd h (ten_ne_ofNat (by omega))
    · rcases h with h | h | h <;> exact absurd h (ten_ne_ofNat (by omega))
    · rcases h with h | h | h | h <;> exact absurd h (ten_ne_ofNat (by omega))
  · rintro rfl
    decide

/-- The byte of a line feed is in no other character. -/
theorem newline_mem_utf8Bytes : 10 ∈ utf8Bytes text ↔ '\n' ∈ text := by
  rw [utf8Bytes, List.mem_flatMap]
  constructor
  · rintro ⟨c, hc, hten⟩
    exact newline_mem_utf8EncodeChar.mp hten ▸ hc
  · intro h
    exact ⟨'\n', h, newline_mem_utf8EncodeChar.mpr rfl⟩

/-- A line of text is cut off its bytes as a whole. -/
theorem cutLine_utf8Bytes (h : '\n' ∉ text) (rest : List UInt8) :
    cutLine (utf8Bytes (text ++ ['\n']) ++ rest) = (utf8Bytes (text ++ ['\n']), rest) := by
  have hnewline : utf8Bytes (text ++ ['\n']) = utf8Bytes text ++ [10] := utf8Bytes_append text _
  rw [hnewline, List.append_assoc, List.singleton_append]
  exact cutLine_of_newline (fun hten => h (newline_mem_utf8Bytes.mp hten)) rest

end Exodus.Library
