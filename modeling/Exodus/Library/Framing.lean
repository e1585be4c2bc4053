import Exodus.Library.Table

/-!
# Streams of bodies with their length before them

`frameOf` puts the length of a body before it, in a fixed number of bytes; `cutFrame` cuts
the first frame off a stream.  The two are inverse to each other: a frame is cut off whole
before any continuation (`cutFrame_frameOf`), and what is cut off was a frame
(`eq_of_cutFrame`), so a reader never loses its place in the stream.
-/

set_option autoImplicit false

namespace Exodus.Library

variable {width bound : ℕ} {body bytes rest : List UInt8} {bodies : List (List UInt8)}

/-- A body with its length before it. -/
def frameOf (width : ℕ) (body : List UInt8) : List UInt8 := bytesBE width body.length ++ body

/-- Bodies one after another, each with its length before it. -/
def framesOf (width : ℕ) (bodies : List (List UInt8)) : List UInt8 :=
  bodies.flatMap (frameOf width)

/-- No bodies are no bytes. -/
@[simp] theorem framesOf_nil (width : ℕ) : framesOf width [] = [] := rfl

/-- The frame of the first body comes first. -/
theorem framesOf_cons (width : ℕ) (body : List UInt8) (bodies : List (List UInt8)) :
    framesOf width (body :: bodies) = frameOf width body ++ framesOf width bodies :=
  List.flatMap_cons

/-- The frames of two lists in a row. -/
theorem framesOf_append (width : ℕ) (bodies later : List (List UInt8)) :
    framesOf width (bodies ++ later) = framesOf width bodies ++ framesOf width later :=
  List.flatMap_append

/-- A frame is its body and the width of the length. -/
theorem length_frameOf (width : ℕ) (body : List UInt8) :
    (frameOf width body).length = width + body.length := by
  rw [frameOf, List.length_append, length_bytesBE]

/-- The lengths a reader accepts. -/
def Framable (bound : ℕ) (body : List UInt8) : Prop := 1 ≤ body.length ∧ body.length ≤ bound

/-- The start of a stream: a length that is refused, a frame that is not there in full, or a
body and what follows it. -/
inductive Cut where
  | short
  | refused
  | whole (body rest : List UInt8)

def cutFrame (width bound : ℕ) (bytes : List UInt8) : Cut :=
  if bytes.length < width then .short
  else
    let len := natBE (bytes.take width)
    if len = 0 ∨ bound < len then .refused
    else if (bytes.drop width).length < len then .short
    else .whole ((bytes.drop width).take len) ((bytes.drop width).drop len)

/-- When a frame is not there in full. -/
theorem cutFrame_eq_short_iff :
    cutFrame width bound bytes = .short ↔
      bytes.length < width ∨ (0 < natBE (bytes.take width) ∧ natBE (bytes.take width) ≤ bound ∧
        bytes.length < width + natBE (bytes.take width)) := by
  unfold cutFrame
  dsimp only
  rw [List.length_drop]
  split_ifs <;> simp only [true_iff, false_iff] <;> omega

/-- When a length is refused. -/
theorem cutFrame_eq_refused_iff :
    cutFrame width bound bytes = .refused ↔
      width ≤ bytes.length ∧ (natBE (bytes.take width) = 0 ∨ bound < natBE (bytes.take width)) := by
  unfold cutFrame
  dsimp only
  split_ifs <;> simp only [true_iff, false_iff] <;> omega

/-- A frame is cut off before any continuation. -/
theorem cutFrame_frameOf (hbound : bound < 256 ^ width) (h : Framable bound body)
    (rest : List UInt8) : cutFrame width bound (frameOf width body ++ rest) = .whole body rest := by
  obtain ⟨hpos, hmax⟩ := h
  have hwidth : (bytesBE width body.length).length = width := length_bytesBE width _
  have htake : (frameOf width body ++ rest).take width = bytesBE width body.length := by
    rw [frameOf, List.append_assoc, List.take_left' hwidth]
  have hdrop : (frameOf width body ++ rest).drop width = body ++ rest := by
    rw [frameOf, List.append_assoc, List.drop_left' hwidth]
  have hlen : natBE (bytesBE width body.length) = body.length :=
    natBE_bytesBE (lt_of_le_of_lt hmax hbound)
  have hwhole : ¬(frameOf width body ++ rest).length < width := by
    rw [List.length_append, length_frameOf]
    omega
  have hrange : ¬(body.length = 0 ∨ bound < body.length) := by omega
  have henough : ¬(body ++ rest).length < body.length := by
    rw [List.length_append]
    omega
  simp only [cutFrame, htake, hdrop, hlen, if_neg hwhole, if_neg hrange, if_neg henough,
    List.take_left, List.drop_left]

/-- What is cut off a stream was a frame at its start. -/
theorem eq_of_cutFrame (h : cutFrame width bound bytes = .whole body rest) :
    bytes = frameOf width body ++ rest ∧ Framable bound body := by
  unfold cutFrame at h
  dsimp only at h
  split_ifs at h with hshort hrange henough
  injection h with hbody hrest
  have hlength : body.length = natBE (bytes.take width) := by
    rw [← hbody, List.length_take]
    omega
  refine ⟨?_, by omega, by omega⟩
  have hinitial : bytesBE width body.length = bytes.take width := by
    have htake : (bytes.take width).length = width := by
      rw [List.length_take]
      omega
    have hread := bytesBE_natBE (bytes.take width)
    rwa [htake, ← hlength] at hread
  have hsuffix : body ++ rest = bytes.drop width := by
    rw [← hbody, ← hrest]
    exact List.take_append_drop _ _
  calc bytes = bytes.take width ++ bytes.drop width := (List.take_append_drop width bytes).symm
    _ = bytesBE width body.length ++ (body ++ rest) := by rw [hinitial, hsuffix]
    _ = frameOf width body ++ rest := by rw [frameOf, List.append_assoc]

/-- A body that was cut off leaves a shorter stream. -/
theorem length_of_cutFrame (h : cutFrame width bound bytes = .whole body rest) :
    width + 1 + rest.length ≤ bytes.length := by
  obtain ⟨rfl, hpos, -⟩ := eq_of_cutFrame h
  rw [List.length_append, length_frameOf]
  omega

/-- Every body takes up its length and at least one byte. -/
theorem length_le_framesOf (h : ∀ body ∈ bodies, Framable bound body) :
    (width + 1) * bodies.length ≤ (framesOf width bodies).length := by
  induction bodies with
  | nil => simp
  | cons body bodies ih =>
    have hrest := ih fun b hb => h b (List.mem_cons_of_mem body hb)
    have hbody := (h body List.mem_cons_self).1
    rw [framesOf_cons, List.length_append, length_frameOf, List.length_cons, Nat.mul_succ]
    omega

end Exodus.Library
