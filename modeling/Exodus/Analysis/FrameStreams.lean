import Exodus.Interface.Sample
import Exodus.Interface.TransportSpec

/-!
# Streams of frames

`read_loop` reads a length, then a body of that length, and hands the body to `on_frame`
when it is JSON.  A stream of framed bodies is read as these bodies in order, a body that is
not JSON leaves no trace, and on every finite stream the loop ends with the bodies that the
stream starts with: at a length of 0 or above `MAX_FRAME`, within a frame, or at a frame of
the node itself (`read_loop_exact`).
-/

set_option autoImplicit false

namespace Exodus.Analysis

open Exodus.Library Exodus.Model Exodus.Interface

variable [Crates] {Tx : Type} {t : Inner Tx} {nodeId key : String} {body bytes tail : List UInt8}
  {bodies : List (List UInt8)}

/-- The body is a frame of the node itself, which `on_frame` refuses. -/
def OwnBody (nodeId : String) (body : List UInt8) : Prop :=
  ∃ frame, fromSlice body = some frame ∧ strMember frame "f" = some nodeId

/-- One outcome after another. -/
def andThen (first later : Outcome Tx) : Outcome Tx :=
  ⟨later.inner, first.calls ++ later.calls, first.sends ++ later.sends⟩

/-- The bodies handed over one after another. -/
def takeBodies (t : Inner Tx) (key : String) : List (List UInt8) → Outcome Tx
  | [] => ⟨t, [], []⟩
  | body :: bodies =>
    andThen (takeBody t key body).2 (takeBodies (takeBody t key body).2.inner key bodies)

/-! ## One body -/

/-- A body is refused if it is a frame of the node itself. -/
theorem takeBody_answer (t : Inner Tx) (key : String) (body : List UInt8) :
    (takeBody t key body).1 = true ↔ ¬OwnBody t.nodeId body := by
  unfold takeBody OwnBody
  cases hparsed : fromSlice body with
  | none => simp
  | some frame =>
    rcases onFrame_cases t frame key with ⟨hown, heq⟩ | ⟨hother, -, heq⟩ |
      ⟨hother, id, -, -, heq⟩ | ⟨hother, id, -, -, heq⟩ <;> simp_all

/-- A body leaves the id of the node. -/
theorem takeBody_nodeId (t : Inner Tx) (key : String) (body : List UInt8) :
    (takeBody t key body).2.inner.nodeId = t.nodeId := by
  unfold takeBody
  cases fromSlice body with
  | none => rfl
  | some frame => exact (onFrame_fields t frame key).1

/-- A body that is not JSON leaves no trace. -/
theorem takeBody_of_junk (h : fromSlice body = none) :
    takeBody t key body = (true, ⟨t, [], []⟩) := by
  rw [takeBody, h]

/-- A framed body is taken by one turn of the loop. -/
theorem readLoop_frameOf (hfits : Framable maxFrame body) (hother : ¬OwnBody t.nodeId body)
    (tail : List UInt8) :
    t.readLoop key (frameOf 4 body ++ tail) =
      ((takeBody t key body).2.inner.readLoop key tail).after (takeBody t key body).2 body := by
  rw [readLoop_of_whole (cutFrame_frameOf (by decide) hfits tail),
    if_pos ((takeBody_answer t key body).mpr hother)]

/-- A frame of the node itself ends the loop. -/
theorem readLoop_own (hfits : Framable maxFrame body) (hown : OwnBody t.nodeId body)
    (tail : List UInt8) :
    t.readLoop key (frameOf 4 body ++ tail) =
      ⟨(takeBody t key body).2, [body], tail, .refused⟩ := by
  have hanswer : ¬(takeBody t key body).1 = true := by
    rw [takeBody_answer]
    exact not_not.mpr hown
  rw [readLoop_of_whole (cutFrame_frameOf (by decide) hfits tail), if_neg hanswer]

/-! ## Many bodies -/

omit [Crates] in
/-- Outcomes are put in a row in any order of brackets. -/
theorem andThen_assoc (first next later : Outcome Tx) :
    andThen (andThen first next) later = andThen first (andThen next later) := by
  simp [andThen, List.append_assoc]

/-- Bodies in a row leave the id of the node. -/
theorem takeBodies_nodeId (t : Inner Tx) (key : String) (bodies : List (List UInt8)) :
    (takeBodies t key bodies).inner.nodeId = t.nodeId := by
  induction bodies generalizing t with
  | nil => rfl
  | cons body bodies ih =>
    show (takeBodies (takeBody t key body).2.inner key bodies).inner.nodeId = t.nodeId
    rw [ih, takeBody_nodeId]

/-- Bodies are taken one after another. -/
theorem takeBodies_append (t : Inner Tx) (key : String) (bodies later : List (List UInt8)) :
    takeBodies t key (bodies ++ later) =
      andThen (takeBodies t key bodies)
        (takeBodies (takeBodies t key bodies).inner key later) := by
  induction bodies generalizing t with
  | nil => rfl
  | cons body bodies ih =>
    rw [List.cons_append, takeBodies, ih, takeBodies, andThen_assoc]
    rfl

/-- What a reading is after bodies that were taken before it. -/
def behind (later : Reading Tx) (first : Outcome Tx) (bodies : List (List UInt8)) :
    Reading Tx :=
  { later with outcome := andThen first later.outcome, bodies := bodies ++ later.bodies }

/-- Framed bodies are taken one by one, and the loop goes on behind them. -/
theorem readLoop_framesOf (hfits : ∀ b ∈ bodies, Framable maxFrame b)
    (hother : ∀ b ∈ bodies, ¬OwnBody t.nodeId b) (tail : List UInt8) :
    t.readLoop key (framesOf 4 bodies ++ tail) =
      behind ((takeBodies t key bodies).inner.readLoop key tail)
        (takeBodies t key bodies) bodies := by
  induction bodies generalizing t with
  | nil => rfl
  | cons body bodies ih =>
    have hrest : ∀ b ∈ bodies, ¬OwnBody (takeBody t key body).2.inner.nodeId b := by
      intro b hb
      rw [takeBody_nodeId]
      exact hother b (List.mem_cons_of_mem body hb)
    rw [framesOf_cons, List.append_assoc,
      readLoop_frameOf (hfits body List.mem_cons_self) (hother body List.mem_cons_self),
      ih (fun b hb => hfits b (List.mem_cons_of_mem body hb)) hrest]
    simp [Reading.after, behind, takeBodies, andThen, List.append_assoc]

/-- A body that is not JSON makes no difference to what is done with the others. -/
theorem readLoop_junk (hfits : Framable maxFrame body) (hjunk : fromSlice body = none)
    (tail : List UInt8) :
    (t.readLoop key (frameOf 4 body ++ tail)).outcome = (t.readLoop key tail).outcome ∧
      (t.readLoop key (frameOf 4 body ++ tail)).ending = (t.readLoop key tail).ending := by
  have hother : ¬OwnBody t.nodeId body := by
    rintro ⟨frame, hframe, -⟩
    rw [hjunk] at hframe
    cases hframe
  rw [readLoop_frameOf hfits hother, takeBody_of_junk hjunk]
  exact ⟨rfl, rfl⟩

/-! ## Any stream -/

/-- The stream ends before a length, or before the end of the frame that the length announces. -/
def EndsWithin (rest : List UInt8) : Prop :=
  rest.length < 4 ∨ (0 < natBE (rest.take 4) ∧ natBE (rest.take 4) ≤ maxFrame ∧
    rest.length < 4 + natBE (rest.take 4))

/-- The stream goes on with a length that is refused. -/
def BadLength (rest : List UInt8) : Prop :=
  4 ≤ rest.length ∧ (natBE (rest.take 4) = 0 ∨ maxFrame < natBE (rest.take 4))

/-- Where the loop stops: no body before that place was one of the node itself. -/
def StopsAt (nodeId : String) (r : Reading Tx) : Prop :=
  match r.ending with
  | .truncated => (∀ b ∈ r.bodies, ¬OwnBody nodeId b) ∧ EndsWithin r.rest
  | .badLength => (∀ b ∈ r.bodies, ¬OwnBody nodeId b) ∧ BadLength r.rest
  | .refused =>
    ∃ before own, r.bodies = before ++ [own] ∧ OwnBody nodeId own ∧
      ∀ b ∈ before, ¬OwnBody nodeId b

/-- The loop has kept its place in the stream: the bodies it read are those that the stream
starts with, and they were handed over in this order. -/
structure Aligned (t : Inner Tx) (key : String) (bytes : List UInt8) (r : Reading Tx) : Prop where
  stream : bytes = framesOf 4 r.bodies ++ r.rest
  fits : ∀ b ∈ r.bodies, Framable maxFrame b
  outcome : r.outcome = takeBodies t key r.bodies
  stops : StopsAt t.nodeId r

/-- A body before the end does not change where the loop stops. -/
theorem StopsAt.after {r : Reading Tx} (h : StopsAt nodeId r) (hother : ¬OwnBody nodeId body)
    (first : Outcome Tx) : StopsAt nodeId (r.after first body) := by
  unfold StopsAt at h ⊢
  rw [show (r.after first body).ending = r.ending from rfl,
    show (r.after first body).bodies = body :: r.bodies from rfl,
    show (r.after first body).rest = r.rest from rfl]
  cases hending : r.ending with
  | truncated =>
    rw [hending] at h
    exact ⟨List.forall_mem_cons.mpr ⟨hother, h.1⟩, h.2⟩
  | badLength =>
    rw [hending] at h
    exact ⟨List.forall_mem_cons.mpr ⟨hother, h.1⟩, h.2⟩
  | refused =>
    rw [hending] at h
    obtain ⟨before, own, hbodies, hown, hbefore⟩ := h
    refine ⟨body :: before, own, ?_, hown, List.forall_mem_cons.mpr ⟨hother, hbefore⟩⟩
    rw [hbodies, List.cons_append]

/-- The loop keeps its place on every stream; the induction is on the length of the stream. -/
theorem readLoop_aligned (t : Inner Tx) (key : String) (bytes : List UInt8) :
    Aligned t key bytes (t.readLoop key bytes) := by
  induction hlength : bytes.length using Nat.strong_induction_on generalizing t bytes with
  | _ length ih =>
    cases hcut : cutFrame 4 maxFrame bytes with
    | short =>
      rw [readLoop_of_short hcut]
      exact ⟨rfl, by simp, rfl, by simp, cutFrame_eq_short_iff.mp hcut⟩
    | refused =>
      rw [readLoop_of_refused hcut]
      exact ⟨rfl, by simp, rfl, by simp, cutFrame_eq_refused_iff.mp hcut⟩
    | whole body rest =>
      obtain ⟨hbytes, hfits⟩ := eq_of_cutFrame hcut
      have hshorter := length_of_cutFrame hcut
      by_cases hown : OwnBody t.nodeId body
      · rw [hbytes, readLoop_own hfits hown]
        refine ⟨?_, by simpa using hfits, ?_, [], body, rfl, hown, by simp⟩
        · simp [framesOf_cons]
        · simp [takeBodies, andThen]
      · have hrest := ih rest.length (by omega) (takeBody t key body).2.inner rest rfl
        rw [hbytes, readLoop_frameOf hfits hown]
        refine ⟨?_, List.forall_mem_cons.mpr ⟨hfits, hrest.fits⟩, ?_, ?_⟩
        · show frameOf 4 body ++ rest = framesOf 4 (body :: _) ++ (Inner.readLoop _ key rest).rest
          rw [framesOf_cons, List.append_assoc, ← hrest.stream]
        · show andThen _ (Inner.readLoop _ key rest).outcome = takeBodies t key (body :: _)
          rw [takeBodies, hrest.outcome]
        · have hstops := hrest.stops
          rw [takeBody_nodeId] at hstops
          exact hstops.after hown _

/-- A frame takes up at least five bytes, so a stream ends a loop after finitely many turns. -/
theorem Aligned.turns {r : Reading Tx} (h : Aligned t key bytes r) :
    5 * r.bodies.length ≤ bytes.length := by
  have hframes : (4 + 1) * r.bodies.length ≤ (framesOf 4 r.bodies).length :=
    length_le_framesOf h.fits
  rw [h.stream, List.length_append]
  omega

/-- What `read_loop` makes of the streams a peer can send. -/
structure DecodesStreams (t : Inner Tx) (key : String) : Prop where
  /-- `encode_wire` frames the text of a frame -/
  framing : ∀ frame, encodeWire frame = frameOf 4 (asBytes (Crates.jsonToString frame))
  /-- framed bodies are read as these bodies, in order -/
  recovers : ∀ bodies, (∀ b ∈ bodies, Framable maxFrame b) → (∀ b ∈ bodies, ¬OwnBody t.nodeId b) →
    t.readLoop key (framesOf 4 bodies) = ⟨takeBodies t key bodies, bodies, [], .truncated⟩
  /-- the first frame of the node itself is the last one that is read -/
  refuses : ∀ bodies own later, (∀ b ∈ bodies, Framable maxFrame b) →
    (∀ b ∈ bodies, ¬OwnBody t.nodeId b) → Framable maxFrame own → OwnBody t.nodeId own →
    t.readLoop key (framesOf 4 (bodies ++ own :: later)) =
      ⟨takeBodies t key (bodies ++ [own]), bodies ++ [own], framesOf 4 later, .refused⟩
  /-- a body that is not JSON does not change what is done with the rest of the stream -/
  skips : ∀ bodies junk tail, (∀ b ∈ bodies, Framable maxFrame b) →
    (∀ b ∈ bodies, ¬OwnBody t.nodeId b) → Framable maxFrame junk → fromSlice junk = none →
    (t.readLoop key (framesOf 4 (bodies ++ [junk]) ++ tail)).outcome =
        (t.readLoop key (framesOf 4 bodies ++ tail)).outcome ∧
      (t.readLoop key (framesOf 4 (bodies ++ [junk]) ++ tail)).ending =
        (t.readLoop key (framesOf 4 bodies ++ tail)).ending
  /-- on any bytes the loop keeps its place until it stops -/
  aligned : ∀ bytes, Aligned t key bytes (t.readLoop key bytes)
  /-- the number of frames it reads is bounded by the length of the stream -/
  ends : ∀ bytes, 5 * (t.readLoop key bytes).bodies.length ≤ bytes.length

/-- `read_loop` decodes streams of frames, for every node and under every key. -/
theorem read_loop_exact (t : Inner Tx) (key : String) : DecodesStreams t key where
  framing frame := encodeWire_eq_frameOf frame
  recovers bodies hfits hother := by
    have hend : cutFrame 4 maxFrame [] = .short := rfl
    rw [← List.append_nil (framesOf 4 bodies), readLoop_framesOf hfits hother,
      readLoop_of_short hend]
    simp [behind, andThen]
  refuses bodies own later hfits hother hown_fits hown := by
    have hown' : OwnBody (takeBodies t key bodies).inner.nodeId own := by
      rwa [takeBodies_nodeId]
    rw [framesOf_append, framesOf_cons, readLoop_framesOf hfits hother,
      readLoop_own hown_fits hown', takeBodies_append]
    simp [behind, takeBodies, andThen]
  skips bodies junk tail hfits hother hjunk_fits hjunk := by
    rw [framesOf_append, List.append_assoc, framesOf_cons, framesOf_nil, List.append_nil,
      readLoop_framesOf hfits hother, readLoop_framesOf hfits hother]
    obtain ⟨houtcome, hending⟩ := readLoop_junk hjunk_fits hjunk tail
    refine ⟨?_, hending⟩
    exact congrArg (andThen (takeBodies t key bodies)) houtcome
  aligned bytes := readLoop_aligned t key bytes
  ends bytes := (readLoop_aligned t key bytes).turns

end Exodus.Analysis

/-! ## On the sample -/

namespace Exodus.Analysis

open Exodus.Library Exodus.Model Exodus.Interface Exodus.Sample

/-- A frame from elsewhere. -/
def peerFrame : Json := .obj [("f", .str "b"), ("t", .str "x")]

/-- A frame of the node itself. -/
def echoFrame : Json := .obj [("f", .str "a"), ("t", .str "x")]

/-- The text of a frame. -/
noncomputable def bodyOf (frame : Json) : List UInt8 := asBytes (Crates.jsonToString frame)

/-- A well-formed frame is read from its text. -/
theorem fromSlice_bodyOf {frame : Json} (h : frame.WellFormed) :
    fromSlice (bodyOf frame) = some frame := by
  rw [bodyOf, fromSlice_asBytes]
  exact SerdeReadsBack.from_to frame h

/-- Not UTF-8, so not JSON. -/
def junkBody : List UInt8 := [0xff]

/-- Nothing is read from it. -/
theorem junkBody_not_json : fromSlice junkBody = none := by
  have hinvalid : String.fromUTF8? ⟨junkBody.toArray⟩ = none := by decide +kernel
  rw [fromSlice, hinvalid]
  rfl

/-- A node with the id of the second frame. -/
def listener : Inner Unit := Inner.new "a"

/-- A frame from elsewhere, twice, with a body that is not JSON in between. -/
noncomputable def mixedBodies : List (List UInt8) := [bodyOf peerFrame, junkBody, bodyOf peerFrame]

/-- A stream of these bodies is read to its end.  With a frame of the node itself behind them
and another frame behind that, the loop stops before the last frame. -/
theorem mixed_stream :
    (listener.readLoop "k" (framesOf 4 mixedBodies)).bodies = mixedBodies ∧
    listener.readLoop "k" (framesOf 4 (mixedBodies ++ bodyOf echoFrame :: [bodyOf peerFrame])) =
      ⟨takeBodies listener "k" (mixedBodies ++ [bodyOf echoFrame]), mixedBodies ++ [bodyOf echoFrame],
        framesOf 4 [bodyOf peerFrame], .refused⟩ := by
  have hpeer : fromSlice (bodyOf peerFrame) = some peerFrame :=
    fromSlice_bodyOf ⟨by decide, trivial, trivial, trivial⟩
  have hecho : fromSlice (bodyOf echoFrame) = some echoFrame :=
    fromSlice_bodyOf ⟨by decide, trivial, trivial, trivial⟩
  have hfits : ∀ b ∈ mixedBodies, Framable maxFrame b := by
    simp only [mixedBodies, List.forall_mem_cons, List.not_mem_nil, false_implies, implies_true,
      and_true]
    refine ⟨?_, ⟨by decide, by decide⟩, ?_⟩ <;> exact ⟨by decide +kernel, by decide +kernel⟩
  have hother : ∀ b ∈ mixedBodies, ¬OwnBody listener.nodeId b := by
    simp only [mixedBodies, List.forall_mem_cons, List.not_mem_nil, false_implies, implies_true,
      and_true]
    have hframe : ¬OwnBody listener.nodeId (bodyOf peerFrame) := by
      rintro ⟨frame, hread, hown⟩
      rw [hpeer, Option.some_inj] at hread
      subst hread
      exact absurd hown (by decide)
    refine ⟨hframe, ?_, hframe⟩
    rintro ⟨frame, hread, -⟩
    rw [junkBody_not_json] at hread
    cases hread
  have hreads := read_loop_exact listener "k"
  refine ⟨congrArg Reading.bodies (hreads.recovers mixedBodies hfits hother), ?_⟩
  exact hreads.refuses mixedBodies (bodyOf echoFrame) [bodyOf peerFrame] hfits hother
    ⟨by decide +kernel, by decide +kernel⟩ ⟨echoFrame, hecho, rfl⟩

end Exodus.Analysis
