import Exodus.Library.Window
import Exodus.Model.Transport

/-!
# What the transport does with a frame

The wire form is read back (`readFrame_encodeWire`).  The set and the queue of message ids
agree, and the queue is a window of the ids seen last (`SeenInv`, `noteSeen_order`).
`onFrame_cases` takes `on_frame` apart once; later proofs use it and do not unfold it.  One
turn of the read loop is one of three: the stream is too short, the length is refused, or a
whole body is taken (`readLoop_of_short`, `readLoop_of_refused`, `readLoop_of_whole`).
-/

set_option autoImplicit false

namespace Exodus.Interface

open Exodus.Library Exodus.Model

/-! ## The wire -/

section Wire

variable [Crates]

/-- The length that `read_loop` takes. -/
def FrameFits (frame : Json) : Prop :=
  1 ≤ (asBytes (Crates.jsonToString frame)).length ∧
    (asBytes (Crates.jsonToString frame)).length ≤ maxFrame

/-- Reading the bytes of a text is reading the text. -/
theorem fromSlice_asBytes (s : String) : fromSlice (asBytes s) = Crates.jsonFromStr s := by
  have hbytes : (⟨(asBytes s).toArray⟩ : ByteArray) = s.toUTF8 := rfl
  rw [fromSlice, hbytes, String.fromUTF8?]
  exact congrArg (Option.bind · Crates.jsonFromStr) (dif_pos s.isValidUTF8)

/-- The wire form is a frame around the text. -/
theorem encodeWire_eq_frameOf (frame : Json) :
    encodeWire frame = frameOf 4 (asBytes (Crates.jsonToString frame)) := rfl

/-- A length and a body of that length are read as the frame in the body. -/
theorem readFrame_append {body : List UInt8} {frame : Json} (hpos : 1 ≤ body.length)
    (hmax : body.length ≤ maxFrame) (hbody : fromSlice body = some frame) (rest : List UInt8) :
    readFrame (bytesBE 4 body.length ++ body ++ rest) = .frame frame rest := by
  have hcut : cutFrame 4 maxFrame (bytesBE 4 body.length ++ body ++ rest) = .whole body rest :=
    cutFrame_frameOf (by decide) ⟨hpos, hmax⟩ rest
  rw [readFrame_eq, hcut]
  dsimp only
  rw [hbody]

/-- A frame is read back from the wire. -/
theorem readFrame_encodeWire [SerdeReadsBack] {frame : Json} (hwf : frame.WellFormed)
    (hfits : FrameFits frame) (rest : List UInt8) :
    readFrame (encodeWire frame ++ rest) = .frame frame rest := by
  have hbody : fromSlice (asBytes (Crates.jsonToString frame)) = some frame := by
    rw [fromSlice_asBytes]
    exact SerdeReadsBack.from_to frame hwf
  exact readFrame_append hfits.1 hfits.2 hbody rest

end Wire

variable {Tx : Type} {t : Inner Tx}

/-- A frame names the node that made it. -/
theorem strMember_makeFrame (t : Inner Tx) (topic : String) (payload : Json) (uuid : String) :
    strMember (t.makeFrame topic payload uuid) "f" = some t.nodeId := rfl

/-- It is well formed if its payload is. -/
theorem wellFormed_makeFrame (t : Inner Tx) (topic : String) {payload : Json} (uuid : String)
    (h : payload.WellFormed) : (t.makeFrame topic payload uuid).WellFormed := by
  have hkeys : ["f", "i", "p", "t"].Pairwise (· < ·) := by decide
  exact ⟨hkeys, trivial, trivial, h, trivial, trivial⟩

/-! ## Message ids -/

/-- The set and the queue of message ids agree. -/
structure SeenInv (t : Inner Tx) : Prop where
  contains : ∀ id, t.seen.1.contains id = true ↔ id ∈ t.seen.2
  nodup : t.seen.2.Nodup

/-- The invariant reads the seen ids only. -/
theorem SeenInv.congr {t' : Inner Tx} (h : SeenInv t) (hseen : t'.seen = t.seen) : SeenInv t' where
  contains id := by
    rw [hseen]
    exact h.contains id
  nodup := by
    rw [hseen]
    exact h.nodup

/-- A new node has seen none. -/
theorem seenInv_new (nodeId : String) : SeenInv (Inner.new nodeId : Inner Tx) where
  contains id := by simp [Inner.new]
  nodup := List.nodup_nil

/-- What `note_seen` can do: find the id, put it into a full queue, or put it into one with
room. -/
theorem noteSeen_cases (t : Inner Tx) (id : String) :
    (t.seen.1.contains id = true ∧ t.noteSeen id = (true, t)) ∨
    (t.seen.1.contains id = false ∧ loopWindow < (t.seen.2 ++ [id]).length ∧
      t.noteSeen id = (false, { t with seen :=
        ((t.seen.2 ++ [id]).head?.elim (t.seen.1.insert id ()) (t.seen.1.insert id ()).erase,
          (t.seen.2 ++ [id]).tail) })) ∨
    (t.seen.1.contains id = false ∧ ¬loopWindow < (t.seen.2 ++ [id]).length ∧
      t.noteSeen id = (false, { t with seen := (t.seen.1.insert id (), t.seen.2 ++ [id]) })) := by
  cases hknown : t.seen.1.contains id with
  | true => exact .inl ⟨rfl, if_pos hknown⟩
  | false =>
    have hnew : ¬t.seen.1.contains id = true := by simp [hknown]
    by_cases hfull : loopWindow < (t.seen.2 ++ [id]).length
    · exact .inr (.inl ⟨rfl, hfull, (if_neg hnew).trans (if_pos hfull)⟩)
    · exact .inr (.inr ⟨rfl, hfull, (if_neg hnew).trans (if_neg hfull)⟩)

/-- Only the ids change. -/
theorem noteSeen_fields (t : Inner Tx) (id : String) :
    ∃ seen, (t.noteSeen id).2 = { t with seen } := by
  rcases noteSeen_cases t id with ⟨-, heq⟩ | ⟨-, -, heq⟩ | ⟨-, -, heq⟩ <;> rw [heq]
  · exact ⟨t.seen, rfl⟩
  · exact ⟨_, rfl⟩
  · exact ⟨_, rfl⟩

/-- An id is known if it is in the window. -/
theorem SeenInv.noteSeen_known (h : SeenInv t) (id : String) :
    (t.noteSeen id).1 = true ↔ id ∈ t.seen.2 := by
  rw [← h.contains]
  rcases noteSeen_cases t id with ⟨hknown, heq⟩ | ⟨hknown, -, heq⟩ | ⟨hknown, -, heq⟩ <;>
    simp [heq, hknown]

/-- The ids are noted in a window. -/
theorem SeenInv.noteSeen_order (h : SeenInv t) (id : String) :
    (t.noteSeen id).2.seen.2 = note loopWindow t.seen.2 id := by
  have hmem := h.contains id
  rcases noteSeen_cases t id with ⟨hknown, heq⟩ | ⟨hknown, hfull, heq⟩ | ⟨hknown, hfull, heq⟩
  · rw [heq, note_of_mem (hmem.mp hknown)]
  · rw [hknown] at hmem
    rw [heq, note, if_neg (by simpa using hmem), if_pos hfull]
  · rw [hknown] at hmem
    rw [heq, note, if_neg (by simpa using hmem), if_neg hfull]

/-- Noting an id keeps the invariant. -/
theorem SeenInv.noteSeen (h : SeenInv t) (id : String) : SeenInv (t.noteSeen id).2 where
  nodup := by
    rw [h.noteSeen_order]
    exact note_nodup h.nodup
  contains x := by
    have hx : (t.seen.1.insert id ()).contains x = true ↔ x ∈ t.seen.2 ++ [id] := by
      rw [Std.ExtTreeMap.contains_insert, Bool.or_eq_true, h.contains, List.mem_append,
        List.mem_singleton, beq_iff_eq, Std.compare_eq_iff_eq]
      tauto
    rcases noteSeen_cases t id with ⟨hknown, heq⟩ | ⟨hknown, hfull, heq⟩ | ⟨hknown, hfull, heq⟩ <;>
      rw [heq]
    · exact h.contains x
    · have hnodup : (t.seen.2 ++ [id]).Nodup := by
        apply nodup_snoc h.nodup
        rw [← h.contains, hknown]
        exact Bool.false_ne_true
      cases hqueue : t.seen.2 ++ [id] with
      | nil => simp at hqueue
      | cons old rest =>
        -- the oldest id leaves both, and it stood in the queue once
        rw [hqueue] at hx hnodup
        show ((t.seen.1.insert id ()).erase old).contains x = true ↔ x ∈ rest
        rw [Std.ExtTreeMap.contains_erase, Bool.and_eq_true, hx, List.mem_cons, bne_iff_ne,
          ne_eq, Std.compare_eq_iff_eq]
        have hold := (List.nodup_cons.mp hnodup).1
        constructor
        · rintro ⟨hne, rfl | hrest⟩
          · exact absurd rfl hne
          · exact hrest
        · intro hrest
          refine ⟨?_, .inr hrest⟩
          rintro rfl
          exact hold hrest
    · exact hx

/-! ## Frames -/

variable [Crates]

/-- Handing a frame on leaves the node. -/
@[simp] theorem handOn_inner (t : Inner Tx) (frame : Json) (key : String) :
    (t.handOn frame key).inner = t := by
  unfold Inner.handOn
  cases strMember frame "t" <;> rfl

/-- What `on_frame` can do: refuse a frame of the node itself, drop a known one, or hand on a
new one or one without a message id. -/
theorem onFrame_cases (t : Inner Tx) (frame : Json) (key : String) :
    (strMember frame "f" = some t.nodeId ∧ t.onFrame frame key = (false, ⟨t, [], []⟩)) ∨
    (strMember frame "f" ≠ some t.nodeId ∧ strMember frame "i" = none ∧
      t.onFrame frame key = (true, t.handOn frame key)) ∨
    (strMember frame "f" ≠ some t.nodeId ∧ ∃ id, strMember frame "i" = some id ∧
      (t.noteSeen id).1 = true ∧ t.onFrame frame key = (true, ⟨(t.noteSeen id).2, [], []⟩)) ∨
    (strMember frame "f" ≠ some t.nodeId ∧ ∃ id, strMember frame "i" = some id ∧
      (t.noteSeen id).1 = false ∧ t.onFrame frame key = (true, (t.noteSeen id).2.handOn frame key)) := by
  unfold Inner.onFrame
  by_cases hown : strMember frame "f" = some t.nodeId
  · exact .inl ⟨hown, if_pos hown⟩
  · rw [if_neg hown]
    refine .inr ?_
    cases hid : strMember frame "i" with
    | none => exact .inl ⟨hown, rfl, rfl⟩
    | some id =>
      cases hknown : (t.noteSeen id).1 with
      | true => exact .inr (.inl ⟨hown, id, rfl, hknown, by simp [hknown]⟩)
      | false => exact .inr (.inr ⟨hown, id, rfl, hknown, by simp [hknown]⟩)

/-- The node keeps its id and its peers. -/
theorem onFrame_fields (t : Inner Tx) (frame : Json) (key : String) :
    (t.onFrame frame key).2.inner.nodeId = t.nodeId ∧
      (t.onFrame frame key).2.inner.peers = t.peers := by
  rcases onFrame_cases t frame key with ⟨-, heq⟩ | ⟨-, -, heq⟩ | ⟨-, id, -, -, heq⟩ |
    ⟨-, id, -, -, heq⟩ <;> rw [heq]
  · exact ⟨rfl, rfl⟩
  · rw [handOn_inner]
    exact ⟨rfl, rfl⟩
  · obtain ⟨seen, hnoted⟩ := noteSeen_fields t id
    rw [hnoted]
    exact ⟨rfl, rfl⟩
  · obtain ⟨seen, hnoted⟩ := noteSeen_fields t id
    rw [handOn_inner, hnoted]
    exact ⟨rfl, rfl⟩

/-- Only the node's own frames end a read loop. -/
theorem origin_of_onFrame {frame : Json} {key : String} (h : (t.onFrame frame key).1 = false) :
    strMember frame "f" = some t.nodeId := by
  rcases onFrame_cases t frame key with ⟨hown, -⟩ | ⟨-, -, heq⟩ | ⟨-, id, -, -, heq⟩ |
    ⟨-, id, -, -, heq⟩
  · exact hown
  all_goals
    rw [heq] at h
    exact absurd h Bool.noConfusion

/-- A frame is forwarded as it is, over other connections than its own. -/
theorem mem_handOn_sends {frame : Json} {key : String} {s : Tx × List UInt8}
    (h : s ∈ (t.handOn frame key).sends) :
    s.2 = encodeWire frame ∧ ∃ key' : String, key' ≠ key ∧ t.peers[key']? = some s.1 := by
  unfold Inner.handOn at h
  cases htopic : strMember frame "t" with
  | none =>
    rw [htopic] at h
    exact absurd h List.not_mem_nil
  | some topic =>
    rw [htopic] at h
    obtain ⟨peer, hpeer, rfl⟩ := List.mem_map.mp h
    rw [List.mem_filter, Std.ExtTreeMap.mem_toList_iff_getElem?_eq_some] at hpeer
    exact ⟨rfl, peer.1, of_decide_eq_true hpeer.2, hpeer.1⟩

/-- What is forwarded is the frame, to peers with another key. -/
theorem mem_onFrame_sends {frame : Json} {key : String} {s : Tx × List UInt8}
    (h : s ∈ (t.onFrame frame key).2.sends) :
    s.2 = encodeWire frame ∧ ∃ key' : String, key' ≠ key ∧ t.peers[key']? = some s.1 := by
  rcases onFrame_cases t frame key with ⟨-, heq⟩ | ⟨-, -, heq⟩ | ⟨-, id, -, -, heq⟩ |
    ⟨-, id, -, -, heq⟩ <;> rw [heq] at h
  · exact absurd h List.not_mem_nil
  · exact mem_handOn_sends h
  · exact absurd h List.not_mem_nil
  · obtain ⟨seen, hnoted⟩ := noteSeen_fields t id
    have hsends := mem_handOn_sends h
    rwa [hnoted] at hsends

/-! ## The read loop -/

/-- What a turn of `read_loop` does with a body: nothing if it is not JSON. -/
def takeBody (t : Inner Tx) (key : String) (body : List UInt8) : Bool × Outcome Tx :=
  match fromSlice body with
  | none => (true, ⟨t, [], []⟩)
  | some frame => t.onFrame frame key

section ReadLoop

variable {key : String} {bytes rest body : List UInt8}

/-- The loop stops within a frame. -/
theorem readLoop_of_short (h : cutFrame 4 maxFrame bytes = .short) :
    t.readLoop key bytes = ⟨⟨t, [], []⟩, [], bytes, .truncated⟩ := by
  have hread : readFrame bytes = .wait := by rw [readFrame_eq, h]
  rw [Inner.readLoop]
  split <;> simp_all

/-- The loop stops at a length that is refused. -/
theorem readLoop_of_refused (h : cutFrame 4 maxFrame bytes = .refused) :
    t.readLoop key bytes = ⟨⟨t, [], []⟩, [], bytes, .badLength⟩ := by
  have hread : readFrame bytes = .stop := by rw [readFrame_eq, h]
  rw [Inner.readLoop]
  split <;> simp_all

/-- One turn of the loop, and the turns on the rest of the stream. -/
theorem readLoop_of_whole (h : cutFrame 4 maxFrame bytes = .whole body rest) :
    t.readLoop key bytes =
      if (takeBody t key body).1 then
        ((takeBody t key body).2.inner.readLoop key rest).after (takeBody t key body).2 body
      else ⟨(takeBody t key body).2, [body], rest, .refused⟩ := by
  have hbody : (bytes.drop 4).take (natBE (bytes.take 4)) = body := by
    unfold cutFrame at h
    dsimp only at h
    split_ifs at h
    injection h
  have hread := readFrame_eq bytes
  rw [h] at hread
  dsimp only at hread
  rw [Inner.readLoop, hbody, takeBody]
  cases hparsed : fromSlice body with
  | none =>
    rw [hparsed] at hread
    split <;> simp_all
  | some frame =>
    rw [hparsed] at hread
    split <;> simp_all

end ReadLoop

omit [Crates] in
/-- A broadcast sends the bytes over registered connections. -/
theorem mem_broadcast {raw : List UInt8} {s : Tx × List UInt8} (h : s ∈ t.broadcast raw) :
    s.2 = raw ∧ ∃ key : String, t.peers[key]? = some s.1 := by
  obtain ⟨peer, hpeer, rfl⟩ := List.mem_map.mp h
  exact ⟨rfl, peer.1, Std.ExtTreeMap.mem_toList_iff_getElem?_eq_some.mp hpeer⟩

end Exodus.Interface
