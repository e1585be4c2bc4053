import Exodus.Interface.Overlay
import Exodus.Interface.Sample

/-!
# Forwarding loops

A node acts on a frame when `on_frame` calls a handler or forwards it.  A frame with a
message id is acted on once per node, as long as fewer than `LOOP_WINDOW` other ids reach
the node in between: the id stays in the window.  A frame that has a topic and no message id
passes `on_frame` every time, so it goes round every cycle of connections without end.
-/

set_option autoImplicit false

namespace Exodus.Analysis

open Exodus.Library Exodus.Model Exodus.Interface

variable {κ Tx : Type} {t : Inner Tx} {frame : Json} {id key : String}

/-- The node hands the frame to a handler, or forwards it. -/
def Acts (r : Receipt κ) : Prop := r.calls ≠ [] ∨ r.sends ≠ []

/-- The message ids of the receipts, apart from that of the frame itself. -/
def otherIds (frame : Json) (rs : List (Receipt κ)) : Finset String :=
  (rs.filterMap fun r => strMember r.frame "i").toFinset.filter fun id =>
    strMember frame "i" ≠ some id

/-- Of two receipts of the frame with fewer than `LOOP_WINDOW` other ids between them, at most
one is acted on. -/
def ActsOnce (frame : Json) (rs : List (Receipt κ)) : Prop :=
  ∀ before r mid r' after, rs = before ++ r :: (mid ++ r' :: after) → r.frame = frame →
    r'.frame = frame → (otherIds frame mid).card < loopWindow → Acts r → ¬Acts r'

variable [Crates]

/-! ## One frame -/

/-- A frame keeps the invariant of the seen ids. -/
theorem seenInv_onFrame (h : SeenInv t) (frame : Json) (key : String) :
    SeenInv (t.onFrame frame key).2.inner := by
  rcases onFrame_cases t frame key with ⟨-, heq⟩ | ⟨-, -, heq⟩ | ⟨-, id, -, -, heq⟩ |
    ⟨-, id, -, -, heq⟩ <;> rw [heq]
  · exact h
  · rwa [handOn_inner]
  · exact h.noteSeen id
  · rw [handOn_inner]
    exact h.noteSeen id

/-- An id in the window stays there while there is room for the others. -/
theorem heldSince_onFrame {since : Finset String} (h : SeenInv t)
    (hheld : HeldSince t.seen.2 id since) (hroom : since.card < loopWindow)
    (hother : ∀ other, strMember frame "i" = some other → other ≠ id → other ∈ since) :
    HeldSince (t.onFrame frame key).2.inner.seen.2 id since := by
  have hnoted {other : String} (hid : strMember frame "i" = some other) :
      HeldSince (t.noteSeen other).2.seen.2 id since := by
    rw [h.noteSeen_order]
    exact hheld.note h.nodup (hother other hid) hroom
  rcases onFrame_cases t frame key with ⟨-, heq⟩ | ⟨-, -, heq⟩ | ⟨-, other, hid, -, heq⟩ |
    ⟨-, other, hid, -, heq⟩ <;> rw [heq]
  · exact hheld
  · rwa [handOn_inner]
  · exact hnoted hid
  · rw [handOn_inner]
    exact hnoted hid

/-- A frame whose id is in the window is not acted on. -/
theorem onFrame_of_seen (h : SeenInv t) (hid : strMember frame "i" = some id)
    (hseen : id ∈ t.seen.2) (key : String) :
    (t.onFrame frame key).2.calls = [] ∧ (t.onFrame frame key).2.sends = [] := by
  have hknown := (h.noteSeen_known id).mpr hseen
  rcases onFrame_cases t frame key with ⟨-, heq⟩ | ⟨-, hnone, -⟩ | ⟨-, other, -, -, heq⟩ |
    ⟨-, other, hid', hnew, -⟩
  · rw [heq]
    exact ⟨rfl, rfl⟩
  · rw [hid] at hnone
    exact absurd hnone (Option.some_ne_none id)
  · rw [heq]
    exact ⟨rfl, rfl⟩
  · rw [hid, Option.some_inj] at hid'
    rw [← hid', hknown] at hnew
    exact absurd hnew (by decide)

/-- After a frame has been acted on, its id is in the window. -/
theorem heldSince_of_acts (h : SeenInv t) (hid : strMember frame "i" = some id)
    (hacts : (t.onFrame frame key).2.calls ≠ [] ∨ (t.onFrame frame key).2.sends ≠ [])
    (since : Finset String) : HeldSince (t.onFrame frame key).2.inner.seen.2 id since := by
  have hnew : id ∉ t.seen.2 := by
    intro hseen
    obtain ⟨hcalls, hsends⟩ := onFrame_of_seen h hid hseen key
    exact hacts.elim (· hcalls) (· hsends)
  rcases onFrame_cases t frame key with ⟨-, heq⟩ | ⟨-, hnone, -⟩ | ⟨-, other, -, -, heq⟩ |
    ⟨-, other, hid', -, heq⟩
  · simp [heq] at hacts
  · rw [hid] at hnone
    exact absurd hnone (Option.some_ne_none id)
  · simp [heq] at hacts
  · rw [hid, Option.some_inj] at hid'
    rw [heq, handOn_inner, ← hid', h.noteSeen_order]
    exact heldSince_note (by decide) hnew since

/-! ## Whole runs -/

variable [DecidableEq κ] (T : Topology κ) {v : String} {o : Overlay κ}

/-- The first action brings a receipt of the node or leaves the message ids as they are. -/
theorem receipts_cons (o : Overlay κ) (v : String) (a : Action κ) (actions : List (Action κ)) :
    (∃ r key, o.receipts T v (a :: actions) = r :: (o.step T a).1.receipts T v actions ∧
      r.calls = ((o.nodes v).onFrame r.frame key).2.calls ∧
      r.sends = ((o.nodes v).onFrame r.frame key).2.sends ∧
      (o.step T a).1.nodes v = ((o.nodes v).onFrame r.frame key).2.inner) ∨
    (o.receipts T v (a :: actions) = (o.step T a).1.receipts T v actions ∧
      ((o.step T a).1.nodes v).seen = (o.nodes v).seen) := by
  rcases o.step_at T a v with ⟨frame, key, hreceipt, hnode⟩ | ⟨hnone, hseen⟩
  · refine .inl ⟨⟨v, frame, ((o.nodes v).onFrame frame key).2.calls,
      ((o.nodes v).onFrame frame key).2.sends⟩, key, ?_, rfl, rfl, hnode⟩
    rw [Overlay.receipts, hreceipt]
    simp
  · refine .inr ⟨?_, hseen⟩
    rw [Overlay.receipts, hnone, List.nil_append]

omit [Crates] [DecidableEq κ] in
/-- The id of a receipt is among the others unless it is that of the frame. -/
theorem mem_otherIds_cons {r : Receipt κ} {rs : List (Receipt κ)} {other : String}
    (hother : strMember r.frame "i" = some other) (hne : strMember frame "i" ≠ some other) :
    other ∈ otherIds frame (r :: rs) := by
  simp [otherIds, hother, hne]

omit [Crates] [DecidableEq κ] in
/-- More receipts have more ids. -/
theorem otherIds_subset_cons (r : Receipt κ) (rs : List (Receipt κ)) :
    otherIds frame rs ⊆ otherIds frame (r :: rs) := by
  intro other hmem
  simp only [otherIds, Finset.mem_filter, List.mem_toFinset, List.mem_filterMap] at hmem ⊢
  obtain ⟨⟨r', hr', hid⟩, hne⟩ := hmem
  exact ⟨⟨r', List.mem_cons_of_mem r hr', hid⟩, hne⟩

/-- While the frame's id is in the window of a node, the node does not act on the frame. -/
theorem not_acts_of_held {since : Finset String} (hid : strMember frame "i" = some id)
    (hroom : since.card < loopWindow) {actions : List (Action κ)} {mid after : List (Receipt κ)}
    {r : Receipt κ} (hinv : SeenInv (o.nodes v)) (hheld : HeldSince (o.nodes v).seen.2 id since)
    (hrs : o.receipts T v actions = mid ++ r :: after) (hsince : otherIds frame mid ⊆ since)
    (hr : r.frame = frame) : ¬Acts r := by
  -- the receipts up to `r` are taken off one action at a time, and the id stays in the window
  induction actions generalizing o mid with
  | nil => simp [Overlay.receipts] at hrs
  | cons a actions ih =>
    rcases receipts_cons T o v a actions with ⟨r₀, key, hcons, hcalls, hsends, hnode⟩ |
      ⟨hsame, hseen⟩
    · rw [hcons] at hrs
      cases mid with
      | nil =>
        obtain ⟨rfl, -⟩ := List.cons.inj hrs
        obtain ⟨hcalls', hsends'⟩ := onFrame_of_seen hinv (hr ▸ hid) hheld.mem key
        rintro (hacts | hacts)
        · exact hacts (hcalls.trans hcalls')
        · exact hacts (hsends.trans hsends')
      | cons r₁ mid =>
        obtain ⟨rfl, hrest⟩ := List.cons.inj hrs
        have hother : ∀ other, strMember r₀.frame "i" = some other → other ≠ id →
            other ∈ since := by
          intro other hother hne
          apply hsince
          apply mem_otherIds_cons hother
          rw [hid]
          exact fun heq => hne (Option.some_inj.mp heq).symm
        refine ih ?_ ?_ hrest ((otherIds_subset_cons r₀ mid).trans hsince)
        · rw [hnode]
          exact seenInv_onFrame hinv r₀.frame key
        · rw [hnode]
          exact heldSince_onFrame hinv hheld hroom hother
    · rw [hsame] at hrs
      exact ih (hinv.congr hseen) (by rwa [hseen]) hrs hsince

/-- A frame with a message id is acted on once. -/
theorem actsOnce_of_id (hid : strMember frame "i" = some id) {actions : List (Action κ)}
    (hinv : SeenInv (o.nodes v)) : ActsOnce frame (o.receipts T v actions) := by
  induction actions generalizing o with
  | nil =>
    intro before r mid r' after heq
    simp [Overlay.receipts] at heq
  | cons a actions ih =>
    rcases receipts_cons T o v a actions with ⟨r₀, key, hcons, hcalls, hsends, hnode⟩ |
      ⟨hsame, hseen⟩
    · have hinv' : SeenInv ((o.step T a).1.nodes v) := by
        rw [hnode]
        exact seenInv_onFrame hinv r₀.frame key
      rw [hcons]
      intro before r mid r' after heq h₀ h₁ hroom hacts
      cases before with
      | nil =>
        obtain ⟨rfl, hrest⟩ := List.cons.inj heq
        rw [Acts, hcalls, hsends] at hacts
        have hheld := heldSince_of_acts hinv (h₀ ▸ hid) hacts (otherIds frame mid)
        rw [← hnode] at hheld
        exact not_acts_of_held T hid hroom hinv' hheld hrest (Finset.Subset.refl _) h₁
      | cons r₁ before =>
        obtain ⟨rfl, hrest⟩ := List.cons.inj heq
        exact ih hinv' before r mid r' after hrest h₀ h₁ hroom hacts
    · rw [hsame]
      exact ih (hinv.congr hseen)

/-- A frame without a topic is not acted on. -/
theorem not_acts_of_no_topic (htopic : strMember frame "t" = none) {actions : List (Action κ)}
    {r : Receipt κ} (hr : r ∈ o.receipts T v actions) (hframe : r.frame = frame) : ¬Acts r := by
  induction actions generalizing o with
  | nil => simp [Overlay.receipts] at hr
  | cons a actions ih =>
    rcases receipts_cons T o v a actions with ⟨r₀, key, hcons, hcalls, hsends, hnode⟩ | ⟨hsame, -⟩
    · rw [hcons] at hr
      rcases List.mem_cons.mp hr with rfl | hr
      · have hnothing (t : Inner (κ × Bool)) : t.handOn r.frame key = ⟨t, [], []⟩ := by
          rw [Inner.handOn, hframe, htopic]
        rw [Acts, hcalls, hsends]
        rcases onFrame_cases (o.nodes v) r.frame key with ⟨-, heq⟩ | ⟨-, -, heq⟩ |
          ⟨-, id, -, -, heq⟩ | ⟨-, id, -, -, heq⟩ <;> simp [heq, hnothing]
      · exact ih hr
    · rw [hsame] at hr
      exact ih hr

/-! ## Frames without a message id -/

/-- A frame that `on_frame` hands on every time at a node. -/
structure Unmarked (frame : Json) (v : String) : Prop where
  origin : strMember frame "f" ≠ some v
  id : strMember frame "i" = none

/-- A turn of a read loop that finds such a frame: only the wires change. -/
theorem step_read_unmarked {e : κ × Bool} {raw rest : List UInt8} {t : Inner (κ × Bool)}
    (hended : o.ended e = false) (hwire : o.wires e = raw ++ rest)
    (hraw : ∀ rest, readFrame (raw ++ rest) = .frame frame rest) (hnode : o.nodes (T.node e) = t)
    (hframe : Unmarked frame t.nodeId) :
    ∃ o', o.step T (.read e) = (o', some ⟨T.node e, frame,
        (t.handOn frame (T.ends e).key).calls, (t.handOn frame (T.ends e).key).sends⟩) ∧
      o'.nodes = o.nodes ∧ o'.ended = o.ended ∧
      ∀ e', o'.wires e' = (if e' = e then rest else o.wires e') ++
        ((t.handOn frame (T.ends e).key).sends.filter fun s => s.1 = e').flatMap Prod.snd := by
  have honFrame : t.onFrame frame (T.ends e).key = (true, t.handOn frame (T.ends e).key) := by
    rw [Inner.onFrame, if_neg hframe.origin, hframe.id]
  have hnode' : (o.setWire e rest).nodes (T.node e) = t := hnode
  refine ⟨(o.setWire e rest).perform (T.node e) (t.handOn frame (T.ends e).key), ?_, ?_, rfl, ?_⟩
  · rw [o.step_read T hended hwire (hraw rest)]
    simp only [Overlay.receive, hnode', honFrame, if_true]
  · funext w
    rw [Overlay.perform_nodes, handOn_inner]
    split_ifs with hw
    · rw [hw, hnode]
    · rfl
  · intro e'
    show Function.update o.wires e rest e' ++ _ = _
    rw [Function.update_apply]

/-- If the first action is a receipt of the node, it stands first in its receipts. -/
theorem receipts_of_step {o' : Overlay κ} {a : Action κ} {r : Receipt κ}
    (h : o.step T a = (o', some r)) (hr : r.node = v) (actions : List (Action κ)) :
    o.receipts T v (a :: actions) = r :: o'.receipts T v actions := by
  rw [Overlay.receipts, h]
  simp [hr]

/-- A receipt of another node is left out. -/
theorem receipts_of_step_elsewhere {o' : Overlay κ} {a : Action κ} {r : Receipt κ}
    (h : o.step T a = (o', some r)) (hr : r.node ≠ v) (actions : List (Action κ)) :
    o.receipts T v (a :: actions) = o'.receipts T v actions := by
  rw [Overlay.receipts, h]
  simp [hr]

/-- With a topic it is forwarded to every other peer. -/
theorem handOn_sends_ne_nil {topic key' : String} {tx : Tx} (htopic : strMember frame "t" = some topic)
    (hpeer : t.peers[key']? = some tx) (hkey : key' ≠ key) : (t.handOn frame key).sends ≠ [] := by
  have hmem : (key', tx) ∈ t.peers.toList.filter fun peer => peer.1 ≠ key := by
    rw [List.mem_filter, Std.ExtTreeMap.mem_toList_iff_getElem?_eq_some]
    exact ⟨hpeer, decide_eq_true hkey⟩
  rw [Inner.handOn, htopic]
  exact List.ne_nil_of_mem (List.mem_map_of_mem hmem)

/-! ## The exact condition -/

/-- A peer can send the frame: some body of an accepted length is read as it. -/
def Sendable (frame : Json) : Prop :=
  ∃ body, 1 ≤ body.length ∧ body.length ≤ maxFrame ∧ fromSlice body = some frame

/-- A well-formed frame of an accepted length can be sent. -/
theorem sendable_of_fits [SerdeReadsBack] (hwf : frame.WellFormed) (hfits : FrameFits frame) :
    Sendable frame := by
  refine ⟨asBytes (Crates.jsonToString frame), hfits.1, hfits.2, ?_⟩
  rw [fromSlice_asBytes]
  exact SerdeReadsBack.from_to frame hwf

/-- Two connections of one node. -/
def relay (v : String) : Topology Bool where
  ends e := if e.2 then ⟨v, if e.1 then "out" else "in"⟩ else ⟨"", ""⟩

/-- A frame that comes twice over one connection. -/
def twice (raw : List UInt8) : List (Action Bool) :=
  [.register (true, true), .inject (false, true) (raw ++ raw), .read (false, true),
    .read (false, true)]

/-- A frame without an id that comes twice is acted on twice. -/
theorem receipts_twice {raw : List UInt8} {topic : String} (hframe : Unmarked frame v)
    (htopic : strMember frame "t" = some topic)
    (hraw : ∀ rest, readFrame (raw ++ rest) = .frame frame rest) :
    ∃ r r', Overlay.start.receipts (relay v) v (twice raw) = [r, r'] ∧ r.frame = frame ∧
      r'.frame = frame ∧ Acts r ∧ Acts r' := by
  let t : Inner (Bool × Bool) := (Inner.new v).register "out" (true, false)
  let ready : Overlay Bool := (Overlay.start.setNode v t).setWire (false, true) (raw ++ raw)
  have hready : ready.nodes v = t := (Overlay.start.setNode_nodes v v t).trans (if_pos rfl)
  have hsends : (t.handOn frame "in").sends ≠ [] :=
    handOn_sends_ne_nil htopic (Std.ExtTreeMap.getElem?_insert_self) (by decide)
  obtain ⟨o₁, hstep₁, hnodes₁, hended₁, hwires₁⟩ := step_read_unmarked (relay v) (o := ready)
    (e := (false, true)) rfl (Overlay.setWire_wires _ _ _) hraw hready hframe
  have hwire₁ := hwires₁ (false, true)
  rw [if_pos rfl] at hwire₁
  obtain ⟨o₂, hstep₂, -⟩ := step_read_unmarked (relay v) (o := o₁) (e := (false, true))
    (by rw [hended₁]; rfl) hwire₁ hraw ((congrFun hnodes₁ v).trans hready) hframe
  have hreceipts : Overlay.start.receipts (relay v) v (twice raw) =
      ready.receipts (relay v) v [.read (false, true), .read (false, true)] := rfl
  rw [hreceipts, receipts_of_step (v := v) _ hstep₁ rfl, receipts_of_step (v := v) _ hstep₂ rfl]
  exact ⟨_, _, rfl, rfl, rfl, .inr hsends, .inr hsends⟩

omit [Crates] [DecidableEq κ] in
/-- Nothing comes between two receipts in a row. -/
theorem not_actsOnce_pair {r r' : Receipt κ} (hr : r.frame = frame) (hr' : r'.frame = frame)
    (hacts : Acts r) (hacts' : Acts r') : ¬ActsOnce frame [r, r'] := fun honce =>
  honce [] r [] r' [] rfl hr hr' (Nat.zero_lt_succ 4095) hacts hacts'

omit [Crates] in
/-- A node id that is not the origin of the frame. -/
theorem exists_not_origin (frame : Json) : ∃ v, strMember frame "f" ≠ some v := by
  cases strMember frame "f" with
  | none => exact ⟨"", by simp⟩
  | some origin =>
    obtain ⟨v, hv⟩ := exists_ne origin
    exact ⟨v, by simpa using hv.symm⟩

/-- A frame that a peer can send is acted on at most once by each node while few other ids come
in between, in every topology and every run, exactly when it has a message id or no topic. -/
theorem acts_once_iff (frame : Json) (hsent : Sendable frame) :
    (∀ (κ : Type) [DecidableEq κ] (T : Topology κ) (v : String) (actions : List (Action κ)),
      ActsOnce frame (Overlay.start.receipts T v actions)) ↔
    (strMember frame "i").isSome ∨ strMember frame "t" = none := by
  constructor
  · intro h
    cases hid : strMember frame "i" with
    | some id => exact .inl rfl
    | none =>
      cases htopic : strMember frame "t" with
      | none => exact .inr rfl
      | some topic =>
        -- the peer sends it twice
        exfalso
        obtain ⟨body, hpos, hmax, hbody⟩ := hsent
        obtain ⟨v, hv⟩ := exists_not_origin frame
        obtain ⟨r, r', hrs, hr, hr', hacts, hacts'⟩ := receipts_twice ⟨hv, hid⟩ htopic
          (readFrame_append hpos hmax hbody)
        have honce := h Bool (relay v) v (twice (bytesBE 4 body.length ++ body))
        rw [hrs] at honce
        exact not_actsOnce_pair hr hr' hacts hacts' honce
  · intro h κ _ T v actions
    rcases h with hid | htopic
    · obtain ⟨id, hid⟩ := Option.isSome_iff_exists.mp hid
      exact actsOnce_of_id T hid (seenInv_new v)
    · intro before r mid r' after heq hframe _ _ hacts
      have hr : r ∈ Overlay.start.receipts T v actions := by simp [heq]
      exact absurd hacts (not_acts_of_no_topic T htopic hr hframe)

end Exodus.Analysis

/-! ## On the sample -/

namespace Exodus.Analysis

open Exodus.Library Exodus.Model Exodus.Interface Exodus.Sample

/-- A topic and a message id. -/
def markedFrame : Json := .obj [("i", .str "1"), ("t", .str "x")]

/-- It is acted on once wherever it goes. -/
theorem acts_once_marked : Sendable markedFrame ∧
    ∀ (T : Topology ℕ) (v : String) (actions : List (Action ℕ)),
      ActsOnce markedFrame (Overlay.start.receipts T v actions) := by
  have hsent : Sendable markedFrame :=
    sendable_of_fits ⟨by decide, trivial, trivial, trivial⟩ ⟨by decide +kernel, by decide +kernel⟩
  exact ⟨hsent, (acts_once_iff markedFrame hsent).mpr (.inl rfl) ℕ⟩

/-- A topic and nothing else. -/
def bareFrame : Json := .obj [("t", .str "x")]

/-- Two parallel connections between two nodes, and one to a third party. -/
def doubled : Topology (Option Bool) where
  ends e := ⟨if e.2 then "a" else if e.1.isNone then "x" else "b",
    e.1.elim "k0" fun c => if c then "k2" else "k1"⟩

/-- The third party sends the frame once, and it goes round the two connections. -/
def circle (raw : List UInt8) : List (Action (Option Bool)) :=
  [.register (none, true), .register (some false, true), .register (some true, true),
    .register (some false, false), .register (some true, false), .inject (none, true) raw,
    .read (none, true), .read (some false, false), .read (some true, true)]

/-- The first node with its three connections. -/
def nodeA : Inner (Option Bool × Bool) :=
  (((Inner.new "a").register "k0" (none, false)).register "k1" (some false, false)).register "k2"
    (some true, false)

/-- The second node with its two. -/
def nodeB : Inner (Option Bool × Bool) :=
  ((Inner.new "b").register "k1" (some false, true)).register "k2" (some true, true)

/-- The first node forwards the frame of the third party over both connections. -/
theorem sends_nodeA : (nodeA.handOn bareFrame "k0").sends =
    [((some false, false), encodeWire bareFrame), ((some true, false), encodeWire bareFrame)] := rfl

/-- The second node forwards it over the connection that it did not come over. -/
theorem sends_nodeB : (nodeB.handOn bareFrame "k1").sends =
    [((some true, true), encodeWire bareFrame)] := rfl

/-- The first node acts on the frame when it comes from the third party and again when it comes
back, with no other frame in between. -/
theorem bare_frame_goes_round : Sendable bareFrame ∧
    ¬ActsOnce bareFrame (Overlay.start.receipts doubled "a" (circle (encodeWire bareFrame))) := by
  have hwf : bareFrame.WellFormed := ⟨by decide, trivial, trivial⟩
  have hfits : FrameFits bareFrame := ⟨by decide +kernel, by decide +kernel⟩
  have hread := readFrame_encodeWire hwf hfits
  have hA : Unmarked bareFrame nodeA.nodeId := ⟨by decide, rfl⟩
  have hB : Unmarked bareFrame nodeB.nodeId := ⟨by decide, rfl⟩
  have hsendsA := sends_nodeA
  have hsendsB := sends_nodeB
  generalize hraw : encodeWire bareFrame = raw at hread hsendsA hsendsB ⊢
  let ready : Overlay (Option Bool) :=
    (Overlay.start.run doubled ((circle raw).take 5)).setWire (none, true) raw
  have hreadyA : ready.nodes "a" = nodeA := rfl
  have hreadyB : ready.nodes "b" = nodeB := rfl
  obtain ⟨o₁, hstep₁, hnodes₁, hended₁, hwires₁⟩ := step_read_unmarked doubled (o := ready)
    (e := (none, true)) rfl (List.append_nil raw).symm hread hreadyA hA
  have hwire₁ : o₁.wires (some false, false) = raw ++ [] := by
    rw [hwires₁]
    show [] ++ ((nodeA.handOn bareFrame "k0").sends.filter _).flatMap Prod.snd = _
    rw [hsendsA]
    rfl
  obtain ⟨o₂, hstep₂, hnodes₂, hended₂, hwires₂⟩ := step_read_unmarked doubled (o := o₁)
    (e := (some false, false)) (by rw [hended₁]; rfl) hwire₁ hread
    ((congrFun hnodes₁ "b").trans hreadyB) hB
  have hwire₂ : o₂.wires (some true, true) = raw ++ [] := by
    rw [hwires₂, if_neg (by decide), hwires₁]
    show ([] ++ ((nodeA.handOn bareFrame "k0").sends.filter _).flatMap Prod.snd) ++
      ((nodeB.handOn bareFrame "k1").sends.filter _).flatMap Prod.snd = _
    rw [hsendsA, hsendsB]
    rfl
  obtain ⟨o₃, hstep₃, -⟩ := step_read_unmarked doubled (o := o₂) (e := (some true, true))
    (by rw [hended₂, hended₁]; rfl) hwire₂ hread
    ((congrFun (hnodes₂.trans hnodes₁) "a").trans hreadyA) hA
  have hreceipts : Overlay.start.receipts doubled "a" (circle raw) = ready.receipts doubled "a"
      [.read (none, true), .read (some false, false), .read (some true, true)] := rfl
  rw [hreceipts, receipts_of_step (v := "a") _ hstep₁ rfl,
    receipts_of_step_elsewhere (v := "a") _ hstep₂ (by decide),
    receipts_of_step (v := "a") _ hstep₃ rfl]
  have htopic : strMember bareFrame "t" = some "x" := rfl
  have hpeer : nodeA.peers["k1"]? = some (some false, false) := rfl
  exact ⟨sendable_of_fits hwf hfits, not_actsOnce_pair rfl rfl
    (.inr (handOn_sends_ne_nil htopic hpeer (by decide)))
    (.inr (handOn_sends_ne_nil htopic hpeer (by decide)))⟩

end Exodus.Analysis
