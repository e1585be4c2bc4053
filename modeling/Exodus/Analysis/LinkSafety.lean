import Exodus.Interface.Overlay
import Exodus.Interface.Sample

/-!
# Connections that gossip keeps

`on_frame` refuses every frame whose origin is the node itself, whichever connection it comes
over, and the read loop of that connection ends.  Where the connections form a forest no
frame comes back to its origin, and no read loop ends (`read_loops_kept`).  With a cycle, such as two
parallel connections, a node's own frame comes back over the other one.

The invariant: a frame on its way to an end has its origin on the other side of that
connection.
-/

set_option autoImplicit false

namespace Exodus.Analysis

open Exodus.Library Exodus.Model Exodus.Interface

variable {κ : Type} [Crates] {T : Topology κ} {o : Overlay κ}

/-- All nodes run the transport: no other bytes, and frames of an accepted length. -/
def Gossips : Action κ → Prop
  | .inject _ _ => False
  | .publish v topic payload uuid => payload.WellFormed ∧
    FrameFits ((Inner.new v : Inner (κ × Bool)).makeFrame topic payload uuid)
  | _ => True

variable (T)

/-- The connections around the node of an end form a forest. -/
def InForest (e : κ × Bool) : Prop := T.links.ForestAround (T.node e)

/-- A frame on its way to an end: its origin is on the other side of the connection. -/
structure InTransit (e : κ × Bool) (frame : Json) : Prop where
  wellFormed : frame.WellFormed
  fits : FrameFits frame
  origin : ∃ origin, strMember frame "f" = some origin ∧
    T.links.Joined {e.1} (T.node (across e)) origin

/-- The bytes on their way to an end are such frames. -/
def Conveys (e : κ × Bool) (bytes : List UInt8) : Prop :=
  ∃ frames : List Json, bytes = frames.flatMap encodeWire ∧ ∀ frame ∈ frames, InTransit T e frame

/-- What holds in every state that gossip reaches. -/
structure Sound (o : Overlay κ) : Prop where
  named : ∀ v, (o.nodes v).nodeId = v
  peers : ∀ v key e, (o.nodes v).peers[key]? = some e → T.ends (across e) = ⟨v, key⟩
  conveys : ∀ e, InForest T e → Conveys T e (o.wires e)
  goesOn : ∀ e, InForest T e → o.ended e = false

variable {T}

/-! ## What a connection carries -/

/-- An empty wire conveys nothing. -/
theorem conveys_nil (e : κ × Bool) : Conveys T e [] := ⟨[], rfl, by simp⟩

/-- A wire in two parts conveys what both of them convey. -/
theorem Conveys.append {e : κ × Bool} {bytes bytes' : List UInt8} (h : Conveys T e bytes)
    (h' : Conveys T e bytes') : Conveys T e (bytes ++ bytes') := by
  obtain ⟨frames, rfl, hframes⟩ := h
  obtain ⟨frames', rfl, hframes'⟩ := h'
  refine ⟨frames ++ frames', List.flatMap_append.symm, ?_⟩
  intro frame hmem
  rcases List.mem_append.mp hmem with hmem | hmem
  · exact hframes frame hmem
  · exact hframes' frame hmem

/-- A frame in transit is conveyed by its bytes. -/
theorem conveys_encodeWire {e : κ × Bool} {frame : Json} (h : InTransit T e frame) :
    Conveys T e (encodeWire frame) :=
  ⟨[frame], by simp, by simpa using h⟩

/-- So are several sends in a row. -/
theorem conveys_flatMap {e : κ × Bool} {sends : List ((κ × Bool) × List UInt8)}
    (h : ∀ s ∈ sends, Conveys T e s.2) : Conveys T e (sends.flatMap Prod.snd) := by
  induction sends with
  | nil => exact conveys_nil e
  | cons s sends ih =>
    rw [List.flatMap_cons]
    exact (h s List.mem_cons_self).append (ih fun s' hs' => h s' (List.mem_cons_of_mem s hs'))

/-- What is read is a frame in transit, and the rest is carried on. -/
theorem Conveys.readFrame [SerdeReadsBack] {e : κ × Bool} {bytes : List UInt8}
    (h : Conveys T e bytes) :
    readFrame bytes = .wait ∨ ∃ frame rest, Model.readFrame bytes = .frame frame rest ∧
      InTransit T e frame ∧ Conveys T e rest := by
  obtain ⟨frames, rfl, hframes⟩ := h
  cases frames with
  | nil => exact .inl rfl
  | cons frame frames =>
    have hframe := hframes frame List.mem_cons_self
    refine .inr ⟨frame, frames.flatMap encodeWire, ?_, hframe, frames, rfl, ?_⟩
    · rw [List.flatMap_cons]
      exact readFrame_encodeWire hframe.wellFormed hframe.fits _
    · intro frame' hmem
      exact hframes frame' (List.mem_cons_of_mem frame hmem)

/-! ## One action -/

variable [DecidableEq κ]

omit [DecidableEq κ] in
/-- A peer is the other end of one of the node's connections. -/
theorem Sound.node_across (h : Sound T o) {v key : String} {e : κ × Bool}
    (he : (o.nodes v).peers[key]? = some e) : T.node (across e) = v := by
  rw [Topology.node, h.peers v key e he]

omit [DecidableEq κ] in
/-- At the start no read loop has ended. -/
theorem sound_start : Sound T (Overlay.start : Overlay κ) where
  named _ := rfl
  peers v key e he := by simp [Overlay.start, Inner.new] at he
  conveys e _ := conveys_nil e
  goesOn _ _ := rfl

omit [DecidableEq κ] in
/-- A node may change its links to those of the topology. -/
theorem Sound.setNode (h : Sound T o) {v : String} {t : Inner (κ × Bool)}
    (hid : t.nodeId = (o.nodes v).nodeId)
    (hpeers : ∀ key e, t.peers[key]? = some e →
      (o.nodes v).peers[key]? = some e ∨ T.ends (across e) = ⟨v, key⟩) :
    Sound T (o.setNode v t) where
  named w := by
    rw [Overlay.setNode_nodes]
    split_ifs with hw
    · rw [hid, h.named, hw]
    · exact h.named w
  peers w key e he := by
    rw [Overlay.setNode_nodes] at he
    split_ifs at he with hw
    · rw [hw]
      rcases hpeers key e he with he | he
      · exact h.peers v key e he
      · exact he
    · exact h.peers w key e he
  conveys := h.conveys
  goesOn := h.goesOn

/-- Frames in transit may be put on the wires. -/
theorem Sound.transmit (h : Sound T o) {sends : List ((κ × Bool) × List UInt8)}
    (hsends : ∀ s ∈ sends, InForest T s.1 → Conveys T s.1 s.2) : Sound T (o.transmit sends) where
  named := h.named
  peers := h.peers
  goesOn := h.goesOn
  conveys e he := by
    refine (h.conveys e he).append (conveys_flatMap ?_)
    intro s hs
    obtain ⟨hmem, heq⟩ := List.mem_filter.mp hs
    obtain rfl := of_decide_eq_true heq
    exact hsends s hmem he

/-- A wire in the forest may be given what it conveys. -/
theorem Sound.setWire (h : Sound T o) {e : κ × Bool} {bytes : List UInt8}
    (hbytes : InForest T e → Conveys T e bytes) : Sound T (o.setWire e bytes) where
  named := h.named
  peers := h.peers
  goesOn := h.goesOn
  conveys e' he' := by
    show Conveys T e' (Function.update o.wires e bytes e')
    rw [Function.update_apply]
    split_ifs with heq
    · rw [heq] at he' ⊢
      exact hbytes he'
    · exact h.conveys e' he'

/-- A read loop outside the forest may end. -/
theorem Sound.endLoop (h : Sound T o) {e : κ × Bool} (he : ¬InForest T e) :
    Sound T (o.endLoop e) where
  named := h.named
  peers := h.peers
  conveys := h.conveys
  goesOn e' he' := by
    show Function.update o.ended e true e' = false
    rw [Function.update_apply, if_neg]
    · exact h.goesOn e' he'
    · rintro rfl
      exact he he'

omit [DecidableEq κ] in
/-- A node's own frame is in transit to every peer. -/
theorem inTransit_makeFrame (h : Sound T o) {v topic uuid key : String} {payload : Json}
    (hwf : payload.WellFormed) (hfits : FrameFits ((o.nodes v).makeFrame topic payload uuid))
    {e : κ × Bool} (he : (o.nodes v).peers[key]? = some e) :
    InTransit T e ((o.nodes v).makeFrame topic payload uuid) where
  wellFormed := wellFormed_makeFrame _ _ _ hwf
  fits := hfits
  origin := by
    refine ⟨v, ?_, ?_⟩
    · rw [strMember_makeFrame, h.named]
    · rw [h.node_across he]
      exact .refl

omit [DecidableEq κ] in
/-- A frame in transit is in transit again when it is forwarded. -/
theorem InTransit.onward (h : Sound T o) {e e' : κ × Bool} {key : String} {frame : Json}
    (hframe : InTransit T e frame) (hforest : InForest T e) (hkey : key ≠ (T.ends e).key)
    (he' : (o.nodes (T.node e)).peers[key]? = some e') : InTransit T e' frame where
  wellFormed := hframe.wellFormed
  fits := hframe.fits
  origin := by
    obtain ⟨origin, hmember, hjoined⟩ := hframe.origin
    have hends := h.peers (T.node e) key e' he'
    have hnode := h.node_across he'
    refine ⟨origin, hmember, Links.ForestAround.onward hforest hnode ?_ hjoined⟩
    intro heq
    have hsame : across e' = e := heq
    rw [hsame] at hends
    exact hkey (congrArg End.key hends).symm

omit [Crates] [DecidableEq κ] in
/-- The forest reaches across every connection of it. -/
theorem InForest.back {e e' : κ × Bool} (h : InForest T e') (hnode : T.node (across e') = T.node e) :
    InForest T e := by
  refine Links.ForestAround.of_joined h ?_
  rw [← hnode]
  exact (Links.joined_link (Set.notMem_empty e'.1)).symm

/-- A node may receive a frame that is in transit. -/
theorem Sound.receive (h : Sound T o) {e : κ × Bool} {frame : Json}
    (hframe : InForest T e → InTransit T e frame) : Sound T (o.receive T e frame).1 := by
  obtain ⟨hid, hpeers⟩ := onFrame_fields (o.nodes (T.node e)) frame (T.ends e).key
  have hsound : Sound T (o.perform (T.node e)
      ((o.nodes (T.node e)).onFrame frame (T.ends e).key).2) := by
    refine (h.setNode hid fun key e' he' => .inl (hpeers ▸ he')).transmit ?_
    intro s hs hforest
    obtain ⟨hbytes, key, hkey, hpeer⟩ := mem_onFrame_sends hs
    have hback := hforest.back (h.node_across hpeer)
    rw [hbytes]
    exact conveys_encodeWire ((hframe hback).onward h hback hkey hpeer)
  unfold Overlay.receive
  dsimp only
  cases hanswer : ((o.nodes (T.node e)).onFrame frame (T.ends e).key).1 with
  | true => rwa [if_pos rfl]
  | false =>
    rw [if_neg Bool.false_ne_true]
    refine hsound.endLoop fun hforest => ?_
    -- the origin would be the node itself, on the other side of its own connection
    obtain ⟨origin, hmember, hjoined⟩ := (hframe hforest).origin
    have hown := origin_of_onFrame hanswer
    rw [hmember, h.named, Option.some_inj] at hown
    rw [hown] at hjoined
    exact hforest e.1 e.2 .refl hjoined

/-- A turn of a read loop keeps the loops of the forest. -/
theorem Sound.readTurn [SerdeReadsBack] (h : Sound T o) (e : κ × Bool) :
    Sound T (o.readTurn T e).1 := by
  rcases o.readTurn_cases T e with heq | ⟨hread, heq⟩ | ⟨rest, hread, heq⟩ |
    ⟨frame, rest, hread, heq⟩ <;> rw [heq]
  · exact h
  · refine h.endLoop fun hforest => ?_
    rcases (h.conveys e hforest).readFrame with hwait | ⟨frame, rest, hframe, -, -⟩ <;> simp_all
  · refine h.setWire fun hforest => ?_
    rcases (h.conveys e hforest).readFrame with hwait | ⟨frame, rest, hframe, -, -⟩ <;> simp_all
  · have hcarried (hforest : InForest T e) : InTransit T e frame ∧ Conveys T e rest := by
      rcases (h.conveys e hforest).readFrame with hwait | ⟨frame', rest', hframe, htransit, hrest⟩
      · rw [hread] at hwait
        exact absurd hwait (by simp)
      · rw [hread] at hframe
        obtain ⟨rfl, rfl⟩ := Read.frame.inj hframe
        exact ⟨htransit, hrest⟩
    refine (h.setWire fun hforest => (hcarried hforest).2).receive fun hforest => ?_
    exact (hcarried hforest).1

/-- So does every action of gossip. -/
theorem Sound.step [SerdeReadsBack] (h : Sound T o) {a : Action κ} (ha : Gossips a) :
    Sound T (o.step T a).1 := by
  rcases o.step_cases T a with ⟨v, t, hlocal, heq⟩ | ⟨v, topic, payload, uuid, rfl, heq⟩ |
    ⟨e, bytes, rfl, -⟩ | ⟨e, rfl, heq⟩
  · rw [heq]
    exact h.setNode hlocal.nodeId hlocal.peers
  · rw [heq]
    refine (h.setNode rfl fun key e he => .inl he).transmit ?_
    intro s hs _
    obtain ⟨hbytes, key, hpeer⟩ := mem_broadcast hs
    have hsame : (o.nodes v).makeFrame topic payload uuid =
        (Inner.new v : Inner (κ × Bool)).makeFrame topic payload uuid := by
      rw [Inner.makeFrame, h.named]
      rfl
    rw [hbytes]
    exact conveys_encodeWire (inTransit_makeFrame h ha.1 (hsame ▸ ha.2) hpeer)
  · exact absurd ha id
  · rw [heq]
    exact h.readTurn e

/-! ## Whole runs -/

/-- So does a run of them. -/
theorem Sound.run [SerdeReadsBack] (h : Sound T o) {actions : List (Action κ)}
    (hactions : ∀ a ∈ actions, Gossips a) : Sound T (o.run T actions) := by
  induction actions generalizing o with
  | nil => exact h
  | cons a actions ih =>
    exact ih (h.step (hactions a List.mem_cons_self)) fun b hb =>
      hactions b (List.mem_cons_of_mem a hb)

/-- Where the connections form a forest, gossip ends no read loop: in every state that any
publishes and reads lead to, `on_frame` has not answered `false` on such a connection. -/
theorem read_loops_kept [SerdeReadsBack] (T : Topology κ) (actions : List (Action κ))
    (hactions : ∀ a ∈ actions, Gossips a) (e : κ × Bool) (hforest : InForest T e) :
    (Overlay.start.run T actions).ended e = false :=
  (sound_start.run hactions).goesOn e hforest

end Exodus.Analysis

/-! ## On the sample -/

namespace Exodus.Analysis

open Exodus.Library Exodus.Model Exodus.Interface Exodus.Sample

/-- The frame of a first publish. -/
def ownFrame : Json := (Inner.new "a" : Inner Unit).makeFrame "x" .null "1"

/-- The frame can be sent. -/
theorem ownFrame_fits : FrameFits ownFrame := ⟨by decide +kernel, by decide +kernel⟩

/-- One connection between two nodes. -/
def single : Topology Unit where
  ends e := ⟨if e.2 then "a" else "b", "k"⟩

/-- A single connection is a forest. -/
theorem single_inForest (e : Unit × Bool) : InForest single e := by
  intro c s _ hjoined
  rcases hjoined.cases_tail with heq | ⟨v, -, d, hd, -⟩
  · have hdistinct : ∀ s, single.node ((), s) ≠ single.node ((), !s) := by decide
    exact hdistinct s heq
  · exact hd rfl

def oneWay : List (Action Unit) :=
  [.register ((), true), .register ((), false), .publish "a" "x" .null "1", .read ((), false)]

/-- The run with a single connection is gossip. -/
theorem oneWay_gossips : ∀ a ∈ oneWay, Gossips a := by
  simp only [oneWay, List.forall_mem_cons, List.not_mem_nil, false_implies, implies_true, and_true]
  exact ⟨trivial, trivial, ⟨trivial, ownFrame_fits⟩, trivial⟩

/-- Its read loop goes on. -/
theorem read_loops_kept_single : (∀ a ∈ oneWay, Gossips a) ∧ InForest single ((), false) ∧
    (Overlay.start.run single oneWay).ended ((), false) = false :=
  ⟨oneWay_gossips, single_inForest _, read_loops_kept single oneWay oneWay_gossips _ (single_inForest _)⟩

/-- Two parallel connections between two nodes. -/
def parallel : Topology Bool where
  ends e := ⟨if e.2 then "a" else "b", if e.1 then "k2" else "k1"⟩

def connect : List (Action Bool) :=
  [.register (false, true), .register (true, true), .register (false, false),
    .register (true, false)]

/-- A frame goes out over both connections and comes back over the second. -/
def roundTrip : List (Action Bool) :=
  connect ++ [.publish "a" "x" .null "1", .read (false, false), .read (true, true)]

/-- So is the run with two parallel connections. -/
theorem roundTrip_gossips : ∀ a ∈ roundTrip, Gossips a := by
  simp only [roundTrip, connect, List.cons_append, List.nil_append, List.forall_mem_cons,
    List.not_mem_nil, false_implies, implies_true, and_true]
  exact ⟨trivial, trivial, trivial, trivial, ⟨trivial, ownFrame_fits⟩, trivial, trivial⟩

def sender : Inner (Bool × Bool) :=
  ((Inner.new "a").register "k1" (false, false)).register "k2" (true, false)

def forwarder : Inner (Bool × Bool) :=
  ((Inner.new "b").register "k1" (false, true)).register "k2" (true, true)

/-- The other node forwards the frame over the second connection. -/
theorem forwarder_onFrame : forwarder.onFrame ownFrame "k1" = (true,
    ⟨(forwarder.noteSeen "1").2, [], [((true, true), encodeWire ownFrame)]⟩) := rfl

/-- The sender refuses its own frame. -/
theorem sender_onFrame : sender.onFrame ownFrame "k2" = (false, ⟨sender, [], []⟩) := rfl

section RoundTrip

variable {o : Overlay Bool} {raw : List UInt8}

/-- The other node forwards the frame over the second connection. -/
theorem forward_back (hread : ∀ rest, readFrame (raw ++ rest) = .frame ownFrame rest)
    (hforward : (forwarder.onFrame ownFrame "k1").2.sends = [((true, true), raw)])
    (hsender : o.nodes "a" = sender) (hforwarder : o.nodes "b" = forwarder)
    (hended : o.ended = fun _ => false) (hout : o.wires (false, false) = raw ++ [])
    (hback : o.wires (true, true) = []) :
    ∃ o', (o.step parallel (.read (false, false))).1 = o' ∧ o'.nodes "a" = sender ∧
      o'.ended (true, true) = false ∧ o'.wires (true, true) = raw ++ [] := by
  refine ⟨_, rfl, ?_⟩
  rw [o.step_read parallel (by rw [hended]) hout (hread [])]
  have hkey : (parallel.ends (false, false)).key = "k1" := rfl
  have hnode : (o.setWire (false, false) []).nodes (parallel.node (false, false)) = forwarder :=
    hforwarder
  refine ⟨?_, ?_, ?_⟩
  · rw [Overlay.receive_nodes, if_neg (by decide)]
    exact hsender
  · rw [Overlay.receive_ended, hnode, hkey, forwarder_onFrame, if_pos rfl]
    exact congrFun hended (true, true)
  · have hkept : (o.setWire (false, false) []).wires (true, true) = [] := hback
    rw [Overlay.receive_wires, hkept, hnode, hkey, hforward]
    rfl

/-- The node ends the read loop over which its own frame comes. -/
theorem ended_by_own (hread : ∀ rest, readFrame (raw ++ rest) = .frame ownFrame rest)
    (hsender : o.nodes "a" = sender) (hended : o.ended (true, true) = false)
    (hback : o.wires (true, true) = raw ++ []) :
    (o.step parallel (.read (true, true))).1.ended (true, true) = true := by
  have hkey : (parallel.ends (true, true)).key = "k2" := rfl
  have hnode : (o.setWire (true, true) []).nodes (parallel.node (true, true)) = sender := hsender
  rw [o.step_read parallel hended hback (hread []), Overlay.receive_ended, hnode, hkey,
    sender_onFrame, if_neg Bool.false_ne_true, Function.update_self]

end RoundTrip

/-- So the read loop of the second connection ends, though another node is at its other end. -/
theorem own_frame_comes_back : (∀ a ∈ roundTrip, Gossips a) ∧
    parallel.node (true, true) ≠ parallel.node (true, false) ∧
    (Overlay.start.run parallel roundTrip).ended (true, true) = true := by
  refine ⟨roundTrip_gossips, by decide, ?_⟩
  have hwf : ownFrame.WellFormed := wellFormed_makeFrame _ _ _ trivial
  have hread := readFrame_encodeWire hwf ownFrame_fits
  have hforward := congrArg (fun answer => answer.2.sends) forwarder_onFrame
  have hready : (Overlay.start.run parallel connect).nodes "a" = sender := rfl
  have hready' : (Overlay.start.run parallel connect).nodes "b" = forwarder := rfl
  have hwires : (Overlay.start.run parallel connect).wires = fun _ => [] := rfl
  have hended : (Overlay.start.run parallel connect).ended = fun _ => false := rfl
  rw [roundTrip, Overlay.run_append]
  generalize Overlay.start.run parallel connect = ready at hready hready' hwires hended ⊢
  have hpublish : ready.step parallel (.publish "a" "x" .null "1") =
      (ready.perform "a" ⟨sender, [], [((false, false), encodeWire ownFrame),
        ((true, false), encodeWire ownFrame)]⟩, none) := by
    rw [Overlay.step, hready]
    rfl
  rw [Overlay.run_cons, hpublish, Overlay.run_cons]
  generalize encodeWire ownFrame = raw at hread hforward ⊢
  have hsent (e : Bool × Bool) : (ready.perform "a" ⟨sender, [], [((false, false), raw),
      ((true, false), raw)]⟩).wires e = ([((false, false), raw), ((true, false), raw)].filter
        fun s => s.1 = e).flatMap Prod.snd := by
    show ready.wires e ++ _ = _
    rw [hwires, List.nil_append]
  obtain ⟨o', hstep, hsender, hended', hback⟩ := forward_back hread hforward
    ((Overlay.perform_nodes ..).trans (if_pos rfl))
    ((Overlay.perform_nodes ..).trans ((if_neg (by decide)).trans hready')) hended
    (hsent (false, false)) (hsent (true, true))
  rw [hstep]
  exact ended_by_own hread hsender hended' hback

end Exodus.Analysis
