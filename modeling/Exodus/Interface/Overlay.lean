import Exodus.Interface.TransportSpec
import Exodus.Library.Links

/-!
# Nodes joined by connections

Any family of connections between nodes that run the transport.  A connection has two ends,
each at a node and under the key that the node has for it; bytes wait on their way to an
end until it reads them.  Nodes are known by their ids, which are pairwise distinct, and
`Action` has what can happen: calls of the transport, the turns of the read loops, and bytes
that a peer of another kind puts on a connection.

A read that comes to `on_frame` leaves a `Receipt`.
-/

set_option autoImplicit false

namespace Exodus.Interface

open Exodus.Library Exodus.Model

/-- An end of a connection: the node, and the key of the connection in its peers. -/
structure End where
  node : String
  key : String

/-- The ends of the connections. -/
structure Topology (κ : Type) where
  ends : κ × Bool → End

/-- The other end of the same connection. -/
def across {κ : Type} (e : κ × Bool) : κ × Bool := (e.1, !e.2)

/-- The other end of the other end is the end itself. -/
@[simp] theorem across_across {κ : Type} (e : κ × Bool) : across (across e) = e := by
  simp [across]

namespace Topology

variable {κ : Type} (T : Topology κ)

def node (e : κ × Bool) : String := (T.ends e).node

def links : Links String κ := ⟨fun c s => T.node (c, s)⟩

end Topology

/-- The transports, the bytes on their way to each end, and the ends whose read loop has
ended.  The sender of a queue is the end that its bytes go to. -/
structure Overlay (κ : Type) where
  nodes : String → Inner (κ × Bool)
  wires : κ × Bool → List UInt8
  ended : κ × Bool → Bool

inductive Action (κ : Type) where
  | subscribe (v topic : String)
  | cancel (v topic : String) (id : ℕ)
  | close (v : String)
  | register (e : κ × Bool)
  | unregister (e : κ × Bool)
  | publish (v topic : String) (payload : Json) (uuid : String)
  /-- a peer of another kind puts bytes on the way to an end -/
  | inject (e : κ × Bool) (bytes : List UInt8)
  /-- one turn of the read loop of an end -/
  | read (e : κ × Bool)

/-- A node's `on_frame` has run: the calls of handlers, and what it forwards. -/
structure Receipt (κ : Type) where
  node : String
  frame : Json
  calls : List Call
  sends : List ((κ × Bool) × List UInt8)

namespace Overlay

variable {κ : Type} [DecidableEq κ]

/-- All transports are new, and nothing is connected. -/
def start : Overlay κ where
  nodes v := Inner.new v
  wires _ := []
  ended _ := false

variable (o : Overlay κ)

def setNode (v : String) (t : Inner (κ × Bool)) : Overlay κ :=
  { o with nodes := Function.update o.nodes v t }

def setWire (e : κ × Bool) (bytes : List UInt8) : Overlay κ :=
  { o with wires := Function.update o.wires e bytes }

/-- The queues are written to their connections. -/
def transmit (sends : List ((κ × Bool) × List UInt8)) : Overlay κ :=
  { o with wires := fun e => o.wires e ++ (sends.filter fun s => s.1 = e).flatMap Prod.snd }

def perform (v : String) (out : Outcome (κ × Bool)) : Overlay κ :=
  (o.setNode v out.inner).transmit out.sends

def endLoop (e : κ × Bool) : Overlay κ := { o with ended := Function.update o.ended e true }

variable [Crates] (T : Topology κ)

/-- A frame has been read at an end. -/
def receive (e : κ × Bool) (frame : Json) : Overlay κ × Option (Receipt κ) :=
  let v := T.node e
  let answer := (o.nodes v).onFrame frame (T.ends e).key
  let next := o.perform v answer.2
  (if answer.1 then next else next.endLoop e,
    some ⟨v, frame, answer.2.calls, answer.2.sends⟩)

/-- One turn of `read_loop`, as long as the loop goes on. -/
def readTurn (e : κ × Bool) : Overlay κ × Option (Receipt κ) :=
  if o.ended e then (o, none)
  else
    match readFrame (o.wires e) with
    | .wait => (o, none)
    | .stop => (o.endLoop e, none)
    | .skip rest => (o.setWire e rest, none)
    | .frame frame rest => (o.setWire e rest).receive T e frame

def step : Action κ → Overlay κ × Option (Receipt κ)
  | .subscribe v topic =>
    (((o.nodes v).subscribe topic).elim o fun r => o.setNode v r.2, none)
  | .cancel v topic id => (o.setNode v ((o.nodes v).cancel topic id), none)
  | .close v => (o.setNode v (o.nodes v).close, none)
  | .register e =>
    (o.setNode (T.node e) ((o.nodes (T.node e)).register (T.ends e).key (across e)), none)
  | .unregister e => (o.setNode (T.node e) ((o.nodes (T.node e)).unregister (T.ends e).key), none)
  | .publish v topic payload uuid =>
    match (o.nodes v).publish topic payload uuid with
    | .error _ => (o, none)
    | .ok out => (o.perform v out, none)
  | .inject e bytes => (o.setWire e (o.wires e ++ bytes), none)
  | .read e => o.readTurn T e

/-- The state after some actions. -/
def run : Overlay κ → List (Action κ) → Overlay κ
  | o, [] => o
  | o, a :: actions => run (o.step T a).1 actions

/-- A run starts with its first action. -/
theorem run_cons (a : Action κ) (actions : List (Action κ)) :
    o.run T (a :: actions) = (o.step T a).1.run T actions := rfl

/-- Two runs in a row. -/
theorem run_append (actions actions' : List (Action κ)) :
    o.run T (actions ++ actions') = (o.run T actions).run T actions' := by
  induction actions generalizing o with
  | nil => rfl
  | cons a actions ih => exact ih (o.step T a).1

/-- The receipts of a node during some actions. -/
def receipts (v : String) : Overlay κ → List (Action κ) → List (Receipt κ)
  | _, [] => []
  | o, a :: actions =>
    (o.step T a).2.toList.filter (fun r => r.node = v) ++ receipts v (o.step T a).1 actions

/-! ## What an action can do -/

omit [DecidableEq κ] [Crates] in
/-- A node that is set, and the others. -/
theorem setNode_nodes (v w : String) (t : Inner (κ × Bool)) :
    (o.setNode v t).nodes w = if w = v then t else o.nodes w :=
  Function.update_apply o.nodes v t w

omit [DecidableEq κ] [Crates] in
/-- Setting a node to what it is changes nothing. -/
@[simp] theorem setNode_self (v : String) : o.setNode v (o.nodes v) = o := by
  rw [setNode, Function.update_eq_self]

omit [Crates] in
/-- A wire that is set. -/
@[simp] theorem setWire_wires (e : κ × Bool) (bytes : List UInt8) :
    (o.setWire e bytes).wires e = bytes := by
  simp [setWire]

/-- A node's own change: it keeps its id and the message ids, and a new peer is one of its
connections. -/
structure Local (v : String) (t t' : Inner (κ × Bool)) : Prop where
  nodeId : t'.nodeId = t.nodeId
  seen : t'.seen = t.seen
  peers : ∀ key e, t'.peers[key]? = some e →
    t.peers[key]? = some e ∨ T.ends (across e) = ⟨v, key⟩

variable {T}

omit [DecidableEq κ] [Crates] in
/-- A change that leaves the id, the seen ids and the links is one of the node alone. -/
theorem Local.of_peers {v : String} {t t' : Inner (κ × Bool)} (hid : t'.nodeId = t.nodeId)
    (hseen : t'.seen = t.seen) (hpeers : t'.peers = t.peers) : Local T v t t' where
  nodeId := hid
  seen := hseen
  peers _ _ he := .inl (hpeers ▸ he)

omit [DecidableEq κ] [Crates] in
/-- Subscribing is such a change. -/
theorem local_subscribe {v topic : String} {t : Inner (κ × Bool)} {r : ℕ × Inner (κ × Bool)}
    (h : t.subscribe topic = some r) : Local T v t r.2 := by
  unfold Inner.subscribe at h
  split_ifs at h
  rw [← Option.some_inj.mp h]
  exact .of_peers rfl rfl rfl

omit [DecidableEq κ] [Crates] in
/-- So is cancelling a subscription. -/
theorem local_cancel {v : String} (t : Inner (κ × Bool)) (topic : String) (id : ℕ) :
    Local T v t (t.cancel topic id) := by
  unfold Inner.cancel
  cases t.handlers[topic]? <;> exact .of_peers rfl rfl rfl

omit [DecidableEq κ] [Crates] in
/-- So is closing the transport. -/
theorem local_close {v : String} (t : Inner (κ × Bool)) : Local T v t t.close where
  nodeId := rfl
  seen := rfl
  peers key e he := by simp [Inner.close] at he

omit [DecidableEq κ] [Crates] in
/-- So is registering a connection of the topology. -/
theorem local_register (e : κ × Bool) (t : Inner (κ × Bool)) :
    Local T (T.node e) t (t.register (T.ends e).key (across e)) where
  nodeId := rfl
  seen := rfl
  peers key e' he := by
    rw [Inner.register, Std.ExtTreeMap.getElem?_insert] at he
    split_ifs at he with hkey
    · rw [← Option.some_inj.mp he, across_across, ← Std.compare_eq_iff_eq.mp hkey]
      exact .inr rfl
    · exact .inl he

omit [DecidableEq κ] [Crates] in
/-- So is dropping one. -/
theorem local_unregister {v : String} (t : Inner (κ × Bool)) (key : String) :
    Local T v t (t.unregister key) where
  nodeId := rfl
  seen := rfl
  peers key e he := by
    rw [Inner.unregister, Std.ExtTreeMap.getElem?_erase] at he
    split_ifs at he
    exact .inl he

variable (T)

/-- An action changes one node, publishes, puts bytes on a connection, or is a turn of a read
loop. -/
theorem step_cases (a : Action κ) :
    (∃ v t, Local T v (o.nodes v) t ∧ o.step T a = (o.setNode v t, none)) ∨
    (∃ v topic payload uuid, a = .publish v topic payload uuid ∧
      o.step T a = (o.perform v ⟨o.nodes v, (o.nodes v).deliver topic payload,
        (o.nodes v).broadcast (encodeWire ((o.nodes v).makeFrame topic payload uuid))⟩, none)) ∨
    (∃ e bytes, a = .inject e bytes ∧ o.step T a = (o.setWire e (o.wires e ++ bytes), none)) ∨
    (∃ e, a = .read e ∧ o.step T a = o.readTurn T e) := by
  cases a with
  | subscribe v topic =>
    left
    cases hsub : (o.nodes v).subscribe topic with
    | none => exact ⟨v, o.nodes v, .of_peers rfl rfl rfl, by simp [step, hsub]⟩
    | some r => exact ⟨v, r.2, local_subscribe hsub, by simp [step, hsub]⟩
  | cancel v topic id => exact .inl ⟨v, _, local_cancel _ _ _, rfl⟩
  | close v => exact .inl ⟨v, _, local_close _, rfl⟩
  | register e => exact .inl ⟨T.node e, _, local_register _ _, rfl⟩
  | unregister e => exact .inl ⟨T.node e, _, local_unregister _ _, rfl⟩
  | publish v topic payload uuid =>
    cases hstopping : (o.nodes v).stopping with
    | true =>
      exact .inl ⟨v, o.nodes v, .of_peers rfl rfl rfl, by simp [step, Inner.publish, hstopping]⟩
    | false =>
      exact .inr (.inl ⟨v, topic, payload, uuid, rfl, by simp [step, Inner.publish, hstopping]⟩)
  | inject e bytes => exact .inr (.inr (.inl ⟨e, bytes, rfl, rfl⟩))
  | read e => exact .inr (.inr (.inr ⟨e, rfl, rfl⟩))

/-- A turn of a read loop waits, ends the loop, skips a body or receives a frame. -/
theorem readTurn_cases (e : κ × Bool) :
    o.readTurn T e = (o, none) ∨
    (readFrame (o.wires e) = .stop ∧ o.readTurn T e = (o.endLoop e, none)) ∨
    (∃ rest, readFrame (o.wires e) = .skip rest ∧ o.readTurn T e = (o.setWire e rest, none)) ∨
    (∃ frame rest, readFrame (o.wires e) = .frame frame rest ∧
      o.readTurn T e = (o.setWire e rest).receive T e frame) := by
  unfold readTurn
  by_cases hended : o.ended e = true
  · exact .inl (if_pos hended)
  · rw [if_neg hended]
    cases hread : readFrame (o.wires e) with
    | wait => exact .inl rfl
    | stop => exact .inr (.inl ⟨rfl, rfl⟩)
    | skip rest => exact .inr (.inr (.inl ⟨rest, rfl, rfl⟩))
    | frame frame rest => exact .inr (.inr (.inr ⟨frame, rest, rfl, rfl⟩))

/-- A turn of a read loop that finds a frame. -/
theorem step_read {e : κ × Bool} {raw rest : List UInt8} {frame : Json} (hended : o.ended e = false)
    (hwire : o.wires e = raw ++ rest) (hread : readFrame (raw ++ rest) = .frame frame rest) :
    o.step T (.read e) = (o.setWire e rest).receive T e frame := by
  rw [← hwire] at hread
  simp only [step, readTurn, hended, Bool.false_eq_true, if_false, hread]

omit [Crates] in
/-- Only the node that acts changes. -/
theorem perform_nodes (v w : String) (out : Outcome (κ × Bool)) :
    (o.perform v out).nodes w = if w = v then out.inner else o.nodes w :=
  o.setNode_nodes v w out.inner

/-- A frame changes the node that receives it. -/
theorem receive_nodes (e : κ × Bool) (frame : Json) (w : String) :
    (o.receive T e frame).1.nodes w = if w = T.node e then
      ((o.nodes w).onFrame frame (T.ends e).key).2.inner else o.nodes w := by
  have hnodes : (o.receive T e frame).1.nodes =
      (o.perform (T.node e) ((o.nodes (T.node e)).onFrame frame (T.ends e).key).2).nodes := by
    unfold receive
    dsimp only
    split_ifs <;> rfl
  rw [hnodes, perform_nodes]
  split_ifs with hw
  · rw [hw]
  · rfl

/-- What the node forwards is put on the wires. -/
theorem receive_wires (e e' : κ × Bool) (frame : Json) :
    (o.receive T e frame).1.wires e' = o.wires e' ++
      (((o.nodes (T.node e)).onFrame frame (T.ends e).key).2.sends.filter
        fun s => s.1 = e').flatMap Prod.snd := by
  unfold receive
  dsimp only
  split_ifs <;> rfl

/-- The loop ends if the node refuses the frame. -/
theorem receive_ended (e : κ × Bool) (frame : Json) :
    (o.receive T e frame).1.ended =
      if ((o.nodes (T.node e)).onFrame frame (T.ends e).key).1 then o.ended
      else Function.update o.ended e true := by
  unfold receive
  dsimp only
  split_ifs <;> rfl

/-- At each node an action is a call of `on_frame`, with its receipt, or it leaves the message
ids as they are. -/
theorem step_at (a : Action κ) (v : String) :
    (∃ frame key, (o.step T a).2 = some ⟨v, frame, ((o.nodes v).onFrame frame key).2.calls,
        ((o.nodes v).onFrame frame key).2.sends⟩ ∧
      (o.step T a).1.nodes v = ((o.nodes v).onFrame frame key).2.inner) ∨
    ((o.step T a).2.toList.filter (fun r => r.node = v) = [] ∧
      ((o.step T a).1.nodes v).seen = (o.nodes v).seen) := by
  rcases o.step_cases T a with ⟨w, t, hlocal, heq⟩ | ⟨w, topic, payload, uuid, -, heq⟩ |
    ⟨e, bytes, -, heq⟩ | ⟨e, -, heq⟩
  · refine .inr ⟨by rw [heq]; rfl, ?_⟩
    rw [heq]
    show ((o.setNode w t).nodes v).seen = _
    rw [setNode_nodes]
    split_ifs with hv
    · rw [hlocal.seen, hv]
    · rfl
  · refine .inr ⟨by rw [heq]; rfl, ?_⟩
    rw [heq]
    show ((o.perform w _).nodes v).seen = _
    rw [perform_nodes]
    split_ifs with hv
    · rw [hv]
    · rfl
  · exact .inr ⟨by rw [heq]; rfl, by rw [heq]; rfl⟩
  · rw [heq]
    rcases o.readTurn_cases T e with hturn | ⟨-, hturn⟩ | ⟨rest, -, hturn⟩ |
      ⟨frame, rest, -, hturn⟩ <;> rw [hturn]
    · exact .inr ⟨rfl, rfl⟩
    · exact .inr ⟨rfl, rfl⟩
    · exact .inr ⟨rfl, rfl⟩
    · rw [receive_nodes]
      by_cases hv : v = T.node e
      · refine .inl ⟨frame, (T.ends e).key, ?_, if_pos hv⟩
        rw [hv]
        rfl
      · refine .inr ⟨?_, by rw [if_neg hv]; rfl⟩
        simp [receive, Ne.symm hv]

end Overlay

end Exodus.Interface
