import Exodus.Library.Framing
import Exodus.Model.Crypto
import Exodus.Model.Validation

/-!
# The TCP transport

`network/tcp.rs`: frames of JSON with a length before them, the handlers of a node, the
queues of its connections, and the window of message ids that have been seen.

The sending half of a connection's queue is a parameter `Tx`; what a call hands to handlers
and puts into queues is in its `Outcome`.  A handler is known by the id of its subscription.
`register` and `unregister` are what dialling and accepting do to the peers.
-/

set_option autoImplicit false

namespace Exodus.Model

open Exodus.Library

def maxFrame : ℕ := 64 * 1024 * 1024

def loopWindow : ℕ := 4096

structure TransportError where
  message : String
deriving DecidableEq

/-- A handler is called with a topic and a payload. -/
structure Call where
  handler : ℕ
  topic : String
  payload : Json

structure Inner (Tx : Type) where
  nodeId : String
  handlers : HashMap (List ℕ)
  nextId : ℕ
  peers : HashMap Tx
  seen : HashMap Unit × List String
  stopping : Bool

/-- What a call leaves behind: the state, the calls of handlers, and what goes into the queues. -/
structure Outcome (Tx : Type) where
  inner : Inner Tx
  calls : List Call
  sends : List (Tx × List UInt8)

/-- The string member of a frame: `frame.get(key).and_then(|v| v.as_str())`. -/
def strMember (frame : Json) (key : String) : Option String := (frame.get key).bind Json.asStr

/-! ## Frames on the wire -/

section Wire

variable [Crates]

def encodeWire (frame : Json) : List UInt8 :=
  let body := asBytes (Crates.jsonToString frame)
  bytesBE 4 body.length ++ body

/-- `serde_json::from_slice` -/
def fromSlice (body : List UInt8) : Option Json :=
  (String.fromUTF8? ⟨body.toArray⟩).bind Crates.jsonFromStr

/-- One turn of `read_loop` up to the call of `on_frame`. -/
inductive Read where
  /-- not all bytes of a frame are there -/
  | wait
  /-- the length is refused, the loop ends -/
  | stop
  /-- the body is not JSON, the loop goes on with the rest -/
  | skip (rest : List UInt8)
  | frame (frame : Json) (rest : List UInt8)

def readFrame (bytes : List UInt8) : Read :=
  if bytes.length < 4 then .wait
  else
    let len := natBE (bytes.take 4)
    if len = 0 ∨ maxFrame < len then .stop
    else if (bytes.drop 4).length < len then .wait
    else
      let rest := (bytes.drop 4).drop len
      match fromSlice ((bytes.drop 4).take len) with
      | none => .skip rest
      | some frame => .frame frame rest

/-- A turn cuts a frame off the stream and parses its body. -/
theorem readFrame_eq (bytes : List UInt8) :
    readFrame bytes =
      match cutFrame 4 maxFrame bytes with
      | .short => .wait
      | .refused => .stop
      | .whole body rest =>
        match fromSlice body with
        | none => .skip rest
        | some frame => .frame frame rest := by
  unfold readFrame cutFrame
  dsimp only
  split_ifs <;> rfl

/-- The frame that a turn took leaves a shorter stream. -/
theorem length_of_readFrame {bytes rest : List UInt8}
    (h : readFrame bytes = .skip rest ∨ ∃ frame, readFrame bytes = .frame frame rest) :
    rest.length < bytes.length := by
  rw [readFrame_eq] at h
  cases hcut : cutFrame 4 maxFrame bytes with
  | short => simp [hcut] at h
  | refused => simp [hcut] at h
  | whole body rest' =>
    have hlength := length_of_cutFrame hcut
    obtain rfl : rest' = rest := by
      cases hbody : fromSlice body <;> simpa [hcut, hbody] using h
    omega

end Wire

/-- Why a `read_loop` ended. -/
inductive Ending where
  /-- the stream ended within a frame, or after one -/
  | truncated
  /-- the length was 0 or above `MAX_FRAME` -/
  | badLength
  /-- `on_frame` answered `false` -/
  | refused
deriving DecidableEq

/-- What a `read_loop` leaves behind, with a record of its turns: the bodies it read and what
it left of the stream. -/
structure Reading (Tx : Type) where
  outcome : Outcome Tx
  bodies : List (List UInt8)
  rest : List UInt8
  ending : Ending

/-- A turn, and then the others. -/
def Reading.after {Tx : Type} (later : Reading Tx) (first : Outcome Tx) (body : List UInt8) :
    Reading Tx :=
  { later with
    outcome :=
      ⟨later.outcome.inner, first.calls ++ later.outcome.calls, first.sends ++ later.outcome.sends⟩
    bodies := body :: later.bodies }

namespace Inner

variable {Tx : Type} (t : Inner Tx)

/-- The state that `TcpTransport::new` sets up. -/
def new (nodeId : String) : Inner Tx where
  nodeId
  handlers := ∅
  nextId := 0
  peers := ∅
  seen := (∅, [])
  stopping := false

/-- The random message id is an argument. -/
def makeFrame (topic : String) (payload : Json) (uuid : String) : Json :=
  .obj [("f", .str t.nodeId), ("i", .str uuid), ("p", payload), ("t", .str topic)]

def noteSeen (msgId : String) : Bool × Inner Tx :=
  let map := t.seen.1
  let order := t.seen.2
  if map.contains msgId then (true, t)
  else
    let map := map.insert msgId ()
    let order := order ++ [msgId]
    if loopWindow < order.length then
      (false, { t with seen := (order.head?.elim map map.erase, order.tail) })
    else (false, { t with seen := (map, order) })

def deliver (topic : String) (payload : Json) : List Call :=
  (t.handlers.getD topic []).map fun id => ⟨id, topic, payload⟩

def broadcast (raw : List UInt8) : List (Tx × List UInt8) :=
  t.peers.toList.map fun peer => (peer.2, raw)

variable [Crates]

/-- `on_frame` after the message id has been noted. -/
def handOn (frame : Json) (senderKey : String) : Outcome Tx :=
  match strMember frame "t" with
  | none => ⟨t, [], []⟩
  | some topic =>
    let payload := (frame.get "p").getD .null
    let senders := t.peers.toList.filter fun peer => peer.1 ≠ senderKey
    ⟨t, t.deliver topic payload, senders.map fun peer => (peer.2, encodeWire frame)⟩

/-- The answer is `false` for a frame of the node itself. -/
def onFrame (frame : Json) (senderKey : String) : Bool × Outcome Tx :=
  if strMember frame "f" = some t.nodeId then (false, ⟨t, [], []⟩)
  else
    match strMember frame "i" with
    | none => (true, t.handOn frame senderKey)
    | some id =>
      let noted := t.noteSeen id
      if noted.1 then (true, ⟨noted.2, [], []⟩) else (true, noted.2.handOn frame senderKey)

/-- `read_loop` on a stream that ends after the given bytes. -/
def readLoop (t : Inner Tx) (key : String) (bytes : List UInt8) : Reading Tx :=
  let body := (bytes.drop 4).take (natBE (bytes.take 4))
  match hread : readFrame bytes with
  | .wait => ⟨⟨t, [], []⟩, [], bytes, .truncated⟩
  | .stop => ⟨⟨t, [], []⟩, [], bytes, .badLength⟩
  | .skip rest => (t.readLoop key rest).after ⟨t, [], []⟩ body
  | .frame frame rest =>
    let answer := t.onFrame frame key
    if answer.1 then (answer.2.inner.readLoop key rest).after answer.2 body
    else ⟨answer.2, [body], rest, .refused⟩
termination_by bytes.length
decreasing_by
  · exact length_of_readFrame (.inl hread)
  · exact length_of_readFrame (.inr ⟨frame, hread⟩)

def publish (topic : String) (payload : Json) (uuid : String) :
    Except TransportError (Outcome Tx) :=
  if t.stopping then .error ⟨"transport is not running"⟩
  else
    let frame := t.makeFrame topic payload uuid
    .ok ⟨t, t.deliver topic payload, t.broadcast (encodeWire frame)⟩

omit [Crates]

/-- The assertion on the topic is `none`. -/
def subscribe (topic : String) : Option (ℕ × Inner Tx) :=
  if topic.isEmpty then none
  else
    let list := t.handlers.getD topic [] ++ [t.nextId]
    some (t.nextId, { t with nextId := t.nextId + 1, handlers := t.handlers.insert topic list })

def cancel (topic : String) (id : ℕ) : Inner Tx :=
  match t.handlers[topic]? with
  | none => t
  | some list => { t with handlers := t.handlers.insert topic (list.filter (· ≠ id)) }

/-- The start of `register_connection`. -/
def register (key : String) (tx : Tx) : Inner Tx := { t with peers := t.peers.insert key tx }

/-- The end of `register_connection`. -/
def unregister (key : String) : Inner Tx := { t with peers := t.peers.erase key }

def close : Inner Tx := { t with stopping := true, peers := ∅ }

end Inner

end Exodus.Model
