import Exodus.Library.Machine
import Exodus.Model.Http
import Exodus.Model.Transport

/-!
# `network/tcp.rs`: dialling, accepting and discovery

The tasks of a transport: the reconnecting loops of `connect_loop`, one for each configured
peer, for each address given to `connect_peer` and for each announced address, and the
connections of `register_connection`.  A connection is known by its number, which also
stands for the sending half of its queue in `peers`; a sending half that is no longer in
`peers` is gone, and the writer that waits at the other end of the queue ends.

Which task goes on next, what a dial or a write comes to and when a stream ends is up to the
surroundings.  The end of the runtime, after `close`, only ends tasks.
-/

set_option autoImplicit false

namespace Exodus.Model

open Exodus.Library

/-! ## Addresses -/

def defaultPort : ℕ := 52514

/-- `rsplit_once` -/
def rsplitOnce (sep : Char) (s : List Char) : Option (List Char × List Char) :=
  match s.reverse.dropWhile (· ≠ sep) with
  | [] => none
  | _ :: front => some (front.reverse, (s.reverse.takeWhile (· ≠ sep)).reverse)

/-- `format!("\x7bhost\x7d:\x7bport\x7d")` -/
def hostPort (host : String) (port : ℕ) : String := host ++ ":" ++ toString port

/-- The host and the port that `connect_loop` dials for an address. -/
def dialTarget (address : String) : String × ℕ :=
  match rsplitOnce ':' address.toList with
  | some (host, port) => (String.ofList host, (fromStrRadix 10 (2 ^ 16) port).getD defaultPort)
  | none => (address, defaultPort)

/-! ## Tasks -/

/-- The writer of a connection: it ends when a write fails, or when its queue has no sending
half any more. -/
inductive Writer where
  | running
  | failed
  | drained
deriving DecidableEq

/-- A task of `register_connection`. -/
structure Connection where
  key : String
  reading : Bool
  writer : Writer
  finished : Bool

inductive Origin where
  | bootstrap
  | manual
  | discovered
deriving DecidableEq

/-- Where a `connect_loop` is. -/
inductive DialStage where
  /-- before the test of `stopping` -/
  | check
  | dialling
  | connected (c : ℕ)
  /-- the sleep after a failed dial -/
  | backingOff
  /-- the sleep at the end of a turn -/
  | pausing
  | over
deriving DecidableEq

/-- A task of `connect_loop`; the backoff is in seconds. -/
structure Dial where
  origin : Origin
  address : String
  backoff : ℕ
  stage : DialStage

def Dial.new (origin : Origin) (address : String) : Dial := ⟨origin, address, 2, .check⟩

/-- The key under which a dialled connection is registered. -/
def Dial.key (d : Dial) : String := hostPort (dialTarget d.address).1 (dialTarget d.address).2

structure TcpTransport where
  inner : Inner ℕ
  host : String
  port : ℕ
  bootstrap : List String
  /-- threads of `start` that have no runtime yet -/
  launching : ℕ
  /-- the runtime is there -/
  running : Bool
  activeConnects : HashMap Unit
  manualPeers : HashMap Unit
  connections : List Connection
  dials : List Dial

namespace TcpTransport

variable (t : TcpTransport)

def new (nodeId host : String) (port : ℕ) (peers : List String) : TcpTransport where
  inner := Inner.new nodeId
  host
  port
  bootstrap := peers
  launching := 0
  running := false
  activeConnects := ∅
  manualPeers := ∅
  connections := []
  dials := []

def start : TcpTransport := if t.running then t else { t with launching := t.launching + 1 }

/-- The thread of `start` has its runtime, and the configured peers are dialled. -/
def launch : TcpTransport :=
  if t.launching = 0 then t
  else
    { t with
      launching := t.launching - 1
      running := true
      dials := t.dials ++ t.bootstrap.map (Dial.new .bootstrap) }

def close : TcpTransport := { t with inner := t.inner.close }

/-- The thread of `start` ends. -/
def halt : TcpTransport := { t with running := false }

def spawnDial (origin : Origin) (address : String) : TcpTransport :=
  { t with dials := t.dials ++ [Dial.new origin address] }

/-- The start of `register_connection`: the new connection takes the place of its key. -/
def openConnection (key : String) : TcpTransport :=
  { t with
    inner := t.inner.register key t.connections.length
    connections := t.connections ++ [⟨key, true, .running, false⟩] }

/-! ## Peers -/

def connectPeer (addr : String) : TcpTransport × Except TransportError String :=
  let selfAddrs := [hostPort t.host t.port, hostPort "127.0.0.1" t.port, hostPort "localhost" t.port]
  if selfAddrs.contains addr then (t, .error ⟨addr ++ " is this node's own address"⟩)
  else if t.inner.peers.contains addr then (t, .ok ("already connected to " ++ addr))
  else if t.manualPeers.contains addr then
    (t, .ok ("connection to " ++ addr ++ " already in progress"))
  else if t.running then
    ({ t with manualPeers := t.manualPeers.insert addr () }.spawnDial .manual addr,
      .ok ("connecting to " ++ addr))
  else (t, .error ⟨"transport is not running"⟩)

/-- The address that another node announces from `src`. -/
def announcedAddress (v : Json) (src : String) : Option String :=
  match (v.get "node").bind Json.asStr with
  | none => none
  | some nid =>
    if nid = t.inner.nodeId then none
    else
      let host := (((v.get "host").bind Json.asStr).filter fun h =>
        !h.isEmpty && decide (h ≠ "0.0.0.0") && decide (h ≠ "::")).getD src
      let port := (((v.get "port").bind Json.asUsize).map UInt64.toNat).getD defaultPort
      some (hostPort host port)

/-- A datagram in `discovery_loop` that is JSON. -/
def onAnnouncement (v : Json) (src : String) : TcpTransport :=
  match t.announcedAddress v src with
  | none => t
  | some addr =>
    if t.inner.peers.contains addr then t
    else if t.activeConnects.contains addr then t
    else
      let t := { t with activeConnects := t.activeConnects.insert addr () }
      if t.running then t.spawnDial .discovered addr else t

/-! ## Turns of `connect_loop` -/

/-- The top of the loop.  The task of a discovered address gives the address free. -/
def checkDial (i : ℕ) : TcpTransport :=
  match t.dials[i]? with
  | some ⟨origin, address, backoff, .check⟩ =>
    if t.inner.stopping then
      { t with
        dials := t.dials.set i ⟨origin, address, backoff, .over⟩
        activeConnects :=
          if origin = .discovered then t.activeConnects.erase address else t.activeConnects }
    else { t with dials := t.dials.set i ⟨origin, address, backoff, .dialling⟩ }
  | _ => t

/-- The outcome of `TcpStream::connect`. -/
def dialled (i : ℕ) (ok : Bool) : TcpTransport :=
  match t.dials[i]? with
  | some ⟨origin, address, backoff, .dialling⟩ =>
    if ok then
      let d : Dial := ⟨origin, address, backoff, .connected t.connections.length⟩
      { t.openConnection d.key with dials := t.dials.set i d }
    else { t with dials := t.dials.set i ⟨origin, address, backoff, .backingOff⟩ }
  | _ => t

/-- The end of a sleep, or of the connection that the loop waits for. -/
def wakeDial (i : ℕ) : TcpTransport :=
  match t.dials[i]? with
  | some ⟨origin, address, backoff, .backingOff⟩ =>
    { t with dials := t.dials.set i ⟨origin, address, min (backoff * 2) 30, .pausing⟩ }
  | some ⟨origin, address, backoff, .pausing⟩ =>
    { t with dials := t.dials.set i ⟨origin, address, backoff, .check⟩ }
  | some ⟨origin, address, _, .connected c⟩ =>
    if t.connections[c]?.any Connection.finished then
      { t with dials := t.dials.set i ⟨origin, address, 2, .pausing⟩ }
    else t
  | _ => t

/-! ## The end of a connection -/

/-- `read_loop` returns. -/
def endReading (c : ℕ) : TcpTransport :=
  match t.connections[c]? with
  | some conn => { t with connections := t.connections.set c { conn with reading := false } }
  | none => t

/-- A write fails, or the queue has no sending half. -/
def endWriting (c : ℕ) (failed : Bool) : TcpTransport :=
  match t.connections[c]? with
  | some conn =>
    if conn.writer ≠ .running then t
    else if failed then { t with connections := t.connections.set c { conn with writer := .failed } }
    else if t.inner.peers[conn.key]? ≠ some c then
      { t with connections := t.connections.set c { conn with writer := .drained } }
    else t
  | none => t

/-- The end of `register_connection`: whatever stands under the key is removed. -/
def finish (c : ℕ) : TcpTransport :=
  match t.connections[c]? with
  | some conn =>
    if conn.reading ∨ conn.writer = .running ∨ conn.finished then t
    else
      { t with
        inner := t.inner.unregister conn.key
        connections := t.connections.set c { conn with finished := true } }
  | none => t

end TcpTransport

/-! ## What goes on next -/

inductive LinkAction where
  | start
  | launch
  | halt
  | close
  | connectPeer (addr : String)
  | announcement (v : Json) (src : String)
  /-- `run_server` takes a connection -/
  | accept (key : String)
  | checkDial (i : ℕ)
  | dialled (i : ℕ) (ok : Bool)
  | wakeDial (i : ℕ)
  | endReading (c : ℕ)
  | endWriting (c : ℕ) (failed : Bool)
  | finish (c : ℕ)

/-- The frames that go through the connections change nothing of this. -/
def TcpTransport.step (t : TcpTransport) : LinkAction → TcpTransport
  | .start => t.start
  | .launch => t.launch
  | .halt => t.halt
  | .close => t.close
  | .connectPeer addr => (t.connectPeer addr).1
  | .announcement v src => t.onAnnouncement v src
  | .accept key => t.openConnection key
  | .checkDial i => t.checkDial i
  | .dialled i ok => t.dialled i ok
  | .wakeDial i => t.wakeDial i
  | .endReading c => t.endReading c
  | .endWriting c failed => t.endWriting c failed
  | .finish c => t.finish c

/-- The tasks of a transport, in any order. -/
def linkMachine : Machine TcpTransport LinkAction := ⟨fun _ _ => True, TcpTransport.step⟩

end Exodus.Model
