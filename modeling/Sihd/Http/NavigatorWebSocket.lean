import Mathlib.Logic.Function.Basic
import Mathlib.Data.List.Basic
import Sihd.Lib.Transition

/-!
# Web sockets of a navigator

A navigator has one context of the library of web sockets and one connection in it, at most, and a
queue of messages that outlives them. A thread serves the context that it finds at each turn. What
the library does is a move: it calls back for the connection that is served, and a message of the
peer comes in pieces. Calls that send come from any thread, and the others from one.

A world has a record beside the navigator: of each connection, what was accepted while it was the
one of the navigator, what was written to it, and the messages of the peer with the calls that each
has caused.
-/

namespace Sihd.Http

namespace NavigatorWebSocket

/-- `connection` is the record of the connection that has accepted the message. -/
structure Message where
  data : List UInt8
  binary : Bool
  connection : Nat
  deriving DecidableEq

/-- A call is one of `on_ws_binary` or `on_ws_text`, which are both set. -/
structure PeerMessage where
  binary : Bool
  pieces : List (List UInt8)
  calls : List (Bool × List UInt8)

/-- What the library makes of a connection. One whose callback has returned -1 is failed: it gets
nothing more but a close. -/
inductive Stage where
  | initiated
  | established
  | failed
  | closed
  deriving DecidableEq

structure Connection where
  stage : Stage
  writeRequested : Bool
  accepted : List Message
  written : List Message
  incoming : Option PeerMessage
  received : List PeerMessage

/-- How the library answers the call that connects. It may call back for the error. -/
inductive Attempt where
  | noContext
  | refused (called : Bool)
  | initiated

/-- What the library calls back for. -/
inductive Reason where
  | established
  | receive (piece : List UInt8) (binary : Bool) (final : Bool)
  | writeable (ret : Bool)
  | connectionError
  | closed
  | peerInitiatedClose

/-- The place of `ws_connect` or `ws_close`. -/
inductive Pc where
  | idle
  | waiting
  | joining
  | destroying
  deriving DecidableEq

/-- The place of the worker: at the top of its loop, or in `lws_service` of a context. -/
inductive Thread where
  | none
  | top
  | serving (context : Option Nat)
  deriving DecidableEq

inductive Move where
  | connect (attempt : Attempt)
  | close
  | send (data : List UInt8) (binary : Bool)
  | next
  | service
  | callback (reason : Reason)

/-- A connection and its context have one number. -/
structure World where
  context : Option Nat
  wsi : Option Nat
  connected : Bool
  handshakeDone : Bool
  stopRequested : Bool
  sendQueue : List Message
  started : Bool
  thread : Thread
  pc : Pc
  ret : Bool
  connections : Nat → Connection
  nextConnection : Nat

def Connection.create : Connection := ⟨.initiated, false, [], [], none, []⟩

/-- A piece of the message that has begun, or the first one of a new message. -/
def PeerMessage.receive (incoming : Option PeerMessage) (piece : List UInt8) (binary : Bool) :
    PeerMessage :=
  let m := incoming.getD ⟨binary, [], []⟩
  { m with
    pieces := m.pieces ++ [piece]
    calls := if piece ≠ [] then m.calls ++ [(m.binary, piece)] else m.calls }

def Connection.receive (k : Connection) (piece : List UInt8) (binary final : Bool) : Connection :=
  let m := PeerMessage.receive k.incoming piece binary
  if final then { k with incoming := none, received := k.received ++ [m] }
  else { k with incoming := some m }

/-- The pieces that came of the message that has begun. -/
def Connection.pieces (k : Connection) : List (List UInt8) :=
  (k.incoming.map PeerMessage.pieces).getD []

namespace World

def init : World where
  context := none
  wsi := none
  connected := false
  handshakeDone := false
  stopRequested := false
  sendQueue := []
  started := false
  thread := .none
  pc := .idle
  ret := false
  connections _ := .create
  nextConnection := 0

def setConnection (w : World) (c : Nat) (k : Connection) : World :=
  { w with connections := Function.update w.connections c k }

/-! ### Calls -/

/-- `ws_queue_message`. -/
def send (w : World) (data : List UInt8) (binary : Bool) : World :=
  match w.connected, w.wsi with
  | true, some c =>
    let m : Message := ⟨data, binary, c⟩
    { w.setConnection c { w.connections c with
        accepted := (w.connections c).accepted ++ [m]
        writeRequested := true } with
      sendQueue := w.sendQueue ++ [m]
      ret := true }
  | _, _ => { w with ret := false }

/-- `ws_do_connect`, to where it waits. A worker that was started and not stopped is not started
again, whether its thread runs or has ended. -/
def connect (w : World) : Attempt → World
  | .noContext => { w with context := none, ret := false }
  | .refused called =>
    { w with
      context := none
      wsi := none
      connected := w.connected && !called
      handshakeDone := w.handshakeDone || called
      ret := false }
  | .initiated =>
    { w with
      context := some w.nextConnection
      wsi := some w.nextConnection
      handshakeDone := false
      connected := false
      thread := if w.started then w.thread else .top
      started := true
      pc := .waiting
      nextConnection := w.nextConnection + 1 }

/-- `ws_disconnect`, to where it joins the thread. -/
def disconnect (w : World) : World :=
  { w with
    stopRequested := true
    started := false
    pc := if w.started then .joining else .destroying }

/-- The context is destroyed, and its connection closed. -/
def destroyed (w : World) : World :=
  let w := match w.context with
    | none => w
    | some c => w.setConnection c { w.connections c with stage := .closed }
  { w with
    context := none
    wsi := none
    connected := false
    handshakeDone := false
    stopRequested := false
    ret := false
    pc := .idle }

/-- A wait ends when the handshake is done, or with time. -/
def next (w : World) : Option World :=
  match w.pc with
  | .idle => none
  | .waiting => some (if w.connected then { w with ret := true, pc := .idle } else w.disconnect)
  | .joining => if w.thread = .none then some { w with pc := .destroying } else none
  | .destroying => some w.destroyed

/-! ### The thread -/

def service (w : World) : Option World :=
  match w.thread with
  | .none => none
  | .top =>
    some { w with
      thread := if !w.stopRequested && w.started then .serving w.context else .none }
  | .serving _ =>
    some { w with thread := if !w.connected && w.handshakeDone then .none else .top }

/-- The front of the queue goes, whatever `lws_write` returns. -/
def writeable (w : World) (c : Nat) (ret : Bool) : World :=
  match w.sendQueue with
  | [] => w.setConnection c { w.connections c with writeRequested := false }
  | m :: queue =>
    { w.setConnection c { w.connections c with
        stage := if ret then .established else .failed
        writeRequested := ret && !queue.isEmpty
        written :=
          if ret then (w.connections c).written ++ [m] else (w.connections c).written } with
      sendQueue := queue }

/-- A callback for the connection, in a stage where the library has one. -/
def callback (w : World) (c : Nat) (reason : Reason) : Option World :=
  match (w.connections c).stage, reason with
  | .initiated, .established =>
    some { w.setConnection c { w.connections c with stage := .established } with
      connected := true
      handshakeDone := true }
  | .initiated, .connectionError =>
    some { w.setConnection c { w.connections c with stage := .closed } with
      connected := false
      handshakeDone := true }
  | .established, .receive piece binary final =>
    some (w.setConnection c ((w.connections c).receive piece binary final))
  | .established, .writeable ret =>
    if (w.connections c).writeRequested then some (w.writeable c ret) else none
  | .established, .peerInitiatedClose => some w
  | .established, .closed | .failed, .closed =>
    some { w.setConnection c { w.connections c with stage := .closed } with connected := false }
  | _, _ => none

def step (w : World) : Move → Option World
  | .connect attempt => if w.pc = .idle then some (w.connect attempt) else none
  | .close => if w.pc = .idle then some w.disconnect else none
  | .send data binary => some (w.send data binary)
  | .next => w.next
  | .service => w.service
  | .callback reason =>
    match w.thread with
    | .serving (some c) => w.callback c reason
    | _ => none

/-! ### Whole messages -/

/-- What is written to a connection is a prefix of what was accepted during it, and each message of
the peer has caused one call, with all of it. -/
def IsWhole (w : World) : Prop :=
  ∀ c, (w.connections c).written <+: (w.connections c).accepted ∧
    ∀ m ∈ (w.connections c).received, m.calls = [(m.binary, m.pieces.flatten)]

/-- A callback for a write finds no message of another connection at the front of the queue. With
the last piece of a message, one of its pieces is not empty, and no other. -/
def InOrder (w : World) : Move → Prop
  | .callback (.writeable _) =>
    ∀ c m, w.thread = .serving (some c) → w.sendQueue.head? = some m → m.connection = c
  | .callback (.receive piece _ true) =>
    ∀ c, w.thread = .serving (some c) →
      (((w.connections c).pieces ++ [piece]).filter (· ≠ [])).length = 1
  | _ => True

end World

end NavigatorWebSocket

end Sihd.Http
