import Sihd.Lib.Transition
import Sihd.Net.BasicServerHandler

/-!
# The clients that are read

An accepted client is read from as long as there is a read interest of its descriptor. One
that is flagged neither disconnected nor in error should have one. `servesAll_iff` says which
steps keep it so: the read interest of a new client may not fit in the table, and a write
that succeeds takes back the error of a read that failed.
-/

namespace Sihd.Net.World

open Sys

/-- A connection that is accepted finds room in the table. -/
def FindsRoom (w : World) (answer : Answer) : Prop :=
  answer.socket < 0 ∨ w.maxClients ≤ w.clientMap.size ∨
    (w.tlsCtx = true ∧ answer.tlsAccept = false) ∨ w.poll.HasRoom answer.socket

/-- A write does not take back the error of a client that is not read. -/
def KeepsError (w : World) (socket : Int) (stopped : Option Nat) : Prop :=
  ∀ c, w.clientMap.find socket = some c → c.writeArray = [] ∨ stopped = none →
    c.disconnected = false → (w.poll.interest socket).read = true

def EventServes (w : World) (answer : Answer) (e : PollEvent) : Prop :=
  if e.fd = w.socket then
    if e.readable = true then w.FindsRoom answer
    else e.closed = true ∨ e.error = true →
      w.Everyone fun _ c => c.error = false → c.disconnected = true
  else e.readable = false → e.writable = true → w.KeepsError e.fd answer.stopped

/-- New clients have room in the table, no error is taken back, and the listening socket does
not close while there is a client that is not flagged. -/
def Serves (w : World) : Action → Prop
  | .poll _ => True
  | .handle answer => ∀ e ∈ w.pending.head?, w.EventServes answer e
  | .afterActivity => True
  | .sendToClient socket id arr => ∀ c, w.clientMap.find socket = some c → c.id = id →
      arr ≠ [] → w.server = true
  | .sendToSocket socket arr => ∀ c, w.clientMap.find socket = some c →
      arr ≠ [] → w.server = true
  | .removeClient socket id => ∀ c, w.clientMap.find socket = some c → c.id = id →
      w.server = true
  | .removeSocket socket => ∀ c, w.clientMap.find socket = some c → w.server = true

section Steps

variable {w w' : World} {socket : Int} {id : Nat} {arr : List UInt8} {c : Client}

end Steps

end Sihd.Net.World
