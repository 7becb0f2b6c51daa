import Sihd.Lib.Transition
import Sihd.Sys.SigHandler

/-!
# The signal watcher

The handlers of a watcher are elements of a vector, which destroys them whenever it grows or erases:
a move gives the handlers that are destroyed, in the order in which this is done. Growth copies all
of them first. `remove_if` moves the elements that stay to the front, and the last ones are
destroyed with the values that they have.

A world has a record beside the watcher: the signals that were added and not removed since, and
whether every removal has told if its signal was there.
-/

namespace Sihd.Sys

open SigHandler (Handling destroyAll last restores)

namespace SigWatcher

/-- What is left of `add_signals` or `rm_signals`. -/
inductive Todo where
  | idle
  | adding (sigs : List Int)
  | removing (sigs : List Int)
  deriving DecidableEq

inductive Move where
  | addSignal (sig : Int) (destroyed : List SigHandler)
  | addSignals (sigs : List Int)
  | rmSignal (sig : Int) (destroyed : List SigHandler)
  | rmSignals (sigs : List Int)
  | next (destroyed : List SigHandler)
  | destroy (destroyed : List SigHandler)

/-- `ret` is what the last call has returned. -/
structure World where
  disposition : Int → Disposition
  sigControllers : List SigHandler
  signals : List Int
  sigset : Int → Bool
  todo : Todo
  alive : Bool
  ret : Bool
  present : Int → Bool
  answered : Bool

/-- `signal::status` has a value. -/
def hasStatus (sig : Int) : Bool := 1 ≤ sig && sig < 64

namespace World

def init (disposition : Int → Disposition) : World where
  disposition := disposition
  sigControllers := []
  signals := []
  sigset _ := false
  todo := .idle
  alive := true
  ret := true
  present _ := false
  answered := true

variable (system : Signals)

/-- The vector grows or it does not. A handler that fails is destroyed: what the system refuses to
install it refuses to restore. -/
def addSignal (w : World) (sig : Int) (destroyed : List SigHandler) : Option World :=
  if destroyed = [] ∨ destroyed.isPerm w.sigControllers then
    let (sigHandler, disposition, success) :=
      SigHandler.create.handle system (destroyAll system w.disposition destroyed) sig
    if success && hasStatus sig then
      some { w with
        disposition := disposition
        sigControllers := w.sigControllers ++ [sigHandler]
        signals := w.signals ++ [sig]
        sigset := Function.update w.sigset sig true
        ret := true
        present := Function.update w.present sig true }
    else some { w with disposition := sigHandler.unhandle system disposition, ret := false }
  else none

/-- The controllers that stay. -/
def kept (w : World) (sig : Int) : List SigHandler :=
  w.sigControllers.filter fun c => c.sig ≠ sig

/-- The values of the elements behind those that stay. -/
def erased (w : World) (sig : Int) : List SigHandler :=
  w.sigControllers.drop (w.kept sig).length

def rmSignal (w : World) (sig : Int) (destroyed : List SigHandler) : Option World :=
  if destroyed.isPerm (w.erased sig) then
    let found : Bool := w.erased sig ≠ []
    let ret := found && sig ∈ w.signals
    some { w with
      disposition := destroyAll system w.disposition destroyed
      sigControllers := w.kept sig
      signals := if found then w.signals.filter (· ≠ sig) else w.signals
      sigset := Function.update w.sigset sig false
      ret := ret
      present := Function.update w.present sig false
      answered := w.answered && ret == w.present sig }
  else none

/-- `all_of` ends at the first call that returns false. -/
def next (w : World) (destroyed : List SigHandler) : Option World :=
  match w.todo with
  | .idle => none
  | .adding [] | .removing [] => some { w with todo := .idle }
  | .adding (sig :: sigs) =>
    (w.addSignal system sig destroyed).map fun w =>
      { w with todo := if w.ret then .adding sigs else .idle }
  | .removing (sig :: sigs) =>
    (w.rmSignal system sig destroyed).map fun w =>
      { w with todo := if w.ret then .removing sigs else .idle }

def destroy (w : World) (destroyed : List SigHandler) : Option World :=
  if destroyed.isPerm w.sigControllers then
    some { init (destroyAll system w.disposition destroyed) with
      alive := false
      answered := w.answered }
  else none

def step (w : World) : Move → Option World
  | .next destroyed => w.next system destroyed
  | m =>
    if w.alive && w.todo = .idle then
      match m with
      | .addSignal sig destroyed => w.addSignal system sig destroyed
      | .addSignals sigs => some { w with todo := .adding sigs, ret := true }
      | .rmSignal sig destroyed => w.rmSignal system sig destroyed
      | .rmSignals sigs => some { w with todo := .removing sigs, ret := true }
      | .destroy destroyed => w.destroy system destroyed
      | .next _ => none
    else none

/-! ### What the watcher owns -/

/-- The signals that are present have the callback, and the others the disposition that they had at
the beginning: without a watcher, all of them. -/
structure Owned (disposition : Int → Disposition) (w : World) : Prop where
  dispositions : ∀ x, w.disposition x = if w.present x then .callback else disposition x
  sigset : ∀ x, w.sigset x = true ↔ x ∈ w.signals
  sigControllers : ∀ x, (∃ c ∈ w.sigControllers, c.sig = x) ↔ x ∈ w.signals
  answered : w.answered = true

/-- No handler but one of the signal takes the callback away: of each signal, the last handler that
is destroyed has found the callback itself. -/
def Spares (destroyed : List SigHandler) (sig : Int) : Prop :=
  ∀ x c, x ≠ sig → last destroyed x = some c → c.restores = some .callback

/-- A signal without a status has a disposition that `std::signal` can put back. -/
def AddsInOrder (disposition : Int → Disposition) (sig : Int) (destroyed : List SigHandler) :
    Prop :=
  Spares destroyed sig ∧ (system.catchable sig = true → hasStatus sig = false →
    (disposition sig).saHandler.disposition = disposition sig)

/-- The last handler of the signal that is destroyed puts its first disposition back. Without one,
this is the callback. -/
def RemovesInOrder (disposition : Int → Disposition) (w : World) (sig : Int)
    (destroyed : List SigHandler) : Prop :=
  Spares destroyed sig ∧ (sig ∈ w.signals →
    ((last destroyed sig).bind restores).getD .callback = disposition sig)

def InOrder (disposition : Int → Disposition) (w : World) : Move → Prop
  | .addSignal sig destroyed => AddsInOrder system disposition sig destroyed
  | .rmSignal sig destroyed => w.RemovesInOrder disposition sig destroyed
  | .addSignals _ | .rmSignals _ => True
  | .next destroyed =>
    match w.todo with
    | .adding (sig :: _) => AddsInOrder system disposition sig destroyed
    | .removing (sig :: _) => w.RemovesInOrder disposition sig destroyed
    | _ => True
  | .destroy destroyed => ∀ x c, last destroyed x = some c → c.restores = some (disposition x)

end World

end SigWatcher

end Sihd.Sys
