import Sihd.Util.ServiceController

/-!
# Devices

An operation of a device is made of its children first, and a child may be a device. Children and
links make a graph of nodes: a link adds a node that another one owns to the children. What a
subclass or a service other than a device does is not known, and neither are the links that are
resolved: they are answers, taken one after the other.

A world has a record beside the devices: which devices have started a node that was not stopped
since, and whether every step so far was in order.
-/

namespace Sihd.Core

open Sihd.Util
open ServiceController (Method State)

namespace Device

/-- What a node is. A node that is neither a device nor another service is of no other use. -/
inductive Kind where
  | device
  | service
  | other
  deriving DecidableEq

/-- A child that `resolve_links` adds to a node, under the name of the link. -/
structure Added (ι : Type) where
  node : ι
  name : String
  child : ι

inductive Answer (ι : Type) where
  /-- An operation of a service that is no device. -/
  | service (ret : Bool)
  /-- `on_setup`, `on_init`, `on_stop` or `on_reset`, with the children that it adds. -/
  | hook (ret : Bool) (children : List (String × ι))
  /-- `resolve_links`, with what it adds to this node and to others on the paths of the links. Past
  the maximum of the recursion it throws. -/
  | resolveLinks (ret : Option Bool) (added : List (Added ι))
  /-- `on_start`, with the channels that it observes. -/
  | onStart (ret : Bool) (observed : List ι)

/-- `startedBy`, `stopFailed`, `begun` and `inOrder` are the record: the devices that have started
a node and whose start of it was not followed by a stop, whether the stop of a node by a device has
failed, and the services that the last `do_start` of a device has started, its `started_services`.
-/
structure World (ι : Type) where
  serviceController : ι → ServiceController
  children : ι → List (String × ι)
  observedChannels : ι → List ι
  observers : ι → List ι
  startedBy : ι → List ι
  stopFailed : ι → ι → Bool
  begun : ι → List ι
  inOrder : Bool

/-- The end of a call. -/
inductive Result (ι : Type) where
  | returned (w : World ι) (answers : List (Answer ι)) (ret : Bool)
  | thrown (w : World ι)
  /-- The next answer is not one to what is called. -/
  | stuck

def Result.bind {ι : Type} (r : Result ι)
    (f : World ι → List (Answer ι) → Bool → Result ι) : Result ι :=
  match r with
  | .returned w answers ret => f w answers ret
  | .thrown w => .thrown w
  | .stuck => .stuck

/-- The controller of a device, a copy of the default one that may go without a setup. -/
def controller : ServiceController := ServiceController.create.optionalSetup

namespace World

variable {ι : Type}

def state (w : World ι) (d : ι) : State := (w.serviceController d).statemachine.state

section Nodes

variable [DecidableEq ι]

/-- A name that the node has already is not added again. -/
def addChild (w : World ι) (node : ι) (name : String) (child : ι) : World ι :=
  if (w.children node).any (fun entry => entry.1 = name) then w
  else { w with
    children := Function.update w.children node (w.children node ++ [(name, child)]) }

def addChildren (w : World ι) (node : ι) (entries : List (String × ι)) : World ι :=
  entries.foldl (fun w entry => w.addChild node entry.1 entry.2) w

def removeChildren (w : World ι) (node : ι) : World ι :=
  { w with children := Function.update w.children node [] }

def observeChannel (w : World ι) (d c : ι) : World ι :=
  if d ∈ w.observers c then w
  else { w with
    observers := Function.update w.observers c (w.observers c ++ [d])
    observedChannels := Function.update w.observedChannels d (w.observedChannels d ++ [c]) }

def removeChannelsObservation (w : World ι) (d : ι) : World ι :=
  { w with
    observers := fun c =>
      if c ∈ w.observedChannels d then (w.observers c).erase d else w.observers c
    observedChannels := Function.update w.observedChannels d [] }

/-- A stop of the node has succeeded. -/
def stopped (w : World ι) (x : ι) : World ι :=
  { w with startedBy := Function.update w.startedBy x [] }

/-- A device has started the service. -/
def started (w : World ι) (d x : ι) : World ι :=
  { w with
    startedBy := Function.update w.startedBy x (d :: w.startedBy x)
    stopFailed := Function.update w.stopFailed d (Function.update (w.stopFailed d) x false)
    begun := Function.update w.begun d (x :: w.begun d) }

def failed (w : World ι) (d x : ι) : World ι :=
  { w with
    stopFailed := Function.update w.stopFailed d (Function.update (w.stopFailed d) x true) }

/-- Whether a link is in order. It adds nothing to another device that goes through its children,
and no service to one that runs. To a device whose start succeeds it adds no service but one that
this start has started. -/
def mayAdd (kind : ι → Kind) (w : World ι) (d : ι) (ret : Bool) (a : Added ι) : Bool :=
  (w.children a.node).any (fun entry => entry.1 = a.name) ||
    if a.node = d then !ret || kind a.child = .other || a.child ∈ w.begun d
    else !(w.state a.node).busy && (kind a.child = .other || w.state a.node ≠ .running)

/-- `resolve_links` of the device, in a start that succeeds or not. -/
def resolveLinks (kind : ι → Kind) (d : ι) (ret : Bool) (w : World ι) (added : List (Added ι)) :
    World ι :=
  added.foldl (fun w a =>
    { w.addChild a.node a.name a.child with inOrder := w.inOrder && w.mayAdd kind d ret a }) w

/-- `on_start` of the device. In order, it fails only if it has observed nothing. -/
def onStart (w : World ι) (d : ι) (ret : Bool) (observed : List ι) : World ι :=
  { observed.foldl (fun w c => w.observeChannel d c) w with
    inOrder := w.inOrder && (ret || observed.isEmpty) }

end Nodes

end World

/-! ### Operations -/

section Operations

variable {ι : Type} [DecidableEq ι] (kind : ι → Kind)

/-- One operation of all child services. `call` makes it of one of them. -/
def forEachChildService (call : World ι → List (Answer ι) → ι → Result ι) :
    List (String × ι) → World ι → List (Answer ι) → Result ι
  | [], w, answers => .returned w answers true
  | (_, child) :: rest, w, answers =>
      if kind child = .other then forEachChildService call rest w answers
      else
        (call w answers child).bind fun w answers ret =>
          (forEachChildService call rest w answers).bind fun w answers rets =>
            .returned w answers (ret && rets)

/-- The first loop of `do_start`, which a failure breaks, with the services it has started. -/
def startChildren (call : World ι → List (Answer ι) → ι → Result ι) (d : ι) :
    List (String × ι) → World ι → List (Answer ι) → Result ι
  | [], w, answers => .returned w answers true
  | (_, child) :: rest, w, answers =>
      if kind child = .other then startChildren call d rest w answers
      else
        (call w answers child).bind fun w answers ret =>
          if ret then startChildren call d rest (w.started d child) answers
          else .returned w answers false

/-- A stop of the child by the device. -/
def stopChild (call : World ι → List (Answer ι) → ι → Result ι) (d : ι) (w : World ι)
    (answers : List (Answer ι)) (child : ι) : Result ι :=
  (call w answers child).bind fun w answers ret =>
    .returned (if ret then w else w.failed d child) answers ret

/-- The stops of those that were started, when the start fails. -/
def stopStarted (call : World ι → List (Answer ι) → ι → Result ι) (d : ι) :
    List ι → World ι → List (Answer ι) → Result ι
  | [], w, answers => .returned w answers false
  | child :: rest, w, answers =>
      (stopChild call d w answers child).bind fun w answers _ => stopStarted call d rest w answers

/-- One of `on_setup`, `on_init`, `on_stop` and `on_reset`. -/
def hook (d : ι) (w : World ι) (answers : List (Answer ι)) (before : Bool) : Result ι :=
  match answers with
  | .hook ret children :: answers => .returned (w.addChildren d children) answers (ret && before)
  | _ => .stuck

/-- What follows the start of the children: `resolve_links` and `on_start`. -/
def startItself (d : ι) (w : World ι) (answers : List (Answer ι)) (ret : Bool) : Result ι :=
  if ret then
    match answers with
    | .resolveLinks (some true) added :: .onStart ret observed :: answers =>
        .returned ((w.resolveLinks kind d ret added).onStart d ret observed) answers ret
    | .resolveLinks (some false) added :: answers =>
        .returned (w.resolveLinks kind d false added) answers false
    | .resolveLinks none added :: _ =>
        .thrown { w.resolveLinks kind d false added with inOrder := false }
    | _ => .stuck
  else .returned w answers false

variable (call : World ι → List (Answer ι) → ι → Method → Result ι)

def doSetup (d : ι) (w : World ι) (answers : List (Answer ι)) : Result ι :=
  (forEachChildService kind (fun w answers x => call w answers x .setup) (w.children d) w
    answers).bind fun w answers ret =>
      if ret then hook d w answers true else .returned w answers false

def doInit (d : ι) (w : World ι) (answers : List (Answer ι)) : Result ι :=
  (forEachChildService kind (fun w answers x => call w answers x .init) (w.children d) w
    answers).bind fun w answers ret =>
      if ret then hook d w answers true else .returned w answers false

def doStart (d : ι) (w : World ι) (answers : List (Answer ι)) : Result ι :=
  (startChildren kind (fun w answers x => call w answers x .start) d (w.children d)
    { w with begun := Function.update w.begun d [] } answers).bind fun w answers ret =>
      (startItself kind d w answers ret).bind fun w answers ret =>
        if ret then .returned w answers true
        else
          stopStarted (fun w answers x => call w answers x .stop) d (w.begun d).reverse w answers

def doStop (d : ι) (w : World ι) (answers : List (Answer ι)) : Result ι :=
  (forEachChildService kind (stopChild (fun w answers x => call w answers x .stop) d)
    (w.children d) (w.removeChannelsObservation d) answers).bind fun w answers ret =>
      hook d w answers ret

def doReset (d : ι) (w : World ι) (answers : List (Answer ι)) : Result ι :=
  (forEachChildService kind (fun w answers x => call w answers x .reset) (w.children d) w
    answers).bind fun w answers ret => hook d (w.removeChildren d) answers ret

def doMethod (method : Method) (d : ι) (w : World ι) (answers : List (Answer ι)) : Result ι :=
  match method with
  | .setup => doSetup kind call d w answers
  | .init => doInit kind call d w answers
  | .start => doStart kind call d w answers
  | .stop => doStop kind call d w answers
  | .reset => doReset kind call d w answers

/-- A stop that has succeeded is recorded. -/
def finish (x : ι) (method : Method) (w : World ι) (answers : List (Answer ι)) (ret : Bool) :
    Result ι :=
  .returned (if method = .stop ∧ ret = true then w.stopped x else w) answers ret

end Operations

/-- A call of a method. The calls of the children are nested at most `depth` times: more is
stuck. -/
def call {ι : Type} [DecidableEq ι] (kind : ι → Kind) :
    Nat → World ι → List (Answer ι) → ι → Method → Result ι
  | 0, _, _, _, _ => .stuck
  | depth + 1, w, answers, x, method =>
      match kind x with
      | .device =>
          let (ctrl, ret) := (w.serviceController x).opStart method.id
          if ret then
            ((doMethod kind (call kind depth) method x { w with
                serviceController := Function.update w.serviceController x ctrl } answers).bind
              fun w answers ret => finish x method { w with
                serviceController := Function.update w.serviceController x
                  ((w.serviceController x).opEnd method.id ret).1 } answers ret)
          else .returned w answers false
      | .service =>
          match answers with
          | .service ret :: answers => finish x method w answers ret
          | _ => .stuck
      | .other => .stuck

/-- A call from outside. -/
structure Call (ι : Type) where
  device : ι
  method : Method
  depth : Nat
  answers : List (Answer ι)

namespace World

variable {ι : Type} [DecidableEq ι] (kind : ι → Kind)

def step (w : World ι) (c : Call ι) : Option (World ι) :=
  match call kind c.depth w c.answers c.device c.method with
  | .returned w _ _ | .thrown w => some w
  | .stuck => none

/-- Any tree of nodes, in which nothing was called. -/
structure Fresh (w : World ι) : Prop where
  serviceController : ∀ d, w.serviceController d = controller
  observedChannels : ∀ d, w.observedChannels d = []
  observers : ∀ c, w.observers c = []
  startedBy : ∀ x, w.startedBy x = []
  inOrder : w.inOrder = true

def Reachable (w : World ι) : Prop :=
  Transition.Reaches (step kind) Transition.unrestricted Fresh w

/-- A device that has started as a whole, or not at all. -/
structure AllOrNothing (w : World ι) (d : ι) : Prop where
  stopped : w.state d ≠ .running → ∀ x, d ∈ w.startedBy x → w.stopFailed d x = true
  unobserved : w.state d ≠ .running → w.observedChannels d = [] ∧ ∀ c, d ∉ w.observers c
  started : w.state d = .running → ∀ entry ∈ w.children d, kind entry.2 ≠ .other →
    entry.2 ∈ w.begun d

end World

end Device

end Sihd.Core
