import Sihd.Lib.Transition
import Sihd.Util.StateMachine
import Mathlib.Data.Fintype.Basic

/-!
# Service controllers

A call of a service starts its operation with the controller, runs it and ends
it with its outcome. The mutex of the controller is held for each transition
only; that operations exclude each other is a matter of the transitions.
-/

namespace Sihd.Util

inductive AService.Operation where
  | setup
  | init
  | start
  | stop
  | reset
  | success
  | error
  deriving DecidableEq

instance : Fintype AService.Operation where
  elems := {.setup, .init, .start, .stop, .reset, .success, .error}
  complete := fun op => by cases op <;> decide

instance : Enumeration AService.Operation where
  toUInt32
    | .setup => 0
    | .init => 1
    | .start => 2
    | .stop => 3
    | .reset => 4
    | .success => 254
    | .error => 255
  injective := by decide +kernel

inductive ServiceController.State where
  | none
  | configuring
  | configured
  | initializing
  | starting
  | running
  | stopping
  | stopped
  | resetting
  | error
  deriving DecidableEq

instance : Fintype ServiceController.State where
  elems := {.none, .configuring, .configured, .initializing, .starting, .running, .stopping,
    .stopped, .resetting, .error}
  complete := fun s => by cases s <;> decide

instance : Enumeration ServiceController.State where
  toUInt32
    | .none => 0
    | .configuring => 1
    | .configured => 2
    | .initializing => 3
    | .starting => 4
    | .running => 5
    | .stopping => 6
    | .stopped => 7
    | .resetting => 8
    | .error => 255
  injective := by decide +kernel

structure ServiceController where
  statemachine : StateMachine ServiceController.State AService.Operation

namespace ServiceController

open AService (Operation)
open StateMachine (packKey)

def defaultTransitions : List (UInt64 × State) :=
  -- none -> setup -> configured
  [ (packKey State.none Operation.setup, .configuring),
    (packKey State.configuring Operation.error, .error),
    (packKey State.configuring Operation.success, .configured),
    -- configured -> init -> stopped
    (packKey State.configured Operation.init, .initializing),
    (packKey State.initializing Operation.error, .error),
    (packKey State.initializing Operation.success, .stopped),
    -- stopped -> start -> running
    (packKey State.stopped Operation.start, .starting),
    (packKey State.starting Operation.error, .error),
    (packKey State.starting Operation.success, .running),
    -- running -> stop -> stopped
    (packKey State.running Operation.stop, .stopping),
    (packKey State.stopping Operation.error, .error),
    (packKey State.stopping Operation.success, .stopped),
    -- configured/stopped -> reset -> none
    (packKey State.configured Operation.reset, .resetting),
    (packKey State.stopped Operation.reset, .resetting),
    (packKey State.resetting Operation.error, .error),
    (packKey State.resetting Operation.success, .none)]

def defaultStatemachine : StateMachine State Operation :=
  StateMachine.setTransitionsMap ⟨.none, .setup, .empty⟩ defaultTransitions

/-- The default constructor. -/
def create : ServiceController := ⟨defaultStatemachine⟩

def optionalSetup (ctrl : ServiceController) : ServiceController :=
  ⟨ctrl.statemachine.addTransition .none .init .initializing⟩

def optionalInit (ctrl : ServiceController) : ServiceController :=
  ⟨ctrl.statemachine.addTransition .none .start .starting⟩

def opStart (ctrl : ServiceController) (op : Operation) : ServiceController × Bool :=
  let (statemachine, ret) := ctrl.statemachine.transition op
  (⟨statemachine⟩, ret)

def opEnd (ctrl : ServiceController) (_op : Operation) (status : Bool) :
    ServiceController × Bool :=
  let (statemachine, ret) := ctrl.statemachine.transition (if status then .success else .error)
  (⟨statemachine⟩, ret)

/-- The states of a service that is in an operation. -/
def State.busy : State → Bool
  | .configuring | .initializing | .starting | .stopping | .resetting => true
  | _ => false

/-! ### Calls -/

/-- The operations of a service, each made by one macro. -/
inductive Method where
  | setup
  | init
  | start
  | stop
  | reset
  deriving DecidableEq

instance : Fintype Method where
  elems := {.setup, .init, .start, .stop, .reset}
  complete := fun method => by cases method <;> decide

def Method.id : Method → Operation
  | .setup => .setup
  | .init => .init
  | .start => .start
  | .stop => .stop
  | .reset => .reset

/-- Where a caller is in the call of a method. -/
inductive Pc where
  | idle
  /-- `op_start` was accepted, and the service runs the operation. -/
  | operating (method : Method)
  /-- The operation has returned. -/
  | operated (method : Method) (ret : Bool)
  deriving DecidableEq

def Pc.inside : Pc → Bool
  | .idle => false
  | _ => true

structure World (ι : Type) where
  ctrl : ServiceController
  pc : ι → Pc

inductive Action (ι : Type) where
  | opStart (c : ι) (method : Method)
  | operate (c : ι) (ret : Bool)
  | opEnd (c : ι)
  | optionalSetup
  | optionalInit

namespace World

variable {ι : Type} [DecidableEq ι]

def init : World ι := ⟨create, fun _ => .idle⟩

/-- A call that `op_start` refuses is over. -/
def step (w : World ι) : Action ι → Option (World ι)
  | .opStart c method =>
      match w.pc c with
      | .idle =>
          let (ctrl, ret) := w.ctrl.opStart method.id
          some ⟨ctrl, if ret then Function.update w.pc c (.operating method) else w.pc⟩
      | _ => none
  | .operate c ret =>
      match w.pc c with
      | .operating method => some ⟨w.ctrl, Function.update w.pc c (.operated method ret)⟩
      | _ => none
  | .opEnd c =>
      match w.pc c with
      | .operated method ret =>
          some ⟨(w.ctrl.opEnd method.id ret).1, Function.update w.pc c .idle⟩
      | _ => none
  | .optionalSetup => some ⟨w.ctrl.optionalSetup, w.pc⟩
  | .optionalInit => some ⟨w.ctrl.optionalInit, w.pc⟩

def Reachable (w : World ι) : Prop :=
  Transition.Reaches step Transition.unrestricted (· = init) w

theorem exists_reachable (actions : List (Action ι)) {P : World ι → Prop} [DecidablePred P]
    (h : (Transition.runs step init actions).any (fun w => decide (P w)) = true) :
    ∃ w : World ι, Reachable w ∧ P w :=
  Transition.Reaches.exists_of_runs rfl h

end World

/-! ### Operations exclude each other -/

/-- Operations start in a state that is not busy and lead to one that is; they
end, whatever their outcome, in a state that is not. -/
structure Alternates (m : StateMachine State Operation) : Prop where
  starts : ∀ s (method : Method) s', m.target s method.id = some s' →
    s.busy = false ∧ s'.busy = true
  ends : ∀ s (status : Bool), s.busy = true →
    ∃ s', m.target s (if status then .success else .error) = some s' ∧ s'.busy = false

theorem alternates_default : Alternates defaultStatemachine where
  starts := by decide +kernel
  ends := by decide +kernel

theorem Alternates.addTransition {m : StateMachine State Operation} (h : Alternates m)
    {source into : State} (hsource : source.busy = false) (hinto : into.busy = true)
    (method : Method) : Alternates (m.addTransition source method.id into) where
  starts := fun s method' s' htarget => by
    by_cases heq : s = source ∧ method'.id = method.id
    · rw [heq.1, heq.2, StateMachine.target_addTransition_self] at htarget
      obtain rfl := Option.some.inj htarget
      rw [heq.1]
      exact ⟨hsource, hinto⟩
    · rw [m.target_addTransition_of_ne heq] at htarget
      exact h.starts s method' s' htarget
  ends := fun s status hs => by
    obtain ⟨s', htarget, hs'⟩ := h.ends s status hs
    have hne : s ≠ source := fun heq => by simp [heq, hsource] at hs
    refine ⟨s', ?_, hs'⟩
    rw [m.target_addTransition_of_ne fun heq => hne heq.1]
    exact htarget

/-- The machine goes on with a transition and keeps its transitions. -/
theorem Alternates.of_transitions {m m' : StateMachine State Operation} (h : Alternates m)
    (heq : m'.transitions = m.transitions) : Alternates m' where
  starts := fun s method s' htarget => h.starts s method s' (by
    rwa [StateMachine.target, ← heq])
  ends := fun s status hs => by
    obtain ⟨s', htarget, hs'⟩ := h.ends s status hs
    exact ⟨s', by rwa [StateMachine.target, heq], hs'⟩

theorem opStart_eq_true {ctrl ctrl' : ServiceController} {method : Method}
    (h : Alternates ctrl.statemachine) (hstart : ctrl.opStart method.id = (ctrl', true)) :
    ctrl.statemachine.state.busy = false ∧ ctrl'.statemachine.state.busy = true ∧
      Alternates ctrl'.statemachine := by
  cases htransition : ctrl.statemachine.transition method.id with
  | mk m ret =>
    rw [opStart, htransition] at hstart
    obtain ⟨rfl, rfl⟩ := Prod.mk.inj hstart
    obtain ⟨into, htarget, rfl⟩ := StateMachine.target_of_transition htransition
    obtain ⟨hfree, hbusy⟩ := h.starts _ _ _ htarget
    exact ⟨hfree, hbusy, h.of_transitions rfl⟩

theorem opStart_eq_false {ctrl ctrl' : ServiceController} {op : Operation}
    (hstart : ctrl.opStart op = (ctrl', false)) : ctrl' = ctrl := by
  cases htransition : ctrl.statemachine.transition op with
  | mk m ret =>
    rw [opStart, htransition] at hstart
    obtain ⟨rfl, rfl⟩ := Prod.mk.inj hstart
    rw [StateMachine.eq_of_transition htransition]

theorem opEnd_of_busy {ctrl : ServiceController} (h : Alternates ctrl.statemachine)
    (hbusy : ctrl.statemachine.state.busy = true) (op : Operation) (status : Bool) :
    (ctrl.opEnd op status).2 = true ∧ (ctrl.opEnd op status).1.statemachine.state.busy = false ∧
      Alternates (ctrl.opEnd op status).1.statemachine := by
  obtain ⟨into, htarget, hfree⟩ := h.ends _ status hbusy
  rw [opEnd, StateMachine.transition_of_target htarget]
  exact ⟨rfl, hfree, h.of_transitions rfl⟩

namespace World

variable {ι : Type} [DecidableEq ι] {w w' : World ι}

/-- What the operations of a service promise. A caller is inside between an
`op_start` that was accepted and its `op_end`. -/
structure IsExclusive (w : World ι) : Prop where
  unique : ∀ c d, (w.pc c).inside → (w.pc d).inside → c = d
  busy_iff : (∃ c, (w.pc c).inside) ↔ w.ctrl.statemachine.state.busy
  ends : ∀ c, (w.pc c).inside → ∀ op status, (w.ctrl.opEnd op status).2 = true
  refused : ∀ op, (w.ctrl.opStart op).2 = false → (w.ctrl.opStart op).1 = w.ctrl

/-- The callers exclude each other by the state of a machine that alternates. -/
structure Sound (w : World ι) : Prop where
  alternates : Alternates w.ctrl.statemachine
  exclusive : Exclusive (fun pc => pc.inside = true) w.pc
    (w.ctrl.statemachine.state.busy = true)

omit [DecidableEq ι] in
theorem sound_init : Sound (init : World ι) where
  alternates := alternates_default
  exclusive := Exclusive.nobody (fun _ => Bool.false_ne_true) Bool.false_ne_true

theorem Sound.step (h : Sound w) {a : Action ι} (hstep : w.step a = some w') : Sound w' := by
  cases a with
  | opStart c method =>
    rw [World.step] at hstep
    split at hstep
    · cases hstart : w.ctrl.opStart method.id with
      | mk ctrl ret =>
        rw [hstart] at hstep
        obtain rfl := Option.some.inj hstep
        cases ret with
        | true =>
          obtain ⟨hfree, hbusy, halternates⟩ := opStart_eq_true h.alternates hstart
          exact ⟨halternates, h.exclusive.enter (by simp [hfree]) rfl hbusy⟩
        | false =>
          rw [opStart_eq_false hstart]
          exact h
    · cases hstep
  | operate c ret =>
    rw [World.step] at hstep
    split at hstep
    · next method hpc =>
      obtain rfl := Option.some.inj hstep
      exact ⟨h.alternates, h.exclusive.stay (by simp [hpc, Pc.inside])⟩
    · cases hstep
  | opEnd c =>
    rw [World.step] at hstep
    split at hstep
    · next method ret hpc =>
      obtain rfl := Option.some.inj hstep
      have hinside : (w.pc c).inside = true := by
        rw [hpc]
        rfl
      obtain ⟨-, hfree, halternates⟩ := opEnd_of_busy h.alternates
        (h.exclusive.exists_iff.mp ⟨c, hinside⟩) method.id ret
      exact ⟨halternates, h.exclusive.leave hinside Bool.false_ne_true (by simp [hfree])⟩
    · cases hstep
  | optionalSetup =>
    obtain rfl := Option.some.inj hstep
    exact ⟨h.alternates.addTransition rfl rfl .init, h.exclusive⟩
  | optionalInit =>
    obtain rfl := Option.some.inj hstep
    exact ⟨h.alternates.addTransition rfl rfl .start, h.exclusive⟩

omit [DecidableEq ι] in
theorem Sound.isExclusive (h : Sound w) : w.IsExclusive where
  unique := h.exclusive.unique
  busy_iff := h.exclusive.exists_iff
  ends := fun c hc op status =>
    (opEnd_of_busy h.alternates (h.exclusive.exists_iff.mp ⟨c, hc⟩) op status).1
  refused := fun _ hret => opStart_eq_false (Prod.ext rfl hret)

/-- In every run of any number of callers the operations of a service exclude
each other, and each of them is ended. -/
theorem isExclusive_of_reachable (h : Reachable w) : w.IsExclusive :=
  (Transition.Reaches.invariant (I := Sound) (fun _ hw => hw ▸ sound_init)
    (fun _ _ _ hsound _ hstep => hsound.step hstep) h).isExclusive

/-- One caller initializes a service without a setup, and another one is refused
meanwhile. -/
theorem isExclusive_of_reachable_init : ∃ w : World (Fin 2), w.IsExclusive ∧
    w.ctrl.statemachine.state = .initializing ∧ w.pc 0 = .operated .init false ∧
      w.pc 1 = .idle := by
  obtain ⟨w, hw, hstate⟩ := exists_reachable
    [.optionalSetup, .opStart 0 .init, .opStart 1 .setup, .operate 0 false]
    (P := fun w => w.ctrl.statemachine.state = .initializing ∧
      w.pc (0 : Fin 2) = .operated .init false ∧ w.pc 1 = .idle) (by decide +kernel)
  exact ⟨w, isExclusive_of_reachable hw, hstate⟩

end World

end ServiceController

end Sihd.Util

/-!
## The controller of blocking services

It has no state for an operation in progress: it is written when an operation starts and once
more when it ends.
-/

namespace Sihd.Util

inductive BlockingServiceController.State where
  | running
  | stopped
  | error
  deriving DecidableEq

structure BlockingServiceController where
  currentState : BlockingServiceController.State
  deriving DecidableEq

namespace BlockingServiceController

open AService (Operation)

/-- The default constructor. -/
def create : BlockingServiceController := ⟨.stopped⟩

def opStart (ctrl : BlockingServiceController) (op : Operation) :
    BlockingServiceController × Bool :=
  match op with
  | .start =>
      if ctrl.currentState = .stopped ∨ ctrl.currentState = .error then (⟨.running⟩, true)
      else (ctrl, false)
  | .stop => if ctrl.currentState = .running then (⟨.stopped⟩, true) else (ctrl, false)
  | _ => (ctrl, true)

def opEnd (ctrl : BlockingServiceController) (op : Operation) (status : Bool) :
    BlockingServiceController × Bool :=
  match op with
  | .start => (⟨if status then .running else .error⟩, true)
  | .stop => (⟨if status then .stopped else .error⟩, true)
  | _ => (ctrl, true)

variable {ctrl ctrl' : BlockingServiceController}

theorem opStart_start_eq_true (h : ctrl.opStart .start = (ctrl', true)) :
    ctrl'.currentState = .running := by
  rw [opStart] at h
  split at h
  · rw [← (Prod.mk.inj h).1]
  · cases (Prod.mk.inj h).2

theorem opStart_eq_false {op : Operation} (h : ctrl.opStart op = (ctrl', false)) :
    ctrl' = ctrl := by
  unfold opStart at h
  split at h
  · split at h
    · cases (Prod.mk.inj h).2
    · exact (Prod.mk.inj h).1.symm
  · split at h
    · cases (Prod.mk.inj h).2
    · exact (Prod.mk.inj h).1.symm
  · cases (Prod.mk.inj h).2

/-- A stop is accepted of a running service only. -/
theorem opStart_stop_snd (ctrl : BlockingServiceController) :
    (ctrl.opStart .stop).2 = true ↔ ctrl.currentState = .running := by
  rw [opStart]
  split <;> simp_all

end BlockingServiceController

end Sihd.Util
