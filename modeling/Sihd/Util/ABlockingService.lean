import Sihd.Lib.Transition
import Sihd.Util.ServiceController

/-!
# Blocking services

A start runs the service itself: it holds the running mutex until `on_start` returns. A stop
makes `on_start` return, and waits for the mutex. A thread that calls from within a call is
another caller.
-/

namespace Sihd.Util.ABlockingService

open AService (Operation)

inductive Method where
  | start
  | stop
  deriving DecidableEq

def Method.id : Method → Operation
  | .start => .start
  | .stop => .stop

/-- Where a caller is in a call that `op_start` has accepted. -/
inductive Pc where
  | idle
  /-- `do_start` waits for the mutex. -/
  | starting
  | locked
  | onStart
  /-- `on_start` has returned. -/
  | started (ret : Bool)
  | unlocking (ret : Bool)
  | onStop
  /-- `on_stop` has returned. -/
  | stopped (ret : Bool)
  /-- `service_wait_stop` waits for the mutex. -/
  | waiting (ret : Bool)
  | waited (ret : Bool)
  /-- `do_start` or `do_stop` has returned. -/
  | ending (method : Method) (ret : Bool)
  deriving DecidableEq

/-- The start of an accepted method. -/
def Method.pc : Method → Pc
  | .start => .starting
  | .stop => .onStop

def Pc.holdsMutex : Pc → Bool
  | .locked | .onStart | .started _ | .unlocking _ | .waited _ => true
  | _ => false

/-- The method that is called. -/
def Pc.method : Pc → Option Method
  | .idle => none
  | .starting | .locked | .onStart | .started _ | .unlocking _ => some .start
  | .onStop | .stopped _ | .waiting _ | .waited _ => some .stop
  | .ending method _ => some method

def Pc.stopping (pc : Pc) : Prop := pc.method = some .stop

instance : DecidablePred Pc.stopping := fun pc => decEq pc.method (some .stop)

theorem Pc.method_eq_none {pc : Pc} : pc.method = none ↔ pc = .idle := by
  cases pc <;> simp [Pc.method]

theorem Method.pc_method (method : Method) : method.pc.method = some method := by
  cases method <;> rfl

/-- The call is one of `start`, and `on_start` has not returned yet. -/
def Pc.toReturn : Pc → Bool
  | .starting | .locked | .onStart => true
  | _ => false

/-- A call that was accepted, with its result once it has ended. -/
structure Accepted (ι : Type) where
  caller : ι
  method : Method
  ret : Option Bool

/-- `last` is the record: the last call that was accepted. -/
structure World (ι : Type) where
  ctrl : BlockingServiceController
  runningMutex : Bool
  running : Bool
  ready : Bool
  waitStop : Bool
  pc : ι → Pc
  last : Option (Accepted ι)

inductive Action (ι : Type) where
  | call (c : ι) (method : Method)
  /-- The next step of a call; `ret` is what `on_start` or `on_stop` returns. -/
  | next (c : ι) (ret : Bool)
  /-- `service_set_ready`, from `on_start`. -/
  | serviceSetReady (c : ι)
  | setServiceWaitStop (active : Bool)

namespace World

variable {ι : Type}

def init : World ι where
  ctrl := .create
  runningMutex := false
  running := false
  ready := false
  waitStop := true
  pc := fun _ => .idle
  last := none

section Steps

variable [DecidableEq ι]

def goto (w : World ι) (c : ι) (pc : Pc) : World ι :=
  { w with pc := Function.update w.pc c pc }

@[simp] theorem goto_pc_self (w : World ι) (c : ι) (pc : Pc) : (w.goto c pc).pc c = pc := by
  simp [goto]

theorem goto_pc_of_ne (w : World ι) {c d : ι} (pc : Pc) (h : d ≠ c) :
    (w.goto c pc).pc d = w.pc d := by
  simp [goto, h]

/-- The call of `c` has ended with the result. -/
def ended (w : World ι) (c : ι) (ret : Bool) : Option (Accepted ι) :=
  w.last.map fun a => if a.caller = c then { a with ret := some ret } else a

/-- The next step of a call. `on_start` returns at some time, and so does `on_stop`. -/
def next (w : World ι) (c : ι) (ret : Bool) : Option (World ι) :=
  match w.pc c with
  | .idle => none
  | .starting =>
      if w.runningMutex then none else some { w.goto c .locked with runningMutex := true }
  | .locked => some { w.goto c .onStart with ready := false, running := true }
  | .onStart => some (w.goto c (.started ret))
  | .started ret => some { w.goto c (.unlocking ret) with running := false }
  | .unlocking ret => some { w.goto c (.ending .start ret) with runningMutex := false }
  | .onStop => some (w.goto c (.stopped ret))
  | .stopped ret =>
      let pc := if w.waitStop then .waiting ret else .ending .stop ret
      some { w.goto c pc with ready := false }
  | .waiting ret =>
      if w.runningMutex then none else some { w.goto c (.waited ret) with runningMutex := true }
  | .waited ret => some { w.goto c (.ending .stop ret) with runningMutex := false }
  | .ending method ret =>
      some { w.goto c .idle with
        ctrl := (w.ctrl.opEnd method.id ret).1
        last := w.ended c ret }

/-- A call that `op_start` refuses is over. -/
def step (w : World ι) : Action ι → Option (World ι)
  | .call c method =>
      match w.pc c with
      | .idle =>
          let (ctrl, ret) := w.ctrl.opStart method.id
          if ret then some { w.goto c method.pc with ctrl := ctrl, last := some ⟨c, method, none⟩ }
          else some { w with ctrl := ctrl }
      | _ => none
  | .next c ret => w.next c ret
  | .serviceSetReady c =>
      match w.pc c with
      | .onStart => some { w with ready := true }
      | _ => none
  | .setServiceWaitStop active => some { w with waitStop := active }

variable {w w' : World ι}

/-- A step of a call that goes on, to `x`. It takes the mutex, releases it or leaves it. -/
structure GoesOn (w : World ι) (c : ι) (x : Pc) (w' : World ι) : Prop where
  pc : w'.pc = Function.update w.pc c x
  ctrl : w'.ctrl = w.ctrl
  last : w'.last = w.last
  called : w.pc c ≠ .idle
  method : x.method = (w.pc c).method
  toReturn : x.toReturn = true → (w.pc c).toReturn = true
  mutex : (x.holdsMutex = (w.pc c).holdsMutex ∧ w'.runningMutex = w.runningMutex) ∨
    (x.holdsMutex = true ∧ w.runningMutex = false ∧ w'.runningMutex = true) ∨
    ((w.pc c).holdsMutex = true ∧ x.holdsMutex = false ∧ w'.runningMutex = false)

theorem goesOn_of_next {c : ι} {ret : Bool} (h : w.next c ret = some w') :
    (∃ x, GoesOn w c x w') ∨ ∃ method ret', w.pc c = .ending method ret' ∧
      w' = { w.goto c .idle with
        ctrl := (w.ctrl.opEnd method.id ret').1
        last := w.ended c ret' } := by
  rw [World.next] at h
  cases hpc : w.pc c with
  | idle =>
    rw [hpc] at h
    cases h
  | starting =>
    rw [hpc] at h
    obtain ⟨hfree, hw⟩ := Option.ite_none_left_eq_some.mp h
    obtain rfl := Option.some.inj hw
    exact .inl ⟨.locked, rfl, rfl, rfl, by rw [hpc]; nofun, by rw [hpc]; rfl,
      fun _ => by rw [hpc]; rfl, .inr (.inl ⟨rfl, by simpa using hfree, rfl⟩)⟩
  | locked =>
    rw [hpc] at h
    obtain rfl := Option.some.inj h
    exact .inl ⟨.onStart, rfl, rfl, rfl, by rw [hpc]; nofun, by rw [hpc]; rfl,
      fun _ => by rw [hpc]; rfl, .inl ⟨by rw [hpc]; rfl, rfl⟩⟩
  | onStart =>
    rw [hpc] at h
    obtain rfl := Option.some.inj h
    exact .inl ⟨.started ret, rfl, rfl, rfl, by rw [hpc]; nofun, by rw [hpc]; rfl, nofun,
      .inl ⟨by rw [hpc]; rfl, rfl⟩⟩
  | started ret' =>
    rw [hpc] at h
    obtain rfl := Option.some.inj h
    exact .inl ⟨.unlocking ret', rfl, rfl, rfl, by rw [hpc]; nofun, by rw [hpc]; rfl, nofun,
      .inl ⟨by rw [hpc]; rfl, rfl⟩⟩
  | unlocking ret' =>
    rw [hpc] at h
    obtain rfl := Option.some.inj h
    exact .inl ⟨.ending .start ret', rfl, rfl, rfl, by rw [hpc]; nofun, by rw [hpc]; rfl, nofun,
      .inr (.inr ⟨by rw [hpc]; rfl, rfl, rfl⟩)⟩
  | onStop =>
    rw [hpc] at h
    obtain rfl := Option.some.inj h
    exact .inl ⟨.stopped ret, rfl, rfl, rfl, by rw [hpc]; nofun, by rw [hpc]; rfl, nofun,
      .inl ⟨by rw [hpc]; rfl, rfl⟩⟩
  | stopped ret' =>
    rw [hpc] at h
    obtain rfl := Option.some.inj h
    refine .inl ⟨if w.waitStop then .waiting ret' else .ending .stop ret', rfl, rfl, rfl,
      by rw [hpc]; nofun, ?_, ?_, .inl ⟨?_, rfl⟩⟩
    · rw [hpc]
      split <;> rfl
    · split <;> nofun
    · rw [hpc]
      split <;> rfl
  | waiting ret' =>
    rw [hpc] at h
    obtain ⟨hfree, hw⟩ := Option.ite_none_left_eq_some.mp h
    obtain rfl := Option.some.inj hw
    exact .inl ⟨.waited ret', rfl, rfl, rfl, by rw [hpc]; nofun, by rw [hpc]; rfl, nofun,
      .inr (.inl ⟨rfl, by simpa using hfree, rfl⟩)⟩
  | waited ret' =>
    rw [hpc] at h
    obtain rfl := Option.some.inj h
    exact .inl ⟨.ending .stop ret', rfl, rfl, rfl, by rw [hpc]; nofun, by rw [hpc]; rfl, nofun,
      .inr (.inr ⟨by rw [hpc]; rfl, rfl, rfl⟩)⟩
  | ending method ret' =>
    rw [hpc] at h
    obtain rfl := Option.some.inj h
    exact .inr ⟨method, ret', rfl, rfl⟩

theorem next_pc_of_ne {c d : ι} {ret : Bool} (h : w.next c ret = some w') (hdc : d ≠ c) :
    w'.pc d = w.pc d := by
  rcases goesOn_of_next h with ⟨x, hgoes⟩ | ⟨method, ret', -, rfl⟩
  · rw [hgoes.pc, Function.update_of_ne hdc]
  · exact w.goto_pc_of_ne .idle hdc

theorem step_call_pc_of_ne {c d : ι} {method : Method} (h : w.step (.call c method) = some w')
    (hdc : d ≠ c) : w'.pc d = w.pc d := by
  rw [step] at h
  split at h
  · cases hstart : w.ctrl.opStart method.id with
    | mk ctrl ret =>
      rw [hstart] at h
      cases ret with
      | true =>
        obtain rfl := Option.some.inj h
        exact w.goto_pc_of_ne method.pc hdc
      | false =>
        obtain rfl := Option.some.inj h
        rfl
  · cases h

/-- A call that is refused changes nothing. -/
theorem eq_of_step_call {c : ι} {method : Method} (h : w.step (.call c method) = some w')
    (hc : w'.pc c = .idle) : w' = w := by
  rw [step] at h
  split at h
  · cases hstart : w.ctrl.opStart method.id with
    | mk ctrl ret =>
      rw [hstart] at h
      cases ret with
      | true =>
        obtain rfl := Option.some.inj h
        change (w.goto c method.pc).pc c = .idle at hc
        rw [goto_pc_self] at hc
        cases method <;> cases hc
      | false =>
        obtain rfl := Option.some.inj h
        rw [BlockingServiceController.opStart_eq_false hstart]
  · cases h

/-- A stop that is accepted is accepted of a service that runs. -/
theorem running_of_step_call {c : ι} (h : w.step (.call c .stop) = some w')
    (hc : w'.pc c ≠ .idle) : w.ctrl.currentState = .running := by
  rw [step] at h
  split at h
  · next hpc =>
    cases hstart : w.ctrl.opStart Method.stop.id with
    | mk ctrl ret =>
      rw [hstart] at h
      cases ret with
      | true =>
        refine w.ctrl.opStart_stop_snd.mp ?_
        change (w.ctrl.opStart Method.stop.id).2 = true
        rw [hstart]
      | false =>
        obtain rfl := Option.some.inj h
        exact absurd hpc hc
  · cases h

/-- A call does not come back to `on_start`. -/
theorem toReturn_of_next {c : ι} {ret : Bool} (h : w.next c ret = some w')
    (hreturn : (w'.pc c).toReturn = true) : (w.pc c).toReturn = true := by
  rcases goesOn_of_next h with ⟨x, hgoes⟩ | ⟨method, ret', -, rfl⟩
  · rw [hgoes.pc, Function.update_self] at hreturn
    exact hgoes.toReturn hreturn
  · change ((w.goto c .idle).pc c).toReturn = true at hreturn
    rw [goto_pc_self] at hreturn
    cases hreturn

end Steps

/-- The last call that was accepted is a stop that has succeeded. -/
def stoppedLast (w : World ι) : Bool :=
  match w.last with
  | some ⟨_, .stop, some true⟩ => true
  | _ => false

/-- What the controller says of the service, while no stop is in progress and while no call is. -/
structure Controllable (w : World ι) : Prop where
  running : ∀ c, w.pc c = .onStart → (∀ d, ¬ (w.pc d).stopping) →
    w.ctrl.currentState = .running
  stopped : (∀ c, w.pc c = .idle) → w.stoppedLast = true → w.ctrl.currentState = .stopped

end World

end Sihd.Util.ABlockingService
