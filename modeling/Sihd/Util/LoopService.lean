import Sihd.Util.ABlockingService

/-!
# Services that loop until they are stopped

`on_start` loops while a flag does not have the value that `on_stop` gives it. It writes the flag
itself before the loop, so that a stop which comes first is not heard.

A world is that of one start call and of one stop call. The body of the loop is entered by a step
of its own, and what the loop calls may answer anything.
-/

namespace Sihd.Util

open ABlockingService (Pc)

/-- What the next step of an `on_start` does. -/
inductive LoopStep (π : Type) where
  | goto (pc : π)
  | setReady (pc : π)
  | write (flag : Bool) (pc : π)
  /-- The body of the loop is entered. -/
  | enter (pc : π)
  | return (ret : Bool)

/-- An `on_start` that starts at `entry`, and reads the flag and the answers of what it calls.
`on_stop` writes `stopFlag` and returns true. -/
structure LoopService (π ρ : Type) where
  entry : π
  next : π → Bool → ρ → LoopStep π
  stopFlag : Bool

namespace LoopService

inductive Caller where
  | starter
  | stopper
  deriving DecidableEq

/-- `called`, `stopCalled`, `stopped` and `entered` are the record: whether the calls were
accepted, whether `on_stop` has returned, and how often the body was entered since. -/
structure World (π : Type) where
  service : ABlockingService.World Caller
  flag : Bool
  loop : π
  called : Bool
  stopCalled : Bool
  stopped : Bool
  entered : Nat

inductive Action (ρ : Type) where
  | start
  | stop
  | nextStart (answer : ρ)
  | nextStop

/-- A step of the thread that starts. -/
def Action.starts {ρ : Type} : Action ρ → Bool
  | .nextStart _ => true
  | _ => false

variable {π ρ : Type}

/-- No call has been made, or those that were are over. -/
structure Fresh (l : LoopService π ρ) (w : World π) : Prop where
  idle : ∀ c, w.service.pc c = .idle
  mutex : w.service.runningMutex = false
  state : w.service.ctrl.currentState ≠ .running
  loop : w.loop = l.entry
  called : w.called = false
  stopCalled : w.stopCalled = false
  stopped : w.stopped = false
  entered : w.entered = 0

namespace World

/-- The next step of `on_start`. -/
def nextLoop (w : World π) (l : LoopService π ρ) (answer : ρ) : Option (World π) :=
  match l.next w.loop w.flag answer with
  | .goto pc => some { w with loop := pc }
  | .setReady pc =>
      (w.service.step (.serviceSetReady .starter)).map fun service =>
        { w with service := service, loop := pc }
  | .write flag pc => some { w with flag := flag, loop := pc }
  | .enter pc =>
      some { w with loop := pc, entered := if w.stopped then w.entered + 1 else w.entered }
  | .return ret =>
      (w.service.next .starter ret).map fun service => { w with service := service }

/-- A service that was never started. -/
def init (l : LoopService π ρ) (flag : Bool) : World π :=
  ⟨.init, flag, l.entry, false, false, false, 0⟩

def step (l : LoopService π ρ) (w : World π) : Action ρ → Option (World π)
  | .start =>
      if w.called then none
      else (w.service.step (.call .starter .start)).map fun service =>
        { w with service := service, called := decide (service.pc .starter ≠ .idle) }
  | .stop =>
      if w.stopCalled then none
      else (w.service.step (.call .stopper .stop)).map fun service =>
        { w with service := service, stopCalled := decide (service.pc .stopper ≠ .idle) }
  | .nextStart answer =>
      if w.service.pc .starter = .onStart then w.nextLoop l answer
      else (w.service.next .starter true).map fun service => { w with service := service }
  | .nextStop =>
      if w.service.pc .stopper = .onStop then
        (w.service.next .stopper true).map fun service =>
          { w with service := service, flag := l.stopFlag, stopped := true }
      else (w.service.next .stopper true).map fun service => { w with service := service }

/-- The start was accepted and its `on_start` has not returned. -/
def Starting (w : World π) : Prop := (w.service.pc .starter).toReturn = true

instance (w : World π) : Decidable w.Starting :=
  inferInstanceAs (Decidable ((w.service.pc .starter).toReturn = true))

/-- The stop is heard: once `on_stop` has returned the body is entered at most once more, and
`on_start` returns after a few steps of its thread. -/
structure StopsLoop (l : LoopService π ρ) (w : World π) : Prop where
  entered : w.entered ≤ 1
  returns : w.stopped = true → ∀ as w', Transition.runs (step l) w as = some w' → w'.Starting →
    as.countP Action.starts ≤ 4

end World

/-- Where an `on_start` is with respect to its flag: `before` it writes it, and afterwards with
bounds, for a flag that tells it to stop, on how often the body is still entered and on the steps
that are left before its last one. -/
structure Stages (l : LoopService π ρ) where
  before : π → Prop
  budget : π → Nat
  rank : π → Nat
  budget_le (pc : π) : budget pc ≤ 1
  rank_le (pc : π) : rank pc ≤ 2
  goto {pc pc' : π} {answer : ρ} (hpc : ¬ before pc)
    (hnext : l.next pc l.stopFlag answer = .goto pc') :
      ¬ before pc' ∧ budget pc' ≤ budget pc ∧ rank pc' < rank pc
  enter {pc pc' : π} {answer : ρ} (hpc : ¬ before pc)
    (hnext : l.next pc l.stopFlag answer = .enter pc') :
      ¬ before pc' ∧ budget pc' < budget pc ∧ rank pc' < rank pc
  setReady {pc pc' : π} {answer : ρ} (hpc : ¬ before pc) :
    l.next pc l.stopFlag answer ≠ .setReady pc'
  write {pc pc' : π} {flag : Bool} {answer : ρ} (hpc : ¬ before pc) :
    l.next pc l.stopFlag answer ≠ .write flag pc'

namespace World

variable {l : LoopService π ρ} {w w' : World π}

theorem fresh_init (l : LoopService π ρ) (flag : Bool) : Fresh l (init l flag) :=
  ⟨fun _ => rfl, rfl, nofun, rfl, rfl, rfl, rfl, rfl⟩

/-- The condition on a step: `on_stop` does not come while a start has still to write the flag. -/
def inOrder (st : Stages l) (w : World π) : Action ρ → Prop
  | .nextStop => w.service.pc .stopper = .onStop → w.Starting → ¬ st.before w.loop
  | _ => True

/-- `on_stop` has returned, and the flag is still the one that it has written. -/
structure Heard (st : Stages l) (w : World π) : Prop where
  stopped : w.stopped = true
  called : w.called = true
  flag : w.flag = l.stopFlag
  entered : w.entered ≤ 1
  written : w.Starting → ¬ st.before w.loop ∧ w.entered + st.budget w.loop ≤ 1

/-- Nothing is called before the start is. -/
structure Uncalled (w : World π) : Prop where
  idle : ∀ c, w.service.pc c = .idle
  state : w.service.ctrl.currentState ≠ .running
  stopped : w.stopped = false

theorem not_starting_of_return {ret : Bool} {service : ABlockingService.World Caller}
    (hpc : w.service.pc .starter = .onStart) (hnext : w.service.next .starter ret = some service) :
    (service.pc .starter).toReturn = false := by
  rw [ABlockingService.World.next, hpc] at hnext
  obtain rfl := Option.some.inj hnext
  rw [ABlockingService.World.goto_pc_self]
  rfl

/-- What a step of the starting thread leaves of `on_start`. -/
theorem Heard.nextLoop {st : Stages l} (h : Heard st w) (hpc : w.service.pc .starter = .onStart)
    {answer : ρ} (hstep : w.nextLoop l answer = some w') :
    Heard st w' ∧ (w'.Starting → w'.service = w.service ∧ st.rank w'.loop < st.rank w.loop) := by
  have hstarting : w.Starting := by rw [Starting, hpc]; rfl
  obtain ⟨hbefore, hbudget⟩ := h.written hstarting
  rw [World.nextLoop, h.flag] at hstep
  cases hnext : l.next w.loop l.stopFlag answer with
  | goto pc =>
    rw [hnext] at hstep
    obtain rfl := Option.some.inj hstep
    obtain ⟨hafter, hle, hrank⟩ := st.goto hbefore hnext
    exact ⟨⟨h.stopped, h.called, rfl, h.entered,
      fun _ => ⟨hafter, (Nat.add_le_add_left hle _).trans hbudget⟩⟩, fun _ => ⟨rfl, hrank⟩⟩
  | setReady pc => exact absurd hnext (st.setReady hbefore)
  | write flag pc => exact absurd hnext (st.write hbefore)
  | enter pc =>
    rw [hnext, if_pos h.stopped] at hstep
    obtain rfl := Option.some.inj hstep
    obtain ⟨hafter, hlt, hrank⟩ := st.enter hbefore hnext
    have hbudget' : w.entered + 1 + st.budget pc ≤ 1 := by omega
    exact ⟨⟨h.stopped, h.called, rfl, (Nat.le_add_right _ _).trans hbudget',
      fun _ => ⟨hafter, hbudget'⟩⟩, fun _ => ⟨rfl, hrank⟩⟩
  | «return» ret =>
    rw [hnext] at hstep
    obtain ⟨service, hservice, rfl⟩ := Option.map_eq_some_iff.mp hstep
    have hover := not_starting_of_return hpc hservice
    exact ⟨⟨h.stopped, h.called, rfl, h.entered, fun hstill => by
      rw [Starting, hover] at hstill
      cases hstill⟩, fun hstill => by
      rw [Starting, hover] at hstill
      cases hstill⟩

/-- The steps to `on_start`. -/
def pending : Pc → Nat
  | .starting => 2
  | .locked => 1
  | _ => 0

/-- The steps that are left before `on_start` returns. -/
def left (st : Stages l) (w : World π) : Nat := pending (w.service.pc .starter) + st.rank w.loop

/-- A start whose `on_start` has not begun comes one step closer to it. -/
theorem pending_of_next {service service' : ABlockingService.World Caller}
    (hpc : service.pc .starter ≠ .onStart) {ret : Bool}
    (hnext : service.next .starter ret = some service')
    (hstill : (service'.pc .starter).toReturn = true) :
    pending (service'.pc .starter) + 1 ≤ pending (service.pc .starter) := by
  have hbefore := ABlockingService.World.toReturn_of_next hnext hstill
  rw [ABlockingService.World.next] at hnext
  cases hplace : service.pc .starter with
  | onStart => exact absurd hplace hpc
  | starting =>
    rw [hplace] at hnext
    obtain ⟨-, hnext⟩ := Option.ite_none_left_eq_some.mp hnext
    obtain rfl := Option.some.inj hnext
    rw [ABlockingService.World.goto_pc_self]
    exact Nat.le_refl 2
  | locked =>
    rw [hplace] at hnext
    obtain rfl := Option.some.inj hnext
    rw [ABlockingService.World.goto_pc_self]
    exact Nat.le_refl 1
  | idle | started ret | unlocking ret | onStop | stopped ret | waiting ret | waited ret
  | ending method ret =>
    rw [hplace] at hbefore
    cases hbefore

/-- What is not a step of the starting thread leaves its place. -/
theorem Heard.other {st : Stages l} (h : Heard st w)
    (hpc : w'.service.pc .starter = w.service.pc .starter) (hflag : w'.flag = w.flag)
    (hloop : w'.loop = w.loop) (hcalled : w'.called = w.called)
    (hstopped : w'.stopped = w.stopped) (hentered : w'.entered = w.entered) :
    Heard st w' ∧ (w'.Starting → w.Starting ∧ left st w' ≤ left st w) := by
  have hstarting : w'.Starting ↔ w.Starting := by rw [Starting, hpc, Starting]
  refine ⟨⟨hstopped.trans h.stopped, hcalled.trans h.called, hflag.trans h.flag,
    hentered.le.trans h.entered, fun hstill => ?_⟩, fun hstill => ⟨hstarting.mp hstill, ?_⟩⟩
  · rw [hloop, hentered]
    exact h.written (hstarting.mp hstill)
  · rw [left, hpc, hloop, left]

/-- Every step leaves the stop heard. One of the starting thread is one less that is left. -/
theorem Heard.step {st : Stages l} (h : Heard st w) {a : Action ρ}
    (hstep : w.step l a = some w') :
    Heard st w' ∧ (w'.Starting → w.Starting ∧
      left st w' + (if a.starts then 1 else 0) ≤ left st w) := by
  cases a with
  | start =>
    rw [World.step, if_pos h.called] at hstep
    cases hstep
  | stop =>
    obtain ⟨-, hstep⟩ := Option.ite_none_left_eq_some.mp hstep
    obtain ⟨service, hservice, rfl⟩ := Option.map_eq_some_iff.mp hstep
    exact h.other (ABlockingService.World.step_call_pc_of_ne hservice nofun) rfl rfl rfl rfl rfl
  | nextStart answer =>
    rw [World.step] at hstep
    split at hstep
    · next hpc =>
      obtain ⟨hheard, hrank⟩ := h.nextLoop hpc hstep
      refine ⟨hheard, fun hstill => ?_⟩
      obtain ⟨hservice, hlt⟩ := hrank hstill
      refine ⟨by rw [Starting, hpc]; rfl, ?_⟩
      rw [left, hservice, left]
      exact Nat.add_lt_add_left hlt _
    · next hpc =>
      obtain ⟨service, hservice, rfl⟩ := Option.map_eq_some_iff.mp hstep
      have hback : (service.pc .starter).toReturn = true → w.Starting :=
        ABlockingService.World.toReturn_of_next hservice
      refine ⟨⟨h.stopped, h.called, h.flag, h.entered, fun hstill => h.written (hback hstill)⟩,
        fun hstill => ⟨hback hstill, ?_⟩⟩
      calc pending (service.pc .starter) + st.rank w.loop + 1
          = pending (service.pc .starter) + 1 + st.rank w.loop := Nat.add_right_comm _ _ _
        _ ≤ pending (w.service.pc .starter) + st.rank w.loop :=
            Nat.add_le_add_right (pending_of_next hpc hservice hstill) _
  | nextStop =>
    rw [World.step] at hstep
    split at hstep
    · obtain ⟨service, hservice, rfl⟩ := Option.map_eq_some_iff.mp hstep
      exact h.other (ABlockingService.World.next_pc_of_ne hservice nofun) h.flag.symm rfl rfl
        h.stopped.symm rfl
    · obtain ⟨service, hservice, rfl⟩ := Option.map_eq_some_iff.mp hstep
      exact h.other (ABlockingService.World.next_pc_of_ne hservice nofun) rfl rfl rfl rfl rfl

structure Sound (st : Stages l) (w : World π) : Prop where
  uncalled : w.called = false → Uncalled w
  unheard : w.stopped = false → w.entered = 0
  heard : w.stopped = true → Heard st w

theorem Sound.fresh (st : Stages l) (h : Fresh l w) : Sound st w where
  uncalled := fun _ => ⟨h.idle, h.state, h.stopped⟩
  unheard := fun _ => h.entered
  heard := fun hstopped => by
    rw [h.stopped] at hstopped
    cases hstopped

/-- A call that is made before the start is accepted. -/
theorem Uncalled.call (h : Uncalled w) {service : ABlockingService.World Caller} {c : Caller}
    {method : ABlockingService.Method} (hstep : w.service.step (.call c method) = some service)
    (hc : service.pc c = .idle) : service = w.service ∧ ∀ d, service.pc d = .idle := by
  have heq := ABlockingService.World.eq_of_step_call hstep hc
  exact ⟨heq, fun d => by rw [heq]; exact h.idle d⟩

theorem Uncalled.not_next (h : Uncalled w) (c : Caller) (ret : Bool) :
    w.service.next c ret = none := by
  rw [ABlockingService.World.next, h.idle c]

theorem Sound.step {st : Stages l} (h : Sound st w) {a : Action ρ} (horder : w.inOrder st a)
    (hstep : w.step l a = some w') : Sound st w' := by
  by_cases hstopped : w.stopped = true
  · have hheard := ((h.heard hstopped).step hstep).1
    refine ⟨fun hcalled => ?_, fun hnot => ?_, fun _ => hheard⟩
    · rw [hheard.called] at hcalled
      cases hcalled
    · rw [hheard.stopped] at hnot
      cases hnot
  rw [Bool.not_eq_true] at hstopped
  have hunheard : ∀ {v : World π}, v.stopped = w.stopped → v.stopped = true → Heard st v :=
    fun hv htrue => by
      rw [hv, hstopped] at htrue
      cases htrue
  cases a with
  | start =>
    obtain ⟨hcalled, hstep⟩ := Option.ite_none_left_eq_some.mp hstep
    obtain ⟨service, hservice, rfl⟩ := Option.map_eq_some_iff.mp hstep
    have huncalled := h.uncalled (by simpa using hcalled)
    refine ⟨fun hnot => ?_, h.unheard, hunheard rfl⟩
    have hrefused : service.pc .starter = .idle := by simpa using hnot
    obtain ⟨rfl, hidle⟩ := huncalled.call hservice hrefused
    exact ⟨hidle, huncalled.state, huncalled.stopped⟩
  | stop =>
    obtain ⟨-, hstep⟩ := Option.ite_none_left_eq_some.mp hstep
    obtain ⟨service, hservice, rfl⟩ := Option.map_eq_some_iff.mp hstep
    refine ⟨fun hnot => ?_, h.unheard, hunheard rfl⟩
    have huncalled := h.uncalled hnot
    have hrefused : service.pc .stopper = .idle := by
      by_contra haccepted
      exact huncalled.state (ABlockingService.World.running_of_step_call hservice haccepted)
    obtain ⟨rfl, hidle⟩ := huncalled.call hservice hrefused
    exact ⟨hidle, huncalled.state, huncalled.stopped⟩
  | nextStart answer =>
    have hcalled : w.called = true := by
      by_contra hnot
      have huncalled := h.uncalled (by simpa using hnot)
      rw [World.step, if_neg (by rw [huncalled.idle]; nofun), huncalled.not_next] at hstep
      cases hstep
    have hkeeps : w'.called = w.called ∧ w'.stopped = w.stopped ∧ w'.entered = w.entered := by
      rw [World.step] at hstep
      split at hstep
      · rw [nextLoop] at hstep
        split at hstep
        · obtain rfl := Option.some.inj hstep
          exact ⟨rfl, rfl, rfl⟩
        · obtain ⟨service, hservice, rfl⟩ := Option.map_eq_some_iff.mp hstep
          exact ⟨rfl, rfl, rfl⟩
        · obtain rfl := Option.some.inj hstep
          exact ⟨rfl, rfl, rfl⟩
        · obtain rfl := Option.some.inj hstep
          exact ⟨rfl, rfl, if_neg (by rw [hstopped]; nofun)⟩
        · obtain ⟨service, hservice, rfl⟩ := Option.map_eq_some_iff.mp hstep
          exact ⟨rfl, rfl, rfl⟩
      · obtain ⟨service, hservice, rfl⟩ := Option.map_eq_some_iff.mp hstep
        exact ⟨rfl, rfl, rfl⟩
    refine ⟨fun hnot => ?_, fun _ => hkeeps.2.2.trans (h.unheard hstopped), hunheard hkeeps.2.1⟩
    rw [hkeeps.1, hcalled] at hnot
    cases hnot
  | nextStop =>
    have hcalled : w.called = true := by
      by_contra hnot
      have huncalled := h.uncalled (by simpa using hnot)
      rw [World.step, if_neg (by rw [huncalled.idle]; nofun), huncalled.not_next] at hstep
      cases hstep
    rw [World.step] at hstep
    split at hstep
    · next hpc =>
      obtain ⟨service, hservice, rfl⟩ := Option.map_eq_some_iff.mp hstep
      have hentered := h.unheard hstopped
      refine ⟨fun hnot => ?_, fun hnot => Bool.noConfusion hnot, fun _ => ?_⟩
      · exact absurd hnot (by simp [hcalled])
      · refine ⟨rfl, hcalled, rfl, hentered.le.trans (Nat.zero_le 1), fun hstill => ?_⟩
        have hstarting : w.Starting := by
          rw [Starting, ← ABlockingService.World.next_pc_of_ne hservice (d := .starter) nofun]
          exact hstill
        refine ⟨horder hpc hstarting, ?_⟩
        change w.entered + st.budget w.loop ≤ 1
        rw [hentered, Nat.zero_add]
        exact st.budget_le w.loop
    · obtain ⟨service, hservice, rfl⟩ := Option.map_eq_some_iff.mp hstep
      refine ⟨fun hnot => ?_, h.unheard, hunheard rfl⟩
      exact absurd hnot (by simp [hcalled])

theorem Sound.stopsLoop {st : Stages l} (h : Sound st w) : StopsLoop l w where
  entered := by
    cases hstopped : w.stopped with
    | true => exact (h.heard hstopped).entered
    | false => exact (h.unheard hstopped).le.trans (Nat.zero_le 1)
  returns := fun hstopped as w' hrun hstill => by
    have hkeep : ∀ (v : World π) a v', Heard st v → v.step l a = some v' → Heard st v' :=
      fun _ _ _ hv hstep => (hv.step hstep).1
    have hfall : ∀ (v : World π) a v', Heard st v → v.step l a = some v' → v'.Starting →
        v.Starting ∧ left st v' + (if Action.starts a then 1 else 0) ≤ left st v :=
      fun _ _ _ hv hstep => (hv.step hstep).2
    obtain ⟨-, hle⟩ := Transition.countP_add_rank_le hkeep hfall (h.heard hstopped) hrun hstill
    have hpending : ∀ pc : Pc, pending pc ≤ 2 := fun pc => by
      cases pc <;> simp [pending]
    calc as.countP Action.starts
        ≤ as.countP Action.starts + left st w' := Nat.le_add_right _ _
      _ ≤ left st w := hle
      _ ≤ 2 + 2 := Nat.add_le_add (hpending _) (st.rank_le _)

/-- The worlds of the runs in which no `on_stop` comes before the flag is written. -/
def ReachableInOrder (st : Stages l) (w : World π) : Prop :=
  Transition.Reaches (step l) (inOrder st) (Fresh l) w

def Reachable (l : LoopService π ρ) (w : World π) : Prop :=
  Transition.Reaches (step l) Transition.unrestricted (Fresh l) w

instance (st : Stages l) [DecidablePred st.before] (w : World π) :
    DecidablePred (w.inOrder st)
  | .nextStop => inferInstanceAs (Decidable (_ → w.Starting → ¬ st.before w.loop))
  | .start | .stop | .nextStart _ => .isTrue trivial

theorem exists_reachableInOrder (st : Stages l) [DecidablePred st.before] (hw : Fresh l w)
    (actions : List (Action ρ)) {P : World π → Prop} [DecidablePred P]
    (h : (Transition.runs (Transition.guarded (step l) fun v a => decide (v.inOrder st a)) w
      actions).any (fun v => decide (P v)) = true) :
    ∃ v, ReachableInOrder st v ∧ P v := by
  obtain ⟨v, hv, hp⟩ := @Transition.Reaches.exists_of_runs_guarded _ _ (step l) (Fresh l)
    _ _ _ P _ hw h
  exact ⟨v, hv.mono fun _ _ => of_decide_eq_true, hp⟩

theorem stopsLoop_of_reachableInOrder {st : Stages l} (h : ReachableInOrder st w) :
    StopsLoop l w := by
  have hsound : Sound st w := Transition.Reaches.invariant (I := Sound st)
    (fun _ hw => .fresh st hw) (fun _ _ _ hs horder hstep => hs.step horder hstep) h
  exact hsound.stopsLoop

theorem exists_reachable (hw : Fresh l w) (actions : List (Action ρ)) {P : World π → Prop}
    [DecidablePred P]
    (h : (Transition.runs (step l) w actions).any (fun v => decide (P v)) = true) :
    ∃ v, Reachable l v ∧ P v :=
  Transition.Reaches.exists_of_runs hw h

/-- From here the steps of the starting thread alone enter the body twice. -/
def Loses (l : LoopService π ρ) (w : World π) : Prop :=
  ∃ answers : List ρ, ∃ w', Transition.runs (step l) w (answers.map .nextStart) = some w' ∧
    w'.entered = w.entered + 2

/-- A step of `on_start` that leaves the record. -/
theorem Loses.of_next {answer : ρ} (hpc : w.service.pc .starter = .onStart)
    (hnext : w.nextLoop l answer = some w') (hentered : w'.entered = w.entered) (h : Loses l w') :
    Loses l w := by
  obtain ⟨answers, v, hrun, hv⟩ := h
  refine ⟨answer :: answers, v, ?_, hv.trans (by rw [hentered])⟩
  rw [List.map_cons, Transition.runs_cons, step, if_pos hpc, hnext]
  exact hrun

end World

end LoopService

end Sihd.Util
