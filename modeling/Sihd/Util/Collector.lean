import Sihd.Util.LoopService

/-!
# The loop of a collector

It collects while its provider provides, and waits for a while where that has no data.
-/

namespace Sihd.Util.Collector

/-- Where `on_start` is. -/
inductive Pc where
  | entered
  | ready
  /-- The condition of the loop: the flag, and whether the provider provides. -/
  | looping
  | asking
  /-- In the body: the provider provides its data, or the loop waits for it. -/
  | collecting
  deriving DecidableEq

/-- What the provider answers when it is asked whether it provides. -/
abbrev Providing := Bool

def onStart (pc : Pc) (running : Bool) (providing : Providing) : LoopStep Pc :=
  match pc with
  | .entered => .setReady .ready
  | .ready => .write true .looping
  | .looping => if running then .goto .asking else .return true
  | .asking => if providing then .enter .collecting else .return true
  | .collecting => .goto .looping

def loopService : LoopService Pc Providing where
  entry := .entered
  next := onStart
  stopFlag := false

/-- The places from which `on_start` goes on to write the flag. -/
def Pc.BeforeFlag : Pc → Prop
  | .entered | .ready => True
  | .looping | .asking | .collecting => False

instance : DecidablePred Pc.BeforeFlag
  | .entered | .ready => .isTrue trivial
  | .looping | .asking | .collecting => .isFalse id

/-- A stop that falls between the two parts of the condition lets the body be entered once more. -/
theorem onStart_stopped {providing : Providing} {pc : Pc} (hpc : ¬ pc.BeforeFlag) :
    (∃ ret, onStart pc false providing = .return ret) ∨
      (pc = .asking ∧ onStart pc false providing = .enter .collecting) ∨
        pc = .collecting ∧ onStart pc false providing = .goto .looping := by
  cases pc with
  | entered | ready => exact absurd trivial hpc
  | looping => exact .inl ⟨true, rfl⟩
  | asking =>
    cases providing with
    | true => exact .inr (.inl ⟨rfl, rfl⟩)
    | false => exact .inl ⟨true, rfl⟩
  | collecting => exact .inr (.inr ⟨rfl, rfl⟩)

def stages : LoopService.Stages loopService where
  before := Pc.BeforeFlag
  budget := fun pc => if pc = .asking then 1 else 0
  rank
    | .asking => 2
    | .collecting => 1
    | _ => 0
  budget_le := fun pc => by split <;> decide
  rank_le := fun pc => by cases pc <;> decide
  goto := fun {pc pc' providing} hpc hnext => by
    rcases onStart_stopped hpc with ⟨ret, hret⟩ | ⟨rfl, henter⟩ | ⟨rfl, hgoto⟩
    · cases hret.symm.trans hnext
    · cases henter.symm.trans hnext
    · obtain rfl := LoopStep.goto.inj (hgoto.symm.trans hnext)
      decide
  enter := fun {pc pc' providing} hpc hnext => by
    rcases onStart_stopped hpc with ⟨ret, hret⟩ | ⟨rfl, henter⟩ | ⟨rfl, hgoto⟩
    · cases hret.symm.trans hnext
    · obtain rfl := LoopStep.enter.inj (henter.symm.trans hnext)
      decide
    · cases hgoto.symm.trans hnext
  setReady := fun {pc pc' providing} hpc hnext => by
    rcases onStart_stopped hpc with ⟨ret, hret⟩ | ⟨rfl, henter⟩ | ⟨rfl, hgoto⟩
    · cases hret.symm.trans hnext
    · cases henter.symm.trans hnext
    · cases hgoto.symm.trans hnext
  write := fun {pc pc' flag providing} hpc hnext => by
    rcases onStart_stopped hpc with ⟨ret, hret⟩ | ⟨rfl, henter⟩ | ⟨rfl, hgoto⟩
    · cases hret.symm.trans hnext
    · cases henter.symm.trans hnext
    · cases hgoto.symm.trans hnext

/-- The condition on a stop leaves out only those that are lost: `on_start` writes its flag over
that of the stop and loops. -/
theorem loses_of_beforeFlag {w : LoopService.World Pc} (hpc : w.service.pc .starter = .onStart)
    (hstopped : w.stopped = true) (hloop : w.loop.BeforeFlag) :
    LoopService.World.Loses loopService w := by
  have hready : ∀ v : LoopService.World Pc, v.service.pc .starter = .onStart →
      v.stopped = true → v.loop = .ready → LoopService.World.Loses loopService v := by
    rintro ⟨service, flag, loop, called, stopCalled, stopped, entered⟩ hv rfl rfl
    change service.pc .starter = .onStart at hv
    refine ⟨List.replicate 6 true, ⟨service, true, .collecting, called, stopCalled, true,
      entered + 2⟩, ?_, rfl⟩
    simp [Transition.runs_cons, LoopService.World.step, LoopService.World.nextLoop, loopService,
      onStart, List.replicate, hv]
  cases hplace : w.loop with
  | entered =>
    have hnext : w.nextLoop loopService true = some { w with
        service := { w.service with ready := true }, loop := .ready } := by
      rw [LoopService.World.nextLoop, hplace]
      change ((w.service.step (.serviceSetReady .starter)).map fun service => _) = _
      rw [ABlockingService.World.step, hpc]
      rfl
    exact .of_next hpc hnext rfl (hready _ hpc hstopped rfl)
  | ready => exact hready w hpc hstopped hplace
  | looping | asking | collecting =>
    rw [hplace] at hloop
    exact hloop.elim

instance : DecidablePred stages.before := inferInstanceAs (DecidablePred Pc.BeforeFlag)

end Sihd.Util.Collector
