import Sihd.Util.Collector

/-!
# The loop of a poll

`on_start` polls until it is stopped or a poll fails. It runs once the poll has a timeout.

A poll and a collector hear the stops that come after they have written their flag.
-/

namespace Sihd.Sys.Poll

open Sihd.Util

/-- Where `on_start` is, with the result of the last poll where the loop is entered again. -/
inductive Pc where
  | entered
  | ready
  | looping (ret : Int)
  | polling
  deriving DecidableEq

/-- `answer` is the result of the poll that is made. -/
def onStart (timeoutMilliseconds : Int) (pc : Pc) (stop : Bool) (answer : Int) : LoopStep Pc :=
  match pc with
  | .entered => if timeoutMilliseconds < 0 then .return false else .setReady .ready
  | .ready => .write false (.looping 0)
  | .looping ret => if 0 ≤ ret ∧ stop = false then .enter .polling else .return (decide (0 ≤ ret))
  | .polling => .goto (.looping answer)

def loopService (timeoutMilliseconds : Int) : LoopService Pc Int where
  entry := .entered
  next := onStart timeoutMilliseconds
  stopFlag := true

/-- The places from which `on_start` goes on to write the flag. -/
def Pc.BeforeFlag (timeoutMilliseconds : Int) : Pc → Prop
  | .entered => 0 ≤ timeoutMilliseconds
  | .ready => True
  | .looping _ | .polling => False

/-- A stop that comes in the body is read at the next turn. -/
theorem onStart_stopped {timeoutMilliseconds answer : Int} {pc : Pc}
    (hpc : ¬ pc.BeforeFlag timeoutMilliseconds) :
    (∃ ret, onStart timeoutMilliseconds pc true answer = .return ret) ∨
      pc = .polling ∧ onStart timeoutMilliseconds pc true answer = .goto (.looping answer) := by
  cases pc with
  | entered =>
    refine .inl ⟨false, ?_⟩
    simp only [onStart, if_pos (Int.not_le.mp hpc)]
  | ready => exact absurd trivial hpc
  | looping ret =>
    refine .inl ⟨decide (0 ≤ ret), ?_⟩
    simp only [onStart, Bool.true_eq_false, and_false, if_false]
  | polling => exact .inr ⟨rfl, rfl⟩

def stages (timeoutMilliseconds : Int) : LoopService.Stages (loopService timeoutMilliseconds) where
  before := Pc.BeforeFlag timeoutMilliseconds
  budget := fun _ => 0
  rank := fun pc => if pc = .polling then 1 else 0
  budget_le := fun _ => Nat.zero_le 1
  rank_le := fun pc => by split <;> decide
  goto := fun {pc pc' answer} hpc hnext => by
    rcases onStart_stopped hpc with ⟨ret, hret⟩ | ⟨rfl, hgoto⟩
    · cases hret.symm.trans hnext
    · obtain rfl := LoopStep.goto.inj (hgoto.symm.trans hnext)
      exact ⟨id, Nat.le_refl 0, Nat.zero_lt_one⟩
  enter := fun {pc pc' answer} hpc hnext => by
    rcases onStart_stopped hpc with ⟨ret, hret⟩ | ⟨rfl, hgoto⟩
    · cases hret.symm.trans hnext
    · cases hgoto.symm.trans hnext
  setReady := fun {pc pc' answer} hpc hnext => by
    rcases onStart_stopped hpc with ⟨ret, hret⟩ | ⟨rfl, hgoto⟩
    · cases hret.symm.trans hnext
    · cases hgoto.symm.trans hnext
  write := fun {pc pc' flag answer} hpc hnext => by
    rcases onStart_stopped hpc with ⟨ret, hret⟩ | ⟨rfl, hgoto⟩
    · cases hret.symm.trans hnext
    · cases hgoto.symm.trans hnext

instance (timeoutMilliseconds : Int) : DecidablePred (Pc.BeforeFlag timeoutMilliseconds)
  | .entered => inferInstanceAs (Decidable (0 ≤ timeoutMilliseconds))
  | .ready => .isTrue trivial
  | .looping _ | .polling => .isFalse id

instance (timeoutMilliseconds : Int) : DecidablePred (stages timeoutMilliseconds).before :=
  inferInstanceAs (DecidablePred (Pc.BeforeFlag timeoutMilliseconds))

/-- The condition on a stop leaves out only those that are lost: `on_start` writes its flag over
that of the stop and loops. -/
theorem loses_of_beforeFlag {timeoutMilliseconds : Int} {w : LoopService.World Pc}
    (hpc : w.service.pc .starter = .onStart) (hstopped : w.stopped = true)
    (hloop : w.loop.BeforeFlag timeoutMilliseconds) :
    LoopService.World.Loses (loopService timeoutMilliseconds) w := by
  have hready : ∀ v : LoopService.World Pc, v.service.pc .starter = .onStart →
      v.stopped = true → v.loop = .ready →
        LoopService.World.Loses (loopService timeoutMilliseconds) v := by
    rintro ⟨service, flag, loop, called, stopCalled, stopped, entered⟩ hv rfl rfl
    change service.pc .starter = .onStart at hv
    refine ⟨List.replicate 4 0, ⟨service, false, .polling, called, stopCalled, true,
      entered + 2⟩, ?_, rfl⟩
    simp [Transition.runs_cons, LoopService.World.step, LoopService.World.nextLoop, loopService,
      onStart, List.replicate, hv]
  cases hplace : w.loop with
  | entered =>
    rw [hplace] at hloop
    have hnext : w.nextLoop (loopService timeoutMilliseconds) 0 = some { w with
        service := { w.service with ready := true }, loop := .ready } := by
      rw [LoopService.World.nextLoop, hplace]
      simp only [loopService, onStart, if_neg (Int.not_lt.mpr hloop)]
      rw [ABlockingService.World.step, hpc]
      rfl
    exact .of_next hpc hnext rfl (hready _ hpc hstopped rfl)
  | ready => exact hready w hpc hstopped hplace
  | looping ret | polling =>
    rw [hplace] at hloop
    exact hloop.elim

section Stops

open LoopService.World (StopsLoop ReachableInOrder Reachable)

/-- In a run of a poll, and in one of a collector, whose `on_stop` comes after the flag is written,
the stop is heard. -/
theorem stopsLoop_poll_collector {timeoutMilliseconds : Int} {w : LoopService.World Pc}
    {v : LoopService.World Collector.Pc} (hw : ReachableInOrder (stages timeoutMilliseconds) w)
    (hv : ReachableInOrder Collector.stages v) :
    StopsLoop (loopService timeoutMilliseconds) w ∧ StopsLoop Collector.loopService v :=
  ⟨LoopService.World.stopsLoop_of_reachableInOrder hw,
    LoopService.World.stopsLoop_of_reachableInOrder hv⟩

/-- A poll is stopped in its body, and a collector before it asks its provider. -/
theorem stopsLoop_stopped : (∃ w : LoopService.World Pc, StopsLoop (loopService 10) w ∧
    w.stopped = true ∧ w.service.pc .starter = .started true ∧ w.entered = 0) ∧
      ∃ v : LoopService.World Collector.Pc, StopsLoop Collector.loopService v ∧
        v.stopped = true ∧ v.service.pc .starter = .started true ∧ v.entered = 1 := by
  obtain ⟨w, hw, hpoll⟩ := LoopService.World.exists_reachableInOrder (stages 10)
    (LoopService.World.fresh_init (loopService 10) false)
    [.start, .nextStart 0, .nextStart 0, .nextStart 0, .nextStart 0, .nextStart 0, .stop,
      .nextStop, .nextStart 1, .nextStart 0]
    (P := fun w => w.stopped = true ∧ w.service.pc .starter = .started true ∧ w.entered = 0)
    (by decide +kernel)
  obtain ⟨v, hv, hcollector⟩ := LoopService.World.exists_reachableInOrder Collector.stages
    (LoopService.World.fresh_init Collector.loopService false)
    [.start, .nextStart true, .nextStart true, .nextStart true, .nextStart true, .nextStart true,
      .stop, .nextStop, .nextStart true, .nextStart true, .nextStart true]
    (P := fun v => v.stopped = true ∧ v.service.pc .starter = .started true ∧ v.entered = 1)
    (by decide +kernel)
  have hboth := stopsLoop_poll_collector hw hv
  exact ⟨⟨w, hboth.1, hpoll⟩, v, hboth.2, hcollector⟩

/-- The stops fall between `service_set_ready` and the write of the flag. -/
theorem not_stopsLoop_early :
    (¬ ∀ w : LoopService.World Pc, Reachable (loopService 10) w → StopsLoop (loopService 10) w) ∧
      ¬ ∀ v : LoopService.World Collector.Pc, Reachable Collector.loopService v →
        StopsLoop Collector.loopService v := by
  constructor
  · intro h
    obtain ⟨w, hw, hentered⟩ := LoopService.World.exists_reachable
      (LoopService.World.fresh_init (loopService 10) false)
      [.start, .nextStart 0, .nextStart 0, .nextStart 0, .stop, .nextStop, .nextStart 0,
        .nextStart 0, .nextStart 0, .nextStart 0]
      (P := fun w => ¬ w.entered ≤ 1) (by decide +kernel)
    exact hentered (h w hw).entered
  · intro h
    obtain ⟨v, hv, hentered⟩ := LoopService.World.exists_reachable
      (LoopService.World.fresh_init Collector.loopService false)
      [.start, .nextStart true, .nextStart true, .nextStart true, .stop, .nextStop,
        .nextStart true, .nextStart true, .nextStart true, .nextStart true, .nextStart true,
        .nextStart true]
      (P := fun v => ¬ v.entered ≤ 1) (by decide +kernel)
    exact hentered (h v hv).entered

end Stops

end Sihd.Sys.Poll
