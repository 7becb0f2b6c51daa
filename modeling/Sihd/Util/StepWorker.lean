import Mathlib.Data.Option.Basic
import Mathlib.Tactic.Common
import Sihd.Lib.Transition

/-!
# The step worker

`run` waits while it is paused, makes a step while the worker is started, sleeps, and waits again.
`pause_worker` and `resume_worker` are what they do under the mutex, and so is each test of a wait.
A wait that finds its predicate false sleeps until it is notified, until its time is over, or
without a reason.

The guarantees: a worker that is paused begins one more step at most, and so does one that is
stopped, in every run. A stop that joins the thread waits for one that sleeps in the wait on the
pause where this wait has found a pause that came after the stop had cleared it, and only there.
-/

namespace Sihd.Util.StepWorker

/-- Where `run` is. -/
inductive Pc where
  | setup
  /-- Both waits on the pause are followed by the test of the loop. -/
  | pauseTest
  | pauseAsleep
  | check
  /-- The worker was found started. -/
  | beginning
  | stepping
  | sleepTest
  | sleepAsleep
  | teardown
  | finished
  deriving DecidableEq

inductive StopPc where
  | idle
  | stopping
  | joining
  | returned
  deriving DecidableEq

/-- `pausedSteps` and `stoppedSteps` are the record: the steps begun since a pause, while nobody has
resumed or begun to stop the worker, and since `on_worker_stop` has returned. -/
structure World where
  started : Bool
  pause : Bool
  run : Pc
  stop : StopPc
  pausedSteps : Option Nat
  stoppedSteps : Option Nat

inductive Move where
  | pauseWorker
  | resumeWorker
  | stopWorker
  | nextStop
  /-- The next step of `run`; `answer` is what the method returns, or whether the time of the sleep
  is over. -/
  | next (answer : Bool)

/-- A wait that sleeps tests its predicate again. -/
def Pc.notified : Pc → Pc
  | .pauseAsleep => .pauseTest
  | .sleepAsleep => .sleepTest
  | pc => pc

namespace World

/-- The thread of a worker that was started, paused or not. -/
def init (pause : Bool) : World where
  started := true
  pause := pause
  run := .setup
  stop := .idle
  pausedSteps := none
  stoppedSteps := none

def pauseWorker (w : World) : World :=
  { w with pause := true, pausedSteps := some (w.pausedSteps.getD 0) }

def resumeWorker (w : World) : World :=
  { w with pause := false, run := w.run.notified, pausedSteps := none }

/-- `stop_worker` does nothing more for a worker that is not started. -/
def stopWorker (w : World) : World :=
  { w with
    started := false
    stop := if w.started then .stopping else .returned
    pausedSteps := none }

def nextStop (w : World) : Option World :=
  match w.stop with
  | .stopping => some { w.resumeWorker with stop := .joining, stoppedSteps := some 0 }
  | .joining => if w.run = .finished then some { w with stop := .returned } else none
  | .idle | .returned => none

def next (w : World) (answer : Bool) : Option World :=
  match w.run with
  | .setup => some { w with run := .pauseTest }
  | .pauseTest => some { w with run := if w.pause then .pauseAsleep else .check }
  | .pauseAsleep => some { w with run := .pauseTest }
  | .check => some { w with run := if w.started then .beginning else .teardown }
  | .beginning =>
    some { w with
      run := .stepping
      pausedSteps := w.pausedSteps.map (· + 1)
      stoppedSteps := w.stoppedSteps.map (· + 1) }
  | .stepping => some { w with run := if answer then .sleepTest else .teardown }
  | .sleepTest => some { w with run := if w.started then .sleepAsleep else .pauseTest }
  | .sleepAsleep => some { w with run := if answer then .pauseTest else .sleepTest }
  | .teardown => some { w with run := .finished }
  | .finished => none

def step (w : World) : Move → Option World
  | .pauseWorker => some w.pauseWorker
  | .resumeWorker => some w.resumeWorker
  | .stopWorker => if w.stop = .idle then some w.stopWorker else none
  | .nextStop => w.nextStop
  | .next answer => w.next answer

/-- A stop joins a thread that sleeps in the wait on the pause: the stop has notified it before. -/
def Hangs (w : World) : Prop := w.stop = .joining ∧ w.run = .pauseAsleep

/-- The worker obeys pauses and yields to the stop. -/
structure Obeys (w : World) : Prop where
  paused : ∀ n, w.pausedSteps = some n → n ≤ 1
  stopped : ∀ n, w.stoppedSteps = some n → n ≤ 1
  yields : ¬ w.Hangs

/-- The wait on the pause does not find it set again while the stop joins the thread. -/
def InOrder (w : World) : Move → Prop
  | .next _ => w.run = .pauseTest → w.stop = .joining → w.pause = false
  | _ => True

/-! ### Steps that may still begin -/

/-- The steps that `run` begins before it tests the pause. -/
def beforePause : Pc → Nat
  | .check | .beginning => 1
  | _ => 0

/-- The steps that `run` begins before it finds that the worker is not started. -/
def beforeCheck : Pc → Nat
  | .beginning => 1
  | _ => 0

structure Inv (w : World) : Prop where
  paused : ∀ n, w.pausedSteps = some n → w.pause = true ∧ n + beforePause w.run ≤ 1
  stopping : w.stop ≠ .idle → w.started = false
  stopped : ∀ n, w.stoppedSteps = some n →
    w.started = false ∧ n + beforeCheck w.run ≤ 1

theorem inv_init (pause : Bool) : (init pause).Inv where
  paused := nofun
  stopping h := absurd rfl h
  stopped := nofun

theorem beforePause_le (pc : Pc) : beforePause pc ≤ 1 := by
  cases pc <;> decide

theorem beforeCheck_le (pc : Pc) : beforeCheck pc ≤ 1 := by
  cases pc <;> decide

theorem beforeCheck_notified (pc : Pc) : beforeCheck pc.notified = beforeCheck pc := by
  cases pc <;> rfl

variable {w w' : World}

theorem Inv.pauseWorker (h : w.Inv) : w.pauseWorker.Inv := by
  refine ⟨fun n hn => ⟨rfl, ?_⟩, h.stopping, h.stopped⟩
  obtain rfl := Option.some.inj hn
  cases hpaused : w.pausedSteps with
  | none => exact (Nat.zero_add _).symm ▸ beforePause_le w.run
  | some m => exact (h.paused m hpaused).2

theorem Inv.resumeWorker (h : w.Inv) : w.resumeWorker.Inv := by
  refine ⟨nofun, h.stopping, fun n hn => ⟨(h.stopped n hn).1, ?_⟩⟩
  change n + beforeCheck w.run.notified ≤ 1
  rw [beforeCheck_notified]
  exact (h.stopped n hn).2

theorem Inv.stopWorker (h : w.Inv) : w.stopWorker.Inv :=
  ⟨nofun, fun _ => rfl, fun n hn => ⟨rfl, (h.stopped n hn).2⟩⟩

theorem Inv.nextStop (h : w.Inv) (hstep : w.nextStop = some w') : w'.Inv := by
  rw [World.nextStop] at hstep
  split at hstep
  · rename_i hstop
    cases hstep
    have hstarted : w.started = false := h.stopping (by rw [hstop]; nofun)
    refine ⟨nofun, fun _ => hstarted, fun n hn => ⟨hstarted, ?_⟩⟩
    obtain rfl := Option.some.inj hn
    exact (Nat.zero_add _).symm ▸ beforeCheck_le _
  · rename_i hstop
    obtain ⟨-, heq⟩ := Option.ite_none_right_eq_some.mp hstep
    cases heq
    exact ⟨h.paused, fun _ => h.stopping (by rw [hstop]; nofun), h.stopped⟩
  · cases hstep
  · cases hstep

/-- A step of `run` that begins no step of the worker leaves no more of them. -/
theorem Inv.withRun (h : w.Inv) {pc : Pc}
    (hpause : w.pause = true → beforePause pc ≤ beforePause w.run)
    (hcheck : w.started = false → beforeCheck pc ≤ beforeCheck w.run) :
    World.Inv { w with run := pc } := by
  refine ⟨fun n hn => ?_, h.stopping, fun n hn => ?_⟩
  · obtain ⟨hpaused, hle⟩ := h.paused n hn
    exact ⟨hpaused, Nat.le_trans (Nat.add_le_add_left (hpause hpaused) n) hle⟩
  · obtain ⟨hstarted, hle⟩ := h.stopped n hn
    exact ⟨hstarted, Nat.le_trans (Nat.add_le_add_left (hcheck hstarted) n) hle⟩

theorem Inv.next (h : w.Inv) {answer : Bool} (hstep : w.next answer = some w') : w'.Inv := by
  rw [World.next] at hstep
  cases hrun : w.run with
  | setup | pauseAsleep | teardown =>
    rw [hrun] at hstep
    cases hstep
    exact h.withRun (fun _ => Nat.zero_le _) fun _ => Nat.zero_le _
  | pauseTest =>
    rw [hrun] at hstep
    cases hstep
    refine h.withRun (fun hpause => ?_) fun _ => ?_
    · rw [if_pos hpause]
      exact Nat.zero_le _
    · split <;> exact Nat.zero_le _
  | check =>
    rw [hrun] at hstep
    cases hstep
    refine h.withRun (fun _ => ?_) fun hstarted => ?_
    · rw [hrun]
      exact beforePause_le _
    · rw [if_neg (by rw [hstarted]; exact Bool.false_ne_true)]
      exact Nat.zero_le _
  | beginning =>
    rw [hrun] at hstep
    cases hstep
    refine ⟨fun n hn => ?_, h.stopping, fun n hn => ?_⟩
    · obtain ⟨m, hm, rfl⟩ := Option.map_eq_some_iff.mp hn
      have hpaused := h.paused m hm
      rw [hrun] at hpaused
      exact hpaused
    · obtain ⟨m, hm, rfl⟩ := Option.map_eq_some_iff.mp hn
      have hstopped := h.stopped m hm
      rw [hrun] at hstopped
      exact hstopped
  | stepping | sleepTest | sleepAsleep =>
    rw [hrun] at hstep
    cases hstep
    refine h.withRun (fun _ => ?_) fun _ => ?_
    · split <;> exact Nat.zero_le _
    · split <;> exact Nat.zero_le _
  | finished =>
    rw [hrun] at hstep
    cases hstep

theorem Inv.step (h : w.Inv) {m : Move} (hstep : w.step m = some w') : w'.Inv := by
  cases m with
  | pauseWorker =>
    cases hstep
    exact h.pauseWorker
  | resumeWorker =>
    cases hstep
    exact h.resumeWorker
  | stopWorker =>
    obtain ⟨-, heq⟩ := Option.ite_none_right_eq_some.mp hstep
    cases heq
    exact h.stopWorker
  | nextStop => exact h.nextStop hstep
  | next answer => exact h.next hstep

theorem Inv.obeys_iff (h : w.Inv) : w.Obeys ↔ ¬ w.Hangs := by
  refine ⟨Obeys.yields, fun hyields => ⟨fun n hn => ?_, fun n hn => ?_, hyields⟩⟩
  · exact Nat.le_trans (Nat.le_add_right n _) (h.paused n hn).2
  · exact Nat.le_trans (Nat.le_add_right n _) (h.stopped n hn).2

/-! ### Hangs -/

theorem notified_ne_pauseAsleep (pc : Pc) : pc.notified ≠ .pauseAsleep := by
  cases pc <;> decide

/-- A stop that has notified the thread hangs where the thread goes to sleep again. -/
theorem hangs_iff_of_step {m : Move} (h : ¬ w.Hangs) (hstep : w.step m = some w') :
    ¬ w'.Hangs ↔ w.InOrder m := by
  cases m with
  | pauseWorker =>
    cases hstep
    exact iff_of_true h trivial
  | resumeWorker =>
    cases hstep
    exact iff_of_true (fun hangs => notified_ne_pauseAsleep _ hangs.2) trivial
  | stopWorker =>
    obtain ⟨-, heq⟩ := Option.ite_none_right_eq_some.mp hstep
    cases heq
    refine iff_of_true (fun hangs => ?_) trivial
    have hjoining : (if w.started then StopPc.stopping else .returned) = .joining := hangs.1
    split at hjoining <;> cases hjoining
  | nextStop =>
    change w.nextStop = some w' at hstep
    rw [World.nextStop] at hstep
    split at hstep
    · cases hstep
      exact iff_of_true (fun hangs => notified_ne_pauseAsleep _ hangs.2) trivial
    · obtain ⟨-, heq⟩ := Option.ite_none_right_eq_some.mp hstep
      cases heq
      exact iff_of_true (fun hangs => nomatch hangs.1) trivial
    · cases hstep
    · cases hstep
  | next answer =>
    change w.next answer = some w' at hstep
    rw [World.next] at hstep
    rw [InOrder]
    cases hrun : w.run with
    | pauseTest =>
      rw [hrun] at hstep
      cases hstep
      rw [imp_iff_right rfl]
      cases hpause : w.pause with
      | false => exact iff_of_true (fun hangs => nomatch hangs.2) fun _ => rfl
      | true =>
        constructor
        · exact fun hyields hjoining => absurd ⟨hjoining, rfl⟩ hyields
        · rintro hcleared ⟨hjoining, -⟩
          exact Bool.noConfusion (hcleared hjoining)
    | setup | pauseAsleep | teardown | beginning =>
      rw [hrun] at hstep
      cases hstep
      exact iff_of_true (fun hangs => nomatch hangs.2) nofun
    | check | stepping | sleepTest | sleepAsleep =>
      rw [hrun] at hstep
      cases hstep
      refine iff_of_true (fun hangs => ?_) nofun
      have hasleep := hangs.2
      dsimp only at hasleep
      split at hasleep <;> cases hasleep
    | finished =>
      rw [hrun] at hstep
      cases hstep

/-- The worker obeys all along a run where each of its steps is in order, and in no other run. -/
theorem obeys_iff_inOrder (pause : Bool) (moves : List Move) :
    Transition.Along step (fun _ _ w' => Obeys w') (init pause) moves ↔
      Transition.Along step (fun w m _ => InOrder w m) (init pause) moves := by
  refine Transition.along_iff (I := fun w => w.Inv ∧ ¬ w.Hangs) (P := fun _ => True) ?_ ?_
    ⟨inv_init pause, fun hangs => nomatch hangs.1⟩ fun _ _ => trivial
  · exact fun w m w' _ ⟨hinv, _⟩ hstep hobeys => ⟨hinv.step hstep, hobeys.yields⟩
  · intro w m w' _ ⟨hinv, hyields⟩ hstep
    rw [(hinv.step hstep).obeys_iff]
    exact hangs_iff_of_step hyields hstep

/-- A pause comes between the end of `on_worker_stop` and the wait of `run` on the pause. -/
theorem not_obeys_pause : ¬ ∀ (pause : Bool) (moves : List Move),
    Transition.Along step (fun _ _ w' => Obeys w') (init pause) moves := by
  intro h
  have hobeys := (h false ([.next true, .next true, .next true, .next true, .stopWorker, .nextStop,
    .pauseWorker, .next true, .next true] ++ [.next true])).of_runs rfl rfl
  exact hobeys.yields ⟨rfl, rfl⟩

end World

end Sihd.Util.StepWorker
