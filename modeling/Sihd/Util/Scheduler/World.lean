import Mathlib.Tactic.Common
import Sihd.Lib.Transition
import Sihd.Util.Scheduler.Definitions

/-!
# The scheduler among its clients

A `World` is a scheduler, the clock, the position of its worker in the loop of
`on_work_start` and what its clients are doing. A step is one section that
runs under a lock, one read of an atomic flag or of the clock, or the passing
of time, so a run is an interleaving of the calls of any number of clients with
the worker. The clients are anonymous: `clearing` counts those inside
`clear_tasks` between its two sections, and `resuming` says that one of them
holds the pause lock inside `resume`, after `_resume_tasks`.

The fields `added`, `removed` and `ran` are history: the pointers given to
`add_task`, the container entries that `remove_task` erased, and the pointers
whose `run` was called.
-/

namespace Sihd.Util.Scheduler

/-- Where the worker is. `select now` is the point where the clock was read and
`_get_playable_task` has not taken the lock yet; `timedWait wakeAt` is the
sleep of `wait_for`, which only `stop_requested` can end before `wakeAt`. -/
inductive WorkerPc
  | created
  | preparing
  | loop
  | waitResume
  | waitTask
  | computeWait
  | enterWait (duration : Int)
  | timedWait (wakeAt : Int)
  | check
  | readNow
  | select (now : Int)
  | playing (task : TaskPtr) (now : Int)
  | played (task : TaskPtr) (now : Int)
  | deleting
  | finished
  | undefined
  deriving DecidableEq

/-- How far `on_stop` and `on_work_stop` are. -/
inductive StopPhase
  | running
  | requested
  | unpaused
  | stopped
  deriving DecidableEq

structure World where
  scheduler : Scheduler
  clock : Int
  worker : WorkerPc
  stop : StopPhase
  clearing : Nat
  resuming : Bool
  added : List TaskPtr
  removed : List TaskPtr
  ran : List TaskPtr

inductive Action
  | addTask (task : TaskPtr)
  | removeTask (task : TaskPtr)
  | clearTrash
  | clearTasks
  | pause
  | resumeTasks
  | resumed
  | requestStop
  | stopUnpause
  | stopTasks
  | tick (d : Nat)
  | work
  deriving DecidableEq

namespace World

def initial (heap : TaskPtr → Task) (noDelay : Bool) (clock : Int) : World where
  scheduler := Scheduler.create heap noDelay
  clock := clock
  worker := .created
  stop := .running
  clearing := 0
  resuming := false
  added := []
  removed := []
  ran := []

def stopRequested (s : World) : Bool := s.stop != .running

/-- The task in the worker's hand, from its removal from the map until it is
filed again. -/
def hand (s : World) : List TaskPtr :=
  match s.worker with
  | .playing task _ => [task]
  | .played task _ => [task]
  | _ => []

/-- The entries that `remove_task` erases. -/
def erasedBy (s : Scheduler) (task : TaskPtr) : List TaskPtr :=
  (if s.tasksToAdd.contains task then [task] else []) ++
    (if s.taskMap.values.contains task then [task] else [])

/-- The next step of the worker, when it is not blocked. -/
def workerStep (s : World) : Option World :=
  match s.worker with
  | .created =>
      some { s with
        scheduler := { s.scheduler with overruns := 0, beginRun := s.clock }
        worker := .preparing }
  | .preparing =>
      some { s with scheduler := s.scheduler.prepareTasks, worker := .loop }
  | .loop =>
      some { s with worker := if s.stopRequested then .finished else .waitResume }
  | .waitResume =>
      if s.resuming = false ∧ (s.stopRequested ∨ s.scheduler.paused = false)
      then some { s with worker := .waitTask } else none
  | .waitTask =>
      if s.stopRequested ∨ s.scheduler.taskMap.entries ≠ []
      then some { s with worker := .computeWait } else none
  | .computeWait =>
      some { s with worker :=
        if s.scheduler.noDelay then .check
        else .enterWait (s.scheduler.nextRun - s.clock) }
  | .enterWait duration =>
      some { s with worker := .timedWait (s.clock + duration) }
  | .timedWait wakeAt =>
      if s.stopRequested ∨ wakeAt ≤ s.clock
      then some { s with worker := .check } else none
  | .check =>
      some { s with worker :=
        if s.stopRequested = false ∧ s.scheduler.paused = false
        then .readNow else .loop }
  | .readNow => some { s with worker := .select s.clock }
  | .select now =>
      match s.scheduler.getPlayableTask now with
      | none => some { s with worker := .undefined }
      | some (scheduler, some task) =>
          some { s with scheduler := scheduler, worker := .playing task now }
      | some (scheduler, none) =>
          some { s with scheduler := scheduler, worker := .deleting }
  | .playing task now =>
      some { s with ran := s.ran ++ [task], worker := .played task now }
  | .played task now =>
      some { s with scheduler := s.scheduler.fileTask task now, worker := .deleting }
  | .deleting =>
      some { s with scheduler := s.scheduler.deleteTrashedTasks, worker := .loop }
  | .finished => none
  | .undefined => none

def step (s : World) : Action → Option World
  | .addTask task =>
      some { s with
        scheduler := s.scheduler.addTask s.clock task
        added := s.added ++ [task] }
  | .removeTask task =>
      some { s with
        scheduler := (s.scheduler.removeTask task).2
        removed := s.removed ++ erasedBy s.scheduler task }
  | .clearTrash =>
      some { s with
        scheduler := s.scheduler.deleteTrashedTasks
        clearing := s.clearing + 1 }
  | .clearTasks =>
      if 0 < s.clearing then
        some { s with scheduler := s.scheduler.clearTasks, clearing := s.clearing - 1 }
      else none
  | .pause =>
      if s.resuming then none
      else some { s with scheduler := s.scheduler.pause s.clock }
  | .resumeTasks =>
      -- a resume that finds the scheduler running returns at once
      if s.resuming then none
      else if s.scheduler.paused then
        some { s with scheduler := s.scheduler.resumeTasks s.clock, resuming := true }
      else some s
  | .resumed =>
      if s.resuming then
        some { s with
          scheduler := { s.scheduler with paused := false }
          resuming := false }
      else none
  | .requestStop =>
      if s.stop = .running then some { s with stop := .requested } else none
  | .stopUnpause =>
      if s.stop = .requested ∧ s.resuming = false then
        some { s with
          scheduler := { s.scheduler with paused := false }
          stop := .unpaused }
      else none
  | .stopTasks =>
      if s.stop = .unpaused then
        some { s with scheduler := { s.scheduler with beginRun := 0 }, stop := .stopped }
      else none
  | .tick d => some { s with clock := s.clock + d }
  | .work => s.workerStep

/-- `s` is a constructed scheduler whose clients have not called it yet. -/
def IsInitial (s : World) : Prop :=
  ∃ heap noDelay clock, s = initial heap noDelay clock

/-- The states of every run. -/
abbrev Reachable : World → Prop :=
  Transition.Reaches step Transition.unrestricted IsInitial

/-- The states of the runs whose calls all pass the test `p`. -/
abbrev ReachableBy (p : World → Action → Bool) : World → Prop :=
  Transition.Reaches step (fun s a => p s a = true) IsInitial

/-- An evaluated run shows a reachable state. -/
theorem exists_reachable (heap : TaskPtr → Task) (noDelay : Bool) (clock : Int)
    (calls : List Action) {P : World → Prop} [DecidablePred P]
    (h : (Transition.runs step (initial heap noDelay clock) calls).any
      (fun s => decide (P s)) = true) :
    ∃ s, Reachable s ∧ P s :=
  Transition.Reaches.exists_of_runs ⟨heap, noDelay, clock, rfl⟩ h

theorem exists_reachableBy (p : World → Action → Bool) (heap : TaskPtr → Task)
    (noDelay : Bool) (clock : Int) (calls : List Action) {P : World → Prop}
    [DecidablePred P]
    (h : (Transition.runs (Transition.guarded step p) (initial heap noDelay clock)
      calls).any (fun s => decide (P s)) = true) :
    ∃ s, ReachableBy p s ∧ P s :=
  Transition.Reaches.exists_of_runs_guarded ⟨heap, noDelay, clock, rfl⟩ h

/-- The containers that may hold a task, and the worker's hand. -/
def places (s : World) : List TaskPtr :=
  s.scheduler.tasksToAdd ++ s.scheduler.taskMap.values ++ s.hand ++
    s.scheduler.trashTaskList

end World

end Sihd.Util.Scheduler
