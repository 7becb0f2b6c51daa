import Sihd.Lib.ActiveTime
import Sihd.Util.Scheduler.Conservation

/-!
# Delays, starts and pauses

The `run_in` of a task counts from its addition, or from the start for a task
added before it, and a pause should not count. A `Chronicle` is a world with
the instants that this is measured by: `start` is the instant a delay counts
from, `given` the instant a task was added with, and `pauses` the pauses that
`resume` has ended. `_resume_tasks` moves every delayed task of the map by the
length of one stored pause, whatever the task saw of it, and `keepsDelays` says
when this is right: in the runs made of such calls every delay is exact.
-/

namespace Sihd.Util

/-- A one-shot task with a delay. -/
def Task.delayed (task : Task) : Bool :=
  decide (0 < task.runIn) && decide (task.rescheduleTime ≤ 0)

/-- A one-shot task with an instant only. -/
def Task.dated (task : Task) : Bool :=
  decide (task.runIn ≤ 0) && decide (task.rescheduleTime ≤ 0)

namespace Scheduler

open World

namespace World

/-- A pause has begun and `_resume_tasks` has not ended it yet. -/
def pauseOpen (s : World) : Bool := s.scheduler.paused && !s.resuming

/-- The instant from which `_resume_tasks` counts the pause. -/
def pausedSince (s : World) : Int := max s.scheduler.beginRun s.scheduler.pausedTimeAt

/-- The tasks whose instant is set and that are not deleted. -/
def held (s : World) : List TaskPtr :=
  s.scheduler.taskMap.values ++ s.hand ++ s.scheduler.trashTaskList

end World

structure Chronicle where
  world : World
  start : TaskPtr → Int
  given : TaskPtr → Int
  pauses : List (Int × Int)

namespace Chronicle

def startAfter (c : Chronicle) : Action → TaskPtr → Int
  | .addTask task =>
      if c.world.scheduler.tasksPrepared
      then Function.update c.start task c.world.clock else c.start
  | .work =>
      if c.world.worker = .preparing then fun task =>
        if task ∈ c.world.scheduler.tasksToAdd
        then c.world.scheduler.beginRun else c.start task
      else c.start
  | _ => c.start

def givenAfter (c : Chronicle) : Action → TaskPtr → Int
  | .addTask task => Function.update c.given task (c.world.scheduler.heap task).runAt
  | _ => c.given

def pausesAfter (c : Chronicle) : Action → List (Int × Int)
  | .resumeTasks =>
      if c.world.scheduler.paused
      then c.pauses ++ [(c.world.scheduler.pausedTimeAt, c.world.clock)] else c.pauses
  | _ => c.pauses

/-- A step of the world, and its entry in the chronicle. -/
def step (c : Chronicle) (a : Action) : Option Chronicle :=
  (c.world.step a).map fun world =>
    { world := world
      start := c.startAfter a
      given := c.givenAfter a
      pauses := c.pausesAfter a }

def initial (heap : TaskPtr → Task) (noDelay : Bool) (clock : Int) : Chronicle where
  world := World.initial heap noDelay clock
  start := fun _ => 0
  given := fun _ => 0
  pauses := []

def IsInitial (c : Chronicle) : Prop :=
  ∃ heap noDelay clock, c = initial heap noDelay clock

/-- The call does no harm to the delays. A delayed task is not added in a
pause, unless at its first instant. A resume takes time only when the pause
does not begin at the instant 0, every delayed task in the map is still to
come when it begins and those that were taken were due before it, and it does
not come between the start of the worker and the preparation of the tasks. -/
def keepsDelays (c : Chronicle) : Action → Bool
  | .addTask task =>
      !(c.world.pauseOpen && c.world.scheduler.tasksPrepared &&
        (c.world.scheduler.heap task).delayed) ||
      c.world.clock == c.world.pausedSince
  | .resumeTasks =>
      !c.world.pauseOpen || c.world.clock == c.world.pausedSince ||
      if c.world.scheduler.tasksPrepared then
        c.world.scheduler.pausedTimeAt != 0 &&
        (c.world.scheduler.taskMap.values.all fun task =>
          !(c.world.scheduler.heap task).delayed ||
            decide (c.world.pausedSince ≤ (c.world.scheduler.heap task).runAt)) &&
        (c.world.hand ++ c.world.scheduler.trashTaskList).all fun task =>
          !(c.world.scheduler.heap task).delayed ||
            decide ((c.world.scheduler.heap task).runAt ≤ c.world.scheduler.pausedTimeAt)
      else c.world.worker != .preparing
  | .requestStop | .stopUnpause | .stopTasks => false
  | _ => true

/-- The states of the runs whose calls all pass the test `p`. -/
abbrev ReachableBy (p : Chronicle → Action → Bool) : Chronicle → Prop :=
  Transition.Reaches step (fun c a => p c a = true) IsInitial

theorem exists_reachableBy (p : Chronicle → Action → Bool) (heap : TaskPtr → Task)
    (noDelay : Bool) (clock : Int) (calls : List Action) {P : Chronicle → Prop}
    [DecidablePred P]
    (h : (Transition.runs (Transition.guarded step p) (initial heap noDelay clock)
      calls).any (fun c => decide (P c)) = true) :
    ∃ c, ReachableBy p c ∧ P c :=
  Transition.Reaches.exists_of_runs_guarded ⟨heap, noDelay, clock, rfl⟩ h

/-- The unpaused time from the start of the delay to the run instant. -/
def delay (c : Chronicle) (t : TaskPtr) : Int :=
  activeTime c.pauses (c.world.scheduler.heap t).runAt - activeTime c.pauses (c.start t)

/-! ### The clock and the phases of the worker -/

/-- How the recorded instants lie: the pauses that were ended are over, an open
one began after them, and nothing was held before the tasks were prepared. -/
structure Clocked (c : Chronicle) : Prop where
  begun : c.world.worker ≠ .created → c.world.scheduler.beginRun ≤ c.world.clock
  ended : EndedBy c.pauses c.world.clock
  endedAtStart : c.world.worker = .preparing →
    EndedBy c.pauses c.world.scheduler.beginRun
  opened : c.world.pauseOpen = true →
    c.world.scheduler.pausedTimeAt ≤ c.world.clock ∧
      EndedBy c.pauses c.world.scheduler.pausedTimeAt
  unprepared : c.world.scheduler.tasksPrepared = false →
    (c.world.worker = .created ∨ c.world.worker = .preparing) ∧ c.world.held = []
  prepared : c.world.scheduler.tasksPrepared = true →
    c.world.worker ≠ .created ∧ c.world.worker ≠ .preparing


theorem step_eq_some {c c' : Chronicle} {a : Action} (h : c.step a = some c') :
    c.world.step a = some c'.world ∧ c'.start = c.startAfter a ∧
      c'.given = c.givenAfter a ∧ c'.pauses = c.pausesAfter a := by
  obtain ⟨world, hstep, rfl⟩ := Option.map_eq_some_iff.mp h
  exact ⟨hstep, rfl, rfl, rfl⟩

end Chronicle

/-- The fields that the pauses work on. -/
def pauseFields (s : Scheduler) : Int × Int × Bool × Bool :=
  (s.beginRun, s.pausedTimeAt, s.paused, s.tasksPrepared)

@[simp] theorem refreshNextRun_pauseFields (s : Scheduler) :
    pauseFields s.refreshNextRun = pauseFields s := by
  unfold refreshNextRun
  split <;> rfl

theorem addTask_pauseFields (s : Scheduler) (now : Int) (task : TaskPtr) :
    pauseFields (s.addTask now task) = pauseFields s := by
  unfold addTask
  split
  · rw [unprotectedAddTaskToMap, refreshNextRun_pauseFields]
    rfl
  · rfl

theorem removeTask_pauseFields (s : Scheduler) (task : TaskPtr) :
    pauseFields (s.removeTask task).2 = pauseFields s := by
  simp only [removeTask]
  split
  · rw [refreshNextRun_pauseFields]
    rfl
  · rfl

theorem fileTask_pauseFields (s : Scheduler) (task : TaskPtr) (now : Int) :
    pauseFields (s.fileTask task now) = pauseFields s := by
  simp only [fileTask]
  split
  · rw [unprotectedAddTaskToMap, refreshNextRun_pauseFields]
    rfl
  · rfl

/-- Once the tasks are prepared, the worker leaves the fields of the pauses
alone. -/
theorem WorkerMove.phases {s s' : World} (h : WorkerMove s s') :
    (s.worker = .created ∧ s' = { s with
      scheduler := { s.scheduler with overruns := 0, beginRun := s.clock }
      worker := .preparing }) ∨
    (s.worker = .preparing ∧ s' = { s with
      scheduler := s.scheduler.prepareTasks, worker := .loop }) ∨
    ((s.worker ≠ .created ∧ s.worker ≠ .preparing) ∧
      (s'.worker ≠ .created ∧ s'.worker ≠ .preparing) ∧
      pauseFields s'.scheduler = pauseFields s.scheduler ∧ s'.clock = s.clock ∧
      s'.resuming = s.resuming) := by
  cases h with
  | start hpc => exact .inl ⟨hpc, rfl⟩
  | prepare hpc => exact .inr (.inl ⟨hpc, rfl⟩)
  | file task now hpc =>
      exact .inr (.inr ⟨by simp [hpc], by simp, fileTask_pauseFields _ _ _, rfl, rfl⟩)
  | enter hpc | leave hpc | unpaused hpc | tasked hpc | skipWait hpc | compute hpc
  | sleep _ hpc | wake _ hpc | pass hpc | retry hpc | read hpc | underflow _ hpc
  | take _ _ _ _ hpc | early _ _ hpc | run _ _ hpc | delete hpc =>
      exact .inr (.inr ⟨by simp [hpc], by simp, rfl, rfl, rfl⟩)

namespace Chronicle

theorem clocked_initial (heap : TaskPtr → Task) (noDelay : Bool) (clock : Int) :
    Clocked (initial heap noDelay clock) where
  begun h := absurd rfl h
  ended := endedBy_nil _
  endedAtStart h := by cases h
  opened h := by cases h
  unprepared _ := ⟨.inl rfl, rfl⟩
  prepared h := by cases h

/-- A step that leaves the fields of the pauses alone. -/
theorem Clocked.frame {c c' : Chronicle} (h : c.Clocked)
    (hpc : c'.world.worker = c.world.worker ∨
      (c.world.worker ≠ .created ∧ c.world.worker ≠ .preparing) ∧
        (c'.world.worker ≠ .created ∧ c'.world.worker ≠ .preparing))
    (hfields : pauseFields c'.world.scheduler = pauseFields c.world.scheduler)
    (hclock : c.world.clock ≤ c'.world.clock)
    (hresuming : c'.world.resuming = c.world.resuming)
    (hpauses : c'.pauses = c.pauses)
    (hheld : c.world.scheduler.tasksPrepared = false → c'.world.held = []) :
    c'.Clocked := by
  simp only [pauseFields, Prod.mk.injEq] at hfields
  obtain ⟨hbegin, hat, hpaused, hprepared⟩ := hfields
  have hopen : c'.world.pauseOpen = c.world.pauseOpen := by
    rw [pauseOpen, pauseOpen, hpaused, hresuming]
  refine ⟨?_, ?_, ?_, ?_, ?_, ?_⟩
  · intro hne
    rw [hbegin]
    have hold : c.world.worker ≠ .created := by
      rcases hpc with hsame | ⟨hold, _⟩
      · exact hsame ▸ hne
      · exact hold.1
    exact (h.begun hold).trans hclock
  · rw [hpauses]
    exact h.ended.mono hclock
  · intro hpreparing
    rw [hpauses, hbegin]
    rcases hpc with hsame | ⟨_, hnew⟩
    · exact h.endedAtStart (hsame ▸ hpreparing)
    · exact absurd hpreparing hnew.2
  · intro hnew
    obtain ⟨hle, hended⟩ := h.opened (hopen ▸ hnew)
    rw [hat, hpauses]
    exact ⟨hle.trans hclock, hended⟩
  · intro hnew
    rw [hprepared] at hnew
    refine ⟨?_, hheld hnew⟩
    rcases hpc with hsame | ⟨hold, _⟩
    · exact hsame ▸ (h.unprepared hnew).1
    · rcases (h.unprepared hnew).1 with hcreated | hpreparing
      · exact absurd hcreated hold.1
      · exact absurd hpreparing hold.2
  · intro hnew
    rw [hprepared] at hnew
    rcases hpc with hsame | ⟨_, hlate⟩
    · exact hsame ▸ h.prepared hnew
    · exact hlate

end Chronicle

theorem prepareTasks_pauseFields (s : Scheduler) :
    pauseFields s.prepareTasks = (s.beginRun, s.pausedTimeAt, s.paused, true) := by
  have hrefresh := refreshNextRun_pauseFields { s with
    heap := (s.tasksToAdd.foldl (prepareTask s.beginRun) (s.heap, s.taskMap)).1
    taskMap := (s.tasksToAdd.foldl (prepareTask s.beginRun) (s.heap, s.taskMap)).2 }
  simp only [pauseFields, Prod.mk.injEq] at hrefresh
  obtain ⟨hbegin, hat, hpaused, -⟩ := hrefresh
  simp [pauseFields, prepareTasks, hbegin, hat, hpaused]

theorem resumeTasks_pauseFields (s : Scheduler) (now : Int) :
    pauseFields (s.resumeTasks now) =
      (s.beginRun, if s.tasksPrepared then 0 else s.pausedTimeAt, s.paused,
        s.tasksPrepared) := by
  unfold resumeTasks
  split
  · rename_i hzero
    simp [pauseFields, hzero]
  split
  · rename_i hprepared
    simp [pauseFields, hprepared]
  · rename_i hprepared
    rw [refreshNextRun_pauseFields]
    simp [pauseFields, hprepared]

theorem resumeTasks_of_unprepared {s : Scheduler} (now : Int)
    (h : s.tasksPrepared = false) : s.resumeTasks now = s := by
  unfold resumeTasks
  simp [h]

namespace Chronicle

theorem Clocked.start {c : Chronicle} (h : c.Clocked)
    (hpc : c.world.worker = .created) :
    Clocked { c with world := { c.world with
      scheduler := { c.world.scheduler with overruns := 0, beginRun := c.world.clock }
      worker := .preparing } } where
  begun _ := le_rfl
  ended := h.ended
  endedAtStart _ := h.ended
  opened := h.opened
  unprepared hnew := by
    refine ⟨.inr rfl, ?_⟩
    simpa [held, hand, hpc] using (h.unprepared hnew).2
  prepared hnew := absurd hpc (h.prepared hnew).1

theorem Clocked.prepare {c : Chronicle} (h : c.Clocked)
    (hpc : c.world.worker = .preparing) (start : TaskPtr → Int) :
    Clocked { c with
      world := { c.world with
        scheduler := c.world.scheduler.prepareTasks, worker := .loop }
      start := start } := by
  have hfields := prepareTasks_pauseFields c.world.scheduler
  simp only [pauseFields, Prod.mk.injEq] at hfields
  obtain ⟨hbegin, hat, hpaused, hprepared⟩ := hfields
  refine ⟨?_, h.ended, by simp, ?_, by simp [hprepared], by simp⟩
  · intro _
    simp only [hbegin]
    exact h.begun (by simp [hpc])
  · intro hopen
    simp only [hat]
    exact h.opened (by simpa [pauseOpen, hpaused] using hopen)

theorem Clocked.resume {c : Chronicle} (h : c.Clocked)
    (hopen : c.world.pauseOpen = true)
    (ha : c.world.worker = .preparing → c.world.clock = c.world.pausedSince) :
    Clocked { c with
      world := { c.world with
        scheduler := c.world.scheduler.resumeTasks c.world.clock, resuming := true }
      pauses := c.pauses ++ [(c.world.scheduler.pausedTimeAt, c.world.clock)] } := by
  have hfields := resumeTasks_pauseFields c.world.scheduler c.world.clock
  simp only [pauseFields, Prod.mk.injEq] at hfields
  obtain ⟨hbegin, -, -, hprepared⟩ := hfields
  obtain ⟨hle, hended⟩ := h.opened hopen
  refine ⟨?_, ?_, ?_, by simp [pauseOpen], ?_, ?_⟩
  · simp only [hbegin]
    exact h.begun
  · exact h.ended.append_singleton (.inr ⟨hle, le_rfl⟩)
  · intro hpc
    simp only [hbegin]
    refine (h.endedAtStart hpc).append_singleton ?_
    have hclock := ha hpc
    rw [pausedSince] at hclock
    omega
  · simp only [hprepared]
    intro hnew
    simp only [resumeTasks_of_unprepared c.world.clock hnew]
    exact h.unprepared hnew
  · simp only [hprepared]
    exact h.prepared

theorem Clocked.pause {c : Chronicle} (h : c.Clocked) :
    Clocked { c with world := { c.world with
      scheduler := c.world.scheduler.pause c.world.clock } } := by
  simp only [Scheduler.pause]
  split
  · exact h
  · refine ⟨h.begun, h.ended, h.endedAtStart, ?_, h.unprepared, h.prepared⟩
    exact fun _ => ⟨le_rfl, h.ended⟩

theorem Clocked.resumed {c : Chronicle} (h : c.Clocked) :
    Clocked { c with world := { c.world with
      scheduler := { c.world.scheduler with paused := false }, resuming := false } } :=
  ⟨h.begun, h.ended, h.endedAtStart, by simp [pauseOpen], h.unprepared, h.prepared⟩

theorem Clocked.work {c c' : Chronicle} (h : c.Clocked) (hstep : c.step .work = some c') :
    c'.Clocked := by
  obtain ⟨hworld, hstart, hgiven, hpauses⟩ := step_eq_some hstep
  obtain ⟨world, start, given, pauses⟩ := c'
  simp only at hworld hstart hgiven hpauses
  rcases (workerMove_of_step hworld).phases with
    ⟨hpc, rfl⟩ | ⟨hpc, rfl⟩ | ⟨hold, hnew, hfields, hclock, hresuming⟩
  · rw [hstart, hgiven, hpauses]
    simpa [startAfter, givenAfter, pausesAfter, hpc] using h.start hpc
  · rw [hgiven, hpauses]
    exact h.prepare hpc start
  · refine h.frame (.inr ⟨hold, hnew⟩) hfields hclock.ge hresuming hpauses ?_
    intro hunprepared
    rcases (h.unprepared hunprepared).1 with hcreated | hpreparing
    · exact absurd hcreated hold.1
    · exact absurd hpreparing hold.2

theorem step_clocked {c c' : Chronicle} {a : Action} (h : c.Clocked)
    (ha : c.keepsDelays a = true) (hstep : c.step a = some c') : c'.Clocked := by
  obtain ⟨world, hworld, rfl⟩ := Option.map_eq_some_iff.mp hstep
  cases move_of_step hworld with
  | work hmove => exact h.work hstep
  | addTask task =>
      refine h.frame (.inl rfl) (addTask_pauseFields _ _ _) le_rfl rfl rfl ?_
      intro hunprepared
      simpa [held, hand, Scheduler.addTask, hunprepared] using (h.unprepared hunprepared).2
  | removeTask task =>
      refine h.frame (.inl rfl) (removeTask_pauseFields _ _) le_rfl rfl rfl ?_
      intro hunprepared
      have hheld := (h.unprepared hunprepared).2
      simp only [held, List.append_eq_nil_iff] at hheld ⊢
      obtain ⟨⟨hmap, hhand⟩, htrash⟩ := hheld
      have hnot : task ∉ c.world.scheduler.taskMap.values := by simp [hmap]
      refine ⟨⟨?_, hhand⟩, ?_⟩
      · simp [Scheduler.removeTask, Multimap.values_eraseFirst, hmap]
      · simpa [Scheduler.removeTask, hmap] using htrash
  | clearTrash =>
      refine h.frame (.inl rfl) rfl le_rfl rfl rfl ?_
      intro hunprepared
      have hheld := (h.unprepared hunprepared).2
      simp only [held, List.append_eq_nil_iff] at hheld ⊢
      exact ⟨hheld.1, rfl⟩
  | clearTasks hclearing =>
      refine h.frame (.inl rfl) rfl le_rfl rfl rfl ?_
      intro hunprepared
      have hheld := (h.unprepared hunprepared).2
      simp only [held, List.append_eq_nil_iff] at hheld ⊢
      exact ⟨⟨rfl, hheld.1.2⟩, hheld.2⟩
  | pause hlock => exact h.pause
  | resumeTasks hlock hpaused =>
      have hopen : c.world.pauseOpen = true := by simp [pauseOpen, hpaused, hlock]
      have hresume := h.resume hopen ?_
      · simpa [startAfter, givenAfter, pausesAfter, hpaused] using hresume
      · intro hpc
        have hunprepared : c.world.scheduler.tasksPrepared = false := by
          by_contra hprepared
          exact (h.prepared (by simpa using hprepared)).2 hpc
        simpa [keepsDelays, hopen, hunprepared, hpc] using ha
  | resumeRunning hlock hrunning =>
      simpa [startAfter, givenAfter, pausesAfter, hrunning] using h
  | resumed hlock => exact h.resumed
  | requestStop | stopUnpause | stopTasks => simp [keepsDelays] at ha
  | tick d =>
      refine h.frame (.inl rfl) rfl ?_ rfl rfl fun hunprepared => (h.unprepared hunprepared).2
      exact Int.le_add_of_nonneg_right (Int.natCast_nonneg d)

end Chronicle

end Scheduler

end Sihd.Util
