import Mathlib.Data.List.Count
import Mathlib.Logic.Function.Basic
import Sihd.Lib.Multimap

/-!
# The scheduler's state and its critical sections

A `Scheduler` owns the tasks it was given: they wait in `tasksToAdd` until the
worker prepares them, then in `taskMap` under their run instant, and those that
are over wait in `trashTaskList` to be deleted. Every function here is one
section of `Scheduler.cpp` that runs under the task lock, or the body of a
method that runs under the pause lock; the interleavings of these sections are
in `World.lean`. Instants and durations are nanoseconds.

The objects behind the task pointers live in `heap`, and `freed` lists the
pointers given to `delete`, in order.
-/

namespace Sihd.Util

/-- A task: `runAt` is its instant, `runIn` its delay after it was added, and
`rescheduleTime` the time between two plays. -/
structure Task where
  runAt : Int
  runIn : Int
  rescheduleTime : Int
  deriving DecidableEq

abbrev TaskPtr := Nat

/-- The fields of a scheduler, with the heap its tasks live in. -/
structure Scheduler where
  heap : TaskPtr → Task
  freed : List TaskPtr
  tasksToAdd : List TaskPtr
  taskMap : Multimap Int TaskPtr
  trashTaskList : List TaskPtr
  nextRun : Int
  beginRun : Int
  pausedTimeAt : Int
  paused : Bool
  tasksPrepared : Bool
  noDelay : Bool
  overruns : Nat
  overrunAt : Int
  acceptableTaskPreplay : Int

/-- `task->run_at = v`. -/
def setRunAt (heap : TaskPtr → Task) (task : TaskPtr) (v : Int) : TaskPtr → Task :=
  Function.update heap task { heap task with runAt := v }

@[simp] theorem setRunAt_self (heap : TaskPtr → Task) (task : TaskPtr) (v : Int) :
    setRunAt heap task v task = { heap task with runAt := v } := by
  simp [setRunAt]

theorem setRunAt_of_ne (heap : TaskPtr → Task) {task other : TaskPtr} (v : Int)
    (h : other ≠ task) : setRunAt heap task v other = heap other := by
  simp [setRunAt, h]

@[simp] theorem setRunAt_runIn (heap : TaskPtr → Task) (task other : TaskPtr)
    (v : Int) : (setRunAt heap task v other).runIn = (heap other).runIn := by
  by_cases h : other = task
  · simp [h]
  · rw [setRunAt_of_ne heap v h]

@[simp] theorem setRunAt_rescheduleTime (heap : TaskPtr → Task)
    (task other : TaskPtr) (v : Int) :
    (setRunAt heap task v other).rescheduleTime = (heap other).rescheduleTime := by
  by_cases h : other = task
  · simp [h]
  · rw [setRunAt_of_ne heap v h]

namespace Scheduler

/-- The constructed scheduler, before any call, over the tasks of `heap`. -/
def create (heap : TaskPtr → Task) (noDelay : Bool) : Scheduler where
  heap := heap
  freed := []
  tasksToAdd := []
  taskMap := Multimap.empty
  trashTaskList := []
  nextRun := 0
  beginRun := 0
  pausedTimeAt := 0
  paused := false
  tasksPrepared := false
  noDelay := noDelay
  overruns := 0
  overrunAt := 300000
  acceptableTaskPreplay := 100

/-- `if (_task_map.empty() == false) _next_run = _task_map.begin()->first`. -/
def refreshNextRun (s : Scheduler) : Scheduler :=
  match s.taskMap.begin? with
  | some e => { s with nextRun := e.1 }
  | none => s

def unprotectedAddTaskToMap (s : Scheduler) (task : TaskPtr) : Scheduler :=
  { s with taskMap := s.taskMap.emplace (s.heap task).runAt task }.refreshNextRun

/-- `add_task`: `now` is the clock inside the section. -/
def addTask (s : Scheduler) (now : Int) (task : TaskPtr) : Scheduler :=
  if s.tasksPrepared then
    let heap := if 0 < (s.heap task).runIn
      then setRunAt s.heap task (now + (s.heap task).runIn) else s.heap
    { s with heap := heap }.unprotectedAddTaskToMap task
  else
    { s with tasksToAdd := s.tasksToAdd ++ [task] }

/-- `remove_task`, with the value it returns. -/
def removeTask (s : Scheduler) (task : TaskPtr) : Bool × Scheduler :=
  let inToAdd := s.tasksToAdd.contains task
  let inMap := s.taskMap.values.contains task
  let s' := { s with
    tasksToAdd := s.tasksToAdd.erase task
    taskMap := s.taskMap.eraseFirst (· == task) }
  (inToAdd || inMap, if inMap then s'.refreshNextRun else s')

def deleteTrashedTasks (s : Scheduler) : Scheduler :=
  { s with freed := s.freed ++ s.trashTaskList, trashTaskList := [] }

/-- The section of `clear_tasks` that follows `_delete_trashed_tasks`. -/
def clearTasks (s : Scheduler) : Scheduler :=
  { s with
    freed := s.freed ++ s.tasksToAdd ++ s.taskMap.values
    tasksToAdd := []
    taskMap := Multimap.empty }

/-- One turn of the loops of `_prepare_tasks` and `_resume_tasks`: a task with a
`run_in` gets the instant `newRunAt` gives it, then the task is put into the
map being built. -/
def rekeyTask (newRunAt : Task → Int) (acc : (TaskPtr → Task) × Multimap Int TaskPtr)
    (task : TaskPtr) : (TaskPtr → Task) × Multimap Int TaskPtr :=
  let heap := if 0 < (acc.1 task).runIn
    then setRunAt acc.1 task (newRunAt (acc.1 task)) else acc.1
  (heap, acc.2.emplace (heap task).runAt task)

def prepareTask (beginRun : Int) :=
  rekeyTask fun task => beginRun + task.runIn

def prepareTasks (s : Scheduler) : Scheduler :=
  let acc := s.tasksToAdd.foldl (prepareTask s.beginRun) (s.heap, s.taskMap)
  { { s with heap := acc.1, taskMap := acc.2 }.refreshNextRun with
    tasksToAdd := []
    tasksPrepared := true }

/-- The task may be played at `now`: it is near its instant, or the scheduler
plays without delay. -/
def ready (s : Scheduler) (task : TaskPtr) (now : Int) : Bool :=
  s.noDelay || (s.heap task).runAt - now - s.acceptableTaskPreplay ≤ 0

/-- `_get_playable_task`. It reads `_task_map.begin()` without a test: `none`
is the read of an empty map, which has no defined result. -/
def getPlayableTask (s : Scheduler) (now : Int) : Option (Scheduler × Option TaskPtr) :=
  match s.taskMap.begin? with
  | none => none
  | some (_, task) =>
      let diff := (s.heap task).runAt - now
      let s' := if 0 < (s.heap task).runAt ∧ s.overrunAt < -diff
        then { s with overruns := s.overruns + 1 } else s
      if s.ready task now then
        some ({ s' with taskMap := s.taskMap.eraseBegin }, some task)
      else
        some (s', none)

/-- What `_play_task` does once `task->run()` has returned: reschedule the task
or put it in the trash. -/
def fileTask (s : Scheduler) (task : TaskPtr) (now : Int) : Scheduler :=
  if 0 < (s.heap task).rescheduleTime then
    let runAt := if (s.heap task).runAt = 0 then now else (s.heap task).runAt
    { s with
      heap := setRunAt s.heap task (runAt + (s.heap task).rescheduleTime)
    }.unprotectedAddTaskToMap task
  else
    { s with trashTaskList := s.trashTaskList ++ [task] }

def pause (s : Scheduler) (now : Int) : Scheduler :=
  if s.paused then s else { s with paused := true, pausedTimeAt := now }

def resumeTask (pausedTime : Int) :=
  rekeyTask fun task => task.runAt + pausedTime

/-- The duration `_resume_tasks` moves the tasks by at the instant `now`. -/
def pausedTime (s : Scheduler) (now : Int) : Int :=
  now - max s.beginRun s.pausedTimeAt

def resumeTasks (s : Scheduler) (now : Int) : Scheduler :=
  if s.pausedTimeAt = 0 then s
  else if s.tasksPrepared = false then s
  else
    let acc := s.taskMap.values.foldl (resumeTask (s.pausedTime now))
      (s.heap, Multimap.empty)
    { s with heap := acc.1, taskMap := acc.2, pausedTimeAt := 0 }.refreshNextRun

end Scheduler

end Sihd.Util

/-!
## Filing a list of tasks into the map

`_prepare_tasks` and `_resume_tasks` are the same loop: every task of a list
may get a new run instant and is then put into the map under it. The loop puts
exactly the tasks of its list into the map, changes the instants of these tasks
only, and files a task that it meets once under the instant it leaves it with.
-/

namespace Sihd.Util.Scheduler

/-- The task that `rekeyTask` leaves behind. -/
def rekeyed (newRunAt : Task → Int) (task : Task) : Task :=
  if 0 < task.runIn then { task with runAt := newRunAt task } else task

theorem rekeyTask_heap_self (f : Task → Int)
    (acc : (TaskPtr → Task) × Multimap Int TaskPtr) (task : TaskPtr) :
    (rekeyTask f acc task).1 task = rekeyed f (acc.1 task) := by
  by_cases h : 0 < (acc.1 task).runIn <;> simp [rekeyTask, rekeyed, h]

theorem rekeyTask_heap_of_ne (f : Task → Int)
    (acc : (TaskPtr → Task) × Multimap Int TaskPtr) {task other : TaskPtr}
    (hne : other ≠ task) : (rekeyTask f acc task).1 other = acc.1 other := by
  by_cases h : 0 < (acc.1 task).runIn
  · simp [rekeyTask, h, setRunAt_of_ne _ _ hne]
  · simp [rekeyTask, h]

theorem mem_entries_rekeyTask (f : Task → Int)
    (acc : (TaskPtr → Task) × Multimap Int TaskPtr) (task : TaskPtr)
    (e : Int × TaskPtr) :
    e ∈ (rekeyTask f acc task).2.entries ↔
      e = (((rekeyTask f acc task).1 task).runAt, task) ∨ e ∈ acc.2.entries := by
  simp [rekeyTask]

theorem values_rekeyTask_perm (f : Task → Int)
    (acc : (TaskPtr → Task) × Multimap Int TaskPtr) (task : TaskPtr) :
    (rekeyTask f acc task).2.values.Perm (task :: acc.2.values) := by
  simpa [rekeyTask] using Multimap.values_emplace_perm acc.2 _ task

/-- The tasks in the map after the loop are those it started with and those of
its list. -/
theorem values_foldl_rekeyTask_perm (f : Task → Int) (l : List TaskPtr)
    (acc : (TaskPtr → Task) × Multimap Int TaskPtr) :
    (l.foldl (rekeyTask f) acc).2.values.Perm (acc.2.values ++ l) := by
  induction l generalizing acc with
  | nil => simp
  | cons task l ih =>
      have hstep := (values_rekeyTask_perm f acc task).append_right l
      rw [List.foldl_cons]
      calc (l.foldl (rekeyTask f) (rekeyTask f acc task)).2.values
          |>.Perm ((rekeyTask f acc task).2.values ++ l) := ih _
        _ |>.Perm (task :: acc.2.values ++ l) := hstep
        _ |>.Perm (acc.2.values ++ task :: l) := List.perm_middle.symm

theorem foldl_rekeyTask_heap_of_notMem (f : Task → Int) {task : TaskPtr}
    (l : List TaskPtr) (acc : (TaskPtr → Task) × Multimap Int TaskPtr)
    (h : task ∉ l) : (l.foldl (rekeyTask f) acc).1 task = acc.1 task := by
  induction l generalizing acc with
  | nil => rfl
  | cons x l ih =>
      have hx : task ≠ x := fun he => h (by simp [he])
      have hl : task ∉ l := fun hm => h (by simp [hm])
      rw [List.foldl_cons, ih _ hl, rekeyTask_heap_of_ne f acc hx]

theorem foldl_rekeyTask_heap_of_count_eq_one (f : Task → Int) {task : TaskPtr}
    (l : List TaskPtr) (acc : (TaskPtr → Task) × Multimap Int TaskPtr)
    (h : l.count task = 1) :
    (l.foldl (rekeyTask f) acc).1 task = rekeyed f (acc.1 task) := by
  induction l generalizing acc with
  | nil => simp at h
  | cons x l ih =>
      rw [List.foldl_cons]
      by_cases hx : x = task
      · subst hx
        have hl : x ∉ l := by
          rw [List.count_cons_self] at h
          exact List.count_eq_zero.mp (by omega)
        rw [foldl_rekeyTask_heap_of_notMem f l _ hl, rekeyTask_heap_self]
      · have hl : l.count task = 1 := by
          rwa [List.count_cons_of_ne hx] at h
        rw [ih _ hl, rekeyTask_heap_of_ne f acc (Ne.symm hx)]

/-- A task that the loop meets at most once, counting the map it starts from,
is filed under its own instant. -/
theorem foldl_rekeyTask_keyed (f : Task → Int) (task : TaskPtr)
    (l : List TaskPtr) (acc : (TaskPtr → Task) × Multimap Int TaskPtr)
    (hcount : acc.2.values.count task + l.count task ≤ 1)
    (hkeyed : ∀ k, (k, task) ∈ acc.2.entries → k = (acc.1 task).runAt) :
    ∀ k, (k, task) ∈ (l.foldl (rekeyTask f) acc).2.entries →
      k = ((l.foldl (rekeyTask f) acc).1 task).runAt := by
  induction l generalizing acc with
  | nil => exact hkeyed
  | cons x l ih =>
      rw [List.foldl_cons]
      have hvalues : (rekeyTask f acc x).2.values.count task =
          acc.2.values.count task + [x].count task := by
        rw [(values_rekeyTask_perm f acc x).count_eq, ← List.singleton_append,
          List.count_append, Nat.add_comm]
      have hsplit : (x :: l).count task = [x].count task + l.count task := by
        rw [← List.singleton_append, List.count_append]
      refine ih _ (by omega) ?_
      intro k hk
      rcases (mem_entries_rekeyTask f acc x _).mp hk with heq | hold
      · cases heq
        rfl
      · -- the map already held `task`, so the loop is not meeting it now
        have hmem : task ∈ acc.2.values :=
          List.mem_map.mpr ⟨(k, task), hold, rfl⟩
        have hpos := List.count_pos_iff.mpr hmem
        have hx : task ≠ x := by
          rintro rfl
          rw [List.count_singleton_self] at hsplit
          omega
        rw [rekeyTask_heap_of_ne f acc hx]
        exact hkeyed k hold

end Sihd.Util.Scheduler
