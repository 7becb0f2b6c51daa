import Mathlib.Algebra.Order.Group.Int
import Sihd.Util.Scheduler.Chronicle
import Sihd.Util.Scheduler.Ownership

/-!
# Delays in unpaused time

In the runs whose calls all pass `keepsDelays`, the unpaused time between the
start of a task's delay and its run instant is its `run_in`. The invariant is
`OnTime`: besides the delay it says that the start of the delay is after the
start of the worker and before the run instant, and before the beginning of the
pause that is open.
-/

namespace Sihd.Util

namespace Scheduler

open World

/-! ### What the sections do to the instants -/

/-- Between the two heaps only run instants change, and no one-shot task
without a delay gets a new one. -/
def KeepsDates (heap heap' : TaskPtr → Task) : Prop :=
  ∀ t, (heap' t).runIn = (heap t).runIn ∧
    (heap' t).rescheduleTime = (heap t).rescheduleTime ∧
      ((heap t).dated = true → heap' t = heap t)

theorem KeepsDates.refl (heap : TaskPtr → Task) : KeepsDates heap heap :=
  fun _ => ⟨rfl, rfl, fun _ => rfl⟩

theorem KeepsDates.trans {heap₁ heap₂ heap₃ : TaskPtr → Task}
    (h : KeepsDates heap₁ heap₂) (h' : KeepsDates heap₂ heap₃) :
    KeepsDates heap₁ heap₃ := by
  intro t
  obtain ⟨hin, hagain, hdated⟩ := h t
  obtain ⟨hin', hagain', hdated'⟩ := h' t
  refine ⟨hin'.trans hin, hagain'.trans hagain, ?_⟩
  intro ht
  rw [hdated' (by rwa [hdated ht]), hdated ht]

theorem KeepsDates.delayed_eq {heap heap' : TaskPtr → Task}
    (h : KeepsDates heap heap') (t : TaskPtr) :
    (heap' t).delayed = (heap t).delayed := by
  rw [Task.delayed, Task.delayed, (h t).1, (h t).2.1]

theorem KeepsDates.dated_eq {heap heap' : TaskPtr → Task}
    (h : KeepsDates heap heap') (t : TaskPtr) :
    (heap' t).dated = (heap t).dated := by
  rw [Task.dated, Task.dated, (h t).1, (h t).2.1]

theorem keepsDates_setRunAt (heap : TaskPtr → Task) {task : TaskPtr} (v : Int)
    (h : (heap task).dated = false) : KeepsDates heap (setRunAt heap task v) := by
  intro t
  refine ⟨setRunAt_runIn heap task t v, setRunAt_rescheduleTime heap task t v, ?_⟩
  intro ht
  have hne : t ≠ task := by
    rintro rfl
    rw [h] at ht
    cases ht
  exact setRunAt_of_ne heap v hne

theorem dated_eq_false_of_runIn {task : Task} (h : 0 < task.runIn) :
    task.dated = false := by
  simp [Task.dated, h]

theorem dated_eq_false_of_rescheduleTime {task : Task} (h : 0 < task.rescheduleTime) :
    task.dated = false := by
  simp [Task.dated, h]

theorem unprotectedAddTaskToMap_heap (s : Scheduler) (task : TaskPtr) :
    (s.unprotectedAddTaskToMap task).heap = s.heap := by
  rw [unprotectedAddTaskToMap, refreshNextRun_heap]

theorem addTask_keepsDates (s : Scheduler) (now : Int) (task : TaskPtr) :
    KeepsDates s.heap (s.addTask now task).heap := by
  unfold addTask
  split
  · rw [unprotectedAddTaskToMap_heap]
    by_cases hin : 0 < (s.heap task).runIn
    · simpa only [if_pos hin] using keepsDates_setRunAt _ _ (dated_eq_false_of_runIn hin)
    · simpa only [if_neg hin] using KeepsDates.refl s.heap
  · exact .refl _

theorem fileTask_keepsDates (s : Scheduler) (task : TaskPtr) (now : Int) :
    KeepsDates s.heap (s.fileTask task now).heap := by
  simp only [fileTask]
  split
  · rename_i hagain
    rw [unprotectedAddTaskToMap_heap]
    exact keepsDates_setRunAt _ _ (dated_eq_false_of_rescheduleTime hagain)
  · exact .refl _

theorem foldl_rekeyTask_keepsDates (f : Task → Int) (l : List TaskPtr)
    (acc : (TaskPtr → Task) × Multimap Int TaskPtr) :
    KeepsDates acc.1 (l.foldl (rekeyTask f) acc).1 := by
  induction l generalizing acc with
  | nil => exact .refl _
  | cons task l ih =>
      rw [List.foldl_cons]
      refine KeepsDates.trans ?_ (ih _)
      by_cases hin : 0 < (acc.1 task).runIn
      · simpa only [rekeyTask, if_pos hin] using
          keepsDates_setRunAt _ _ (dated_eq_false_of_runIn hin)
      · simpa only [rekeyTask, if_neg hin] using KeepsDates.refl acc.1

theorem prepareTasks_heap (s : Scheduler) :
    s.prepareTasks.heap =
      (s.tasksToAdd.foldl (prepareTask s.beginRun) (s.heap, s.taskMap)).1 := by
  simp [prepareTasks]

theorem resumeTasks_keepsDates (s : Scheduler) (now : Int) :
    KeepsDates s.heap (s.resumeTasks now).heap := by
  unfold resumeTasks
  split
  · exact .refl _
  split
  · exact .refl _
  · rw [refreshNextRun_heap]
    exact foldl_rekeyTask_keepsDates _ _ (s.heap, Multimap.empty)

theorem WorkerMove.keepsDates {s s' : World} (h : WorkerMove s s') :
    KeepsDates s.scheduler.heap s'.scheduler.heap := by
  cases h with
  | prepare hpc =>
      simp only [prepareTasks_heap]
      exact foldl_rekeyTask_keepsDates _ _ (_, _)
  | file task now hpc => exact fileTask_keepsDates _ _ _
  | start | enter | leave | unpaused | tasked | skipWait | compute | sleep | wake
  | pass | retry | read | underflow | take | early | run | delete => exact .refl _

theorem World.step_keepsDates {s s' : World} {a : Action} (h : s.step a = some s') :
    KeepsDates s.scheduler.heap s'.scheduler.heap := by
  cases move_of_step h with
  | work hmove => exact hmove.keepsDates
  | addTask task => exact addTask_keepsDates _ _ _
  | removeTask task =>
      simp only [removeTask_heap]
      exact .refl _
  | resumeTasks hlock hpaused => exact resumeTasks_keepsDates _ _
  | pause hlock =>
      simp only [Scheduler.pause]
      split <;> exact .refl _
  | clearTrash | clearTasks | resumeRunning | resumed | requestStop | stopUnpause | stopTasks
  | tick => exact .refl _

/-! ### The invariant of one delay -/

namespace Chronicle

structure OnTime (c : Chronicle) (t : TaskPtr) : Prop where
  begun : c.world.scheduler.beginRun ≤ c.start t
  started : c.start t ≤ c.world.clock
  due : c.start t ≤ (c.world.scheduler.heap t).runAt
  beforePause : c.world.pauseOpen = true → c.start t ≤ c.world.pausedSince
  exact : c.delay t = (c.world.scheduler.heap t).runIn

/-- The delays of the tasks added once that wait or were taken are exact. -/
def DelaysExact (c : Chronicle) : Prop :=
  ∀ t, c.world.added.count t = 1 → (c.world.scheduler.heap t).delayed = true →
    t ∈ c.world.held → c.OnTime t

theorem OnTime.frame {c c' : Chronicle} {t : TaskPtr} (h : c.OnTime t)
    (hheap : c'.world.scheduler.heap t = c.world.scheduler.heap t)
    (hstart : c'.start t = c.start t)
    (hfields : pauseFields c'.world.scheduler = pauseFields c.world.scheduler)
    (hclock : c.world.clock ≤ c'.world.clock)
    (hresuming : c'.world.resuming = c.world.resuming)
    (hpauses : c'.pauses = c.pauses) : c'.OnTime t := by
  simp only [pauseFields, Prod.mk.injEq] at hfields
  obtain ⟨hbegin, hat, hpaused, -⟩ := hfields
  have hopen : c'.world.pauseOpen = c.world.pauseOpen := by
    rw [pauseOpen, pauseOpen, hpaused, hresuming]
  refine ⟨?_, ?_, ?_, ?_, ?_⟩
  · rw [hbegin, hstart]
    exact h.begun
  · rw [hstart]
    exact h.started.trans hclock
  · rw [hstart, hheap]
    exact h.due
  · rw [hopen, hstart, pausedSince, hbegin, hat]
    exact h.beforePause
  · rw [delay, hheap, hstart, hpauses]
    exact h.exact

theorem notMem_held_of_unprepared {c : Chronicle} (h : c.Clocked) (t : TaskPtr)
    (hunprepared : c.world.scheduler.tasksPrepared = false) : t ∉ c.world.held := by
  simp [(h.unprepared hunprepared).2]

end Chronicle

theorem mem_values_unprotectedAddTaskToMap (s : Scheduler) (task t : TaskPtr) :
    t ∈ (s.unprotectedAddTaskToMap task).taskMap.values ↔
      t = task ∨ t ∈ s.taskMap.values := by
  rw [unprotectedAddTaskToMap, refreshNextRun_taskMap,
    (Multimap.values_emplace_perm _ _ _).mem_iff, List.mem_cons]

theorem addTask_heap_of_ne (s : Scheduler) (now : Int) {task t : TaskPtr}
    (h : t ≠ task) : (s.addTask now task).heap t = s.heap t := by
  unfold addTask
  split
  · rw [unprotectedAddTaskToMap_heap]
    by_cases hin : 0 < (s.heap task).runIn
    · simp only [if_pos hin]
      exact setRunAt_of_ne s.heap _ h
    · simp only [if_neg hin]
  · rfl

theorem addTask_heap_self (s : Scheduler) (now : Int) (task : TaskPtr)
    (hprepared : s.tasksPrepared = true) (hin : 0 < (s.heap task).runIn) :
    (s.addTask now task).heap task =
      { s.heap task with runAt := now + (s.heap task).runIn } := by
  simp only [addTask, hprepared, if_pos hin, if_true, unprotectedAddTaskToMap_heap,
    setRunAt_self]

theorem mem_fileTask (s : Scheduler) (task t : TaskPtr) (now : Int) :
    t ∈ (s.fileTask task now).taskMap.values ∨ t ∈ (s.fileTask task now).trashTaskList →
      t = task ∨ t ∈ s.taskMap.values ∨ t ∈ s.trashTaskList := by
  simp only [fileTask]
  split
  · rw [mem_values_unprotectedAddTaskToMap, unprotectedAddTaskToMap,
      refreshNextRun_trashTaskList]
    tauto
  · simp only [List.mem_append, List.mem_singleton]
    tauto

/-- Once the tasks are prepared, the worker holds no new task and gives no
one-shot task a new instant. -/
theorem WorkerMove.held {s s' : World} (h : WorkerMove s s')
    (hpc : s.worker ≠ .preparing) (t : TaskPtr) :
    (t ∈ s'.held → t ∈ s.held) ∧
      ((s.scheduler.heap t).rescheduleTime ≤ 0 →
        s'.scheduler.heap t = s.scheduler.heap t) := by
  cases h with
  | prepare hpreparing => exact absurd hpreparing hpc
  | file task now hplayed =>
      refine ⟨?_, ?_⟩
      · intro ht
        simp only [World.held, hand, hplayed, List.mem_append, List.mem_singleton] at ht ⊢
        have hfiled := mem_fileTask s.scheduler task t now
        tauto
      · intro honce
        simp only [fileTask]
        split
        · rename_i hagain
          have hne : t ≠ task := by
            rintro rfl
            omega
          rw [unprotectedAddTaskToMap_heap]
          exact setRunAt_of_ne _ _ hne
        · rfl
  | take now key task overruns hselect hbegin hready =>
      refine ⟨?_, fun _ => rfl⟩
      have hvalues := Multimap.values_of_begin? hbegin
      simp only [World.held, hand, hselect, hvalues, List.mem_append, List.mem_cons]
      tauto
  | delete hpc =>
      refine ⟨?_, fun _ => rfl⟩
      simp only [World.held, hand, hpc, deleteTrashedTasks, List.mem_append]
      tauto
  | start hpc | enter hpc | leave hpc | unpaused hpc | tasked hpc | skipWait hpc
  | compute hpc | sleep _ hpc | wake _ hpc | pass hpc | retry hpc | read hpc
  | underflow _ hpc | early _ _ hpc | run _ _ hpc =>
      exact ⟨by simp [World.held, hand, hpc], fun _ => rfl⟩

/-! ### Every step keeps the delays exact -/

theorem pos_of_delayed {task : Task} (h : task.delayed = true) :
    0 < task.runIn ∧ task.rescheduleTime ≤ 0 := by
  simpa [Task.delayed] using h

theorem prepareTasks_values_perm (s : Scheduler) :
    s.prepareTasks.taskMap.values.Perm (s.taskMap.values ++ s.tasksToAdd) := by
  simpa [prepareTasks, prepareTask] using
    values_foldl_rekeyTask_perm (fun task => s.beginRun + task.runIn) s.tasksToAdd
      (s.heap, s.taskMap)

theorem resumeTasks_values_perm (s : Scheduler) (now : Int) :
    (s.resumeTasks now).taskMap.values.Perm s.taskMap.values := by
  unfold resumeTasks
  split
  · rfl
  split
  · rfl
  · simpa [resumeTask] using
      values_foldl_rekeyTask_perm (fun task => task.runAt + s.pausedTime now)
        s.taskMap.values (s.heap, Multimap.empty)

/-- A delayed task that is once in the map is moved by the length of the
pause. -/
theorem resumeTasks_heap_of_mem {s : Scheduler} (now : Int) {t : TaskPtr}
    (hat : s.pausedTimeAt ≠ 0) (hprepared : s.tasksPrepared = true)
    (hcount : s.taskMap.values.count t = 1) (hin : 0 < (s.heap t).runIn) :
    (s.resumeTasks now).heap t =
      { s.heap t with runAt := (s.heap t).runAt + s.pausedTime now } := by
  have hfold := foldl_rekeyTask_heap_of_count_eq_one
    (fun task => task.runAt + s.pausedTime now) s.taskMap.values
    (s.heap, Multimap.empty) hcount
  simp only [rekeyed, if_pos hin] at hfold
  simpa [resumeTasks, hat, hprepared, resumeTask] using hfold

theorem resumeTasks_heap_of_notMem {s : Scheduler} (now : Int) {t : TaskPtr}
    (h : t ∉ s.taskMap.values) : (s.resumeTasks now).heap t = s.heap t := by
  unfold resumeTasks
  split
  · rfl
  split
  · rfl
  · rw [refreshNextRun_heap]
    exact foldl_rekeyTask_heap_of_notMem _ _ (s.heap, Multimap.empty) h

theorem resumeTasks_trashTaskList (s : Scheduler) (now : Int) :
    (s.resumeTasks now).trashTaskList = s.trashTaskList := by
  unfold resumeTasks
  split
  · rfl
  split
  · rfl
  · rw [refreshNextRun_trashTaskList]

namespace Chronicle

theorem DelaysExact.prepare {c : Chronicle} (hconserves : c.world.Conserves)
    (hclocked : c.Clocked) (hpc : c.world.worker = .preparing) :
    DelaysExact { c with
      world := { c.world with
        scheduler := c.world.scheduler.prepareTasks, worker := .loop }
      start := c.startAfter .work } := by
  intro t honce hdelayed ht
  have hunprepared : c.world.scheduler.tasksPrepared = false := by
    by_contra hprepared
    exact (hclocked.prepared (by simpa using hprepared)).2 hpc
  have hnot := notMem_held_of_unprepared hclocked t hunprepared
  have hadded := hconserves.count_eq_added t
  simp only at honce
  have hmem : t ∈ c.world.scheduler.tasksToAdd := by
    simp only [held, hand, List.mem_append, hpc, not_or] at ht hnot
    rw [(prepareTasks_values_perm _).mem_iff, List.mem_append] at ht
    rw [prepareTasks_trashTaskList] at ht
    tauto
  have hcount : c.world.scheduler.tasksToAdd.count t = 1 := by
    have hpos := List.count_pos_iff.mpr hmem
    omega
  have hrekeyed := foldl_rekeyTask_heap_of_count_eq_one
    (fun task => c.world.scheduler.beginRun + task.runIn) _
    (c.world.scheduler.heap, c.world.scheduler.taskMap) hcount
  have hkept := foldl_rekeyTask_keepsDates
    (fun task => c.world.scheduler.beginRun + task.runIn) c.world.scheduler.tasksToAdd
    (c.world.scheduler.heap, c.world.scheduler.taskMap)
  simp only [prepareTasks_heap, prepareTask, hkept.delayed_eq t] at hdelayed
  obtain ⟨hin, -⟩ := pos_of_delayed hdelayed
  rw [rekeyed, if_pos hin] at hrekeyed
  have hheap : c.world.scheduler.prepareTasks.heap t =
      { c.world.scheduler.heap t with
        runAt := c.world.scheduler.beginRun + (c.world.scheduler.heap t).runIn } := by
    rw [prepareTasks_heap]
    exact hrekeyed
  have hfields := prepareTasks_pauseFields c.world.scheduler
  simp only [pauseFields, Prod.mk.injEq] at hfields
  obtain ⟨hbegin, hat, -, -⟩ := hfields
  have hstart : c.startAfter .work t = c.world.scheduler.beginRun := by
    simp [startAfter, hpc, hmem]
  refine ⟨?_, ?_, ?_, ?_, ?_⟩
  · simp only [hbegin, hstart, le_refl]
  · simp only [hstart]
    exact hclocked.begun (by simp [hpc])
  · simp only [hheap, hstart]
    omega
  · intro _
    simp only [hstart, pausedSince, hbegin]
    exact le_max_left _ _
  · simp only [delay, hheap, hstart]
    rw [activeTime_add (hclocked.endedAtStart hpc) hin.le]
    exact add_sub_cancel_left _ _

theorem prepared_of_mem_held {c : Chronicle} (hclocked : c.Clocked) {t : TaskPtr}
    (ht : t ∈ c.world.held) : c.world.scheduler.tasksPrepared = true := by
  by_contra hunprepared
  exact notMem_held_of_unprepared hclocked t (by simpa using hunprepared) ht

/-- The task is moved by `moved`, which is nothing outside the map, and the
pause that has just ended is not counted in its delay. -/
theorem OnTime.exists_moved {c : Chronicle} {t : TaskPtr} (h : c.OnTime t)
    (hconserves : c.world.Conserves) (hclocked : c.Clocked)
    (hopen : c.world.pauseOpen = true) (ha : c.keepsDelays .resumeTasks = true)
    (honce : c.world.added.count t = 1)
    (hdelayed : (c.world.scheduler.heap t).delayed = true) (ht : t ∈ c.world.held) :
    ∃ moved : Int, 0 ≤ moved ∧
      ((c.world.scheduler.resumeTasks c.world.clock).heap t).runAt =
        (c.world.scheduler.heap t).runAt + moved ∧
      activeTime (c.pauses ++ [(c.world.scheduler.pausedTimeAt, c.world.clock)])
          ((c.world.scheduler.heap t).runAt + moved) -
        activeTime (c.pauses ++ [(c.world.scheduler.pausedTimeAt, c.world.clock)])
          (c.start t) = c.delay t := by
  obtain ⟨hle, hended⟩ := hclocked.opened hopen
  obtain ⟨hin, -⟩ := pos_of_delayed hdelayed
  have hprepared := prepared_of_mem_held hclocked ht
  have hsince : c.world.pausedSince ≤ c.world.clock :=
    max_le (hclocked.begun (hclocked.prepared hprepared).1) hle
  by_cases hnow : c.world.clock = c.world.pausedSince
  · refine ⟨0, le_rfl, ?_, ?_⟩
    · by_cases hmap : t ∈ c.world.scheduler.taskMap.values
      · by_cases hat : c.world.scheduler.pausedTimeAt = 0
        · simp [resumeTasks, hat]
        · have hcount := hconserves.count_values_eq_one honce hmap
          rw [resumeTasks_heap_of_mem _ hat hprepared hcount hin]
          simp only [pausedTime]
          rw [pausedSince] at hnow
          omega
      · rw [resumeTasks_heap_of_notMem _ hmap, add_zero]
    · rw [add_zero]
      exact activeTime_append_of_eq_max c.pauses hnow h.begun (h.begun.trans h.due)
  · simp only [keepsDelays, hopen, hprepared, Bool.not_true, Bool.false_or,
      beq_iff_eq, hnow, if_true, Bool.or_eq_true, Bool.and_eq_true, List.all_eq_true,
      bne_iff_ne, ne_eq, decide_eq_true_eq, false_or] at ha
    obtain ⟨⟨hat, hmapped⟩, htaken⟩ := ha
    by_cases hmap : t ∈ c.world.scheduler.taskMap.values
    · have hcount := hconserves.count_values_eq_one honce hmap
      refine ⟨c.world.clock - c.world.pausedSince, sub_nonneg.mpr hsince, ?_, ?_⟩
      · rw [resumeTasks_heap_of_mem _ hat hprepared hcount hin]
        rfl
      · have hcome := hmapped t hmap
        rw [hdelayed] at hcome
        exact activeTime_resume hended rfl hsince h.begun (h.beforePause hopen)
          (by simpa using hcome)
    · have hout : t ∈ c.world.hand ++ c.world.scheduler.trashTaskList := by
        simp only [held, List.mem_append] at ht ⊢
        tauto
      have hpast := htaken t hout
      rw [hdelayed] at hpast
      have hrun : (c.world.scheduler.heap t).runAt ≤ c.world.scheduler.pausedTimeAt := by
        simpa using hpast
      refine ⟨0, le_rfl, ?_, ?_⟩
      · rw [resumeTasks_heap_of_notMem _ hmap, add_zero]
      · rw [add_zero, activeTime_append_of_le _ hrun hle,
          activeTime_append_of_le _ (h.due.trans hrun) hle]
        rfl

/-- The resume that ends a pause. -/
theorem OnTime.resume {c : Chronicle} {t : TaskPtr} (h : c.OnTime t)
    (hconserves : c.world.Conserves) (hclocked : c.Clocked)
    (hopen : c.world.pauseOpen = true) (ha : c.keepsDelays .resumeTasks = true)
    (honce : c.world.added.count t = 1)
    (hdelayed : (c.world.scheduler.heap t).delayed = true) (ht : t ∈ c.world.held) :
    OnTime { c with
      world := { c.world with
        scheduler := c.world.scheduler.resumeTasks c.world.clock, resuming := true }
      pauses := c.pauses ++ [(c.world.scheduler.pausedTimeAt, c.world.clock)] } t := by
  obtain ⟨moved, hmoved, hheap, hexact⟩ :=
    h.exists_moved hconserves hclocked hopen ha honce hdelayed ht
  have hfields := resumeTasks_pauseFields c.world.scheduler c.world.clock
  simp only [pauseFields, Prod.mk.injEq] at hfields
  obtain ⟨hbegin, -, -, -⟩ := hfields
  have hkept := (resumeTasks_keepsDates c.world.scheduler c.world.clock t).1
  refine ⟨?_, h.started, ?_, by simp [pauseOpen], ?_⟩
  · simp only [hbegin]
    exact h.begun
  · simp only [hheap]
    exact h.due.trans (Int.le_add_of_nonneg_right hmoved)
  · simp only [delay, hheap]
    rw [hexact, h.exact]
    exact hkept.symm

theorem DelaysExact.work {c c' : Chronicle} (h : c.DelaysExact)
    (hconserves : c.world.Conserves) (hclocked : c.Clocked)
    (hstep : c.step .work = some c') : c'.DelaysExact := by
  obtain ⟨hworld, hstart, hgiven, hpauses⟩ := step_eq_some hstep
  have hmove := workerMove_of_step hworld
  obtain ⟨world, start, given, pauses⟩ := c'
  simp only at hworld hstart hgiven hpauses hmove
  rcases hmove.phases with
    ⟨hpc, rfl⟩ | ⟨hpc, rfl⟩ | ⟨hold, hnew, hfields, hclock, hresuming⟩
  · intro t _ _ ht
    have hunprepared : c.world.scheduler.tasksPrepared = false := by
      by_contra hprepared
      exact (hclocked.prepared (by simpa using hprepared)).1 hpc
    refine absurd ?_ (notMem_held_of_unprepared hclocked t hunprepared)
    simpa [held, hand, hpc] using ht
  · rw [hstart, hgiven, hpauses]
    exact DelaysExact.prepare hconserves hclocked hpc
  · intro t honce hdelayed ht
    obtain ⟨hheld, hheap⟩ := hmove.held hold.2 t
    simp only at honce hdelayed ht
    rw [(step_history hworld).1] at honce
    rw [hmove.keepsDates.delayed_eq t] at hdelayed
    have honce' : c.world.added.count t = 1 := by simpa [addedBy] using honce
    refine (h t honce' hdelayed (hheld ht)).frame (hheap (pos_of_delayed hdelayed).2)
      ?_ hfields hclock.ge hresuming hpauses
    rw [hstart, startAfter, if_neg hold.2]

theorem DelaysExact.addTask {c c' : Chronicle} {task : TaskPtr} (h : c.DelaysExact)
    (hclocked : c.Clocked)
    (ha : c.keepsDelays (.addTask task) = true)
    (hstep : c.step (.addTask task) = some c') : c'.DelaysExact := by
  cases hstep
  intro t honce hdelayed ht
  have hkept := addTask_keepsDates c.world.scheduler c.world.clock task
  simp only [hkept.delayed_eq t] at hdelayed
  have hprepared : c.world.scheduler.tasksPrepared = true := by
    by_contra hunprepared
    rw [Bool.not_eq_true] at hunprepared
    refine notMem_held_of_unprepared hclocked t hunprepared ?_
    simpa [held, hand, Scheduler.addTask, hunprepared] using ht
  have hfields := addTask_pauseFields c.world.scheduler c.world.clock task
  by_cases hne : t = task
  · subst hne
    obtain ⟨hin, -⟩ := pos_of_delayed hdelayed
    have hheap := addTask_heap_self c.world.scheduler c.world.clock t hprepared hin
    simp only [pauseFields, Prod.mk.injEq] at hfields
    obtain ⟨hbegin, hat, hpaused, -⟩ := hfields
    have hstart : c.startAfter (.addTask t) t = c.world.clock := by
      simp [startAfter, hprepared]
    refine ⟨?_, ?_, ?_, ?_, ?_⟩
    · simp only [hbegin, hstart]
      exact hclocked.begun (hclocked.prepared hprepared).1
    · simp only [hstart, le_refl]
    · simp only [hheap, hstart]
      omega
    · intro hopen
      have hopen' : c.world.pauseOpen = true := by
        simpa [pauseOpen, hpaused] using hopen
      simp only [keepsDelays, hopen', hprepared, hdelayed, Bool.and_self, Bool.not_true,
        Bool.false_or, beq_iff_eq] at ha
      simp only [hstart, pausedSince, hbegin, hat]
      exact ha.le
    · simp only [delay, hheap, hstart, pausesAfter]
      rw [activeTime_add hclocked.ended hin.le]
      exact add_sub_cancel_left _ _
  · have honce' : c.world.added.count t = 1 := by
      have hcount : [task].count t = 0 := by simp [Ne.symm hne]
      simp only [List.count_append, hcount] at honce
      exact honce
    have hheld : t ∈ c.world.held := by
      simp only [held, hand, List.mem_append, Scheduler.addTask, hprepared, if_true,
        mem_values_unprotectedAddTaskToMap, hne, false_or] at ht ⊢
      simpa [unprotectedAddTaskToMap] using ht
    refine (h t honce' hdelayed hheld).frame (addTask_heap_of_ne _ _ hne) ?_ hfields
      le_rfl rfl rfl
    simp [startAfter, hprepared, Function.update_of_ne hne]

/-- A step that keeps the instants and brings no task into the map. -/
theorem DelaysExact.frame {c c' : Chronicle} (h : c.DelaysExact)
    (hadded : c'.world.added = c.world.added)
    (hheap : c'.world.scheduler.heap = c.world.scheduler.heap)
    (hheld : ∀ t ∈ c'.world.held, t ∈ c.world.held)
    (hstart : c'.start = c.start)
    (hfields : pauseFields c'.world.scheduler = pauseFields c.world.scheduler)
    (hclock : c.world.clock ≤ c'.world.clock)
    (hresuming : c'.world.resuming = c.world.resuming)
    (hpauses : c'.pauses = c.pauses) : c'.DelaysExact := by
  intro t honce hdelayed ht
  rw [hadded] at honce
  rw [hheap] at hdelayed
  exact (h t honce hdelayed (hheld t ht)).frame (by rw [hheap]) (by rw [hstart]) hfields
    hclock hresuming hpauses

theorem DelaysExact.pause {c : Chronicle} (h : c.DelaysExact) :
    DelaysExact { c with world := { c.world with
      scheduler := c.world.scheduler.pause c.world.clock } } := by
  simp only [Scheduler.pause]
  split
  · exact h
  · intro t honce hdelayed ht
    have hold := h t honce hdelayed ht
    refine ⟨hold.begun, hold.started, hold.due, ?_, hold.exact⟩
    exact fun _ => hold.started.trans (le_max_right _ _)

theorem step_delaysExact {c c' : Chronicle} {a : Action} (h : c.DelaysExact)
    (hconserves : c.world.Conserves) (hclocked : c.Clocked)
    (ha : c.keepsDelays a = true) (hstep : c.step a = some c') : c'.DelaysExact := by
  obtain ⟨world, hworld, rfl⟩ := Option.map_eq_some_iff.mp hstep
  cases move_of_step hworld with
  | work hmove => exact h.work hconserves hclocked hstep
  | addTask task => exact h.addTask hclocked ha hstep
  | removeTask task =>
      refine h.frame rfl (removeTask_heap _ _) ?_ rfl (removeTask_pauseFields _ _) le_rfl
        rfl rfl
      intro t ht
      simp only [held, hand, List.mem_append, removeTask_taskMap,
        removeTask_trashTaskList, Multimap.values_eraseFirst] at ht ⊢
      exact ht.imp_left (Or.imp_left List.mem_of_mem_erase)
  | clearTrash =>
      refine h.frame rfl rfl ?_ rfl rfl le_rfl rfl rfl
      intro t ht
      exact List.mem_append_left _ (by simpa [held, deleteTrashedTasks, hand] using ht)
  | clearTasks hclearing =>
      refine h.frame rfl rfl ?_ rfl rfl le_rfl rfl rfl
      intro t ht
      simp only [held, Scheduler.clearTasks, Multimap.values_empty, List.nil_append,
        hand] at ht ⊢
      rw [List.append_assoc]
      exact List.mem_append_right _ ht
  | pause hlock => exact h.pause
  | resumeTasks hlock hpaused =>
      have hopen : c.world.pauseOpen = true := by simp [pauseOpen, hpaused, hlock]
      intro t honce hdelayed ht
      have hkept := resumeTasks_keepsDates c.world.scheduler c.world.clock
      simp only [hkept.delayed_eq t] at hdelayed
      have hheld : t ∈ c.world.held := by
        simpa [held, hand, (resumeTasks_values_perm _ _).mem_iff,
          resumeTasks_trashTaskList] using ht
      have hresume := (h t honce hdelayed hheld).resume hconserves hclocked hopen ha
        honce hdelayed hheld
      simpa [startAfter, givenAfter, pausesAfter, hpaused] using hresume
  | resumeRunning hlock hrunning =>
      simpa [startAfter, givenAfter, pausesAfter, hrunning] using h
  | resumed hlock =>
      intro t honce hdelayed ht
      have hold := h t honce hdelayed ht
      exact ⟨hold.begun, hold.started, hold.due, by simp [pauseOpen], hold.exact⟩
  | requestStop | stopUnpause | stopTasks => simp [keepsDelays] at ha
  | tick d =>
      refine h.frame rfl rfl (fun _ ht => ht) rfl rfl ?_ rfl rfl
      exact Int.le_add_of_nonneg_right (Int.natCast_nonneg d)

/-- The one-shot tasks without a delay have the instant they were added
with. -/
def DatesKept (c : Chronicle) : Prop :=
  ∀ t ∈ c.world.added, (c.world.scheduler.heap t).dated = true →
    (c.world.scheduler.heap t).runAt = c.given t

theorem step_datesKept {c c' : Chronicle} {a : Action} (h : c.DatesKept)
    (hstep : c.step a = some c') : c'.DatesKept := by
  obtain ⟨hworld, -, hgiven, -⟩ := step_eq_some hstep
  have hkept := step_keepsDates hworld
  intro t ht hdated
  rw [hkept.dated_eq t] at hdated
  rw [(hkept t).2.2 hdated, hgiven]
  rw [(step_history hworld).1, List.mem_append] at ht
  cases a with
  | addTask task =>
      by_cases hne : t = task
      · simp [givenAfter, hne]
      · have hold : t ∈ c.world.added := by simpa [addedBy, hne] using ht
        simpa [givenAfter, Function.update_of_ne hne] using h t hold hdated
  | _ => exact h t (by simpa [addedBy] using ht) hdated

/-- In the runs whose calls do no harm to the delays, the unpaused time between
the start of a task's delay and its run instant is its `run_in`, and a one-shot
task without a delay has the instant it was added with. -/
theorem run_in_is_unpaused_time {c : Chronicle} (h : ReachableBy keepsDelays c) :
    (∀ t, c.world.added.count t = 1 → (c.world.scheduler.heap t).delayed = true →
      t ∈ c.world.held → c.delay t = (c.world.scheduler.heap t).runIn) ∧
    (∀ t ∈ c.world.added, (c.world.scheduler.heap t).dated = true →
      (c.world.scheduler.heap t).runAt = c.given t) := by
  have hall : c.world.Conserves ∧ c.Clocked ∧ c.DelaysExact ∧ c.DatesKept := by
    refine h.invariant (I := fun c =>
      c.world.Conserves ∧ c.Clocked ∧ c.DelaysExact ∧ c.DatesKept) ?_ ?_
    · rintro _ ⟨heap, noDelay, clock, rfl⟩
      refine ⟨conserves_initial heap noDelay clock, clocked_initial heap noDelay clock,
        ?_, ?_⟩
      · intro t _ _ ht
        exact absurd ht (List.not_mem_nil)
      · intro t ht
        exact absurd ht (List.not_mem_nil)
    · rintro c a c' ⟨hconserves, hclocked, hexact, hdates⟩ ha hstep
      exact ⟨step_conserves hconserves (step_eq_some hstep).1,
        step_clocked hclocked ha hstep,
        step_delaysExact hexact hconserves hclocked ha hstep,
        step_datesKept hdates hstep⟩
  obtain ⟨-, -, hexact, hdates⟩ := hall
  exact ⟨fun t honce hdelayed ht => (hexact t honce hdelayed ht).exact, hdates⟩

theorem run_in_is_unpaused_time_of_pause : ∃ c : Chronicle,
    c.pauses = [(2, 8)] ∧ c.delay 0 = 5 ∧ (c.world.scheduler.heap 1).runAt = 40 := by
  obtain ⟨c, hc, hpauses, honce, hdelayed, hheld, hin, hadded, hdated, hgiven⟩ :=
    exists_reachableBy keepsDelays (fun t => if t = 0 then ⟨0, 5, 0⟩ else ⟨40, 0, 0⟩)
      false 0 [.addTask 0, .addTask 1, .work, .work, .tick 2, .pause, .tick 6,
        .resumeTasks, .resumed]
      (P := fun c => c.pauses = [(2, 8)] ∧ c.world.added.count 0 = 1 ∧
        (c.world.scheduler.heap 0).delayed = true ∧ 0 ∈ c.world.held ∧
        (c.world.scheduler.heap 0).runIn = 5 ∧ 1 ∈ c.world.added ∧
        (c.world.scheduler.heap 1).dated = true ∧ c.given 1 = 40) (by decide)
  obtain ⟨hdelay, hdate⟩ := run_in_is_unpaused_time hc
  exact ⟨c, hpauses, (hdelay 0 honce hdelayed hheld).trans hin,
    (hdate 1 hadded hdated).trans hgiven⟩

/-- Tasks are added, the scheduler is paused and resumed, nothing else. -/
def pausesOrAdds (_ : Chronicle) : Action → Bool
  | .addTask _ | .pause | .resumeTasks | .resumed | .tick _ | .work => true
  | _ => false

/-- A task added at 15 in a pause from 10 to 20 with a delay of 5 is moved to
30, ten unpaused instants after its addition. -/
theorem delay_of_task_added_in_a_pause : ¬ ∀ c, ReachableBy pausesOrAdds c →
    c.world.pauseOpen = false → ∀ t, c.world.added.count t = 1 →
      (c.world.scheduler.heap t).delayed = true → t ∈ c.world.held →
        c.delay t = (c.world.scheduler.heap t).runIn := by
  intro hall
  obtain ⟨c, hc, hopen, honce, hdelayed, hheld, hin, hdelay⟩ := exists_reachableBy
    pausesOrAdds (fun _ => ⟨0, 5, 0⟩) false 0 [.work, .work, .tick 10, .pause, .tick 5,
      .addTask 0, .tick 5, .resumeTasks, .resumed]
    (P := fun c => c.world.pauseOpen = false ∧ c.world.added.count 0 = 1 ∧
      (c.world.scheduler.heap 0).delayed = true ∧ 0 ∈ c.world.held ∧
      (c.world.scheduler.heap 0).runIn = 5 ∧ c.delay 0 = 10) (by decide)
  have hfive := (hall c hc hopen 0 honce hdelayed hheld).trans hin
  exact absurd (hdelay.symm.trans hfive) (by decide)

end Chronicle

end Scheduler

end Sihd.Util
