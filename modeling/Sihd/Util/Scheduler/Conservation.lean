import Sihd.Util.Scheduler.Moves
import Sihd.Util.Scheduler.Definitions

/-!
# No task is lost or duplicated

Every task given to `add_task` is in one of the containers, in the worker's
hand, given back by `remove_task` or deleted, as many times as it was added:
`World.conserves` says it by counting, for every interleaving. For a task added
once this bounds every place it can be in, and its key in the map is its run
instant because only a task outside the map gets a new one.
-/

namespace Sihd.Util.Scheduler

/-! ### What each section moves -/

/-- The tasks in the containers of the scheduler. -/
def stored (s : Scheduler) : List TaskPtr :=
  s.tasksToAdd ++ s.taskMap.values ++ s.trashTaskList

theorem count_stored (s : Scheduler) (t : TaskPtr) :
    (stored s).count t =
      s.tasksToAdd.count t + s.taskMap.values.count t + s.trashTaskList.count t := by
  simp [stored, List.count_append, Nat.add_assoc]

@[simp] theorem refreshNextRun_stored (s : Scheduler) :
    stored s.refreshNextRun = stored s := by
  unfold refreshNextRun
  split <;> rfl

@[simp] theorem refreshNextRun_freed (s : Scheduler) :
    s.refreshNextRun.freed = s.freed := by
  unfold refreshNextRun
  split <;> rfl

@[simp] theorem refreshNextRun_heap (s : Scheduler) :
    s.refreshNextRun.heap = s.heap := by
  unfold refreshNextRun
  split <;> rfl

@[simp] theorem refreshNextRun_taskMap (s : Scheduler) :
    s.refreshNextRun.taskMap = s.taskMap := by
  unfold refreshNextRun
  split <;> rfl

@[simp] theorem refreshNextRun_trashTaskList (s : Scheduler) :
    s.refreshNextRun.trashTaskList = s.trashTaskList := by
  unfold refreshNextRun
  split <;> rfl

theorem count_stored_unprotectedAddTaskToMap (s : Scheduler) (task t : TaskPtr) :
    (stored (s.unprotectedAddTaskToMap task)).count t =
      (stored s).count t + [task].count t := by
  have hvalues := (Multimap.values_emplace_perm s.taskMap (s.heap task).runAt
    task).count_eq t
  rw [← List.singleton_append, List.count_append] at hvalues
  simp only [unprotectedAddTaskToMap, refreshNextRun_stored, count_stored, hvalues]
  omega

theorem count_stored_addTask (s : Scheduler) (now : Int) (task t : TaskPtr) :
    (stored (s.addTask now task)).count t = (stored s).count t + [task].count t := by
  unfold addTask
  split
  · rw [count_stored_unprotectedAddTaskToMap]
    rfl
  · simp only [count_stored, List.count_append]
    omega

theorem addTask_freed (s : Scheduler) (now : Int) (task : TaskPtr) :
    (s.addTask now task).freed = s.freed := by
  unfold addTask
  split
  · simp [unprotectedAddTaskToMap]
  · rfl

theorem count_erase_add_contains (l : List TaskPtr) (task t : TaskPtr) :
    (l.erase task).count t + (if l.contains task then [task] else []).count t =
      l.count t := by
  by_cases hmem : task ∈ l
  · have hperm := (List.perm_cons_erase hmem).count_eq t
    rw [← List.singleton_append, List.count_append] at hperm
    simp only [List.contains_iff_mem, hmem, if_true]
    omega
  · simp [hmem, List.erase_of_not_mem hmem]

theorem count_stored_removeTask (s : Scheduler) (task t : TaskPtr) :
    (stored (s.removeTask task).2).count t + (World.erasedBy s task).count t =
      (stored s).count t := by
  have hadd := count_erase_add_contains s.tasksToAdd task t
  have hmap := count_erase_add_contains s.taskMap.values task t
  have hstored : (stored (s.removeTask task).2).count t =
      (s.tasksToAdd.erase task).count t + (s.taskMap.values.erase task).count t +
        s.trashTaskList.count t := by
    simp only [removeTask]
    split <;> simp [count_stored, Multimap.values_eraseFirst]
  rw [hstored, World.erasedBy, List.count_append, count_stored]
  omega

theorem removeTask_taskMap (s : Scheduler) (task : TaskPtr) :
    (s.removeTask task).2.taskMap = s.taskMap.eraseFirst (· == task) := by
  simp only [removeTask]
  split <;> simp

theorem removeTask_heap (s : Scheduler) (task : TaskPtr) :
    (s.removeTask task).2.heap = s.heap := by
  simp only [removeTask]
  split <;> simp

theorem removeTask_trashTaskList (s : Scheduler) (task : TaskPtr) :
    (s.removeTask task).2.trashTaskList = s.trashTaskList := by
  simp only [removeTask]
  split <;> simp

theorem removeTask_freed (s : Scheduler) (task : TaskPtr) :
    (s.removeTask task).2.freed = s.freed := by
  simp only [removeTask]
  split <;> simp

theorem count_stored_prepareTasks (s : Scheduler) (t : TaskPtr) :
    (stored s.prepareTasks).count t = (stored s).count t := by
  have hvalues := (values_foldl_rekeyTask_perm (fun task => s.beginRun + task.runIn)
    s.tasksToAdd (s.heap, s.taskMap)).count_eq t
  rw [List.count_append] at hvalues
  have hstored : (stored s.prepareTasks).count t =
      (s.tasksToAdd.foldl (prepareTask s.beginRun) (s.heap, s.taskMap)).2.values.count t +
        s.trashTaskList.count t := by
    simp only [count_stored, prepareTasks, refreshNextRun]
    split <;> simp
  rw [hstored, count_stored]
  simp only [prepareTask] at hvalues ⊢
  omega

theorem prepareTasks_trashTaskList (s : Scheduler) :
    s.prepareTasks.trashTaskList = s.trashTaskList := by
  simp [prepareTasks]

theorem prepareTasks_freed (s : Scheduler) : s.prepareTasks.freed = s.freed := by
  simp [prepareTasks]

theorem count_stored_resumeTasks (s : Scheduler) (now : Int) (t : TaskPtr) :
    (stored (s.resumeTasks now)).count t = (stored s).count t := by
  unfold resumeTasks
  split
  · rfl
  split
  · rfl
  · have hvalues := (values_foldl_rekeyTask_perm
      (fun task => task.runAt + s.pausedTime now) s.taskMap.values
      (s.heap, Multimap.empty)).count_eq t
    simp only [refreshNextRun_stored, count_stored, resumeTask]
    rw [hvalues]
    simp

theorem resumeTasks_freed (s : Scheduler) (now : Int) :
    (s.resumeTasks now).freed = s.freed := by
  unfold resumeTasks
  split
  · rfl
  split
  · rfl
  · simp

theorem count_stored_fileTask (s : Scheduler) (task t : TaskPtr) (now : Int) :
    (stored (s.fileTask task now)).count t = (stored s).count t + [task].count t := by
  simp only [fileTask]
  split
  · rw [count_stored_unprotectedAddTaskToMap]
    rfl
  · simp only [count_stored, List.count_append]
    omega

theorem fileTask_freed (s : Scheduler) (task : TaskPtr) (now : Int) :
    (s.fileTask task now).freed = s.freed := by
  simp only [fileTask]
  split
  · simp [unprotectedAddTaskToMap]
  · rfl

/-! ### Conservation -/

namespace World

/-- The tasks of the world: in the containers, in the hand, deleted, removed. -/
def accounted (s : World) : List TaskPtr :=
  stored s.scheduler ++ s.hand ++ s.scheduler.freed ++ s.removed

/-- Every task is accounted for as many times as it was added. -/
def Conserves (s : World) : Prop :=
  ∀ t, s.accounted.count t = s.added.count t

theorem count_places (s : World) (t : TaskPtr) :
    s.places.count t = (stored s.scheduler).count t + s.hand.count t := by
  simp only [places, List.count_append, count_stored]
  omega

theorem count_accounted (s : World) (t : TaskPtr) :
    s.accounted.count t = (stored s.scheduler).count t + s.hand.count t +
      s.scheduler.freed.count t + s.removed.count t := by
  simp [accounted, List.count_append, Nat.add_assoc]

/-- `Conserves` place by place. -/
theorem Conserves.count_eq_added {s : World} (hs : s.Conserves) (t : TaskPtr) :
    s.scheduler.taskMap.values.count t + s.scheduler.tasksToAdd.count t +
      s.hand.count t + s.scheduler.trashTaskList.count t +
      s.scheduler.freed.count t + s.removed.count t = s.added.count t := by
  have ht := hs t
  rw [count_accounted, count_stored] at ht
  omega

/-- A task added once is once in the map when it is in there. -/
theorem Conserves.count_values_eq_one {s : World} (hs : s.Conserves) {t : TaskPtr}
    (honce : s.added.count t = 1) (ht : t ∈ s.scheduler.taskMap.values) :
    s.scheduler.taskMap.values.count t = 1 := by
  have hadded := hs.count_eq_added t
  have hpos := List.count_pos_iff.mpr ht
  omega

theorem conserves_initial (heap : TaskPtr → Task) (noDelay : Bool) (clock : Int) :
    Conserves (initial heap noDelay clock) := by
  intro t
  simp [accounted, stored, initial, create, hand]

end World

open World

/-- The worker moves tasks between the containers and its hand. -/
theorem WorkerMove.conserves {s s' : World} (h : WorkerMove s s')
    (hs : s.Conserves) : s'.Conserves := by
  intro t
  have ht := hs t
  rw [count_accounted] at ht ⊢
  cases h with
  | prepare hpc =>
      rw [← ht]
      simp [hand, hpc, count_stored_prepareTasks, prepareTasks_freed]
  | take now key task overruns hpc hbegin hready =>
      have hvalues : s.scheduler.taskMap.values.count t =
          [task].count t + s.scheduler.taskMap.eraseBegin.values.count t := by
        rw [Multimap.values_of_begin? hbegin, ← List.singleton_append,
          List.count_append]
      rw [count_stored] at ht ⊢
      simp only [hand, hpc, List.count_nil] at ht ⊢
      omega
  | file task now hpc =>
      rw [fileTask_freed, count_stored_fileTask]
      simp only [hand, hpc, List.count_nil] at ht ⊢
      omega
  | delete hpc =>
      rw [count_stored] at ht ⊢
      simp only [hand, hpc, List.count_nil, deleteTrashedTasks, List.count_append] at ht ⊢
      omega
  | run task now hpc =>
      rw [← ht]
      simp [hand, hpc]
  | start hpc | enter hpc | leave hpc | unpaused hpc | tasked hpc | skipWait hpc
  | compute hpc | sleep _ hpc | wake _ hpc | pass hpc | retry hpc | read hpc
  | underflow _ hpc | early _ _ hpc =>
      rw [← ht]
      simp [hand, hpc, stored]

namespace World

/-- A client moves tasks between the containers, its own hands and the
allocator. -/
theorem step_conserves {s s' : World} {a : Action} (hs : s.Conserves)
    (h : s.step a = some s') : s'.Conserves := by
  cases move_of_step h with
  | work hmove => exact hmove.conserves hs
  | addTask task =>
      intro t
      have ht := hs t
      rw [count_accounted] at ht ⊢
      simp only [hand, addTask_freed, count_stored_addTask, List.count_append] at ht ⊢
      omega
  | removeTask task =>
      intro t
      have ht := hs t
      have hremove := count_stored_removeTask s.scheduler task t
      rw [count_accounted] at ht ⊢
      simp only [hand, removeTask_freed, List.count_append] at ht ⊢
      omega
  | clearTrash =>
      intro t
      have ht := hs t
      rw [count_accounted, count_stored] at ht ⊢
      simp only [hand, deleteTrashedTasks, List.count_append, List.count_nil] at ht ⊢
      omega
  | clearTasks hclearing =>
      intro t
      have ht := hs t
      rw [count_accounted, count_stored] at ht ⊢
      simp only [hand, Scheduler.clearTasks, List.count_append, List.count_nil,
        Multimap.values_empty] at ht ⊢
      omega
  | pause hlock =>
      intro t
      rw [← hs t]
      simp only [Scheduler.pause]
      split <;> rfl
  | resumeTasks hlock hpaused =>
      intro t
      have ht := hs t
      rw [count_accounted] at ht ⊢
      simpa only [hand, resumeTasks_freed, count_stored_resumeTasks] using ht
  | resumeRunning | resumed | requestStop | stopUnpause | stopTasks | tick => exact hs

theorem conserves {allowed : World → Action → Prop} {s : World}
    (h : Transition.Reaches step allowed IsInitial s) : s.Conserves := by
  refine h.invariant ?_ fun _ _ _ hs _ hstep => step_conserves hs hstep
  rintro _ ⟨heap, noDelay, clock, rfl⟩
  exact conserves_initial heap noDelay clock

end World

end Sihd.Util.Scheduler
