import Sihd.Util.Scheduler.Ownership

/-!
# The cached instant and the worker's sleep

`_next_run` caches the smallest key of the map and the worker sleeps until the
instant it reads there. The cache is refreshed by the calls that add or remove
a task, not by the worker when it takes one, and the sleep is not cut short by
an earlier task. `keepsDeadline` says which calls do no harm: in the runs made
of them the cache is exact and no sleep ends after the first task.
-/

namespace Sihd.Util.Scheduler

open World

/-! ### The cache after each section -/

/-- `_next_run` is the smallest key of the map, when there is one. -/
def NextRunExact (s : Scheduler) : Prop :=
  s.taskMap.entries ≠ [] → s.taskMap.IsMinKey s.nextRun

theorem nextRunExact_refreshNextRun (s : Scheduler) :
    NextRunExact s.refreshNextRun := by
  intro hne
  rw [refreshNextRun_taskMap] at hne ⊢
  unfold refreshNextRun
  cases hbegin : s.taskMap.begin? with
  | none => exact absurd ((Multimap.begin?_eq_none_iff _).mp hbegin) hne
  | some e => exact Multimap.isMinKey_of_begin? hbegin

theorem nextRunExact_addTask {s : Scheduler} (now : Int) (task : TaskPtr)
    (h : NextRunExact s) : NextRunExact (s.addTask now task) := by
  unfold addTask
  split
  · exact nextRunExact_refreshNextRun _
  · exact h

theorem nextRunExact_fileTask {s : Scheduler} (now : Int) (task : TaskPtr)
    (h : NextRunExact s) : NextRunExact (s.fileTask task now) := by
  simp only [fileTask]
  split
  · exact nextRunExact_refreshNextRun _
  · exact h

theorem nextRunExact_removeTask {s : Scheduler} (task : TaskPtr)
    (h : NextRunExact s) : NextRunExact (s.removeTask task).2 := by
  by_cases hmem : s.taskMap.values.contains task = true
  · have hrefresh : (s.removeTask task).2 = refreshNextRun { s with
        tasksToAdd := s.tasksToAdd.erase task
        taskMap := s.taskMap.eraseFirst (· == task) } := by
      simp only [removeTask, if_pos hmem]
    rw [hrefresh]
    exact nextRunExact_refreshNextRun _
  · have hsame : s.taskMap.eraseFirst (· == task) = s.taskMap := by
      apply Multimap.ext
      apply List.eraseP_of_forall_not
      intro e he heq
      have hval : task ∈ s.taskMap.values :=
        List.mem_map.mpr ⟨e, he, by simpa using heq⟩
      exact hmem (by simpa using hval)
    have hkept : (s.removeTask task).2 = { s with
        tasksToAdd := s.tasksToAdd.erase task } := by
      simp only [removeTask, if_neg hmem, hsame]
    rw [hkept]
    exact h

theorem nextRunExact_prepareTasks (s : Scheduler) : NextRunExact s.prepareTasks :=
  nextRunExact_refreshNextRun { s with
    heap := (s.tasksToAdd.foldl (prepareTask s.beginRun) (s.heap, s.taskMap)).1
    taskMap := (s.tasksToAdd.foldl (prepareTask s.beginRun) (s.heap, s.taskMap)).2 }

/-- The instant that `add_task` files the task under. -/
def newRunAt (s : Scheduler) (now : Int) (task : TaskPtr) : Int :=
  if 0 < (s.heap task).runIn then now + (s.heap task).runIn else (s.heap task).runAt

theorem mem_entries_addTask {s : Scheduler} {now : Int} {task : TaskPtr}
    {e : Int × TaskPtr} (h : e ∈ (s.addTask now task).taskMap.entries) :
    e = (newRunAt s now task, task) ∨ e ∈ s.taskMap.entries := by
  unfold addTask at h
  split at h
  · rw [unprotectedAddTaskToMap, refreshNextRun_taskMap] at h
    rcases (Multimap.mem_entries_emplace _ _ _ _).mp h with heq | hold
    · left
      rw [heq, newRunAt]
      by_cases hin : 0 < (s.heap task).runIn <;> simp [hin]
    · exact .inr hold
  · exact .inr h

namespace World

/-- The instant at which the worker's sleep will end: what is left of the
duration it computed, or the end of the wait it is in. -/
def sleepsUntil (s : World) : Option Int :=
  match s.worker with
  | .enterWait duration => some (s.clock + duration)
  | .timedWait wakeAt => some wakeAt
  | _ => none

/-- The call does no harm to the cache or to the sleep: no task is added before
the end of the sleep, the wait is entered at the instant its duration was
computed, and the task that the worker takes leaves one of its own instant or
an empty map. Only the calls to `add_task` and `remove_task`, the worker and
the clock are considered. -/
def keepsDeadline (s : World) : Action → Bool
  | .addTask task =>
      s.sleepsUntil.all (· ≤ newRunAt s.scheduler s.clock task)
  | .removeTask _ => true
  | .tick d =>
      match s.worker with
      | .enterWait _ => d == 0
      | _ => true
  | .work =>
      match s.worker, s.scheduler.taskMap.entries with
      | .select now, e :: e' :: _ => !s.scheduler.ready e.2 now || e.1 == e'.1
      | _, _ => true
  | _ => false

/-- The sleep ends no later than the smallest key of the map. -/
def SleepInTime (s : World) : Prop :=
  ∀ w, s.sleepsUntil = some w → ∀ e ∈ s.scheduler.taskMap.entries, w ≤ e.1

end World

theorem WorkerMove.nextRunExact {s s' : World} (h : WorkerMove s s')
    (hs : NextRunExact s.scheduler) (ha : s.keepsDeadline .work = true) :
    NextRunExact s'.scheduler := by
  cases h with
  | prepare hpc => exact nextRunExact_prepareTasks s.scheduler
  | file task now hpc => exact nextRunExact_fileTask now task hs
  | take now key task overruns hpc hbegin hready =>
      have hentries := Multimap.entries_of_begin? hbegin
      have hmin : s.scheduler.taskMap.IsMinKey s.scheduler.nextRun :=
        hs (by rw [hentries]; simp)
      have hkey : s.scheduler.nextRun = key :=
        hmin.unique (Multimap.isMinKey_of_begin? hbegin)
      intro hne
      cases hrest : s.scheduler.taskMap.eraseBegin.entries with
      | nil => exact absurd hrest hne
      | cons e' rest =>
          simp only [keepsDeadline, hpc, hentries, hrest, hready] at ha
          have hbegin' : s.scheduler.taskMap.eraseBegin.begin? = some e' := by
            simp [Multimap.begin?, hrest]
          have hfirst := Multimap.isMinKey_of_begin? hbegin'
          have heq : key = e'.1 := by simpa using ha
          change s.scheduler.taskMap.eraseBegin.IsMinKey s.scheduler.nextRun
          rw [hkey, heq]
          exact hfirst
  | start | enter | leave | unpaused | tasked | skipWait | compute | sleep | wake
  | pass | retry | read | underflow | early | run | delete => exact hs

theorem WorkerMove.sleepInTime {s s' : World} (h : WorkerMove s s')
    (hexact : NextRunExact s.scheduler) (hs : s.SleepInTime) : s'.SleepInTime := by
  intro w hw e he
  cases h with
  | compute hpc hdelay =>
      have hmin := (hexact (List.ne_nil_of_mem he)).2 e he
      simp only [sleepsUntil, Option.some.injEq] at hw
      omega
  | sleep duration hpc =>
      exact hs w (by simpa [sleepsUntil, hpc] using hw) e he
  | start | prepare | enter | leave | unpaused | tasked | skipWait | wake | pass
  | retry | read | underflow | take | early | run | file | delete =>
      simp [sleepsUntil] at hw

namespace World

theorem step_deadline {s s' : World} {a : Action}
    (hexact : NextRunExact s.scheduler) (hs : s.SleepInTime)
    (ha : s.keepsDeadline a = true) (h : s.step a = some s') :
    NextRunExact s'.scheduler ∧ s'.SleepInTime := by
  cases move_of_step h with
  | work hmove => exact ⟨hmove.nextRunExact hexact ha, hmove.sleepInTime hexact hs⟩
  | addTask task =>
      refine ⟨nextRunExact_addTask s.clock task hexact, ?_⟩
      intro w hw e he
      have hw' : s.sleepsUntil = some w := hw
      rcases mem_entries_addTask he with rfl | hold
      · simpa [keepsDeadline, hw'] using ha
      · exact hs w hw' e hold
  | removeTask task =>
      refine ⟨nextRunExact_removeTask task hexact, ?_⟩
      intro w hw e he
      rw [removeTask_taskMap] at he
      exact hs w hw e (Multimap.mem_of_mem_eraseFirst he)
  | tick d =>
      refine ⟨hexact, ?_⟩
      intro w hw e he
      refine hs w ?_ e he
      cases hpc : s.worker with
      | enterWait duration =>
          have hd : d = 0 := by simpa [keepsDeadline, hpc] using ha
          simpa [sleepsUntil, hpc, hd] using hw
      | timedWait wakeAt => simpa [sleepsUntil, hpc] using hw
      | _ => simp [sleepsUntil, hpc] at hw
  | clearTrash | clearTasks | pause | resumeTasks | resumeRunning | resumed | requestStop
  | stopUnpause | stopTasks => simp [keepsDeadline] at ha

/-- In the runs whose calls do no harm, the cache is the smallest key of the
map, the sleep ends no later than it, and the key of a task added once is its
run instant. -/
theorem never_sleeps_past_the_first_task {s : World}
    (h : ReachableBy keepsDeadline s) :
    (s.scheduler.taskMap.entries ≠ [] →
      s.scheduler.taskMap.IsMinKey s.scheduler.nextRun) ∧
    (∀ wakeAt, s.worker = .timedWait wakeAt →
      ∀ e ∈ s.scheduler.taskMap.entries, wakeAt ≤ e.1) ∧
    (∀ e ∈ s.scheduler.taskMap.entries, s.added.count e.2 = 1 →
      e.1 = (s.scheduler.heap e.2).runAt) := by
  have hboth : NextRunExact s.scheduler ∧ s.SleepInTime := by
    refine h.invariant (I := fun s => NextRunExact s.scheduler ∧ s.SleepInTime)
      ?_ fun _ _ _ hs ha hstep => step_deadline hs.1 hs.2 ha hstep
    rintro _ ⟨heap, noDelay, clock, rfl⟩
    refine ⟨fun hne => absurd rfl hne, ?_⟩
    intro w hw
    simp [initial, sleepsUntil] at hw
  have hreach : Reachable s := h.mono fun _ _ _ => trivial
  refine ⟨hboth.1, ?_, ?_⟩
  · intro wakeAt hpc
    exact hboth.2 wakeAt (by simp [sleepsUntil, hpc])
  · intro e he honce
    exact keyed hreach e.2 honce.le e.1 he

theorem sleeps_until_the_first_task :
    ∃ s : World, s.worker = .timedWait 5 ∧
      ∀ e ∈ s.scheduler.taskMap.entries, 5 ≤ e.1 := by
  obtain ⟨s, hs, hpc⟩ := exists_reachableBy keepsDeadline
    (fun t => ⟨0, 5 + t, 0⟩) false 0
    (.addTask 1 :: .addTask 0 :: List.replicate 6 .work ++ [.work, .addTask 2])
    (P := fun s => s.worker = .timedWait 5) (by decide)
  exact ⟨s, hpc, (never_sleeps_past_the_first_task hs).2.1 5 hpc⟩

/-- The calls of the claim: tasks are added and removed, nothing is paused. -/
def addsOrRemoves (_ : World) : Action → Bool
  | .addTask _ | .removeTask _ | .tick _ | .work => true
  | _ => false

/-- Taking a task leaves the cache at its instant, and a task added during the
sleep does not shorten it. -/
theorem sleeps_past_an_earlier_task :
    (¬ ∀ s, ReachableBy addsOrRemoves s → s.scheduler.taskMap.entries ≠ [] →
      s.scheduler.taskMap.IsMinKey s.scheduler.nextRun) ∧
    (¬ ∀ s, ReachableBy addsOrRemoves s → ∀ wakeAt, s.worker = .timedWait wakeAt →
      ∀ e ∈ s.scheduler.taskMap.entries, wakeAt ≤ e.1) := by
  refine ⟨?_, ?_⟩
  · intro hall
    obtain ⟨s, hs, hne, hstale⟩ := exists_reachableBy addsOrRemoves
      (fun t => ⟨0, 5 + 45 * t, 0⟩) false 0
      (.addTask 0 :: .addTask 1 :: List.replicate 7 .work ++
        .tick 5 :: List.replicate 4 .work)
      (P := fun s => s.scheduler.taskMap.entries ≠ [] ∧
        ∀ e ∈ s.scheduler.taskMap.entries, e.1 ≠ s.scheduler.nextRun) (by decide)
    obtain ⟨x, hx⟩ := (hall s hs hne).1
    exact hstale _ hx rfl
  · intro hall
    obtain ⟨s, hs, hpc, e, he, hlate⟩ := exists_reachableBy addsOrRemoves
      (fun t => ⟨0, 5 + 45 * t, 0⟩) false 0
      (.addTask 1 :: List.replicate 7 .work ++ [.addTask 0])
      (P := fun s => s.worker = .timedWait 50 ∧
        ∃ e ∈ s.scheduler.taskMap.entries, e.1 < 50) (by decide)
    exact absurd (hall s hs 50 hpc e he) (not_le.mpr hlate)

end World

end Sihd.Util.Scheduler
