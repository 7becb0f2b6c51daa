import Sihd.Util.Scheduler.Conservation

/-!
# The worker selects from a map that holds a task

`_wait_for_next_task` checks that the map holds a task in one section, and
`_get_playable_task` reads its first entry in a later one. The worker is
exposed between the two: a `remove_task` or a `clear_tasks` that empties the
map then makes it read the beginning of an empty map. A run in which no such
call empties the map of an exposed worker never does.
-/

namespace Sihd.Util.Scheduler

open World

/-! ### Sections that keep a task in the map -/

theorem unprotectedAddTaskToMap_entries_ne_nil (s : Scheduler) (task : TaskPtr) :
    (s.unprotectedAddTaskToMap task).taskMap.entries ≠ [] := by
  rw [unprotectedAddTaskToMap, refreshNextRun_taskMap]
  exact Multimap.entries_emplace_ne_nil _ _ _

theorem addTask_entries_ne_nil {s : Scheduler} (now : Int) (task : TaskPtr)
    (h : s.taskMap.entries ≠ []) : (s.addTask now task).taskMap.entries ≠ [] := by
  unfold addTask
  split
  · exact unprotectedAddTaskToMap_entries_ne_nil _ _
  · exact h

theorem resumeTasks_entries_ne_nil {s : Scheduler} (now : Int)
    (h : s.taskMap.entries ≠ []) : (s.resumeTasks now).taskMap.entries ≠ [] := by
  unfold resumeTasks
  split
  · exact h
  split
  · exact h
  · have hperm := values_foldl_rekeyTask_perm
      (fun task => task.runAt + s.pausedTime now) s.taskMap.values
      (s.heap, Multimap.empty)
    rw [refreshNextRun_taskMap]
    intro hempty
    have hlength := hperm.length_eq
    simp only [Multimap.values] at hlength
    simp only [resumeTask, Multimap.values] at hempty
    rw [hempty] at hlength
    exact h (List.length_eq_zero_iff.mp (by simpa using hlength.symm))

namespace World

/-- The worker is between the test that the map holds a task and the section
that reads its first entry. A stop request sends it back to the head of the
loop unless it has already passed the last test. -/
def exposed (s : World) : Bool :=
  match s.worker with
  | .computeWait | .enterWait _ | .timedWait _ | .check => !s.stopRequested
  | .readNow | .select _ => true
  | _ => false

/-- The call leaves a task in the map when the worker is exposed. -/
def keepsTask (s : World) : Action → Bool
  | .removeTask task =>
      !s.exposed || !(s.scheduler.taskMap.eraseFirst (· == task)).entries.isEmpty
  | .clearTasks => !s.exposed
  | _ => true

/-- The worker never reads the beginning of an empty map. -/
def SelectsTask (s : World) : Prop :=
  s.worker ≠ .undefined ∧
    ∀ now, s.worker = .select now → s.scheduler.taskMap.entries ≠ []

/-- An exposed worker finds a task. -/
def ExposedSafe (s : World) : Prop :=
  s.worker ≠ .undefined ∧
    (s.exposed = true → s.scheduler.taskMap.entries ≠ [])

end World

theorem WorkerMove.exposedSafe {s s' : World} (h : WorkerMove s s')
    (hs : s.ExposedSafe) : s'.ExposedSafe := by
  have hold := hs.2
  cases h with
  | tasked hpc hgo =>
      refine ⟨by simp, ?_⟩
      intro hexposed
      rcases hgo with hstop | hne
      · simp only [exposed, stopRequested] at hexposed hstop
        simp [hstop] at hexposed
      · exact hne
  | skipWait hpc | compute hpc | sleep _ hpc | wake _ hpc =>
      refine ⟨by simp, ?_⟩
      intro hexposed
      exact hold (by simpa [exposed, hpc, stopRequested] using hexposed)
  | pass hpc hstop =>
      exact ⟨by simp, fun _ => hold (by simp [exposed, hpc, hstop])⟩
  | read hpc =>
      exact ⟨by simp, fun _ => hold (by simp [exposed, hpc])⟩
  | underflow now hpc hempty =>
      exact absurd hempty (hold (by simp [exposed, hpc]))
  | start | prepare | enter | leave | unpaused | retry | take | early | run
  | file | delete =>
      exact ⟨by simp, fun hexposed => by simp [exposed] at hexposed⟩

namespace World

theorem step_exposedSafe {s s' : World} {a : Action} (hs : s.ExposedSafe)
    (ha : s.keepsTask a = true) (h : s.step a = some s') : s'.ExposedSafe := by
  obtain ⟨hdefined, hold⟩ := hs
  cases move_of_step h with
  | work hmove => exact hmove.exposedSafe ⟨hdefined, hold⟩
  | addTask task =>
      exact ⟨hdefined, fun hexposed => addTask_entries_ne_nil _ _ (hold hexposed)⟩
  | removeTask task =>
      refine ⟨hdefined, ?_⟩
      intro hexposed
      have hkeep : s.exposed = true := hexposed
      simp only [keepsTask, hkeep] at ha
      rw [removeTask_taskMap]
      simpa using ha
  | clearTasks hclearing =>
      refine ⟨hdefined, ?_⟩
      intro hexposed
      have hkeep : s.exposed = true := hexposed
      simp [keepsTask, hkeep] at ha
  | resumeTasks hlock hpaused =>
      exact ⟨hdefined, fun hexposed => resumeTasks_entries_ne_nil _ (hold hexposed)⟩
  | pause hlock =>
      refine ⟨hdefined, ?_⟩
      intro hexposed
      simp only [Scheduler.pause]
      split <;> exact hold hexposed
  | requestStop | stopUnpause | stopTasks =>
      -- a stop request only takes the worker out of exposure
      refine ⟨hdefined, ?_⟩
      intro hexposed
      apply hold
      cases hpc : s.worker <;>
        simp_all [exposed, stopRequested]
  | clearTrash | resumeRunning | resumed | tick => exact ⟨hdefined, hold⟩

/-- In a run where no call empties the map of an exposed worker, every
selection finds a task. -/
theorem selectsTask_of_keepsTask {s : World}
    (h : ReachableBy keepsTask s) :
    s.SelectsTask := by
  have hs : s.ExposedSafe := by
    refine h.invariant ?_ fun _ _ _ hs ha hstep => step_exposedSafe hs ha hstep
    rintro _ ⟨heap, noDelay, clock, rfl⟩
    exact ⟨by simp [initial], fun hexposed => by simp [initial, exposed] at hexposed⟩
  exact ⟨hs.1, fun now hpc => hs.2 (by simp [exposed, hpc])⟩

theorem selectsTask_of_two_tasks :
    ∃ (s : World) (now : Int), s.worker = .select now ∧
      s.scheduler.taskMap.entries ≠ [] := by
  obtain ⟨s, hs, hpc⟩ := exists_reachableBy keepsTask (fun _ => ⟨0, 0, 0⟩) false 0
    (.addTask 0 :: .addTask 1 :: List.replicate 9 .work ++ [.removeTask 0, .work])
    (P := fun s => s.worker = .select 0) (by decide)
  exact ⟨s, 0, hpc, (selectsTask_of_keepsTask hs).2 0 hpc⟩

/-- A client that clears the tasks while the worker is about to select one
leaves it an empty map. -/
theorem not_selectsTask_of_clear : ¬ ∀ s, Reachable s → s.SelectsTask := by
  intro hall
  obtain ⟨s, hs, hpc⟩ := exists_reachable (fun _ => ⟨0, 0, 0⟩) false 0
    (.addTask 0 :: List.replicate 10 .work ++ [.clearTrash, .clearTasks, .work])
    (P := fun s => s.worker = .undefined) (by decide)
  exact (hall s hs).1 hpc

end World

end Sihd.Util.Scheduler
