import Sihd.Util.Scheduler.World

/-!
# What one step can do

`WorkerMove s s'` lists the moves of the worker and `Move s a s'` those of the
clients and the clock, each with everything that makes it possible, so that an
invariant is proved move by move and the definition of the step is opened once,
in `workerMove_of_step` and `move_of_step`.
-/

namespace Sihd.Util.Scheduler

open World

inductive WorkerMove (s : World) : World → Prop
  | start (hpc : s.worker = .created) :
      WorkerMove s { s with
        scheduler := { s.scheduler with overruns := 0, beginRun := s.clock }
        worker := .preparing }
  | prepare (hpc : s.worker = .preparing) :
      WorkerMove s { s with scheduler := s.scheduler.prepareTasks, worker := .loop }
  | enter (hpc : s.worker = .loop) (hstop : s.stopRequested = false) :
      WorkerMove s { s with worker := .waitResume }
  | leave (hpc : s.worker = .loop) (hstop : s.stopRequested = true) :
      WorkerMove s { s with worker := .finished }
  | unpaused (hpc : s.worker = .waitResume) (hlock : s.resuming = false)
      (hgo : s.stopRequested = true ∨ s.scheduler.paused = false) :
      WorkerMove s { s with worker := .waitTask }
  | tasked (hpc : s.worker = .waitTask)
      (hgo : s.stopRequested = true ∨ s.scheduler.taskMap.entries ≠ []) :
      WorkerMove s { s with worker := .computeWait }
  | skipWait (hpc : s.worker = .computeWait) (hdelay : s.scheduler.noDelay = true) :
      WorkerMove s { s with worker := .check }
  | compute (hpc : s.worker = .computeWait) (hdelay : s.scheduler.noDelay = false) :
      WorkerMove s { s with worker := .enterWait (s.scheduler.nextRun - s.clock) }
  | sleep (duration : Int) (hpc : s.worker = .enterWait duration) :
      WorkerMove s { s with worker := .timedWait (s.clock + duration) }
  | wake (wakeAt : Int) (hpc : s.worker = .timedWait wakeAt)
      (hgo : s.stopRequested = true ∨ wakeAt ≤ s.clock) :
      WorkerMove s { s with worker := .check }
  | pass (hpc : s.worker = .check) (hstop : s.stopRequested = false)
      (hpaused : s.scheduler.paused = false) :
      WorkerMove s { s with worker := .readNow }
  | retry (hpc : s.worker = .check) : WorkerMove s { s with worker := .loop }
  | read (hpc : s.worker = .readNow) : WorkerMove s { s with worker := .select s.clock }
  | underflow (now : Int) (hpc : s.worker = .select now)
      (hempty : s.scheduler.taskMap.entries = []) :
      WorkerMove s { s with worker := .undefined }
  | take (now key : Int) (task : TaskPtr) (overruns : Nat)
      (hpc : s.worker = .select now)
      (hbegin : s.scheduler.taskMap.begin? = some (key, task))
      (hready : s.scheduler.ready task now = true) :
      WorkerMove s { s with
        scheduler := { s.scheduler with
          overruns := overruns, taskMap := s.scheduler.taskMap.eraseBegin }
        worker := .playing task now }
  | early (now : Int) (overruns : Nat) (hpc : s.worker = .select now)
      (hbegin : s.scheduler.taskMap.entries ≠ []) :
      WorkerMove s { s with
        scheduler := { s.scheduler with overruns := overruns }
        worker := .deleting }
  | run (task : TaskPtr) (now : Int) (hpc : s.worker = .playing task now) :
      WorkerMove s { s with ran := s.ran ++ [task], worker := .played task now }
  | file (task : TaskPtr) (now : Int) (hpc : s.worker = .played task now) :
      WorkerMove s { s with
        scheduler := s.scheduler.fileTask task now, worker := .deleting }
  | delete (hpc : s.worker = .deleting) :
      WorkerMove s { s with
        scheduler := s.scheduler.deleteTrashedTasks, worker := .loop }

/-- What `_get_playable_task` does on a map that is not empty. -/
theorem getPlayableTask_cases (s : Scheduler) (now : Int) :
    (s.getPlayableTask now = none ∧ s.taskMap.entries = []) ∨
      ∃ key task overruns, s.taskMap.begin? = some (key, task) ∧
        ((s.ready task now = true ∧ s.getPlayableTask now =
            some ({ s with overruns := overruns, taskMap := s.taskMap.eraseBegin },
              some task)) ∨
          s.getPlayableTask now = some ({ s with overruns := overruns }, none)) := by
  cases hbegin : s.taskMap.begin? with
  | none =>
      exact .inl ⟨by simp [getPlayableTask, hbegin],
        (s.taskMap.begin?_eq_none_iff).mp hbegin⟩
  | some e =>
      obtain ⟨key, task⟩ := e
      refine .inr ⟨key, task, ?_⟩
      by_cases hlate : 0 < (s.heap task).runAt ∧
          s.overrunAt < -((s.heap task).runAt - now)
      · refine ⟨s.overruns + 1, rfl, ?_⟩
        by_cases hready : s.ready task now = true
        · refine .inl ⟨hready, ?_⟩
          simp only [getPlayableTask, hbegin, if_pos hlate, if_pos hready]
        · exact .inr (by simp only [getPlayableTask, hbegin, if_pos hlate, if_neg hready])
      · refine ⟨s.overruns, rfl, ?_⟩
        by_cases hready : s.ready task now = true
        · refine .inl ⟨hready, ?_⟩
          simp only [getPlayableTask, hbegin, if_neg hlate, if_pos hready]
        · exact .inr (by simp only [getPlayableTask, hbegin, if_neg hlate, if_neg hready])

theorem workerMove_select {s s' : World} {now : Int} (hpc : s.worker = .select now)
    (h : s.workerStep = some s') : WorkerMove s s' := by
  simp only [workerStep, hpc] at h
  rcases getPlayableTask_cases s.scheduler now with
    ⟨hnone, hempty⟩ | ⟨key, task, overruns, hbegin, ⟨hready, htake⟩ | hearly⟩
  · simp only [hnone, Option.some.injEq] at h
    exact h ▸ .underflow now hpc hempty
  · simp only [htake, Option.some.injEq] at h
    exact h ▸ .take now key task overruns hpc hbegin hready
  · simp only [hearly, Option.some.injEq] at h
    have hne : s.scheduler.taskMap.entries ≠ [] := by
      intro hempty
      rw [(s.scheduler.taskMap.begin?_eq_none_iff).mpr hempty] at hbegin
      cases hbegin
    exact h ▸ .early now overruns hpc hne

theorem workerMove_of_step {s s' : World} (h : s.step .work = some s') :
    WorkerMove s s' := by
  change s.workerStep = some s' at h
  cases hpc : s.worker with
  | select now => exact workerMove_select hpc h
  | created | preparing | playing task now | played task now | deleting | readNow
  | enterWait duration =>
      simp only [workerStep, hpc, Option.some.injEq] at h
      subst h
      constructor
      assumption
  | loop =>
      simp only [workerStep, hpc, Option.some.injEq] at h
      cases hstop : s.stopRequested with
      | true => exact h ▸ by simpa [hstop] using .leave hpc hstop
      | false => exact h ▸ by simpa [hstop] using .enter hpc hstop
  | waitResume =>
      simp only [workerStep, hpc] at h
      split at h
      · rename_i hgo
        exact Option.some.inj h ▸ .unpaused hpc hgo.1 hgo.2
      · cases h
  | waitTask =>
      simp only [workerStep, hpc] at h
      split at h
      · rename_i hgo
        exact Option.some.inj h ▸ .tasked hpc hgo
      · cases h
  | computeWait =>
      simp only [workerStep, hpc, Option.some.injEq] at h
      cases hdelay : s.scheduler.noDelay with
      | true => exact h ▸ by simpa [hdelay] using .skipWait hpc hdelay
      | false => exact h ▸ by simpa [hdelay] using .compute hpc hdelay
  | timedWait wakeAt =>
      simp only [workerStep, hpc] at h
      split at h
      · rename_i hgo
        exact Option.some.inj h ▸ .wake wakeAt hpc hgo
      · cases h
  | check =>
      simp only [workerStep, hpc, Option.some.injEq] at h
      split at h
      · rename_i hgo
        exact h ▸ .pass hpc hgo.1 hgo.2
      · exact h ▸ .retry hpc
  | finished => simp [workerStep, hpc] at h
  | undefined => simp [workerStep, hpc] at h

inductive Move (s : World) : Action → World → Prop
  | work {s' : World} (hmove : WorkerMove s s') : Move s .work s'
  | addTask (task : TaskPtr) :
      Move s (.addTask task) { s with
        scheduler := s.scheduler.addTask s.clock task
        added := s.added ++ [task] }
  | removeTask (task : TaskPtr) :
      Move s (.removeTask task) { s with
        scheduler := (s.scheduler.removeTask task).2
        removed := s.removed ++ erasedBy s.scheduler task }
  | clearTrash :
      Move s .clearTrash { s with
        scheduler := s.scheduler.deleteTrashedTasks
        clearing := s.clearing + 1 }
  | clearTasks (hclearing : 0 < s.clearing) :
      Move s .clearTasks { s with
        scheduler := s.scheduler.clearTasks, clearing := s.clearing - 1 }
  | pause (hlock : s.resuming = false) :
      Move s .pause { s with scheduler := s.scheduler.pause s.clock }
  | resumeTasks (hlock : s.resuming = false) (hpaused : s.scheduler.paused = true) :
      Move s .resumeTasks { s with
        scheduler := s.scheduler.resumeTasks s.clock, resuming := true }
  | resumeRunning (hlock : s.resuming = false) (hrunning : s.scheduler.paused = false) :
      Move s .resumeTasks s
  | resumed (hlock : s.resuming = true) :
      Move s .resumed { s with
        scheduler := { s.scheduler with paused := false }
        resuming := false }
  | requestStop (hstop : s.stop = .running) :
      Move s .requestStop { s with stop := .requested }
  | stopUnpause (hstop : s.stop = .requested) (hlock : s.resuming = false) :
      Move s .stopUnpause { s with
        scheduler := { s.scheduler with paused := false }
        stop := .unpaused }
  | stopTasks (hstop : s.stop = .unpaused) :
      Move s .stopTasks { s with
        scheduler := { s.scheduler with beginRun := 0 }, stop := .stopped }
  | tick (d : Nat) : Move s (.tick d) { s with clock := s.clock + d }

theorem move_of_step {s s' : World} {a : Action} (h : s.step a = some s') : Move s a s' := by
  cases a with
  | work => exact .work (workerMove_of_step h)
  | addTask task | removeTask task | clearTrash | tick d =>
      cases h
      constructor
  | clearTasks =>
      simp only [step] at h
      split at h <;> cases h
      exact .clearTasks (by assumption)
  | pause =>
      simp only [step] at h
      split at h <;> cases h
      rename_i hlock
      exact .pause (by simpa using hlock)
  | resumeTasks =>
      simp only [step] at h
      split at h
      · cases h
      rename_i hlock
      rw [Bool.not_eq_true] at hlock
      split at h <;> cases h
      · exact .resumeTasks hlock (by assumption)
      · rename_i hrunning
        exact .resumeRunning hlock (by simpa using hrunning)
  | resumed =>
      simp only [step] at h
      split at h <;> cases h
      exact .resumed (by assumption)
  | requestStop =>
      simp only [step] at h
      split at h <;> cases h
      exact .requestStop (by assumption)
  | stopUnpause =>
      simp only [step] at h
      split at h <;> cases h
      rename_i hgo
      exact .stopUnpause hgo.1 hgo.2
  | stopTasks =>
      simp only [step] at h
      split at h <;> cases h
      exact .stopTasks (by assumption)

end Sihd.Util.Scheduler
