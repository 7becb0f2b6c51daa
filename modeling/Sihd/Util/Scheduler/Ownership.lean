import Sihd.Util.Scheduler.Conservation

/-!
# Where a task added once can be

A task that was added once is in one place at a time: it is filed in the map
under its own run instant, it is deleted at most once, and once `remove_task`
has given it back the scheduler never touches it again. The counting of
`Conservation.lean` carries all of it.
-/

namespace Sihd.Util.Scheduler

/-! ### The key of an entry is the instant of its task -/

/-- The entries of `t` in the map are filed under its run instant. -/
def KeyedAt (s : Scheduler) (t : TaskPtr) : Prop :=
  ∀ k, (k, t) ∈ s.taskMap.entries → k = (s.heap t).runAt

theorem notMem_entries_of_count_eq_zero {m : Multimap Int TaskPtr} {t : TaskPtr}
    (h : m.values.count t = 0) (k : Int) : (k, t) ∉ m.entries := by
  intro hk
  have hmem : t ∈ m.values := List.mem_map.mpr ⟨(k, t), hk, rfl⟩
  exact absurd hmem (List.count_eq_zero.mp h)

theorem keyedAt_of_count_eq_zero {s : Scheduler} {t : TaskPtr}
    (h : s.taskMap.values.count t = 0) : KeyedAt s t :=
  fun k hk => absurd hk (notMem_entries_of_count_eq_zero h k)

@[simp] theorem keyedAt_refreshNextRun_iff (s : Scheduler) (t : TaskPtr) :
    KeyedAt s.refreshNextRun t ↔ KeyedAt s t := by
  simp [KeyedAt]

theorem keyedAt_unprotectedAddTaskToMap {s : Scheduler} {task t : TaskPtr}
    (h : KeyedAt s t) : KeyedAt (s.unprotectedAddTaskToMap task) t := by
  rw [unprotectedAddTaskToMap, keyedAt_refreshNextRun_iff]
  intro k hk
  rcases (Multimap.mem_entries_emplace _ _ _ _).mp hk with heq | hold
  · cases heq
    rfl
  · exact h k hold

/-- A task outside the map may get a new instant before it is filed. -/
theorem keyedAt_update_of_count_eq_zero {s : Scheduler} {task t : TaskPtr} {v : Int}
    (h : KeyedAt s t) (hcount : t = task → s.taskMap.values.count t = 0) :
    KeyedAt { s with heap := setRunAt s.heap task v } t := by
  by_cases ht : t = task
  · exact keyedAt_of_count_eq_zero (hcount ht)
  · intro k hk
    change k = (setRunAt s.heap task v t).runAt
    rw [setRunAt_of_ne s.heap v ht]
    exact h k hk

theorem keyedAt_addTask {s : Scheduler} {task t : TaskPtr} (now : Int)
    (h : KeyedAt s t) (hcount : t = task → s.taskMap.values.count t = 0) :
    KeyedAt (s.addTask now task) t := by
  unfold addTask
  split
  · apply keyedAt_unprotectedAddTaskToMap
    by_cases hin : 0 < (s.heap task).runIn
    · simpa only [if_pos hin] using keyedAt_update_of_count_eq_zero h hcount
    · simpa only [if_neg hin] using h
  · exact h

theorem keyedAt_fileTask {s : Scheduler} {task t : TaskPtr} (now : Int)
    (h : KeyedAt s t) (hcount : t = task → s.taskMap.values.count t = 0) :
    KeyedAt (s.fileTask task now) t := by
  simp only [fileTask]
  split
  · exact keyedAt_unprotectedAddTaskToMap (keyedAt_update_of_count_eq_zero h hcount)
  · exact h

theorem keyedAt_removeTask {s : Scheduler} {t : TaskPtr} (task : TaskPtr)
    (h : KeyedAt s t) : KeyedAt (s.removeTask task).2 t := by
  simp only [removeTask]
  split
  · rw [keyedAt_refreshNextRun_iff]
    exact fun k hk => h k (Multimap.mem_of_mem_eraseFirst hk)
  · exact fun k hk => h k (Multimap.mem_of_mem_eraseFirst hk)

theorem keyedAt_prepareTasks {s : Scheduler} {t : TaskPtr} (h : KeyedAt s t)
    (hcount : s.taskMap.values.count t + s.tasksToAdd.count t ≤ 1) :
    KeyedAt s.prepareTasks t := by
  have hfold := foldl_rekeyTask_keyed (fun task => s.beginRun + task.runIn) t
    s.tasksToAdd (s.heap, s.taskMap) hcount h
  intro k hk
  have hmap : s.prepareTasks.taskMap =
      (s.tasksToAdd.foldl (prepareTask s.beginRun) (s.heap, s.taskMap)).2 := by
    simp [prepareTasks]
  have hheap : s.prepareTasks.heap =
      (s.tasksToAdd.foldl (prepareTask s.beginRun) (s.heap, s.taskMap)).1 := by
    simp [prepareTasks]
  rw [hmap] at hk
  rw [hheap]
  exact hfold k hk

theorem keyedAt_resumeTasks {s : Scheduler} {t : TaskPtr} (now : Int)
    (h : KeyedAt s t) (hcount : s.taskMap.values.count t ≤ 1) :
    KeyedAt (s.resumeTasks now) t := by
  unfold resumeTasks
  split
  · exact h
  split
  · exact h
  · rw [keyedAt_refreshNextRun_iff]
    exact foldl_rekeyTask_keyed (fun task => task.runAt + s.pausedTime now) t
      s.taskMap.values (s.heap, Multimap.empty) (by simpa using hcount)
      (fun k hk => absurd hk (by simp))

namespace World

/-- Every entry of a task added at most once is filed under its run instant. -/
def Keyed (s : World) : Prop :=
  ∀ t, s.added.count t ≤ 1 → KeyedAt s.scheduler t

end World

open World

theorem WorkerMove.keyed {s s' : World} (h : WorkerMove s s')
    (hs : s.Conserves) (hk : s.Keyed) : s'.Keyed := by
  intro t ht
  have hbound := hs.count_eq_added t
  cases h with
  | prepare hpc =>
      have hold : KeyedAt s.scheduler t := hk t ht
      exact keyedAt_prepareTasks hold (by simp only at ht; omega)
  | file task now hpc =>
      refine keyedAt_fileTask now (hk t ht) ?_
      rintro rfl
      have hhand : s.hand.count t = 1 := by simp [hand, hpc]
      simp only at ht
      omega
  | take now key task overruns hpc hbegin hready =>
      exact fun k hmem => hk t ht k (Multimap.mem_of_mem_eraseBegin hmem)
  | start hpc | enter hpc | leave hpc | unpaused hpc | tasked hpc | skipWait hpc
  | compute hpc | sleep _ hpc | wake _ hpc | pass hpc | retry hpc | read hpc
  | underflow _ hpc | early _ _ hpc | run _ _ hpc | delete hpc =>
      exact hk t ht

namespace World

theorem step_keyed {s s' : World} {a : Action} (hs : s.Conserves) (hk : s.Keyed)
    (h : s.step a = some s') : s'.Keyed := by
  cases move_of_step h with
  | work hmove => exact hmove.keyed hs hk
  | addTask task =>
      intro t ht
      have hbound := hs.count_eq_added t
      rw [List.count_append] at ht
      refine keyedAt_addTask s.clock (hk t (by omega)) ?_
      rintro rfl
      rw [List.count_singleton_self] at ht
      omega
  | removeTask task => exact fun t ht => keyedAt_removeTask task (hk t ht)
  | clearTasks hclearing =>
      exact fun t _ k hmem => absurd hmem (by simp [Scheduler.clearTasks])
  | resumeTasks hlock hpaused =>
      intro t ht
      have hbound := hs.count_eq_added t
      exact keyedAt_resumeTasks s.clock (hk t ht) (by simp only at ht; omega)
  | pause hlock =>
      intro t ht
      simp only [Scheduler.pause]
      split <;> exact hk t ht
  | clearTrash | resumeRunning | resumed | requestStop | stopUnpause | stopTasks | tick =>
      exact hk

theorem keyed {s : World} (h : Reachable s) : s.Keyed := by
  have hboth : s.Conserves ∧ s.Keyed := by
    refine h.invariant (I := fun s => s.Conserves ∧ s.Keyed) ?_ ?_
    · rintro _ ⟨heap, noDelay, clock, rfl⟩
      refine ⟨conserves_initial heap noDelay clock, ?_⟩
      exact fun t _ k hmem => absurd hmem (by simp [initial, create])
    · intro s a s' hs _ hstep
      exact ⟨step_conserves hs.1 hstep, step_keyed hs.1 hs.2 hstep⟩
  exact hboth.2

/-! ### After a removal -/

/-- The client does not give `t` to `add_task` again. -/
def neverAdds (t : TaskPtr) (_ : World) (a : Action) : Prop :=
  a ≠ .addTask t

/-- The tasks that a step enters in each history. -/
def addedBy : Action → List TaskPtr
  | .addTask task => [task]
  | _ => []

def removedBy (s : World) : Action → List TaskPtr
  | .removeTask task => erasedBy s.scheduler task
  | _ => []

def ranBy (s : World) : Action → List TaskPtr
  | .work => match s.worker with
    | .playing task _ => [task]
    | _ => []
  | _ => []

theorem step_history {s s' : World} {a : Action} (h : s.step a = some s') :
    s'.added = s.added ++ addedBy a ∧ s'.removed = s.removed ++ s.removedBy a ∧
      s'.ran = s.ran ++ s.ranBy a := by
  cases move_of_step h with
  | work hmove => cases hmove <;> simp [addedBy, removedBy, ranBy, *]
  | _ => simp [addedBy, removedBy, ranBy]

/-- A step that runs a task finds it in the worker's hand. -/
theorem ranBy_sublist_hand (s : World) (a : Action) :
    (s.ranBy a).Sublist s.hand := by
  cases a with
  | work => cases hpc : s.worker <;> simp [ranBy, hand, hpc]
  | _ => exact List.nil_sublist _

/-- What remains true of a task added once from its removal on. -/
structure GivenBack (s : World) (t : TaskPtr) : Prop where
  conserves : s.Conserves
  addedOnce : s.added.count t = 1
  removed : 1 ≤ s.removed.count t

theorem GivenBack.count_eq_zero {s : World} {t : TaskPtr} (h : s.GivenBack t) :
    s.places.count t = 0 ∧ s.scheduler.freed.count t = 0 := by
  have ht := h.conserves t
  have honce := h.addedOnce
  have hremoved := h.removed
  rw [count_accounted] at ht
  rw [count_places]
  omega

theorem GivenBack.step {s s' : World} {a : Action} {t : TaskPtr}
    (hs : s.GivenBack t) (ha : a ≠ .addTask t) (h : s.step a = some s') :
    s'.GivenBack t ∧ s'.ran.count t = s.ran.count t := by
  obtain ⟨hadded, hremoved, hran⟩ := step_history h
  have hnotAdded : (addedBy a).count t = 0 := by
    cases a with
    | addTask task =>
        have hne : task ≠ t := fun he => ha (by rw [he])
        simp [addedBy, hne]
    | _ => rfl
  have hnotRan : (s.ranBy a).count t = 0 := by
    have hle := (s.ranBy_sublist_hand a).count_le t
    have hplaces := hs.count_eq_zero.1
    rw [count_places] at hplaces
    omega
  have honce := hs.addedOnce
  have hgiven := hs.removed
  refine ⟨⟨step_conserves hs.conserves h, ?_, ?_⟩, ?_⟩
  · rw [hadded, List.count_append]
    omega
  · rw [hremoved, List.count_append]
    omega
  · rw [hran, List.count_append]
    omega

/-- A removal that returns true gives the task back. -/
theorem givenBack_of_removeTask {s s' : World} {t : TaskPtr} (hs : s.Conserves)
    (honce : s.added.count t = 1) (hfound : (s.scheduler.removeTask t).1 = true)
    (h : s.step (.removeTask t) = some s') : s'.GivenBack t := by
  obtain ⟨hadded, hremoved, _⟩ := step_history h
  refine ⟨step_conserves hs h, by simpa [hadded, addedBy] using honce, ?_⟩
  have hpos : 1 ≤ (erasedBy s.scheduler t).count t := by
    simp only [removeTask, Bool.or_eq_true] at hfound
    rw [erasedBy, List.count_append]
    rcases hfound with hfound | hfound
    · rw [hfound]
      simp
    · rw [hfound]
      simp
  rw [hremoved, List.count_append]
  exact hpos.trans (Nat.le_add_left _ _)

theorem GivenBack.forever {s s' : World} {t : TaskPtr} (hs : s.GivenBack t)
    (h : Transition.Reaches World.step (neverAdds t) (· = s) s') :
    s'.GivenBack t ∧ s'.ran.count t = s.ran.count t := by
  refine h.invariant (I := fun u => u.GivenBack t ∧ u.ran.count t = s.ran.count t)
    ?_ ?_
  · rintro u rfl
    exact ⟨hs, rfl⟩
  · intro u a u' hu ha hstep
    obtain ⟨hnext, hran⟩ := hu.1.step ha hstep
    exact ⟨hnext, hran.trans hu.2⟩

/-! ### Every interleaving -/

/-- In every state that an interleaving of the clients with the worker
reaches, a task added once that was neither removed nor deleted is in exactly
one place, a task added once is filed under its run instant and deleted at most
once, and a removal that returns true is final. -/
theorem tasks_conserved {s : World} (h : Reachable s) :
    (∀ t, s.added.count t = 1 → t ∉ s.removed → t ∉ s.scheduler.freed →
      s.places.count t = 1) ∧
    (∀ t, s.added.count t = 1 → ∀ k, (k, t) ∈ s.scheduler.taskMap.entries →
      k = (s.scheduler.heap t).runAt) ∧
    (∀ t, s.added.count t = 1 → s.scheduler.freed.count t ≤ 1) ∧
    (∀ t s₁ s₂, s.added.count t = 1 → (s.scheduler.removeTask t).1 = true →
      s.step (.removeTask t) = some s₁ →
      Transition.Reaches World.step (neverAdds t) (· = s₁) s₂ →
        t ∉ s₂.places ∧ s₂.scheduler.freed.count t = 0 ∧
          s₂.ran.count t = s.ran.count t) := by
  have hs : s.Conserves := conserves h
  refine ⟨?_, ?_, ?_, ?_⟩
  · intro t honce hremoved hfreed
    have ht := hs t
    rw [count_accounted, ← count_places, List.count_eq_zero.mpr hremoved,
      List.count_eq_zero.mpr hfreed] at ht
    exact ht.trans honce
  · intro t honce
    exact keyed h t honce.le
  · intro t honce
    have ht := hs t
    rw [count_accounted] at ht
    omega
  · intro t s₁ s₂ honce hfound hstep hreach
    have hback : s₁.GivenBack t := givenBack_of_removeTask hs honce hfound hstep
    obtain ⟨hlast, hran⟩ := hback.forever hreach
    have hran₁ : s₁.ran = s.ran := by
      simpa [ranBy] using (step_history hstep).2.2
    refine ⟨?_, hlast.count_eq_zero.2, by rw [hran, hran₁]⟩
    exact List.count_eq_zero.mp hlast.count_eq_zero.1

theorem tasks_conserved_of_added_then_removed :
    ∃ s s₁ : World, Reachable s ∧ s.places.count 0 = 1 ∧
      s.step (.removeTask 0) = some s₁ ∧ 0 ∉ s₁.places := by
  obtain ⟨s, hs, honce, hremoved, hfreed, hfound⟩ :=
    exists_reachable (fun _ => ⟨0, 5, 0⟩) false 0 [.addTask 0]
      (P := fun s => s.added.count 0 = 1 ∧ 0 ∉ s.removed ∧
        0 ∉ s.scheduler.freed ∧ (s.scheduler.removeTask 0).1 = true) (by decide)
  have hall := tasks_conserved hs
  refine ⟨s, _, hs, hall.1 0 honce hremoved hfreed, rfl, ?_⟩
  exact (hall.2.2.2 0 _ _ honce hfound rfl (.start rfl)).1

/-- A task that has run and is deleted is in none of the places, and a task
added twice may be filed under an old instant or deleted twice. -/
theorem not_every_added_task_conserved :
    (¬ ∀ s, Reachable s → ∀ t, s.added.count t = 1 → t ∉ s.removed →
      s.places.count t = 1) ∧
    (¬ ∀ s, Reachable s → ∀ e ∈ s.scheduler.taskMap.entries,
      e.1 = (s.scheduler.heap e.2).runAt) ∧
    (¬ ∀ s, Reachable s → ∀ t, s.scheduler.freed.count t ≤ 1) := by
  refine ⟨?_, ?_, ?_⟩
  · intro hall
    obtain ⟨s, hs, honce, hremoved, hplaces⟩ := exists_reachable
      (fun _ => ⟨0, 0, 0⟩) false 0 (.addTask 0 :: List.replicate 14 .work)
      (P := fun s => s.added.count 0 = 1 ∧ 0 ∉ s.removed ∧ s.places.count 0 = 0)
      (by decide)
    exact absurd ((hall s hs 0 honce hremoved).symm.trans hplaces) (by decide)
  · intro hall
    obtain ⟨s, hs, e, he, hne⟩ := exists_reachable (fun _ => ⟨0, 5, 0⟩) false 0
      [.work, .work, .addTask 0, .tick 5, .addTask 0]
      (P := fun s => ∃ e ∈ s.scheduler.taskMap.entries,
        e.1 ≠ (s.scheduler.heap e.2).runAt) (by decide)
    exact hne (hall s hs e he)
  · intro hall
    obtain ⟨s, hs, hfreed⟩ := exists_reachable (fun _ => ⟨0, 5, 0⟩) false 0
      [.addTask 0, .addTask 0, .clearTrash, .clearTasks]
      (P := fun s => s.scheduler.freed.count 0 = 2) (by decide)
    exact absurd (hall s hs 0) (by rw [hfreed]; decide)

end World

end Sihd.Util.Scheduler
