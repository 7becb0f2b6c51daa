import Sihd.Util.SafeQueue
import Mathlib.Logic.Function.Basic

/-!
# The thread pool

The workers of a pool pop jobs from its queue and run them until the queue is
terminated or they are told to stop. `add_job` pushes without a bound and does
not look at what `push` returns.
-/

namespace Sihd.Util

structure ThreadPool (Job : Type) where
  jobs : SafeQueue Job
  stopped : Nat → Bool
  exited : Nat → Bool
  ran : List Job

namespace ThreadPool

variable {Job : Type}

/-- What the threads that use a pool do, and an iteration of a worker. -/
inductive Action (Job : Type) where
  | addJob (job : Job)
  | work (worker : Nat)
  | terminate
  | stopThread (worker : Nat)

def init : ThreadPool Job := ⟨SafeQueue.init, fun _ => false, fun _ => false, []⟩

def exit (p : ThreadPool Job) (worker : Nat) : ThreadPool Job :=
  { p with exited := Function.update p.exited worker true }

/-- `_loop`, once. A job that is popped is run. -/
def loop (p : ThreadPool Job) (worker : Nat) : Option (ThreadPool Job) :=
  if p.exited worker then none
  else if p.stopped worker then some (p.exit worker)
  else
    p.jobs.pop.map fun r =>
      match r.2 with
      | .popped (some job) => { p with jobs := r.1, ran := p.ran ++ [job] }
      | _ => p.exit worker

/-- `stop` terminates the queue and then stops every thread. -/
def step (p : ThreadPool Job) : Action Job → Option (ThreadPool Job)
  | .addJob job => some { p with jobs := (p.jobs.push job 0).1 }
  | .work worker => p.loop worker
  | .terminate => some { p with jobs := ⟨true, []⟩ }
  | .stopThread worker => some { p with stopped := Function.update p.stopped worker true }

def run (actions : List (Action Job)) : Option (ThreadPool Job) :=
  Transition.runs step init actions

/-- A job that is accepted after some actions, and after which no job is run
any more. -/
def Stranded (before : List (Action Job)) (job : Job) : Prop :=
  ∃ p p', run before = some p ∧ p.step (.addJob job) = some p' ∧
    p'.jobs.queue = p.jobs.queue ++ [job] ∧
      ∀ after t, Transition.runs step p' after = some t → t.ran = p'.ran

/-- No job that is added to a pool that is stopped is accepted and never run. -/
def NoneStranded (actions : List (Action Job)) : Prop :=
  ∀ before job after, actions = before ++ .addJob job :: after → .terminate ∈ before →
    ¬ Stranded before job

def NoJobAfterStop (actions : List (Action Job)) : Prop :=
  ∀ before job after, actions = before ++ .addJob job :: after → .terminate ∉ before

theorem terminated_step {p p' : ThreadPool Job} {a : Action Job}
    (h : p.jobs.terminated = true) (hstep : p.step a = some p') :
    p'.jobs.terminated = true ∧ p'.ran = p.ran := by
  cases a with
  | addJob job =>
    obtain rfl := Option.some.inj hstep
    exact ⟨h, rfl⟩
  | work worker =>
    rw [step, loop] at hstep
    split at hstep
    · cases hstep
    · split at hstep
      · obtain rfl := Option.some.inj hstep
        exact ⟨h, rfl⟩
      · rw [SafeQueue.pop, if_pos h, Option.map_some] at hstep
        obtain rfl := Option.some.inj hstep
        exact ⟨h, rfl⟩
  | terminate =>
    obtain rfl := Option.some.inj hstep
    exact ⟨rfl, rfl⟩
  | stopThread worker =>
    obtain rfl := Option.some.inj hstep
    exact ⟨h, rfl⟩

theorem terminated_of_run {actions : List (Action Job)} {p : ThreadPool Job}
    (h : run actions = some p) (hterminate : .terminate ∈ actions) :
    p.jobs.terminated = true := by
  obtain ⟨before, after, rfl⟩ := List.append_of_mem hterminate
  obtain ⟨m, m', -, hstep, hrest⟩ := Transition.runs_append_cons_eq_some_iff.mp h
  refine Transition.invariant_of_runs (fun a _ t t' ht hstep => (terminated_step ht hstep).1) ?_
    hrest
  obtain rfl := Option.some.inj hstep
  rfl

/-- A job that is added to a pool that is stopped is accepted and never run. -/
theorem stranded {before : List (Action Job)} {p : ThreadPool Job} (h : run before = some p)
    (hterminate : .terminate ∈ before) (job : Job) : Stranded before job := by
  have hopen := terminated_of_run h hterminate
  refine ⟨p, { p with jobs := (p.jobs.push job 0).1 }, h, rfl, rfl, fun after t ht => ?_⟩
  exact (Transition.invariant_of_runs
    (I := fun t => t.jobs.terminated = true ∧ t.ran = p.ran) (fun a _ u u' hu hstep => by
      obtain ⟨hclosed, hran⟩ := terminated_step hu.1 hstep
      exact ⟨hclosed, hran.trans hu.2⟩) ⟨hopen, rfl⟩ ht).2

theorem noneStranded_iff {actions : List (Action Job)} {p : ThreadPool Job}
    (h : run actions = some p) : NoneStranded actions ↔ NoJobAfterStop actions := by
  constructor
  · intro hnone before job after hactions hterminate
    rw [hactions] at h
    obtain ⟨m, m', hm, -, -⟩ := Transition.runs_append_cons_eq_some_iff.mp h
    exact hnone before job after hactions hterminate (stranded hm hterminate job)
  · intro hno before job after hactions hterminate
    exact absurd hterminate (hno before job after hactions)

/-- Every run of a queue accounts for the elements in the order in which they
were pushed and keeps the bounds of its pushes; it stays closed after it was
terminated, and strands no job of a pool, exactly when nothing is pushed any
more. -/
theorem safeQueue_run {α Job : Type} :
    (∀ (ops : List (SafeQueue.Op α)) (s : SafeQueue.Log α), SafeQueue.Log.run ops = some s →
      (∃ l, SafeQueue.Accounts s l) ∧
        s.popped.Sublist s.pushed ∧ s.pushed.Perm (s.popped ++ s.removed ++ s.q.queue) ∧
        (∀ value maxSize s', 0 < maxSize → s.step (.push value maxSize) = some s' →
          s'.q.queue.length ≤ maxSize ∨ s' = s) ∧
        (SafeQueue.StaysClosed ops ↔ SafeQueue.NoPushAfterTerminate ops)) ∧
      ∀ (actions : List (Action Job)) (p : ThreadPool Job), run actions = some p →
        (NoneStranded actions ↔ NoJobAfterStop actions) := by
  refine ⟨fun ops s hrun => ?_, fun actions p hrun => noneStranded_iff hrun⟩
  obtain ⟨l, hl⟩ := SafeQueue.exists_accounts hrun
  exact ⟨⟨l, hl⟩, hl.popped_sublist, hl.pushed_perm,
    fun _ _ _ hpos hstep => SafeQueue.length_le_of_push hpos hstep,
    SafeQueue.staysClosed_iff hrun⟩

/-- A push, a `pop` and `terminate`; a job, its run and `terminate`. -/
theorem safeQueue_run_terminate :
    (SafeQueue.StaysClosed [.push 1 2, .pop, .terminate] ↔
        SafeQueue.NoPushAfterTerminate [.push 1 2, .pop, .terminate]) ∧
      (NoneStranded [.addJob 1, .work 0, .terminate] ↔
        NoJobAfterStop [.addJob 1, .work 0, .terminate]) :=
  ⟨((@safeQueue_run Nat Nat).1 [.push 1 2, .pop, .terminate] _ rfl).2.2.2.2,
    (@safeQueue_run Nat Nat).2 [.addJob 1, .work 0, .terminate] _ rfl⟩

/-- A push after `terminate` is accepted. -/
theorem not_staysClosed : ¬ ∀ (ops : List (SafeQueue.Op Nat)) (s : SafeQueue.Log Nat),
    SafeQueue.Log.run ops = some s → SafeQueue.StaysClosed ops := by
  intro h
  have hempty := (h [.terminate, .push 7 0] _ rfl [.terminate, .push 7 0] [] _ rfl
    List.mem_cons_self rfl).1
  cases hempty

end ThreadPool

end Sihd.Util
