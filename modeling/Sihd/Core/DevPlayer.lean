import Sihd.Util.Scheduler.Pause

/-!
# The player and its scheduler

A `DevPlayer` has a collector thread, which `handle`s the records its provider
delivers, and a scheduler, whose worker calls `run` for every record. The state
of both is here with the world of the scheduler, and a step is a step of the
scheduler's worker, the passing of time or one section of `handle`, so a run is
an interleaving of the two threads. The tasks of the records are allocated one
after the other.

The fields `delivered`, `queued` and `written` are history: the records the
provider delivered, those given to `add_task` with what the call did, and those
written to a channel.
-/

namespace Sihd.Core

open Util Util.Scheduler

structure PlayableRecord (α : Type) where
  name : String
  timestamp : Int
  value : α
  deriving DecidableEq

/-- A record given to `add_task` at `addedAt` in a task with the delay `runIn`,
with the `run_at` that the call gave to the task. -/
structure QueuedRecord (α : Type) where
  record : PlayableRecord α
  task : TaskPtr
  runIn : Int
  addedAt : Int
  runAt : Int
  deriving DecidableEq

/-- The instant at which the record is due: a task without a delay is due as
soon as it is added. -/
def QueuedRecord.effectiveRunAt {α : Type} (q : QueuedRecord α) : Int :=
  if 0 < q.runIn then q.runAt else q.addedAt

/-- Where the collector thread is: between two records, in the wait of `handle`
for some room in the queue, or behind it. -/
inductive CollectorPc (α : Type)
  | providing
  | waiting (record : PlayableRecord α)
  | adding (record : PlayableRecord α)
  | ended
  deriving DecidableEq

structure DevPlayer (α : Type) where
  world : World
  tasks : Nat
  running : Bool
  lastRecord : Bool
  endNotified : Bool
  recordsQueueLimit : Nat
  mapChannels : List String
  firstTimestamp : Option Int
  safeQueue : List (PlayableRecord α)
  collector : CollectorPc α
  delivered : List (PlayableRecord α)
  queued : List (QueuedRecord α)
  written : List (PlayableRecord α)

namespace DevPlayer

variable {α : Type}

inductive Action (α : Type)
  | deliver (record : PlayableRecord α)
  | pass
  | addTask
  | mainLoopEnd
  | stop
  | tick (d : Nat)
  | work
  deriving DecidableEq

/-- A scheduler that was started at `clock` and never given a task. -/
def started (heap : TaskPtr → Task) (noDelay : Bool) (clock : Int) : World :=
  { World.initial heap noDelay clock with
    scheduler := prepareTasks { Scheduler.create heap noDelay with beginRun := clock }
    worker := .loop }

/-- A player that `on_start` has just started. -/
def initial (heap : TaskPtr → Task) (noDelay : Bool) (clock : Int) (queueLimit : Nat)
    (mapChannels : List String) : DevPlayer α where
  world := started heap noDelay clock
  tasks := 0
  running := true
  lastRecord := false
  endNotified := false
  recordsQueueLimit := queueLimit
  mapChannels := mapChannels
  firstTimestamp := none
  safeQueue := []
  collector := .providing
  delivered := []
  queued := []
  written := []

def IsInitial (s : DevPlayer α) : Prop :=
  ∃ heap noDelay clock queueLimit mapChannels,
    s = initial heap noDelay clock queueLimit mapChannels

/-- `_provider_ended`: the end channel is written once. -/
def providerEnded (s : DevPlayer α) : DevPlayer α :=
  if s.safeQueue = [] then { s with endNotified := true } else s

/-- `run`, which the scheduler calls for every task it plays. -/
def run (s : DevPlayer α) : DevPlayer α :=
  if s.running = false then s
  else
    let s' := { s with
      safeQueue := s.safeQueue.tail
      written := s.written ++
        s.safeQueue.head?.toList.filter fun record => s.mapChannels.contains record.name }
    if s.lastRecord then s'.providerEnded else s'

/-- The first section of `handle`: the record is pushed, and the first one sets
the timestamp that the others are compared with. -/
def push (s : DevPlayer α) (record : PlayableRecord α) : DevPlayer α :=
  { s with
    safeQueue := s.safeQueue ++ [record]
    firstTimestamp := s.firstTimestamp.or (some record.timestamp)
    collector := .waiting record
    delivered := s.delivered ++ [record] }

/-- `new Task(this, {.run_in = run_in})`. -/
def newTask (heap : TaskPtr → Task) (task : TaskPtr) (runIn : Int) : TaskPtr → Task :=
  Function.update heap task ⟨0, runIn, 0⟩

/-- The last section of `handle`. -/
def addTask (s : DevPlayer α) (record : PlayableRecord α) (firstTimestamp : Int) :
    DevPlayer α :=
  let runIn := record.timestamp - firstTimestamp
  let scheduler := Scheduler.addTask
    { s.world.scheduler with heap := newTask s.world.scheduler.heap s.tasks runIn }
    s.world.clock s.tasks
  { s with
    world := { s.world with
      scheduler := scheduler, added := s.world.added ++ [s.tasks] }
    tasks := s.tasks + 1
    collector := .providing
    queued := s.queued ++ [{
      record := record
      task := s.tasks
      runIn := runIn
      addedAt := s.world.clock
      runAt := (scheduler.heap s.tasks).runAt }] }

def step (s : DevPlayer α) : Action α → Option (DevPlayer α)
  | .deliver record =>
      match s.collector with
      | .providing => if s.lastRecord then some s else some (s.push record)
      | _ => none
  | .pass =>
      match s.collector with
      | .waiting record =>
          if s.running = false then some { s with collector := .providing }
          else if s.safeQueue.length ≤ s.recordsQueueLimit
          then some { s with collector := .adding record } else none
      | _ => none
  | .addTask =>
      match s.collector with
      | .adding record => s.firstTimestamp.map fun first => s.addTask record first
      | _ => none
  | .mainLoopEnd =>
      match s.collector with
      | .providing => some ({ s with lastRecord := true, collector := .ended }.providerEnded)
      | _ => none
  | .stop => some { s with running := false }
  | .tick d => (s.world.step (.tick d)).map fun world => { s with world := world }
  | .work =>
      (s.world.step .work).map fun world =>
        match s.world.worker with
        | .playing _ _ => { s with world := world }.run
        | _ => { s with world := world }

/-- The states of every run. -/
abbrev Reachable : DevPlayer α → Prop :=
  Transition.Reaches step Transition.unrestricted IsInitial

/-- An evaluated run shows a reachable state. -/
theorem exists_reachable (heap : TaskPtr → Task) (noDelay : Bool) (clock : Int)
    (queueLimit : Nat) (mapChannels : List String) (calls : List (Action α))
    {P : DevPlayer α → Prop} [DecidablePred P]
    (h : (Transition.runs step (initial heap noDelay clock queueLimit mapChannels)
      calls).any (fun s => decide (P s)) = true) :
    ∃ s, Reachable s ∧ P s :=
  Transition.Reaches.exists_of_runs
    ⟨heap, noDelay, clock, queueLimit, mapChannels, rfl⟩ h

/-! ### What the threads keep -/

/-- The record that the collector thread has pushed and not queued yet. -/
def pending (s : DevPlayer α) : List (PlayableRecord α) :=
  match s.collector with
  | .waiting record | .adding record => [record]
  | _ => []

/-- The record that the collector thread is bound to queue. -/
def adding (s : DevPlayer α) : List (PlayableRecord α) :=
  match s.collector with
  | .adding record => [record]
  | _ => []

/-- The records are queued in the order of delivery, each with the delay that
its timestamp has after the first one, and the scheduler counts that delay from
the instant of the call. -/
structure Replays (s : DevPlayer α) : Prop where
  prepared : s.world.scheduler.tasksPrepared = true
  first : s.firstTimestamp = s.delivered.head?.map PlayableRecord.timestamp
  inOrder : s.queued.map QueuedRecord.record ++ s.adding <+: s.delivered
  complete : s.running = true →
    s.delivered = s.queued.map QueuedRecord.record ++ s.pending
  runIn : ∀ q ∈ s.queued, ∀ r ∈ s.delivered.head?,
    q.runIn = q.record.timestamp - r.timestamp
  runAt : ∀ q ∈ s.queued, 0 < q.runIn → q.runAt = q.addedAt + q.runIn

theorem replays_initial (heap : TaskPtr → Task) (noDelay : Bool) (clock : Int)
    (queueLimit : Nat) (mapChannels : List String) :
    Replays (initial heap noDelay clock queueLimit mapChannels : DevPlayer α) where
  prepared := rfl
  first := rfl
  inOrder := List.nil_prefix
  complete _ := rfl
  runIn _ hq := absurd hq List.not_mem_nil
  runAt _ hq := absurd hq List.not_mem_nil

/-- A step that delivers and queues nothing. -/
theorem Replays.frame {s s' : DevPlayer α} (h : s.Replays)
    (hprepared : s'.world.scheduler.tasksPrepared = true)
    (hfirst : s'.firstTimestamp = s.firstTimestamp)
    (hdelivered : s'.delivered = s.delivered) (hqueued : s'.queued = s.queued)
    (hinOrder : s'.queued.map QueuedRecord.record ++ s'.adding <+: s'.delivered)
    (hcomplete : s'.running = true → s.running = true ∧ s'.pending = s.pending) :
    s'.Replays := by
  refine ⟨hprepared, ?_, hinOrder, ?_, ?_, ?_⟩
  · rw [hfirst, hdelivered]
    exact h.first
  · intro hrunning
    obtain ⟨hbefore, hpending⟩ := hcomplete hrunning
    rw [hdelivered, hqueued, hpending]
    exact h.complete hbefore
  · rw [hqueued, hdelivered]
    exact h.runIn
  · rw [hqueued]
    exact h.runAt

theorem Replays.push {s : DevPlayer α} (h : s.Replays) (record : PlayableRecord α)
    (hpc : s.collector = .providing) : (s.push record).Replays := by
  have hprefix : s.queued.map QueuedRecord.record <+: s.delivered := by
    simpa [adding, hpc] using h.inOrder
  refine ⟨h.prepared, ?_, ?_, ?_, ?_, h.runAt⟩
  · simp only [DevPlayer.push, h.first]
    cases s.delivered with
    | nil => rfl
    | cons r rest => rfl
  · simpa [DevPlayer.push, adding] using hprefix.trans (List.prefix_append _ _)
  · intro hrunning
    have hall := h.complete hrunning
    simp only [pending, hpc, List.append_nil] at hall
    simp [DevPlayer.push, pending, hall]
  · intro q hq r hr
    cases hdelivered : s.delivered with
    | nil =>
        rw [hdelivered, List.prefix_nil, List.map_eq_nil_iff] at hprefix
        simp only [DevPlayer.push, hprefix, List.not_mem_nil] at hq
    | cons r' rest =>
        refine h.runIn q hq r ?_
        simpa [DevPlayer.push, hdelivered] using hr

/-- The run instant that `add_task` gives to a new task with a delay. -/
theorem addTask_newTask_runAt (s : Scheduler) (now : Int) (task : TaskPtr) {runIn : Int}
    (hprepared : s.tasksPrepared = true) (hin : 0 < runIn) :
    ((Scheduler.addTask { s with heap := newTask s.heap task runIn } now task).heap
      task).runAt = now + runIn := by
  have hself := addTask_heap_self { s with heap := newTask s.heap task runIn } now task
    hprepared (by simpa [newTask] using hin)
  rw [hself]
  simp [newTask]

theorem Replays.addTask {s : DevPlayer α} (h : s.Replays) {record : PlayableRecord α}
    {first : Int} (hpc : s.collector = .adding record)
    (hfirst : s.firstTimestamp = some first) : (s.addTask record first).Replays := by
  have hprefix : s.queued.map QueuedRecord.record ++ [record] <+: s.delivered := by
    simpa [adding, hpc] using h.inOrder
  refine ⟨?_, h.first, ?_, ?_, ?_, ?_⟩
  · have hfields := addTask_pauseFields { s.world.scheduler with
      heap := newTask s.world.scheduler.heap s.tasks (record.timestamp - first) }
      s.world.clock s.tasks
    simp only [pauseFields, Prod.mk.injEq] at hfields
    exact hfields.2.2.2.trans h.prepared
  · simpa [DevPlayer.addTask, adding] using hprefix
  · intro hrunning
    simpa [DevPlayer.addTask, pending, hpc] using h.complete hrunning
  · intro q hq r hr
    rcases List.mem_append.mp hq with hold | hnew
    · exact h.runIn q hold r hr
    · rw [List.mem_singleton.mp hnew]
      have hhead : s.delivered.head? = some r := hr
      have hts : some first = some r.timestamp := by
        rw [← hfirst, h.first, hhead]
        rfl
      rw [Option.some.inj hts]
  · intro q hq hin
    rcases List.mem_append.mp hq with hold | hnew
    · exact h.runAt q hold hin
    · rw [List.mem_singleton.mp hnew] at hin ⊢
      exact addTask_newTask_runAt s.world.scheduler s.world.clock s.tasks h.prepared hin

theorem world_step_prepared {w w' : World} {a : Scheduler.Action}
    (ha : a = .work ∨ ∃ d, a = .tick d) (h : w.step a = some w')
    (hprepared : w.scheduler.tasksPrepared = true) :
    w'.scheduler.tasksPrepared = true := by
  rcases ha with rfl | ⟨d, rfl⟩
  · rcases (workerMove_of_step h).phases with ⟨-, rfl⟩ | ⟨-, rfl⟩ | ⟨-, -, hfields, -, -⟩
    · exact hprepared
    · rfl
    · simp only [pauseFields, Prod.mk.injEq] at hfields
      exact hfields.2.2.2.trans hprepared
  · cases h
    exact hprepared

/-- `run` reads the queue and the flags only. -/
theorem Replays.run {s : DevPlayer α} (h : s.Replays) : s.run.Replays := by
  unfold DevPlayer.run
  split
  · exact h
  · rename_i hrunning
    have hkept : ∀ s' : DevPlayer α, s'.world = s.world → s'.running = s.running →
        s'.firstTimestamp = s.firstTimestamp → s'.delivered = s.delivered →
        s'.queued = s.queued → s'.collector = s.collector → s'.Replays := by
      intro s' hworld hrun hfirst hdelivered hqueued hcollector
      refine h.frame (by rw [hworld]; exact h.prepared) hfirst hdelivered hqueued ?_ ?_
      · rw [hqueued, hdelivered, adding, hcollector]
        exact h.inOrder
      · rw [hrun, pending, hcollector]
        exact fun hr => ⟨hr, rfl⟩
    simp only [providerEnded]
    split
    · split <;> exact hkept _ rfl rfl rfl rfl rfl rfl
    · exact hkept _ rfl rfl rfl rfl rfl rfl

theorem Replays.ofWorld {s : DevPlayer α} (h : s.Replays) {world : World}
    (hprepared : world.scheduler.tasksPrepared = true) :
    Replays { s with world := world } :=
  h.frame hprepared rfl rfl rfl h.inOrder fun hrunning => ⟨hrunning, rfl⟩

theorem step_replays {s s' : DevPlayer α} {a : Action α} (h : s.Replays)
    (hstep : s.step a = some s') : s'.Replays := by
  cases a with
  | deliver record =>
      simp only [step] at hstep
      cases hpc : s.collector with
      | providing =>
          simp only [hpc] at hstep
          split at hstep <;> cases hstep
          · exact h
          · exact h.push record hpc
      | _ => simp [hpc] at hstep
  | pass =>
      simp only [step] at hstep
      cases hpc : s.collector with
      | waiting record =>
          simp only [hpc] at hstep
          have hprefix : s.queued.map QueuedRecord.record <+: s.delivered := by
            simpa [adding, hpc] using h.inOrder
          split at hstep
          · rename_i hstopped
            cases hstep
            refine h.frame h.prepared rfl rfl rfl (by simpa [adding] using hprefix) ?_
            intro hrunning
            simp [hstopped] at hrunning
          · rename_i hrunning
            rw [Bool.not_eq_false] at hrunning
            split at hstep <;> cases hstep
            refine h.frame h.prepared rfl rfl rfl ?_ ?_
            · have hall := h.complete hrunning
              simp only [pending, hpc] at hall
              simp [adding, hall]
            · exact fun hr => ⟨hr, by simp [pending, hpc]⟩
      | _ => simp [hpc] at hstep
  | addTask =>
      simp only [step] at hstep
      cases hpc : s.collector with
      | adding record =>
          simp only [hpc, Option.map_eq_some_iff] at hstep
          obtain ⟨first, hfirst, rfl⟩ := hstep
          exact h.addTask hpc hfirst
      | _ => simp [hpc] at hstep
  | mainLoopEnd =>
      simp only [step] at hstep
      cases hpc : s.collector with
      | providing =>
          simp only [hpc, providerEnded] at hstep
          have hprefix : s.queued.map QueuedRecord.record <+: s.delivered := by
            simpa [adding, hpc] using h.inOrder
          split at hstep <;> cases hstep <;>
            exact h.frame h.prepared rfl rfl rfl (by simpa [adding] using hprefix)
              fun hrunning => ⟨hrunning, by simp [pending, hpc]⟩
      | _ => simp [hpc] at hstep
  | stop =>
      cases hstep
      exact h.frame h.prepared rfl rfl rfl h.inOrder fun hrunning => by cases hrunning
  | tick d =>
      simp only [step, Option.map_eq_some_iff] at hstep
      obtain ⟨world, hworld, rfl⟩ := hstep
      exact h.ofWorld (world_step_prepared (.inr ⟨d, rfl⟩) hworld h.prepared)
  | work =>
      simp only [step, Option.map_eq_some_iff] at hstep
      obtain ⟨world, hworld, rfl⟩ := hstep
      have hnext : Replays { s with world := world } :=
        h.ofWorld (world_step_prepared (.inl rfl) hworld h.prepared)
      cases hpc : s.world.worker with
      | playing task now => simpa only [hpc] using hnext.run
      | _ => simpa only [hpc] using hnext

theorem replays {s : DevPlayer α} (h : Reachable s) : s.Replays := by
  refine h.invariant ?_ fun _ _ _ hs _ hstep => step_replays hs hstep
  rintro _ ⟨heap, noDelay, clock, queueLimit, mapChannels, rfl⟩
  exact replays_initial heap noDelay clock queueLimit mapChannels

/-! ### The spacing of the records -/

/-- Every record is due as long after the addition of the first one as it was
recorded after it. -/
def Spaced (s : DevPlayer α) : Prop :=
  ∀ q ∈ s.queued, ∀ first ∈ s.queued.head?,
    q.effectiveRunAt - first.addedAt = q.record.timestamp - first.record.timestamp

/-- The records were recorded in the order of their delivery. -/
def Chronological (s : DevPlayer α) : Prop :=
  (s.delivered.map PlayableRecord.timestamp).Pairwise (· ≤ ·)

theorem Replays.head?_delivered {s : DevPlayer α} (h : s.Replays)
    {first : QueuedRecord α} (hfirst : first ∈ s.queued.head?) :
    s.delivered.head? = some first.record := by
  obtain ⟨rest, hrest⟩ := List.head?_eq_some_iff.mp hfirst
  obtain ⟨tail, htail⟩ := h.inOrder
  rw [← htail, hrest]
  rfl

/-- A record is due too late by the time between the addition of the first
record and its own. -/
theorem Replays.effectiveRunAt {s : DevPlayer α} (h : s.Replays)
    (hordered : s.Chronological) {q first : QueuedRecord α} (hq : q ∈ s.queued)
    (hfirst : first ∈ s.queued.head?) :
    q.effectiveRunAt = q.addedAt + (q.record.timestamp - first.record.timestamp) := by
  have hhead := h.head?_delivered hfirst
  have hin := h.runIn q hq _ hhead
  have hle : first.record.timestamp ≤ q.record.timestamp := by
    obtain ⟨rest, hrest⟩ := List.head?_eq_some_iff.mp hhead
    have hmem : q.record ∈ s.delivered :=
      h.inOrder.subset (List.mem_append_left _ (List.mem_map_of_mem hq))
    rw [Chronological, hrest, List.map_cons, List.pairwise_cons] at hordered
    rw [hrest] at hmem
    rcases List.mem_cons.mp hmem with heq | hlater
    · rw [heq]
    · exact hordered.1 _ (List.mem_map_of_mem hlater)
  unfold QueuedRecord.effectiveRunAt
  split
  · rename_i hpos
    rw [h.runAt q hq hpos, hin]
  · rename_i hzero
    have hsame : q.record.timestamp - first.record.timestamp = 0 := by omega
    rw [hsame, add_zero]

/-- The records are spaced as they were recorded exactly when all of them are
given to `add_task` at the instant the first one is. -/
theorem spaced_iff_queued_at_once {s : DevPlayer α} (h : Reachable s)
    (hordered : s.Chronological) :
    s.Spaced ↔ ∀ q ∈ s.queued, ∀ first ∈ s.queued.head?, q.addedAt = first.addedAt := by
  have hs := replays h
  constructor
  · intro hspaced q hq first hfirst
    have heq := hspaced q hq first hfirst
    rw [hs.effectiveRunAt hordered hq hfirst] at heq
    omega
  · intro hat q hq first hfirst
    rw [hs.effectiveRunAt hordered hq hfirst, hat q hq first hfirst]
    omega

theorem spaced_of_two_at_once : ∃ s : DevPlayer Nat, s.queued.length = 2 ∧ s.Spaced := by
  obtain ⟨s, hs, hordered, hlength, hat⟩ := exists_reachable (fun _ => ⟨0, 0, 0⟩) false 0
    200 ["a"] [.tick 1, .deliver ⟨"a", 3, 0⟩, .pass, .addTask, .deliver ⟨"a", 13, 0⟩,
      .pass, .addTask]
    (P := fun s : DevPlayer Nat =>
      (s.delivered.map PlayableRecord.timestamp).Pairwise (· ≤ ·) ∧
        s.queued.length = 2 ∧
        ∀ q ∈ s.queued, ∀ first ∈ s.queued.head?, q.addedAt = first.addedAt) (by decide)
  exact ⟨s, hlength, (spaced_iff_queued_at_once hs hordered).mpr hat⟩

/-- Two records ten apart, the second delivered four later than the first: it
is due fourteen after it. -/
theorem not_spaced_of_late_delivery :
    ¬ ∀ s : DevPlayer Nat, Reachable s → s.Chronological → s.Spaced := by
  intro hall
  obtain ⟨s, hs, hordered, q, hq, first, hfirst, hne⟩ := exists_reachable
    (fun _ => ⟨0, 0, 0⟩) false 0 200 ["a"] [.tick 1, .deliver ⟨"a", 0, 0⟩, .pass,
      .addTask, .tick 4, .deliver ⟨"a", 10, 0⟩, .pass, .addTask]
    (P := fun s : DevPlayer Nat =>
      (s.delivered.map PlayableRecord.timestamp).Pairwise (· ≤ ·) ∧
        ∃ q ∈ s.queued, ∃ first ∈ s.queued.head?, q.effectiveRunAt - first.addedAt ≠
          q.record.timestamp - first.record.timestamp) (by decide)
  exact hne (hall s hs hordered q hq first hfirst)

end DevPlayer

end Sihd.Core
