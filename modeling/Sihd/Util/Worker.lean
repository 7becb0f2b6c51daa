import Sihd.Util.Synchronizer

/-!
# The worker

`start_worker`, `start_sync_worker` and `stop_worker` are sequences of steps on the flags of the
worker and on its `std::thread`, and so is the `pre_run` of a started thread. A start that is
synchronised and its thread meet at a synchronizer of two.

The world of a worker has the threads that call it, those that it started, and a record of what
was started and of who went to the synchronizer.
-/

namespace Sihd.Util.Worker

/-- Where a caller is. `sync` is the flag that `start_sync_worker` found, and none in a call of
`start_worker` alone. -/
inductive Pc where
  | idle
  /-- The modifier of `start_sync_worker` has read the flag. -/
  | saved (oldVal : Bool)
  | modified (oldVal : Bool)
  | starting (sync : Option Bool)
  /-- The worker was not started before. -/
  | exchanged (sync : Option Bool)
  /-- `on_worker_start` has returned true. -/
  | constructing (sync : Option Bool)
  | assigning (sync : Option Bool) (thread : Nat)
  | ending (sync : Option Bool) (thread : Option Nat)
  /-- `start_worker` has returned true, with the thread that it has started. -/
  | entering (oldVal : Bool) (thread : Option Nat)
  | syncing (oldVal : Bool) (thread : Option Nat)
  | restoring (oldVal : Bool)
  | stopping
  | checking
  | joining (thread : Nat)
  deriving DecidableEq

/-- Where a thread of the worker is in `pre_run`. -/
inductive ThreadPc where
  | unborn
  | created
  | saved (oldVal : Bool)
  | modified (oldVal : Bool)
  | syncing (oldVal : Bool)
  | running (oldVal : Bool)
  | returned (oldVal : Bool)
  | finished
  deriving DecidableEq

/-- Who may come to the synchronizer. -/
abbrev Party (ι : Type) := ι ⊕ Nat

/-- `overwritten`, `entered` and `preRuns` are the record: whether a joinable thread was assigned
to, the threads that the calls which synchronise have started, and the threads which do. -/
structure World (ι : Type) where
  started : Bool
  running : Bool
  syncStart : Bool
  hasMethod : Bool
  startSync : Synchronizer.World (Party ι)
  workerThread : Option Nat
  pc : ι → Pc
  thread : Nat → ThreadPc
  threads : Nat
  overwritten : Bool
  entered : List (Option Nat)
  preRuns : List Nat

inductive Action (ι : Type) where
  | startWorker (t : ι)
  | startSyncWorker (t : ι)
  | stopWorker (t : ι)
  /-- The next step of a call; `ret` is what `on_worker_start` returns. -/
  | next (t : ι) (ret : Bool)
  | nextThread (k : Nat)

/-- What follows a `start_worker` that has returned. -/
def Pc.afterStart (sync : Option Bool) (thread : Option Nat) (ret : Bool) : Pc :=
  match sync with
  | none => .idle
  | some oldVal => if ret then .entering oldVal thread else .restoring oldVal

namespace World

variable {ι : Type}

def init (hasMethod : Bool) : World ι where
  started := false
  running := false
  syncStart := false
  hasMethod := hasMethod
  startSync := .init ⟨0, 2, 0⟩
  workerThread := none
  pc := fun _ => .idle
  thread := fun _ => .unborn
  threads := 0
  overwritten := false
  entered := []
  preRuns := []

section Steps

variable [DecidableEq ι]

def goto (w : World ι) (t : ι) (pc : Pc) : World ι :=
  { w with pc := Function.update w.pc t pc }

def gotoThread (w : World ι) (k : Nat) (pc : ThreadPc) : World ι :=
  { w with thread := Function.update w.thread k pc }

/-- The next step of a call. -/
def next (w : World ι) (t : ι) (ret : Bool) : Option (World ι) :=
  match w.pc t with
  | .idle => none
  | .saved oldVal => some { w.goto t (.modified oldVal) with syncStart := false }
  | .modified oldVal => some { w.goto t (.starting (some oldVal)) with syncStart := true }
  | .starting sync =>
      let pc := if w.started then Pc.afterStart sync none true else .exchanged sync
      some { w.goto t pc with started := true }
  | .exchanged sync =>
      -- Without a method nothing is asked, and the worker is not started either.
      if w.hasMethod && ret then some (w.goto t (.constructing sync))
      else some (w.goto t (.ending sync none))
  | .constructing sync =>
      some { w.goto t (.assigning sync w.threads) with
        thread := Function.update w.thread w.threads .created
        threads := w.threads + 1 }
  | .assigning sync k =>
      some { w.goto t (.ending sync (some k)) with
        workerThread := some k
        overwritten := w.overwritten || w.workerThread.isSome }
  | .ending sync thread =>
      some { w.goto t (Pc.afterStart sync thread thread.isSome) with started := thread.isSome }
  | .entering oldVal thread =>
      (w.startSync.step (.call (.inl t) 0)).map fun startSync =>
        { w.goto t (.syncing oldVal thread) with
          startSync := startSync
          entered := thread :: w.entered }
  | .syncing oldVal thread =>
      (w.startSync.step (.next (.inl t))).map fun startSync =>
        let pc := if startSync.pc (.inl t) = .idle then .restoring oldVal
          else .syncing oldVal thread
        { w.goto t pc with startSync := startSync }
  | .restoring oldVal => some { w.goto t .idle with syncStart := oldVal }
  | .stopping => some (w.goto t .checking)
  | .checking =>
      match w.workerThread with
      | none => some (w.goto t .idle)
      | some k => some (w.goto t (.joining k))
  | .joining k =>
      if w.thread k = .finished then some { w.goto t .idle with workerThread := none } else none

/-- The next step of a thread. The method returns at some time. -/
def nextThread (w : World ι) (k : Nat) : Option (World ι) :=
  match w.thread k with
  | .unborn => none
  | .created => some (w.gotoThread k (.saved w.running))
  | .saved oldVal => some { w.gotoThread k (.modified oldVal) with running := true }
  | .modified oldVal =>
      if w.syncStart then
        (w.startSync.step (.call (.inr k) 0)).map fun startSync =>
          { w.gotoThread k (.syncing oldVal) with
            startSync := startSync
            preRuns := k :: w.preRuns }
      else some (w.gotoThread k (.running oldVal))
  | .syncing oldVal =>
      (w.startSync.step (.next (.inr k))).map fun startSync =>
        let pc := if startSync.pc (.inr k) = .idle then .running oldVal else .syncing oldVal
        { w.gotoThread k pc with startSync := startSync }
  | .running oldVal => some (w.gotoThread k (.returned oldVal))
  | .returned oldVal => some { w.gotoThread k .finished with running := oldVal }
  | .finished => none

def step (w : World ι) : Action ι → Option (World ι)
  | .startWorker t =>
      match w.pc t with
      | .idle => some (w.goto t (.starting none))
      | _ => none
  | .startSyncWorker t =>
      match w.pc t with
      | .idle => some (w.goto t (.saved w.syncStart))
      | _ => none
  | .stopWorker t =>
      match w.pc t with
      | .idle =>
          some { w.goto t (if w.started then .stopping else .idle) with started := false }
      | _ => none
  | .next t ret => w.next t ret
  | .nextThread k => w.nextThread k

end Steps

end World

end Sihd.Util.Worker
