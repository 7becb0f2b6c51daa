import Mathlib.Data.Fintype.Option
import Sihd.Util.SynchronizedPair
import Sihd.Util.WorkerThreads

/-!
# The starts of a worker

Starts that are in order: a start that finds the worker not started is beside no other one that
still has a thread to assign, and the last thread was joined; one that synchronises is beside no
other start, and finds the worker not started. Then a call that synchronises meets the thread
that it has started, and nobody else goes to the synchronizer.
-/

namespace Sihd.Util.Worker

open Synchronizer (Entry Pair Moves)

namespace Pc

/-- The flag that a call of `start_sync_worker` has found, and whether it has raised it. -/
def modifier : Pc → Option (Bool × Bool)
  | .saved oldVal => some (oldVal, false)
  | .modified oldVal => some (oldVal, false)
  | .starting sync => sync.map fun oldVal => (oldVal, true)
  | .exchanged sync => sync.map fun oldVal => (oldVal, true)
  | .constructing sync => sync.map fun oldVal => (oldVal, true)
  | .assigning sync _ => sync.map fun oldVal => (oldVal, true)
  | .ending sync _ => sync.map fun oldVal => (oldVal, true)
  | .entering oldVal _ => some (oldVal, true)
  | .syncing oldVal _ => some (oldVal, true)
  | .restoring oldVal => some (oldVal, true)
  | _ => none

/-- The thread that such a call has started, until they have met. -/
def syncThread : Pc → Option Nat
  | .assigning (some _) k => some k
  | .ending (some _) thread => thread
  | .entering _ thread => thread
  | .syncing _ thread => thread
  | _ => none

def entry (pc : Pc) (inside : Synchronizer.Pc) : Entry :=
  match pc with
  | .syncing _ _ => .inside inside
  | pc => if pc.syncThread.isSome then .notYet else .left

end Pc

namespace ThreadPc

/-- The thread has not looked at the flag yet. -/
def isUnread : ThreadPc → Bool
  | .created => true
  | .saved _ => true
  | .modified _ => true
  | _ => false

def isSyncing : ThreadPc → Bool
  | .syncing _ => true
  | _ => false

def entry (pc : ThreadPc) (inside : Synchronizer.Pc) : Entry :=
  match pc with
  | .unborn => .notYet
  | .created => .notYet
  | .saved _ => .notYet
  | .modified _ => .notYet
  | .syncing _ => .inside inside
  | _ => .left

end ThreadPc

namespace World

variable {ι : Type}

def callerEntry (w : World ι) (t : ι) : Entry := (w.pc t).entry (w.startSync.pc (.inl t))

def threadEntry (w : World ι) (k : Nat) : Entry := (w.thread k).entry (w.startSync.pc (.inr k))

/-- A thread of the worker is not overwritten while it is joinable, one is alive at a time, and
the calls that synchronise meet their threads: nobody waits for one that does not come. -/
structure StartsOnce (w : World ι) : Prop where
  kept : w.overwritten = false
  unique : ∀ j k, (w.thread j).isAlive = true → (w.thread k).isAlive = true → j = k
  nodup_entered : w.entered.Nodup
  nodup_preRuns : w.preRuns.Nodup
  preRun_of_entered : ∀ thread ∈ w.entered, ∃ k, thread = some k ∧
    (k ∈ w.preRuns ∨ (w.thread k).isUnread = true)
  entered_of_preRun : ∀ k ∈ w.preRuns, some k ∈ w.entered ∨
    ∃ t, (w.pc t).syncThread = some k ∧ w.callerEntry t = .notYet
  caller : ∀ t, (w.callerEntry t).Waits w.startSync.sync.totalSyncRound →
    ∃ k, (w.pc t).syncThread = some k ∧ (w.threadEntry k).Comes
  thread : ∀ k, (w.threadEntry k).Waits w.startSync.sync.totalSyncRound →
    ∃ t, (w.pc t).syncThread = some k ∧ (w.callerEntry t).Comes

/-- Starts are made when they can be. -/
def inOrder (w : World ι) : Action ι → Prop
  | .startSyncWorker _ =>
      (∀ u, (w.pc u).duty.isStarting = false ∧ (w.pc u).modifier = none) ∧
        ∀ k, k < w.threads → (w.thread k).isUnread = false
  | .next t _ =>
      ∀ sync, w.pc t = .starting sync →
        (w.started = true → sync = none) ∧
          (w.started = false → w.workerThread = none ∧ (∀ u, (w.pc u).duty = .none) ∧
            (sync = none → ∀ u, (w.pc u).modifier = none))
  | _ => True

instance [Fintype ι] (w : World ι) : DecidablePred w.inOrder
  | .startSyncWorker _ => inferInstanceAs (Decidable ((∀ _, _ ∧ _) ∧ ∀ k, k < w.threads → _))
  | .next t _ => inferInstanceAs (Decidable (∀ sync, w.pc t = .starting sync → _))
  | .startWorker _ => isTrue trivial
  | .stopWorker _ => isTrue trivial
  | .nextThread _ => isTrue trivial

end World

/-! ### The flag -/

/-- Who has found and raised the flag of the worker. -/
structure OneStart {ι : Type} (pc : ι → Pc) (syncStart : Bool) : Prop where
  unique : ∀ u v, (pc u).modifier ≠ none → (pc v).modifier ≠ none → u = v
  found : ∀ u oldVal raised, (pc u).modifier = some (oldVal, raised) → oldVal = false
  raised : ∀ u oldVal, (pc u).modifier = some (oldVal, true) → syncStart = true
  lowered : (∀ u oldVal, (pc u).modifier ≠ some (oldVal, true)) → syncStart = false
  plain : ∀ u, (pc u).duty.isStarting = true → (pc u).modifier = none →
    ∀ v, (pc v).modifier = none

namespace OneStart

variable {ι : Type} {pc : ι → Pc} {syncStart : Bool} {t : ι} {pc' : Pc}

theorem init : OneStart (fun _ : ι => Pc.idle) false where
  unique _ _ hu := absurd rfl hu
  found _ _ _ hu := by cases hu
  raised _ _ hu := by cases hu
  lowered _ := rfl
  plain _ hu := by cases hu

theorem modifier_of_alone (h : OneStart pc syncStart) (ht : (pc t).modifier ≠ none) {u : ι}
    (hne : u ≠ t) : (pc u).modifier = none := by
  by_contra hu
  exact hne (h.unique u t hu ht)

variable [DecidableEq ι]

/-- A call that goes on with the same flag. -/
theorem stay (h : OneStart pc syncStart) (hmodifier : pc'.modifier = (pc t).modifier)
    (hplain : pc'.duty.isStarting = true → pc'.modifier = none →
      (pc t).duty.isStarting = true ∨ ∀ v, (pc v).modifier = none) :
    OneStart (Function.update pc t pc') syncStart := by
  have heq : ∀ u, (Function.update pc t pc' u).modifier = (pc u).modifier := fun u => by
    by_cases hne : u = t
    · rw [hne, Function.update_self, hmodifier]
    · rw [Function.update_of_ne hne]
  constructor
  · simpa only [heq] using h.unique
  · simpa only [heq] using h.found
  · simpa only [heq] using h.raised
  · simpa only [heq] using h.lowered
  · intro u hu
    simp only [heq]
    by_cases hne : u = t
    · rw [hne, Function.update_self] at hu
      intro hnone v
      rw [hne] at hnone
      rcases hplain hu (hmodifier.trans hnone) with hstarting | hall
      · exact h.plain t hstarting hnone v
      · exact hall v
    · rw [Function.update_of_ne hne] at hu
      exact h.plain u hu

/-- A call that alone has found the flag goes on with it. -/
theorem alone (hothers : ∀ u, u ≠ t → (pc u).modifier = none) {raised : Bool}
    (hmodifier : pc'.modifier = some (false, raised)) (hplain : ∀ u, u ≠ t →
      (pc u).duty.isStarting = false) :
    OneStart (Function.update pc t pc') raised := by
  have hself : ∀ u oldVal r, (Function.update pc t pc' u).modifier = some (oldVal, r) →
      u = t ∧ oldVal = false ∧ r = raised := fun u oldVal r hu => by
    by_cases hne : u = t
    · rw [hne, Function.update_self, hmodifier, Option.some.injEq, Prod.mk.injEq] at hu
      exact ⟨hne, hu.1.symm, hu.2.symm⟩
    · rw [Function.update_of_ne hne, hothers u hne] at hu
      cases hu
  constructor
  · intro u v hu hv
    obtain ⟨⟨o, r⟩, ho⟩ := Option.ne_none_iff_exists'.mp hu
    obtain ⟨⟨o', r'⟩, ho'⟩ := Option.ne_none_iff_exists'.mp hv
    exact (hself u o r ho).1.trans (hself v o' r' ho').1.symm
  · exact fun u oldVal r hu => (hself u oldVal r hu).2.1
  · exact fun u oldVal hu => (hself u oldVal true hu).2.2.symm
  · intro hall
    by_contra htrue
    rw [Bool.not_eq_false] at htrue
    refine hall t false ?_
    rw [Function.update_self, hmodifier, htrue]
  · intro u hu hnone
    by_cases hne : u = t
    · rw [hne, Function.update_self, hmodifier] at hnone
      cases hnone
    · rw [Function.update_of_ne hne, hplain u hne] at hu
      cases hu

/-- The flag is written. -/
theorem write (h : OneStart pc syncStart) {oldVal raised raised' : Bool}
    (ht : (pc t).modifier = some (oldVal, raised))
    (hmodifier : pc'.modifier = some (oldVal, raised')) :
    OneStart (Function.update pc t pc') raised' := by
  obtain rfl := h.found t oldVal raised ht
  have hsome : (pc t).modifier ≠ none := by rw [ht]; nofun
  refine alone (fun u => h.modifier_of_alone hsome) hmodifier fun u hne => ?_
  by_contra hstarting
  rw [Bool.not_eq_false] at hstarting
  exact hsome (h.plain u hstarting (h.modifier_of_alone hsome hne) t)

/-- The flag is restored. -/
theorem restore (h : OneStart pc syncStart) {oldVal raised : Bool}
    (ht : (pc t).modifier = some (oldVal, raised)) (hmodifier : pc'.modifier = none) :
    OneStart (Function.update pc t pc') oldVal := by
  have hnone : ∀ u, (Function.update pc t pc' u).modifier = none := fun u => by
    by_cases hne : u = t
    · rw [hne, Function.update_self, hmodifier]
    · rw [Function.update_of_ne hne]
      exact h.modifier_of_alone (by rw [ht]; nofun) hne
  constructor
  · exact fun u _ hu => absurd (hnone u) hu
  · exact fun u _ _ hu => by cases (hnone u).symm.trans hu
  · exact fun u _ hu => by cases (hnone u).symm.trans hu
  · exact fun _ => h.found t oldVal raised ht
  · exact fun _ _ _ => hnone

end OneStart

end Sihd.Util.Worker
