import Mathlib.Algebra.GroupWithZero.Nat
import Sihd.Lib.Transition
import Sihd.Util.WorkerMeetings

/-!
# The runs of a worker

Each step of a start, a stop or a thread keeps what the duties, the flag and the meetings have in
common with the world, when the starts are in order.
-/

namespace Sihd.Util.Worker

open Synchronizer (Entry)

namespace World

variable {ι : Type} {w w' : World ι} {t : ι} {k : Nat} {pc' : Pc} {threadPc : ThreadPc}

structure Sound (w : World ι) : Prop where
  oneThread : OneThread (fun u => (w.pc u).duty) w.thread w.threads w.workerThread w.overwritten
  oneStart : OneStart w.pc w.syncStart
  meeting : Meeting w.pc w.thread w.threads w.startSync.pc w.startSync.sync w.entered w.preRuns

theorem sound_init (hasMethod : Bool) : Sound (init hasMethod : World ι) where
  oneThread := OneThread.init
  oneStart := OneStart.init
  meeting := Meeting.init

theorem Sound.startsOnce (h : Sound w) : w.StartsOnce where
  kept := h.oneThread.kept
  unique _ _ := h.oneThread.unique
  nodup_entered := h.meeting.nodup_entered
  nodup_preRuns := h.meeting.nodup_preRuns
  preRun_of_entered thread hmem := by
    cases thread with
    | none => exact absurd hmem h.meeting.lost
    | some k =>
      refine ⟨k, rfl, ?_⟩
      rcases h.meeting.phase with hapart | ⟨c, l, -, htogether⟩
      · exact .inl ((hapart.record k).mp hmem)
      · by_cases hne : k = l
        · subst hne
          by_cases hentry : (w.thread k).entry (w.startSync.pc (.inr k)) = .notYet
          · exact .inr (ThreadPc.isUnread_of_entry hentry
              (h.oneThread.born k (h.meeting.entered_lt k hmem)))
          · exact .inl (htogether.thread.mpr hentry)
        · exact .inl ((htogether.others k hne).mp hmem)
  entered_of_preRun k hmem := by
    rcases h.meeting.phase with hapart | ⟨c, l, -, htogether⟩
    · exact .inl ((hapart.record k).mpr hmem)
    · by_cases hne : k = l
      · subst hne
        by_cases hentry : (w.pc c).entry (w.startSync.pc (.inl c)) = .notYet
        · obtain ⟨j, hj⟩ := Pc.exists_syncThread (by rw [hentry]; nofun)
            fun oldVal => (h.meeting.entering c oldVal).2
          obtain ⟨-, rfl⟩ := htogether.callers c j hj
          exact .inr ⟨c, hj, hentry⟩
        · exact .inl (htogether.caller.mpr hentry)
      · exact .inl ((htogether.others k hne).mpr hmem)
  caller t hwaits := by
    obtain ⟨timeout, hentry⟩ := hwaits.eq_waiting
    have hleft : (w.pc t).entry (w.startSync.pc (.inl t)) ≠ .left := by
      rw [← callerEntry, hentry]
      nofun
    obtain ⟨k, hk⟩ := Pc.exists_syncThread hleft fun oldVal => (h.meeting.entering t oldVal).2
    exact ⟨k, hk, (h.meeting.together_of_syncThread hk).2.pair.comes_of_waits hwaits⟩
  thread k hwaits := by
    have hsyncing := ThreadPc.isSyncing_of_waits hwaits
    rcases h.meeting.phase with hapart | ⟨c, l, -, htogether⟩
    · rw [hapart.threads k] at hsyncing
      cases hsyncing
    · obtain rfl := htogether.threads k hsyncing
      have hcomes := htogether.pair.symm.comes_of_waits hwaits
      have hleft : (w.pc c).entry (w.startSync.pc (.inl c)) ≠ .left := fun hleft => by
        rw [hleft] at hcomes
        cases hcomes
      obtain ⟨j, hj⟩ := Pc.exists_syncThread hleft fun oldVal => (h.meeting.entering c oldVal).2
      obtain ⟨-, rfl⟩ := htogether.callers c j hj
      exact ⟨c, hj, hcomes⟩

variable [DecidableEq ι]

theorem duty_update (pc : ι → Pc) (t : ι) (pc' : Pc) :
    (fun u => (Function.update pc t pc' u).duty) =
      Function.update (fun u => (pc u).duty) t pc'.duty := by
  funext u
  exact Function.apply_update (fun _ => Pc.duty) pc t pc' u

theorem oneThread_of_update {pc : ι → Pc} {duty : Duty} {thread : Nat → ThreadPc} {threads : Nat}
    {workerThread : Option Nat} {overwritten : Bool} (hduty : pc'.duty = duty)
    (h : OneThread (Function.update (fun u => (pc u).duty) t duty) thread threads workerThread
      overwritten) :
    OneThread (fun u => (Function.update pc t pc' u).duty) thread threads workerThread
      overwritten := by
  rwa [duty_update, hduty]

/-- A call goes on with the same duty. -/
theorem Sound.oneThread_update (h : Sound w) (hduty : pc'.duty = (w.pc t).duty) :
    OneThread (fun u => (Function.update w.pc t pc' u).duty) w.thread w.threads w.workerThread
      w.overwritten := by
  have heq : (fun u => (Function.update w.pc t pc' u).duty) = fun u => (w.pc u).duty := by
    rw [duty_update, hduty]
    exact Function.update_eq_self ..
  rw [heq]
  exact h.oneThread

theorem Sound.oneStart_update (h : Sound w) (hmodifier : pc'.modifier = (w.pc t).modifier)
    (hduty : pc'.duty.isStarting = true → (w.pc t).duty.isStarting = true) :
    OneStart (Function.update w.pc t pc') w.syncStart :=
  h.oneStart.stay hmodifier fun hstarting _ => .inl (hduty hstarting)

/-- A call goes on, and nothing of it matters to the others. -/
theorem Sound.calm (h : Sound w) (hduty : pc'.duty = (w.pc t).duty)
    (hmodifier : pc'.modifier = (w.pc t).modifier)
    (hthread : pc'.syncThread = (w.pc t).syncThread)
    (hentry : ∀ b, pc'.entry b = (w.pc t).entry b)
    (hentering : ∀ oldVal, pc' ≠ .entering oldVal none ∧ pc' ≠ .syncing oldVal none) :
    Sound (w.goto t pc') where
  oneThread := h.oneThread_update hduty
  oneStart := h.oneStart_update hmodifier fun hstarting => hduty ▸ hstarting
  meeting := h.meeting.stay hthread hentry hentering fun hnone => .inl (hmodifier.trans hnone)

/-- The flag is written by the call that holds it. -/
theorem Sound.write (h : Sound w) {oldVal raised raised' : Bool}
    (ht : (w.pc t).modifier = some (oldVal, raised))
    (hmodifier : pc'.modifier = some (oldVal, raised')) (hduty : pc'.duty = (w.pc t).duty)
    (hthread : pc'.syncThread = (w.pc t).syncThread)
    (hentry : ∀ b, pc'.entry b = (w.pc t).entry b)
    (hentering : ∀ oldVal, pc' ≠ .entering oldVal none ∧ pc' ≠ .syncing oldVal none) :
    Sound { w.goto t pc' with syncStart := raised' } where
  oneThread := h.oneThread_update hduty
  oneStart := h.oneStart.write ht hmodifier
  meeting := h.meeting.stay hthread hentry hentering fun hnone => by
    rw [ht] at hnone
    cases hnone

theorem Sound.next (h : Sound w) {ret : Bool} (hinOrder : w.inOrder (.next t ret))
    (hnext : w.next t ret = some w') : Sound w' := by
  rw [World.next] at hnext
  rw [inOrder] at hinOrder
  cases hpc : w.pc t with
  | idle =>
    rw [hpc] at hnext
    cases hnext
  | saved oldVal =>
    rw [hpc] at hnext
    obtain rfl := Option.some.inj hnext
    exact h.write (by rw [hpc]; rfl) rfl (by rw [hpc]; rfl) (by rw [hpc]; rfl)
      (by rw [hpc]; exact fun _ => rfl) fun _ => ⟨nofun, nofun⟩
  | modified oldVal =>
    rw [hpc] at hnext
    obtain rfl := Option.some.inj hnext
    exact h.write (by rw [hpc]; rfl) rfl (by rw [hpc]; rfl) (by rw [hpc]; rfl)
      (by rw [hpc]; exact fun _ => rfl) fun _ => ⟨nofun, nofun⟩
  | starting sync =>
    simp only [hpc] at hnext
    obtain rfl := Option.some.inj hnext
    obtain ⟨hlost, hwon⟩ := hinOrder sync hpc
    split
    · next hstarted =>
      -- The start is over, and it is none that synchronises.
      obtain rfl := hlost hstarted
      have hcalm : Sound (w.goto t .idle) := h.calm (by rw [hpc]; rfl) (by rw [hpc]; rfl)
        (by rw [hpc]; rfl) (by rw [hpc]; exact fun _ => rfl) fun _ => ⟨nofun, nofun⟩
      exact ⟨hcalm.oneThread, hcalm.oneStart, hcalm.meeting⟩
    · next hstarted =>
      obtain ⟨hnone, hduty, hplain⟩ := hwon (Bool.not_eq_true _ ▸ hstarted)
      exact {
        oneThread := oneThread_of_update rfl (h.oneThread.prepare t hnone hduty)
        oneStart := h.oneStart.stay (by rw [hpc]; rfl) fun _ hmodifier => .inr (hplain (by
          cases sync with
          | none => rfl
          | some oldVal => cases hmodifier))
        meeting := h.meeting.stay (by rw [hpc]; rfl) (by rw [hpc]; exact fun _ => rfl)
          (fun _ => ⟨nofun, nofun⟩) fun hmodifier => .inl (by rwa [hpc] at hmodifier) }
  | exchanged sync =>
    simp only [hpc] at hnext
    split at hnext
    · obtain rfl := Option.some.inj hnext
      exact h.calm (by rw [hpc]; rfl) (by rw [hpc]; rfl) (by rw [hpc]; rfl)
        (by rw [hpc]; exact fun _ => rfl) fun _ => ⟨nofun, nofun⟩
    · obtain rfl := Option.some.inj hnext
      exact {
        oneThread := oneThread_of_update rfl (h.oneThread.giveUp (by rw [hpc]; rfl))
        oneStart := h.oneStart_update (by rw [hpc]; rfl) fun hduty => by cases hduty
        meeting := h.meeting.stay (by rw [hpc]; cases sync <;> rfl)
          (by rw [hpc]; cases sync <;> exact fun _ => rfl)
          (fun _ => ⟨nofun, nofun⟩) fun hmodifier => .inl (by rwa [hpc] at hmodifier) }
  | constructing sync =>
    rw [hpc] at hnext
    obtain rfl := Option.some.inj hnext
    have hpreparing : (w.pc t).duty = .preparing := by rw [hpc]; rfl
    have hfinished := h.oneThread.empty t hpreparing
    exact {
      oneThread := oneThread_of_update rfl (h.oneThread.construct hpreparing)
      oneStart := h.oneStart_update (by rw [hpc]; rfl) fun _ => by rw [hpreparing]; rfl
      meeting := by
        cases sync with
        | none =>
          exact h.meeting.construct_plain (h.oneStart.plain t (by rw [hpreparing]; rfl)
            (by rw [hpc]; rfl)) hfinished h.oneThread.unborn
        | some oldVal =>
          exact h.meeting.construct_sync hpc (fun u =>
            h.oneStart.modifier_of_alone (by rw [hpc]; nofun)) hfinished h.oneThread.unborn }
  | assigning sync k =>
    rw [hpc] at hnext
    obtain rfl := Option.some.inj hnext
    exact {
      oneThread := oneThread_of_update rfl (h.oneThread.assign (by rw [hpc]; rfl))
      oneStart := h.oneStart_update (by rw [hpc]; rfl) fun hduty => by cases hduty
      meeting := h.meeting.stay (by rw [hpc]; cases sync <;> rfl)
        (by rw [hpc]; cases sync <;> exact fun _ => rfl)
        (fun _ => ⟨nofun, nofun⟩) fun hmodifier => .inl (by rwa [hpc] at hmodifier) }
  | ending sync thread =>
    rw [hpc] at hnext
    obtain rfl := Option.some.inj hnext
    have hcalm : Sound (w.goto t (Pc.afterStart sync thread thread.isSome)) := by
      cases sync with
      | none =>
        exact h.calm (by rw [hpc]; rfl) (by rw [hpc]; rfl) (by rw [hpc]; rfl)
          (by rw [hpc]; exact fun _ => rfl) fun _ => ⟨nofun, nofun⟩
      | some oldVal =>
        cases thread with
        | none =>
          exact h.calm (by rw [hpc]; rfl) (by rw [hpc]; rfl) (by rw [hpc]; rfl)
            (by rw [hpc]; exact fun _ => rfl) fun _ => ⟨nofun, nofun⟩
        | some k =>
          exact h.calm (by rw [hpc]; rfl) (by rw [hpc]; rfl) (by rw [hpc]; rfl)
            (by rw [hpc]; exact fun _ => rfl) fun _ => ⟨nofun, nofun⟩
    exact ⟨hcalm.oneThread, hcalm.oneStart, hcalm.meeting⟩
  | entering oldVal thread =>
    rw [hpc] at hnext
    obtain ⟨startSync, hstep, rfl⟩ := Option.map_eq_some_iff.mp hnext
    obtain ⟨-, hsync, hinside⟩ := Synchronizer.World.of_step_call hstep
    exact {
      oneThread := h.oneThread_update (by rw [hpc]; rfl)
      oneStart := h.oneStart_update (by rw [hpc]; rfl) fun hduty => by cases hduty
      meeting := by
        rw [hsync, hinside]
        exact h.meeting.enter hpc }
  | syncing oldVal thread =>
    rw [hpc] at hnext
    obtain ⟨startSync, hstep, rfl⟩ := Option.map_eq_some_iff.mp hnext
    obtain ⟨b, hmoves, hinside⟩ := Synchronizer.World.moves_of_step_next hstep
    have hself : startSync.pc (.inl t) = b := by rw [hinside, Function.update_self]
    have hduty : ∀ pc' : Pc, pc' = .restoring oldVal ∨ pc' = .syncing oldVal thread →
        pc'.duty = (w.pc t).duty ∧ pc'.modifier = (w.pc t).modifier := fun pc' hpc' => by
      rw [hpc]
      rcases hpc' with rfl | rfl <;> exact ⟨rfl, rfl⟩
    obtain ⟨hduty, hmodifier⟩ := hduty (if b = .idle then .restoring oldVal
      else .syncing oldVal thread) (ite_eq_or_eq ..)
    dsimp only
    rw [hself]
    exact {
      oneThread := h.oneThread_update hduty
      oneStart := h.oneStart_update hmodifier fun hstarting => hduty ▸ hstarting
      meeting := by
        change Meeting _ _ _ startSync.pc startSync.sync _ _
        rw [hinside]
        exact h.meeting.moveCaller hpc hmoves }
  | restoring oldVal =>
    rw [hpc] at hnext
    obtain rfl := Option.some.inj hnext
    have hmodifier : (w.pc t).modifier = some (oldVal, true) := by rw [hpc]; rfl
    exact {
      oneThread := h.oneThread_update (by rw [hpc]; rfl)
      oneStart := h.oneStart.restore hmodifier rfl
      meeting := h.meeting.stay (by rw [hpc]; rfl) (by rw [hpc]; exact fun _ => rfl)
        (fun _ => ⟨nofun, nofun⟩) fun _ => .inl rfl }
  | stopping =>
    rw [hpc] at hnext
    obtain rfl := Option.some.inj hnext
    exact h.calm (by rw [hpc]; rfl) (by rw [hpc]; rfl) (by rw [hpc]; rfl)
      (by rw [hpc]; exact fun _ => rfl) fun _ => ⟨nofun, nofun⟩
  | checking =>
    simp only [hpc] at hnext
    cases hthread : w.workerThread with
    | none =>
      rw [hthread] at hnext
      obtain rfl := Option.some.inj hnext
      exact h.calm (by rw [hpc]; rfl) (by rw [hpc]; rfl) (by rw [hpc]; rfl)
        (by rw [hpc]; exact fun _ => rfl) fun _ => ⟨nofun, nofun⟩
    | some k =>
      rw [hthread] at hnext
      obtain rfl := Option.some.inj hnext
      exact {
        oneThread := oneThread_of_update rfl (h.oneThread.check (by rw [hpc]; rfl) hthread)
        oneStart := h.oneStart_update (by rw [hpc]; rfl) fun hduty => by cases hduty
        meeting := h.meeting.stay (by rw [hpc]; rfl) (by rw [hpc]; exact fun _ => rfl)
          (fun _ => ⟨nofun, nofun⟩) fun _ => .inl rfl }
  | joining k =>
    simp only [hpc] at hnext
    split at hnext
    · next hfinished =>
      obtain rfl := Option.some.inj hnext
      exact {
        oneThread := oneThread_of_update rfl (h.oneThread.join (by rw [hpc]; rfl) hfinished)
        oneStart := h.oneStart_update (by rw [hpc]; rfl) fun hduty => by cases hduty
        meeting := h.meeting.stay (by rw [hpc]; rfl) (by rw [hpc]; exact fun _ => rfl)
          (fun _ => ⟨nofun, nofun⟩) fun _ => .inl rfl }
    · cases hnext

omit [DecidableEq ι] in
/-- A thread goes on, and nobody is to meet it by that. -/
theorem Sound.calmThread (h : Sound w) (halive : (w.thread k).isAlive = true)
    (hborn : threadPc ≠ .unborn) (hentry : ∀ b, threadPc.entry b = (w.thread k).entry b)
    (hsyncing : threadPc.isSyncing = (w.thread k).isSyncing)
    (hunread : threadPc.isUnread = true → (w.thread k).isUnread = true) :
    Sound (w.gotoThread k threadPc) where
  oneThread := h.oneThread.moveThread halive hborn
  oneStart := h.oneStart
  meeting := h.meeting.stayThread hentry hsyncing hunread

theorem Sound.nextThread (h : Sound w) (hnext : w.nextThread k = some w') : Sound w' := by
  rw [World.nextThread] at hnext
  cases hpc : w.thread k with
  | unborn =>
    rw [hpc] at hnext
    cases hnext
  | created =>
    rw [hpc] at hnext
    obtain rfl := Option.some.inj hnext
    exact h.calmThread (by rw [hpc]; rfl) nofun (by rw [hpc]; exact fun _ => rfl)
      (by rw [hpc]; rfl) fun _ => by rw [hpc]; rfl
  | saved oldVal =>
    rw [hpc] at hnext
    obtain rfl := Option.some.inj hnext
    have hcalm : Sound (w.gotoThread k (.modified oldVal)) := h.calmThread (by rw [hpc]; rfl) nofun
      (by rw [hpc]; exact fun _ => rfl) (by rw [hpc]; rfl) fun _ => by rw [hpc]; rfl
    exact ⟨hcalm.oneThread, hcalm.oneStart, hcalm.meeting⟩
  | modified oldVal =>
    have halive : (w.thread k).isAlive = true := by rw [hpc]; rfl
    have hlast := h.oneThread.last_of_alive halive
    simp only [hpc] at hnext
    split at hnext
    · next hraised =>
      obtain ⟨startSync, hstep, rfl⟩ := Option.map_eq_some_iff.mp hnext
      obtain ⟨-, hsync, hinside⟩ := Synchronizer.World.of_step_call hstep
      have hsome : ∃ u, (w.pc u).modifier ≠ none := by
        by_contra hnone
        have hlowered := h.oneStart.lowered fun u oldVal hu =>
          hnone ⟨u, by rw [hu]; nofun⟩
        rw [hraised] at hlowered
        cases hlowered
      exact {
        oneThread := h.oneThread.moveThread halive nofun
        oneStart := h.oneStart
        meeting := by
          rw [hsync, hinside]
          exact h.meeting.enterThread hpc hlast hsome }
    · next hlowered =>
      obtain rfl := Option.some.inj hnext
      exact {
        oneThread := h.oneThread.moveThread halive nofun
        oneStart := h.oneStart
        meeting := h.meeting.skipThread hpc hlast fun u oldVal hu =>
          hlowered (h.oneStart.raised u oldVal hu) }
  | syncing oldVal =>
    rw [hpc] at hnext
    obtain ⟨startSync, hstep, rfl⟩ := Option.map_eq_some_iff.mp hnext
    obtain ⟨b, hmoves, hinside⟩ := Synchronizer.World.moves_of_step_next hstep
    have hself : startSync.pc (.inr k) = b := by rw [hinside, Function.update_self]
    dsimp only
    rw [hself]
    exact {
      oneThread := h.oneThread.moveThread (by rw [hpc]; rfl) (by split <;> nofun)
      oneStart := h.oneStart
      meeting := by
        change Meeting _ _ _ startSync.pc startSync.sync _ _
        rw [hinside]
        exact h.meeting.moveThread hpc hmoves }
  | running oldVal =>
    rw [hpc] at hnext
    obtain rfl := Option.some.inj hnext
    exact h.calmThread (by rw [hpc]; rfl) nofun (by rw [hpc]; exact fun _ => rfl)
      (by rw [hpc]; rfl) nofun
  | returned oldVal =>
    rw [hpc] at hnext
    obtain rfl := Option.some.inj hnext
    have hcalm : Sound (w.gotoThread k .finished) := h.calmThread (by rw [hpc]; rfl) nofun
      (by rw [hpc]; exact fun _ => rfl) (by rw [hpc]; rfl) nofun
    exact ⟨hcalm.oneThread, hcalm.oneStart, hcalm.meeting⟩
  | finished =>
    rw [hpc] at hnext
    cases hnext

theorem Sound.step (h : Sound w) {a : Action ι} (hinOrder : w.inOrder a)
    (hstep : w.step a = some w') : Sound w' := by
  cases a with
  | startWorker t =>
    rw [World.step] at hstep
    split at hstep
    · next hpc =>
      obtain rfl := Option.some.inj hstep
      exact h.calm (by rw [hpc]; rfl) (by rw [hpc]; rfl) (by rw [hpc]; rfl)
        (by rw [hpc]; exact fun _ => rfl) fun _ => ⟨nofun, nofun⟩
    · cases hstep
  | startSyncWorker t =>
    rw [World.step] at hstep
    split at hstep
    · next hpc =>
      obtain rfl := Option.some.inj hstep
      obtain ⟨hnobody, hread⟩ := hinOrder
      have hfound : w.syncStart = false := h.oneStart.lowered fun u oldVal hu => by
        rw [(hnobody u).2] at hu
        cases hu
      exact {
        oneThread := h.oneThread_update (by rw [hpc]; rfl)
        oneStart := by
          have halone : OneStart (Function.update w.pc t (.saved w.syncStart)) false :=
            OneStart.alone (fun u _ => (hnobody u).2) (by rw [hfound]; rfl) fun u _ => (hnobody u).1
          change OneStart _ w.syncStart
          rwa [← hfound] at halone
        meeting := h.meeting.stay (by rw [hpc]; rfl) (by rw [hpc]; exact fun _ => rfl)
          (fun _ => ⟨nofun, nofun⟩) fun _ => .inr fun k => by
            rcases Nat.lt_or_ge k w.threads with hlt | hge
            · exact hread k hlt
            · rw [h.oneThread.unborn k hge]
              rfl }
    · cases hstep
  | stopWorker t =>
    rw [World.step] at hstep
    split at hstep
    · next hpc =>
      obtain rfl := Option.some.inj hstep
      have hcalm : ∀ b : Bool, Sound (w.goto t (if b then .stopping else .idle)) := fun b => by
        cases b <;> exact h.calm (by rw [hpc]; rfl) (by rw [hpc]; rfl) (by rw [hpc]; rfl)
          (by rw [hpc]; exact fun _ => rfl) fun _ => ⟨nofun, nofun⟩
      exact ⟨(hcalm _).oneThread, (hcalm _).oneStart, (hcalm _).meeting⟩
    · cases hstep
  | next t ret => exact h.next hinOrder hstep
  | nextThread k => exact h.nextThread hstep

/-- The worlds of the runs in which the starts are in order. -/
def ReachableInOrder (hasMethod : Bool) (w : World ι) : Prop :=
  Transition.Reaches step inOrder (· = init hasMethod) w

theorem exists_reachableInOrder [Fintype ι] (hasMethod : Bool) (actions : List (Action ι))
    {P : World ι → Prop} [DecidablePred P]
    (h : (Transition.runs (Transition.guarded step fun w a => decide (inOrder w a))
      (init hasMethod) actions).any (fun w => decide (P w)) = true) :
    ∃ w, ReachableInOrder hasMethod w ∧ P w := by
  obtain ⟨w, hw, hp⟩ := @Transition.Reaches.exists_of_runs_guarded _ _ step (· = init hasMethod)
    _ _ _ P _ rfl h
  exact ⟨w, hw.mono fun _ _ => of_decide_eq_true, hp⟩

def Reachable (hasMethod : Bool) (w : World ι) : Prop :=
  Transition.Reaches step Transition.unrestricted (· = init hasMethod) w

theorem exists_reachable (hasMethod : Bool) (actions : List (Action ι)) {P : World ι → Prop}
    [DecidablePred P]
    (h : (Transition.runs step (init hasMethod) actions).any (fun w => decide (P w)) = true) :
    ∃ w, Reachable hasMethod w ∧ P w :=
  Transition.Reaches.exists_of_runs rfl h

/-- In a run whose starts are in order, the worker starts one thread at a time, and the calls that
synchronise meet their threads. -/
theorem startsOnce_of_reachable {hasMethod : Bool} (h : ReachableInOrder hasMethod w) :
    w.StartsOnce := by
  have hsound : Sound w := Transition.Reaches.invariant (I := Sound)
    (fun _ hw => hw ▸ sound_init hasMethod)
    (fun _ _ _ hs hinOrder hstep => hs.step hinOrder hstep) h
  exact hsound.startsOnce

local instance twoCallers : NeZero 2 := ⟨two_ne_zero⟩

/-- A start that synchronises meets its thread, which another caller joins, and starts again. -/
def meeting : List (Action (Fin 2)) :=
  .startSyncWorker 0 :: (List.replicate 10 (.next 0 true) ++ List.replicate 12 (.nextThread 0) ++
    [.next 0 true, .next 0 true, .stopWorker 1, .next 1 true, .next 1 true, .next 1 true,
      .startWorker 1] ++ List.replicate 5 (.next 1 true))

theorem startsOnce_meeting : ∃ w : World (Fin 2), w.StartsOnce ∧ w.entered = [some 0] ∧
    w.preRuns = [0] ∧ w.threads = 2 := by
  obtain ⟨w, hw, hrecord⟩ := exists_reachableInOrder true meeting
    (P := fun w => w.entered = [some 0] ∧ w.preRuns = [0] ∧ w.threads = 2) (by decide +kernel)
  exact ⟨w, startsOnce_of_reachable hw, hrecord⟩

/-- A worker is started, and a start that synchronises is made of it. -/
def late : List (Action (Fin 1)) :=
  .startWorker 0 :: (List.replicate 5 (.next 0 true) ++
    .startSyncWorker 0 :: List.replicate 4 (.next 0 true))

theorem not_startsOnce : ¬ ∀ w : World (Fin 1), Reachable true w → w.StartsOnce := by
  intro h
  obtain ⟨w, hw, hentered⟩ := exists_reachable true late (P := fun w => none ∈ w.entered)
    (by decide +kernel)
  obtain ⟨k, hk, -⟩ := (h w hw).preRun_of_entered none hentered
  cases hk

end World

end Sihd.Util.Worker
