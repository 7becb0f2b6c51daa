import Mathlib.Data.Fintype.Basic
import Sihd.Util.ABlockingService

/-!
# Runs of a blocking service

The end of a start writes that the service runs, or its error, and the end of a stop writes that
it has stopped. The state of the controller is right as long as no such write comes too late: the
end of a start after that of the stop, or the end of a stop after the next start.
-/

namespace Sihd.Util.ABlockingService

open BlockingServiceController (State)

variable {ι : Type}

/-- The state agrees with the calls in progress, or with the last one when there is none. -/
structure Agrees (pc : ι → Pc) (s : State) (stoppedLast : Bool) : Prop where
  running : (∀ d, ¬ (pc d).stopping) → ∀ c, (pc c).toReturn = true → s = .running
  stopped : (∀ c, pc c = .idle) → stoppedLast = true → s = .stopped

/-- The record is of the call that its caller is in, if it is in one. -/
def Recorded (pc : ι → Pc) (last : Option (Accepted ι)) : Prop :=
  ∀ a, last = some a → ∀ method, (pc a.caller).method = some method →
    a.method = method ∧ a.ret = none

section Moves

variable [DecidableEq ι] {pc : ι → Pc} {s : State} {stoppedLast : Bool} {c : ι} {x : Pc}
  {last : Option (Accepted ι)}

/-- A call goes on. -/
theorem Agrees.move (h : Agrees pc s stoppedLast) (hmethod : x.method = (pc c).method)
    (htoReturn : x.toReturn = true → (pc c).toReturn = true) (hc : pc c ≠ .idle) :
    Agrees (Function.update pc c x) s stoppedLast where
  running := fun hnone d hd => by
    have hstill : ∀ e, ¬ (pc e).stopping := fun e => by
      have he := hnone e
      by_cases hec : e = c
      · rw [hec, Function.update_self, Pc.stopping, hmethod] at he
        rwa [hec]
      · rwa [Function.update_of_ne hec] at he
    by_cases hdc : d = c
    · rw [hdc, Function.update_self] at hd
      exact h.running hstill c (htoReturn hd)
    · rw [Function.update_of_ne hdc] at hd
      exact h.running hstill d hd
  stopped := fun hidle => by
    have hx := hidle c
    rw [Function.update_self] at hx
    rw [hx] at hmethod
    exact absurd (Pc.method_eq_none.mp hmethod.symm) hc

theorem Agrees.start : Agrees (Function.update pc c .starting) .running stoppedLast where
  running := fun _ _ _ => rfl
  stopped := fun hidle => by
    have hc := hidle c
    rw [Function.update_self] at hc
    cases hc

theorem Agrees.stop : Agrees (Function.update pc c .onStop) s stoppedLast where
  running := fun hnone => by
    have hc := hnone c
    rw [Function.update_self] at hc
    exact absurd rfl hc
  stopped := fun hidle => by
    have hc := hidle c
    rw [Function.update_self] at hc
    cases hc

theorem Recorded.move (h : Recorded pc last) (hmethod : x.method = (pc c).method) :
    Recorded (Function.update pc c x) last := by
  intro a ha method hm
  by_cases hac : a.caller = c
  · rw [hac, Function.update_self, hmethod, ← hac] at hm
    exact h a ha method hm
  · rw [Function.update_of_ne hac] at hm
    exact h a ha method hm

theorem Recorded.accept (method : Method) :
    Recorded (Function.update pc c method.pc) (some ⟨c, method, none⟩) := by
  intro a ha method' hm
  obtain rfl := Option.some.inj ha
  rw [Function.update_self, Method.pc_method] at hm
  exact ⟨Option.some.inj hm, rfl⟩

end Moves

namespace World

section Order

variable [DecidableEq ι] {w w' : World ι}

/-- The end of a call in its order. A call is the last one in progress to end, after a stop that
was accepted last and has succeeded, only if it is a stop that succeeds. Unless it is a start that
succeeds, it ends with no stop in progress only when no start is to return from `on_start`. -/
def EndsInOrder (w : World ι) (c : ι) (method : Method) (ret : Bool) : Prop :=
  ((method = .stop ∧ ret = true) ∨ (∃ d, d ≠ c ∧ w.pc d ≠ .idle) ∨ w.stoppedLast = false) ∧
    ((method = .start ∧ ret = true) ∨ (∃ d, d ≠ c ∧ (w.pc d).stopping) ∨
      ∀ d, (w.pc d).toReturn = false)

/-- The condition on a step. -/
def inOrder (w : World ι) : Action ι → Prop
  | .next c _ => ∀ method ret, w.pc c = .ending method ret → w.EndsInOrder c method ret
  | _ => True

/-- What holds in every run, in order or not. -/
structure Consistent (w : World ι) : Prop where
  recorded : Recorded w.pc w.last
  mutex : Exclusive (fun pc => pc.holdsMutex = true) w.pc (w.runningMutex = true)

omit [DecidableEq ι] in
theorem consistent_init : Consistent (init : World ι) where
  recorded := fun _ ha => by cases ha
  mutex := Exclusive.nobody (fun _ => Bool.false_ne_true) Bool.false_ne_true

/-- A stop that is found to have been accepted last and to have succeeded when a call ends was
found so before, or is that call. -/
theorem stoppedLast_ended (h : Recorded w.pc w.last) {c : ι} {method : Method} {ret : Bool}
    (hc : w.pc c = .ending method ret) {w' : World ι} (hlast : w'.last = w.ended c ret)
    (hstopped : w'.stoppedLast = true) :
    w.stoppedLast = true ∨ (method = .stop ∧ ret = true) := by
  rw [stoppedLast, hlast, ended] at hstopped
  cases ha : w.last with
  | none =>
    rw [ha] at hstopped
    cases hstopped
  | some a =>
    obtain ⟨caller, m, r⟩ := a
    rw [ha, Option.map_some] at hstopped
    by_cases hcaller : caller = c
    · have hm : m = method := (h _ ha method (by rw [hcaller, hc]; rfl)).1
      rw [if_pos hcaller] at hstopped
      subst hm
      cases m with
      | start => cases hstopped
      | stop =>
        cases ret with
        | true => exact .inr ⟨rfl, rfl⟩
        | false => cases hstopped
    · rw [if_neg hcaller] at hstopped
      exact .inl (by rwa [stoppedLast, ha])

theorem Consistent.goesOn (h : Consistent w) {c : ι} {x : Pc} (hgoes : GoesOn w c x w') :
    Consistent w' where
  recorded := by
    rw [hgoes.pc, hgoes.last]
    exact h.recorded.move hgoes.method
  mutex := by
    rw [hgoes.pc]
    rcases hgoes.mutex with ⟨hx, hmutex⟩ | ⟨hx, hfree, htaken⟩ | ⟨hc, hx, hfree⟩
    · rw [hmutex]
      exact h.mutex.stay (by rw [hx])
    · exact h.mutex.enter (by simp [hfree]) hx htaken
    · exact h.mutex.leave hc (by simp [hx]) (by simp [hfree])

theorem Consistent.ends (h : Consistent w) {c : ι} {method : Method} {ret : Bool}
    (hc : w.pc c = .ending method ret) (ctrl : BlockingServiceController) :
    Consistent { w.goto c .idle with
      ctrl := ctrl
      last := w.ended c ret } where
  recorded := by
    intro a ha m hm
    obtain ⟨b, hb, rfl⟩ := Option.map_eq_some_iff.mp ha
    have hcaller : b.caller ≠ c := fun hbc => by
      rw [if_pos hbc] at hm
      change (Function.update w.pc c .idle b.caller).method = some m at hm
      rw [hbc, Function.update_self] at hm
      cases hm
    rw [if_neg hcaller] at hm ⊢
    change (Function.update w.pc c .idle b.caller).method = some m at hm
    rw [Function.update_of_ne hcaller] at hm
    exact h.recorded b hb m hm
  mutex := h.mutex.stay (by rw [hc]; rfl)

theorem Consistent.step (h : Consistent w) {a : Action ι} (hstep : w.step a = some w') :
    Consistent w' := by
  cases a with
  | call c method =>
    rw [World.step] at hstep
    split at hstep
    · next hpc =>
      cases hstart : w.ctrl.opStart method.id with
      | mk ctrl ret =>
        rw [hstart] at hstep
        cases ret with
        | true =>
          obtain rfl := Option.some.inj hstep
          exact ⟨.accept method, h.mutex.stay (by rw [hpc]; cases method <;> rfl)⟩
        | false =>
          obtain rfl := Option.some.inj hstep
          exact ⟨h.recorded, h.mutex⟩
    · cases hstep
  | next c ret =>
    rcases goesOn_of_next hstep with ⟨x, hgoes⟩ | ⟨method, ret', hpc, rfl⟩
    · exact h.goesOn hgoes
    · exact h.ends hpc _
  | serviceSetReady c =>
    rw [World.step] at hstep
    split at hstep
    · obtain rfl := Option.some.inj hstep
      exact ⟨h.recorded, h.mutex⟩
    · cases hstep
  | setServiceWaitStop active =>
    obtain rfl := Option.some.inj hstep
    exact ⟨h.recorded, h.mutex⟩

structure Sound (w : World ι) : Prop where
  consistent : Consistent w
  agrees : Agrees w.pc w.ctrl.currentState w.stoppedLast

omit [DecidableEq ι] in
theorem sound_init : Sound (init : World ι) where
  consistent := consistent_init
  agrees := ⟨fun _ _ hc => Bool.noConfusion hc, fun _ hlast => Bool.noConfusion hlast⟩

theorem GoesOn.agrees {c : ι} {x : Pc} (h : GoesOn w c x w')
    (hagrees : Agrees w.pc w.ctrl.currentState w.stoppedLast) :
    Agrees w'.pc w'.ctrl.currentState w'.stoppedLast := by
  have hlast : w'.stoppedLast = w.stoppedLast := by rw [stoppedLast, h.last, stoppedLast]
  rw [h.pc, h.ctrl, hlast]
  exact hagrees.move h.method h.toReturn h.called

theorem EndsInOrder.agrees {c : ι} {method : Method} {ret : Bool}
    (horder : w.EndsInOrder c method ret) (hrecorded : Recorded w.pc w.last)
    (hc : w.pc c = .ending method ret) (hpc : w'.pc = Function.update w.pc c .idle)
    (hctrl : w'.ctrl = (w.ctrl.opEnd method.id ret).1) (hlast : w'.last = w.ended c ret) :
    Agrees w'.pc w'.ctrl.currentState w'.stoppedLast where
  running := fun hnone d hd => by
    rw [hpc] at hnone hd
    have hdc : d ≠ c := fun hdc => by
      rw [hdc, Function.update_self] at hd
      cases hd
    rw [Function.update_of_ne hdc] at hd
    rcases horder.2 with ⟨rfl, rfl⟩ | ⟨e, hec, he⟩ | hreturned
    · rw [hctrl]
      rfl
    · have hnot := hnone e
      rw [Function.update_of_ne hec] at hnot
      exact absurd he hnot
    · rw [hreturned d] at hd
      cases hd
  stopped := fun hidle hstopped => by
    rw [hpc] at hidle
    have hbefore := stoppedLast_ended hrecorded hc hlast hstopped
    have hended : method = .stop ∧ ret = true := by
      rcases horder.1 with hstop | ⟨d, hdc, hd⟩ | hnot
      · exact hstop
      · have hdle := hidle d
        rw [Function.update_of_ne hdc] at hdle
        exact absurd hdle hd
      · rw [hnot] at hbefore
        exact hbefore.resolve_left Bool.false_ne_true
    rw [hctrl, hended.1, hended.2]
    rfl

theorem Sound.step (h : Sound w) {a : Action ι} (horder : w.inOrder a)
    (hstep : w.step a = some w') : Sound w' := by
  refine ⟨h.consistent.step hstep, ?_⟩
  cases a with
  | call c method =>
    rw [World.step] at hstep
    split at hstep
    · next hpc =>
      cases hstart : w.ctrl.opStart method.id with
      | mk ctrl ret =>
        rw [hstart] at hstep
        cases ret with
        | true =>
          obtain rfl := Option.some.inj hstep
          cases method with
          | start =>
            have hstate := BlockingServiceController.opStart_start_eq_true hstart
            change Agrees _ ctrl.currentState _
            rw [hstate]
            exact .start
          | stop => exact .stop
        | false =>
          obtain rfl := Option.some.inj hstep
          rw [BlockingServiceController.opStart_eq_false hstart]
          exact h.agrees
    · cases hstep
  | next c ret =>
    rcases goesOn_of_next hstep with ⟨x, hgoes⟩ | ⟨method, ret', hpc, rfl⟩
    · exact hgoes.agrees h.agrees
    · exact (horder method ret' hpc).agrees h.consistent.recorded hpc rfl rfl rfl
  | serviceSetReady c =>
    rw [World.step] at hstep
    split at hstep
    · obtain rfl := Option.some.inj hstep
      exact h.agrees
    · cases hstep
  | setServiceWaitStop active =>
    obtain rfl := Option.some.inj hstep
    exact h.agrees

omit [DecidableEq ι] in
theorem Sound.controllable (h : Sound w) : Controllable w where
  running := fun c hc hnone => h.agrees.running hnone c (by rw [hc]; rfl)
  stopped := h.agrees.stopped

/-- The worlds of the runs in which the calls end in their order. -/
def ReachableInOrder (w : World ι) : Prop := Transition.Reaches step inOrder (· = init) w

def Reachable (w : World ι) : Prop :=
  Transition.Reaches step Transition.unrestricted (· = init) w

def Breaks (w : World ι) : Prop :=
  ∃ cs : List ι, ∃ w', Transition.runs step w (cs.map fun c => .next c true) = some w' ∧
    ¬ w'.Controllable

theorem Breaks.of_next {c : ι} (hnext : w.next c true = some w') (h : Breaks w') : Breaks w := by
  obtain ⟨cs, w'', hrun, hnot⟩ := h
  refine ⟨c :: cs, w'', ?_, hnot⟩
  rw [List.map_cons, Transition.runs_cons, step, hnext]
  exact hrun

/-- No stop is in progress, and the controller does not say that the service runs. -/
structure Unstoppable (w : World ι) : Prop where
  stopping : ∀ d, ¬ (w.pc d).stopping
  state : w.ctrl.currentState ≠ .running

theorem Unstoppable.next (h : Unstoppable w) {c : ι} {ret : Bool}
    (hnext : w.next c ret = some w') (hc : ∀ method ret', w.pc c ≠ .ending method ret') :
    Unstoppable w' := by
  rcases goesOn_of_next hnext with ⟨x, hgoes⟩ | ⟨method, ret', hpc, -⟩
  · refine ⟨fun d hd => ?_, ?_⟩
    · rw [hgoes.pc] at hd
      by_cases hdc : d = c
      · rw [hdc, Function.update_self, Pc.stopping, hgoes.method] at hd
        exact h.stopping c hd
      · rw [Function.update_of_ne hdc] at hd
        exact h.stopping d hd
    · rw [hgoes.ctrl]
      exact h.state
  · exact absurd hpc (hc method ret')

/-- In a run whose calls end in their order, a service that runs can be stopped, and a service
that was stopped can be started. -/
theorem controllable_of_reachable (h : ReachableInOrder w) : w.Controllable := by
  have hsound : Sound w := Transition.Reaches.invariant (I := Sound) (fun _ hw => hw ▸ sound_init)
    (fun _ _ _ hs horder hstep => hs.step horder hstep) h
  exact hsound.controllable

end Order

instance {ι : Type} [Fintype ι] [DecidableEq ι] (w : World ι) (c : ι) (method : Method)
    (ret : Bool) : Decidable (w.EndsInOrder c method ret) :=
  inferInstanceAs (Decidable (_ ∧ _))

instance {ι : Type} [Fintype ι] [DecidableEq ι] (w : World ι) :
    DecidablePred w.inOrder
  | .next c _ =>
      match hc : w.pc c with
      | .ending method ret =>
          decidable_of_iff (w.EndsInOrder c method ret) (by simp [inOrder, hc])
      | .idle | .starting | .locked | .onStart | .started _ | .unlocking _ | .onStop | .stopped _
      | .waiting _ | .waited _ => .isTrue (by simp [inOrder, hc])
  | .call _ _ | .serviceSetReady _ | .setServiceWaitStop _ => .isTrue trivial

theorem exists_reachableInOrder [Fintype ι] [DecidableEq ι] (actions : List (Action ι))
    {P : World ι → Prop} [DecidablePred P]
    (h : (Transition.runs (Transition.guarded step fun w a => decide (inOrder w a)) init
      actions).any (fun w => decide (P w)) = true) :
    ∃ w, ReachableInOrder w ∧ P w := by
  obtain ⟨w, hw, hp⟩ := @Transition.Reaches.exists_of_runs_guarded _ _ step (· = init)
    _ _ _ P _ rfl h
  exact ⟨w, hw.mono fun _ _ => of_decide_eq_true, hp⟩

theorem exists_reachable [DecidableEq ι] (actions : List (Action ι)) {P : World ι → Prop}
    [DecidablePred P]
    (h : (Transition.runs step init actions).any (fun w => decide (P w)) = true) :
    ∃ w : World ι, Reachable w ∧ P w :=
  Transition.Reaches.exists_of_runs rfl h

/-- A service is started, stopped by another thread, and started again. -/
def restart : List (Action (Fin 2)) :=
  [.call 0 .start, .next 0 true, .next 0 true, .call 1 .stop, .next 1 true, .next 0 true,
    .next 0 true, .next 0 true, .next 0 true, .next 1 true, .next 1 true, .next 1 true,
    .next 1 true, .call 0 .start, .next 0 true, .next 0 true]

theorem controllable_restart : ∃ w : World (Fin 2), w.Controllable ∧ w.pc 0 = .onStart ∧
    w.ctrl.currentState = .running := by
  obtain ⟨w, hw, hstarted⟩ := exists_reachableInOrder restart
    (P := fun w => w.pc (0 : Fin 2) = .onStart ∧ w.ctrl.currentState = .running)
    (by decide +kernel)
  exact ⟨w, controllable_of_reachable hw, hstarted⟩

/-- The end of the start comes after that of the stop. -/
def lateStart : List (Action (Fin 2)) :=
  [.call 0 .start, .next 0 true, .next 0 true, .call 1 .stop, .next 1 true, .next 0 true,
    .next 0 true, .next 0 true, .next 1 true, .next 1 true, .next 1 true, .next 1 true,
    .next 0 true]

theorem not_controllable_lateStart :
    ¬ ∀ w : World (Fin 2), Reachable w → w.Controllable := by
  intro h
  obtain ⟨w, hw, hidle, hlast, hstate⟩ := exists_reachable lateStart
    (P := fun w => (∀ c, w.pc c = .idle) ∧ w.stoppedLast = true ∧
      w.ctrl.currentState = .running) (by decide +kernel)
  have hstopped := (h w hw).stopped hidle hlast
  rw [hstate] at hstopped
  cases hstopped

end World

end Sihd.Util.ABlockingService
