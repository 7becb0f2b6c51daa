import Mathlib.Algebra.GroupWithZero.Nat
import Sihd.Core.Device

/-!
# Runs of devices

A device in an operation accepts no other, so that what is called meanwhile leaves it `Quiet`: its
children may grow, and what it has started may be stopped, but nothing else of it changes.
-/

namespace Sihd.Core.Device

open Sihd.Util
open ServiceController (Method State)

/-! ### The controller -/

/-- The state of a device in an operation. -/
def busyState : Method → State
  | .setup => .configuring
  | .init => .initializing
  | .start => .starting
  | .stop => .stopping
  | .reset => .resetting

def doneState : Method → State
  | .setup => .configured
  | .init => .stopped
  | .start => .running
  | .stop => .stopped
  | .reset => .none

/-- The states in which a device accepts an operation. -/
def accepts : Method → State → Bool
  | .setup, .none => true
  | .init, .none | .init, .configured => true
  | .start, .stopped => true
  | .stop, .running => true
  | .reset, .configured | .reset, .stopped => true
  | _, _ => false

/-- A controller with the transitions of a device. -/
def Legal (ctrl : ServiceController) : Prop :=
  ctrl.statemachine.transitions = controller.statemachine.transitions

theorem target_controller (s : State) (method : Method) :
    controller.statemachine.target s method.id =
      if accepts method s then some (busyState method) else none := by
  revert s method
  decide +kernel

theorem target_controller_end (method : Method) (status : Bool) :
    controller.statemachine.target (busyState method) (if status then .success else .error) =
      some (if status then doneState method else .error) := by
  revert method status
  decide +kernel

theorem Legal.target {ctrl : ServiceController} (h : Legal ctrl) (s : State)
    (op : AService.Operation) :
    ctrl.statemachine.target s op = controller.statemachine.target s op := by
  rw [StateMachine.target, h, StateMachine.target]

theorem Legal.opStart {ctrl ctrl' : ServiceController} (h : Legal ctrl) {method : Method}
    (hstart : ctrl.opStart method.id = (ctrl', true)) :
    accepts method ctrl.statemachine.state = true ∧
      ctrl'.statemachine.state = busyState method ∧ Legal ctrl' := by
  cases htransition : ctrl.statemachine.transition method.id with
  | mk m ret =>
    rw [ServiceController.opStart, htransition] at hstart
    obtain ⟨rfl, rfl⟩ := Prod.mk.inj hstart
    obtain ⟨into, htarget, rfl⟩ := StateMachine.target_of_transition htransition
    rw [h.target, target_controller] at htarget
    obtain ⟨haccepts, hinto⟩ := Option.ite_none_right_eq_some.mp htarget
    exact ⟨haccepts, (Option.some.inj hinto).symm, h⟩

theorem Legal.opEnd {ctrl : ServiceController} (h : Legal ctrl) {method : Method}
    (hbusy : ctrl.statemachine.state = busyState method) (ret : Bool) :
    (ctrl.opEnd method.id ret).1.statemachine.state =
        (if ret then doneState method else .error) ∧ Legal (ctrl.opEnd method.id ret).1 := by
  have htarget := target_controller_end method ret
  rw [← h.target, ← hbusy] at htarget
  rw [ServiceController.opEnd, StateMachine.transition_of_target htarget]
  exact ⟨rfl, h⟩

theorem busy_busyState (method : Method) : (busyState method).busy = true := by
  cases method <;> rfl

theorem not_busy_of_accepts {method : Method} {s : State} (h : accepts method s = true) :
    s.busy = false := by
  cases method <;> cases s <;> first | rfl | cases h

namespace World

variable {ι : Type} (kind : ι → Kind)

/-! ### What holds of a device -/

/-- What holds of a device that is in no operation. -/
structure Sound (w : World ι) (d : ι) : Prop where
  unstarted : w.state d ≠ .running → w.state d ≠ .error → ∀ x, d ∉ w.startedBy x
  failed : w.state d = .error → ∀ x, d ∈ w.startedBy x → w.stopFailed d x = true
  child : w.state d = .running → ∀ x, d ∈ w.startedBy x →
    ∃ entry ∈ w.children d, entry.2 = x ∧ kind x ≠ .other
  unobserved : w.state d ≠ .running → w.observedChannels d = []
  begun : w.state d = .running → ∀ entry ∈ w.children d, kind entry.2 ≠ .other →
    entry.2 ∈ w.begun d

structure Inv (w : World ι) : Prop where
  nodup : ∀ c, (w.observers c).Nodup
  legal : ∀ d, Legal (w.serviceController d)
  observers : ∀ d c, d ∈ w.observers c → c ∈ w.observedChannels d
  sound : ∀ d, (w.state d).busy = false → Sound kind w d

/-- What others leave of a device. -/
structure Quiet (w w' : World ι) (d : ι) : Prop where
  serviceController : w'.serviceController d = w.serviceController d
  observedChannels : w'.observedChannels d = w.observedChannels d
  observers : ∀ c, d ∈ w'.observers c → d ∈ w.observers c
  startedBy : ∀ x, d ∈ w'.startedBy x → d ∈ w.startedBy x
  stopFailed : w'.stopFailed d = w.stopFailed d
  begun : w'.begun d = w.begun d
  children : ∀ entry ∈ w.children d, entry ∈ w'.children d
  services : (w.state d).busy = true ∨ w.state d = .running →
    ∀ entry ∈ w'.children d, kind entry.2 ≠ .other → entry ∈ w.children d

variable {kind} {w w' w'' : World ι} {d : ι}

theorem Quiet.refl (w : World ι) (d : ι) : Quiet kind w w d where
  serviceController := rfl
  observedChannels := rfl
  observers := fun _ hc => hc
  startedBy := fun _ hx => hx
  stopFailed := rfl
  begun := rfl
  children := fun _ hentry => hentry
  services := fun _ _ hentry _ => hentry

theorem Quiet.state (h : Quiet kind w w' d) : w'.state d = w.state d := by
  rw [World.state, h.serviceController, World.state]

theorem Quiet.trans (h : Quiet kind w w' d) (h' : Quiet kind w' w'' d) : Quiet kind w w'' d where
  serviceController := h'.serviceController.trans h.serviceController
  observedChannels := h'.observedChannels.trans h.observedChannels
  observers := fun c hc => h.observers c (h'.observers c hc)
  startedBy := fun x hx => h.startedBy x (h'.startedBy x hx)
  stopFailed := h'.stopFailed.trans h.stopFailed
  begun := h'.begun.trans h.begun
  children := fun entry hentry => h'.children entry (h.children entry hentry)
  services := fun hstate entry hentry hkind =>
    h.services hstate entry (h'.services (by rwa [h.state]) entry hentry hkind) hkind

theorem Sound.quiet (h : Sound kind w d) (hquiet : Quiet kind w w' d) : Sound kind w' d where
  unstarted := fun hrunning herror x hx => by
    rw [hquiet.state] at hrunning herror
    exact h.unstarted hrunning herror x (hquiet.startedBy x hx)
  failed := fun herror x hx => by
    rw [hquiet.state] at herror
    rw [hquiet.stopFailed]
    exact h.failed herror x (hquiet.startedBy x hx)
  child := fun hrunning x hx => by
    rw [hquiet.state] at hrunning
    obtain ⟨entry, hentry, hchild⟩ := h.child hrunning x (hquiet.startedBy x hx)
    exact ⟨entry, hquiet.children entry hentry, hchild⟩
  unobserved := fun hrunning => by
    rw [hquiet.state] at hrunning
    rw [hquiet.observedChannels]
    exact h.unobserved hrunning
  begun := fun hrunning entry hentry hkind => by
    rw [hquiet.state] at hrunning
    rw [hquiet.begun]
    exact h.begun hrunning entry (hquiet.services (.inr hrunning) entry hentry hkind) hkind

/-! ### Steps of a device in an operation -/

/-- What a step of the device itself leaves. -/
structure Own (kind : ι → Kind) (w w' : World ι) (d : ι) : Prop where
  serviceController : w'.serviceController = w.serviceController
  nodup : (∀ c, (w.observers c).Nodup) → ∀ c, (w'.observers c).Nodup
  observers : (∀ c, (w.observers c).Nodup) →
    (∀ c, d ∈ w.observers c → c ∈ w.observedChannels d) →
      ∀ c, d ∈ w'.observers c → c ∈ w'.observedChannels d
  others : ∀ e, e ≠ d → Quiet kind w w' e

/-- What some steps in an operation of the device leave. -/
structure Moves (kind : ι → Kind) (w w' : World ι) (d : ι) : Prop where
  inv : Inv kind w'
  serviceController : w'.serviceController d = w.serviceController d
  others : ∀ e, e ≠ d → (w.state e).busy = true → Quiet kind w w' e
  calm : ∀ e, (w'.state e).busy = true → (w.state e).busy = true

theorem Own.refl (w : World ι) (d : ι) : Own kind w w d where
  serviceController := rfl
  nodup := id
  observers := fun _ => id
  others := fun e _ => .refl w e

theorem Own.trans (h : Own kind w w' d) (h' : Own kind w' w'' d) : Own kind w w'' d where
  serviceController := h'.serviceController.trans h.serviceController
  nodup := fun hnodup => h'.nodup (h.nodup hnodup)
  observers := fun hnodup hobservers =>
    h'.observers (h.nodup hnodup) (h.observers hnodup hobservers)
  others := fun e he => (h.others e he).trans (h'.others e he)

theorem Own.moves (h : Own kind w w' d) (hinv : Inv kind w) (hbusy : (w.state d).busy = true) :
    Moves kind w w' d where
  inv := {
    nodup := h.nodup hinv.nodup
    legal := fun e => by
      rw [h.serviceController]
      exact hinv.legal e
    observers := fun e c hc => by
      by_cases he : e = d
      · rw [he] at hc ⊢
        exact h.observers hinv.nodup (hinv.observers d) c hc
      · rw [(h.others e he).observedChannels]
        exact hinv.observers e c ((h.others e he).observers c hc)
    sound := fun e hfree => by
      by_cases he : e = d
      · rw [he, World.state, h.serviceController] at hfree
        exact absurd hbusy (by rw [World.state, hfree]; exact Bool.false_ne_true)
      · rw [(h.others e he).state] at hfree
        exact (hinv.sound e hfree).quiet (h.others e he) }
  serviceController := by rw [h.serviceController]
  others := fun e he _ => h.others e he
  calm := fun e he => by rwa [World.state, h.serviceController] at he

theorem Moves.state (h : Moves kind w w' d) : w'.state d = w.state d := by
  rw [World.state, h.serviceController, World.state]

theorem Moves.trans (h : Moves kind w w' d) (h' : Moves kind w' w'' d) : Moves kind w w'' d where
  inv := h'.inv
  serviceController := h'.serviceController.trans h.serviceController
  others := fun e he hbusy =>
    (h.others e he hbusy).trans (h'.others e he (by rwa [(h.others e he hbusy).state]))
  calm := fun e he => h.calm e (h'.calm e he)

/-- In order and in an operation of the device, what is returned comes with `Q` after `P`. -/
def Holds (kind : ι → Kind) (d : ι) (P : World ι → Prop) (w : World ι) (r : Result ι)
    (Q : World ι → Bool → Prop) : Prop :=
  match r with
  | .returned w' _ ret => w'.inOrder = true → w.inOrder = true ∧
      (Inv kind w → (w.state d).busy = true → P w → Moves kind w w' d ∧ Q w' ret)
  | .thrown w' => w'.inOrder = false
  | .stuck => True

variable {P P' : World ι → Prop} {Q R : World ι → Bool → Prop}

theorem Holds.bind {r : Result ι} {f : World ι → List (Answer ι) → Bool → Result ι}
    (h : Holds kind d P w r Q)
    (hf : ∀ w answers ret, Holds kind d (fun w => Q w ret) w (f w answers ret) R) :
    Holds kind d P w (r.bind f) R := by
  cases r with
  | returned w' answers ret =>
    have hnext := hf w' answers ret
    rw [Result.bind]
    cases hr : f w' answers ret with
    | returned w'' answers' ret' =>
      rw [hr] at hnext
      intro horder
      obtain ⟨horder', hrest⟩ := hnext horder
      obtain ⟨horder₀, hfirst⟩ := h horder'
      refine ⟨horder₀, fun hinv hbusy hP => ?_⟩
      obtain ⟨hmoves, hQ⟩ := hfirst hinv hbusy hP
      obtain ⟨hmoves', hR⟩ := hrest hmoves.inv (by rwa [hmoves.state]) hQ
      exact ⟨hmoves.trans hmoves', hR⟩
    | thrown w'' =>
      rw [hr] at hnext
      exact hnext
    | stuck => trivial
  | thrown w' => exact h
  | stuck => trivial

theorem Holds.imp {r : Result ι} (h : Holds kind d P w r Q) (hP : P' w → P w)
    (hQ : ∀ w ret, Q w ret → R w ret) : Holds kind d P' w r R := by
  cases r with
  | returned w' answers ret =>
    intro horder
    obtain ⟨horder', hrest⟩ := h horder
    refine ⟨horder', fun hinv hbusy hP' => ?_⟩
    obtain ⟨hmoves, hQ'⟩ := hrest hinv hbusy (hP hP')
    exact ⟨hmoves, hQ w' ret hQ'⟩
  | thrown w' => exact h
  | stuck => trivial

/-- A step of the device itself. -/
theorem Holds.own {answers : List (Answer ι)} {ret : Bool} (h : w'.inOrder = true →
    w.inOrder = true ∧ Own kind w w' d ∧ (P w → Q w' ret)) :
    Holds kind d P w (.returned w' answers ret) Q := by
  intro horder
  obtain ⟨horder', hown, hQ⟩ := h horder
  exact ⟨horder', fun hinv hbusy hP => ⟨hown.moves hinv hbusy, hQ hP⟩⟩

theorem Holds.return {answers : List (Answer ι)} {ret : Bool} (h : P w → Q w ret) :
    Holds kind d P w (.returned w answers ret) Q :=
  .own fun horder => ⟨horder, .refl w d, h⟩

/-- A step of the device itself comes first. -/
theorem Holds.after {r : Result ι} (hown : Own kind w w' d)
    (horder : w'.inOrder = true → w.inOrder = true) (hP : P w → P' w')
    (h : Holds kind d P' w' r Q) : Holds kind d P w r Q := by
  cases r with
  | returned w'' answers ret =>
    intro hlast
    obtain ⟨hnow, hrest⟩ := h hlast
    refine ⟨horder hnow, fun hinv hbusy hPw => ?_⟩
    have hmoves := hown.moves hinv hbusy
    obtain ⟨hmoves', hQ⟩ := hrest hmoves.inv (by rwa [hmoves.state]) (hP hPw)
    exact ⟨hmoves.trans hmoves', hQ⟩
  | thrown w'' => exact h
  | stuck => trivial

/-- What a call leaves: it does not touch a device in an operation, and a stop that succeeds is
recorded. -/
def Keeps (kind : ι → Kind) (w : World ι) (r : Result ι) (x : ι) (method : Method) : Prop :=
  match r with
  | .returned w' _ ret => w'.inOrder = true → w.inOrder = true ∧
      (Inv kind w → Inv kind w' ∧ (∀ e, (w.state e).busy = true → Quiet kind w w' e) ∧
        (∀ e, (w'.state e).busy = true → (w.state e).busy = true) ∧
          (method = .stop → ret = true → w'.startedBy x = []))
  | .thrown w' => w'.inOrder = false
  | .stuck => True

/-- A call from an operation of the device, and what it cannot change. -/
theorem Keeps.holds {r : Result ι} {x : ι} {method : Method} (h : Keeps kind w r x method)
    (hstable : (w.state d).busy = true → ∀ w', Quiet kind w w' d → P w → P w') :
    Holds kind d P w r fun w' ret =>
      P w' ∧ (method = .stop → ret = true → w'.startedBy x = []) := by
  cases r with
  | returned w' answers ret =>
    intro horder
    obtain ⟨horder', hrest⟩ := h horder
    refine ⟨horder', fun hinv hbusy hP => ?_⟩
    obtain ⟨hinv', hquiet, hcalm, hstopped⟩ := hrest hinv
    refine ⟨⟨hinv', (hquiet d hbusy).serviceController, fun e _ hbusy => hquiet e hbusy, hcalm⟩,
      hstable hbusy w' (hquiet d hbusy) hP, hstopped⟩
  | thrown w' => exact h
  | stuck => trivial

/-! ### The steps themselves -/

section Steps

variable [DecidableEq ι]

/-- A change of the children of one node only, which may be that of a device. -/
theorem quiet_children {node e : ι} {entries : List (String × ι)} {inOrder : Bool}
    (he : e ≠ node ∨ ((∀ entry ∈ w.children node, entry ∈ entries) ∧
      ((w.state e).busy = true ∨ w.state e = .running →
        ∀ entry ∈ entries, kind entry.2 ≠ .other → entry ∈ w.children node))) :
    Quiet kind w { w with
      children := Function.update w.children node entries, inOrder := inOrder } e :=
  { (Quiet.refl w e : Quiet kind w w e) with
    children := fun entry hentry => by
      by_cases hnode : e = node
      · subst hnode
        simp only [Function.update_self]
        exact (he.resolve_left (absurd rfl)).1 entry hentry
      · simp only [Function.update_of_ne hnode]
        exact hentry
    services := fun hstate entry hentry hkind => by
      by_cases hnode : e = node
      · subst hnode
        simp only [Function.update_self] at hentry
        exact (he.resolve_left (absurd rfl)).2 hstate entry hentry hkind
      · simpa only [Function.update_of_ne hnode] using hentry }

theorem own_children (entries : List (String × ι)) :
    Own kind w { w with children := Function.update w.children d entries } d where
  serviceController := rfl
  nodup := id
  observers := fun _ => id
  others := fun _ he => quiet_children (.inl he)

theorem own_addChild (w : World ι) (d : ι) (name : String) (child : ι) :
    Own kind w (w.addChild d name child) d := by
  rw [addChild]
  split
  · exact .refl w d
  · exact own_children _

theorem own_addChildren (d : ι) (entries : List (String × ι)) :
    ∀ w : World ι, Own kind w (w.addChildren d entries) d := by
  induction entries with
  | nil => exact fun w => .refl w d
  | cons entry rest ih =>
    exact fun w => (own_addChild w d entry.1 entry.2).trans (ih _)

omit [DecidableEq ι] in
/-- A change of the record of the device only. -/
theorem own_record {stopFailed : ι → ι → Bool} {begun : ι → List ι} {startedBy : ι → List ι}
    (hfailed : ∀ e, e ≠ d → stopFailed e = w.stopFailed e)
    (hbegun : ∀ e, e ≠ d → begun e = w.begun e)
    (hstarted : ∀ e, e ≠ d → ∀ x, e ∈ startedBy x → e ∈ w.startedBy x) :
    Own kind w { w with stopFailed := stopFailed, begun := begun, startedBy := startedBy } d where
  serviceController := rfl
  nodup := id
  observers := fun _ => id
  others := fun e he => {
    serviceController := rfl
    observedChannels := rfl
    observers := fun _ hc => hc
    startedBy := hstarted e he
    stopFailed := hfailed e he
    begun := hbegun e he
    children := fun _ hentry => hentry
    services := fun _ _ hentry _ => hentry }

theorem own_begun (begun : List ι) :
    Own kind w { w with begun := Function.update w.begun d begun } d :=
  own_record (fun _ _ => rfl) (fun _ he => Function.update_of_ne he _ _) fun _ _ _ hx => hx

theorem own_failed (w : World ι) (d x : ι) : Own kind w (w.failed d x) d :=
  own_record (fun _ he => Function.update_of_ne he _ _) (fun _ _ => rfl) fun _ _ _ hx => hx

theorem mem_startedBy_started {w : World ι} {d x e y : ι} :
    e ∈ (w.started d x).startedBy y ↔ e ∈ w.startedBy y ∨ (e = d ∧ y = x) := by
  rw [started]
  by_cases hy : y = x
  · subst hy
    simp [or_comm]
  · simp [hy]

theorem own_started (w : World ι) (d x : ι) : Own kind w (w.started d x) d :=
  own_record (fun _ he => Function.update_of_ne he _ _) (fun _ he => Function.update_of_ne he _ _)
    fun _ he _ hy => (mem_startedBy_started.mp hy).resolve_right fun h => he h.1

/-- A stop that has succeeded makes nothing new of any device. -/
theorem quiet_stopped (w : World ι) (x e : ι) : Quiet kind w (w.stopped x) e :=
  { Quiet.refl w e with
    startedBy := fun y hy => by
      rw [stopped] at hy
      by_cases hyx : y = x
      · subst hyx
        simp at hy
      · simpa [hyx] using hy }

theorem mem_observers_observeChannel {w : World ι} {d c e y : ι} :
    e ∈ (w.observeChannel d c).observers y ↔ e ∈ w.observers y ∨ (e = d ∧ y = c) := by
  rw [observeChannel]
  split
  · next hmem =>
    exact ⟨.inl, fun h => h.elim id fun heq => by rw [heq.1, heq.2]; exact hmem⟩
  · by_cases hy : y = c
    · subst hy
      simp
    · simp [hy]

theorem own_observeChannel (w : World ι) (d c : ι) : Own kind w (w.observeChannel d c) d where
  serviceController := by
    rw [observeChannel]
    split <;> rfl
  nodup := fun hnodup y => by
    rw [observeChannel]
    split
    · exact hnodup y
    · next hmem =>
      by_cases hy : y = c
      · subst hy
        simp only [Function.update_self]
        rw [← List.concat_eq_append]
        exact (hnodup y).concat hmem
      · simp only [Function.update_of_ne hy]
        exact hnodup y
  observers := fun _ hobservers y hy => by
    have hy' := mem_observers_observeChannel.mp hy
    rw [observeChannel]
    split
    · next hmem => exact hobservers y (hy'.elim id fun heq => by rw [heq.2]; exact hmem)
    · simp only [Function.update_self, List.mem_append, List.mem_singleton]
      exact hy'.imp (hobservers y) fun heq => heq.2
  others := fun e he => {
    serviceController := by
      rw [observeChannel]
      split <;> rfl
    observedChannels := by
      rw [observeChannel]
      split
      · rfl
      · simp only [Function.update_of_ne he]
    observers := fun y hy => (mem_observers_observeChannel.mp hy).resolve_right fun h => he h.1
    startedBy := fun x hx => by
      rw [observeChannel] at hx
      split at hx <;> exact hx
    stopFailed := by
      rw [observeChannel]
      split <;> rfl
    begun := by
      rw [observeChannel]
      split <;> rfl
    children := fun entry hentry => by
      rw [observeChannel]
      split <;> exact hentry
    services := fun _ entry hentry _ => by
      rw [observeChannel] at hentry
      split at hentry <;> exact hentry }

theorem own_observeChannels (d : ι) (channels : List ι) :
    ∀ w : World ι, Own kind w (channels.foldl (fun w c => w.observeChannel d c) w) d := by
  induction channels with
  | nil => exact fun w => .refl w d
  | cons c rest ih => exact fun w => (own_observeChannel w d c).trans (ih _)

theorem not_mem_observers_removed (hnodup : ∀ c, (w.observers c).Nodup)
    (hobservers : ∀ c, d ∈ w.observers c → c ∈ w.observedChannels d) (c : ι) :
    d ∉ (w.removeChannelsObservation d).observers c := by
  simp only [removeChannelsObservation]
  split
  · exact (hnodup c).not_mem_erase
  · next hnot => exact fun hc => hnot (hobservers c hc)

theorem own_removeChannelsObservation (w : World ι) (d : ι) :
    Own kind w (w.removeChannelsObservation d) d where
  serviceController := rfl
  nodup := fun hnodup c => by
    simp only [removeChannelsObservation]
    split
    · exact (hnodup c).erase d
    · exact hnodup c
  observers := fun hnodup hobservers c hc =>
    absurd hc (not_mem_observers_removed hnodup hobservers c)
  others := fun e he => { Quiet.refl w e with
    observedChannels := Function.update_of_ne he _ _
    observers := fun c hc => by
      simp only [removeChannelsObservation] at hc
      split at hc
      · exact List.mem_of_mem_erase hc
      · exact hc }

/-- A link of the device. -/
def link (kind : ι → Kind) (d : ι) (ret : Bool) (w : World ι) (a : Added ι) : World ι :=
  { w.addChild a.node a.name a.child with inOrder := w.inOrder && w.mayAdd kind d ret a }

theorem resolveLinks_cons (d : ι) (ret : Bool) (w : World ι) (a : Added ι)
    (rest : List (Added ι)) :
    w.resolveLinks kind d ret (a :: rest) = (link kind d ret w a).resolveLinks kind d ret rest :=
  rfl

omit [DecidableEq ι] in
theorem own_inOrder {inOrder : Bool} : Own kind w { w with inOrder := inOrder } d where
  serviceController := rfl
  nodup := id
  observers := fun _ => id
  others := fun e _ => { Quiet.refl w e with }

theorem own_link {ret : Bool} {a : Added ι} (h : (link kind d ret w a).inOrder = true) :
    Own kind w (link kind d ret w a) d := by
  have hmay : w.mayAdd kind d ret a = true := (Bool.and_eq_true_iff.mp h).2
  rw [link, addChild]
  split
  · exact own_inOrder
  · next hname =>
    refine ⟨rfl, id, fun _ => id, fun e he => quiet_children ?_⟩
    by_cases hnode : e = a.node
    · subst hnode
      rw [mayAdd, Bool.or_eq_true, or_iff_right hname, if_neg he, Bool.and_eq_true,
        Bool.not_eq_true', Bool.or_eq_true, decide_eq_true_iff, decide_eq_true_iff] at hmay
      refine .inr ⟨fun entry hentry => List.mem_append_left _ hentry,
        fun hstate entry hentry hkind => ?_⟩
      rcases List.mem_append.mp hentry with hold | hnew
      · exact hold
      · rw [List.mem_singleton] at hnew
        rcases hstate with hbusy | hrunning
        · rw [hmay.1] at hbusy
          cases hbusy
        · rw [hnew] at hkind
          exact absurd (hmay.2.resolve_right (not_not_intro hrunning)) hkind
    · exact .inl hnode

theorem inOrder_of_resolveLinks {ret : Bool} (added : List (Added ι)) :
    ∀ {w : World ι}, (w.resolveLinks kind d ret added).inOrder = true →
      w.inOrder = true ∧ Own kind w (w.resolveLinks kind d ret added) d := by
  induction added with
  | nil => exact fun {w} h => ⟨h, .refl w d⟩
  | cons a rest ih =>
    intro w h
    rw [resolveLinks_cons] at h ⊢
    obtain ⟨hlink, hown⟩ := ih h
    exact ⟨(Bool.and_eq_true_iff.mp hlink).1, (own_link hlink).trans hown⟩

/-- Links change children and nothing else. -/
theorem resolveLinks_eq (kind : ι → Kind) (d : ι) (ret : Bool) (added : List (Added ι)) :
    ∀ w : World ι, ∃ children inOrder,
      w.resolveLinks kind d ret added = { w with children := children, inOrder := inOrder } := by
  induction added with
  | nil => exact fun w => ⟨w.children, w.inOrder, rfl⟩
  | cons a rest ih =>
    intro w
    obtain ⟨children, inOrder, heq⟩ := ih (link kind d ret w a)
    refine ⟨children, inOrder, ?_⟩
    rw [resolveLinks_cons, heq, link, addChild]
    split <;> rfl

theorem mem_resolveLinks {ret : Bool} {e : ι} {entry : String × ι} (added : List (Added ι)) :
    ∀ {w : World ι}, entry ∈ w.children e →
      entry ∈ (w.resolveLinks kind d ret added).children e := by
  induction added with
  | nil => exact fun {w} h => h
  | cons a rest ih =>
    intro w h
    rw [resolveLinks_cons]
    refine ih ?_
    rw [link, addChild]
    split
    · exact h
    · by_cases he : e = a.node
      · subst he
        simp only [Function.update_self]
        exact List.mem_append_left _ h
      · simp only [Function.update_of_ne he]
        exact h

theorem observeChannels_eq (d : ι) (channels : List ι) :
    ∀ w : World ι, ∃ observers observed, channels.foldl (fun w c => w.observeChannel d c) w =
      { w with observers := observers, observedChannels := observed } := by
  induction channels with
  | nil => exact fun w => ⟨w.observers, w.observedChannels, rfl⟩
  | cons c rest ih =>
    intro w
    obtain ⟨observers, observed, heq⟩ := ih (w.observeChannel d c)
    refine ⟨observers, observed, ?_⟩
    rw [List.foldl_cons, heq, observeChannel]
    split <;> rfl

/-- In order, a start that succeeds has started what it finds among its children. -/
theorem begun_of_resolveLinks (added : List (Added ι)) :
    ∀ {w : World ι}, (w.resolveLinks kind d true added).inOrder = true →
      (∀ entry ∈ w.children d, kind entry.2 ≠ .other → entry.2 ∈ w.begun d) →
        ∀ entry ∈ (w.resolveLinks kind d true added).children d, kind entry.2 ≠ .other →
          entry.2 ∈ (w.resolveLinks kind d true added).begun d := by
  induction added with
  | nil => exact fun {w} _ h => h
  | cons a rest ih =>
    intro w horder h
    rw [resolveLinks_cons] at horder ⊢
    have hlink := (inOrder_of_resolveLinks rest horder).1
    have hmay : w.mayAdd kind d true a = true := (Bool.and_eq_true_iff.mp hlink).2
    refine ih horder fun entry hentry hkind => ?_
    have hsame : (link kind d true w a).begun = w.begun := by
      rw [link, addChild]
      split <;> rfl
    rw [hsame]
    rw [link, addChild] at hentry
    split at hentry
    · exact h entry hentry hkind
    · next hname =>
      by_cases hnode : d = a.node
      · subst hnode
        simp only [Function.update_self, List.mem_append, List.mem_singleton] at hentry
        rcases hentry with hold | rfl
        · exact h entry hold hkind
        · rw [mayAdd, Bool.or_eq_true, or_iff_right hname, if_pos rfl, Bool.not_true, Bool.false_or,
            Bool.or_eq_true, decide_eq_true_iff, decide_eq_true_iff] at hmay
          exact hmay.resolve_left hkind
      · simp only [Function.update_of_ne hnode] at hentry
        exact h entry hentry hkind

/-! ### Loops over the children -/

/-- A device that has started nothing and that observes nothing. -/
structure Unstarted (w : World ι) (d : ι) : Prop where
  startedBy : ∀ x, d ∉ w.startedBy x
  observedChannels : w.observedChannels d = []

omit [DecidableEq ι] in
theorem Unstarted.quiet (h : Unstarted w d) (hquiet : Quiet kind w w' d) : Unstarted w' d where
  startedBy := fun x hx => h.startedBy x (hquiet.startedBy x hx)
  observedChannels := hquiet.observedChannels.trans h.observedChannels

omit [DecidableEq ι] in
/-- A loop of calls that keep what the device has. -/
theorem holds_forEachChildService {call : World ι → List (Answer ι) → ι → Result ι}
    (hcall : ∀ w answers x, Holds kind d P w (call w answers x) fun w _ => P w)
    (entries : List (String × ι)) : ∀ (w : World ι) (answers : List (Answer ι)),
      Holds kind d P w (forEachChildService kind call entries w answers) fun w _ => P w := by
  induction entries with
  | nil => exact fun w answers => .return id
  | cons entry rest ih =>
    intro w answers
    rw [forEachChildService]
    split
    · exact ih w answers
    · refine (hcall w answers entry.2).bind fun w answers ret => ?_
      refine (ih w answers).bind fun w answers rets => ?_
      exact .return id

/-- The children that are not stopped yet are to come; those whose stop has failed are recorded. -/
structure Stopping (kind : ι → Kind) (d : ι) (rest : List (String × ι)) (somefailed : Prop)
    (w : World ι) : Prop where
  startedBy : ∀ x, d ∈ w.startedBy x → (∃ entry ∈ rest, entry.2 = x ∧ kind x ≠ .other) ∨
    (w.stopFailed d x = true ∧ somefailed)
  observedChannels : w.observedChannels d = []

omit [DecidableEq ι] in
theorem Stopping.quiet {rest : List (String × ι)} {somefailed : Prop}
    (h : Stopping kind d rest somefailed w) (hquiet : Quiet kind w w' d) :
    Stopping kind d rest somefailed w' where
  startedBy := fun x hx => by
    rw [hquiet.stopFailed]
    exact h.startedBy x (hquiet.startedBy x hx)
  observedChannels := hquiet.observedChannels.trans h.observedChannels

theorem holds_stopChild {call : World ι → List (Answer ι) → ι → Result ι}
    (hcall : ∀ w answers x, Keeps kind w (call w answers x) x .stop) {entry : String × ι}
    {rest : List (String × ι)} {somefailed : Prop} (w : World ι) (answers : List (Answer ι)) :
    Holds kind d (Stopping kind d (entry :: rest) somefailed) w
      (stopChild call d w answers entry.2)
      fun w ret => Stopping kind d rest (somefailed ∨ ret = false) w := by
  refine ((hcall w answers entry.2).holds fun _ w' hquiet h => h.quiet hquiet).bind
    fun w answers ret => ?_
  cases ret with
  | true =>
    refine .return fun ⟨h, hstopped⟩ => ⟨fun x hx => ?_, h.observedChannels⟩
    rcases h.startedBy x hx with ⟨e, he, hex, hkind⟩ | ⟨hfailed, hsome⟩
    · rcases List.mem_cons.mp he with rfl | he
      · rw [← hex, hstopped rfl rfl] at hx
        cases hx
      · exact .inl ⟨e, he, hex, hkind⟩
    · exact .inr ⟨hfailed, .inl hsome⟩
  | false =>
    refine .own fun horder => ⟨horder, own_failed w d entry.2, fun ⟨h, _⟩ =>
      ⟨fun x hx => ?_, h.observedChannels⟩⟩
    have hfailed : ∀ y, w.stopFailed d y = true ∨ y = entry.2 →
        (w.failed d entry.2).stopFailed d y = true := fun y hy => by
      by_cases hye : y = entry.2
      · simp [failed, hye]
      · simpa [failed, hye] using hy.resolve_right hye
    rcases h.startedBy x hx with ⟨e, he, hex, hkind⟩ | ⟨hold, hsome⟩
    · rcases List.mem_cons.mp he with rfl | he
      · exact .inr ⟨hfailed x (.inr hex.symm), .inr rfl⟩
      · exact .inl ⟨e, he, hex, hkind⟩
    · exact .inr ⟨hfailed x (.inl hold), .inl hsome⟩

theorem holds_stopChildren {call : World ι → List (Answer ι) → ι → Result ι}
    (hcall : ∀ w answers x, Keeps kind w (call w answers x) x .stop)
    (entries : List (String × ι)) :
    ∀ (somefailed : Prop) (w : World ι) (answers : List (Answer ι)),
      Holds kind d (Stopping kind d entries somefailed) w
        (forEachChildService kind (stopChild call d) entries w answers)
        fun w ret => Stopping kind d [] (somefailed ∨ ret = false) w := by
  induction entries with
  | nil => exact fun somefailed w answers => .return fun h =>
      ⟨fun x hx => (h.startedBy x hx).imp_right fun hfailed => ⟨hfailed.1, .inl hfailed.2⟩,
        h.observedChannels⟩
  | cons entry rest ih =>
    intro somefailed w answers
    rw [forEachChildService]
    split
    · next hother =>
      refine (ih somefailed w answers).imp (fun h => ⟨fun x hx => ?_, h.observedChannels⟩)
        fun _ _ => id
      refine (h.startedBy x hx).imp_left fun ⟨e, he, hex, hkind⟩ => ⟨e, ?_, hex, hkind⟩
      refine (List.mem_cons.mp he).resolve_left fun heq => hkind ?_
      rw [← hex, heq, hother]
    · refine (holds_stopChild hcall w answers).bind fun w answers ret => ?_
      refine (ih (somefailed ∨ ret = false) w answers).bind fun w answers rets => ?_
      refine .return fun h => ⟨fun x hx => (h.startedBy x hx).imp_right fun hfailed => ⟨hfailed.1, ?_⟩,
        h.observedChannels⟩
      rw [Bool.and_eq_false_iff, ← or_assoc]
      exact hfailed.2

/-- The rollback of a start: all that it has started is stopped, or its stop has failed. -/
theorem holds_stopStarted {call : World ι → List (Answer ι) → ι → Result ι}
    (hcall : ∀ w answers x, Keeps kind w (call w answers x) x .stop) (services : List ι) :
    ∀ (w : World ι) (answers : List (Answer ι)),
      Holds kind d (Stopping kind d (services.map fun x => ("", x)) True) w
        (stopStarted call d services w answers)
        fun w ret => ret = false ∧ Stopping kind d [] True w := by
  induction services with
  | nil => exact fun w answers => .return fun h => ⟨rfl, h⟩
  | cons x rest ih =>
    intro w answers
    rw [stopStarted]
    have hstop : Holds kind d (Stopping kind d (("", x) :: rest.map fun x => ("", x)) True) w
        (stopChild call d w answers x)
        fun w ret => Stopping kind d (rest.map fun x => ("", x)) (True ∨ ret = false) w :=
      holds_stopChild hcall w answers
    refine hstop.bind fun w answers ret => ?_
    refine (ih w answers).imp (fun h => ⟨fun y hy => ?_, h.observedChannels⟩) fun _ _ => id
    exact (h.startedBy y hy).imp_right fun hfailed => ⟨hfailed.1, trivial⟩

/-- A start in progress: what it has started are children of the device. -/
structure Starting (kind : ι → Kind) (d : ι) (w : World ι) : Prop where
  startedBy : ∀ x, d ∈ w.startedBy x → x ∈ w.begun d
  child : ∀ x ∈ w.begun d, ∃ entry ∈ w.children d, entry.2 = x ∧ kind x ≠ .other
  observedChannels : w.observedChannels d = []

omit [DecidableEq ι] in
theorem Starting.quiet (h : Starting kind d w) (hquiet : Quiet kind w w' d) :
    Starting kind d w' where
  startedBy := fun x hx => by
    rw [hquiet.begun]
    exact h.startedBy x (hquiet.startedBy x hx)
  child := fun x hx => by
    rw [hquiet.begun] at hx
    obtain ⟨entry, hentry, hchild⟩ := h.child x hx
    exact ⟨entry, hquiet.children entry hentry, hchild⟩
  observedChannels := hquiet.observedChannels.trans h.observedChannels

/-- The services among the children are to come, or were started. -/
def ToStart (kind : ι → Kind) (d : ι) (rest : List (String × ι)) (w : World ι) : Prop :=
  ∀ entry ∈ w.children d, kind entry.2 ≠ .other → entry ∈ rest ∨ entry.2 ∈ w.begun d

theorem holds_startChildren {call : World ι → List (Answer ι) → ι → Result ι}
    (hcall : ∀ w answers x, Keeps kind w (call w answers x) x .start)
    (entries : List (String × ι)) : ∀ (w : World ι) (answers : List (Answer ι)),
      Holds kind d (fun w => Starting kind d w ∧ ToStart kind d entries w ∧
          ∀ entry ∈ entries, entry ∈ w.children d) w
        (startChildren kind call d entries w answers)
        fun w ret => Starting kind d w ∧ (ret = true → ToStart kind d [] w) := by
  induction entries with
  | nil => exact fun w answers => .return fun ⟨h, htostart, _⟩ => ⟨h, fun _ => htostart⟩
  | cons entry rest ih =>
    intro w answers
    rw [startChildren]
    split
    · next hother =>
      refine (ih w answers).imp (fun ⟨h, htostart, hsub⟩ => ⟨h, fun e he hkind => ?_,
        fun e he => hsub e (List.mem_cons_of_mem _ he)⟩) fun _ _ => id
      refine (htostart e he hkind).imp_left fun hmem => (List.mem_cons.mp hmem).resolve_left ?_
      exact fun heq => hkind (by rw [heq, hother])
    · next hservice =>
      have hstable : (w.state d).busy = true → ∀ w', Quiet kind w w' d →
          (Starting kind d w ∧ ToStart kind d (entry :: rest) w ∧
            ∀ e ∈ entry :: rest, e ∈ w.children d) →
          Starting kind d w' ∧ ToStart kind d (entry :: rest) w' ∧
            ∀ e ∈ entry :: rest, e ∈ w'.children d :=
        fun hbusy w' hquiet ⟨h, htostart, hsub⟩ => ⟨h.quiet hquiet, fun e he hkind => by
          rw [hquiet.begun]
          exact htostart e (hquiet.services (.inl hbusy) e he hkind) hkind,
          fun e he => hquiet.children e (hsub e he)⟩
      refine ((hcall w answers entry.2).holds hstable).bind fun w answers ret => ?_
      cases ret with
      | true =>
        rw [if_pos rfl]
        refine (ih (w.started d entry.2) answers).after (own_started w d entry.2) id
          fun ⟨⟨h, htostart, hsub⟩, _⟩ => ?_
        have hbegun : (w.started d entry.2).begun d = entry.2 :: w.begun d := by
          simp [started]
        refine ⟨⟨fun x hx => ?_, fun x hx => ?_, h.observedChannels⟩, fun e he hkind => ?_,
          fun e he => hsub e (List.mem_cons_of_mem _ he)⟩
        · rw [hbegun, List.mem_cons]
          exact (mem_startedBy_started.mp hx).symm.imp And.right (h.startedBy x)
        · rw [hbegun] at hx
          rcases List.mem_cons.mp hx with rfl | hx
          · exact ⟨entry, hsub entry List.mem_cons_self, rfl, hservice⟩
          · exact h.child x hx
        · rw [hbegun]
          rcases htostart e he hkind with hmem | hbegun'
          · rcases List.mem_cons.mp hmem with rfl | hmem
            · exact .inr List.mem_cons_self
            · exact .inl hmem
          · exact .inr (List.mem_cons_of_mem _ hbegun')
      | false =>
        rw [if_neg Bool.false_ne_true]
        exact .return fun ⟨⟨h, _, _⟩, _⟩ => ⟨h, fun hret => absurd hret Bool.false_ne_true⟩

/-! ### The operations -/

theorem addChildren_eq (d : ι) (entries : List (String × ι)) :
    ∀ w : World ι, ∃ children, w.addChildren d entries = { w with children := children } := by
  induction entries with
  | nil => exact fun w => ⟨w.children, rfl⟩
  | cons entry rest ih =>
    intro w
    obtain ⟨children, heq⟩ := ih (w.addChild d entry.1 entry.2)
    refine ⟨children, ?_⟩
    change (w.addChild d entry.1 entry.2).addChildren d rest = _
    rw [heq, addChild]
    split <;> rfl

theorem holds_hook {before : Bool}
    (hP : ∀ (w : World ι) children, P w → P { w with children := children }) (w : World ι)
    (answers : List (Answer ι)) :
    Holds kind d P w (hook d w answers before)
      fun w ret => P w ∧ (before = false → ret = false) := by
  unfold hook
  split
  · next ret children rest =>
    obtain ⟨after, heq⟩ := addChildren_eq d children w
    refine .own fun horder => ⟨?_, own_addChildren d children w, fun h => ⟨?_, ?_⟩⟩
    · rw [heq] at horder
      exact horder
    · rw [heq]
      exact hP w after h
    · rintro rfl
      exact Bool.and_false ret
  · trivial

variable {call : World ι → List (Answer ι) → ι → Method → Result ι}
  (hcall : ∀ w answers x method, Keeps kind w (call w answers x method) x method)

include hcall

/-- The operations that start and stop nothing. -/
theorem holds_unstarted {method : Method} (hmethod : method ≠ .start ∧ method ≠ .stop)
    (w : World ι) (answers : List (Answer ι)) :
    Holds kind d (fun w => Unstarted w d) w (doMethod kind call method d w answers)
      fun w _ => Unstarted w d := by
  have hloop : ∀ method' (w : World ι) answers, Holds kind d (fun w => Unstarted w d) w
      (forEachChildService kind (fun w answers x => call w answers x method') (w.children d) w
        answers) fun w _ => Unstarted w d := fun method' w answers =>
    holds_forEachChildService (fun w answers x =>
      ((hcall w answers x method').holds fun _ w' hquiet h => h.quiet hquiet).imp id
        fun _ _ h => h.1) (w.children d) w answers
  have hhook : ∀ before (w : World ι) answers, Holds kind d (fun w => Unstarted w d) w
      (hook d w answers before) fun w _ => Unstarted w d := fun before w answers =>
    (holds_hook (fun _ _ h => ⟨h.startedBy, h.observedChannels⟩) w answers).imp id fun _ _ h => h.1
  have hthen : ∀ (w : World ι) answers ret, Holds kind d (fun w => Unstarted w d) w
      (if ret = true then hook d w answers true else .returned w answers false)
      fun w _ => Unstarted w d := fun w answers ret => by
    split
    · exact hhook true w answers
    · exact .return id
  cases method with
  | setup => exact (hloop .setup w answers).bind hthen
  | init => exact (hloop .init w answers).bind hthen
  | reset =>
    refine (hloop .reset w answers).bind fun w answers ret => ?_
    exact (hhook ret (w.removeChildren d) answers).after (own_children []) id
      fun h => ⟨h.startedBy, h.observedChannels⟩
  | start => exact absurd rfl hmethod.1
  | stop => exact absurd rfl hmethod.2

/-- What was started is stopped, or its stop has failed and so has that of the device. -/
theorem holds_doStop (w : World ι) (answers : List (Answer ι)) :
    Holds kind d (fun w => ∀ x, d ∈ w.startedBy x →
        ∃ entry ∈ w.children d, entry.2 = x ∧ kind x ≠ .other) w
      (doMethod kind call .stop d w answers) fun w ret => Stopping kind d [] (ret = false) w := by
  have hloop := holds_stopChildren (d := d) (fun w answers x => hcall w answers x .stop)
    (w.children d) False (w.removeChannelsObservation d) answers
  refine Holds.after (own_removeChannelsObservation w d) id
    (fun h => ⟨fun x hx => .inl (h x hx), by simp [removeChannelsObservation]⟩)
    (hloop.bind fun w answers ret => ?_)
  refine (holds_hook (P := Stopping kind d [] (False ∨ ret = false))
    (fun _ _ h => ⟨h.startedBy, h.observedChannels⟩) w answers).imp id fun w ret' h => ?_
  exact ⟨fun x hx => (h.1.startedBy x hx).imp_right fun hfailed =>
    ⟨hfailed.1, h.2 (hfailed.2.resolve_left id)⟩, h.1.observedChannels⟩

omit hcall in
/-- A device whose start succeeds: its child services are those that were started. -/
structure Begun (kind : ι → Kind) (d : ι) (w : World ι) : Prop where
  child : ∀ x, d ∈ w.startedBy x → ∃ entry ∈ w.children d, entry.2 = x ∧ kind x ≠ .other
  begun : ∀ entry ∈ w.children d, kind entry.2 ≠ .other → entry.2 ∈ w.begun d

omit hcall in
theorem holds_startItself (w : World ι) (answers : List (Answer ι)) (ret : Bool) :
    Holds kind d (fun w => Starting kind d w ∧ (ret = true → ToStart kind d [] w)) w
      (startItself kind d w answers ret)
      fun w ret => if ret = true then Begun kind d w else Starting kind d w := by
  unfold startItself
  split
  · next hret =>
    have hstarting : ∀ ret added, Starting kind d w → Starting kind d (w.resolveLinks kind d ret added) :=
      fun ret added h => by
        have hchildren : ∀ entry ∈ w.children d,
            entry ∈ (w.resolveLinks kind d ret added).children d :=
          fun entry => mem_resolveLinks added
        obtain ⟨children, inOrder, heq⟩ := resolveLinks_eq kind d ret added w
        rw [heq] at hchildren ⊢
        refine ⟨h.startedBy, fun x hx => ?_, h.observedChannels⟩
        obtain ⟨entry, hentry, hchild⟩ := h.child x hx
        exact ⟨entry, hchildren entry hentry, hchild⟩
    split
    · next added ret' observed rest =>
      refine .own fun horder => ?_
      obtain ⟨hlinks, hquietly⟩ := Bool.and_eq_true_iff.mp horder
      obtain ⟨horder', hown⟩ := inOrder_of_resolveLinks added hlinks
      refine ⟨horder', (hown.trans (own_observeChannels d observed _)).trans own_inOrder,
        fun ⟨h, htostart⟩ => ?_⟩
      have hlinked := hstarting ret' added h
      cases ret' with
      | true =>
        rw [if_pos rfl]
        have hbegun := begun_of_resolveLinks added hlinks fun entry hentry hkind =>
          (htostart hret entry hentry hkind).resolve_left List.not_mem_nil
        obtain ⟨observers, channels, heq⟩ :=
          observeChannels_eq d observed (w.resolveLinks kind d true added)
        rw [onStart, heq]
        exact ⟨fun x hx => hlinked.child x (hlinked.startedBy x hx), hbegun⟩
      | false =>
        rw [if_neg Bool.false_ne_true]
        rw [Bool.false_or, List.isEmpty_iff] at hquietly
        rw [onStart, hquietly, List.foldl_nil]
        exact ⟨hlinked.startedBy, hlinked.child, hlinked.observedChannels⟩
    · next added rest =>
      refine .own fun horder => ?_
      obtain ⟨horder', hown⟩ := inOrder_of_resolveLinks added horder
      exact ⟨horder', hown, fun h => hstarting false added h.1⟩
    · rfl
    · trivial
  · exact .return fun h => h.1

theorem holds_doStart (w : World ι) (answers : List (Answer ι)) :
    Holds kind d (fun w => Unstarted w d) w (doMethod kind call .start d w answers)
      fun w ret => if ret = true then Begun kind d w else Stopping kind d [] True w := by
  have hloop := holds_startChildren (d := d) (fun w answers x => hcall w answers x .start)
    (w.children d) { w with begun := Function.update w.begun d [] } answers
  refine Holds.after (own_begun []) id (fun h => ?_) (hloop.bind fun w answers ret => ?_)
  · refine ⟨⟨fun x hx => absurd hx (h.startedBy x), fun x hx => ?_, h.observedChannels⟩,
      fun entry hentry _ => .inl hentry, fun entry hentry => hentry⟩
    simp at hx
  · refine (holds_startItself w answers ret).bind fun w answers ret => ?_
    cases ret with
    | true => exact .return fun h => h
    | false =>
      have hrollback := holds_stopStarted (d := d) (fun w answers x => hcall w answers x .stop)
        (w.begun d).reverse w answers
      refine hrollback.imp (fun h => ⟨fun x hx => .inl ?_, h.observedChannels⟩) fun w ret h => ?_
      · obtain ⟨entry, -, hentry, hkind⟩ := h.child x (h.startedBy x hx)
        exact ⟨("", x), List.mem_map.mpr ⟨x, List.mem_reverse.mpr (h.startedBy x hx), rfl⟩, rfl,
          hkind⟩
      · rw [if_neg (by rw [h.1]; exact Bool.false_ne_true)]
        exact h.2

omit hcall in
/-- The facts of a device before one of its operations. -/
def Before (kind : ι → Kind) (d : ι) (method : Method) (w : World ι) : Prop :=
  match method with
  | .stop => ∀ x, d ∈ w.startedBy x → ∃ entry ∈ w.children d, entry.2 = x ∧ kind x ≠ .other
  | _ => Unstarted w d

omit hcall in
/-- The facts of a device after one of its operations. -/
def After (kind : ι → Kind) (d : ι) (method : Method) (w : World ι) (ret : Bool) : Prop :=
  match method with
  | .stop => Stopping kind d [] (ret = false) w
  | .start => if ret = true then Begun kind d w else Stopping kind d [] True w
  | _ => Unstarted w d

theorem holds_doMethod (method : Method) (w : World ι) (answers : List (Answer ι)) :
    Holds kind d (Before kind d method) w (doMethod kind call method d w answers)
      (After kind d method) := by
  cases method with
  | setup =>
    have hmethod : Method.setup ≠ .start ∧ Method.setup ≠ .stop := ⟨nofun, nofun⟩
    exact holds_unstarted hcall hmethod w answers
  | init =>
    have hmethod : Method.init ≠ .start ∧ Method.init ≠ .stop := ⟨nofun, nofun⟩
    exact holds_unstarted hcall hmethod w answers
  | reset =>
    have hmethod : Method.reset ≠ .start ∧ Method.reset ≠ .stop := ⟨nofun, nofun⟩
    exact holds_unstarted hcall hmethod w answers
  | start => exact holds_doStart hcall w answers
  | stop => exact holds_doStop hcall w answers

omit hcall [DecidableEq ι] in
theorem Sound.before {method : Method} (h : Sound kind w d)
    (haccepts : accepts method (w.state d) = true) : Before kind d method w := by
  have hunstarted : w.state d ≠ .running → w.state d ≠ .error → Unstarted w d :=
    fun hrunning herror => ⟨h.unstarted hrunning herror, h.unobserved hrunning⟩
  cases method with
  | stop =>
    refine h.child ?_
    cases hstate : w.state d <;> rw [hstate] at haccepts <;> first | rfl | cases haccepts
  | setup | init | start | reset =>
    refine hunstarted (fun hstate => ?_) fun hstate => ?_ <;>
      rw [hstate] at haccepts <;> cases haccepts

omit hcall [DecidableEq ι] in
/-- The end of an operation, in the state that it leads to. -/
theorem After.sound {method : Method} {ret : Bool} (h : After kind d method w ret)
    (hstate : w.state d = if ret then doneState method else .error) : Sound kind w d := by
  have hfailed : ∀ p : Prop, (p → w.state d = .error) → (w.state d ≠ .running) →
      Stopping kind d [] p w → Sound kind w d := fun p hp hrunning hstopping => {
    unstarted := fun _ herror x hx => by
      rcases hstopping.startedBy x hx with ⟨entry, hentry, -⟩ | ⟨-, hsome⟩
      · cases hentry
      · exact herror (hp hsome)
    failed := fun _ x hx => by
      rcases hstopping.startedBy x hx with ⟨entry, hentry, -⟩ | ⟨hfailed, -⟩
      · cases hentry
      · exact hfailed
    child := fun hrun => absurd hrun hrunning
    unobserved := fun _ => hstopping.observedChannels
    begun := fun hrun => absurd hrun hrunning }
  have hunstarted : (w.state d ≠ .running) → Unstarted w d → Sound kind w d :=
    fun hrunning hunstarted => hfailed False False.elim hrunning
      ⟨fun x hx => absurd hx (hunstarted.startedBy x), hunstarted.observedChannels⟩
  cases method with
  | stop =>
    refine hfailed (ret = false) (fun hret => ?_) ?_ h
    · rw [hstate, hret]
      rfl
    · rw [hstate]
      cases ret <;> nofun
  | start =>
    cases ret with
    | true =>
      rw [After, if_pos rfl] at h
      have hrunning : w.state d = .running := hstate
      exact {
        unstarted := fun hnot => absurd hrunning hnot
        failed := fun herror => by rw [hrunning] at herror; cases herror
        child := fun _ => h.child
        unobserved := fun hnot => absurd hrunning hnot
        begun := fun _ => h.begun }
    | false =>
      rw [After, if_neg Bool.false_ne_true] at h
      exact hfailed True (fun _ => hstate) (by rw [hstate]; nofun) h
  | setup | init | reset =>
    refine hunstarted ?_ h
    rw [hstate]
    cases ret <;> nofun

end Steps

/-! ### Calls -/

section Calls

variable [DecidableEq ι]

/-- The controller of the device changes. -/
def withController (w : World ι) (d : ι) (ctrl : ServiceController) : World ι :=
  { w with serviceController := Function.update w.serviceController d ctrl }

theorem quiet_withController (w : World ι) {d e : ι} (ctrl : ServiceController) (he : e ≠ d) :
    Quiet kind w (w.withController d ctrl) e :=
  { Quiet.refl w e with serviceController := Function.update_of_ne he _ _ }

theorem state_withController (w : World ι) (d : ι) (ctrl : ServiceController) :
    (w.withController d ctrl).state d = ctrl.statemachine.state := by
  simp [state, withController]

/-- The controller of a device takes a state in which the device is as it has to be. -/
theorem Inv.withController (h : Inv kind w) {ctrl : ServiceController} (hlegal : Legal ctrl)
    (hsound : ctrl.statemachine.state.busy = false → Sound kind (w.withController d ctrl) d) :
    Inv kind (w.withController d ctrl) where
  nodup := h.nodup
  legal := fun e => by
    by_cases he : e = d
    · subst he
      simpa [World.withController] using hlegal
    · simpa [World.withController, he] using h.legal e
  observers := h.observers
  sound := fun e hfree => by
    by_cases he : e = d
    · rw [he] at hfree ⊢
      rw [state_withController] at hfree
      exact hsound hfree
    · have hquiet : Quiet kind w (w.withController d ctrl) e := quiet_withController w ctrl he
      rw [hquiet.state] at hfree
      exact (h.sound e hfree).quiet hquiet

theorem Before.withController {method : Method} (h : Before kind d method w)
    (ctrl : ServiceController) : Before kind d method (w.withController d ctrl) := by
  cases method with
  | stop => exact h
  | setup | init | start | reset => exact ⟨h.startedBy, h.observedChannels⟩

theorem After.withController {method : Method} {ret : Bool} (h : After kind d method w ret)
    (ctrl : ServiceController) : After kind d method (w.withController d ctrl) ret := by
  cases method with
  | stop => exact ⟨h.startedBy, h.observedChannels⟩
  | start =>
    cases ret with
    | true => exact ⟨h.child, h.begun⟩
    | false => exact ⟨h.startedBy, h.observedChannels⟩
  | setup | init | reset => exact ⟨h.startedBy, h.observedChannels⟩

theorem Inv.stopped (h : Inv kind w) (x : ι) : Inv kind (w.stopped x) where
  nodup := h.nodup
  legal := h.legal
  observers := h.observers
  sound := fun e hfree => (h.sound e hfree).quiet (quiet_stopped w x e)

theorem keeps_finish {answers : List (Answer ι)} {x : ι} {method : Method} {ret : Bool}
    (h : w'.inOrder = true → w.inOrder = true ∧
      (Inv kind w → Inv kind w' ∧ (∀ e, (w.state e).busy = true → Quiet kind w w' e) ∧
        ∀ e, (w'.state e).busy = true → (w.state e).busy = true)) :
    Keeps kind w (finish x method w' answers ret) x method := by
  rw [finish]
  split
  · intro horder
    obtain ⟨horder', hrest⟩ := h horder
    refine ⟨horder', fun hinv => ?_⟩
    obtain ⟨hinv', hquiet, hcalm⟩ := hrest hinv
    exact ⟨hinv'.stopped x, fun e hbusy => (hquiet e hbusy).trans (quiet_stopped w' x e), hcalm,
      fun _ _ => by simp [World.stopped]⟩
  · next hnot =>
    intro horder
    obtain ⟨horder', hrest⟩ := h horder
    refine ⟨horder', fun hinv => ?_⟩
    obtain ⟨hinv', hquiet, hcalm⟩ := hrest hinv
    exact ⟨hinv', hquiet, hcalm, fun hmethod hret => absurd ⟨hmethod, hret⟩ hnot⟩

/-- A call that a device accepts. -/
theorem keeps_accepted {x : ι} {method : Method} {ctrl : ServiceController} {r : Result ι}
    (hstart : (w.serviceController x).opStart method.id = (ctrl, true))
    (hr : Holds kind x (Before kind x method) (w.withController x ctrl) r
      (After kind x method)) :
    Keeps kind w (r.bind fun w answers ret => finish x method
      (w.withController x ((w.serviceController x).opEnd method.id ret).1) answers ret) x
      method := by
  cases r with
  | returned w₂ answers ret =>
    refine keeps_finish fun horder => ?_
    obtain ⟨horder', hrest⟩ := hr horder
    refine ⟨horder', fun hinv => ?_⟩
    obtain ⟨haccepts, hstate, hlegal⟩ := (hinv.legal x).opStart hstart
    have hfree : (w.state x).busy = false := not_busy_of_accepts haccepts
    have hbusy : ((w.withController x ctrl).state x).busy = true := by
      rw [state_withController, hstate]
      exact busy_busyState method
    have hinv₁ : Inv kind (w.withController x ctrl) := hinv.withController hlegal fun hnot => by
      rw [hstate, busy_busyState] at hnot
      cases hnot
    obtain ⟨hmoves, hafter⟩ :=
      hrest hinv₁ hbusy (((hinv.sound x hfree).before haccepts).withController ctrl)
    have hctrl : w₂.serviceController x = ctrl := by
      rw [hmoves.serviceController]
      simp [World.withController]
    obtain ⟨hend, hlegal'⟩ := hlegal.opEnd hstate ret
    rw [hctrl]
    refine ⟨hmoves.inv.withController hlegal' fun _ => ?_, fun e he => ?_, fun e he => ?_⟩
    · refine (hafter.withController _).sound ?_
      rw [state_withController, hend]
    · have hex : e ≠ x := fun hex => by
        rw [hex, hfree] at he
        cases he
      have hquiet₁ : Quiet kind w (w.withController x ctrl) e := quiet_withController w ctrl hex
      exact (hquiet₁.trans (hmoves.others e hex (by rwa [hquiet₁.state]))).trans
        (quiet_withController w₂ _ hex)
    · by_cases hex : e = x
      · rw [hex, state_withController, hend] at he
        cases method <;> cases ret <;> cases he
      · have hquiet₁ : Quiet kind w (w.withController x ctrl) e := quiet_withController w ctrl hex
        have hquiet₂ : Quiet kind w₂ (w₂.withController x (ctrl.opEnd method.id ret).1) e :=
          quiet_withController w₂ _ hex
        rw [hquiet₂.state] at he
        have hbefore := hmoves.calm e he
        rwa [hquiet₁.state] at hbefore
  | thrown w₂ => exact hr
  | stuck => trivial

theorem keeps_call (depth : Nat) : ∀ (w : World ι) (answers : List (Answer ι)) (x : ι)
    (method : Method), Keeps kind w (call kind depth w answers x method) x method := by
  induction depth with
  | zero => exact fun w answers x method => trivial
  | succ depth ih =>
    intro w answers x method
    unfold call
    split
    · cases hstart : (w.serviceController x).opStart method.id with
      | mk ctrl ret =>
        cases ret with
        | true => exact keeps_accepted hstart (holds_doMethod ih method _ answers)
        | false =>
          exact fun horder => ⟨horder, fun hinv => ⟨hinv, fun e _ => .refl w e, fun _ => id,
            fun _ hret => absurd hret Bool.false_ne_true⟩⟩
    · split
      · exact keeps_finish fun horder =>
          ⟨horder, fun hinv => ⟨hinv, fun e _ => .refl w e, fun _ => id⟩⟩
      · trivial
    · trivial

/-! ### Runs -/

omit [DecidableEq ι] in
theorem Fresh.inv (h : Fresh w) : Inv kind w where
  nodup := fun c => by
    rw [h.observers]
    exact List.nodup_nil
  legal := fun d => by
    rw [h.serviceController]
    rfl
  observers := fun d c hc => by
    rw [h.observers] at hc
    cases hc
  sound := fun d _ => {
    unstarted := fun _ _ x hx => by
      rw [h.startedBy] at hx
      cases hx
    failed := fun _ x hx => by
      rw [h.startedBy] at hx
      cases hx
    child := fun _ x hx => by
      rw [h.startedBy] at hx
      cases hx
    unobserved := fun _ => h.observedChannels d
    begun := fun hrunning => by
      rw [state, h.serviceController] at hrunning
      cases hrunning }

/-- Between two calls no device is in an operation. -/
theorem inv_of_reachable (h : Reachable kind w) :
    w.inOrder = true → Inv kind w ∧ ∀ d, (w.state d).busy = false := by
  refine Transition.Reaches.invariant
    (I := fun w => w.inOrder = true → Inv kind w ∧ ∀ d, (w.state d).busy = false)
    (fun w hfresh _ => ⟨hfresh.inv, fun d => ?_⟩) (fun w c w' hw _ hstep horder => ?_) h
  · rw [state, hfresh.serviceController]
    rfl
  · have hkeeps : Keeps kind w (call kind c.depth w c.answers c.device c.method) c.device
        c.method := keeps_call c.depth w c.answers c.device c.method
    rw [step] at hstep
    split at hstep
    · next w₁ answers ret hcall =>
      obtain rfl := Option.some.inj hstep
      rw [hcall] at hkeeps
      obtain ⟨horder', hrest⟩ := hkeeps horder
      obtain ⟨hinv, hfree⟩ := hw horder'
      obtain ⟨hinv', -, hcalm, -⟩ := hrest hinv
      refine ⟨hinv', fun d => ?_⟩
      rw [← Bool.not_eq_true]
      exact fun hbusy => by
        have hbefore := hcalm d hbusy
        rw [hfree d] at hbefore
        cases hbefore
    · next w₁ hcall =>
      obtain rfl := Option.some.inj hstep
      rw [hcall] at hkeeps
      rw [Keeps, horder] at hkeeps
      cases hkeeps
    · cases hstep

/-- In a run whose steps were all in order, every device has started as a whole or not at all. -/
theorem allOrNothing_of_reachable (h : Reachable kind w) (horder : w.inOrder = true) (d : ι) :
    AllOrNothing kind w d := by
  obtain ⟨hinv, hfree⟩ := inv_of_reachable h horder
  have hsound := hinv.sound d (hfree d)
  refine ⟨fun hrunning x hx => ?_, fun hrunning => ⟨hsound.unobserved hrunning, fun c hc => ?_⟩,
    hsound.begun⟩
  · by_cases herror : w.state d = .error
    · exact hsound.failed herror x hx
    · exact absurd hx (hsound.unstarted hrunning herror x)
  · have hobserved := hinv.observers d c hc
    rw [hsound.unobserved hrunning] at hobserved
    cases hobserved

theorem exists_reachable (kind : ι → Kind) (hw : Fresh w) (calls : List (Call ι)) {P : World ι → Prop}
    [DecidablePred P]
    (h : (Transition.runs (step kind) w calls).any (fun v => decide (P v)) = true) :
    ∃ v, Reachable kind v ∧ P v :=
  Transition.Reaches.exists_of_runs hw h

end Calls

/-! ### A tree -/

section Tree

local instance fiveObjects : NeZero 5 := ⟨by decide⟩

/-- A device with a channel, a service and a device that has a service of its own. -/
def tree : World (Fin 5) where
  serviceController := fun _ => controller
  children
    | 0 => [("channel", 1), ("device", 2), ("service", 3)]
    | 2 => [("service", 4)]
    | _ => []
  observedChannels := fun _ => []
  observers := fun _ => []
  startedBy := fun _ => []
  stopFailed := fun _ _ => false
  begun := fun _ => []
  inOrder := true

def treeKind : Fin 5 → Kind
  | 0 | 2 => .device
  | 3 | 4 => .service
  | 1 => .other

theorem fresh_tree : Fresh tree :=
  ⟨fun _ => rfl, fun _ => rfl, fun _ => rfl, fun _ => rfl, rfl⟩

def initTree : Call (Fin 5) :=
  ⟨0, .init, 3, [.service true, .hook true [], .service true, .hook true []]⟩

/-- The service fails after the inner device has started, whose own service refuses to stop. -/
theorem allOrNothing_tree : ∃ w : World (Fin 5), (∀ d, AllOrNothing treeKind w d) ∧
    w.state 0 = .error ∧ w.state 2 = .error ∧ w.startedBy 4 = [2] ∧ w.startedBy 2 = [0] := by
  obtain ⟨w, hw, horder, hstate⟩ := exists_reachable treeKind fresh_tree
    [initTree, ⟨0, .start, 3, [.service true, .resolveLinks (some true) [], .onStart true [1],
      .service false, .service false, .hook true []]⟩]
    (P := fun w => w.inOrder = true ∧ w.state 0 = .error ∧ w.state 2 = .error ∧
      w.startedBy 4 = [2] ∧ w.startedBy 2 = [0]) (by decide +kernel)
  exact ⟨w, allOrNothing_of_reachable hw horder, hstate⟩

/-- A start fails once it has observed a channel. -/
theorem not_allOrNothing_observed :
    ¬ ∀ w : World (Fin 5), Reachable treeKind w → ∀ d, AllOrNothing treeKind w d := by
  intro h
  obtain ⟨w, hw, hstate, hobserved⟩ := exists_reachable treeKind fresh_tree
    [initTree, ⟨0, .start, 3, [.service true, .resolveLinks (some true) [], .onStart true [],
      .service true, .resolveLinks (some true) [], .onStart false [1], .service true, .hook true [],
      .service true]⟩]
    (P := fun w => w.state 0 = .error ∧ w.observedChannels 0 = [1]) (by decide +kernel)
  have hnone := ((h w hw 0).unobserved (by rw [hstate]; nofun)).1
  rw [hobserved] at hnone
  cases hnone

end Tree

end World

end Sihd.Core.Device
