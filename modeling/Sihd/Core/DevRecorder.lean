import Sihd.Core.DeviceRuns
import Sihd.Lib.OrderedMap
import Sihd.Util.Splitter.Plain
import Mathlib.Data.List.Perm.Basic

/-!
# The recorder

A recorder gives the channels that tell of a write to a handler, each under an alias,
and counts the calls of the handler in its channel `records`. The configuration has a
path for each alias. A start looks the paths up and makes a map from channels to aliases,
which a stop clears. Notifications come one after the other.

What the nodes and the configuration were at the last start, and the calls of the handler
since the last reset, are kept beside the recorder.
-/

namespace Sihd.Core

open Util
open ServiceController (Method State)

/-- What a path leads to: the channel of the recorder, or another one. -/
inductive DevRecorder.Target (Chan : Type*) where
  | records
  | channel (c : Chan)
  deriving DecidableEq

structure DevRecorder (Chan : Type*) where
  serviceController : ServiceController
  mapChannelsAlias : OrderedMap (List UInt8) (List UInt8)
  mapChannels : DevRecorder.Target Chan → Option (List UInt8)
  observedChannels : List (DevRecorder.Target Chan)
  running : Bool
  handlerPtr : Bool
  recordsArray : UInt32
  channelRecordsPtr : Bool
  /-- What the channel `records` holds, if there is one. -/
  records : Option UInt32
  find : List UInt8 → Option (DevRecorder.Target Chan)
  started : OrderedMap (List UInt8) (List UInt8)
  calls : List (List UInt8 × DevRecorder.Target Chan)
  /-- Whether a notification has not come back. -/
  stuck : Bool

namespace DevRecorder

variable {Chan : Type*}

/-- The steps of those who configure and run a recorder and notify channels. What the
services and the nodes around it do is in the labels: whether the children succeed,
whether the handler is found, and the channels of the paths at a start. -/
inductive Action (Chan : Type*) where
  | record (conf : List UInt8)
  | unrecord (name : List UInt8)
  | setup (ret : Bool)
  | init (children found : Bool)
  | start (children : Bool) (find : List UInt8 → Option (Target Chan))
  | notify (c : Target Chan)
  | stop (children : Bool)
  | reset (children : Bool)

/-- A constructed recorder. -/
def create : DevRecorder Chan where
  serviceController := Device.controller
  mapChannelsAlias := .empty
  mapChannels := fun _ => none
  observedChannels := []
  running := false
  handlerPtr := false
  recordsArray := 0
  channelRecordsPtr := false
  records := none
  find := fun _ => none
  started := .empty
  calls := []
  stuck := false

def state (r : DevRecorder Chan) : State := r.serviceController.statemachine.state

/-- `add_record_channel`, of a text `alias=path`. -/
def addRecordChannel (r : DevRecorder Chan) (conf : List UInt8) : DevRecorder Chan :=
  match Str.split conf [61] with
  | [name, path] => { r with mapChannelsAlias := r.mapChannelsAlias.set name path }
  | _ => r

def removeRecordedChannel (r : DevRecorder Chan) (name : List UInt8) : DevRecorder Chan :=
  { r with mapChannelsAlias := r.mapChannelsAlias.erase name }

/-- `do_init`: the channel `records` is added, unless there is one. -/
def doInit (r : DevRecorder Chan) (children found : Bool) : DevRecorder Chan × Bool :=
  if children then
    if found then ({ r with handlerPtr := true, records := r.records.or (some 0) }, true)
    else ({ r with handlerPtr := false }, false)
  else (r, false)

/-- `do_stop`, whose `on_stop` is made in any case. -/
def doStop (r : DevRecorder Chan) (children : Bool) : DevRecorder Chan × Bool :=
  ({ r with
    observedChannels := []
    running := false
    channelRecordsPtr := false
    mapChannels := fun _ => none }, children)

/-- `do_reset`, which removes the children. -/
def doReset (r : DevRecorder Chan) (children : Bool) : DevRecorder Chan × Bool :=
  ({ r with records := none, recordsArray := 0, handlerPtr := false, calls := [] }, children)

/-- A call of an operation, between the start and the end of it with the controller. -/
def service (r : DevRecorder Chan) (method : Method) (operation : DevRecorder Chan × Bool) :
    DevRecorder Chan :=
  let (ctrl, ret) := r.serviceController.opStart method.id
  if ret then
    { operation.1 with serviceController := (ctrl.opEnd method.id operation.2).1 }
  else r

section Channels

variable [DecidableEq Chan]

/-- The loop of `on_start`. -/
def observe (find : List UInt8 → Option (Target Chan)) :
    List (List UInt8 × List UInt8) → DevRecorder Chan → DevRecorder Chan × Bool
  | [], r => (r, true)
  | (name, path) :: rest, r =>
      match find path with
      | none => (r, false)
      | some c =>
          observe find rest { r with
            mapChannels := Function.update r.mapChannels c (some name)
            observedChannels :=
              if c ∈ r.observedChannels then r.observedChannels else r.observedChannels ++ [c] }

def onStart (r : DevRecorder Chan) (find : List UInt8 → Option (Target Chan)) :
    DevRecorder Chan × Bool :=
  if r.records.isNone then (r, false)
  else
    let (r, ret) := observe find r.mapChannelsAlias.entries { r with
      channelRecordsPtr := true
      find := find
      started := r.mapChannelsAlias }
    ({ r with running := r.running || ret }, ret)

def doStart (r : DevRecorder Chan) (children : Bool)
    (find : List UInt8 → Option (Target Chan)) : DevRecorder Chan × Bool :=
  if children then r.onStart find else (r, false)

/-- `handle`, in a notification of the channel. The channel `records` is not written while
it is notified, and tells of a write under the mutex of `handle`, so that a recorder that
observes it waits for itself. -/
def handle (r : DevRecorder Chan) (c : Target Chan) : DevRecorder Chan :=
  if r.running = false ∨ r.channelRecordsPtr = false then r
  else if r.handlerPtr = false then { r with stuck := true }
  else
    let name := (r.mapChannels c).getD []
    let r := { r with
      mapChannels := Function.update r.mapChannels c (some name)
      recordsArray := r.recordsArray + 1
      calls := r.calls ++ [(name, c)] }
    if c = .records ∨ r.records = some r.recordsArray then r
    else
      { r with
        records := r.records.map fun _ => r.recordsArray
        stuck := decide (.records ∈ r.observedChannels) }

/-- Nothing follows a notification that does not come back. -/
def step (r : DevRecorder Chan) (a : Action Chan) : DevRecorder Chan :=
  if r.stuck then r
  else
    match a with
    | .record conf => r.addRecordChannel conf
    | .unrecord name => r.removeRecordedChannel name
    | .setup ret => r.service .setup (r, ret)
    | .init children found => r.service .init (r.doInit children found)
    | .start children find => r.service .start (r.doStart children find)
    | .notify c => if c ∈ r.observedChannels then r.handle c else r
    | .stop children => r.service .stop (r.doStop children)
    | .reset children => r.service .reset (r.doReset children)

end Channels

/-- A call of an operation that is refused, or one that is made. -/
theorem service_cases {r : DevRecorder Chan} (h : Device.Legal r.serviceController)
    (method : Method) (operation : DevRecorder Chan × Bool) :
    ((r.serviceController.opStart method.id).2 = false ∧ r.service method operation = r) ∨
      ((r.serviceController.opStart method.id).2 = true ∧
        Device.accepts method r.state = true ∧ ∃ ctrl, Device.Legal ctrl ∧
          ctrl.statemachine.state = (if operation.2 then Device.doneState method else .error) ∧
          r.service method operation = { operation.1 with serviceController := ctrl }) := by
  rw [service]
  cases hstart : r.serviceController.opStart method.id with
  | mk ctrl ret =>
    cases ret with
    | false => exact .inl ⟨rfl, rfl⟩
    | true =>
      obtain ⟨haccepts, hbusy, hlegal⟩ := h.opStart hstart
      obtain ⟨hstate, hlegal'⟩ := hlegal.opEnd hbusy operation.2
      exact .inr ⟨rfl, haccepts, _, hlegal', hstate, rfl⟩

/-! ### What is to be recorded -/

/-- Whether the step is a reset that is made. -/
def resets (r : DevRecorder Chan) : Action Chan → Bool
  | .reset _ => (r.serviceController.opStart Method.reset.id).2
  | _ => false

@[simp] theorem resets_notify (r : DevRecorder Chan) (c : Target Chan) :
    r.resets (.notify c) = false := rfl

section Aliases

variable [DecidableEq Chan]

/-- The names of the entries whose paths lead to the channel. -/
def aliases (find : List UInt8 → Option (Target Chan)) (l : List (List UInt8 × List UInt8))
    (c : Target Chan) : List (List UInt8) :=
  (l.filter fun e => find e.2 = some c).map Prod.fst

/-- The aliases that a channel is configured with. -/
def configured (r : DevRecorder Chan) (c : Target Chan) : List (List UInt8) :=
  aliases r.find r.mapChannelsAlias.entries c

/-- Those that it was configured with at the last start. -/
def atStart (r : DevRecorder Chan) (c : Target Chan) : List (List UInt8) :=
  aliases r.find r.started.entries c

/-- The calls that are to be made in a step. -/
def wanted (r : DevRecorder Chan) : Action Chan → List (List UInt8 × Target Chan)
  | .notify c => if r.state = .running then (r.configured c).map fun name => (name, c) else []
  | _ => []

/-- A step that records all that it has to, and nothing else, and comes back. -/
structure Records (r : DevRecorder Chan) (a : Action Chan) (r' : DevRecorder Chan) : Prop where
  calls : r'.calls.Perm ((if r.resets a then [] else r.calls) ++ r.wanted a)
  records : ∀ n, r'.records = some n → n.toNat = r'.calls.length
  returns : r'.stuck = false

/-- A notification of a channel while the recorder runs: it is configured with the last of
the aliases that it had at the start, and if it had some, then `records` had none and the
number of calls is small. -/
def Single (r : DevRecorder Chan) : Action Chan → Prop
  | .notify c => r.state = .running →
      r.configured c = (r.atStart c).getLast?.toList ∧
        (r.atStart c ≠ [] → r.atStart .records = [] ∧ r.calls.length + 1 < 2 ^ 32)
  | _ => True

/-! ### The operations -/

/-- What holds of a recorder between two steps. -/
structure Sound (r : DevRecorder Chan) : Prop where
  legal : Device.Legal r.serviceController
  running : r.running = true ↔ r.state = .running
  ready : r.state = .stopped ∨ r.state = .running → r.records.isSome ∧ r.handlerPtr = true
  count : r.recordsArray.toNat = r.calls.length
  records : r.records.getD 0 = r.recordsArray
  ptr : r.running = true → r.channelRecordsPtr = true
  observed : r.state = .running → ∀ c,
    r.mapChannels c = (r.atStart c).getLast? ∧ (c ∈ r.observedChannels ↔ r.atStart c ≠ [])
  unobserved : r.state ≠ .running → r.state ≠ .error →
    (∀ c, r.mapChannels c = none) ∧ r.observedChannels = []
  returns : r.stuck = false

theorem sound_create : Sound (create : DevRecorder Chan) where
  legal := rfl
  running := iff_of_false nofun nofun
  ready := by rintro (h | h) <;> cases h
  count := rfl
  records := rfl
  ptr := nofun
  observed := nofun
  unobserved _ _ := ⟨fun _ => rfl, rfl⟩
  returns := rfl

/-- What the loop of a start makes of the map and of the observations, when it finds all
channels. -/
theorem observe_spec (find : List UInt8 → Option (Target Chan))
    (l : List (List UInt8 × List UInt8)) (r : DevRecorder Chan) :
    ∃ m o ret, observe find l r = ({ r with mapChannels := m, observedChannels := o }, ret) ∧
      (ret = true → ∀ c, m c = (aliases find l c).getLast?.or (r.mapChannels c) ∧
        (c ∈ o ↔ aliases find l c ≠ [] ∨ c ∈ r.observedChannels)) := by
  induction l generalizing r with
  | nil =>
    refine ⟨r.mapChannels, r.observedChannels, true, rfl, fun _ c => ?_⟩
    simp [aliases]
  | cons e l ih =>
    obtain ⟨name, path⟩ := e
    rw [observe]
    cases hfind : find path with
    | none => exact ⟨r.mapChannels, r.observedChannels, false, rfl, nofun⟩
    | some c =>
      dsimp only
      obtain ⟨m, o, ret, hobserve, hspec⟩ := ih { r with
        mapChannels := Function.update r.mapChannels c (some name)
        observedChannels :=
          if c ∈ r.observedChannels then r.observedChannels else r.observedChannels ++ [c] }
      refine ⟨m, o, ret, hobserve, fun hret c' => ?_⟩
      obtain ⟨hmap, hmem⟩ := hspec hret c'
      by_cases hc : c' = c
      · subst hc
        have hcons : aliases find ((name, path) :: l) c' = name :: aliases find l c' := by
          simp [aliases, hfind]
        have hmem' : c' ∈ o := by
          rw [hmem]
          right
          dsimp only
          split
          · assumption
          · simp
        rw [hmap, hcons, List.getLast?_cons]
        refine ⟨?_, by simp [hmem']⟩
        cases (aliases find l c').getLast? <;> simp
      · have hcons : aliases find ((name, path) :: l) c' = aliases find l c' := by
          simp [aliases, hfind, Ne.symm hc]
        rw [hmap, hmem, hcons]
        refine ⟨by simp [hc], ?_⟩
        dsimp only
        split
        · rfl
        · simp [hc]

section Operations

variable {r : DevRecorder Chan}

/-- A recorder that does not run. -/
theorem sound_of_rest (hlegal : Device.Legal r.serviceController) (hstate : r.state ≠ .running)
    (hrunning : r.running = false)
    (hready : r.state = .stopped → r.records.isSome ∧ r.handlerPtr = true)
    (hcount : r.recordsArray.toNat = r.calls.length)
    (hrecords : r.records.getD 0 = r.recordsArray)
    (hobserved : r.state ≠ .error → (∀ c, r.mapChannels c = none) ∧ r.observedChannels = [])
    (hreturns : r.stuck = false) : Sound r where
  legal := hlegal
  running := by simp [hrunning, hstate]
  ready h := hready (h.resolve_right hstate)
  count := hcount
  records := hrecords
  ptr h := by simp [hrunning] at h
  observed h := absurd h hstate
  unobserved _ := hobserved
  returns := hreturns

theorem Sound.running_eq_false (h : Sound r) (hstate : r.state ≠ .running) :
    r.running = false := by
  rw [← Bool.not_eq_true, h.running]
  exact hstate

theorem Sound.service (h : Sound r) {method : Method} {operation : DevRecorder Chan × Bool}
    (hoperation : ∀ ctrl, Device.accepts method r.state = true → Device.Legal ctrl →
      ctrl.statemachine.state = (if operation.2 then Device.doneState method else .error) →
        Sound { operation.1 with serviceController := ctrl }) :
    Sound (r.service method operation) := by
  obtain ⟨-, heq⟩ | ⟨-, haccepts, ctrl, hlegal, hstate, heq⟩ :=
    service_cases h.legal method operation
  · rw [heq]
    exact h
  · rw [heq]
    exact hoperation ctrl haccepts hlegal hstate

/-- An operation other than a stop is not made of a recorder that runs, or failed. -/
theorem ne_of_accepts {method : Method} {s : State} (h : Device.accepts method s = true)
    (hstop : method ≠ .stop) : s ≠ .running ∧ s ≠ .error := by
  revert method s
  decide

/-- The end of an operation other than a start. -/
theorem state_ne_running {method : Method} {ret : Bool} (hstart : method ≠ .start) :
    (if ret then Device.doneState method else .error) ≠ .running := by
  revert method ret
  decide

theorem Sound.setup (h : Sound r) (ret : Bool) : Sound (r.service .setup (r, ret)) := by
  refine h.service fun ctrl haccepts hlegal hstate => ?_
  obtain ⟨hrunning, herror⟩ := ne_of_accepts haccepts nofun
  refine sound_of_rest hlegal ?_ (h.running_eq_false hrunning) (fun hstopped => ?_) h.count
    h.records (fun _ => h.unobserved hrunning herror) h.returns
  · rw [state, hstate]
    exact state_ne_running nofun
  · rw [state, hstate] at hstopped
    cases ret <;> cases hstopped

theorem Sound.init (h : Sound r) (children found : Bool) :
    Sound (r.service .init (r.doInit children found)) := by
  refine h.service fun ctrl haccepts hlegal hstate => ?_
  obtain ⟨hrunning, herror⟩ := ne_of_accepts haccepts nofun
  have hrest := h.running_eq_false hrunning
  have hne : ctrl.statemachine.state ≠ .running := by
    rw [hstate]
    exact state_ne_running nofun
  cases children with
  | false =>
    refine sound_of_rest hlegal hne hrest (fun hstopped => ?_) h.count h.records
      (fun _ => h.unobserved hrunning herror) h.returns
    cases hstate.symm.trans hstopped
  | true =>
    cases found with
    | false =>
      refine sound_of_rest hlegal hne hrest (fun hstopped => ?_) h.count h.records
        (fun _ => h.unobserved hrunning herror) h.returns
      cases hstate.symm.trans hstopped
    | true =>
      refine sound_of_rest hlegal hne hrest (fun _ => ⟨?_, rfl⟩) h.count ?_
        (fun _ => h.unobserved hrunning herror) h.returns
      · simp [doInit]
      · have hrecords := h.records
        cases hr : r.records with
        | none => simpa [doInit, hr] using hrecords
        | some n => simpa [doInit, hr] using hrecords

theorem Sound.stop (h : Sound r) (children : Bool) :
    Sound (r.service .stop (r.doStop children)) := by
  refine h.service fun ctrl haccepts hlegal hstate => ?_
  have hrunning : r.state = .running := by
    revert haccepts
    cases r.state <;> simp [Device.accepts]
  refine sound_of_rest hlegal ?_ rfl (fun _ => h.ready (.inr hrunning)) h.count h.records
    (fun _ => ⟨fun _ => rfl, rfl⟩) h.returns
  rw [state, hstate]
  exact state_ne_running nofun

theorem Sound.reset (h : Sound r) (children : Bool) :
    Sound (r.service .reset (r.doReset children)) := by
  refine h.service fun ctrl haccepts hlegal hstate => ?_
  obtain ⟨hrunning, herror⟩ := ne_of_accepts haccepts nofun
  refine sound_of_rest hlegal ?_ (h.running_eq_false hrunning) (fun hstopped => ?_) rfl rfl
    (fun _ => h.unobserved hrunning herror) h.returns
  · rw [state, hstate]
    exact state_ne_running nofun
  · rw [state, hstate] at hstopped
    cases children <;> cases hstopped

theorem Sound.start (h : Sound r) (children : Bool) (find : List UInt8 → Option (Target Chan)) :
    Sound (r.service .start (r.doStart children find)) := by
  refine h.service fun ctrl haccepts hlegal hstate => ?_
  have hstopped : r.state = .stopped := by
    revert haccepts
    cases r.state <;> simp [Device.accepts]
  have hrest := h.running_eq_false (by rw [hstopped]; nofun)
  obtain ⟨hrecords, hhandler⟩ := h.ready (.inl hstopped)
  obtain ⟨hmap, hobserved⟩ := h.unobserved (by rw [hstopped]; nofun) (by rw [hstopped]; nofun)
  have hfails : ∀ r' : DevRecorder Chan, ctrl.statemachine.state = .error →
      r'.running = false → r'.recordsArray.toNat = r'.calls.length →
        r'.records.getD 0 = r'.recordsArray → r'.stuck = false →
          Sound { r' with serviceController := ctrl } := by
    intro r' herror hrunning hcount hrecords hreturns
    have hne : ctrl.statemachine.state ≠ .running := by rw [herror]; nofun
    refine sound_of_rest hlegal hne hrunning (fun hstopped => ?_) hcount hrecords
      (fun hne => absurd herror hne) hreturns
    cases herror.symm.trans hstopped
  cases children with
  | false => exact hfails r hstate hrest h.count h.records h.returns
  | true =>
    obtain ⟨m, o, ret, hobserve, hspec⟩ := observe_spec find r.mapChannelsAlias.entries { r with
      channelRecordsPtr := true
      find := find
      started := r.mapChannelsAlias }
    have hstart : r.doStart true find = ({ r with
        channelRecordsPtr := true
        find := find
        started := r.mapChannelsAlias
        mapChannels := m
        observedChannels := o
        running := ret }, ret) := by
      rw [doStart, if_pos rfl, onStart, if_neg (by simp [Option.isSome_iff_ne_none.mp hrecords]), hobserve]
      simp [hrest]
    rw [hstart] at hstate ⊢
    cases ret with
    | false => exact hfails _ hstate rfl h.count h.records h.returns
    | true =>
      have hmaps : ∀ c, m c = (aliases find r.mapChannelsAlias.entries c).getLast? ∧
          (c ∈ o ↔ aliases find r.mapChannelsAlias.entries c ≠ []) := by
        intro c
        obtain ⟨hm, ho⟩ := hspec rfl c
        rw [hm, ho, hmap, hobserved, Option.or_none]
        simp
      exact {
        legal := hlegal
        running := iff_of_true rfl hstate
        ready := fun _ => ⟨hrecords, hhandler⟩
        count := h.count
        records := h.records
        ptr := fun _ => rfl
        observed := fun _ => hmaps
        unobserved := fun hne => absurd hstate hne
        returns := h.returns }

end Operations

/-! ### Notifications -/

section Notify

variable {r : DevRecorder Chan} {c : Target Chan} {name : List UInt8}

/-- A recorder that does not run records nothing. -/
theorem step_notify_of_rest (h : Sound r) (hstate : r.state ≠ .running) :
    r.step (.notify c) = r := by
  have hhandle : r.handle c = r := if_pos (.inl (h.running_eq_false hstate))
  rw [step, h.returns]
  simp [hhandle]

/-- A channel that had no alias at the start is not observed. -/
theorem step_notify_of_nil (h : Sound r) (hstate : r.state = .running) (hc : r.atStart c = []) :
    r.step (.notify c) = r := by
  have hobserved : c ∉ r.observedChannels := fun hmem =>
    ((h.observed hstate c).2.mp hmem) hc
  rw [step, h.returns]
  simp [hobserved]

/-- What the handler is called with, and what is counted. -/
theorem step_notify_of_getLast (h : Sound r) (hstate : r.state = .running)
    (hc : (r.atStart c).getLast? = some name) :
    r.step (.notify c) = { r with
      mapChannels := Function.update r.mapChannels c (some name)
      recordsArray := r.recordsArray + 1
      calls := r.calls ++ [(name, c)]
      records := if c = .records then r.records else some (r.recordsArray + 1)
      stuck := decide (c ≠ .records ∧ r.atStart .records ≠ []) } := by
  have hobserved : c ∈ r.observedChannels := by
    rw [(h.observed hstate c).2]
    rintro hnil
    rw [hnil] at hc
    cases hc
  have hrunning := h.running.mpr hstate
  obtain ⟨hsome, hhandler⟩ := h.ready (.inr hstate)
  obtain ⟨n, hn⟩ := Option.isSome_iff_exists.mp hsome
  have hrecords := h.records
  rw [hn, Option.getD_some] at hrecords
  subst hrecords
  have hne : ¬ (r.recordsArray = r.recordsArray + 1) := by
    intro heq
    simp at heq
  rw [step, h.returns]
  simp only [Bool.false_eq_true, if_false, if_pos hobserved, handle, hrunning, h.ptr hrunning,
    hhandler, (h.observed hstate c).1, hc, hn, Option.getD_some]
  by_cases hrec : c = .records
  · simp [hrec, h.returns]
  · simp [hrec, hne, (h.observed hstate .records).2]

theorem toNat_succ_eq_iff {n : UInt32} {k : Nat} (h : n.toNat = k) :
    (n + 1).toNat = k + 1 ↔ k + 1 < 2 ^ 32 := by
  have hlt := n.toNat_lt
  rw [UInt32.toNat_add, h]
  simp only [UInt32.reduceToNat]
  omega

/-- Nothing is wanted of a recorder that does not run. -/
theorem wanted_of_rest (hstate : r.state ≠ .running) : r.wanted (.notify c) = [] := by
  rw [wanted, if_neg hstate]

theorem wanted_of_running (hstate : r.state = .running) :
    r.wanted (.notify c) = (r.configured c).map fun name => (name, c) := by
  rw [wanted, if_pos hstate]

/-- A notification is recorded exactly when the channel is configured with one alias as
at the start. -/
theorem records_notify_iff (h : Sound r) :
    Records r (.notify c) (r.step (.notify c)) ↔ r.Single (.notify c) := by
  have hcount : ∀ n, r.records = some n → n.toNat = r.calls.length := by
    intro n hn
    rw [← h.count, ← h.records, hn, Option.getD_some]
  have hself : Records r (.notify c) r ↔ r.wanted (.notify c) = [] := by
    constructor
    · intro hrecords
      have hlength := hrecords.calls.length_eq
      rw [resets_notify, List.length_append] at hlength
      rw [← List.length_eq_zero_iff]
      simpa using hlength
    · intro hwanted
      refine ⟨?_, hcount, h.returns⟩
      rw [hwanted, resets_notify, List.append_nil]
      rfl
  by_cases hstate : r.state = .running
  · cases hlast : (r.atStart c).getLast? with
    | none =>
      have hnil := List.getLast?_eq_none_iff.mp hlast
      rw [step_notify_of_nil h hstate hnil, hself, wanted_of_running hstate, List.map_eq_nil_iff]
      simp [Single, hstate, hnil]
    | some name =>
      have hne : r.atStart c ≠ [] := by
        rw [ne_eq, ← List.getLast?_eq_none_iff, hlast]
        nofun
      obtain ⟨n, hn⟩ := Option.isSome_iff_exists.mp (h.ready (.inr hstate)).1
      rw [step_notify_of_getLast h hstate hlast]
      constructor
      · intro hrecords _
        have hcalls := hrecords.calls
        have hreturns := hrecords.returns
        rw [resets_notify, wanted_of_running hstate, if_neg Bool.false_ne_true,
          List.perm_append_left_iff, List.singleton_perm] at hcalls
        by_cases hc : c = .records
        · have hlength := hrecords.records n (by rw [if_pos hc, hn])
          rw [hcount n hn, List.length_append] at hlength
          simp at hlength
        · have hlength := hrecords.records (r.recordsArray + 1) (by rw [if_neg hc])
          rw [List.length_append, List.length_singleton, toNat_succ_eq_iff h.count] at hlength
          refine ⟨?_, fun _ => ⟨?_, hlength⟩⟩
          · have hnames := congrArg (List.map Prod.fst) hcalls
            rw [List.map_map] at hnames
            simpa [hlast] using hnames.symm
          · simpa [hc] using hreturns
      · intro hsingle
        obtain ⟨hconfigured, hsmall⟩ := hsingle hstate
        obtain ⟨hnone, hlt⟩ := hsmall hne
        have hc : c ≠ .records := by
          rintro rfl
          exact hne hnone
        refine ⟨?_, fun n hn => ?_, by simp [hnone]⟩
        · rw [wanted_of_running hstate, hconfigured, hlast]
          rfl
        · rw [if_neg hc, Option.some_inj] at hn
          rw [← hn, List.length_append, List.length_singleton, toNat_succ_eq_iff h.count]
          exact hlt
  · rw [step_notify_of_rest h hstate, hself, wanted_of_rest hstate]
    simp [Single, hstate]

/-- A notification that is recorded leaves a recorder as it was but for what it counts. -/
theorem Sound.notify (h : Sound r) (hsingle : r.Single (.notify c)) :
    Sound (r.step (.notify c)) := by
  by_cases hstate : r.state = .running
  · cases hlast : (r.atStart c).getLast? with
    | none =>
      rw [step_notify_of_nil h hstate (List.getLast?_eq_none_iff.mp hlast)]
      exact h
    | some name =>
      have hne : r.atStart c ≠ [] := by
        rw [ne_eq, ← List.getLast?_eq_none_iff, hlast]
        nofun
      obtain ⟨hnone, hlt⟩ := (hsingle hstate).2 hne
      have hc : c ≠ .records := by
        rintro rfl
        exact hne hnone
      have hmap : Function.update r.mapChannels c (some name) = r.mapChannels := by
        rw [← hlast, ← (h.observed hstate c).1, Function.update_eq_self]
      rw [step_notify_of_getLast h hstate hlast, hmap]
      exact {
        legal := h.legal
        running := h.running
        ready := fun _ => ⟨by simp [hc], (h.ready (.inr hstate)).2⟩
        count := by
          rw [List.length_append, List.length_singleton, toNat_succ_eq_iff h.count]
          exact hlt
        records := by simp [hc]
        ptr := h.ptr
        observed := h.observed
        unobserved := fun hne => absurd hstate hne
        returns := by simp [hnone] }
  · rw [step_notify_of_rest h hstate]
    exact h

end Notify

/-! ### Runs -/

section Runs

variable {r : DevRecorder Chan}

theorem Sound.configure (h : Sound r) (m : OrderedMap (List UInt8) (List UInt8)) :
    Sound { r with mapChannelsAlias := m } :=
  { h with }

theorem Sound.addRecordChannel (h : Sound r) (conf : List UInt8) :
    Sound (r.addRecordChannel conf) := by
  unfold DevRecorder.addRecordChannel
  split
  · exact h.configure _
  · exact h

theorem step_eq (h : Sound r) (a : Action Chan) : r.step a = match a with
    | .record conf => r.addRecordChannel conf
    | .unrecord name => r.removeRecordedChannel name
    | .setup ret => r.service .setup (r, ret)
    | .init children found => r.service .init (r.doInit children found)
    | .start children find => r.service .start (r.doStart children find)
    | .notify c => if c ∈ r.observedChannels then r.handle c else r
    | .stop children => r.service .stop (r.doStop children)
    | .reset children => r.service .reset (r.doReset children) := by
  unfold DevRecorder.step
  rw [h.returns, if_neg Bool.false_ne_true]

theorem Sound.step (h : Sound r) {a : Action Chan} (hsingle : r.Single a) : Sound (r.step a) := by
  cases a with
  | notify c => exact h.notify hsingle
  | record conf =>
    rw [step_eq h]
    exact h.addRecordChannel conf
  | unrecord name =>
    rw [step_eq h]
    exact h.configure _
  | setup ret =>
    rw [step_eq h]
    exact h.setup ret
  | init children found =>
    rw [step_eq h]
    exact h.init children found
  | start children find =>
    rw [step_eq h]
    exact h.start children find
  | stop children =>
    rw [step_eq h]
    exact h.stop children
  | reset children =>
    rw [step_eq h]
    exact h.reset children

/-- An operation that keeps the calls of the handler. -/
theorem calls_service (h : Sound r) {method : Method} {operation : DevRecorder Chan × Bool}
    (hcalls : operation.1.calls = r.calls) : (r.service method operation).calls = r.calls := by
  obtain ⟨-, heq⟩ | ⟨-, -, ctrl, -, -, heq⟩ := service_cases h.legal method operation
  · rw [heq]
  · rw [heq]
    exact hcalls

theorem calls_doStart (children : Bool) (find : List UInt8 → Option (Target Chan)) :
    (r.doStart children find).1.calls = r.calls := by
  rw [doStart, onStart]
  obtain ⟨m, o, ret, hobserve, -⟩ := observe_spec find r.mapChannelsAlias.entries { r with
    channelRecordsPtr := true
    find := find
    started := r.mapChannelsAlias }
  rw [hobserve]
  split
  · split <;> rfl
  · rfl

/-- A step other than a notification keeps the calls of the handler, but for a reset. -/
theorem calls_step (h : Sound r) {a : Action Chan} (ha : ∀ c, a ≠ .notify c) :
    (r.step a).calls = if r.resets a then [] else r.calls := by
  rw [step_eq h]
  cases a with
  | notify c => exact absurd rfl (ha c)
  | record conf =>
    dsimp only [addRecordChannel]
    split <;> rfl
  | unrecord name => rfl
  | setup ret => exact calls_service h rfl
  | init children found =>
    refine calls_service h ?_
    cases children <;> cases found <;> rfl
  | start children find => exact calls_service h (calls_doStart children find)
  | stop children => exact calls_service h rfl
  | reset children =>
    obtain ⟨hrefused, heq⟩ | ⟨haccepted, -, ctrl, -, -, heq⟩ :=
      service_cases h.legal .reset (r.doReset children)
    · rw [resets, hrefused]
      exact congrArg calls heq
    · rw [resets, haccepted]
      exact congrArg calls heq

theorem records_iff (h : Sound r) (a : Action Chan) : Records r a (r.step a) ↔ r.Single a := by
  by_cases ha : ∃ c, a = .notify c
  · obtain ⟨c, rfl⟩ := ha
    exact records_notify_iff h
  · have hne : ∀ c, a ≠ .notify c := fun c hc => ha ⟨c, hc⟩
    have hsingle : r.Single a := by
      cases a with
      | notify c => exact absurd rfl (hne c)
      | _ => trivial
    have hwanted : r.wanted a = [] := by
      cases a with
      | notify c => exact absurd rfl (hne c)
      | _ => rfl
    have hsound := h.step hsingle
    refine iff_of_true ⟨?_, fun n hn => ?_, hsound.returns⟩ hsingle
    · rw [calls_step h hne, hwanted, List.append_nil]
    · rw [← hsound.count, ← hsound.records, hn, Option.getD_some]

/-- A run records every change under every alias exactly when each of its notifications
is of a channel with one alias, which it had at the start. -/
theorem recordsAll_iff (as : List (Action Chan)) :
    Transition.Along (fun r a => some (step r a)) Records create as ↔
      Transition.Along (fun r a => some (step r a)) (fun r a _ => Single r a) create as := by
  refine Transition.along_iff (P := fun _ => True) ?_ ?_ sound_create fun _ _ => trivial
  · rintro r a r' - hsound hstep hrecords
    rw [Option.some_inj] at hstep
    subst hstep
    exact hsound.step ((records_iff hsound a).mp hrecords)
  · rintro r a r' - hsound hstep
    rw [Option.some_inj] at hstep
    subst hstep
    exact records_iff hsound a

/-- Two aliases of one channel, and a start. -/
def twoAliases : List (Action Nat) :=
  [.record [97, 61, 99], .record [98, 61, 99], .init true true,
    .start true fun path => if path = [99] then some (.channel 0) else none]

/-- Of two aliases of a channel only the later one is recorded. -/
theorem not_recordsAll : ¬ ∀ as : List (Action Nat),
    Transition.Along (fun r a => some (step r a)) Records create as := by
  intro h
  have hrecords := (h (twoAliases ++ [.notify (.channel 0)])).of_runs rfl rfl
  have hlength := hrecords.calls.length_eq
  revert hlength
  decide +kernel

end Runs

end Aliases

end DevRecorder

end Sihd.Core
