import Sihd.Lib.ChildProcess
import Sihd.Lib.Transition

/-!
# Processes

A process object starts one child at a time and waits for it, signals it or
terminates it. Whether the child runs is a flag of the object, its pid and its last
status are in the watcher: only a wait brings them to what the child is.
-/

namespace Sihd.Sys

open ChildProcess

structure ProcessWatcher where
  pid : Int
  status : Int
  code : Int
  deriving DecidableEq

namespace ProcessWatcher

def reset : ProcessWatcher := ⟨-1, -1, -1⟩

/-- `info` is the structure after the call; the call that fails leaves it as it
was. -/
def checkStatus (watcher : ProcessWatcher) (ret : Except Errno SigInfo) (info : SigInfo) :
    ProcessWatcher :=
  let read := match ret with
    | .ok info => info
    | .error _ => info
  let pid := match ret with
    | .ok _ => if read.code = cldExited ∨ read.code = cldKilled then -1 else watcher.pid
    | .error .echild => -1
    | .error _ => watcher.pid
  ⟨pid, read.status, read.code⟩

def hasTerminated (watcher : ProcessWatcher) : Bool :=
  watcher.code = cldExited ∨ watcher.code = cldKilled

end ProcessWatcher

structure Process where
  watcher : ProcessWatcher
  started : Bool
  executing : Bool
  deriving DecidableEq

/-- What a wait meets outside: a signal that interrupts it and the content of its
uninitialised `siginfo_t`. -/
structure Surroundings where
  interrupted : Bool
  info : SigInfo

namespace Process

def sigkill : Int := 9
def sigterm : Int := 15

def create : Process := ⟨.reset, false, false⟩

/-- `pid` is the child that `fork` or `posix_spawnp` gives, if it succeeds. -/
def execute (p : Process) (hasCommand : Bool) (pid : Option Int) : Bool × Process :=
  if p.started || p.executing then (false, p)
  else if !hasCommand then (false, { p with executing := false })
  else match pid with
    | some pid => (true, ⟨{ p.watcher with pid := pid }, true, false⟩)
    | none => (false, ⟨p.watcher, false, false⟩)

/-- `none` as long as it blocks. -/
def wait (p : Process) (children : Children) (options : Options) (o : Surroundings) :
    Option (Bool × Process × Children) :=
  if p.started = false then some (false, p, children)
  else (waitid children p.watcher.pid options o.interrupted).map fun (ret, children') =>
    let watcher := p.watcher.checkStatus ret o.info
    let terminated := watcher.hasTerminated
    (terminated, ⟨watcher, if terminated then false else p.started, p.executing⟩, children')

/-- The pid and the signal given to `signal::kill`, if it is called. -/
def kill (p : Process) (sig : Int) : Option (Int × Int) :=
  let sig := if sig < 0 then sigterm else sig
  if p.started then some (p.watcher.pid, sig) else none

/-- Where a call of `terminate` is: reading the pipes, trying to wait, or waiting for
the child it killed. -/
inductive Termination where
  | reading
  | trying (tries : Nat)
  | killed
  deriving DecidableEq

end Process

/-- What a step returns to its caller, with the result of the wait and the pid and
the signal of the kill made in it. -/
structure Process.Outcome where
  waited : Option Bool
  signalled : Option (Int × Int)
  returned : Option Bool
  deriving DecidableEq

/-- A process object, its children and its call of `terminate` under way. -/
structure Process.World where
  process : Process
  children : Children
  terminating : Option Process.Termination

/-- The calls of the object, the timeouts of its poll and the life of its
children. -/
inductive Process.Action where
  | execute (hasCommand : Bool) (pid : Option Int)
  | wait (options : Options) (o : Surroundings)
  | waitNoHang (o : Surroundings)
  | waitExit (options : Options) (o : Surroundings)
  | waitStop (options : Options) (o : Surroundings)
  | waitContinue (options : Options) (o : Surroundings)
  | waitAny (options : Options) (o : Surroundings)
  | kill (sig : Int) (delivered : Bool)
  | pollTimeout (o : Surroundings)
  | terminate
  | terminateStep (timedOut : Bool) (o : Surroundings)
  | life (pid : Int) (event : Event)

namespace Process

namespace World

def create : World := ⟨.create, fun _ => none, none⟩

def stay (w : World) (returned : Option Bool) : Option (World × Outcome) :=
  some (w, ⟨none, none, returned⟩)

/-- The system gives a pid that no child has. -/
def execute (w : World) (hasCommand : Bool) : Option Int → Option (World × Outcome)
  | none =>
      let (ret, process) := w.process.execute hasCommand none
      some (⟨process, w.children, w.terminating⟩, ⟨none, none, some ret⟩)
  | some pid =>
      if 0 < pid ∧ w.children pid = none then
        let (ret, process) := w.process.execute hasCommand (some pid)
        let children := if ret then Function.update w.children pid (some .create)
          else w.children
        some (⟨process, children, w.terminating⟩, ⟨none, none, some ret⟩)
      else none

def wait (w : World) (options : Options) (o : Surroundings) : Option (World × Outcome) :=
  (w.process.wait w.children options o).map fun (ret, process, children) =>
    (⟨process, children, w.terminating⟩, ⟨some ret, none, some ret⟩)

def waitNoHang (w : World) (o : Surroundings) : Option (World × Outcome) :=
  w.wait (wexited ||| wnohang) o

def waitExit (w : World) (options : Options) (o : Surroundings) : Option (World × Outcome) :=
  w.wait (wexited ||| options) o

def waitStop (w : World) (options : Options) (o : Surroundings) : Option (World × Outcome) :=
  w.wait (wstopped ||| options) o

def waitContinue (w : World) (options : Options) (o : Surroundings) :
    Option (World × Outcome) :=
  w.wait (wcontinued ||| options) o

def waitAny (w : World) (options : Options) (o : Surroundings) : Option (World × Outcome) :=
  w.wait (wexited ||| wstopped ||| wcontinued ||| options) o

def kill (w : World) (sig : Int) (delivered : Bool) : Option (World × Outcome) :=
  let signalled := w.process.kill sig
  some (w, ⟨none, signalled, some (signalled.isSome && delivered)⟩)

/-- `handle` when the poll times out. -/
def pollTimeout (w : World) (o : Surroundings) : Option (World × Outcome) :=
  if w.process.started then (w.waitAny wnohang o).map fun (w, out) =>
    (w, { out with returned := none })
  else w.stay none

/-- The call returns when the process does not run. -/
def endTerminate (w : World) : World × Option Bool :=
  (⟨w.process, w.children, none⟩, some (w.process.started == false))

def terminateStep (w : World) (timedOut : Bool) (o : Surroundings) :
    Termination → Option (World × Outcome)
  | .reading =>
      (if timedOut then w.pollTimeout o else w.stay none).map fun (w, out) =>
        (⟨w.process, w.children, some (.trying 3)⟩, out)
  | .trying tries =>
      if w.process.started = false then
        let (w, ret) := w.endTerminate
        w.stay ret
      else if 0 < tries then
        (w.waitNoHang o).map fun (w, out) =>
          if w.process.started = false then
            let (w, ret) := w.endTerminate
            (w, { out with returned := ret })
          else (⟨w.process, w.children, some (.trying (tries - 1))⟩,
            { out with returned := none })
      else some (⟨w.process, w.children, some .killed⟩,
        ⟨none, w.process.kill sigkill, none⟩)
  | .killed =>
      (w.waitExit wuntraced o).map fun (w, out) =>
        let (w, ret) := w.endTerminate
        (w, { out with returned := ret })

/-- A call begins when none is under way. -/
def call (w : World) (r : Option (World × Outcome)) : Option (World × Outcome) :=
  if w.terminating = none then r else none

def perform (w : World) : Action → Option (World × Outcome)
  | .execute hasCommand pid => w.call (w.execute hasCommand pid)
  | .wait options o => w.call (w.wait options o)
  | .waitNoHang o => w.call (w.waitNoHang o)
  | .waitExit options o => w.call (w.waitExit options o)
  | .waitStop options o => w.call (w.waitStop options o)
  | .waitContinue options o => w.call (w.waitContinue options o)
  | .waitAny options o => w.call (w.waitAny options o)
  | .kill sig delivered => w.call (w.kill sig delivered)
  | .pollTimeout o => w.call (w.pollTimeout o)
  | .terminate => w.call (some (⟨w.process, w.children, some .reading⟩, ⟨none, none, none⟩))
  | .terminateStep timedOut o => w.terminating.bind (w.terminateStep timedOut o)
  | .life pid event =>
      (w.children pid).bind fun child => (child.next event).map fun child =>
        (⟨w.process, Function.update w.children pid (some child), w.terminating⟩,
          ⟨none, none, none⟩)

def step (w : World) (a : Action) : Option World :=
  (w.perform a).map Prod.fst

/-- The options of the wait that a step makes if the process runs. -/
def waitOptions (w : World) : Action → Option Options
  | .wait options _ => some options
  | .waitNoHang _ => some (wexited ||| wnohang)
  | .waitExit options _ => some (wexited ||| options)
  | .waitStop options _ => some (wstopped ||| options)
  | .waitContinue options _ => some (wcontinued ||| options)
  | .waitAny options _ => some (wexited ||| wstopped ||| wcontinued ||| options)
  | .pollTimeout _ => some (wexited ||| wstopped ||| wcontinued ||| wnohang)
  | .terminateStep timedOut _ =>
      match w.terminating with
      | some .reading =>
          if timedOut then some (wexited ||| wstopped ||| wcontinued ||| wnohang) else none
      | some (.trying tries) => if 0 < tries then some (wexited ||| wnohang) else none
      | some .killed => some (wexited ||| wuntraced)
      | none => none
  | .execute _ _ => none
  | .kill _ _ => none
  | .terminate => none
  | .life _ _ => none

/-- A step signals nothing but a child of the process that no wait has reaped, and
when its wait reaps a child, the process no longer runs and the wait says so. -/
structure Answers (w w' : World) (out : Outcome) : Prop where
  signalled : ∀ pid sig, out.signalled = some (pid, sig) → 0 < pid ∧ w.children pid ≠ none
  reaped : ∀ pid, w.children pid ≠ none → w'.children pid = none →
    w'.process.started = false ∧ out.waited = some true

def SignalsItsChild (w : World) (a : Action) (w' : World) : Prop :=
  ∀ out, w.perform a = some (w', out) → Answers w w' out

/-- The step waits for the end of the child, which dumped core. -/
def CollectsDump (w : World) (a : Action) : Prop :=
  w.process.started = true ∧ ∃ options sig, w.waitOptions a = some options ∧
    Reaps w.children w.process.watcher.pid options (.dumped sig)

end World

section Wait

variable {p p' : Process} {children children' : Children} {options : Options}
  {o : Surroundings} {ret : Bool}

theorem wait_of_started (hstarted : p.started = true)
    (h : p.wait children options o = some (ret, p', children')) :
    ∃ answer, waitid children p.watcher.pid options o.interrupted = some (answer, children') ∧
      p'.watcher = p.watcher.checkStatus answer o.info ∧
      ret = p'.watcher.hasTerminated ∧ p'.started = !ret := by
  rw [wait, if_neg (by simp [hstarted]), Option.map_eq_some_iff] at h
  obtain ⟨⟨answer, children''⟩, hwaitid, h⟩ := h
  cases h
  refine ⟨answer, hwaitid, rfl, rfl, ?_⟩
  rw [hstarted]
  cases (p.watcher.checkStatus answer o.info).hasTerminated <;> rfl

/-- The end of a child is not a termination exactly when the child dumped core. -/
theorem hasTerminated_checkStatus (watcher : ProcessWatcher) (e : End) (info : SigInfo) :
    (watcher.checkStatus (.ok e.info) info).hasTerminated = false ↔
      ∃ sig, e = .dumped sig := by
  cases e <;>
    simp [ProcessWatcher.checkStatus, ProcessWatcher.hasTerminated, End.info, cldExited,
      cldKilled, cldDumped]

/-- The pid stays as long as the child neither ended nor is missing. -/
theorem pid_checkStatus {watcher : ProcessWatcher} {answer : Except Errno SigInfo}
    {info : SigInfo} (hchild : answer ≠ .error .echild)
    (h : (watcher.checkStatus answer info).hasTerminated = false) :
    (watcher.checkStatus answer info).pid = watcher.pid := by
  match answer with
  | .ok read =>
    have hcode : ¬ (read.code = cldExited ∨ read.code = cldKilled) := of_decide_eq_false h
    exact if_neg hcode
  | .error .echild => exact absurd rfl hchild
  | .error .einval => rfl
  | .error .eintr => rfl

variable (hown : p.started = true → children p.watcher.pid ≠ none)
  (h : p.wait children options o = some (ret, p', children'))

include hown h

/-- A wait that reaps the child says so unless the child dumped core. -/
theorem wait_reaps_iff :
    (∀ pid, children pid ≠ none → children' pid = none → p'.started = false ∧ ret = true) ↔
      ¬ (p.started = true ∧ ∃ sig, Reaps children p.watcher.pid options (.dumped sig)) := by
  cases hstarted : p.started with
  | false =>
    rw [wait, if_pos hstarted] at h
    cases h
    exact iff_of_true (fun pid hsome hnone => absurd hnone hsome) (by simp)
  | true =>
    obtain ⟨answer, hwaitid, hwatcher, hret, hrun⟩ := wait_of_started hstarted h
    rw [and_iff_right rfl]
    constructor
    · rintro hreap ⟨sig, hdumped⟩
      rw [hdumped.waitid_eq, Option.some.injEq, Prod.mk.injEq] at hwaitid
      obtain ⟨rfl, rfl⟩ := hwaitid
      have hterminated : p'.watcher.hasTerminated = true :=
        hret ▸ (hreap _ (hown hstarted) (Function.update_self ..)).2
      rw [hwatcher, (hasTerminated_checkStatus _ _ _).mpr ⟨sig, rfl⟩] at hterminated
      cases hterminated
    · intro hdumped pid hsome hnone
      have hret : ret = true := by
        cases waited_of_waitid hwaitid with
        | failed _ _ => exact absurd hnone hsome
        | nothing => exact absurd hnone hsome
        | left _ _ => exact absurd hnone hsome
        | reported child child' info _ _ =>
          by_cases hpid : pid = p.watcher.pid
          · rw [hpid, Function.update_self] at hnone
            cases hnone
          · rw [Function.update_of_ne hpid] at hnone
            exact absurd hnone hsome
        | reaped e hreaps =>
          rw [hret, hwatcher]
          by_contra hfalse
          obtain ⟨sig, rfl⟩ :=
            (hasTerminated_checkStatus _ _ _).mp (eq_false_of_ne_true hfalse)
          exact hdumped ⟨sig, hreaps⟩
      rw [hrun, hret]
      exact ⟨rfl, rfl⟩

/-- After a wait that says what it reaps, the process that runs has its child. -/
theorem wait_owns
    (hreap : ∀ pid, children pid ≠ none → children' pid = none →
      p'.started = false ∧ ret = true) (hstarted' : p'.started = true) :
    children' p'.watcher.pid ≠ none := by
  cases hstarted : p.started with
  | false =>
    rw [wait, if_pos hstarted] at h
    cases h
    exact hown hstarted'
  | true =>
    obtain ⟨answer, hwaitid, hwatcher, hret, hrun⟩ := wait_of_started hstarted h
    have hchild := hown hstarted
    have hwaited := waited_of_waitid hwaitid
    have hpid : p'.watcher.pid = p.watcher.pid := by
      rw [hwatcher]
      refine pid_checkStatus ?_ ?_
      · rintro rfl
        cases hwaited with
        | failed _ hnone => exact hchild (hnone rfl)
      · rw [← hwatcher, ← hret]
        simpa [hstarted'] using hrun
    intro hnone
    rw [hpid] at hnone
    rw [(hreap _ hchild hnone).1] at hstarted'
    cases hstarted'

end Wait

namespace World

/-- The children are those of a system, and the process that runs has its own. -/
structure Owns (w : World) : Prop where
  pos : ∀ pid, w.children pid ≠ none → 0 < pid
  started : w.process.started = true → w.children w.process.watcher.pid ≠ none

/-- What a step can do: wait, keep the children (the kill is that of a running
process), start a child, or let one live. -/
inductive Move (w : World) (a : Action) : World → Outcome → Prop
  | waited (options : Options) (o : Surroundings) (ret : Bool) (process : Process)
      (children : Children) (terminating : Option Termination) (returned : Option Bool)
      (hoptions : w.waitOptions a = some options) (hstarted : w.process.started = true)
      (h : w.process.wait w.children options o = some (ret, process, children)) :
      Move w a ⟨process, children, terminating⟩ ⟨some ret, none, returned⟩
  | kept (process : Process) (terminating : Option Termination) (waited : Option Bool)
      (signalled : Option (Int × Int)) (returned : Option Bool)
      (hwait : w.process.started = true → w.waitOptions a = none)
      (hprocess : process.started = true → process = w.process)
      (hsignalled : ∀ pid sig, signalled = some (pid, sig) →
        w.process.started = true ∧ pid = w.process.watcher.pid) :
      Move w a ⟨process, w.children, terminating⟩ ⟨waited, signalled, returned⟩
  | forked (process : Process) (pid : Int) (terminating : Option Termination)
      (returned : Option Bool) (hwait : w.waitOptions a = none) (hpos : 0 < pid)
      (hpid : process.watcher.pid = pid) :
      Move w a ⟨process, Function.update w.children pid (some .create), terminating⟩
        ⟨none, none, returned⟩
  | lived (pid : Int) (child : Child) (hwait : w.waitOptions a = none)
      (hchild : w.children pid ≠ none) :
      Move w a ⟨w.process, Function.update w.children pid (some child), w.terminating⟩
        ⟨none, none, none⟩

variable {w w' : World} {a : Action} {out : Outcome}

theorem call_eq_some {r : Option (World × Outcome)} (h : w.call r = some (w', out)) :
    r = some (w', out) := by
  rw [call] at h
  exact (Option.ite_none_right_eq_some.mp h).2

theorem kill_signals {p : Process} {sig pid sig' : Int} (h : p.kill sig = some (pid, sig')) :
    p.started = true ∧ pid = p.watcher.pid := by
  obtain ⟨hstarted, h⟩ := Option.ite_none_right_eq_some.mp h
  cases h
  exact ⟨hstarted, rfl⟩

theorem move_of_wait {options : Options} {o : Surroundings}
    (hoptions : w.waitOptions a = some options) (h : w.wait options o = some (w', out))
    (terminating : Option Termination) (returned : Option Bool) :
    Move w a ⟨w'.process, w'.children, terminating⟩ { out with returned := returned } := by
  rw [wait, Option.map_eq_some_iff] at h
  obtain ⟨⟨ret, process, children⟩, hwait, h⟩ := h
  cases h
  cases hstarted : w.process.started with
  | true => exact .waited options o ret process children terminating returned hoptions hstarted hwait
  | false =>
    rw [Process.wait, if_pos hstarted] at hwait
    cases hwait
    exact .kept _ _ _ _ _ (by simp [hstarted]) (fun _ => rfl) (by simp)

theorem execute_cases (p : Process) (hasCommand : Bool) (pid : Option Int) :
    (∃ q, pid = some q ∧
      p.execute hasCommand pid = (true, ⟨{ p.watcher with pid := q }, true, false⟩)) ∨
    ∃ p', p.execute hasCommand pid = (false, p') ∧ (p'.started = true → p' = p) := by
  cases hbusy : p.started || p.executing with
  | true => exact .inr ⟨p, by simp [Process.execute, hbusy], fun _ => rfl⟩
  | false =>
    have hstopped : p.started = false := (Bool.or_eq_false_iff.mp hbusy).1
    cases hasCommand with
    | false =>
      exact .inr ⟨{ p with executing := false }, by simp [Process.execute, hbusy], by simp [hstopped]⟩
    | true =>
      cases pid with
      | none =>
        exact .inr ⟨⟨p.watcher, false, false⟩, by simp [Process.execute, hbusy], by simp⟩
      | some q => exact .inl ⟨q, rfl, by simp [Process.execute, hbusy]⟩

theorem move_of_execute {hasCommand : Bool} {pid : Option Int}
    (hwait : w.waitOptions a = none) (h : w.execute hasCommand pid = some (w', out)) :
    Move w a w' out := by
  have hexecute := execute_cases w.process hasCommand pid
  cases pid with
  | none =>
    obtain ⟨q, hq, -⟩ | ⟨p, hp, hkept⟩ := hexecute
    · cases hq
    · rw [execute, hp] at h
      cases h
      exact .kept _ _ _ _ _ (fun _ => hwait) hkept (by simp)
  | some pid =>
    rw [execute, Option.ite_none_right_eq_some] at h
    obtain ⟨⟨hpos, -⟩, h⟩ := h
    obtain ⟨q, hq, hforked⟩ | ⟨p, hp, hkept⟩ := hexecute
    · cases hq
      rw [hforked] at h
      cases h
      exact .forked _ pid _ _ hwait hpos rfl
    · rw [hp] at h
      cases h
      exact .kept _ _ _ _ _ (fun _ => hwait) hkept (by simp)

theorem move_of_pollTimeout {o : Surroundings}
    (hoptions : w.waitOptions a = some (wexited ||| wstopped ||| wcontinued ||| wnohang))
    (h : w.pollTimeout o = some (w', out)) (terminating : Option Termination) :
    Move w a ⟨w'.process, w'.children, terminating⟩ out := by
  rw [pollTimeout] at h
  split at h
  · obtain ⟨⟨w₁, out₁⟩, hwait, h⟩ := Option.map_eq_some_iff.mp h
    cases h
    exact move_of_wait hoptions hwait terminating none
  · rename_i hstopped
    cases h
    exact .kept _ _ _ _ _ (fun hstarted => absurd hstarted hstopped) (fun _ => rfl) (by simp)

theorem move_of_terminateStep {timedOut : Bool} {o : Surroundings} {t : Termination}
    (ht : w.terminating = some t) (h : w.terminateStep timedOut o t = some (w', out)) :
    Move w (.terminateStep timedOut o) w' out := by
  cases t with
  | reading =>
    obtain ⟨⟨w₁, out₁⟩, hread, h⟩ := Option.map_eq_some_iff.mp h
    cases h
    cases timedOut with
    | true => exact move_of_pollTimeout (by simp [waitOptions, ht]) hread _
    | false =>
      cases hread
      exact .kept _ _ _ _ _ (by simp [waitOptions, ht]) (fun _ => rfl) (by simp)
  | trying tries =>
    rw [terminateStep] at h
    split at h
    · rename_i hstopped
      cases h
      exact .kept _ _ _ _ _ (by simp [hstopped]) (fun _ => rfl) (by simp)
    · split at h
      · rename_i htries
        obtain ⟨⟨w₁, out₁⟩, hwait, h⟩ := Option.map_eq_some_iff.mp h
        have hoptions : w.waitOptions (.terminateStep timedOut o) =
            some (wexited ||| wnohang) := by
          simp [waitOptions, ht, htries]
        dsimp only at h
        split at h
        · cases h
          exact move_of_wait hoptions hwait _ _
        · cases h
          exact move_of_wait hoptions hwait _ _
      · rename_i htries
        cases h
        exact .kept _ _ _ _ _ (by simp [waitOptions, ht, htries]) (fun _ => rfl)
          (fun _ _ => kill_signals)
  | killed =>
    obtain ⟨⟨w₁, out₁⟩, hwait, h⟩ := Option.map_eq_some_iff.mp h
    cases h
    exact move_of_wait (by simp [waitOptions, ht]) hwait _ _

theorem move_of_perform (h : w.perform a = some (w', out)) : Move w a w' out := by
  have hwaits : ∀ {options o}, w.waitOptions a = some options →
      w.wait options o = some (w', out) → Move w a w' out := fun {options o} hoptions hwait => by
    have hmove := move_of_wait hoptions hwait w'.terminating out.returned
    exact hmove
  cases a with
  | execute hasCommand pid => exact move_of_execute rfl (call_eq_some h)
  | wait options o => exact hwaits rfl (call_eq_some h)
  | waitNoHang o => exact hwaits rfl (call_eq_some h)
  | waitExit options o => exact hwaits rfl (call_eq_some h)
  | waitStop options o => exact hwaits rfl (call_eq_some h)
  | waitContinue options o => exact hwaits rfl (call_eq_some h)
  | waitAny options o => exact hwaits rfl (call_eq_some h)
  | kill sig delivered =>
    cases call_eq_some h
    exact .kept _ _ _ _ _ (fun _ => rfl) (fun _ => rfl) (fun _ _ => kill_signals)
  | pollTimeout o => exact move_of_pollTimeout rfl (call_eq_some h) w'.terminating
  | terminate =>
    cases call_eq_some h
    exact .kept _ _ _ _ _ (fun _ => rfl) (fun _ => rfl) (by simp)
  | terminateStep timedOut o =>
    obtain ⟨t, ht, h⟩ := Option.bind_eq_some_iff.mp h
    exact move_of_terminateStep ht h
  | life pid event =>
    obtain ⟨child, hchild, h⟩ := Option.bind_eq_some_iff.mp h
    obtain ⟨child', -, h⟩ := Option.map_eq_some_iff.mp h
    cases h
    exact .lived pid child' rfl (by simp [hchild])

/-- A child that a step gives or changes is one the step has not reaped. -/
theorem update_ne_none {children : Children} {pid q : Int} {child : Child}
    (h : children q ≠ none) : Function.update children pid (some child) q ≠ none := by
  by_cases hq : q = pid
  · rw [hq, Function.update_self]
    exact Option.some_ne_none _
  · rwa [Function.update_of_ne hq]

theorem collectsDump_iff {options : Options} (hoptions : w.waitOptions a = some options) :
    w.CollectsDump a ↔ w.process.started = true ∧
      ∃ sig, Reaps w.children w.process.watcher.pid options (.dumped sig) := by
  simp [CollectsDump, hoptions]

theorem not_collectsDump (h : w.process.started = true → w.waitOptions a = none) :
    ¬ w.CollectsDump a := by
  rintro ⟨hstarted, options, sig, hoptions, -⟩
  rw [h hstarted] at hoptions
  cases hoptions

/-- While the running process has its child, a step answers for it unless it
collects a core dump. -/
theorem Owns.answers_iff (h : w.Owns) (hmove : Move w a w' out) :
    Answers w w' out ↔ ¬ w.CollectsDump a := by
  cases hmove with
  | waited options o ret process children terminating returned hoptions hstarted hwait =>
    rw [collectsDump_iff hoptions, ← wait_reaps_iff h.started hwait]
    exact ⟨fun hanswers pid hsome hnone => by simpa using hanswers.reaped pid hsome hnone,
      fun hreap => ⟨by simp, fun pid hsome hnone => by simpa using hreap pid hsome hnone⟩⟩
  | kept process terminating waited signalled returned hwait hprocess hsignalled =>
    refine iff_of_true ⟨fun pid sig hsig => ?_, fun pid hsome hnone => absurd hnone hsome⟩
      (not_collectsDump hwait)
    obtain ⟨hstarted, rfl⟩ := hsignalled pid sig hsig
    exact ⟨h.pos _ (h.started hstarted), h.started hstarted⟩
  | forked process pid terminating returned hwait hpos hpid =>
    exact iff_of_true ⟨by simp, fun q hsome hnone => absurd hnone (update_ne_none hsome)⟩
      (not_collectsDump fun _ => hwait)
  | lived pid child hwait hchild =>
    exact iff_of_true ⟨by simp, fun q hsome hnone => absurd hnone (update_ne_none hsome)⟩
      (not_collectsDump fun _ => hwait)

/-- A step that answers for the child keeps the process its own. -/
theorem Owns.next (h : w.Owns) (hmove : Move w a w' out) (hanswers : Answers w w' out) :
    w'.Owns := by
  cases hmove with
  | waited options o ret process children terminating returned hoptions hstarted hwait =>
    refine ⟨fun pid hsome => h.pos pid ?_, wait_owns h.started hwait fun pid hsome hnone => ?_⟩
    · obtain ⟨answer, hwaitid, -⟩ := wait_of_started hstarted hwait
      exact (waited_of_waitid hwaitid).child hsome
    · simpa using hanswers.reaped pid hsome hnone
  | kept process terminating waited signalled returned hwait hprocess hsignalled =>
    refine ⟨h.pos, fun hstarted => ?_⟩
    obtain rfl := hprocess hstarted
    exact h.started hstarted
  | forked process pid terminating returned hwait hpos hpid =>
    refine ⟨fun q hsome => ?_, fun _ => ?_⟩
    · by_cases hq : q = pid
      · exact hq ▸ hpos
      · refine h.pos q ?_
        simpa [Function.update_of_ne hq] using hsome
    · dsimp only
      rw [hpid, Function.update_self]
      exact Option.some_ne_none _
  | lived pid child hwait hchild =>
    refine ⟨fun q hsome => h.pos q ?_, fun hstarted => update_ne_none (h.started hstarted)⟩
    by_cases hq : q = pid
    · exact hq ▸ hchild
    · simpa [Function.update_of_ne hq] using hsome

theorem owns_create : create.Owns :=
  ⟨fun _ hsome => absurd rfl hsome, fun hstarted => absurd hstarted Bool.false_ne_true⟩

theorem signalsItsChild_iff_answers (h : w.perform a = some (w', out)) :
    w.SignalsItsChild a w' ↔ Answers w w' out := by
  refine ⟨fun hsignals => hsignals out h, fun hanswers out' h' => ?_⟩
  rw [h, Option.some.injEq, Prod.mk.injEq] at h'
  exact h'.2 ▸ hanswers

/-- A run signals only the child of its process, and knows of its end when it reaps
it, exactly when no wait of the run collects a core dump. -/
theorem signalsItsChild_iff (as : List Action) :
    Transition.Along step SignalsItsChild create as ↔
      Transition.Along step (fun w a _ => ¬ w.CollectsDump a) create as := by
  refine Transition.along_iff (I := Owns) (P := fun _ => True)
    (fun w a w' _ hown hstep hsignals => ?_) (fun w a w' _ hown hstep => ?_) owns_create
    fun _ _ => trivial
  · obtain ⟨⟨w₁, out⟩, hperform, rfl⟩ := Option.map_eq_some_iff.mp hstep
    exact hown.next (move_of_perform hperform) (hsignals out hperform)
  · obtain ⟨⟨w₁, out⟩, hperform, rfl⟩ := Option.map_eq_some_iff.mp hstep
    rw [signalsItsChild_iff_answers hperform]
    exact hown.answers_iff (move_of_perform hperform)

/-- The call of `terminate` for a child that dumped core: its waits reap the child,
forget its pid and go on, and the kill goes to every process. -/
theorem not_signalsItsChild :
    (¬ ∀ as, Transition.Along step SignalsItsChild create as) ∧
      ((Transition.runs step create
        [.execute true (some 7), .life 7 (.ended (.dumped 6)), .terminate,
          .terminateStep false ⟨false, ⟨0, 0⟩⟩, .terminateStep false ⟨false, ⟨0, 0⟩⟩,
          .terminateStep false ⟨false, ⟨0, 0⟩⟩, .terminateStep false ⟨false, ⟨0, 0⟩⟩]).bind
        fun w => (w.perform (.terminateStep false ⟨false, ⟨0, 0⟩⟩)).bind fun r => r.2.signalled) =
        some (-1, sigkill) := by
  refine ⟨fun h => ?_, by decide⟩
  have hrun := h [.execute true (some 7), .life 7 (.ended (.dumped 6)),
    .waitExit 0 ⟨false, ⟨0, 0⟩⟩]
  obtain ⟨-, hrun⟩ := hrun _ rfl
  obtain ⟨-, hrun⟩ := hrun _ rfl
  obtain ⟨hsignals, -⟩ := hrun _ rfl
  have hreaped := (hsignals _ rfl).reaped 7 (by decide) (by decide)
  revert hreaped
  decide

end World

end Process

end Sihd.Sys
