import Sihd.Lib.Ledger
import Sihd.Sys.Poll
import Sihd.Sys.PollLoop
import Sihd.Sys.Process

/-!
# The output of a process

The read ends of the pipes of a child are polled by `proc::execute`, turn by turn, or by the poll
of the process that `start` runs until the child has ended.

Other callers read the pipes and terminate the process themselves.

A world is that of one child. It writes to its pipes at any time before it ends, and the callbacks
get the pieces that are read.
-/

namespace Sihd.Sys

open ChildProcess
open Sihd.Util

/-- The table of the poll, for the read ends of the pipes that there are. -/
def initPoller (stdoutFd stderrFd : Int) : Poll :=
  let fds := (if 0 ≤ stdoutFd then 1 else 0) + (if 0 ≤ stderrFd then 1 else 0)
  let poll := Poll.create fds
  if 0 < fds then ((poll.setReadFd stdoutFd).1.setReadFd stderrFd).1 else poll

def Process.readBufferSize : Nat := 2048

namespace ProcessOutput

inductive Std where
  | out
  | err
  deriving DecidableEq

structure PollEvent where
  fd : Int
  readable : Bool
  deriving DecidableEq

/-- What follows a poll. -/
inductive After where
  /-- The return of `read_pipes` to another caller. -/
  | idle
  /-- The wait in the loop of `do_execute`. -/
  | wait
  /-- The rest of `terminate`. -/
  | close
  | terminating
  /-- The loop of the poll's own `on_start`. -/
  | polled
  deriving DecidableEq

/-- Where the parent is. -/
inductive Pc where
  /-- In no call. -/
  | idle
  /-- A turn of the loop of `do_execute`. -/
  | loop
  | wait
  | terminate
  | close
  | terminating (t : Process.Termination)
  /-- `on_start` of the process. -/
  | onStart
  /-- The start of the poll, with the loop of its `on_start`. -/
  | starting
  | polled (ret : Nat)
  /-- `handle`, called with the events that are left and the result of the poll. -/
  | handle (after : After) (events : List PollEvent) (ret : Nat)
  /-- The stop of the poll that `handle` calls. -/
  | stop (after : After) (ret : Nat)
  | returned
  deriving DecidableEq

def After.pc (ret : Nat) : After → Pc
  | .idle => .idle
  | .wait => .wait
  | .close => .close
  | .terminating => .terminating (.trying 3)
  | .polled => .polled ret

/-- `pieces`, `written` and `inOrder` are the record: what the callbacks were given, what the child
has written, and whether each read of `terminate` has taken all that the pipe held. -/
structure World where
  process : Process
  children : ChildProcess.Children
  pid : Int
  poll : Poll
  service : LoopService.World Poll.Pc
  fdRead : Std → Int
  pipe : Std → Pipe UInt8
  pc : Pc
  pieces : Std → List (List UInt8)
  written : Std → List UInt8
  inOrder : Bool

inductive Action where
  | write (std : Std) (bytes : List UInt8)
  | life (event : Event)
  /-- The next step of the parent, with the size of the read and what a wait meets. -/
  | next (size : Nat) (o : Surroundings)

/-- The timeout of the poll is set by the constructor of a process. -/
def loopService : LoopService Poll.Pc Int := Poll.loopService 5

namespace World

/-- The child has not ended: it holds the write ends of its pipes. -/
def alive (w : World) : Bool :=
  match w.children w.pid with
  | some ⟨.ended _, _⟩ => false
  | some _ => true
  | none => false

/-! ### Poll -/

/-- The stream that is read from the descriptor. -/
def stdOf (w : World) (fd : Int) : Option Std :=
  if fd = w.fdRead .out then some .out else if fd = w.fdRead .err then some .err else none

/-- A pipe is readable when it holds bytes and hung up when its writer is gone. A descriptor of no
pipe is an error. -/
def event (w : World) (s : PollFd) : Option PollEvent :=
  if s.fd < 0 then none
  else match w.stdOf s.fd with
    | some std =>
        let readable := s.events &&& pollIn ≠ 0 && !(w.pipe std).content.isEmpty
        if readable || !w.alive then some ⟨s.fd, readable⟩ else none
    | none => some ⟨s.fd, false⟩

/-- A poll returns what is there when it returns, or nothing when it has timed out. -/
def pollThen (w : World) (after : After) : World :=
  let events := w.poll.lstFds.filterMap w.event
  { w with pc := .handle after events events.length }

def canReadPipes (w : World) : Bool :=
  !w.service.service.running && 0 < w.poll.lstFds.length

/-- The stop of the poll. It is refused when the poll has not been started. -/
def stopPoll (w : World) (after : After) (ret : Nat) : Option World :=
  (w.service.step loopService .stop).map fun service =>
    { w with service := service, pc := if service.stopCalled then .stop after ret else after.pc ret }

/-! ### Reads -/

def closeRead (w : World) (std : Std) : World :=
  { w with
    poll := (w.poll.clearFd (w.fdRead std)).1
    fdRead := Function.update w.fdRead std (-1) }

/-- A read blocks as long as the pipe is empty and has a writer. It gives no more than its buffer
can hold, and nothing but at the end. -/
def readPipe (w : World) (after : After) (std : Std) (size : Nat) : Option World :=
  if (w.pipe std).content = [] then if w.alive then none else some (w.closeRead std)
  else if 0 < size ∧ size ≤ (w.pipe std).content.length ∧ size ≤ Process.readBufferSize then
    some { w with
      pipe := Function.update w.pipe std ((w.pipe std).read size)
      pieces := Function.update w.pieces std
        (w.pieces std ++ [(w.pipe std).content.take size])
      inOrder := w.inOrder && (after ≠ .close || (w.pipe std).content.length ≤ size) }
  else none

/-- The body of the loop of `handle`. -/
def handleEvent (w : World) (after : After) (e : PollEvent) (size : Nat) : Option World :=
  match w.stdOf e.fd with
  | some std => if e.readable then w.readPipe after std size else some (w.closeRead std)
  | none => some w

/-! ### Steps -/

def waitAny (w : World) (o : Surroundings) : Option World :=
  (w.process.wait w.children (wexited ||| wstopped ||| wcontinued ||| wnohang) o).map
    fun (_, process, children) => { w with process := process, children := children }

/-- The end of `handle`. -/
def handled (w : World) (after : After) (ret : Nat) (o : Surroundings) : Option World :=
  if ret ≠ 0 then some { w with pc := after.pc ret }
  else if w.process.started then (w.waitAny o).map fun w => { w with pc := after.pc ret }
  else w.stopPoll after ret

/-- The next step of the parent. -/
def next (w : World) (size : Nat) (o : Surroundings) : Option World :=
  match w.pc with
  | .idle => none
  | .loop => some (if w.canReadPipes then w.pollThen .wait else { w with pc := .wait })
  | .wait =>
      (w.waitAny o).map fun w =>
        { w with pc := if w.process.watcher.hasTerminated then .terminate else .loop }
  | .terminate => some (if w.canReadPipes then w.pollThen .close else { w with pc := .close })
  | .close =>
      { w with fdRead := fun _ => -1, poll := w.poll.clearFds }.stopPoll .terminating 0
  | .terminating t =>
      (Process.World.terminateStep ⟨w.process, w.children, some t⟩ false o t).map fun (v, _) =>
        { w with
          process := v.process
          children := v.children
          pc := v.terminating.elim .returned .terminating }
  | .onStart =>
      if 0 < w.poll.maxFds then
        (w.service.step loopService .start).map fun service =>
          { w with service := service, pc := if service.called then .starting else .returned }
      else some { w with pc := .returned }
  | .starting =>
      if w.service.service.pc .starter = .onStart ∧ w.service.loop = .polling then
        some (w.pollThen .polled)
      else
        (w.service.step loopService (.nextStart 0)).map fun service =>
          { w with
            service := service
            pc := if service.service.pc .starter = .idle then .returned else .starting }
  | .polled ret =>
      (w.service.step loopService (.nextStart ret)).map fun service =>
        { w with service := service, pc := .starting }
  | .handle after [] ret => w.handled after ret o
  | .handle after (e :: events) ret =>
      (w.handleEvent after e size).map fun w => { w with pc := .handle after events ret }
  | .stop after ret =>
      (w.service.step loopService .nextStop).map fun service =>
        { w with
          service := service
          pc := if service.service.pc .stopper = .idle then after.pc ret else .stop after ret }
  | .returned => none

/-- `read_pipes`, called by another. -/
def readPipes (w : World) : World := if w.canReadPipes then w.pollThen .idle else w

/-- `terminate`, called by another. -/
def terminate (w : World) : World := { w with pc := .terminate }

def step (w : World) : Action → Option World
  | .write std bytes =>
      if w.alive = true ∧ 0 ≤ w.fdRead std then
        some { w with
          pipe := Function.update w.pipe std ((w.pipe std).write bytes)
          written := Function.update w.written std (w.written std ++ bytes) }
      else none
  | .life event =>
      (w.children w.pid).bind fun child => (child.next event).map fun child =>
        { w with children := Function.update w.children w.pid (some child) }
  | .next size o => w.next size o

end World

/-- By what the child is run to its end. -/
inductive Runner where
  | execute
  | start
  deriving DecidableEq

def Runner.pc : Runner → Pc
  | .execute => .loop
  | .start => .onStart

/-- The child has just been executed. A stream that is not redirected has no read end. -/
def launch (runner : Runner) (pid stdoutFd stderrFd : Int) : World where
  process := (Process.create.execute true (some pid)).2
  children := fun q => if q = pid then some .create else none
  pid := pid
  poll := initPoller stdoutFd stderrFd
  service := .init loopService false
  fdRead
    | .out => stdoutFd
    | .err => stderrFd
  pipe := fun _ => .empty
  pc := runner.pc
  pieces := fun _ => []
  written := fun _ => []
  inOrder := true

namespace World

/-- One or both of the streams are redirected, to two pipes. -/
def Launched (runner : Runner) (w : World) : Prop :=
  ∃ pid stdoutFd stderrFd : Int, (0 ≤ stdoutFd ∨ 0 ≤ stderrFd) ∧
    (0 ≤ stdoutFd → stdoutFd ≠ stderrFd) ∧ w = launch runner pid stdoutFd stderrFd

def Reachable (runner : Runner) (w : World) : Prop :=
  Transition.Reaches step Transition.unrestricted (Launched runner) w

/-- The future is set or `start` has returned, or it has told its poll to stop. -/
def Ended (w : World) : Prop := w.pc = .returned ∨ w.service.stopped = true

/-- The callbacks were given all that the child has written. -/
def IsComplete (w : World) : Prop := ∀ std, (w.pieces std).flatten = w.written std

end World

end ProcessOutput

end Sihd.Sys
