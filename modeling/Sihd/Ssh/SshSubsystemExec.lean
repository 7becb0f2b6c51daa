import Sihd.Ssh.BasicSshServerHandler
import Sihd.Sys.ProcessOutputRuns

/-!
# Commands

The process of a command is executed before there is a pipe for its input. The data of the client
make one, of which the command does not have the read end.
-/

namespace Sihd

namespace Sys

/-- The standard input of a process: the pipe whose write end is open, and whether the child was
executed with its read end. -/
structure StdIn where
  pipe : Option (Pipe UInt8)
  given : Bool

namespace StdIn

def create : StdIn := ⟨none, false⟩

def addPipe (s : StdIn) : StdIn := if s.pipe.isSome then s else ⟨some .empty, false⟩

def execute (s : StdIn) : StdIn := { s with given := s.pipe.isSome }

def stdinFrom (s : StdIn) (bytes : List UInt8) : StdIn :=
  { s.addPipe with pipe := s.addPipe.pipe.map fun p => p.write bytes }

def close : StdIn := ⟨none, false⟩

end StdIn

end Sys

namespace Ssh

open ChildProcess Sys Sys.ProcessOutput
open BasicSshServerHandler (World)

/-- `handed`, `inputClosed` and `inOrder` are the record; in order, the client sends no bytes. -/
structure SshSubsystemExec where
  output : ProcessOutput.World
  stdin : StdIn
  handed : List UInt8
  inputClosed : Bool
  inOrder : Bool

namespace SshSubsystemExec

/-- A step of the child. -/
inductive Command where
  | write (std : Std) (bytes : List UInt8)
  | life (event : Event)

def Command.action : Command → ProcessOutput.Action
  | .write std bytes => .write std bytes
  | .life event => .life event

/-- What is written to a pipe that the child has is handed to it. -/
def onData (s : SshSubsystemExec) (bytes : List UInt8) : SshSubsystemExec :=
  if bytes = [] then s
  else { s with
    stdin := s.stdin.stdinFrom bytes
    handed := if (s.stdin.stdinFrom bytes).given then s.handed ++ bytes else s.handed
    inOrder := false }

/-- The answers of the system are the size of a read and what a wait meets. -/
def handler : SubsystemHandler SshSubsystemExec (Nat × Surroundings) Command where
  onData s bytes _ := some (s.onData bytes)
  isRunning s := (s, s.output.process.started)
  forwardOutput s := { s with output := s.output.readPipes }
  onClose s := { s with output := s.output.terminate }
  onEof s := { s with stdin := .close, inputClosed := true }
  next s answer := (s.output.next answer.1 answer.2).map fun output => { s with output := output }
  busy s := decide (s.output.pc ≠ .idle ∧ s.output.pc ≠ .returned)
  command s c := (s.output.step c.action).map fun output => { s with output := output }
  traffic s := {
    handed := s.handed
    pending := []
    inputClosed := s.inputClosed
    toChannel := fun std => (s.output.pieces std).flatten
    written := s.output.written
    alive := s.output.alive
    inOrder := s.inOrder && s.output.inOrder }

/-- `start_process_mode` has succeeded, with both outputs redirected. -/
def start (pid stdoutFd stderrFd : Int) : SshSubsystemExec where
  output := { launch .execute pid stdoutFd stderrFd with pc := .idle }
  stdin := StdIn.create.execute
  handed := []
  inputClosed := false
  inOrder := true

def Started (s : SshSubsystemExec) : Prop :=
  ∃ pid stdoutFd stderrFd : Int, 0 ≤ stdoutFd ∧ 0 ≤ stderrFd ∧ stdoutFd ≠ stderrFd ∧
    s = start pid stdoutFd stderrFd

theorem opened_start (pid stdoutFd stderrFd : Int) (hout : 0 ≤ stdoutFd) (herr : 0 ≤ stderrFd)
    (hne : stdoutFd ≠ stderrFd) :
    World.Opened Started ⟨start pid stdoutFd stderrFd, .idle, false, []⟩ :=
  ⟨⟨pid, stdoutFd, stderrFd, hout, herr, hne, rfl⟩, rfl, rfl, rfl⟩

/-! ### What holds of a command -/

/-- Where the process is when `on_poll` is at a place. -/
def At (s : SshSubsystemExec) : BasicSshServerHandler.Pc → Prop
  | .idle => s.output.pc = .idle
  | .forwarding _ => s.output.pc = .idle ∨ ∃ events ret, s.output.pc = .handle .idle events ret
  | .closing => ProcessOutput.World.Terminates s.output.pc
  | .closed => s.output.pc = .returned

/-- Nothing is handed to the command. -/
structure Inv (s : SshSubsystemExec) (received : List UInt8) (_ : Bool)
    (pc : BasicSshServerHandler.Pc) : Prop where
  executes : s.output.Executes
  place : s.At pc
  given : s.stdin.given = false
  handed : s.handed = []
  received : s.inOrder = true → received = []

variable {s s' : SshSubsystemExec} {received : List UInt8} {eof : Bool}
  {pc : BasicSshServerHandler.Pc}

theorem given_stdinFrom (h : s.stdin.given = false) (bytes : List UInt8) :
    (s.stdin.stdinFrom bytes).given = false := by
  rw [StdIn.stdinFrom, StdIn.addPipe]
  split
  · exact h
  · rfl

theorem At.forwarded {eof : Bool} (h : s.At (.forwarding eof)) (hidle : handler.busy s = false) :
    s.At .idle := by
  rcases h with hpc | ⟨events, ret, hpc⟩
  · exact hpc
  · have hbusy : s.output.pc ≠ .idle ∧ s.output.pc ≠ .returned := by
      rw [hpc]
      exact ⟨nofun, nofun⟩
    exact absurd (hidle.symm.trans (decide_eq_true hbusy)) Bool.false_ne_true

/-- The place of the process does not change by what its child does. -/
theorem pc_of_command {w w' : ProcessOutput.World} {c : Command}
    (h : w.step c.action = some w') : w'.pc = w.pc := by
  cases c with
  | write std bytes => exact (ProcessOutput.World.outside_write h).pc
  | life event => exact (ProcessOutput.World.outside_life h).pc

theorem keeps_inv : World.Keeps handler Inv where
  data := fun {s s' received bytes answer} hs hdata => by
    obtain rfl := Option.some.inj hdata
    rw [onData]
    split
    · next hempty =>
      rw [hempty, List.append_nil]
      exact hs
    · have hgiven := given_stdinFrom hs.given bytes
      refine ⟨hs.executes, hs.place, hgiven, ?_, nofun⟩
      rw [hgiven]
      exact hs.handed
  clientEof := fun hs => ⟨hs.executes, hs.place, hs.given, hs.handed, hs.received⟩
  running := fun {s s' received eof} hs hrunning => by
    obtain rfl := (Prod.mk.inj hrunning).1
    obtain ⟨hexecutes, hplace⟩ := hs.executes.readPipes hs.place
    exact ⟨hexecutes, hplace, hs.given, hs.handed, hs.received⟩
  ended := fun {s s' received eof} hs hended => by
    obtain ⟨rfl, hstarted⟩ := Prod.mk.inj hended
    exact ⟨hs.executes.terminate hs.place hstarted, trivial, hs.given, hs.handed, hs.received⟩
  next := fun {s s' received eof pc answer} hs hbusy hnext => by
    obtain ⟨output, hstep, rfl⟩ := Option.map_eq_some_iff.mp hnext
    refine ⟨hs.executes.next hstep, ?_, hs.given, hs.handed, hs.received⟩
    obtain ⟨hidle, hreturned⟩ := of_decide_eq_true hbusy
    cases pc with
    | idle => exact absurd hs.place hidle
    | forwarding eof =>
      rcases hs.place with hpc | ⟨events, ret, hpc⟩
      · exact absurd hpc hidle
      · exact ProcessOutput.World.next_reading hs.executes.2.1 hpc hstep
    | closing => exact ProcessOutput.World.next_terminates hs.executes.2.1 hs.place hstep
    | closed => exact absurd hs.place hreturned
  eof := fun hs hidle => ⟨hs.executes, hs.place.forwarded hidle, rfl, hs.handed, hs.received⟩
  forwarded := fun hs hidle =>
    ⟨hs.executes, hs.place.forwarded hidle, hs.given, hs.handed, hs.received⟩
  closed := fun {s received eof} hs hidle => by
    refine ⟨hs.executes, ?_, hs.given, hs.handed, hs.received⟩
    have hplace := hs.place
    have hnot : ¬ (s.output.pc ≠ .idle ∧ s.output.pc ≠ .returned) := of_decide_eq_false hidle
    rw [not_and_or, not_not, not_not] at hnot
    rcases hnot with hpc | hpc
    · rw [At, hpc] at hplace
      exact hplace.elim
    · exact hpc
  command := fun {s s' received eof pc c} hs hcommand => by
    obtain ⟨output, hstep, rfl⟩ := Option.map_eq_some_iff.mp hcommand
    refine ⟨hs.executes.step hstep, ?_, hs.given, hs.handed, hs.received⟩
    have hpc : output.pc = s.output.pc := pc_of_command hstep
    have hplace := hs.place
    cases pc <;>
      · dsimp only [At] at hplace ⊢
        rwa [hpc]

theorem inv_of_started (h : Started s) : Inv s [] false .idle := by
  obtain ⟨pid, stdoutFd, stderrFd, hout, herr, hne, rfl⟩ := h
  have hlaunched : ProcessOutput.World.Launched .execute (launch .execute pid stdoutFd stderrFd) :=
    ⟨pid, stdoutFd, stderrFd, .inl hout, fun _ => hne, rfl⟩
  obtain ⟨hkept, hreading⟩ := ProcessOutput.World.reading_launch hlaunched
  exact ⟨⟨hkept.goto _, rfl, hreading.goto _⟩, rfl, rfl, rfl, fun _ => rfl⟩

end SshSubsystemExec

end Ssh

end Sihd
