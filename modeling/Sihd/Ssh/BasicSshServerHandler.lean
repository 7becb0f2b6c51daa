import Sihd.Lib.Transition
import Sihd.Sys.ProcessOutput

/-!
# The channels of a server

A handler runs what a channel is for. The server is one thread: it hands the data of the client to
the handler, and polls it until it does not run any more. A call of a handler may take several
steps, and what it runs goes on between them.
-/

namespace Sihd.Ssh

open Sys.ProcessOutput (Std)

/-- What passes through a handler: what was handed to the standard input of the command, what is
kept for it, whether this was closed, and what was written to the channel and by the command. -/
structure Traffic where
  handed : List UInt8
  pending : List UInt8
  inputClosed : Bool
  toChannel : Std → List UInt8
  written : Std → List UInt8
  alive : Bool
  /-- Whether every step was in order. -/
  inOrder : Bool

/-- A handler with the answers `α` of the system and the steps `β` of the command. -/
structure SubsystemHandler (σ α β : Type) where
  onData : σ → List UInt8 → α → Option σ
  isRunning : σ → σ × Bool
  /-- The calls of `forward_output` and `on_close` begin. -/
  forwardOutput : σ → σ
  onClose : σ → σ
  onEof : σ → σ
  /-- The next step of the call. -/
  next : σ → α → Option σ
  busy : σ → Bool
  command : σ → β → Option σ
  traffic : σ → Traffic

namespace BasicSshServerHandler

/-- Where `on_poll` is, for one channel. -/
inductive Pc where
  | idle
  /-- In `poll_handler`, with whether the client has sent EOF. -/
  | forwarding (eof : Bool)
  | closing
  /-- EOF was sent, the channel is closed and the handler gone. -/
  | closed
  deriving DecidableEq

/-- `received` is the record: what the client has sent. -/
structure World (σ : Type) where
  handler : σ
  pc : Pc
  eof : Bool
  received : List UInt8

inductive Action (α β : Type) where
  | data (bytes : List UInt8) (answer : α)
  | eof
  | poll
  | next (answer : α)
  | command (b : β)

namespace World

variable {σ α β : Type}

/-- `on_poll` asks whether the handler runs. -/
def onPoll (h : SubsystemHandler σ α β) (w : World σ) : World σ :=
  let (handler, running) := h.isRunning w.handler
  if running then { w with handler := h.forwardOutput handler, pc := .forwarding w.eof }
  else { w with handler := h.onClose handler, pc := .closing }

def next (h : SubsystemHandler σ α β) (w : World σ) (answer : α) : Option (World σ) :=
  if h.busy w.handler then
    (h.next w.handler answer).map fun handler => { w with handler := handler }
  else match w.pc with
    | .forwarding true => some { w with handler := h.onEof w.handler, pc := .idle }
    | .forwarding false => some { w with pc := .idle }
    | .closing => some { w with pc := .closed }
    | .idle | .closed => none

/-- The client sends nothing after EOF. -/
def step (h : SubsystemHandler σ α β) (w : World σ) : Action α β → Option (World σ)
  | .data bytes answer =>
      if w.pc = .idle ∧ w.eof = false then
        (h.onData w.handler bytes answer).map fun handler =>
          { w with handler := handler, received := w.received ++ bytes }
      else none
  | .eof => if w.pc = .idle then some { w with eof := true } else none
  | .poll => if w.pc = .idle then some (w.onPoll h) else none
  | .next answer => w.next h answer
  | .command b => (h.command w.handler b).map fun handler => { w with handler := handler }

/-- A channel whose handler has started. -/
def Opened (started : σ → Prop) (w : World σ) : Prop :=
  started w.handler ∧ w.pc = .idle ∧ w.eof = false ∧ w.received = []

def Reachable (h : SubsystemHandler σ α β) (started : σ → Prop) (w : World σ) : Prop :=
  Transition.Reaches (step h) Transition.unrestricted (Opened started) w

/-- The channel carries the input and the output of the command byte for byte. -/
structure Carries (h : SubsystemHandler σ α β) (w : World σ) : Prop where
  input : (h.traffic w.handler).alive = true → w.eof = false →
    (h.traffic w.handler).handed ++ (h.traffic w.handler).pending = w.received
  inputClosed : (h.traffic w.handler).inputClosed = true →
    (h.traffic w.handler).handed = w.received
  output : w.pc = .closed → (h.traffic w.handler).toChannel = (h.traffic w.handler).written

/-- What is to be shown for a property of the handler, what the client has sent, its EOF and the
place of `on_poll`, that it holds in every run. -/
structure Keeps (h : SubsystemHandler σ α β)
    (I : σ → List UInt8 → Bool → Pc → Prop) : Prop where
  data {s s' : σ} {received bytes : List UInt8} {answer : α} (hs : I s received false .idle)
    (hdata : h.onData s bytes answer = some s') : I s' (received ++ bytes) false .idle
  clientEof {s : σ} {received : List UInt8} {eof : Bool} (hs : I s received eof .idle) :
    I s received true .idle
  running {s s' : σ} {received : List UInt8} {eof : Bool} (hs : I s received eof .idle)
    (hrunning : h.isRunning s = (s', true)) : I (h.forwardOutput s') received eof (.forwarding eof)
  ended {s s' : σ} {received : List UInt8} {eof : Bool} (hs : I s received eof .idle)
    (hended : h.isRunning s = (s', false)) : I (h.onClose s') received eof .closing
  next {s s' : σ} {received : List UInt8} {eof : Bool} {pc : Pc} {answer : α}
    (hs : I s received eof pc) (hbusy : h.busy s = true) (hnext : h.next s answer = some s') :
    I s' received eof pc
  eof {s : σ} {received : List UInt8} {eof : Bool} (hs : I s received eof (.forwarding true))
    (hidle : h.busy s = false) : I (h.onEof s) received eof .idle
  forwarded {s : σ} {received : List UInt8} {eof : Bool}
    (hs : I s received eof (.forwarding false)) (hidle : h.busy s = false) :
    I s received eof .idle
  closed {s : σ} {received : List UInt8} {eof : Bool} (hs : I s received eof .closing)
    (hidle : h.busy s = false) : I s received eof .closed
  command {s s' : σ} {received : List UInt8} {eof : Bool} {pc : Pc} {b : β}
    (hs : I s received eof pc) (hcommand : h.command s b = some s') : I s' received eof pc

theorem Keeps.of_reachable {h : SubsystemHandler σ α β} {I : σ → List UInt8 → Bool → Pc → Prop}
    {started : σ → Prop} {w : World σ} (hkeeps : Keeps h I)
    (hstarted : ∀ s, started s → I s [] false .idle) (hw : Reachable h started w) :
    I w.handler w.received w.eof w.pc := by
  refine Transition.Reaches.invariant (I := fun w : World σ => I w.handler w.received w.eof w.pc)
    (fun w hopened => ?_) (fun w a w' hinv _ hstep => ?_) hw
  · obtain ⟨hs, hpc, heof, hreceived⟩ := hopened
    rw [hpc, heof, hreceived]
    exact hstarted _ hs
  · cases a with
    | data bytes answer =>
      obtain ⟨⟨hpc, heof⟩, hstep⟩ := Option.ite_none_right_eq_some.mp hstep
      obtain ⟨s, hdata, rfl⟩ := Option.map_eq_some_iff.mp hstep
      dsimp only at hinv ⊢
      rw [hpc, heof] at hinv ⊢
      exact hkeeps.data hinv hdata
    | eof =>
      obtain ⟨hpc, hstep⟩ := Option.ite_none_right_eq_some.mp hstep
      obtain rfl := Option.some.inj hstep
      dsimp only at hinv ⊢
      rw [hpc] at hinv ⊢
      exact hkeeps.clientEof hinv
    | poll =>
      obtain ⟨hpc, hstep⟩ := Option.ite_none_right_eq_some.mp hstep
      obtain rfl := Option.some.inj hstep
      rw [hpc] at hinv
      cases hrunning : h.isRunning w.handler with
      | mk s running =>
        rw [onPoll, hrunning]
        cases running with
        | true => exact hkeeps.running hinv hrunning
        | false => exact hkeeps.ended hinv hrunning
    | next answer =>
      change w.next h answer = some w' at hstep
      rw [World.next] at hstep
      split at hstep
      · next hbusy =>
        obtain ⟨s, hnext, rfl⟩ := Option.map_eq_some_iff.mp hstep
        exact hkeeps.next hinv hbusy hnext
      · next hidle =>
        rw [Bool.not_eq_true] at hidle
        split at hstep
        · next hpc =>
          obtain rfl := Option.some.inj hstep
          rw [hpc] at hinv
          exact hkeeps.eof hinv hidle
        · next hpc =>
          obtain rfl := Option.some.inj hstep
          rw [hpc] at hinv
          exact hkeeps.forwarded hinv hidle
        · next hpc =>
          obtain rfl := Option.some.inj hstep
          rw [hpc] at hinv
          exact hkeeps.closed hinv hidle
        · cases hstep
        · cases hstep
    | command b =>
      obtain ⟨s, hcommand, rfl⟩ := Option.map_eq_some_iff.mp hstep
      exact hkeeps.command hinv hcommand

theorem exists_reachable (h : SubsystemHandler σ α β) {started : σ → Prop} {w : World σ}
    (hw : Opened started w) (as : List (Action α β)) {P : World σ → Prop} [DecidablePred P]
    (hrun : (Transition.runs (step h) w as).any (fun v => decide (P v)) = true) :
    ∃ v, Reachable h started v ∧ P v :=
  Transition.Reaches.exists_of_runs hw hrun

end World

end BasicSshServerHandler

end Sihd.Ssh
