import Sihd.Lib.Ledger
import Sihd.Ssh.BasicSshServerHandler

/-!
# Terminals

The master of the terminal takes any part of a write, so that the rest is kept for the next ones.
The end of the client's input closes the master.
-/

namespace Sihd.Ssh

open Sys.ProcessOutput (Std)
open BasicSshServerHandler (Pc World)

namespace SshSubsystemPty

/-- Where `forward_output` is. -/
inductive Place where
  | idle
  | draining
  | reading
  deriving DecidableEq

end SshSubsystemPty

/-- `exited` says that the end of the child was collected. `handed`, `inputClosed`, `toChannel`,
`written` and `inOrder` are the record. -/
structure SshSubsystemPty where
  master : Bool
  exited : Bool
  alive : Bool
  pendingIn : List UInt8
  output : Pipe UInt8
  place : SshSubsystemPty.Place
  handed : List UInt8
  inputClosed : Bool
  toChannel : List UInt8
  written : List UInt8
  inOrder : Bool

namespace SshSubsystemPty

/-- A step of the child, whose streams are both the terminal. -/
inductive Command where
  | write (bytes : List UInt8)
  | exit

def readSize : Nat := 4096

/-- The bytes were written first to last: `n` of them are taken. -/
def writeTo (s : SshSubsystemPty) (n : Nat) : Option SshSubsystemPty :=
  if n ≤ s.pendingIn.length then
    some { s with
      pendingIn := s.pendingIn.drop n
      handed := s.handed ++ s.pendingIn.take n }
  else none

/-- A closed master takes nothing. -/
def drainPendingInput (s : SshSubsystemPty) (n : Nat) : Option SshSubsystemPty :=
  if s.pendingIn = [] ∨ s.master = false then some s else s.writeTo n

/-- Behind what is pending, or to the terminal with the rest kept. The write to a closed master
fails, and its bytes are dropped. -/
def onData (s : SshSubsystemPty) (bytes : List UInt8) (n : Nat) : Option SshSubsystemPty :=
  if bytes = [] then some s
  else if s.pendingIn ≠ [] then
    { s with pendingIn := s.pendingIn ++ bytes }.drainPendingInput n
  else if s.master then { s with pendingIn := bytes }.writeTo n
  else some s

def isRunning (s : SshSubsystemPty) : SshSubsystemPty × Bool :=
  if s.exited then (s, false)
  else if s.alive then (s, true)
  else ({ s with exited := true }, false)

/-- The master is closed, with what was not read of it. -/
def closeMaster (s : SshSubsystemPty) (inOrder : Bool) : SshSubsystemPty :=
  { s with
    master := false
    inOrder := s.inOrder && (!s.master || inOrder && s.output.content.isEmpty) }

/-- In order, nothing is pending. -/
def onEof (s : SshSubsystemPty) : SshSubsystemPty :=
  { s.closeMaster s.pendingIn.isEmpty with inputClosed := true }

/-- The end of the child has been collected: `terminate` and `wait` do nothing more. -/
def onClose (s : SshSubsystemPty) : SshSubsystemPty := s.closeMaster true

/-- The next step of `forward_output`. Nothing is read when the buffer could not be reserved. -/
def next (s : SshSubsystemPty) (n : Nat) : Option SshSubsystemPty :=
  match s.place with
  | .idle => none
  | .draining => (s.drainPendingInput n).map fun s => { s with place := .reading }
  | .reading =>
      if s.master = false then some { s with place := .idle }
      else if n ≤ s.output.content.length ∧ n ≤ readSize then
        some { s with
          place := .idle
          output := s.output.read n
          toChannel := s.toChannel ++ s.output.content.take n }
      else none

/-- A write to a terminal without master fails. -/
def command (s : SshSubsystemPty) : Command → Option SshSubsystemPty
  | .write bytes =>
      if s.alive = true ∧ s.master = true then
        some { s with output := s.output.write bytes, written := s.written ++ bytes }
      else none
  | .exit => if s.alive then some { s with alive := false } else none

/-- What the child writes comes as one stream. -/
def traffic (s : SshSubsystemPty) : Traffic where
  handed := s.handed
  pending := s.pendingIn
  inputClosed := s.inputClosed
  toChannel
    | .out => s.toChannel
    | .err => []
  written
    | .out => s.written
    | .err => []
  alive := s.alive
  inOrder := s.inOrder

def handler : SubsystemHandler SshSubsystemPty Nat Command where
  onData := onData
  isRunning := isRunning
  forwardOutput s := { s with place := .draining }
  onClose := onClose
  onEof := onEof
  next := next
  busy s := decide (s.place ≠ .idle)
  command := command
  traffic := traffic

/-- The shell was spawned. -/
def spawned : SshSubsystemPty where
  master := true
  exited := false
  alive := true
  pendingIn := []
  output := .empty
  place := .idle
  handed := []
  inputClosed := false
  toChannel := []
  written := []
  inOrder := true

def Spawned (s : SshSubsystemPty) : Prop := s = spawned

theorem opened_spawned : World.Opened Spawned ⟨spawned, .idle, false, []⟩ := ⟨rfl, rfl, rfl, rfl⟩

/-! ### What holds of a terminal -/

/-- The input is kept in order until the master is closed, and the output until it is read. -/
structure Inv (s : SshSubsystemPty) (received : List UInt8) (eof : Bool) (pc : Pc) : Prop where
  input : s.inputClosed = false → s.handed ++ s.pendingIn = received
  inputClosed : s.inOrder = true → s.inputClosed = true → s.handed = received
  notClosed : eof = false → s.inputClosed = false
  master : pc ≠ .closing → pc ≠ .closed → s.master = !s.inputClosed
  closed : pc = .closing ∨ pc = .closed → s.master = false
  eof : pc = .forwarding true → eof = true
  taken : s.output.taken = s.toChannel
  written : s.output.written = s.written
  lost : s.inOrder = true → s.master = false → s.output.content = []

variable {s s' : SshSubsystemPty} {received : List UInt8} {eof : Bool} {pc : Pc}

theorem inv_of_spawned (h : Spawned s) : Inv s [] false .idle := by
  subst h
  exact ⟨fun _ => rfl, fun _ _ => rfl, fun _ => rfl, fun _ _ => rfl, nofun, nofun, rfl, rfl, nofun⟩

/-- A write hands on the first bytes of what is pending. -/
theorem writeTo_eq {n : Nat} (h : s.writeTo n = some s') :
    s' = { s with
      pendingIn := s.pendingIn.drop n
      handed := s.handed ++ s.pendingIn.take n } := by
  obtain ⟨-, h⟩ := Option.ite_none_right_eq_some.mp h
  exact (Option.some.inj h).symm

theorem Inv.writeTo (h : Inv s received eof pc) (hmaster : s.master = true) {n : Nat}
    (hwrite : s.writeTo n = some s') : Inv s' received eof pc := by
  obtain rfl := writeTo_eq hwrite
  have hopen : s.inputClosed = false := by
    by_cases hclosing : pc = .closing ∨ pc = .closed
    · rw [h.closed hclosing] at hmaster
      cases hmaster
    · rw [not_or] at hclosing
      rw [h.master hclosing.1 hclosing.2, Bool.not_eq_true'] at hmaster
      exact hmaster
  exact { h with
    input := fun _ => by
      rw [List.append_assoc, List.take_append_drop]
      exact h.input hopen
    inputClosed := fun _ hclosed => absurd (hopen.symm.trans hclosed) Bool.false_ne_true }

theorem Inv.drainPendingInput (h : Inv s received eof pc) {n : Nat}
    (hdrain : s.drainPendingInput n = some s') : Inv s' received eof pc := by
  rw [SshSubsystemPty.drainPendingInput] at hdrain
  split at hdrain
  · obtain rfl := Option.some.inj hdrain
    exact h
  · next hnot =>
    rw [not_or, Bool.not_eq_false] at hnot
    exact h.writeTo hnot.2 hdrain

/-- The data of a client that has not sent EOF is pending before it is written. -/
theorem Inv.pend (h : Inv s received false .idle) (bytes : List UInt8) :
    Inv { s with pendingIn := s.pendingIn ++ bytes } (received ++ bytes) false .idle :=
  { h with
    input := fun hopen => by
      rw [← List.append_assoc, h.input hopen]
    inputClosed := fun _ hclosed =>
      absurd ((h.notClosed rfl).symm.trans hclosed) Bool.false_ne_true }

/-- In order, a master that is closed has been read to its end. -/
theorem Inv.lost_closeMaster (h : Inv s received eof pc) {inOrder : Bool}
    (horder : (s.closeMaster inOrder).inOrder = true) : s.output.content = [] := by
  obtain ⟨horder, hread⟩ := Bool.and_eq_true_iff.mp horder
  cases hmaster : s.master with
  | false => exact h.lost horder hmaster
  | true =>
    rw [hmaster, Bool.not_true, Bool.false_or, Bool.and_eq_true, List.isEmpty_iff] at hread
    exact hread.2

theorem Inv.closeMaster (h : Inv s received eof pc) {pc' : Pc} {inOrder : Bool}
    (hpc : pc' = .closing ∨ pc' = .closed) : Inv (s.closeMaster inOrder) received eof pc' where
  input := h.input
  inputClosed := fun horder => h.inputClosed (Bool.and_eq_true_iff.mp horder).1
  notClosed := h.notClosed
  master := fun hclosing hclosed => (hpc.elim hclosing hclosed).elim
  closed := fun _ => rfl
  eof := fun hforwarding => by
    rcases hpc with rfl | rfl <;> cases hforwarding
  taken := h.taken
  written := h.written
  lost := fun horder _ => h.lost_closeMaster horder

theorem Inv.onEof (h : Inv s received eof (.forwarding true)) :
    Inv s.onEof received eof .idle where
  input := nofun
  inputClosed := fun horder _ => by
    obtain ⟨horder, hread⟩ := Bool.and_eq_true_iff.mp horder
    have hmaster := h.master nofun nofun
    cases hclosed : s.inputClosed with
    | true => exact h.inputClosed horder hclosed
    | false =>
      rw [hmaster, hclosed, Bool.not_false, Bool.not_true, Bool.false_or, Bool.and_eq_true,
        List.isEmpty_iff] at hread
      have hinput := h.input hclosed
      rwa [hread.1, List.append_nil] at hinput
  notClosed := fun heof => absurd (heof.symm.trans (h.eof rfl)) Bool.false_ne_true
  master := fun _ _ => rfl
  closed := nofun
  eof := nofun
  taken := h.taken
  written := h.written
  lost := fun horder _ => h.lost_closeMaster horder

/-- `on_poll` goes to another place in which the master is open or not as before. -/
theorem Inv.goto (h : Inv s received eof pc) {pc' : Pc} {eof' : Bool} {place : Place}
    (hpc : (pc' = .closing ∨ pc' = .closed) ↔ (pc = .closing ∨ pc = .closed))
    (heof : eof = true → eof' = true) (hforwarding : pc' = .forwarding true → eof' = true) :
    Inv { s with place := place } received eof' pc' :=
  { h with
    notClosed := fun hnot => h.notClosed (by
      cases eof with
      | false => rfl
      | true => exact absurd (heof rfl) (hnot ▸ Bool.false_ne_true))
    master := fun hclosing hclosed => by
      have hnot := mt hpc.mpr (not_or.mpr ⟨hclosing, hclosed⟩)
      rw [not_or] at hnot
      exact h.master hnot.1 hnot.2
    closed := fun hclosing => h.closed (hpc.mp hclosing)
    eof := hforwarding }

theorem Inv.next (h : Inv s received eof pc) {n : Nat} (hnext : s.next n = some s') :
    Inv s' received eof pc := by
  rw [SshSubsystemPty.next] at hnext
  split at hnext
  · cases hnext
  · obtain ⟨t, hdrain, rfl⟩ := Option.map_eq_some_iff.mp hnext
    exact (h.drainPendingInput hdrain).goto Iff.rfl id h.eof
  · split at hnext
    · obtain rfl := Option.some.inj hnext
      exact h.goto Iff.rfl id h.eof
    · next hmaster =>
      obtain ⟨-, hnext⟩ := Option.ite_none_right_eq_some.mp hnext
      obtain rfl := Option.some.inj hnext
      exact { h with
        taken := by rw [Pipe.read, h.taken]
        written := by rw [Pipe.written_read, h.written]
        lost := fun _ hclosed => absurd hclosed hmaster }

theorem Inv.command (h : Inv s received eof pc) {c : Command} (hcommand : s.command c = some s') :
    Inv s' received eof pc := by
  cases c with
  | write bytes =>
    obtain ⟨⟨-, hmaster⟩, hcommand⟩ := Option.ite_none_right_eq_some.mp hcommand
    obtain rfl := Option.some.inj hcommand
    exact { h with
      taken := h.taken
      written := by rw [Pipe.written_write, h.written]
      lost := fun _ hclosed => absurd (hclosed.symm.trans hmaster) Bool.false_ne_true }
  | exit =>
    obtain ⟨-, hcommand⟩ := Option.ite_none_right_eq_some.mp hcommand
    obtain rfl := Option.some.inj hcommand
    exact { h with }

theorem Inv.onData (h : Inv s received false .idle) {bytes : List UInt8} {n : Nat}
    (hdata : s.onData bytes n = some s') : Inv s' (received ++ bytes) false .idle := by
  rw [SshSubsystemPty.onData] at hdata
  split at hdata
  · next hempty =>
    obtain rfl := Option.some.inj hdata
    rw [hempty, List.append_nil]
    exact h
  · split at hdata
    · exact (h.pend bytes).drainPendingInput hdata
    · next hpending =>
      rw [not_not] at hpending
      have hmaster : s.master = true := by
        rw [h.master nofun nofun, h.notClosed rfl]
        rfl
      rw [if_pos hmaster] at hdata
      have hreceived := h.pend bytes
      rw [hpending, List.nil_append] at hreceived
      exact hreceived.writeTo hmaster hdata

theorem keeps_inv : World.Keeps handler Inv where
  data := fun hs hdata => hs.onData hdata
  clientEof := fun hs => hs.goto Iff.rfl (fun _ => rfl) (fun _ => rfl)
  running := fun {s s' received eof} hs hrunning => by
    have hsame : s' = s := by
      change s.isRunning = _ at hrunning
      rw [isRunning] at hrunning
      split at hrunning
      · cases (Prod.mk.inj hrunning).2
      · split at hrunning
        · exact (Prod.mk.inj hrunning).1.symm
        · cases (Prod.mk.inj hrunning).2
    rw [hsame]
    exact hs.goto (by simp) id fun heof => Pc.forwarding.inj heof
  ended := fun {s s' received eof} hs hended => by
    have hinv : Inv s' received eof .idle := by
      change s.isRunning = _ at hended
      rw [isRunning] at hended
      split at hended
      · exact (Prod.mk.inj hended).1 ▸ hs
      · split at hended
        · cases (Prod.mk.inj hended).2
        · exact (Prod.mk.inj hended).1 ▸ { hs with }
    exact hinv.closeMaster (.inl rfl)
  next := fun hs _ hnext => hs.next hnext
  eof := fun hs _ => hs.onEof
  forwarded := fun hs _ => hs.goto (by simp) id nofun
  closed := fun {s received eof} hs _ => hs.goto (by simp) id nofun
  command := fun hs hcommand => hs.command hcommand

end SshSubsystemPty

end Sihd.Ssh
