import Sihd.Ssh.SshSubsystemExec
import Sihd.Ssh.SshSubsystemPty

/-!
# What a channel carries

A command gets nothing of its client, and a terminal all. What either has written last may be
lost.
-/

namespace Sihd.Ssh

open Sys.ProcessOutput.World (calm)
open BasicSshServerHandler (World)
open BasicSshServerHandler.World (Reachable Carries)

/-- A command whose client sends nothing and whose last output fits the last reads. A terminal
that was drained and read when its master is closed. -/
theorem carries_of_inOrder {w : World SshSubsystemExec} {v : World SshSubsystemPty}
    (hw : Reachable SshSubsystemExec.handler SshSubsystemExec.Started w)
    (hv : Reachable SshSubsystemPty.handler SshSubsystemPty.Spawned v) :
    ((SshSubsystemExec.handler.traffic w.handler).inOrder = true →
        Carries SshSubsystemExec.handler w) ∧
      ((SshSubsystemPty.handler.traffic v.handler).inOrder = true →
        Carries SshSubsystemPty.handler v) := by
  constructor
  · intro horder
    obtain ⟨hfed, hread⟩ := Bool.and_eq_true_iff.mp horder
    have hinv := SshSubsystemExec.keeps_inv.of_reachable
      (fun _ => SshSubsystemExec.inv_of_started) hw
    have hnothing : w.handler.handed = w.received := by rw [hinv.handed, hinv.received hfed]
    refine ⟨fun _ _ => ?_, fun _ => hnothing, fun hpc => ?_⟩
    · change w.handler.handed ++ [] = _
      rw [List.append_nil, hnothing]
    · have hplace := hinv.place
      rw [hpc] at hplace
      exact funext (hinv.executes.isComplete hplace hread)
  · intro horder
    have hinv := SshSubsystemPty.keeps_inv.of_reachable
      (fun _ => SshSubsystemPty.inv_of_spawned) hv
    refine ⟨fun _ heof => hinv.input (hinv.notClosed heof), hinv.inputClosed horder, fun hpc => ?_⟩
    have hempty := hinv.lost horder (hinv.closed (.inr hpc))
    have hall : v.handler.toChannel = v.handler.written := by
      rw [← hinv.taken, ← hinv.written, Pipe.taken_eq_written_iff, hempty]
    funext std
    cases std with
    | out => exact hall
    | err => rfl

/-- A command that writes to both streams. A terminal that takes a part of its input, writes and
ends after the client. -/
theorem carries_echo : (∃ w : World SshSubsystemExec, w.pc = .closed ∧
    w.handler.output.written .out = [1] ∧ w.handler.output.written .err = [2, 3] ∧
      Carries SshSubsystemExec.handler w) ∧
    ∃ v : World SshSubsystemPty, v.pc = .closed ∧ v.received = [1, 2, 3] ∧
      v.handler.inputClosed = true ∧ v.handler.written = [4, 5] ∧
        Carries SshSubsystemPty.handler v := by
  obtain ⟨w, hw, horder, hclosed, hwritten⟩ := World.exists_reachable SshSubsystemExec.handler
    (SshSubsystemExec.opened_start 7 3 4 (by decide) (by decide) (by decide))
    ([.command (.write .out [1]), .poll, .next (1, calm), .next (1, calm), .next (1, calm),
      .poll, .command (.write .err [2, 3]), .command (.life (.ended (.exited 0)))] ++
      List.replicate 2 (.next (2, calm)) ++ .poll :: List.replicate 7 (.next (2, calm)))
    (P := fun w => (SshSubsystemExec.handler.traffic w.handler).inOrder = true ∧ w.pc = .closed ∧
      w.handler.output.written .out = [1] ∧ w.handler.output.written .err = [2, 3])
    (by decide +kernel)
  obtain ⟨v, hv, horder', hclosed', hreceived, hinput, hwritten'⟩ :=
    World.exists_reachable SshSubsystemPty.handler SshSubsystemPty.opened_spawned
    [.data [1, 2] 1, .data [3] 0, .command (.write [4, 5]), .poll, .next 2, .next 1, .next 0, .eof,
      .poll, .next 0, .next 1, .next 0, .command .exit, .poll, .next 0]
    (P := fun v => (SshSubsystemPty.handler.traffic v.handler).inOrder = true ∧ v.pc = .closed ∧
      v.received = [1, 2, 3] ∧ v.handler.inputClosed = true ∧ v.handler.written = [4, 5])
    (by decide +kernel)
  have hboth := carries_of_inOrder hw hv
  exact ⟨⟨w, hclosed, hwritten.1, hwritten.2, hboth.1 horder⟩,
    v, hclosed', hreceived, hinput, hwritten', hboth.2 horder'⟩

/-- A command is sent one byte. A shell writes one byte and ends before the next poll. -/
theorem not_carries_byte :
    (¬ ∀ w : World SshSubsystemExec,
      Reachable SshSubsystemExec.handler SshSubsystemExec.Started w →
        Carries SshSubsystemExec.handler w) ∧
      ¬ ∀ v : World SshSubsystemPty,
        Reachable SshSubsystemPty.handler SshSubsystemPty.Spawned v →
          Carries SshSubsystemPty.handler v := by
  constructor
  · intro h
    obtain ⟨w, hw, halive, heof, hhanded, hreceived⟩ :=
      World.exists_reachable SshSubsystemExec.handler
      (SshSubsystemExec.opened_start 7 3 4 (by decide) (by decide) (by decide))
      [.data [1] (0, calm)]
      (P := fun w => (SshSubsystemExec.handler.traffic w.handler).alive = true ∧ w.eof = false ∧
        w.handler.handed = [] ∧ w.received = [1]) (by decide +kernel)
    have hinput := (h w hw).input halive heof
    rw [hreceived] at hinput
    change w.handler.handed ++ [] = [1] at hinput
    rw [hhanded] at hinput
    cases hinput
  · intro h
    obtain ⟨v, hv, hclosed, htoChannel, hwritten⟩ :=
      World.exists_reachable SshSubsystemPty.handler SshSubsystemPty.opened_spawned
      [.command (.write [1]), .command .exit, .poll, .next 0]
      (P := fun v => v.pc = .closed ∧ v.handler.toChannel = [] ∧ v.handler.written = [1])
      (by decide +kernel)
    have houtput : v.handler.toChannel = v.handler.written :=
      congrFun ((h v hv).output hclosed) .out
    rw [htoChannel, hwritten] at houtput
    cases houtput

end Sihd.Ssh
