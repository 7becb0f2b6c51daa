import Mathlib.Logic.Function.Basic
import Mathlib.Data.List.Induction
import Mathlib.Tactic.Common

/-!
# The signal handler

A handler installs the callback of the library for a signal, and its destructor puts back the
handler that was there. A copy of a handler restores it as well: when several are destroyed, the
last one of a signal counts.
-/

namespace Sihd.Sys

/-- What a process does with a signal. The handler of `sigaction` is one with `SA_SIGINFO`. -/
inductive Disposition where
  | default
  | ignore
  | callback
  | handler (h : Nat)
  | sigaction (h : Nat)
  deriving DecidableEq

/-- `sighandler_t`, without `SIG_ERR`. -/
inductive HandlerPointer where
  | sigDfl
  | sigIgn
  | callback
  | function (h : Nat)
  deriving DecidableEq

/-- The field `sa_handler`, one with `sa_sigaction`. -/
def Disposition.saHandler : Disposition → HandlerPointer
  | .default => .sigDfl
  | .ignore => .sigIgn
  | .callback => .callback
  | .handler h | .sigaction h => .function h

/-- What `std::signal` makes of a pointer. -/
def HandlerPointer.disposition : HandlerPointer → Disposition
  | .sigDfl => .default
  | .sigIgn => .ignore
  | .callback => .callback
  | .function h => .handler h

/-- The signals that the system knows, and those whose disposition it lets one change. -/
structure Signals where
  known : Int → Bool
  catchable : Int → Bool
  known_of_catchable : ∀ sig, catchable sig = true → known sig = true
  pos : ∀ sig, known sig = true → 0 < sig

/-- `SIGKILL` and `SIGSTOP` are not caught, 32 and 33 are those of the thread library. -/
def Signals.linux : Signals where
  known sig := 0 < sig && sig ≤ 64 && sig ≠ 32 && sig ≠ 33
  catchable sig := 0 < sig && sig ≤ 64 && sig ≠ 32 && sig ≠ 33 && sig ≠ 9 && sig ≠ 19
  known_of_catchable sig h := by
    simp only [Bool.and_eq_true] at h ⊢
    exact h.1.1
  pos sig h := by
    simp only [Bool.and_eq_true] at h
    exact of_decide_eq_true h.1.1.1

/-- No previous handler is `SIG_ERR`. -/
structure SigHandler where
  sig : Int
  previousHandler : Option HandlerPointer
  deriving DecidableEq

namespace SigHandler

def create : SigHandler := ⟨-1, none⟩

variable (system : Signals)

/-- `std::signal`. -/
def signal (d : Int → Disposition) (sig : Int) (p : HandlerPointer) : Int → Disposition :=
  if system.catchable sig then Function.update d sig p.disposition else d

/-- The dispositions after `unhandle`, which the destructor calls. -/
def unhandle (d : Int → Disposition) (c : SigHandler) : Int → Disposition :=
  match c.previousHandler with
  | none => d
  | some p => if 0 ≤ c.sig then signal system d c.sig p else d

/-- The handler and the dispositions after `handle`, and what it returns. -/
def handle (d : Int → Disposition) (c : SigHandler) (sig : Int) :
    SigHandler × (Int → Disposition) × Bool :=
  let d := unhandle system d c
  (⟨sig, if system.known sig then some (d sig).saHandler else none⟩,
    if system.catchable sig then Function.update d sig .callback else d,
    system.catchable sig)

/-- Handlers are destroyed in this order. -/
def destroyAll (d : Int → Disposition) (l : List SigHandler) : Int → Disposition :=
  l.foldl (unhandle system) d

/-- What the destructor puts back. -/
def restores (c : SigHandler) : Option Disposition :=
  c.previousHandler.map HandlerPointer.disposition

/-- The last handler of the signal. -/
def last (l : List SigHandler) (sig : Int) : Option SigHandler :=
  l.reverse.find? fun c => c.sig = sig

/-- The handler has installed the callback. -/
structure Handling (c : SigHandler) : Prop where
  catchable : system.catchable c.sig = true
  previous : ∃ p, c.previousHandler = some p

variable {system}

theorem Handling.restores (c : SigHandler) (h : c.Handling system) :
    ∃ r, c.restores = some r := by
  obtain ⟨p, hp⟩ := h.previous
  exact ⟨p.disposition, by rw [SigHandler.restores, hp, Option.map_some]⟩

theorem Handling.unhandle {c : SigHandler} (h : c.Handling system) {r : Disposition}
    (hr : c.restores = some r) (d : Int → Disposition) :
    c.unhandle system d = Function.update d c.sig r := by
  obtain ⟨p, hp⟩ := h.previous
  rw [SigHandler.restores, hp, Option.map_some, Option.some.injEq] at hr
  have hpos : 0 ≤ c.sig := 
    Int.le_of_lt (system.pos _ (system.known_of_catchable _ h.catchable))
  rw [SigHandler.unhandle, hp]
  dsimp only
  rw [if_pos hpos, signal, if_pos h.catchable, hr]

theorem unhandle_of_not_catchable {c : SigHandler} (h : ¬ system.catchable c.sig = true)
    (d : Int → Disposition) : c.unhandle system d = d := by
  rw [SigHandler.unhandle]
  split
  · rfl
  · simp only [signal, if_neg h, ite_self]

theorem handle_create_of_catchable {sig : Int} (h : system.catchable sig = true)
    (d : Int → Disposition) : create.handle system d sig =
      (⟨sig, some (d sig).saHandler⟩, Function.update d sig .callback, true) := by
  change ((⟨sig, if system.known sig then some (d sig).saHandler else none⟩,
    if system.catchable sig then Function.update d sig .callback else d,
    system.catchable sig) : SigHandler × (Int → Disposition) × Bool) = _
  rw [if_pos (system.known_of_catchable sig h), if_pos h, h]

theorem last_concat (l : List SigHandler) (c : SigHandler) (sig : Int) :
    last (l ++ [c]) sig = if c.sig = sig then some c else last l sig := by
  rw [last, List.reverse_append, List.reverse_singleton, List.singleton_append]
  by_cases h : c.sig = sig
  · rw [List.find?_cons_of_pos (by simp [h]), if_pos h]
  · rw [List.find?_cons_of_neg (by simp [h]), if_neg h]
    rfl

theorem mem_of_last {l : List SigHandler} {sig : Int} {c : SigHandler} (h : last l sig = some c) :
    c ∈ l ∧ c.sig = sig := by
  refine ⟨List.mem_reverse.mp (List.mem_of_find?_eq_some h), ?_⟩
  have hsig := List.find?_some h
  exact of_decide_eq_true hsig

theorem last_eq_none_iff {l : List SigHandler} {sig : Int} :
    last l sig = none ↔ ∀ c ∈ l, c.sig ≠ sig := by
  simp [last]

/-- The last handler of a signal that is destroyed restores its own previous one, and a signal that
has none keeps its disposition. -/
theorem destroyAll_apply {l : List SigHandler} (h : ∀ c ∈ l, Handling system c)
    (d : Int → Disposition) (sig : Int) :
    destroyAll system d l sig = ((last l sig).bind restores).getD (d sig) := by
  induction l using List.reverseRecOn with
  | nil => rfl
  | append_singleton l c ih =>
    obtain ⟨r, hr⟩ := Handling.restores c (h c (by simp))
    have hc := (h c (by simp)).unhandle hr
    rw [destroyAll, List.foldl_append, List.foldl_cons, List.foldl_nil, ← destroyAll, hc,
      last_concat]
    by_cases hsig : c.sig = sig
    · rw [if_pos hsig, ← hsig, Function.update_self, Option.bind_some, hr, Option.getD_some]
    · rw [if_neg hsig, Function.update_of_ne (Ne.symm hsig)]
      exact ih fun c hc => h c (List.mem_append_left _ hc)

end SigHandler

end Sihd.Sys
