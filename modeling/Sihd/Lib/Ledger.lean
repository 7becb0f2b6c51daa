import Mathlib.Data.List.Basic
import Mathlib.Data.List.Perm.Basic
import Mathlib.Tactic.Common

/-!
# Ledgers of a queue

A ledger has an entry for every element that was sent, in the order of the
sending: first those that have left, each delivered or removed, then those that
wait. An element is delivered, removed or waits, and those that are delivered
are in the order in which they were sent.
-/

inductive Fate where
  | delivered
  | removed
  deriving DecidableEq

structure Ledger (α : Type*) where
  settled : List (α × Fate)
  waiting : List α

namespace Ledger

variable {α : Type*}

def empty : Ledger α := ⟨[], []⟩

def sent (l : Ledger α) : List α := l.settled.map Prod.fst ++ l.waiting

def withFate (l : Ledger α) (f : Fate) : List α := (l.settled.filter fun e => e.2 = f).map Prod.fst

def delivered (l : Ledger α) : List α := l.withFate .delivered

def removed (l : Ledger α) : List α := l.withFate .removed

/-- An element is sent. -/
def send (l : Ledger α) (x : α) : Ledger α := ⟨l.settled, l.waiting ++ [x]⟩

/-- The first one that waits leaves. -/
def deliver (l : Ledger α) (x : α) (waiting : List α) : Ledger α :=
  ⟨l.settled ++ [(x, .delivered)], waiting⟩

/-- All that wait leave. -/
def removeAll (l : Ledger α) : Ledger α :=
  ⟨l.settled ++ l.waiting.map fun x => (x, .removed), []⟩

theorem sent_send (l : Ledger α) (x : α) : (l.send x).sent = l.sent ++ [x] := by
  rw [sent, sent, send, List.append_assoc]

theorem sent_deliver {l : Ledger α} {x : α} {waiting : List α} (h : l.waiting = x :: waiting) :
    (l.deliver x waiting).sent = l.sent := by
  rw [sent, sent, deliver, h, List.map_append, List.append_assoc]
  rfl

theorem sent_removeAll (l : Ledger α) : l.removeAll.sent = l.sent := by
  simp [sent, removeAll, Function.comp_def]

theorem withFate_deliver (l : Ledger α) (x : α) (waiting : List α) :
    (l.deliver x waiting).delivered = l.delivered ++ [x] ∧
      (l.deliver x waiting).removed = l.removed := by
  simp [delivered, removed, withFate, deliver]

theorem withFate_removeAll (l : Ledger α) :
    l.removeAll.delivered = l.delivered ∧ l.removeAll.removed = l.removed ++ l.waiting := by
  simp [delivered, removed, withFate, removeAll, List.filter_map, Function.comp_def]

/-- What is delivered was sent, in the same order. -/
theorem delivered_sublist (l : Ledger α) : l.delivered.Sublist l.sent :=
  (List.filter_sublist.map Prod.fst).trans (List.sublist_append_left _ _)

/-- What was sent is delivered, removed or waits. -/
theorem sent_perm (l : Ledger α) :
    l.sent.Perm (l.delivered ++ l.removed ++ l.waiting) := by
  have hfates : l.settled.filter (fun e => e.2 = .removed) =
      l.settled.filter fun e => !decide (e.2 = Fate.delivered) := by
    refine List.filter_congr fun e _ => ?_
    cases e.2 <;> rfl
  have hsettled := (List.filter_append_perm (fun e => decide (e.2 = Fate.delivered))
    l.settled).map Prod.fst
  rw [List.map_append, ← hfates] at hsettled
  exact hsettled.symm.append_right l.waiting

end Ledger

/-!
## Pipes

What is written to a pipe is read in order. A pipe has beside what it holds what was taken from it.
-/

structure Pipe (α : Type*) where
  taken : List α
  content : List α

namespace Pipe

variable {α : Type*}

def empty : Pipe α := ⟨[], []⟩

/-- All that was written. -/
def written (p : Pipe α) : List α := p.taken ++ p.content

def write (p : Pipe α) (l : List α) : Pipe α := { p with content := p.content ++ l }

/-- The next `n` are taken. -/
def read (p : Pipe α) (n : Nat) : Pipe α := ⟨p.taken ++ p.content.take n, p.content.drop n⟩

@[simp] theorem written_empty : (empty : Pipe α).written = [] := rfl

@[simp] theorem written_write (p : Pipe α) (l : List α) :
    (p.write l).written = p.written ++ l := by
  simp only [written, write, List.append_assoc]

@[simp] theorem written_read (p : Pipe α) (n : Nat) : (p.read n).written = p.written := by
  simp only [written, read, List.append_assoc, List.take_append_drop]

theorem taken_eq_written_iff {p : Pipe α} : p.taken = p.written ↔ p.content = [] := by
  rw [written, List.self_eq_append_right]

theorem content_read_eq_nil_iff {p : Pipe α} {n : Nat} :
    (p.read n).content = [] ↔ p.content.length ≤ n :=
  List.drop_eq_nil_iff

end Pipe
