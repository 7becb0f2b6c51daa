import Mathlib.Data.Fintype.Card

/-!
# Rounds of a rendezvous

Members attend the open round. It ends when every member has attended it, and
the next one opens. A rendezvous carries who attended which round: everybody
those that have ended, nobody those that are still to come.
-/

structure Rendezvous (ι : Type*) [Fintype ι] where
  round : Nat
  attended : Nat → Finset ι
  complete : ∀ j, j < round → attended j = Finset.univ
  later : ∀ j, round < j → attended j = ∅

namespace Rendezvous

variable {ι : Type*} [Fintype ι]

def start : Rendezvous ι where
  round := 0
  attended := fun _ => ∅
  complete := fun j hj => absurd hj (Nat.not_lt_zero j)
  later := fun _ _ => rfl

/-- Those who have attended the open round. -/
def present (m : Rendezvous ι) : Finset ι := m.attended m.round

def attend [DecidableEq ι] (m : Rendezvous ι) (t : ι) : Rendezvous ι where
  round := m.round
  attended := Function.update m.attended m.round (insert t m.present)
  complete := fun j hj => by
    rw [Function.update_of_ne hj.ne]
    exact m.complete j hj
  later := fun j hj => by
    rw [Function.update_of_ne hj.ne']
    exact m.later j hj

/-- The open round ends. -/
def advance (m : Rendezvous ι) (h : m.present = Finset.univ) : Rendezvous ι where
  round := m.round + 1
  attended := m.attended
  complete := fun j hj => by
    rcases Nat.lt_succ_iff_lt_or_eq.mp hj with hlt | rfl
    · exact m.complete j hlt
    · exact h
  later := fun j hj => m.later j (Nat.lt_of_succ_lt hj)

@[simp] theorem round_start : (start : Rendezvous ι).round = 0 := rfl

@[simp] theorem attended_start (k : Nat) : (start : Rendezvous ι).attended k = ∅ := rfl

@[simp] theorem present_start : (start : Rendezvous ι).present = ∅ := rfl

@[simp] theorem round_attend [DecidableEq ι] (m : Rendezvous ι) (t : ι) :
    (m.attend t).round = m.round := rfl

theorem attended_attend [DecidableEq ι] (m : Rendezvous ι) (t : ι) :
    (m.attend t).attended = Function.update m.attended m.round (insert t m.present) := rfl

@[simp] theorem present_attend [DecidableEq ι] (m : Rendezvous ι) (t : ι) :
    (m.attend t).present = insert t m.present := Function.update_self ..

theorem mem_attended_attend [DecidableEq ι] {m : Rendezvous ι} {t u : ι} {k : Nat}
    (h : u ∈ (m.attend t).attended k) : u ∈ m.attended k ∨ u = t ∧ k = m.round := by
  rw [attended_attend] at h
  by_cases hk : k = m.round
  · subst hk
    rw [Function.update_self, Finset.mem_insert] at h
    exact h.elim (fun hu => .inr ⟨hu, rfl⟩) .inl
  · rw [Function.update_of_ne hk] at h
    exact .inl h

@[simp] theorem round_advance (m : Rendezvous ι) (h : m.present = Finset.univ) :
    (m.advance h).round = m.round + 1 := rfl

@[simp] theorem attended_advance (m : Rendezvous ι) (h : m.present = Finset.univ) (k : Nat) :
    (m.advance h).attended k = m.attended k := rfl

@[simp] theorem present_advance (m : Rendezvous ι) (h : m.present = Finset.univ) :
    (m.advance h).present = ∅ :=
  m.later _ (Nat.lt_succ_self _)

/-- Everybody has attended a round that has ended. -/
theorem mem_attended (m : Rendezvous ι) {j : Nat} (hj : j < m.round) (u : ι) :
    u ∈ m.attended j := by
  rw [m.complete j hj]
  exact Finset.mem_univ u

theorem present_eq_univ {m : Rendezvous ι} (h : Fintype.card ι ≤ m.present.card) :
    m.present = Finset.univ :=
  Finset.eq_univ_of_card _ (Nat.le_antisymm (Finset.card_le_univ _) h)

end Rendezvous
