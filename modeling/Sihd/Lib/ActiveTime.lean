import Mathlib.Algebra.BigOperators.Group.List.Basic
import Mathlib.Algebra.Order.Group.Defs
import Mathlib.Algebra.Order.Group.MinMax
import Mathlib.Tactic.Abel

/-!
# The time of a clock that is paused

A clock that was paused over some intervals counts only the time between them.
`activeTime pauses τ` is what it shows at the instant `τ`, up to a constant:
the instant less the length of the pauses before it. A difference of two
values is the unpaused time between two instants. While no pause is open it
runs like the clock (`activeTime_add`), and moving an instant by the length of
a pause that precedes it keeps its active time (`activeTime_resume`).
-/

universe u

section Ended

variable {G : Type u} [LinearOrder G]

/-- The pauses that are not empty are over at `τ`. -/
def EndedBy (pauses : List (G × G)) (τ : G) : Prop :=
  ∀ i ∈ pauses, i.1 = i.2 ∨ i.1 ≤ τ ∧ i.2 ≤ τ

theorem endedBy_nil (τ : G) : EndedBy [] τ := by
  simp [EndedBy]

theorem EndedBy.mono {pauses : List (G × G)} {τ τ' : G} (h : EndedBy pauses τ)
    (hle : τ ≤ τ') : EndedBy pauses τ' := by
  intro i hi
  rcases h i hi with hempty | ⟨hstart, hend⟩
  · exact .inl hempty
  · exact .inr ⟨hstart.trans hle, hend.trans hle⟩

theorem EndedBy.append_singleton {pauses : List (G × G)} {p q τ : G}
    (h : EndedBy pauses τ) (hnew : p = q ∨ p ≤ τ ∧ q ≤ τ) :
    EndedBy (pauses ++ [(p, q)]) τ := by
  intro i hi
  rcases List.mem_append.mp hi with hold | hlast
  · exact h i hold
  · rw [List.mem_singleton.mp hlast]
    exact hnew

end Ended

variable {G : Type u} [AddCommGroup G] [LinearOrder G]

/-- The instant `τ` less the length of the pauses `[p, q)` before it. -/
def activeTime (pauses : List (G × G)) (τ : G) : G :=
  τ - (pauses.map fun i => min τ i.2 - min τ i.1).sum

@[simp] theorem activeTime_nil (τ : G) : activeTime [] τ = τ := by
  simp [activeTime]

theorem activeTime_append_singleton (pauses : List (G × G)) (p q τ : G) :
    activeTime (pauses ++ [(p, q)]) τ =
      activeTime pauses τ - (min τ q - min τ p) := by
  simp only [activeTime, List.map_append, List.sum_append, List.map_cons,
    List.map_nil, List.sum_singleton]
  abel

/-- A pause does not change the active time of an instant before it. -/
theorem activeTime_append_of_le (pauses : List (G × G)) {p q τ : G}
    (hτ : τ ≤ p) (hpq : p ≤ q) :
    activeTime (pauses ++ [(p, q)]) τ = activeTime pauses τ := by
  rw [activeTime_append_singleton, min_eq_left (hτ.trans hpq), min_eq_left hτ]
  abel

/-- A pause takes its length from the active time of an instant after it. -/
theorem activeTime_append_of_ge (pauses : List (G × G)) {p q τ : G}
    (hτ : q ≤ τ) (hpq : p ≤ q) :
    activeTime (pauses ++ [(p, q)]) τ = activeTime pauses τ - (q - p) := by
  rw [activeTime_append_singleton, min_eq_right hτ, min_eq_right (hpq.trans hτ)]

/-- Once the pauses are over, active time runs like the clock. -/
theorem activeTime_add [IsOrderedAddMonoid G] {pauses : List (G × G)} {τ δ : G}
    (hended : EndedBy pauses τ) (hδ : 0 ≤ δ) :
    activeTime pauses (τ + δ) = activeTime pauses τ + δ := by
  have hle : τ ≤ τ + δ := le_add_of_nonneg_right hδ
  have hsum : (pauses.map fun i => min (τ + δ) i.2 - min (τ + δ) i.1) =
      pauses.map fun i => min τ i.2 - min τ i.1 := by
    apply List.map_congr_left
    intro i hi
    rcases hended i hi with hempty | ⟨hstart, hend⟩
    · rw [hempty, sub_self, sub_self]
    · rw [min_eq_right hend, min_eq_right hstart, min_eq_right (hend.trans hle),
        min_eq_right (hstart.trans hle)]
  rw [activeTime, activeTime, hsum]
  abel

/-- The clock started at `start`, and is paused from `p` to the later of the
two only: the pause does not change the active distance of instants after the
start. -/
theorem activeTime_append_of_eq_max (pauses : List (G × G)) {start p q t r : G}
    (hq : q = max start p) (ht : start ≤ t) (hr : start ≤ r) :
    activeTime (pauses ++ [(p, q)]) r - activeTime (pauses ++ [(p, q)]) t =
      activeTime pauses r - activeTime pauses t := by
  rcases le_total start p with hsp | hps
  · have hqp : q = p := hq.trans (max_eq_right hsp)
    rw [activeTime_append_singleton, activeTime_append_singleton, hqp]
    abel
  · have hqs : q = start := hq.trans (max_eq_left hps)
    rw [activeTime_append_of_ge pauses (hqs ▸ hr) (hqs ▸ hps),
      activeTime_append_of_ge pauses (hqs ▸ ht) (hqs ▸ hps)]
    abel

/-- The clock started at `start` and is paused over `[p, q)`; `b` is the later
of the two. Moving an instant that was not reached at `b` by `q - b` keeps its
active distance to an instant that the clock had reached at `b`. -/
theorem activeTime_resume [IsOrderedAddMonoid G] {pauses : List (G × G)}
    {start p q b t r : G} (hended : EndedBy pauses p)
    (hb : b = max start p) (hbq : b ≤ q) (hstart : start ≤ t) (ht : t ≤ b)
    (hr : b ≤ r) :
    activeTime (pauses ++ [(p, q)]) (r + (q - b)) -
        activeTime (pauses ++ [(p, q)]) t =
      activeTime pauses r - activeTime pauses t := by
  have hpb : p ≤ b := hb ▸ le_max_right start p
  have hpq : p ≤ q := hpb.trans hbq
  have hmoved : q ≤ r + (q - b) := by
    have hsum : b + (q - b) ≤ r + (q - b) := add_le_add_left hr (q - b)
    rwa [add_sub_cancel] at hsum
  rw [activeTime_append_of_ge pauses hmoved hpq,
    activeTime_add (hended.mono (hpb.trans hr)) (sub_nonneg.mpr hbq)]
  rcases le_total t p with htp | hpt
  · -- the pause began after `t`, so it began at `b`
    have hbp : b = p := by
      rw [hb]
      exact max_eq_right (hstart.trans htp)
    rw [activeTime_append_of_le pauses htp hpq, hbp]
    abel
  · -- the pause began before the start, and `t` is the start
    have htb : t = b := by
      refine le_antisymm ht ?_
      rw [hb]
      exact max_le hstart hpt
    rw [activeTime_append_singleton, htb, min_eq_left hbq, min_eq_right hpb]
    abel
