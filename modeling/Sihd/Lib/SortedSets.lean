import Mathlib.Data.List.Pairwise
import Mathlib.Order.Lattice
import Mathlib.Tactic.Common

/-!
# Sets as sorted lists

Lists that are sorted by a key, each key once, are walked in step:
`setIntersection` and `setDifference` take from the first list what has a key of
the second one, and what has none.
-/

variable {α κ : Type*} [LinearOrder κ]

/-- Sorted by a key, each key once. -/
def SortedBy (key : α → κ) (l : List α) : Prop := l.Pairwise fun a b => key a < key b

/-- `std::set_intersection`. -/
def setIntersection (key : α → κ) : List α → List α → List α
  | a :: as, b :: bs =>
      if key a < key b then setIntersection key as (b :: bs)
      else if key b < key a then setIntersection key (a :: as) bs
      else a :: setIntersection key as bs
  | [], _ => []
  | _, [] => []
  termination_by as bs => as.length + bs.length

/-- `std::set_difference`. -/
def setDifference (key : α → κ) : List α → List α → List α
  | a :: as, b :: bs =>
      if key a < key b then a :: setDifference key as (b :: bs)
      else if key b < key a then setDifference key (a :: as) bs
      else setDifference key as bs
  | [], _ => []
  | as, [] => as
  termination_by as bs => as.length + bs.length

variable {key : α → κ} {a b : α} {as bs l : List α}

theorem SortedBy.sublist (h : SortedBy key l) (hsub : as.Sublist l) : SortedBy key as :=
  List.Pairwise.sublist hsub h

theorem SortedBy.not_mem_map (h : SortedBy key (a :: as)) (hlt : key b < key a) :
    key b ∉ (a :: as).map key := by
  rw [List.mem_map]
  rintro ⟨c, hc, heq⟩
  rcases List.mem_cons.mp hc with rfl | hc
  · exact hlt.ne' heq
  · have hac := List.rel_of_pairwise_cons h hc
    exact (hlt.trans hac).ne' heq

theorem setIntersection_sublist (key : α → κ) (as bs : List α) :
    (setIntersection key as bs).Sublist as := by
  fun_induction setIntersection key as bs with
  | case1 a as b bs hlt ih => exact ih.cons a
  | case2 a as b bs hlt hgt ih => exact ih
  | case3 a as b bs hlt hgt ih => exact ih.cons_cons a
  | case4 bs => exact List.nil_sublist _
  | case5 as _ => exact List.nil_sublist _

theorem setDifference_sublist (key : α → κ) (as bs : List α) :
    (setDifference key as bs).Sublist as := by
  fun_induction setDifference key as bs with
  | case1 a as b bs hlt ih => exact ih.cons_cons a
  | case2 a as b bs hlt hgt ih => exact ih
  | case3 a as b bs hlt hgt ih => exact ih.cons a
  | case4 bs => exact List.nil_sublist _
  | case5 as _ => exact List.Sublist.refl _

theorem mem_setIntersection (has : SortedBy key as) (hbs : SortedBy key bs) :
    a ∈ setIntersection key as bs ↔ a ∈ as ∧ key a ∈ bs.map key := by
  fun_induction setIntersection key as bs with
  | case1 c as b bs hlt ih =>
    have hnot := hbs.not_mem_map hlt
    rw [ih has.of_cons hbs, List.mem_cons]
    constructor
    · exact fun h => ⟨.inr h.1, h.2⟩
    · rintro ⟨rfl | h, hkey⟩
      · exact absurd hkey hnot
      · exact ⟨h, hkey⟩
  | case2 c as b bs hlt hgt ih =>
    rw [ih has hbs.of_cons, List.map_cons, List.mem_cons (a := key a)]
    refine and_congr_right fun h => (or_iff_right fun heq => ?_).symm
    exact has.not_mem_map hgt (heq ▸ List.mem_map_of_mem h)
  | case3 c as b bs hlt hgt ih =>
    have heq : key c = key b := le_antisymm (not_lt.mp hgt) (not_lt.mp hlt)
    rw [List.mem_cons, ih has.of_cons hbs.of_cons, List.mem_cons, List.map_cons, List.mem_cons]
    constructor
    · rintro (rfl | h)
      · exact ⟨.inl rfl, .inl heq⟩
      · exact ⟨.inr h.1, .inr h.2⟩
    · rintro ⟨rfl | h, hkey⟩
      · exact .inl rfl
      · refine .inr ⟨h, hkey.resolve_left fun hb => ?_⟩
        have hca := List.rel_of_pairwise_cons has h
        exact hca.ne (heq.trans hb.symm)
  | case4 bs => simp
  | case5 as _ => simp

theorem mem_setDifference (has : SortedBy key as) (hbs : SortedBy key bs) :
    a ∈ setDifference key as bs ↔ a ∈ as ∧ key a ∉ bs.map key := by
  fun_induction setDifference key as bs with
  | case1 c as b bs hlt ih =>
    have hnot := hbs.not_mem_map hlt
    rw [List.mem_cons, ih has.of_cons hbs, List.mem_cons]
    constructor
    · rintro (rfl | h)
      · exact ⟨.inl rfl, hnot⟩
      · exact ⟨.inr h.1, h.2⟩
    · rintro ⟨rfl | h, hkey⟩
      · exact .inl rfl
      · exact .inr ⟨h, hkey⟩
  | case2 c as b bs hlt hgt ih =>
    rw [ih has hbs.of_cons, List.map_cons, List.mem_cons (a := key a), not_or]
    refine and_congr_right fun h => (and_iff_right fun heq => ?_).symm
    exact has.not_mem_map hgt (heq ▸ List.mem_map_of_mem h)
  | case3 c as b bs hlt hgt ih =>
    have heq : key c = key b := le_antisymm (not_lt.mp hgt) (not_lt.mp hlt)
    rw [ih has.of_cons hbs.of_cons, List.mem_cons, List.map_cons, List.mem_cons, not_or]
    constructor
    · rintro ⟨h, hkey⟩
      refine ⟨.inr h, fun hb => ?_, hkey⟩
      exact (List.rel_of_pairwise_cons has h).ne (heq.trans hb.symm)
    · rintro ⟨rfl | h, hb, hkey⟩
      · exact absurd heq hb
      · exact ⟨h, hkey⟩
  | case4 bs => simp
  | case5 as _ => simp
