import Mathlib.Data.List.Basic
import Mathlib.Data.List.Flatten
import Mathlib.Tactic.Common

/-!
# Rows in a list

Rows of one size that stand one after the other: offset `i` of row `y` has the index
`y * n + i`. `absorb` gives the whole rows of a list to a function, and leaves the rest.
-/

namespace Rows

variable {α : Type*} {n m y y' i : Nat}

/-- An offset in a row tells the row. -/
theorem unique (hi : i < n) (hle : y' * n ≤ y * n + i) (hlt : y * n + i < y' * n + n) :
    y' = y := by
  have hle' : y' * n < (y + 1) * n := by rw [Nat.succ_mul]; omega
  have hlt' : y * n < (y' + 1) * n := by rw [Nat.succ_mul]; omega
  have h₁ := Nat.lt_of_mul_lt_mul_right hle'
  have h₂ := Nat.lt_of_mul_lt_mul_right hlt'
  omega

theorem end_le (hy : y < m) : y * n + n ≤ n * m := by
  have hle := Nat.mul_le_mul_left n hy
  rw [Nat.mul_succ, Nat.mul_comm] at hle
  exact hle

theorem length_flatMap_range {g : Nat → List α} (hg : ∀ y < m, (g y).length = n) :
    ((List.range m).flatMap g).length = n * m := by
  induction m with
  | zero => rfl
  | succ m ih =>
    rw [List.range_succ, List.flatMap_append, List.length_append,
      ih fun y hy => hg y (Nat.lt_succ_of_lt hy), List.flatMap_singleton, hg m (Nat.lt_succ_self m),
      Nat.mul_succ]

theorem getElem?_flatMap_range {g : Nat → List α} (hg : ∀ y < m, (g y).length = n)
    (hy : y < m) (hi : i < n) : ((List.range m).flatMap g)[y * n + i]? = (g y)[i]? := by
  induction m with
  | zero => omega
  | succ m ih =>
    have hg' : ∀ y < m, (g y).length = n := fun y hy => hg y (Nat.lt_succ_of_lt hy)
    have hlength := length_flatMap_range hg'
    rw [List.range_succ, List.flatMap_append, List.flatMap_singleton]
    by_cases hlast : y = m
    · subst hlast
      rw [List.getElem?_append_right (by rw [hlength, Nat.mul_comm]; omega), hlength, Nat.mul_comm,
        Nat.add_sub_cancel_left]
    · have hend : y * n + n ≤ n * m := end_le (by omega)
      rw [List.getElem?_append_left (by omega), ih hg' (by omega)]

/-- Two lists with the same rows. -/
theorem ext {l l' : List α} (hlength : l.length = n * m) (hlength' : l'.length = n * m)
    (h : ∀ y < m, ∀ i < n, l[y * n + i]? = l'[y * n + i]?) : l = l' := by
  refine List.ext_getElem? fun k => ?_
  by_cases hk : k < n * m
  · have hpos : 0 < n := Nat.pos_of_ne_zero fun hzero => by simp [hzero] at hk
    have hrow := h (k / n) ((Nat.div_lt_iff_lt_mul hpos).mpr (by rwa [Nat.mul_comm])) (k % n)
      (Nat.mod_lt _ hpos)
    rwa [Nat.mul_comm, Nat.div_add_mod] at hrow
  · rw [List.getElem?_eq_none (by omega), List.getElem?_eq_none (by omega)]

/-! ### Row by row -/

section Absorb

variable {σ τ : Type*} {f : σ → List α → σ} {s : σ} {l r : List α}

/-- The rows that are whole are given to the function, one after the other. -/
def absorb (f : σ → List α → σ) (n : Nat) (s : σ) (l : List α) : σ × List α :=
  if 0 < n ∧ n ≤ l.length then absorb f n (f s (l.take n)) (l.drop n) else (s, l)
termination_by l.length
decreasing_by
  rw [List.length_drop]
  omega

theorem absorb_of_lt (h : l.length < n) : absorb f n s l = (s, l) := by
  rw [absorb, if_neg (by omega)]

theorem absorb_of_le (hn : 0 < n) (h : n ≤ l.length) :
    absorb f n s l = absorb f n (f s (l.take n)) (l.drop n) := by
  rw [absorb, if_pos ⟨hn, h⟩]

/-- A whole row in front. -/
theorem absorb_row (hn : 0 < n) (hr : r.length = n) (l : List α) :
    absorb f n s (r ++ l) = absorb f n (f s r) l := by
  rw [absorb_of_le hn (by rw [List.length_append]; omega), List.take_left' hr, List.drop_left' hr]

theorem length_absorb_snd (hn : 0 < n) (s : σ) (l : List α) :
    (absorb f n s l).2.length = l.length % n := by
  by_cases h : n ≤ l.length
  · rw [absorb_of_le hn h, length_absorb_snd hn, List.length_drop, ← Nat.mod_eq_sub_mod h]
  · rw [absorb_of_lt (Nat.lt_of_not_le h), Nat.mod_eq_of_lt (Nat.lt_of_not_le h)]
termination_by l.length
decreasing_by
  rw [List.length_drop]
  omega

/-- What is appended goes on with the rest. -/
theorem absorb_append (hn : 0 < n) (s : σ) (l l' : List α) :
    absorb f n s (l ++ l') = absorb f n (absorb f n s l).1 ((absorb f n s l).2 ++ l') := by
  by_cases h : n ≤ l.length
  · rw [absorb_of_le hn h, ← absorb_append hn, ← List.take_append_drop n l, List.append_assoc,
      absorb_row hn (List.length_take_of_le h), List.take_append_drop]
  · rw [absorb_of_lt (Nat.lt_of_not_le h)]
termination_by l.length
decreasing_by
  rw [List.length_drop]
  omega

/-- A view of the states under which one function is another. -/
theorem absorb_map {g : τ → List α → τ} {view : σ → τ}
    (hview : ∀ s r, view (f s r) = g (view s) r) (hn : 0 < n) (s : σ) (l : List α) :
    absorb g n (view s) l = (view (absorb f n s l).1, (absorb f n s l).2) := by
  by_cases h : n ≤ l.length
  · rw [absorb_of_le hn h, absorb_of_le hn h, ← hview, absorb_map hview hn]
  · rw [absorb_of_lt (Nat.lt_of_not_le h), absorb_of_lt (Nat.lt_of_not_le h)]
termination_by l.length
decreasing_by
  rw [List.length_drop]
  omega

/-- The whole rows of a list. -/
def rows (n : Nat) (l : List α) : List (List α) := (absorb (fun rs r => rs ++ [r]) n [] l).1

theorem absorb_fst (f : σ → List α → σ) (hn : 0 < n) (s : σ) (l : List α) :
    (absorb f n s l).1 = (rows n l).foldl f s := by
  have hview := @absorb_map α n (List (List α)) σ (fun rs r => rs ++ [r]) f
    (fun rs => rs.foldl f s) (by simp) hn [] l
  exact congrArg Prod.fst hview

theorem flatten_absorb (hn : 0 < n) (rs : List (List α)) (l : List α) :
    (absorb (fun rs r => rs ++ [r]) n rs l).1.flatten ++
      (absorb (fun rs r => rs ++ [r]) n rs l).2 = rs.flatten ++ l := by
  by_cases h : n ≤ l.length
  · rw [absorb_of_le hn h, flatten_absorb hn, List.flatten_append, List.flatten_singleton,
      List.append_assoc, List.take_append_drop]
  · rw [absorb_of_lt (Nat.lt_of_not_le h)]
termination_by l.length
decreasing_by
  rw [List.length_drop]
  omega

/-- A list of whole rows is made of them. -/
theorem flatten_rows (hn : 0 < n) (h : n ∣ l.length) : (rows n l).flatten = l := by
  have hrest := length_absorb_snd (f := fun rs r => rs ++ [r]) hn ([] : List (List α)) l
  rw [Nat.mod_eq_zero_of_dvd h, List.length_eq_zero_iff] at hrest
  have hflatten := flatten_absorb hn [] l
  rw [hrest] at hflatten
  simpa [rows] using hflatten

end Absorb

end Rows
