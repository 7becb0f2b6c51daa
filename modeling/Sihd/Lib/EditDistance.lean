import Mathlib.Data.List.Basic
import Mathlib.Order.Bounds.Basic
import Mathlib.Order.MinMax
import Mathlib.Order.Nat
import Mathlib.Tactic.Common

/-!
# Distances between strings

A script turns a string into another one by inserting, deleting and replacing
characters, each for its own cost. The distance takes a character that is the
same in both strings without looking for anything better; nevertheless it is the
least cost of the scripts. Characters are compared by a key, so that a script
ends in a string with the keys of the other one.
-/

structure EditCost where
  insert : Nat
  delete : Nat
  replace : Nat

namespace EditCost

/-- The costs of the way back. -/
def swap (C : EditCost) : EditCost := ⟨C.delete, C.insert, C.replace⟩

end EditCost

/-- Edits that turn a string into another one, and their cost. -/
inductive EditScript {α : Type*} (C : EditCost) : List α → Nat → List α → Prop
  | refl (s : List α) : EditScript C s 0 s
  | insert {u v t : List α} {c : α} {n : Nat} :
      EditScript C (u ++ c :: v) n t → EditScript C (u ++ v) (n + C.insert) t
  | delete {u v t : List α} {c : α} {n : Nat} :
      EditScript C (u ++ v) n t → EditScript C (u ++ c :: v) (n + C.delete) t
  | replace {u v t : List α} {c c' : α} {n : Nat} :
      EditScript C (u ++ c' :: v) n t → EditScript C (u ++ c :: v) (n + C.replace) t

variable {α β : Type*} [DecidableEq β] {C : EditCost}

/-- The distance of two strings, character by character from the left. -/
def editDistance (C : EditCost) : List β → List β → Nat
  | [], t => t.length * C.insert
  | s, [] => s.length * C.delete
  | c :: s, d :: t =>
      if c = d then editDistance C s t
      else min (min (editDistance C s (d :: t) + C.delete) (editDistance C (c :: s) t + C.insert))
        (editDistance C s t + C.replace)
  termination_by s t => s.length + t.length

section Distance

variable {s s' t : List β} {c c' d : β} {k : Nat}

@[simp] theorem editDistance_nil (t : List β) : editDistance C [] t = t.length * C.insert := by
  rw [editDistance]

@[simp] theorem editDistance_nil_right (s : List β) :
    editDistance C s [] = s.length * C.delete := by
  cases s with
  | nil => simp
  | cons c s => rw [editDistance]; simp

theorem editDistance_cons_self (c : β) (s t : List β) :
    editDistance C (c :: s) (c :: t) = editDistance C s t := by
  rw [editDistance, if_pos rfl]

theorem editDistance_cons_of_ne (h : c ≠ d) (s t : List β) :
    editDistance C (c :: s) (d :: t) =
      min (min (editDistance C s (d :: t) + C.delete) (editDistance C (c :: s) t + C.insert))
        (editDistance C s t + C.replace) := by
  rw [editDistance, if_neg h]

/-- On the way back insertions and deletions are exchanged. -/
theorem editDistance_swap (s t : List β) : editDistance C.swap t s = editDistance C s t := by
  induction hlen : s.length + t.length using Nat.strong_induction_on generalizing s t with
  | _ n ih =>
    cases s with
    | nil => simp [EditCost.swap]
    | cons c s =>
      cases t with
      | nil => simp [EditCost.swap]
      | cons d t =>
        simp only [List.length_cons] at hlen
        have h := ih (s.length + t.length) (by omega) s t rfl
        by_cases hcd : c = d
        · subst hcd
          rw [editDistance_cons_self, editDistance_cons_self, h]
        · have hleft := ih (s.length + (d :: t).length) (by simp; omega) s (d :: t) rfl
          have hright := ih ((c :: s).length + t.length) (by simp; omega) (c :: s) t rfl
          rw [editDistance_cons_of_ne hcd, editDistance_cons_of_ne (Ne.symm hcd), h, hleft, hright]
          simp only [EditCost.swap]
          rw [min_comm (editDistance C (c :: s) t + C.insert)]

/-- One more character on the left costs at most its deletion, and one less on
the right too. -/
theorem editDistance_cons_le_and (s t : List β) :
    (∀ c, editDistance C (c :: s) t ≤ editDistance C s t + C.delete) ∧
      ∀ d, editDistance C s t ≤ editDistance C s (d :: t) + C.delete := by
  induction hlen : s.length + t.length using Nat.strong_induction_on generalizing s t with
  | _ n ih =>
    constructor
    · intro c
      cases t with
      | nil => simp [Nat.add_mul]
      | cons d t =>
        by_cases hcd : c = d
        · subst hcd
          rw [editDistance_cons_self]
          exact (ih (s.length + t.length) (by simp at hlen; omega) s t rfl).2 c
        · rw [editDistance_cons_of_ne hcd]
          exact (min_le_left _ _).trans (min_le_left _ _)
    · intro d
      cases s with
      | nil =>
        simp only [editDistance_nil, List.length_cons, Nat.add_mul]
        omega
      | cons c s =>
        obtain ⟨hcons, hright⟩ := ih (s.length + t.length) (by simp at hlen; omega) s t rfl
        by_cases hcd : c = d
        · subst hcd
          rw [editDistance_cons_self]
          exact hcons c
        · have hc := hcons c
          have hd := hright d
          rw [editDistance_cons_of_ne hcd]
          omega

theorem editDistance_cons_le (c : β) (s t : List β) :
    editDistance C (c :: s) t ≤ editDistance C s t + C.delete :=
  (editDistance_cons_le_and s t).1 c

theorem editDistance_cons_right_le (s : List β) (d : β) (t : List β) :
    editDistance C s (d :: t) ≤ editDistance C s t + C.insert := by
  rw [← editDistance_swap, ← editDistance_swap (C := C)]
  exact editDistance_cons_le d t s

theorem editDistance_le_cons (c : β) (s t : List β) :
    editDistance C s t ≤ editDistance C (c :: s) t + C.insert := by
  rw [← editDistance_swap, ← editDistance_swap (C := C)]
  exact (editDistance_cons_le_and t s).2 c

theorem editDistance_cons_cons_le (c d : β) (s t : List β) :
    editDistance C (c :: s) (d :: t) ≤ editDistance C s t + C.replace := by
  by_cases hcd : c = d
  · subst hcd
    rw [editDistance_cons_self]
    exact Nat.le_add_right _ _
  · rw [editDistance_cons_of_ne hcd]
    exact min_le_right _ _

@[simp] theorem editDistance_self (s : List β) : editDistance C s s = 0 := by
  induction s with
  | nil => simp
  | cons c s ih => rw [editDistance_cons_self, ih]

end Distance

section Edits

variable {s s' : List β} {k : Nat}

/-- The same character in front does not bring two strings nearer to another one. -/
theorem editDistance_cons_cons_le_add (h : ∀ t, editDistance C s t ≤ editDistance C s' t + k)
    (c : β) (t : List β) : editDistance C (c :: s) t ≤ editDistance C (c :: s') t + k := by
  induction t with
  | nil =>
    have hnil := h []
    simp only [editDistance_nil_right, List.length_cons, Nat.add_mul] at hnil ⊢
    omega
  | cons d t ih =>
    by_cases hcd : c = d
    · subst hcd
      rw [editDistance_cons_self, editDistance_cons_self]
      exact h t
    · have hdelete := h (d :: t)
      have hreplace := h t
      rw [editDistance_cons_of_ne hcd, editDistance_cons_of_ne hcd]
      omega

theorem editDistance_append_le_add (h : ∀ t, editDistance C s t ≤ editDistance C s' t + k)
    (u t : List β) : editDistance C (u ++ s) t ≤ editDistance C (u ++ s') t + k := by
  induction u generalizing t with
  | nil => exact h t
  | cons c u ih => exact editDistance_cons_cons_le_add (fun t => ih t) c t

/-- Another character in front. -/
theorem editDistance_cons_le_replace (c c' : β) (s t : List β) :
    editDistance C (c :: s) t ≤ editDistance C (c' :: s) t + C.replace := by
  induction t with
  | nil => simp
  | cons d t ih =>
    have hreplace := editDistance_cons_cons_le (C := C) c d s t
    by_cases hcd : c' = d
    · subst hcd
      rw [editDistance_cons_self]
      exact hreplace
    · have hdelete := editDistance_cons_le (C := C) c s (d :: t)
      have hinsert := editDistance_cons_right_le (C := C) (c :: s) d t
      rw [editDistance_cons_of_ne hcd]
      omega

/-- No script is cheaper than the distance. -/
theorem editDistance_le_of_script (key : α → β) {s t : List α} {n : Nat}
    (h : EditScript C s n t) : editDistance C (s.map key) (t.map key) ≤ n := by
  induction h with
  | refl s => rw [editDistance_self]
  | @insert u v t c n _ ih =>
    rw [List.map_append, List.map_cons] at ih
    rw [List.map_append]
    exact (editDistance_append_le_add (fun t => editDistance_le_cons (key c) _ t) _ _).trans
      (Nat.add_le_add_right ih _)
  | @delete u v t c n _ ih =>
    rw [List.map_append] at ih
    rw [List.map_append, List.map_cons]
    exact (editDistance_append_le_add (fun t => editDistance_cons_le (key c) _ t) _ _).trans
      (Nat.add_le_add_right ih _)
  | @replace u v t c c' n _ ih =>
    rw [List.map_append, List.map_cons] at ih ⊢
    exact (editDistance_append_le_add
      (fun t => editDistance_cons_le_replace (key c) (key c') _ t) _ _).trans
      (Nat.add_le_add_right ih _)

end Edits

namespace EditScript

variable {s t : List α} {n : Nat}

theorem cons (h : EditScript C s n t) (c : α) : EditScript C (c :: s) n (c :: t) := by
  induction h with
  | refl s => exact refl (c :: s)
  | @insert u v t d n _ ih => exact insert (u := c :: u) ih
  | @delete u v t d n _ ih => exact delete (u := c :: u) ih
  | @replace u v t d d' n _ ih => exact replace (u := c :: u) ih

theorem reverse (h : EditScript C s n t) : EditScript C s.reverse n t.reverse := by
  induction h with
  | refl s => exact refl s.reverse
  | @insert u v t d n _ ih =>
    rw [List.reverse_append, List.reverse_cons, List.append_assoc] at ih
    rw [List.reverse_append]
    exact insert ih
  | @delete u v t d n _ ih =>
    rw [List.reverse_append] at ih
    rw [List.reverse_append, List.reverse_cons, List.append_assoc]
    exact delete ih
  | @replace u v t d d' n _ ih =>
    rw [List.reverse_append, List.reverse_cons, List.append_assoc] at ih ⊢
    exact replace ih

theorem insertAll (t : List α) : EditScript C [] (t.length * C.insert) t := by
  induction t with
  | nil => exact Nat.zero_mul C.insert ▸ refl []
  | cons c t ih =>
    rw [List.length_cons, Nat.succ_mul]
    exact insert (u := []) (ih.cons c)

theorem deleteAll (s : List α) : EditScript C s (s.length * C.delete) [] := by
  induction s with
  | nil => exact Nat.zero_mul C.delete ▸ refl []
  | cons c s ih =>
    rw [List.length_cons, Nat.succ_mul]
    exact delete (u := []) ih

end EditScript

/-- Some script has the cost of the distance. -/
theorem exists_editScript (key : α → β) (s t : List α) :
    ∃ t', EditScript C s (editDistance C (s.map key) (t.map key)) t' ∧
      t'.map key = t.map key := by
  induction hlen : s.length + t.length using Nat.strong_induction_on generalizing s t with
  | _ n ih =>
    cases s with
    | nil =>
      rw [List.map_nil, editDistance_nil, List.length_map]
      exact ⟨t, EditScript.insertAll t, rfl⟩
    | cons c s =>
      cases t with
      | nil =>
        rw [List.map_nil, editDistance_nil_right, List.length_map]
        exact ⟨[], EditScript.deleteAll (c :: s), rfl⟩
      | cons d t =>
        simp only [List.length_cons] at hlen
        obtain ⟨t₁, hscript, hkey⟩ := ih (s.length + t.length) (by omega) s t rfl
        rw [List.map_cons, List.map_cons]
        by_cases hcd : key c = key d
        · rw [hcd, editDistance_cons_self]
          exact ⟨c :: t₁, hscript.cons c, by rw [List.map_cons, hkey, hcd]⟩
        obtain ⟨t₂, hscript₂, hkey₂⟩ := ih (s.length + (d :: t).length) (by simp; omega) s _ rfl
        obtain ⟨t₃, hscript₃, hkey₃⟩ := ih ((c :: s).length + t.length) (by simp; omega) _ t rfl
        rw [List.map_cons] at hscript₂ hkey₂ hscript₃
        rw [editDistance_cons_of_ne hcd]
        -- the cheapest of a deletion, an insertion and a replacement
        obtain hmin | hmin := min_choice
          (min (editDistance C (s.map key) (key d :: t.map key) + C.delete)
            (editDistance C (key c :: s.map key) (t.map key) + C.insert))
          (editDistance C (s.map key) (t.map key) + C.replace)
        · rw [hmin]
          obtain hmin' | hmin' := min_choice
            (editDistance C (s.map key) (key d :: t.map key) + C.delete)
            (editDistance C (key c :: s.map key) (t.map key) + C.insert)
          · rw [hmin']
            exact ⟨t₂, EditScript.delete (u := []) hscript₂, hkey₂⟩
          · rw [hmin']
            exact ⟨d :: t₃, EditScript.insert (u := []) (hscript₃.cons d),
              by rw [List.map_cons, hkey₃]⟩
        · rw [hmin]
          exact ⟨d :: t₁, EditScript.replace (u := []) (hscript.cons d),
            by rw [List.map_cons, hkey]⟩

/-- The distance is the least cost of the scripts. -/
theorem isLeast_editDistance (key : α → β) (s t : List α) :
    IsLeast {n | ∃ t', EditScript C s n t' ∧ t'.map key = t.map key}
      (editDistance C (s.map key) (t.map key)) := by
  refine ⟨exists_editScript key s t, ?_⟩
  rintro n ⟨t', hscript, hkey⟩
  rw [← hkey]
  exact editDistance_le_of_script key hscript

/-- From the right the distance is the same. -/
theorem editDistance_reverse (s t : List β) :
    editDistance C s.reverse t.reverse = editDistance C s t := by
  have hle : ∀ s t : List β, editDistance C s.reverse t.reverse ≤ editDistance C s t := by
    intro s t
    obtain ⟨t', hscript, hkey⟩ := exists_editScript (C := C) id s t
    rw [List.map_id, List.map_id] at hkey
    rw [List.map_id, List.map_id, hkey] at hscript
    have hdist := editDistance_le_of_script id hscript.reverse
    rwa [List.map_id, List.map_id] at hdist
  refine (hle s t).antisymm ?_
  have hback := hle s.reverse t.reverse
  rwa [List.reverse_reverse, List.reverse_reverse] at hback
