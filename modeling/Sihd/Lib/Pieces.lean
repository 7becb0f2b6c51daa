import Mathlib.Algebra.GroupWithZero.Nat
import Mathlib.Data.List.Basic
import Mathlib.Tactic.Common

/-!
# The pieces of a string

`pieces D s` are what the occurrences of a delimiter `D` leave of a string, from
the left and empty pieces included; an empty delimiter leaves the whole string.
-/

variable {α : Type*} [DecidableEq α]

def pieces (D : List α) : List α → List (List α)
  | [] => [[]]
  | c :: s =>
      if D ≠ [] ∧ D.isPrefixOf (c :: s) then [] :: pieces D (s.drop (D.length - 1))
      else (pieces D s).modifyHead (c :: ·)
  termination_by s => s.length
  decreasing_by
    all_goals simp only [List.length_cons, List.length_drop]
    all_goals omega

@[simp] theorem pieces_nil (D : List α) : pieces D [] = [[]] := by rw [pieces]

theorem pieces_append {D : List α} (h : D ≠ []) (s : List α) :
    pieces D (D ++ s) = [] :: pieces D s := by
  cases D with
  | nil => exact absurd rfl h
  | cons d D =>
    rw [List.cons_append, pieces, if_pos ⟨h, by simp⟩]
    simp

theorem pieces_cons {D s : List α} {c : α} (h : ¬ D <+: c :: s) :
    pieces D (c :: s) = (pieces D s).modifyHead (c :: ·) := by
  rw [pieces, if_neg (by simp [h])]

theorem pieces_ne_nil (D s : List α) : pieces D s ≠ [] := by
  fun_induction pieces D s with
  | case1 => exact List.cons_ne_nil _ _
  | case2 => exact List.cons_ne_nil _ _
  | case3 c s h ih =>
    rw [ne_eq, List.modifyHead_eq_nil_iff]
    exact ih

/-- A piece that an occurrence of the delimiter ends. -/
theorem pieces_append_append {D w : List α} (h : D ≠ []) (s : List α)
    (hw : ∀ u v, w = u ++ v → v ≠ [] → ¬ D <+: v ++ (D ++ s)) :
    pieces D (w ++ (D ++ s)) = w :: pieces D s := by
  induction w with
  | nil => exact pieces_append h s
  | cons c w ih =>
    have hc := hw [] (c :: w) rfl (List.cons_ne_nil c w)
    have ih := ih fun u v heq hv => hw (c :: u) v (by rw [heq, List.cons_append]) hv
    rw [List.cons_append] at hc ⊢
    rw [pieces_cons hc, ih]
    rfl

/-- The last piece. -/
theorem pieces_of_not_prefix {D w : List α} (hw : ∀ u v, w = u ++ v → v ≠ [] → ¬ D <+: v) :
    pieces D w = [w] := by
  induction w with
  | nil => exact pieces_nil D
  | cons c w ih =>
    have hc := hw [] (c :: w) rfl (List.cons_ne_nil c w)
    have ih := ih fun u v heq hv => hw (c :: u) v (by rw [heq, List.cons_append]) hv
    rw [pieces_cons hc, ih]
    rfl

theorem prefix_of_pieces_eq_cons {D s w : List α} {l : List (List α)}
    (h : pieces D s = w :: l) : w <+: s := by
  fun_induction pieces D s generalizing w l with
  | case1 =>
    obtain ⟨rfl, -⟩ := List.cons.inj h
    exact List.prefix_rfl
  | case2 c s hD ih =>
    obtain ⟨rfl, -⟩ := List.cons.inj h
    exact List.nil_prefix
  | case3 c s hD ih =>
    cases hp : pieces D s with
    | nil => exact absurd hp (pieces_ne_nil D s)
    | cons w' l' =>
      rw [hp, List.modifyHead_cons] at h
      obtain ⟨rfl, -⟩ := List.cons.inj h
      exact List.cons_prefix_cons.mpr ⟨rfl, ih hp⟩

theorem infix_of_mem_pieces {D s w : List α} (h : w ∈ pieces D s) : w <:+: s := by
  fun_induction pieces D s with
  | case1 =>
    obtain rfl := List.mem_singleton.mp h
    exact List.infix_rfl
  | case2 c s hD ih =>
    rcases List.mem_cons.mp h with rfl | h
    · exact List.nil_infix
    · exact (ih h).trans ((List.drop_suffix _ _).isInfix.trans (List.suffix_cons c s).isInfix)
  | case3 c s hD ih =>
    cases hp : pieces D s with
    | nil => exact absurd hp (pieces_ne_nil D s)
    | cons w' l =>
      rw [hp, List.modifyHead_cons] at h
      rcases List.mem_cons.mp h with rfl | h
      · exact (List.cons_prefix_cons.mpr ⟨rfl, prefix_of_pieces_eq_cons hp⟩).isInfix
      · exact (ih (by rw [hp]; exact List.mem_cons_of_mem _ h)).trans
          (List.suffix_cons c s).isInfix

/-- No piece has the delimiter in it. -/
theorem not_infix_of_mem_pieces {D s w : List α} (hne : D ≠ []) (h : w ∈ pieces D s) :
    ¬ D <:+: w := by
  fun_induction pieces D s generalizing w with
  | case1 =>
    rw [List.mem_singleton.mp h, List.infix_nil]
    exact hne
  | case2 c s hD ih =>
    rcases List.mem_cons.mp h with rfl | h
    · rw [List.infix_nil]
      exact hne
    · exact ih h
  | case3 c s hD ih =>
    have hpre : ¬ D <+: c :: s := by simpa [hne] using hD
    cases hp : pieces D s with
    | nil => exact absurd hp (pieces_ne_nil D s)
    | cons w' l =>
      rw [hp, List.modifyHead_cons] at h
      rcases List.mem_cons.mp h with rfl | h
      · rw [List.infix_cons_iff, not_or]
        refine ⟨fun hD' => hpre (hD'.trans ?_), ih (by rw [hp]; exact List.mem_cons_self)⟩
        exact List.cons_prefix_cons.mpr ⟨rfl, prefix_of_pieces_eq_cons hp⟩
      · exact ih (by rw [hp]; exact List.mem_cons_of_mem _ h)

section Char

variable {d : α} {w : List α}

omit [DecidableEq α] in
theorem not_singleton_prefix {v : List α} (hv : v ≠ []) (h : d ∉ v) (s : List α) :
    ¬ [d] <+: v ++ s := by
  cases v with
  | nil => exact absurd rfl hv
  | cons c v =>
    rw [List.cons_append, List.singleton_prefix_cons_iff]
    rintro rfl
    exact h List.mem_cons_self

omit [DecidableEq α] in
theorem not_mem_intercalate {D : List α} {l : List (List α)} (hD : d ∉ D)
    (h : ∀ w ∈ l, d ∉ w) : d ∉ D.intercalate l := by
  induction l with
  | nil => exact List.not_mem_nil
  | cons w l ih =>
    rw [List.forall_mem_cons] at h
    cases l with
    | nil => simpa using h.1
    | cons w' l =>
      rw [List.intercalate_cons_cons, List.mem_append, List.mem_append, not_or, not_or]
      exact ⟨⟨h.1, hD⟩, ih h.2⟩

theorem pieces_char_append_cons (h : d ∉ w) (s : List α) :
    pieces [d] (w ++ d :: s) = w :: pieces [d] s := by
  refine pieces_append_append (List.cons_ne_nil d []) s fun u v heq hv => ?_
  refine not_singleton_prefix hv (fun hd => h ?_) _
  rw [heq]
  exact List.mem_append_right u hd

theorem pieces_char_of_not_mem (h : d ∉ w) : pieces [d] w = [w] := by
  refine pieces_of_not_prefix fun u v heq hv => ?_
  have hnot := not_singleton_prefix hv (fun hd => h (heq ▸ List.mem_append_right u hd)) []
  rwa [List.append_nil] at hnot

/-- The pieces of strings that are joined by a character. -/
theorem pieces_char_intercalate {l : List (List α)} (hne : l ≠ []) (h : ∀ w ∈ l, d ∉ w) :
    pieces [d] ([d].intercalate l) = l := by
  induction l with
  | nil => exact absurd rfl hne
  | cons w l ih =>
    rw [List.forall_mem_cons] at h
    cases l with
    | nil =>
      rw [List.intercalate_singleton]
      exact pieces_char_of_not_mem h.1
    | cons w' l =>
      rw [List.intercalate_cons_cons, List.append_assoc, List.singleton_append,
        pieces_char_append_cons h.1, ih (List.cons_ne_nil w' l) h.2]

theorem pieces_char_cons_self (d : α) (s : List α) :
    pieces [d] (d :: s) = [] :: pieces [d] s := pieces_append (List.cons_ne_nil d []) s

theorem pieces_char_cons {c : α} (h : c ≠ d) (s : List α) :
    pieces [d] (c :: s) = (pieces [d] s).modifyHead (c :: ·) := by
  refine pieces_cons ?_
  rw [List.singleton_prefix_cons_iff]
  exact Ne.symm h

/-- The delimiter parts the pieces of what is before it from those of what is after it. -/
theorem pieces_append_cons_self (d : α) (s t : List α) :
    pieces [d] (s ++ d :: t) = pieces [d] s ++ pieces [d] t := by
  induction s with
  | nil => simp [pieces_char_cons_self]
  | cons c s ih =>
    by_cases hc : c = d
    · rw [hc, List.cons_append, pieces_char_cons_self, pieces_char_cons_self, ih,
        List.cons_append]
    · rw [List.cons_append, pieces_char_cons hc, pieces_char_cons hc, ih]
      cases hp : pieces [d] s with
      | nil => exact absurd hp (pieces_ne_nil [d] s)
      | cons w l => simp

/-- Each piece but the last takes a delimiter. -/
theorem sum_length_pieces (d : α) (s : List α) :
    ((pieces [d] s).map fun w => w.length + 1).sum = s.length + 1 := by
  induction s with
  | nil => simp
  | cons c s ih =>
    by_cases hc : c = d
    · rw [hc, pieces_char_cons_self, List.map_cons, List.sum_cons, ih, List.length_nil,
        List.length_cons]
      omega
    · rw [pieces_char_cons hc]
      cases hp : pieces [d] s with
      | nil => exact absurd hp (pieces_ne_nil [d] s)
      | cons w l =>
        rw [hp, List.map_cons, List.sum_cons] at ih
        rw [List.modifyHead_cons, List.map_cons, List.sum_cons, List.length_cons,
          List.length_cons]
        omega

theorem not_mem_of_mem_pieces {s : List α} (h : w ∈ pieces [d] s) : d ∉ w := by
  intro hd
  obtain ⟨u, v, rfl⟩ := List.append_of_mem hd
  exact not_infix_of_mem_pieces (List.cons_ne_nil d []) h ⟨u, v, by simp⟩

/-- The pieces are the string without the character that it is cut at. -/
theorem flatten_pieces (d : α) (s : List α) :
    (pieces [d] s).flatten = s.filter (· ≠ d) := by
  induction s with
  | nil => simp
  | cons c s ih =>
    by_cases hc : c = d
    · rw [hc, pieces_char_cons_self, List.flatten_cons, List.nil_append, ih,
        List.filter_cons_of_neg (by simp)]
    · rw [pieces_char_cons hc, List.filter_cons_of_pos (by simpa using hc), ← ih]
      cases hp : pieces [d] s with
      | nil => exact absurd hp (pieces_ne_nil [d] s)
      | cons w' l => rfl

end Char

section Within

variable {β : Type*} {d : β} {w n m : Nat} {s t : List β}

/-- The pieces of a string are no longer than `w`, and the last one is no longer
than `n`. -/
structure PiecesWithin (d : β) (w n : Nat) (s : List β) : Prop where
  infix_le : ∀ u, u <:+: s → d ∉ u → u.length ≤ w
  suffix_le : ∀ u, u <:+ s → d ∉ u → u.length ≤ n

namespace PiecesWithin

theorem nil (d : β) (w n : Nat) : PiecesWithin d w n [] := by
  constructor
  · intro u hu _
    rw [List.infix_nil.mp hu]
    exact Nat.zero_le w
  · intro u hu _
    rw [List.suffix_nil.mp hu]
    exact Nat.zero_le n

theorem concat (h : PiecesWithin d w n s) (hle : n + 1 ≤ w) (c : β) :
    PiecesWithin d w (n + 1) (s ++ [c]) := by
  have hsuffix : ∀ u, u <:+ s ++ [c] → d ∉ u → u.length ≤ n + 1 := by
    intro u hu hd
    obtain rfl | ⟨v, rfl, hv⟩ := List.suffix_concat_iff.mp hu
    · exact Nat.zero_le _
    · have hlen := h.suffix_le v hv fun hmem => hd (List.mem_append_left _ hmem)
      rw [List.length_append]
      exact Nat.add_le_add_right hlen 1
  refine ⟨fun u hu hd => ?_, hsuffix⟩
  obtain hu | hu := List.infix_concat_iff.mp hu
  · exact Nat.le_trans (hsuffix u hu hd) hle
  · exact h.infix_le u hu hd

theorem append (h : PiecesWithin d w n s) (hle : n + t.length ≤ w) :
    PiecesWithin d w (n + t.length) (s ++ t) := by
  induction t generalizing s n with
  | nil => rwa [List.append_nil]
  | cons c t ih =>
    rw [List.length_cons] at hle ⊢
    have hconcat := ih (h.concat (by omega) c) (by omega)
    rwa [List.append_assoc, List.singleton_append, Nat.add_right_comm] at hconcat

/-- The delimiter begins a new piece. -/
theorem concat_self (h : PiecesWithin d w n s) : PiecesWithin d w 0 (s ++ [d]) := by
  have hnil : ∀ u, u <:+ s ++ [d] → d ∉ u → u = [] := by
    intro u hu hd
    obtain rfl | ⟨v, rfl, -⟩ := List.suffix_concat_iff.mp hu
    · rfl
    · exact absurd (List.mem_append_right v (List.mem_singleton_self d)) hd
  constructor
  · intro u hu hd
    obtain hu | hu := List.infix_concat_iff.mp hu
    · rw [hnil u hu hd]
      exact Nat.zero_le w
    · exact h.infix_le u hu hd
  · intro u hu hd
    rw [hnil u hu hd]
    exact Nat.le_refl 0

theorem length_le_of_mem [DecidableEq β] (h : PiecesWithin d w n s) {u : List β} (hu : u ∈ pieces [d] s) :
    u.length ≤ w :=
  h.infix_le u (infix_of_mem_pieces hu) (not_mem_of_mem_pieces hu)

end PiecesWithin

end Within

/-!
## Delimiters of two characters

`cutString D s` is what is before and after the first occurrence of a delimiter.
Texts that are joined by a delimiter of two different characters, and do not
have it in them, are its pieces again, and the first two delimiters in a row are
the ones behind the texts.
-/

variable {α : Type*} [DecidableEq α]

def cutString (D : List α) : List α → Option (List α × List α)
  | [] => if D = [] then some ([], []) else none
  | c :: s =>
      if D.isPrefixOf (c :: s) then some ([], (c :: s).drop D.length)
      else (cutString D s).map fun p => (c :: p.1, p.2)

theorem cutString_append_self {D : List α} (h : D ≠ []) (s : List α) :
    cutString D (D ++ s) = some ([], s) := by
  cases D with
  | nil => exact absurd rfl h
  | cons d D =>
    rw [List.cons_append, cutString, if_pos (by simp), ← List.cons_append, List.drop_left]

theorem cutString_cons {D s : List α} {c : α} (h : ¬ D <+: c :: s) :
    cutString D (c :: s) = (cutString D s).map fun p => (c :: p.1, p.2) := by
  rw [cutString, if_neg (by rwa [List.isPrefixOf_iff_prefix])]

/-- The delimiter is looked for behind a text at no place of which it occurs. -/
theorem cutString_append {D w r : List α}
    (hw : ∀ u v, w = u ++ v → v ≠ [] → ¬ D <+: v ++ r) :
    cutString D (w ++ r) = (cutString D r).map fun p => (w ++ p.1, p.2) := by
  induction w with
  | nil => simp
  | cons c w ih =>
    have ih := ih fun u v heq hv => hw (c :: u) v (by rw [heq, List.cons_append]) hv
    have hc := hw [] (c :: w) rfl (List.cons_ne_nil c w)
    rw [List.cons_append] at hc ⊢
    rw [cutString_cons hc, ih, Option.map_map]
    rfl

section Pair

variable {a b : α} {w : List α}

end Pair
