import Mathlib.Data.List.Infix
import Mathlib.Data.List.Basic
import Mathlib.Data.List.DropRight
import Mathlib.Tactic.Common

/-!
# Cuts of a string

`cut d s` is what is before and after the first `d` of a string, `cutLast d s`
what is before and after the last one.
-/

variable {α : Type*} [DecidableEq α]

def cut (d : α) (s : List α) : Option (List α × List α) :=
  (s.idxOf? d).map fun i => (s.take i, s.drop (i + 1))

def cutLast (d : α) (s : List α) : Option (List α × List α) :=
  (cut d s.reverse).map fun p => (p.2.reverse, p.1.reverse)

/-- A text around its first delimiter. -/
theorem eq_of_idxOf?_eq_some {d : α} {text : List α} {i : Nat} (h : text.idxOf? d = some i) :
    text = text.take i ++ d :: text.drop (i + 1) ∧ d ∉ text.take i := by
  obtain ⟨hlt, hget, hbefore⟩ := List.idxOf?_eq_some_iff.mp h
  constructor
  · rw [← hget, List.getElem_cons_drop, List.take_append_drop]
  · intro hmem
    obtain ⟨j, hj, hjd⟩ := List.getElem_of_mem hmem
    rw [List.getElem_take] at hjd
    rw [List.length_take] at hj
    exact hbefore j (by omega) hjd

theorem cut_eq_none_iff {d : α} {s : List α} : cut d s = none ↔ d ∉ s := by
  rw [cut, Option.map_eq_none_iff, List.idxOf?_eq_none_iff]

theorem cut_append_cons {d : α} {w : List α} (h : d ∉ w) (s : List α) :
    cut d (w ++ d :: s) = some (w, s) := by
  induction w with
  | nil => simp [cut, List.idxOf?_cons]
  | cons c w ih =>
    rw [List.mem_cons, not_or] at h
    have ih := ih h.2
    rw [cut, Option.map_eq_some_iff] at ih
    obtain ⟨i, hi, heq⟩ := ih
    rw [Prod.mk.injEq] at heq
    rw [cut, List.cons_append, List.idxOf?_cons, if_neg (by simpa using Ne.symm h.1), hi]
    simp [heq.1, heq.2]

theorem cut_eq_some_iff {d : α} {s w t : List α} :
    cut d s = some (w, t) ↔ d ∉ w ∧ s = w ++ d :: t := by
  constructor
  · intro h
    rw [cut, Option.map_eq_some_iff] at h
    obtain ⟨i, hi, heq⟩ := h
    obtain ⟨hsplit, hnot⟩ := eq_of_idxOf?_eq_some hi
    obtain ⟨rfl, rfl⟩ := Prod.mk.inj heq
    exact ⟨hnot, hsplit⟩
  · rintro ⟨hw, rfl⟩
    exact cut_append_cons hw t

theorem cutLast_eq_none_iff {d : α} {s : List α} : cutLast d s = none ↔ d ∉ s := by
  rw [cutLast, Option.map_eq_none_iff, cut_eq_none_iff, List.mem_reverse]

theorem cutLast_eq_some_iff {d : α} {s w t : List α} :
    cutLast d s = some (w, t) ↔ d ∉ t ∧ s = w ++ d :: t := by
  rw [cutLast, Option.map_eq_some_iff]
  constructor
  · rintro ⟨⟨t', w'⟩, hcut, heq⟩
    obtain ⟨hnot, hsplit⟩ := cut_eq_some_iff.mp hcut
    obtain ⟨rfl, rfl⟩ := Prod.mk.inj heq
    refine ⟨by simpa using hnot, ?_⟩
    rw [← List.reverse_reverse s, hsplit, List.reverse_append, List.reverse_cons,
      List.append_assoc, List.singleton_append]
  · rintro ⟨hnot, rfl⟩
    refine ⟨(t.reverse, w.reverse), ?_, by simp⟩
    rw [List.reverse_append, List.reverse_cons, List.append_assoc, List.singleton_append]
    exact cut_append_cons (by simpa using hnot) _

theorem cutLast_append_cons {d : α} {t : List α} (h : d ∉ t) (w : List α) :
    cutLast d (w ++ d :: t) = some (w, t) := cutLast_eq_some_iff.mpr ⟨h, rfl⟩

/-!
## The lines of a text

`linesOf d put text` are the pieces of a text that end at a delimiter `d`, with
it if `put`, and what is after the last delimiter if it is not empty. A reader
of lines holds the beginning `w` of a line, without a delimiter: what it does
when it meets a delimiter and when the text ends are the two lemmas below.
-/

variable {α : Type*} [DecidableEq α]

def linesOf (d : α) (put : Bool) (text : List α) : List (List α) :=
  let pieces := text.splitOn d
  let last := pieces.getLast (List.splitOn_ne_nil d text)
  pieces.dropLast.map (· ++ if put then [d] else []) ++ if last = [] then [] else [last]

@[simp] theorem linesOf_nil (d : α) (put : Bool) : linesOf d put [] = [] := rfl

/-- A line that a delimiter ends. -/
theorem linesOf_append_cons {d : α} {w : List α} (h : d ∉ w) (put : Bool) (text : List α) :
    linesOf d put (w ++ d :: text) =
      (w ++ if put then [d] else []) :: linesOf d put text := by
  have hsplit := List.splitOn_append_cons_self_of_not_mem h text
  simp only [linesOf, hsplit]
  rw [List.dropLast_cons_of_ne_nil (List.splitOn_ne_nil d text),
    List.getLast_cons (List.splitOn_ne_nil d text), List.map_cons, List.cons_append]

/-- A line that the end of the text ends. -/
theorem linesOf_of_not_mem {d : α} {w : List α} (h : d ∉ w) (put : Bool) :
    linesOf d put w = if w = [] then [] else [w] := by
  simp only [linesOf, List.splitOn_eq_singleton h]
  rfl

/-! ## The run at the end of a string -/

/-- A run ends behind an element that is not of it. -/
theorem rdropWhile_append_cons {β : Type*} {p : β → Bool} {c : β} (h : p c = false)
    (l m : List β) : (l ++ c :: m).rdropWhile p = l ++ c :: m.rdropWhile p := by
  induction m using List.reverseRecOn with
  | nil => exact List.rdropWhile_concat_neg _ _ _ (by simp [h])
  | append_singleton m d ih =>
    rw [← List.cons_append, ← List.append_assoc]
    by_cases hd : p d = true
    · rw [List.rdropWhile_concat_pos _ _ _ hd, List.rdropWhile_concat_pos _ _ _ hd, ih]
    · rw [List.rdropWhile_concat_neg _ _ _ hd, List.rdropWhile_concat_neg _ _ _ hd,
        List.append_assoc, List.cons_append]

/-!
## Common prefixes

The common prefix of two lists is the longest list that both begin with. A longest common
prefix of some lists is known by its prefixes: they are those of all the lists.
-/

variable {α : Type*}

def commonPrefix [DecidableEq α] : List α → List α → List α
  | a :: l, b :: l' => if a = b then a :: commonPrefix l l' else []
  | _, _ => []

theorem prefix_commonPrefix_iff [DecidableEq α] {p l l' : List α} :
    p <+: commonPrefix l l' ↔ p <+: l ∧ p <+: l' := by
  induction l generalizing p l' with
  | nil => simpa [commonPrefix] using fun h => h ▸ List.nil_prefix
  | cons a l ih =>
    cases l' with
    | nil => simpa [commonPrefix] using fun h => h ▸ List.nil_prefix
    | cons b l' =>
      cases p with
      | nil => simp
      | cons c p =>
        by_cases hab : a = b
        · subst hab
          rw [commonPrefix, if_pos rfl, List.cons_prefix_cons, List.cons_prefix_cons,
            List.cons_prefix_cons, ih]
          exact and_and_left
        · simp only [commonPrefix, if_neg hab, List.cons_prefix_cons, List.prefix_nil]
          refine iff_of_false (List.cons_ne_nil c p) ?_
          rintro ⟨⟨rfl, -⟩, rfl, -⟩
          exact hab rfl

/-- A longest list that some lists begin with. -/
def IsLongestCommonPrefix (p : List α) (ls : List (List α)) : Prop :=
  ∀ q, q <+: p ↔ ∀ l ∈ ls, q <+: l

theorem IsLongestCommonPrefix.eq {p p' : List α} {ls : List (List α)}
    (h : IsLongestCommonPrefix p ls) (h' : IsLongestCommonPrefix p' ls) : p = p' := by
  have hle : p <+: p' := (h' p).mpr ((h p).mp List.prefix_rfl)
  have hge : p' <+: p := (h p').mpr ((h' p').mp List.prefix_rfl)
  exact hle.eq_of_length (le_antisymm hle.length_le hge.length_le)

/-- The common prefix of some lists is found one list after the other. -/
theorem isLongestCommonPrefix_foldl [DecidableEq α] (l : List α) (ls : List (List α)) :
    IsLongestCommonPrefix (ls.foldl commonPrefix l) (l :: ls) := by
  intro q
  induction ls generalizing l with
  | nil => simp
  | cons l' ls ih =>
    rw [List.foldl_cons, ih, List.forall_mem_cons, List.forall_mem_cons, List.forall_mem_cons,
      prefix_commonPrefix_iff, and_assoc]
