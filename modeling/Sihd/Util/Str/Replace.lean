import Mathlib.Order.Nat
import Sihd.Lib.Pieces
import Sihd.Util.Str

/-!
# Replacing the occurrences of a string

The occurrences of a pattern, from the left and without the ones that overlap,
leave the pieces of a string, and what replaces them joins these. `replace` goes
on one character after the end of an occurrence, so that it does not see an
occurrence that immediately follows another one.
-/

namespace Sihd.Util.Str

/-- The target in the place of each occurrence, from the left. -/
def substitute (pattern target : List UInt8) : List UInt8 → List UInt8
  | [] => []
  | c :: s =>
      if pattern ≠ [] ∧ pattern.isPrefixOf (c :: s) then
        target ++ substitute pattern target (s.drop (pattern.length - 1))
      else c :: substitute pattern target s
  termination_by s => s.length
  decreasing_by
    all_goals simp only [List.length_cons, List.length_drop]
    all_goals omega

/-- An occurrence immediately follows another one: the piece between them, which
is neither the first nor the last one, is empty. -/
def Adjacent (pattern s : List UInt8) : Prop := [] ∈ (pieces pattern s).tail.dropLast

instance (pattern s : List UInt8) : Decidable (Adjacent pattern s) :=
  inferInstanceAs (Decidable (_ ∈ _))

variable {s pattern target : List UInt8} {pos last i : Nat}

theorem substitute_eq (pattern target s : List UInt8) :
    substitute pattern target s = target.intercalate (pieces pattern s) := by
  induction hlen : s.length using Nat.strong_induction_on generalizing s with
  | _ n ih =>
    cases s with
    | nil => simp [substitute]
    | cons c s =>
      rw [substitute, pieces]
      split_ifs with h
      · rw [ih _ (by rw [← hlen, List.length_cons, List.length_drop]; omega) _ rfl]
        obtain ⟨p, l, hp⟩ := List.exists_cons_of_ne_nil
          (pieces_ne_nil pattern (s.drop (pattern.length - 1)))
        rw [hp, List.intercalate_cons_cons, List.nil_append]
      · rw [ih _ (by rw [← hlen, List.length_cons]; omega) _ rfl]
        obtain ⟨p, l, hp⟩ := List.exists_cons_of_ne_nil (pieces_ne_nil pattern s)
        rw [hp, List.modifyHead_cons]
        cases l with
        | nil => simp
        | cons q l => rw [List.intercalate_cons_cons, List.intercalate_cons_cons, List.cons_append,
            List.cons_append]

/-! ## Searching -/

theorem find?_eq_some_iff :
    find? s pattern pos = some i ↔
      pos ≤ i ∧ i ≤ s.length ∧ pattern <+: s.drop i ∧
        ∀ j, pos ≤ j → j < i → ¬ pattern <+: s.drop j := by
  rw [find?, List.find?_range'_eq_some, List.mem_range'_1, List.isPrefixOf_iff_prefix]
  simp only [Bool.not_eq_true', Bool.eq_false_iff, ne_eq, List.isPrefixOf_iff_prefix]
  constructor
  · rintro ⟨hoccurs, hmem, hbefore⟩
    exact ⟨hmem.1, by omega, hoccurs, hbefore⟩
  · rintro ⟨hle, hle', hoccurs, hbefore⟩
    exact ⟨hoccurs, ⟨hle, by omega⟩, hbefore⟩

theorem find?_eq_none_iff :
    find? s pattern pos = none ↔ ∀ i, pos ≤ i → i ≤ s.length → ¬ pattern <+: s.drop i := by
  rw [find?, List.find?_eq_none]
  simp only [List.mem_range'_1, List.isPrefixOf_iff_prefix]
  exact forall_congr' fun i => ⟨fun h hle hle' => h (by omega), fun h hmem => h hmem.1 (by omega)⟩

/-- Without an occurrence at an index the search goes on after it. -/
theorem find?_succ (h : ¬ pattern <+: s.drop pos) (hle : pos ≤ s.length) :
    find? s pattern (pos + 1) = find? s pattern pos := by
  have hrange : s.length + 1 - pos = (s.length + 1 - (pos + 1)) + 1 := by
    omega
  rw [find?, find?, hrange, List.range'_succ, List.find?_cons_of_neg]
  rwa [List.isPrefixOf_iff_prefix]

theorem drop_eq_append (h : pattern <+: s.drop i) :
    s.drop i = pattern ++ s.drop (i + pattern.length) := by
  rw [← List.drop_drop]
  exact (List.prefix_iff_eq_append.mp h).symm

/-- The first occurrence cuts off a piece. -/
theorem pieces_of_find?_eq_some (hne : pattern ≠ []) (h : find? s pattern last = some i) :
    pieces pattern (s.drop last) =
      (s.drop last).take (i - last) :: pieces pattern (s.drop (i + pattern.length)) := by
  obtain ⟨hle, -, hoccurs, hbefore⟩ := find?_eq_some_iff.mp h
  have hdrop : (s.drop last).drop (i - last) = s.drop i := by
    rw [List.drop_drop, Nat.add_sub_cancel' hle]
  have hsplit : s.drop last =
      (s.drop last).take (i - last) ++ (pattern ++ s.drop (i + pattern.length)) := by
    rw [← drop_eq_append hoccurs, ← hdrop, List.take_append_drop]
  conv_lhs => rw [hsplit]
  refine pieces_append_append hne _ fun u v huv hv hoccurs => ?_
  have hlen : u.length + v.length ≤ i - last := by
    rw [← List.length_append, ← huv]
    exact List.length_take_le _ _
  have hpos := List.length_pos_iff.mpr hv
  refine hbefore (last + u.length) (Nat.le_add_right _ _) (by omega) ?_
  rwa [← List.drop_drop, hsplit, huv, List.append_assoc, List.drop_left]

theorem pieces_of_find?_eq_none (h : find? s pattern last = none) :
    pieces pattern (s.drop last) = [s.drop last] := by
  refine pieces_of_not_prefix fun u v huv hv hoccurs => ?_
  have hpos := List.length_pos_iff.mpr hv
  have hlen : u.length + v.length = s.length - last := by
    rw [← List.length_append, ← huv, List.length_drop]
  refine find?_eq_none_iff.mp h (last + u.length) (Nat.le_add_right _ _) (by omega) ?_
  rwa [← List.drop_drop, huv, List.drop_left]

/-! ## The loop -/

/-- What the loop puts behind an occurrence that ends at `last`. -/
def replaceRest (s pattern target : List UInt8) (last : Nat) : List UInt8 :=
  match find? s pattern (last + 1) with
  | none => s.drop last
  | some i => replaceLoop s pattern target last i

theorem replaceLoop_eq (s pattern target : List UInt8) (last i : Nat) :
    replaceLoop s pattern target last i =
      (s.drop last).take (i - last) ++ (target ++
        replaceRest s pattern target (i + pattern.length)) := by
  rw [replaceLoop, List.append_assoc, replaceRest]
  congr 2
  split
  · rename_i hnone
    rw [hnone]
  · rename_i i' hsome
    rw [hsome]

theorem intercalate_cons_pieces (w t : List UInt8) :
    target.intercalate (w :: pieces pattern t) =
      w ++ (target ++ target.intercalate (pieces pattern t)) := by
  rw [List.intercalate_cons_of_ne_nil (pieces_ne_nil pattern t), List.append_assoc]

/-- Behind an occurrence the loop goes on as before. -/
theorem replaceLoop_eq_iff (hne : pattern ≠ []) (h : find? s pattern last = some i) :
    replaceLoop s pattern target last i = target.intercalate (pieces pattern (s.drop last)) ↔
      replaceRest s pattern target (i + pattern.length) =
        target.intercalate (pieces pattern (s.drop (i + pattern.length))) := by
  rw [replaceLoop_eq, pieces_of_find?_eq_some hne h, intercalate_cons_pieces,
    List.append_right_inj, List.append_right_inj]

theorem adjacent_iff (hne : pattern ≠ []) (h : find? s pattern last = some i) :
    Adjacent pattern (s.drop last) ↔
      [] ∈ (pieces pattern (s.drop (i + pattern.length))).dropLast := by
  rw [Adjacent, pieces_of_find?_eq_some hne h, List.tail_cons]

/-- An occurrence right behind another one is left as it is. -/
theorem head?_replaceRest (hne : pattern ≠ []) (h : pattern <+: s.drop last) :
    (replaceRest s pattern target last).head? = pattern.head? := by
  have hhead : (s.drop last).head? = pattern.head? := by
    rw [drop_eq_append h, List.head?_append_of_ne_nil _ hne]
  rw [replaceRest]
  split
  · exact hhead
  · rename_i i hsome
    obtain ⟨hle, -⟩ := find?_spec hsome
    have hdrop : s.drop last ≠ [] := by
      rw [drop_eq_append h]
      exact List.append_ne_nil_of_left_ne_nil hne _
    have htake : (s.drop last).take (i - last) ≠ [] := by
      rw [ne_eq, List.take_eq_nil_iff, not_or]
      exact ⟨by omega, hdrop⟩
    rw [replaceLoop_eq, List.head?_append_of_ne_nil _ htake, List.head?_take,
      if_neg (by omega), hhead]

/-- The loop puts the target in the place of the occurrences when none of them
immediately follows another one; and only then, when the target begins with
another character than the pattern. -/
theorem replaceLoop_spec (hne : pattern ≠ []) (h : find? s pattern last = some i) :
    (¬ Adjacent pattern (s.drop last) →
      replaceLoop s pattern target last i = target.intercalate (pieces pattern (s.drop last))) ∧
    (target ≠ [] → target.head? ≠ pattern.head? →
      replaceLoop s pattern target last i = target.intercalate (pieces pattern (s.drop last)) →
        ¬ Adjacent pattern (s.drop last)) := by
  induction hrest : s.length + 1 - i using Nat.strong_induction_on generalizing last i with
  | _ n ih =>
    obtain ⟨-, -, hoccurs, -⟩ := find?_eq_some_iff.mp h
    have hpos : 0 < pattern.length := List.length_pos_iff.mpr hne
    have hend : i + pattern.length ≤ s.length := by
      have hle := hoccurs.length_le
      rw [List.length_drop] at hle
      omega
    rw [replaceLoop_eq_iff hne h, adjacent_iff hne h]
    by_cases hnext : pattern <+: s.drop (i + pattern.length)
    · -- the next occurrence is not seen
      have hfind : find? s pattern (i + pattern.length) = some (i + pattern.length) :=
        find?_eq_some_iff.mpr ⟨le_rfl, hend, hnext, fun j hle hlt => absurd hlt (not_lt.mpr hle)⟩
      have hpieces := pieces_of_find?_eq_some hne hfind
      rw [Nat.sub_self, List.take_zero] at hpieces
      have hadjacent : [] ∈ (pieces pattern (s.drop (i + pattern.length))).dropLast := by
        rw [hpieces, List.dropLast_cons_of_ne_nil (pieces_ne_nil _ _)]
        exact List.mem_cons_self
      refine ⟨fun hnot => absurd hadjacent hnot, fun htarget hhead heq => ?_⟩
      have hfirst := @head?_replaceRest s pattern target _ hne hnext
      rw [heq, hpieces, intercalate_cons_pieces, List.nil_append,
        List.head?_append_of_ne_nil _ htarget] at hfirst
      exact absurd hfirst hhead
    · rw [replaceRest, find?_succ hnext hend]
      cases hfind : find? s pattern (i + pattern.length) with
      | none =>
        rw [pieces_of_find?_eq_none hfind]
        exact ⟨fun _ => by simp, fun _ _ _ => by simp⟩
      | some i' =>
        obtain ⟨hle, hle', hoccurs', -⟩ := find?_eq_some_iff.mp hfind
        have hlt : i + pattern.length < i' := by
          refine hle.lt_of_ne fun heq => hnext ?_
          rw [heq]
          exact hoccurs'
        have hpiece : (s.drop (i + pattern.length)).take (i' - (i + pattern.length)) ≠ [] := by
          rw [ne_eq, List.take_eq_nil_iff, List.drop_eq_nil_iff]
          have hle'' := hoccurs'.length_le
          rw [List.length_drop] at hle''
          omega
        have hadjacent : [] ∈ (pieces pattern (s.drop (i + pattern.length))).dropLast ↔
            Adjacent pattern (s.drop (i + pattern.length)) := by
          rw [adjacent_iff hne hfind, pieces_of_find?_eq_some hne hfind,
            List.dropLast_cons_of_ne_nil (pieces_ne_nil _ _), List.mem_cons,
            or_iff_right hpiece.symm]
        rw [hadjacent]
        exact ih (s.length + 1 - i') (by omega) hfind rfl

/-! ## The whole string -/

theorem replace_spec (hne : pattern ≠ []) :
    (¬ Adjacent pattern s → replace s pattern target = substitute pattern target s) ∧
    (target ≠ [] → target.head? ≠ pattern.head? →
      replace s pattern target = substitute pattern target s → ¬ Adjacent pattern s) := by
  rw [substitute_eq, replace]
  cases h : find? s pattern 0 with
  | none =>
    have hpieces := pieces_of_find?_eq_none h
    rw [List.drop_zero] at hpieces
    rw [Adjacent, hpieces]
    exact ⟨fun _ => by simp, fun _ _ _ => by simp⟩
  | some i => exact replaceLoop_spec hne h

/-- All occurrences of a pattern are replaced, whatever the target, exactly when
none of them immediately follows another one; for a target that begins with
another character than the pattern this is so by itself. -/
theorem replace_eq_iff (s : List UInt8) {pattern : List UInt8} (hne : pattern ≠ []) :
    ((∀ target, replace s pattern target = substitute pattern target s) ↔
      ¬ Adjacent pattern s) ∧
    ∀ target, target ≠ [] → target.head? ≠ pattern.head? →
      (replace s pattern target = substitute pattern target s ↔ ¬ Adjacent pattern s) := by
  have hother : ∀ target, target ≠ [] → target.head? ≠ pattern.head? →
      (replace s pattern target = substitute pattern target s ↔ ¬ Adjacent pattern s) :=
    fun target htarget hhead =>
      ⟨(replace_spec hne).2 htarget hhead, fun hnot => (replace_spec hne).1 hnot⟩
  refine ⟨⟨fun h => ?_, fun hnot target => (replace_spec hne).1 hnot⟩, hother⟩
  obtain ⟨c, p, rfl⟩ := List.exists_cons_of_ne_nil hne
  exact (hother [c + 1] (List.cons_ne_nil _ _) (by simp)).mp (h [c + 1])

/-- Two occurrences with a character between them. -/
theorem replace_eq_two :
    replace [97, 98, 97] [97] [99] = substitute [97] [99] [97, 98, 97] :=
  (replace_eq_iff [97, 98, 97] (List.cons_ne_nil 97 [])).1.mpr (by decide +kernel) [99]

/-- Two occurrences that follow one another: the second one stays. -/
theorem replace_ne_two : replace [97, 97] [97] [98] ≠ substitute [97] [98] [97, 97] := by
  decide +kernel

end Sihd.Util.Str
