import Sihd.Lib.Cut
import Sihd.Util.Str

/-!
# Trimming

`rtrim` and `ltrim` take the spaces off the ends of a view, `trim` off both. The index of
`rtrim` is decremented before a character is looked at, so it ends at 0 as well for a
first character that is kept as for one that is a space. Of spaces only `rtrim` keeps one,
which `ltrim` takes off again in `trim`.
-/

namespace Sihd.Util.Str

/-- The loop of `rtrim`. -/
def rtrimLoop (s : List UInt8) : Nat → Nat
  | 0 => 0
  | j + 1 => if isSpace (s.getD j 0) then rtrimLoop s j else j

def rtrim (s : List UInt8) : List UInt8 := s.take (rtrimLoop s s.length + 1)

/-- The loop of `ltrim`. -/
def ltrimLoop (s : List UInt8) (i : Nat) : Nat :=
  if i < s.length ∧ isSpace (s.getD i 0) = true then ltrimLoop s (i + 1) else i
termination_by s.length - i

def ltrim (s : List UInt8) : List UInt8 := s.drop (ltrimLoop s 0)

def trim (s : List UInt8) : List UInt8 := ltrim (rtrim s)

/-! ### What they are for -/

/-- A view without its longest run of spaces at the end. -/
def WithoutTrailing (s r : List UInt8) : Prop :=
  ∃ run, s = r ++ run ∧ (∀ c ∈ run, isSpace c = true) ∧ ∀ c ∈ r.getLast?, isSpace c = false

/-- A view without its longest run of spaces at the start. -/
def WithoutLeading (s r : List UInt8) : Prop :=
  ∃ run, s = run ++ r ∧ (∀ c ∈ run, isSpace c = true) ∧ ∀ c ∈ r.head?, isSpace c = false

structure TrimsExactly (s : List UInt8) : Prop where
  rtrim : WithoutTrailing s (rtrim s)
  ltrim : WithoutLeading s (ltrim s)
  comm : Str.ltrim (Str.rtrim s) = Str.rtrim (Str.ltrim s)
  trim : ∃ r, WithoutTrailing s r ∧ WithoutLeading r (trim s)
  idem : Str.trim (Str.trim s) = Str.trim s
  head : ∀ c ∈ (Str.trim s).head?, isSpace c = false
  last : ∀ c ∈ (Str.trim s).getLast?, isSpace c = false

/-! ### The loops -/

variable {s r : List UInt8}

theorem drop_ltrimLoop (s : List UInt8) (i : Nat) :
    s.drop (ltrimLoop s i) = (s.drop i).dropWhile isSpace := by
  fun_induction ltrimLoop s i with
  | case1 i h ih =>
    rw [ih, List.drop_eq_getElem_cons h.1, List.dropWhile_cons_of_pos]
    simpa [h.1] using h.2
  | case2 i h =>
    by_cases hi : i < s.length
    · have hc : isSpace (s.getD i 0) ≠ true := fun hc => h ⟨hi, hc⟩
      rw [List.drop_eq_getElem_cons hi, List.dropWhile_cons_of_neg]
      simpa [hi] using hc
    · rw [List.drop_of_length_le (Nat.le_of_not_lt hi), List.dropWhile_nil]

theorem ltrim_eq (s : List UInt8) : ltrim s = s.dropWhile isSpace := drop_ltrimLoop s 0

/-- What the loop of `rtrim` leaves of a part that is not all spaces. -/
theorem take_rtrimLoop {j : Nat} (hj : j ≤ s.length) (h : isAllSpaces (s.take j) = false) :
    s.take (rtrimLoop s j + 1) = (s.take j).rdropWhile isSpace := by
  induction j with
  | zero => cases h
  | succ j ih =>
    have hlt : j < s.length := hj
    have hget : s.getD j 0 = s[j] := by simp [hlt]
    rw [List.take_succ_eq_append_getElem hlt, isAllSpaces, List.all_append] at h
    rw [rtrimLoop, hget, List.take_succ_eq_append_getElem hlt]
    by_cases hc : isSpace s[j] = true
    · rw [List.all_cons, hc, List.all_nil, Bool.and_true, Bool.and_true] at h
      rw [if_pos hc, List.rdropWhile_concat_pos _ _ _ hc]
      exact ih (Nat.le_of_lt hlt) h
    · rw [if_neg hc, List.rdropWhile_concat_neg _ _ _ hc, List.take_succ_eq_append_getElem hlt]

/-- The loop of `rtrim` ends at 0 behind spaces. -/
theorem rtrimLoop_of_spaces {j : Nat} (hj : j ≤ s.length) (h : isAllSpaces s = true) :
    rtrimLoop s j = 0 := by
  induction j with
  | zero => rfl
  | succ j ih =>
    have hlt : j < s.length := hj
    have hget : s.getD j 0 = s[j] := by simp [hlt]
    have hc : isSpace s[j] = true := List.all_eq_true.mp h _ (List.getElem_mem hlt)
    rw [rtrimLoop, hget, if_pos hc, ih (Nat.le_of_lt hlt)]

theorem rtrim_eq (h : isAllSpaces s = false) : rtrim s = s.rdropWhile isSpace := by
  have htake := take_rtrimLoop (s := s) (Nat.le_refl _) (by rwa [List.take_length])
  rwa [List.take_length] at htake

/-- Of spaces `rtrim` keeps the first one. -/
theorem rtrim_of_spaces (h : isAllSpaces s = true) : rtrim s = s.take 1 := by
  rw [rtrim, rtrimLoop_of_spaces (Nat.le_refl _) h]

/-! ### The runs of spaces -/

theorem withoutTrailing_iff : WithoutTrailing s r ↔ r = s.rdropWhile isSpace := by
  constructor
  · rintro ⟨run, rfl, hrun, hlast⟩
    have hself : r.rdropWhile isSpace = r := by
      refine List.rdropWhile_eq_self_iff.mpr fun hne => ?_
      simp [hlast _ (List.getLast?_eq_getLast_of_ne_nil hne)]
    rw [List.rdropWhile, List.reverse_append, List.dropWhile_append_of_pos]
    · exact hself.symm
    · simpa using hrun
  · rintro rfl
    refine ⟨s.rtakeWhile isSpace, List.rdropWhile_append_rtakeWhile.symm,
      fun c hc => List.mem_rtakeWhile_imp hc, fun c hc => ?_⟩
    have hne : s.rdropWhile isSpace ≠ [] := by
      intro hnil
      rw [hnil] at hc
      cases hc
    have hlast := List.rdropWhile_last_not isSpace s hne
    rw [List.getLast?_eq_getLast_of_ne_nil hne, Option.mem_some] at hc
    simpa [hc] using hlast

theorem withoutLeading_iff : WithoutLeading s r ↔ r = s.dropWhile isSpace := by
  constructor
  · rintro ⟨run, rfl, hrun, hhead⟩
    rw [List.dropWhile_append_of_pos hrun]
    cases r with
    | nil => rfl
    | cons c r => rw [List.dropWhile_cons_of_neg (by simp [hhead c rfl])]
  · rintro rfl
    refine ⟨s.takeWhile isSpace, List.takeWhile_append_dropWhile.symm,
      fun c hc => List.mem_takeWhile_imp hc, fun c hc => ?_⟩
    have hne : s.dropWhile isSpace ≠ [] := by
      intro hnil
      rw [hnil] at hc
      cases hc
    have hhead := List.head_dropWhile_not isSpace hne
    rw [List.head?_eq_some_head hne, Option.mem_some] at hc
    simpa [hc] using hhead

/-! ### Both ends -/

/-- Spaces are taken off the end of what begins with another character. -/
theorem rdropWhile_dropWhile (s : List UInt8) :
    (s.rdropWhile isSpace).dropWhile isSpace = (s.dropWhile isSpace).rdropWhile isSpace := by
  obtain ⟨run, hs, hrun, hhead⟩ := withoutLeading_iff.mpr (Eq.refl (s.dropWhile isSpace))
  cases hrest : s.dropWhile isSpace with
  | nil =>
    have hspaces : ∀ c ∈ s, isSpace c = true := List.dropWhile_eq_nil_iff.mp hrest
    rw [List.rdropWhile_eq_nil_iff.mpr hspaces]
    rfl
  | cons c rest =>
    rw [hrest] at hs hhead
    have hc : isSpace c = false := hhead c rfl
    have hself : (c :: rest).rdropWhile isSpace = c :: rest.rdropWhile isSpace :=
      rdropWhile_append_cons hc [] rest
    have hkept : s.rdropWhile isSpace = run ++ c :: rest.rdropWhile isSpace := by
      rw [hs, rdropWhile_append_cons hc]
    rw [hkept, hself, List.dropWhile_append_of_pos hrun,
      List.dropWhile_cons_of_neg (by simp [hc])]

/-- `rtrim` is the loss of the trailing spaces where the view is empty or has another
character. -/
theorem rtrim_eq_iff : rtrim s = s.rdropWhile isSpace ↔ (isAllSpaces s = true → s = []) := by
  constructor
  · intro heq hspaces
    have hnil : s.rdropWhile isSpace = [] :=
      List.rdropWhile_eq_nil_iff.mpr (List.all_eq_true.mp hspaces)
    rw [rtrim_of_spaces hspaces, hnil, List.take_eq_nil_iff] at heq
    exact heq.resolve_left Nat.one_ne_zero
  · intro h
    cases hspaces : isAllSpaces s with
    | false => exact rtrim_eq hspaces
    | true =>
      rw [h hspaces]
      rfl

/-- A view that does not begin with a space is all spaces only when it is empty. -/
theorem eq_nil_of_isAllSpaces (hhead : ∀ c ∈ s.head?, isSpace c = false)
    (h : isAllSpaces s = true) : s = [] := by
  cases s with
  | nil => rfl
  | cons c rest =>
    have hc := List.all_eq_true.mp h c (by simp)
    rw [hhead c rfl] at hc
    cases hc

/-- Behind `ltrim` the first character is not a space, so `rtrim` is right on what is left. -/
theorem rtrim_ltrim (s : List UInt8) :
    rtrim (ltrim s) = (s.dropWhile isSpace).rdropWhile isSpace := by
  obtain ⟨_, _, _, hhead⟩ := withoutLeading_iff.mpr (ltrim_eq s)
  rw [rtrim_eq_iff.mpr (eq_nil_of_isAllSpaces hhead), ltrim_eq]

/-- The space that `rtrim` keeps is taken off by `ltrim`. -/
theorem trim_eq (s : List UInt8) : trim s = (s.rdropWhile isSpace).dropWhile isSpace := by
  rw [trim, ltrim_eq]
  cases hspaces : isAllSpaces s with
  | false => rw [rtrim_eq hspaces]
  | true =>
    have hall : ∀ c ∈ s, isSpace c = true := List.all_eq_true.mp hspaces
    rw [rtrim_of_spaces hspaces, List.rdropWhile_eq_nil_iff.mpr hall, List.dropWhile_nil,
      List.dropWhile_eq_nil_iff]
    exact fun c hc => hall c (List.mem_of_mem_take hc)

theorem ltrim_rtrim (s : List UInt8) : ltrim (rtrim s) = rtrim (ltrim s) := by
  rw [← trim, trim_eq, rdropWhile_dropWhile, rtrim_ltrim]

/-- What neither begins nor ends with a space is left as it is. -/
theorem trim_of_trimmed (hhead : ∀ c ∈ s.head?, isSpace c = false)
    (hlast : ∀ c ∈ s.getLast?, isSpace c = false) : trim s = s := by
  have hright : s = s.rdropWhile isSpace :=
    withoutTrailing_iff.mp ⟨[], by simp, by simp, hlast⟩
  have hleft : s = s.dropWhile isSpace := withoutLeading_iff.mp ⟨[], by simp, by simp, hhead⟩
  rw [trim_eq, ← hright, ← hleft]

theorem trimsExactly_iff (s : List UInt8) :
    TrimsExactly s ↔ (isAllSpaces s = true → s = []) := by
  constructor
  · intro h
    exact rtrim_eq_iff.mp (withoutTrailing_iff.mp h.rtrim)
  · intro h
    have hrtrim : rtrim s = s.rdropWhile isSpace := rtrim_eq_iff.mpr h
    have hleading : WithoutLeading (rtrim s) (trim s) := withoutLeading_iff.mpr (ltrim_eq _)
    have htrailing : WithoutTrailing (ltrim s) (trim s) := by
      rw [withoutTrailing_iff, trim, ltrim_rtrim, rtrim_ltrim, ltrim_eq]
    obtain ⟨_, _, _, hhead⟩ := hleading
    obtain ⟨_, _, _, hlast⟩ := htrailing
    exact {
      rtrim := withoutTrailing_iff.mpr hrtrim
      ltrim := withoutLeading_iff.mpr (ltrim_eq s)
      comm := ltrim_rtrim s
      trim := ⟨rtrim s, withoutTrailing_iff.mpr hrtrim, withoutLeading_iff.mpr (ltrim_eq _)⟩
      idem := trim_of_trimmed hhead hlast
      head := hhead
      last := hlast }

/-- Of `" "` the first space is kept. -/
theorem not_trimsExactly_space : ¬ TrimsExactly [32] := by
  intro h
  obtain ⟨c, hc, hspace⟩ : ∃ c, rtrim [32] = [c] ∧ isSpace c = true := ⟨32, rfl, rfl⟩
  obtain ⟨_, _, _, hlast⟩ := h.rtrim
  rw [hc] at hlast
  rw [hlast c rfl] at hspace
  cases hspace

end Sihd.Util.Str
