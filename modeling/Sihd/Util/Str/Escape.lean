import Mathlib.Algebra.Ring.Parity
import Sihd.Util.Splitter.Enclosures

/-!
# Runs of escapes

A character is escaped when the number of escapes right before it is odd.
`is_escaped_char` looks two characters back: for it a character is escaped when
there is exactly one escape before it, so that a run of three escapes does not
escape.
-/

namespace Sihd.Util.Str

/-- How many escapes are right before an index. -/
def escapeRun (s : List UInt8) (escape : UInt8) : Nat → Nat
  | 0 => 0
  | i + 1 => if s[i]? = some escape then escapeRun s escape i + 1 else 0

/-- The first index with a property, if there is one. -/
def FirstOf (P : Nat → Prop) : Option Nat → Prop
  | some i => P i ∧ ∀ j < i, ¬ P j
  | none => ∀ j, ¬ P j

/-- The first index with a property has a stronger one unless it is before all
those that have the stronger one. -/
theorem FirstOf.iff_of_imp {P Q : Nat → Prop} {r : Option Nat} (h : FirstOf Q r)
    (himp : ∀ j, P j → Q j) :
    FirstOf P r ↔ ∀ j, Q j → ¬ P j → ∃ k < j, P k := by
  cases r with
  | none =>
    exact iff_of_true (fun j hj => h j (himp j hj)) fun j hj => absurd hj (h j)
  | some i =>
    constructor
    · rintro ⟨hi, -⟩ j hj hnot
      have hle : i ≤ j := not_lt.mp fun hlt => h.2 j hlt hj
      have hne : i ≠ j := fun heq => hnot (heq ▸ hi)
      exact ⟨i, hle.lt_of_ne hne, hi⟩
    · intro hbefore
      refine ⟨?_, fun j hj hP => h.2 j hj (himp j hP)⟩
      by_contra hnot
      obtain ⟨k, hk, hP⟩ := hbefore i h.1 hnot
      exact h.2 k hk (himp k hP)

variable {s authorized : List UInt8} {escape c stop : UInt8} {i : Nat}

/-- The code takes a character for escaped after exactly one escape. -/
theorem isEscapedChar_iff : isEscapedChar s i escape = true ↔ escapeRun s escape i = 1 := by
  cases i with
  | zero => simp [isEscapedChar, escapeRun]
  | succ i =>
    cases i with
    | zero => simp [isEscapedChar, escapeRun]
    | succ i =>
      by_cases hfirst : s[i + 1]? = some escape <;> by_cases hsecond : s[i]? = some escape <;>
        simp [isEscapedChar, escapeRun, hfirst, hsecond]

theorem isEscapedChar_eq_false_iff :
    isEscapedChar s i escape = false ↔ escapeRun s escape i ≠ 1 := by
  rw [ne_eq, ← isEscapedChar_iff, Bool.not_eq_true]

theorem ne_one_of_even {n : Nat} (h : Even n) : n ≠ 1 := by
  rintro rfl
  exact absurd h (by decide)

/-! ## Searching for a character -/

/-- An occurrence of a character with an even number of escapes before it. -/
def IsUnescaped (s : List UInt8) (c escape : UInt8) (i : Nat) : Prop :=
  s[i]? = some c ∧ Even (escapeRun s escape i)

/-- An occurrence of a character with three escapes before it, or five, and so on. -/
def IsOddRun (s : List UInt8) (c escape : UInt8) (i : Nat) : Prop :=
  s[i]? = some c ∧ Odd (escapeRun s escape i) ∧ escapeRun s escape i ≠ 1

instance (s : List UInt8) (c escape : UInt8) (i : Nat) : Decidable (IsOddRun s c escape i) :=
  inferInstanceAs (Decidable (_ ∧ _ ∧ _))

theorem IsOddRun.lt_length (h : IsOddRun s c escape i) : i < s.length :=
  (List.getElem?_eq_some_iff.mp h.1).1

/-- What the code searches for. -/
theorem firstOf_findCharNotEscaped (s : List UInt8) (c escape : UInt8) :
    FirstOf (fun i => s[i]? = some c ∧ escapeRun s escape i ≠ 1)
      (findCharNotEscaped s c escape) := by
  have hcode : ∀ i, (s[i]? == some c && !isEscapedChar s i escape) = true ↔
      s[i]? = some c ∧ escapeRun s escape i ≠ 1 := by
    intro i
    rw [Bool.and_eq_true, beq_iff_eq, Bool.not_eq_true', isEscapedChar_eq_false_iff]
  cases h : findCharNotEscaped s c escape with
  | none =>
    rw [findCharNotEscaped, List.find?_eq_none] at h
    rintro i hi
    have hlt : i < s.length := (List.getElem?_eq_some_iff.mp hi.1).1
    exact h i (List.mem_range.mpr hlt) ((hcode i).mpr hi)
  | some i =>
    rw [findCharNotEscaped, List.find?_range_eq_some] at h
    refine ⟨(hcode i).mp h.1, fun j hj hfound => ?_⟩
    have hnot := h.2.2 j hj
    rw [(hcode j).mpr hfound] at hnot
    exact absurd hnot (by decide)

/-- The search finds the first occurrence that is not escaped. -/
def FindsUnescaped (s : List UInt8) (c escape : UInt8) : Prop :=
  FirstOf (IsUnescaped s c escape) (findCharNotEscaped s c escape)

theorem not_isUnescaped_iff (hne : escapeRun s escape i ≠ 1) (hc : s[i]? = some c) :
    ¬ IsUnescaped s c escape i ↔ IsOddRun s c escape i := by
  rw [IsUnescaped, IsOddRun, and_iff_right hc, and_iff_right hc, and_iff_left hne,
    Nat.not_even_iff_odd]

theorem findsUnescaped_iff (s : List UInt8) (c escape : UInt8) :
    FindsUnescaped s c escape ↔
      ∀ i, IsOddRun s c escape i → ∃ j < i, IsUnescaped s c escape j := by
  rw [FindsUnescaped, (firstOf_findCharNotEscaped s c escape).iff_of_imp
    fun i hi => ⟨hi.1, ne_one_of_even hi.2⟩]
  refine forall_congr' fun i => ⟨fun h hodd => ?_, fun h hi hnot => ?_⟩
  · exact h ⟨hodd.1, hodd.2.2⟩ ((not_isUnescaped_iff hodd.2.2 hodd.1).mpr hodd)
  · exact h ((not_isUnescaped_iff hi.2 hi.1).mp hnot)

/-! ## The end of an enclosure -/

/-- What `stopping_enclose_index` gives back for the first closing character. -/
def enclosureOf : Option Nat → Enclosure
  | some i => .closedAt (i + 1)
  | none => .neverEnds

/-- An opening character that is not escaped. -/
structure IsOpening (s authorized : List UInt8) (escape : UInt8) (i : Nat) (stop : UInt8) :
    Prop where
  char : ∃ c, s[i]? = some c ∧ authorized.contains c = true ∧ stoppingEncloseOf c = some stop
  even : Even (escapeRun s escape i)

/-- The enclosure ends at the first closing character that is not escaped. -/
def EndsUnescaped (s authorized : List UInt8) (escape : UInt8) (i : Nat) (stop : UInt8) : Prop :=
  ∃ r, stoppingEncloseIndex s i authorized escape = enclosureOf r ∧
    FirstOf (fun j => i < j ∧ IsUnescaped s stop escape j) r

theorem enclosureOf_injective : Function.Injective enclosureOf := by
  rintro (_ | i) (_ | j) h
  · rfl
  · cases h
  · cases h
  · cases h
    rfl

theorem isAnEscape_of_ne (hne : stop ≠ escape) : isAnEscape s i stop escape = false := by
  rw [isAnEscape, beq_false_of_ne hne.symm, Bool.false_and]

theorem IsOpening.opens (h : IsOpening s authorized escape i stop) (hne : stop ≠ escape) :
    Opens s authorized escape i stop :=
  ⟨h.char, isAnEscape_of_ne hne, isEscapedChar_eq_false_iff.mpr (ne_one_of_even h.even)⟩

theorem closes_iff (hne : stop ≠ escape) (j : Nat) :
    closes s stop escape j = true ↔ s[j]? = some stop ∧ escapeRun s escape j ≠ 1 := by
  rw [closes, isAnEscape_of_ne hne, Bool.not_false, Bool.and_true, Bool.and_eq_true, beq_iff_eq,
    Bool.not_eq_true', isEscapedChar_eq_false_iff]

/-- Where the code ends an enclosure. -/
theorem exists_firstOf_closes (h : Opens s authorized escape i stop) (hne : stop ≠ escape) :
    ∃ r, stoppingEncloseIndex s i authorized escape = enclosureOf r ∧
      FirstOf (fun j => i < j ∧ s[j]? = some stop ∧ escapeRun s escape j ≠ 1) r := by
  cases hindex : stoppingEncloseIndex s i authorized escape with
  | notOpened => exact absurd h (stoppingEncloseIndex_eq_notOpened_iff.mp hindex stop)
  | neverEnds =>
    obtain ⟨stop', hopens, hnot⟩ := stoppingEncloseIndex_eq_neverEnds_iff.mp hindex
    obtain rfl := h.unique hopens
    refine ⟨none, rfl, fun j hj => ?_⟩
    have hlt : j < s.length := (List.getElem?_eq_some_iff.mp hj.2.1).1
    have hfalse := hnot j hj.1 hlt
    rw [(closes_iff hne j).mpr hj.2] at hfalse
    exact absurd hfalse (by decide)
  | closedAt k =>
    obtain ⟨stop', j, hopens, hcloses, rfl⟩ := stoppingEncloseIndex_eq_closedAt_iff.mp hindex
    obtain rfl := h.unique hopens
    refine ⟨some j, rfl, ⟨hcloses.lt, (closes_iff hne j).mp hcloses.closes⟩, fun j' hj' hfound => ?_⟩
    have hfalse := hcloses.first j' hfound.1 hj'
    rw [(closes_iff hne j').mpr hfound.2] at hfalse
    exact absurd hfalse (by decide)

theorem endsUnescaped_iff (h : IsOpening s authorized escape i stop) (hne : stop ≠ escape) :
    EndsUnescaped s authorized escape i stop ↔
      ∀ j, i < j → IsOddRun s stop escape j →
        ∃ k < j, i < k ∧ IsUnescaped s stop escape k := by
  obtain ⟨r, hr, hfirst⟩ := exists_firstOf_closes (h.opens hne) hne
  have hends : EndsUnescaped s authorized escape i stop ↔
      FirstOf (fun j => i < j ∧ IsUnescaped s stop escape j) r := by
    rw [EndsUnescaped, hr]
    constructor
    · rintro ⟨r', heq, hfirst'⟩
      rwa [enclosureOf_injective heq]
    · exact fun hfirst' => ⟨r, rfl, hfirst'⟩
  rw [hends, hfirst.iff_of_imp fun j hj => ⟨hj.1, hj.2.1, ne_one_of_even hj.2.2⟩]
  refine forall_congr' fun j => ⟨fun hbefore hlt hodd => ?_, fun hbefore hj hnot => ?_⟩
  · refine hbefore ⟨hlt, hodd.1, hodd.2.2⟩ fun hfound => ?_
    exact (not_isUnescaped_iff hodd.2.2 hodd.1).mpr hodd hfound.2
  · refine hbefore hj.1 ((not_isUnescaped_iff hj.2.2 hj.2.1).mp fun hfound => ?_)
    exact hnot ⟨hj.1, hfound⟩

/-- Characters are escaped by an odd number of escapes, but where an occurrence
after three escapes or more is not behind one that is not escaped. -/
theorem escapes_iff (s : List UInt8) (escape : UInt8) :
    (∀ c, c ≠ escape → (FindsUnescaped s c escape ↔
      ∀ i, IsOddRun s c escape i → ∃ j < i, IsUnescaped s c escape j)) ∧
    ∀ authorized i stop, IsOpening s authorized escape i stop → stop ≠ escape →
      (EndsUnescaped s authorized escape i stop ↔
        ∀ j, i < j → IsOddRun s stop escape j → ∃ k < j, i < k ∧ IsUnescaped s stop escape k) :=
  ⟨fun c _ => findsUnescaped_iff s c escape, fun _ _ _ h hne => endsUnescaped_iff h hne⟩

/-- Two escapes before a character, and an enclosure without escapes. -/
theorem escapes_two : FindsUnescaped [92, 92, 63] 63 92 ∧
    EndsUnescaped [91, 97, 93] enclosesStart 92 0 93 := by
  have hfind : ∀ i < 3, ¬ IsOddRun [92, 92, 63] 63 92 i := by
    decide
  have hend : ∀ i < 3, ¬ IsOddRun [91, 97, 93] 93 92 i := by
    decide
  have hopening : IsOpening [91, 97, 93] enclosesStart 92 0 93 :=
    ⟨⟨91, rfl, by decide, by decide⟩, by decide⟩
  obtain ⟨hfinds, -⟩ := escapes_iff [92, 92, 63] 92
  obtain ⟨-, hends⟩ := escapes_iff [91, 97, 93] 92
  exact ⟨(hfinds 63 (by decide)).mpr fun i hi => absurd hi (hfind i hi.lt_length),
    (hends _ 0 93 hopening (by decide)).mpr fun i _ hi => absurd hi (hend i hi.lt_length)⟩

/-- After three escapes the character is found. -/
theorem not_findsUnescaped_three : ¬ FindsUnescaped [92, 92, 92, 63] 63 92 := by
  intro h
  have hfind : findCharNotEscaped [92, 92, 92, 63] 63 92 = some 3 := by
    decide
  rw [FindsUnescaped, hfind] at h
  exact absurd h.1.2 (by decide)

end Sihd.Util.Str
