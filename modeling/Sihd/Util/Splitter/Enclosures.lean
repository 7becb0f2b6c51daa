import Sihd.Util.Splitter.Method

/-!
# What a string that goes on changes

A delimiter is found in the first characters of a string as in the whole one,
unless they end in it (`compareIn`). So is the end of an enclosure, but for an
enclosure that does not end in the first characters, and for one that ends with
the last of them when the next character can escape it.
-/

namespace Sihd.Util.Str

/-- `strncmp` on the first characters of a string: `none` when they end in `t`. -/
def compareIn : List UInt8 → List UInt8 → Option Bool
  | _, [] => some true
  | [], _ :: _ => none
  | b :: s, c :: t =>
      if b = c then if c = 0 then some true else compareIn s t
      else some false

theorem strncmpEqual_append {v t : List UInt8} {b : Bool} (h : compareIn v t = some b)
    (r : List UInt8) : strncmpEqual (v ++ r) t = b := by
  induction v generalizing t with
  | nil =>
    cases t with
    | nil =>
      cases h
      rfl
    | cons c t => cases h
  | cons a v ih =>
    cases t with
    | nil =>
      cases h
      rfl
    | cons c t =>
      rw [compareIn] at h
      split at h
      · rename_i hac
        subst hac
        split at h
        · rename_i hzero
          cases h
          simp [strncmpEqual, hzero]
        · rename_i hzero
          simp [strncmpEqual, hzero, ih h]
      · rename_i hac
        cases h
        simp [strncmpEqual, hac]

/-- A string that ends in the delimiter can go on with the rest of it. -/
theorem exists_strncmpEqual_append {v t : List UInt8} (h : compareIn v t = none) :
    (∃ r, strncmpEqual (v ++ r) t = true) ∧ (∃ r, strncmpEqual (v ++ r) t = false) ∧
      v.length < t.length := by
  induction v generalizing t with
  | nil =>
    cases t with
    | nil => cases h
    | cons c t =>
      refine ⟨⟨c :: t, ?_⟩, ⟨[c + 1], ?_⟩, Nat.succ_pos _⟩
      · have hself : ∀ l : List UInt8, strncmpEqual l l = true := by
          intro l
          induction l with
          | nil => rfl
          | cons c l ih => simp [strncmpEqual, ih]
        exact hself _
      · simp [strncmpEqual]
  | cons a v ih =>
    cases t with
    | nil => cases h
    | cons c t =>
      rw [compareIn] at h
      split at h
      · rename_i hac
        subst hac
        split at h
        · cases h
        · rename_i hzero
          obtain ⟨⟨r, hr⟩, ⟨r', hr'⟩, hlt⟩ := ih h
          refine ⟨⟨r, ?_⟩, ⟨r', ?_⟩, Nat.succ_lt_succ hlt⟩
          · simp [strncmpEqual, hr]
          · simp [strncmpEqual, hzero, hr']
      · cases h

/-! ## Enclosures -/

variable {s v t authorized : List UInt8} {escape stop stop' c : UInt8} {i j k : Nat}

/-- A character that closes an enclosure. -/
def closes (s : List UInt8) (stop escape : UInt8) (j : Nat) : Bool :=
  s[j]? == some stop && !isAnEscape s j stop escape && !isEscapedChar s j escape

/-- An enclosure that `stop` closes opens at an index. -/
structure Opens (s authorized : List UInt8) (escape : UInt8) (i : Nat) (stop : UInt8) : Prop where
  char : ∃ c, s[i]? = some c ∧ authorized.contains c = true ∧ stoppingEncloseOf c = some stop
  not_isAnEscape : isAnEscape s i stop escape = false
  not_isEscapedChar : isEscapedChar s i escape = false

theorem Opens.unique (h : Opens s authorized escape i stop)
    (h' : Opens s authorized escape i stop') : stop = stop' := by
  obtain ⟨c, hc, -, hstop⟩ := h.char
  obtain ⟨c', hc', -, hstop'⟩ := h'.char
  cases hc.symm.trans hc'
  cases hstop.symm.trans hstop'
  rfl

theorem Opens.stop_ne_zero (h : Opens s authorized escape i stop) : stop ≠ 0 := by
  obtain ⟨c, -, -, hstop⟩ := h.char
  obtain ⟨n, -, hn⟩ := Option.bind_eq_some_iff.mp hstop
  rintro rfl
  exact absurd (List.mem_of_getElem? hn) (by decide)

theorem stoppingEncloseIndex_of_opens (h : Opens s authorized escape i stop) :
    stoppingEncloseIndex s i authorized escape =
      match (List.range' (i + 1) (s.length - (i + 1))).find? (closes s stop escape) with
      | none => .neverEnds
      | some j => .closedAt (j + 1) := by
  obtain ⟨⟨c, hc, hauthorized, hstop⟩, hnot, hnot'⟩ := h
  unfold stoppingEncloseIndex
  rw [hc]
  dsimp only
  rw [if_neg (by simpa using hauthorized), hstop]
  dsimp only
  rw [if_neg (by simp [hnot, hnot'])]
  rfl

theorem stoppingEncloseIndex_of_not_opens (h : ∀ stop, ¬ Opens s authorized escape i stop) :
    stoppingEncloseIndex s i authorized escape = .notOpened := by
  unfold stoppingEncloseIndex
  split
  · rfl
  · rename_i c hc
    split
    · rfl
    · rename_i hauthorized
      split
      · rfl
      · rename_i stop hstop
        refine if_pos ?_
        by_contra hnot
        simp only [Bool.or_eq_true, not_or, Bool.not_eq_true] at hnot
        exact h stop ⟨⟨c, hc, by simpa using hauthorized, hstop⟩, hnot.1, hnot.2⟩

theorem stoppingEncloseIndex_eq_notOpened_iff :
    stoppingEncloseIndex s i authorized escape = .notOpened ↔
      ∀ stop, ¬ Opens s authorized escape i stop := by
  refine ⟨fun h stop hopens => ?_, stoppingEncloseIndex_of_not_opens⟩
  rw [stoppingEncloseIndex_of_opens hopens] at h
  split at h <;> cases h

theorem stoppingEncloseIndex_eq_neverEnds_iff :
    stoppingEncloseIndex s i authorized escape = .neverEnds ↔
      ∃ stop, Opens s authorized escape i stop ∧
        ∀ j, i < j → j < s.length → closes s stop escape j = false := by
  constructor
  · intro h
    by_cases hopens : ∃ stop, Opens s authorized escape i stop
    · obtain ⟨stop, hopens⟩ := hopens
      rw [stoppingEncloseIndex_of_opens hopens] at h
      split at h
      · rename_i hnone
        rw [List.find?_eq_none] at hnone
        refine ⟨stop, hopens, fun j hij hj => ?_⟩
        simpa using hnone j (List.mem_range'_1.mpr (by omega))
      · cases h
    · rw [stoppingEncloseIndex_of_not_opens fun stop hstop => hopens ⟨stop, hstop⟩] at h
      cases h
  · rintro ⟨stop, hopens, hnot⟩
    have hnone : (List.range' (i + 1) (s.length - (i + 1))).find? (closes s stop escape) =
        none := by
      rw [List.find?_eq_none]
      intro j hj
      rw [List.mem_range'_1] at hj
      simp [hnot j (by omega) (by omega)]
    rw [stoppingEncloseIndex_of_opens hopens, hnone]

/-- The first index where an enclosure closes. -/
structure ClosesAt (s : List UInt8) (stop escape : UInt8) (i j : Nat) : Prop where
  lt : i < j
  lt_length : j < s.length
  closes : closes s stop escape j = true
  first : ∀ j', i < j' → j' < j → Str.closes s stop escape j' = false

theorem stoppingEncloseIndex_eq_closedAt_iff :
    stoppingEncloseIndex s i authorized escape = .closedAt k ↔
      ∃ stop j, Opens s authorized escape i stop ∧ ClosesAt s stop escape i j ∧ k = j + 1 := by
  constructor
  · intro h
    by_cases hopens : ∃ stop, Opens s authorized escape i stop
    · obtain ⟨stop, hopens⟩ := hopens
      rw [stoppingEncloseIndex_of_opens hopens] at h
      split at h
      · cases h
      · rename_i j hj
        cases h
        obtain ⟨hcloses, hmem, hfirst⟩ := List.find?_range'_eq_some.mp hj
        rw [List.mem_range'_1] at hmem
        exact ⟨stop, j, hopens, ⟨by omega, by omega, hcloses, fun j' hi hj' => by
          simpa using hfirst j' hi hj'⟩, rfl⟩
    · rw [stoppingEncloseIndex_of_not_opens fun stop hstop => hopens ⟨stop, hstop⟩] at h
      cases h
  · rintro ⟨stop, j, hopens, hcloses, rfl⟩
    have hsome : (List.range' (i + 1) (s.length - (i + 1))).find? (closes s stop escape) =
        some j := by
      rw [List.find?_range'_eq_some]
      have hlt := hcloses.lt
      have hlength := hcloses.lt_length
      refine ⟨hcloses.closes, List.mem_range'_1.mpr (by omega), fun j' hi hj' => ?_⟩
      simp [hcloses.first j' hi hj']
    rw [stoppingEncloseIndex_of_opens hopens, hsome]

/-! ## A string that goes on -/

theorem isEscapedChar_append (hi : i ≤ v.length) :
    isEscapedChar (v ++ t) i escape = isEscapedChar v i escape := by
  unfold isEscapedChar
  by_cases hpos : 0 < i
  · rw [List.getElem?_append_left (by omega : i - 1 < v.length),
      List.getElem?_append_left (by omega : i - 2 < v.length)]
  · simp [hpos]

/-- Nothing that comes after `v` makes its last character an escape of the next
one. -/
theorem isAnEscape_append (hi : i < v.length)
    (h : i + 1 < v.length ∨ escape ≠ stop ∨ t.head? ≠ some stop) :
    isAnEscape (v ++ t) i stop escape = isAnEscape v i stop escape := by
  unfold isAnEscape
  by_cases hlt : i + 1 < v.length
  · rw [List.getElem?_append_left hlt]
  · obtain heq : i + 1 = v.length := by omega
    rcases h with h | h | h
    · exact absurd h hlt
    · rw [beq_false_of_ne h, Bool.false_and, Bool.false_and]
    · rw [List.getElem?_append_right heq.ge, heq, Nat.sub_self, ← List.head?_eq_getElem?,
        List.getElem?_eq_none le_rfl, beq_false_of_ne h]
      rfl

theorem closes_append (hj : j < v.length)
    (h : j + 1 < v.length ∨ escape ≠ stop ∨ t.head? ≠ some stop) :
    closes (v ++ t) stop escape j = closes v stop escape j := by
  rw [closes, closes, List.getElem?_append_left hj, isAnEscape_append hj h,
    isEscapedChar_append hj.le]

theorem opens_append_iff (hi : i < v.length)
    (h : i + 1 < v.length ∨ escape ≠ stop ∨ t.head? ≠ some stop) :
    Opens (v ++ t) authorized escape i stop ↔ Opens v authorized escape i stop := by
  constructor
  · rintro ⟨hchar, hnot, hnot'⟩
    rw [List.getElem?_append_left hi] at hchar
    rw [isAnEscape_append hi h] at hnot
    rw [isEscapedChar_append hi.le] at hnot'
    exact ⟨hchar, hnot, hnot'⟩
  · rintro ⟨hchar, hnot, hnot'⟩
    have hsame : (v ++ t)[i]? = v[i]? := List.getElem?_append_left hi
    rw [← hsame] at hchar
    rw [← isAnEscape_append hi h] at hnot
    rw [← isEscapedChar_append (t := t) hi.le] at hnot'
    exact ⟨hchar, hnot, hnot'⟩

/-- An enclosure that does not open in `v` does not open when `v` goes on. -/
theorem notOpened_append (hi : i < v.length)
    (h : stoppingEncloseIndex v i authorized escape = .notOpened) :
    stoppingEncloseIndex (v ++ t) i authorized escape = .notOpened := by
  rw [stoppingEncloseIndex_eq_notOpened_iff] at h ⊢
  rintro stop ⟨hchar, hnot, hnot'⟩
  rw [List.getElem?_append_left hi] at hchar
  rw [isEscapedChar_append hi.le] at hnot'
  refine h stop ⟨hchar, ?_, hnot'⟩
  by_cases hlt : i + 1 < v.length
  · rwa [isAnEscape_append hi (.inl hlt)] at hnot
  · rw [isAnEscape, List.getElem?_eq_none (Nat.not_lt.mp hlt)]
    exact Bool.and_false _

/-- An enclosure that closes in `v` closes there when `v` goes on, unless the
next character can escape the closing one. -/
theorem closedAt_append (h : stoppingEncloseIndex v i authorized escape = .closedAt k)
    (hk : k < v.length ∨ v[k - 1]? ≠ some escape) :
    stoppingEncloseIndex (v ++ t) i authorized escape = .closedAt k := by
  rw [stoppingEncloseIndex_eq_closedAt_iff] at h ⊢
  obtain ⟨stop, j, hopens, hcloses, rfl⟩ := h
  have hlt := hcloses.lt
  have hlength := hcloses.lt_length
  have hstop : v[j]? = some stop := by
    have hchar := hcloses.closes
    simp only [closes, Bool.and_eq_true, beq_iff_eq] at hchar
    exact hchar.1.1
  have hend : j + 1 < v.length ∨ escape ≠ stop ∨ t.head? ≠ some stop := by
    rcases hk with hk | hk
    · exact .inl hk
    · rw [Nat.add_sub_cancel, hstop] at hk
      exact .inr (.inl fun heq => hk (by rw [heq]))
  refine ⟨stop, j, (opens_append_iff (by omega) (.inl (by omega))).mpr hopens, ⟨hlt, ?_, ?_, ?_⟩,
    rfl⟩
  · rw [List.length_append]
    omega
  · rw [closes_append hlength hend]
    exact hcloses.closes
  · intro j' hi hj'
    rw [closes_append (by omega) (.inl (by omega))]
    exact hcloses.first j' hi hj'

theorem exists_byte (a b : UInt8) : ∃ c : UInt8, c ≠ 0 ∧ c ≠ a ∧ c ≠ b := by
  by_cases h₁ : (1 : UInt8) ≠ a ∧ (1 : UInt8) ≠ b
  · exact ⟨1, by decide, h₁⟩
  by_cases h₂ : (2 : UInt8) ≠ a ∧ (2 : UInt8) ≠ b
  · exact ⟨2, by decide, h₂⟩
  refine ⟨3, by decide, ?_, ?_⟩
  · rintro rfl
    simp at h₁ h₂
    exact absurd (h₁.trans h₂.symm) (by decide)
  · rintro rfl
    simp at h₁ h₂
    exact absurd (h₁.trans h₂.symm) (by decide)

/-- The last character closes what no other one closed. -/
theorem closes_append_pair (hc : c ≠ escape) :
    closes (s ++ [c, stop]) stop escape (s.length + 1) = true := by
  simp [closes, isAnEscape, isEscapedChar, hc]

/-- An enclosure that no character of `v` closes closes after `v`. -/
theorem exists_closedAt_append (hopens : Opens (v ++ t) authorized escape i stop)
    (hnot : ∀ j, i < j → j < v.length → closes (v ++ t) stop escape j = false)
    (hij : i < j) (hj : j < (v ++ t).length) (hcloses : closes (v ++ t) stop escape j = true) :
    ∃ k, v.length < k ∧ stoppingEncloseIndex (v ++ t) i authorized escape = .closedAt k := by
  cases h : stoppingEncloseIndex (v ++ t) i authorized escape with
  | notOpened => exact absurd hopens (stoppingEncloseIndex_eq_notOpened_iff.mp h stop)
  | neverEnds =>
    obtain ⟨stop', hopens', hall⟩ := stoppingEncloseIndex_eq_neverEnds_iff.mp h
    cases hopens.unique hopens'
    rw [hall j hij hj] at hcloses
    cases hcloses
  | closedAt k =>
    obtain ⟨stop', j', hopens', hcloses', rfl⟩ := stoppingEncloseIndex_eq_closedAt_iff.mp h
    cases hopens.unique hopens'
    refine ⟨j' + 1, ?_, rfl⟩
    by_contra hle
    have hfalse := hnot j' hcloses'.lt (by omega)
    rw [hcloses'.closes] at hfalse
    cases hfalse

/-- An enclosure that does not end in `v` can end after it. -/
theorem exists_closedAt_of_neverEnds
    (h : stoppingEncloseIndex v i authorized escape = .neverEnds) :
    ∃ t, (0 : UInt8) ∉ t ∧
      ∃ k, v.length < k ∧ stoppingEncloseIndex (v ++ t) i authorized escape = .closedAt k := by
  obtain ⟨stop, hopens, hnot⟩ := stoppingEncloseIndex_eq_neverEnds_iff.mp h
  obtain ⟨c, hzero, hescape, hstop⟩ := exists_byte escape stop
  have hi : i < v.length := by
    obtain ⟨c, hc, -⟩ := hopens.char
    exact (List.getElem?_eq_some_iff.mp hc).1
  have hhead : ([c] ++ [c, stop] : List UInt8).head? ≠ some stop := by simpa using hstop
  refine ⟨[c] ++ [c, stop], ?_, exists_closedAt_append (j := (v ++ [c]).length + 1)
    ((opens_append_iff hi (.inr (.inr hhead))).mpr hopens) (fun j hij hj => ?_) ?_ ?_ ?_⟩
  · simp [hzero.symm, hopens.stop_ne_zero.symm]
  · rw [closes_append hj (.inr (.inr hhead))]
    exact hnot j hij hj
  · rw [List.length_append]
    omega
  · simp
  · rw [← List.append_assoc]
    exact closes_append_pair hescape

/-- An enclosure that the last character of `v` closes, which is the escape
character, is not closed there when the same character comes next. -/
theorem exists_closedAt_of_last
    (h : stoppingEncloseIndex v i authorized escape = .closedAt v.length)
    (hlast : v[v.length - 1]? = some escape) :
    ∃ t, (0 : UInt8) ∉ t ∧
      ∃ k, v.length < k ∧ stoppingEncloseIndex (v ++ t) i authorized escape = .closedAt k := by
  obtain ⟨stop, j, hopens, hcloses, hj⟩ := stoppingEncloseIndex_eq_closedAt_iff.mp h
  have hij := hcloses.lt
  have hstop : escape = stop := by
    have hchar := hcloses.closes
    simp only [closes, Bool.and_eq_true, beq_iff_eq] at hchar
    rw [hj, Nat.add_sub_cancel, hchar.1.1] at hlast
    exact (Option.some.inj hlast).symm
  subst hstop
  obtain ⟨c, hzero, hescape, -⟩ := exists_byte escape escape
  refine ⟨[escape, c] ++ [c, escape], ?_,
    exists_closedAt_append (j := (v ++ [escape, c]).length + 1)
    ((opens_append_iff (by omega) (.inl (by omega))).mpr hopens) (fun j' hij' hj' => ?_) ?_ ?_ ?_⟩
  · simp [hzero.symm, hopens.stop_ne_zero.symm]
  · by_cases heq : j' = j
    · have hnext : (v ++ ([escape, c] ++ [c, escape]))[j' + 1]? = some escape := by
        rw [List.getElem?_append_right (by omega), heq, ← hj, Nat.sub_self]
        rfl
      rw [closes, isAnEscape, hnext]
      simp
    · rw [closes_append hj' (.inl (by omega))]
      exact hcloses.first j' hij' (by omega)
  · rw [List.length_append]
    omega
  · simp
  · rw [← List.append_assoc]
    exact closes_append_pair hescape

end Sihd.Util.Str
