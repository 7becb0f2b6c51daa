import Sihd.Util.Splitter.Method

/-!
# The start and the end of a view

`starts_with` and `ends_with` compare with `strncmp`, which takes a zero for the
end of both strings and may go on behind the view: the memory that follows it is
`behind`.
-/

namespace Sihd.Util.Str

def startsWith (s behind start suffix : List UInt8) : Bool :=
  if start.length > s.length + suffix.length then false
  else
    let success := strncmpEqual (s ++ behind) start
    if suffix.isEmpty then success
    else success && strncmpEqual ((s ++ behind).drop start.length) suffix

/-- `ends` and `before` are the `end` and the `prefix` of the source. -/
def endsWith (s behind ends before : List UInt8) : Bool :=
  if s.length < ends.length + before.length then false
  else
    let ending := s.length - (ends.length + before.length)
    let success := strncmpEqual ((s ++ behind).drop (ending + before.length)) ends
    if before.isEmpty then success
    else success && strncmpEqual ((s ++ behind).drop ending) before

/-- The answers are those of the concatenated views, whatever is in memory behind
the string. -/
def ExactAffixes (s p x : List UInt8) : Prop :=
  (∀ behind, startsWith s behind p x = true ↔ p ++ x <+: s) ∧
    ∀ behind, endsWith s behind p x = true ↔ x ++ p <:+ s

/-- The strings differ at an index inside both of them, with no zero before it. -/
def DiffersIn (s t : List UInt8) : Prop :=
  ∃ i, ∃ a ∈ s[i]?, ∃ b ∈ t[i]?, a ≠ b ∧ 0 ∉ t.take i

def StartSettled (s start suffix : List UInt8) : Prop :=
  start ++ suffix <+: s ∨ s.length + suffix.length < start.length ∨ DiffersIn s start ∨
    DiffersIn (s.drop start.length) suffix

def EndSettled (s ends before : List UInt8) : Prop :=
  before ++ ends <:+ s ∨ s.length < ends.length + before.length ∨
    DiffersIn (s.drop (s.length - ends.length)) ends ∨
    DiffersIn (s.drop (s.length - (ends.length + before.length))) before

variable {s t v : List UInt8} {a c : UInt8}

/-! ## What `strncmp` sees -/

@[simp]
theorem not_differsIn_nil : ¬ DiffersIn [] t := by
  rintro ⟨i, a, ha, -⟩
  simp at ha

@[simp]
theorem not_differsIn_nil_right : ¬ DiffersIn s [] := by
  rintro ⟨i, a, -, b, hb, -⟩
  simp at hb

theorem differsIn_cons_cons :
    DiffersIn (a :: s) (c :: t) ↔ a ≠ c ∨ c ≠ 0 ∧ DiffersIn s t := by
  constructor
  · rintro ⟨i, d, hd, b, hb, hne, hzero⟩
    cases i with
    | zero =>
      simp at hd hb
      subst hd hb
      exact .inl hne
    | succ i =>
      simp only [List.take_succ_cons, List.mem_cons, not_or] at hzero
      exact .inr ⟨Ne.symm hzero.1, i, d, by simpa using hd, b, by simpa using hb, hne, hzero.2⟩
  · rintro (hne | ⟨hc, i, d, hd, b, hb, hne, hzero⟩)
    · exact ⟨0, a, by simp, c, by simp, hne, by simp⟩
    · exact ⟨i + 1, d, by simpa using hd, b, by simpa using hb, hne, by
        simp [hzero, Ne.symm hc]⟩

theorem strncmpEqual_append_of_differsIn (h : DiffersIn v t) (r : List UInt8) :
    strncmpEqual (v ++ r) t = false := by
  induction v generalizing t with
  | nil => simp at h
  | cons a v ih =>
    cases t with
    | nil => simp at h
    | cons c t =>
      rcases differsIn_cons_cons.mp h with hne | ⟨hc, h⟩
      · simp [strncmpEqual, hne]
      · simp [strncmpEqual, hc, ih h]

/-- With no difference in sight, the string compares equal when it goes on with
the rest of the other one. -/
theorem strncmpEqual_append_drop (h : ¬ DiffersIn v t) (r : List UInt8) :
    strncmpEqual (v ++ (t.drop v.length ++ r)) t = true := by
  induction t generalizing v with
  | nil => simp [strncmpEqual]
  | cons c t ih =>
    cases v with
    | nil =>
      have ht := ih (v := []) not_differsIn_nil
      simp only [List.nil_append, List.length_nil, List.drop_zero] at ht
      simp [strncmpEqual, ht]
    | cons a v =>
      simp only [differsIn_cons_cons, not_or, not_and, ne_eq, not_not] at h
      obtain ⟨rfl, h⟩ := h
      by_cases hzero : a = 0
      · simp [strncmpEqual, hzero]
      · simp [strncmpEqual, ih (h hzero)]

theorem strncmpEqual_append_of_length_le (h : ¬ DiffersIn v t) (hle : t.length ≤ v.length)
    (r : List UInt8) : strncmpEqual (v ++ r) t = true := by
  have hequal := strncmpEqual_append_drop h r
  rwa [List.drop_eq_nil_of_le hle, List.nil_append] at hequal

theorem strncmpEqual_of_isPrefix (h : t <+: s) : strncmpEqual s t = true := by
  obtain ⟨r, rfl⟩ := h
  have ht := strncmpEqual_append_drop (v := []) (t := t) not_differsIn_nil r
  simpa using ht

/-! ## The two answers -/

theorem startsWith_eq_true_iff {behind start suffix : List UInt8} :
    startsWith s behind start suffix = true ↔
      start.length ≤ s.length + suffix.length ∧ strncmpEqual (s ++ behind) start = true ∧
        strncmpEqual ((s ++ behind).drop start.length) suffix = true := by
  unfold startsWith
  split
  · rename_i hlength
    simp [Nat.not_le.mpr hlength]
  · rename_i hlength
    have hle := Nat.not_lt.mp hlength
    cases suffix with
    | nil => simpa [strncmpEqual] using fun _ => hle
    | cons c suffix => simpa using fun _ _ => hle

theorem endsWith_eq_true_iff {behind ends before : List UInt8} :
    endsWith s behind ends before = true ↔
      ends.length + before.length ≤ s.length ∧
        strncmpEqual (s.drop (s.length - ends.length) ++ behind) ends = true ∧
        strncmpEqual (s.drop (s.length - (ends.length + before.length)) ++ behind) before =
          true := by
  unfold endsWith
  split
  · rename_i hlength
    simp [Nat.not_le.mpr hlength]
  · rename_i hlength
    have hle := Nat.not_lt.mp hlength
    have hend : s.length - (ends.length + before.length) + before.length =
        s.length - ends.length := by omega
    simp only [hend, List.drop_append_of_le_length (Nat.sub_le _ _)]
    cases before with
    | nil => simpa [strncmpEqual] using fun _ => hle
    | cons c before => simpa using fun _ _ => hle

theorem startsWith_iff (s start suffix : List UInt8) :
    (∀ behind, startsWith s behind start suffix = true ↔ start ++ suffix <+: s) ↔
      StartSettled s start suffix := by
  constructor
  · intro h
    by_contra hnot
    simp only [StartSettled, not_or, not_lt] at hnot
    obtain ⟨hstarts, hlength, hstart, hsuffix⟩ := hnot
    have hanswer := h (start.drop s.length ++ suffix.drop (s.drop start.length).length)
    have hdrop : (s ++ (start.drop s.length ++ suffix.drop (s.drop start.length).length)).drop
        start.length = s.drop start.length ++ (suffix.drop (s.drop start.length).length ++ []) := by
      simp [List.drop_append]
    have hfound := strncmpEqual_append_drop hsuffix []
    rw [← hdrop] at hfound
    exact hstarts (hanswer.mp
      (startsWith_eq_true_iff.mpr ⟨hlength, strncmpEqual_append_drop hstart _, hfound⟩))
  · intro h behind
    rw [startsWith_eq_true_iff]
    constructor
    · rintro ⟨hlength, hstart, hsuffix⟩
      rcases h with h | h | h | h
      · exact h
      · exact absurd h (Nat.not_lt.mpr hlength)
      · simp [strncmpEqual_append_of_differsIn h] at hstart
      · have hle : start.length ≤ s.length := by
          by_contra hlt
          rw [List.drop_eq_nil_of_le (Nat.le_of_not_le hlt)] at h
          simp at h
        rw [List.drop_append_of_le_length hle, strncmpEqual_append_of_differsIn h] at hsuffix
        cases hsuffix
    · rintro ⟨r, rfl⟩
      refine ⟨by simp only [List.length_append]; omega, ?_, ?_⟩
      · exact strncmpEqual_of_isPrefix ⟨suffix ++ r ++ behind, by simp⟩
      · exact strncmpEqual_of_isPrefix ⟨r ++ behind, by simp⟩

theorem endsWith_iff (s ends before : List UInt8) :
    (∀ behind, endsWith s behind ends before = true ↔ before ++ ends <:+ s) ↔
      EndSettled s ends before := by
  constructor
  · intro h
    by_contra hnot
    simp only [EndSettled, not_or, not_lt] at hnot
    obtain ⟨hends, hlength, hend, hbefore⟩ := hnot
    refine hends ((h []).mp (endsWith_eq_true_iff.mpr ⟨hlength, ?_, ?_⟩))
    · exact strncmpEqual_append_of_length_le hend (by simp; omega) []
    · exact strncmpEqual_append_of_length_le hbefore (by simp; omega) []
  · intro h behind
    rw [endsWith_eq_true_iff]
    constructor
    · rintro ⟨hlength, hend, hbefore⟩
      rcases h with h | h | h | h
      · exact h
      · exact absurd h (Nat.not_lt.mpr hlength)
      · simp [strncmpEqual_append_of_differsIn h] at hend
      · simp [strncmpEqual_append_of_differsIn h] at hbefore
    · rintro ⟨r, rfl⟩
      refine ⟨by simp only [List.length_append]; omega, ?_, ?_⟩
      · have hdrop : (r ++ (before ++ ends)).drop
            ((r ++ (before ++ ends)).length - ends.length) = ends := by
          simp [← List.append_assoc]
        rw [hdrop]
        exact strncmpEqual_of_isPrefix (List.prefix_append _ _)
      · have hdrop : (r ++ (before ++ ends)).drop
            ((r ++ (before ++ ends)).length - (ends.length + before.length)) =
              before ++ ends := by
          rw [Nat.add_comm, ← List.length_append]
          simp
        rw [hdrop]
        exact strncmpEqual_of_isPrefix ⟨ends ++ behind, by simp⟩

/-- A wrong answer needs a start that goes on behind the view, or a zero that
hides the difference. -/
theorem exactAffixes_iff (s p x : List UInt8) :
    ExactAffixes s p x ↔ StartSettled s p x ∧ EndSettled s p x :=
  and_congr (startsWith_iff s p x) (endsWith_iff s p x)

/-- The string `ab` starts with `ab` and `c` when the memory goes on with `c`. -/
theorem not_exactAffixes_overread : ¬ ExactAffixes [97, 98] [97, 98] [99] := by
  intro h
  have hstart := (h.1 [99]).mp (by decide)
  exact absurd hstart (by decide)

/-- Strings that differ after a zero. -/
example : startsWith [97, 0, 98] [] [97, 0, 99] [] = true := by decide

end Sihd.Util.Str
