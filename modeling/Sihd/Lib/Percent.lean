import Mathlib.Data.List.Basic
import Mathlib.Tactic.IntervalCases

/-!
# Percent-encoding

`percentEncode keep` writes the bytes that are not kept as `%` and two
hexadecimal digits; `percentDecode` reads such escapes and leaves every other
byte, a `%` without two digits behind it included. A byte that is decoded is not
read again.
-/

/-- `0123456789ABCDEF`. -/
def hexDigit (n : Nat) : UInt8 := UInt8.ofNat (if n < 10 then 48 + n else 55 + n)

/-- The value of a hexadecimal digit, in either case. -/
def hexValue? (c : UInt8) : Option Nat :=
  if 48 ≤ c ∧ c ≤ 57 then some (c.toNat - 48)
  else if 65 ≤ c ∧ c ≤ 70 then some (c.toNat - 55)
  else if 97 ≤ c ∧ c ≤ 102 then some (c.toNat - 87)
  else none

/-- `%`. -/
abbrev percent : UInt8 := 37

/-- The byte that two characters escape. -/
def escaped? (a b : UInt8) : Option UInt8 :=
  match hexValue? a, hexValue? b with
  | some hi, some lo => some (UInt8.ofNat (16 * hi + lo))
  | _, _ => none

def percentDecode : List UInt8 → List UInt8
  | c :: a :: b :: s =>
      if c = percent then
        match escaped? a b with
        | some d => d :: percentDecode s
        | none => c :: percentDecode (a :: b :: s)
      else c :: percentDecode (a :: b :: s)
  | c :: s => c :: percentDecode s
  | [] => []

def percentEncode (keep : UInt8 → Bool) : List UInt8 → List UInt8
  | [] => []
  | c :: s =>
      if keep c then c :: percentEncode keep s
      else percent :: hexDigit (c.toNat / 16) :: hexDigit (c.toNat % 16) :: percentEncode keep s

theorem hexValue?_hexDigit {n : Nat} (h : n < 16) : hexValue? (hexDigit n) = some n := by
  interval_cases n <;> rfl

theorem escaped?_hexDigit (c : UInt8) :
    escaped? (hexDigit (c.toNat / 16)) (hexDigit (c.toNat % 16)) = some c := by
  have hlt : c.toNat < 256 := c.toNat_lt
  rw [escaped?, hexValue?_hexDigit (by omega), hexValue?_hexDigit (by omega)]
  dsimp only
  rw [Nat.div_add_mod, UInt8.ofNat_toNat]

theorem percentEncode_cons (keep : UInt8 → Bool) (c : UInt8) (s : List UInt8) :
    percentEncode keep (c :: s) = if keep c then c :: percentEncode keep s
      else percent :: hexDigit (c.toNat / 16) :: hexDigit (c.toNat % 16) :: percentEncode keep s :=
  rfl

theorem percentDecode_cons {c : UInt8} (h : c ≠ percent) (s : List UInt8) :
    percentDecode (c :: s) = c :: percentDecode s := by
  match s with
  | [] => rfl
  | [_] => rfl
  | _ :: _ :: _ => exact if_neg h

theorem percentDecode_percent (a b : UInt8) (s : List UInt8) :
    percentDecode (percent :: a :: b :: s) =
      match escaped? a b with
      | some d => d :: percentDecode s
      | none => percent :: percentDecode (a :: b :: s) :=
  if_pos rfl

theorem percentDecode_escape (c : UInt8) (s : List UInt8) :
    percentDecode (percent :: hexDigit (c.toNat / 16) :: hexDigit (c.toNat % 16) :: s) =
      c :: percentDecode s := by
  rw [percentDecode_percent, escaped?_hexDigit]

/-- An encoded string is decoded to what it was. -/
theorem percentDecode_percentEncode {keep : UInt8 → Bool} (h : keep percent = false)
    (s : List UInt8) : percentDecode (percentEncode keep s) = s := by
  induction s with
  | nil => rfl
  | cons c s ih =>
    rw [percentEncode_cons]
    split
    · rename_i hkeep
      have hne : c ≠ percent := by
        rintro rfl
        rw [h] at hkeep
        cases hkeep
      rw [percentDecode_cons hne, ih]
    · rw [percentDecode_escape, ih]

theorem percentEncode_eq_nil_iff {keep : UInt8 → Bool} {s : List UInt8} :
    percentEncode keep s = [] ↔ s = [] := by
  cases s with
  | nil => exact ⟨fun _ => rfl, fun _ => rfl⟩
  | cons c s =>
    rw [percentEncode_cons]
    split <;> simp

/-- The induction along `percentDecode`, with what it gives for the string. -/
theorem percentDecode_induction {motive : List UInt8 → List UInt8 → Prop}
    (escape : ∀ {a b s d}, escaped? a b = some d → motive s (percentDecode s) →
      motive (percent :: a :: b :: s) (d :: percentDecode s))
    (kept : ∀ {a b s}, escaped? a b = none → motive (a :: b :: s) (percentDecode (a :: b :: s)) →
      motive (percent :: a :: b :: s) (percent :: percentDecode (a :: b :: s)))
    (other : ∀ {c s}, c ≠ percent → motive s (percentDecode s) →
      motive (c :: s) (c :: percentDecode s))
    (short : ∀ {s}, (∀ a b t, s ≠ a :: b :: t) → motive s (percentDecode s) →
      motive (percent :: s) (percent :: percentDecode s))
    (nil : motive [] []) (s : List UInt8) : motive s (percentDecode s) := by
  fun_induction percentDecode s with
  | case1 a b s d hd ih => exact escape hd ih
  | case2 a b s hd ih => exact kept hd ih
  | case3 c a b s hc ih => exact other hc ih
  | case4 c s hs ih =>
    by_cases hc : c = percent
    · rw [hc]
      exact short hs ih
    · exact other hc ih
  | case5 => exact nil

theorem percentDecode_eq_nil_iff {s : List UInt8} : percentDecode s = [] ↔ s = [] :=
  percentDecode_induction (motive := fun s r => r = [] ↔ s = []) (by simp) (by simp) (by simp)
    (by simp) Iff.rfl s

/-- An encoded string has characters that are kept, `%` and digits only. -/
theorem not_mem_percentEncode {keep : UInt8 → Bool} {d : UInt8} (hkeep : keep d = false)
    (hpercent : d ≠ percent) (hdigit : hexValue? d = none) (s : List UInt8) :
    d ∉ percentEncode keep s := by
  have hne {n : Nat} (hn : n < 16) : d ≠ hexDigit n := by
    rintro rfl
    rw [hexValue?_hexDigit hn] at hdigit
    cases hdigit
  induction s with
  | nil => exact List.not_mem_nil
  | cons c s ih =>
    have hlt : c.toNat < 256 := c.toNat_lt
    rw [percentEncode_cons]
    split
    · rename_i hc
      rw [List.mem_cons, not_or]
      refine ⟨?_, ih⟩
      rintro rfl
      rw [hkeep] at hc
      cases hc
    · simp only [List.mem_cons, not_or]
      exact ⟨hpercent, hne (by omega), hne (by omega), ih⟩

theorem length_percentDecode_le (s : List UInt8) : (percentDecode s).length ≤ s.length := by
  apply percentDecode_induction (motive := fun s r => r.length ≤ s.length) <;>
    simp only [List.length_cons, List.length_nil] <;> omega

/-- A string that loses no byte has no escape. -/
theorem percentDecode_eq_self {s : List UInt8} (h : (percentDecode s).length = s.length) :
    percentDecode s = s := by
  revert h
  apply percentDecode_induction (motive := fun s r => r.length = s.length → r = s)
  case escape =>
    intro a b s d _ _ h
    have hle := length_percentDecode_le s
    simp only [List.length_cons] at h
    omega
  case nil => exact fun _ => rfl
  all_goals
    intros
    rename_i ih h
    rw [ih (by simpa using h)]

/-! ### Escapes that are none -/

/-- Two hexadecimal digits. -/
def IsEscape (s : List UInt8) : Prop :=
  ∃ a b t, s = a :: b :: t ∧ (escaped? a b).isSome = true

theorem escaped?_percent_left (b : UInt8) : escaped? percent b = none := rfl

theorem escaped?_percent_right (a : UInt8) : escaped? a percent = none := by
  rw [escaped?]
  cases hexValue? a <;> rfl

theorem percentDecode_of_not_isEscape {s : List UInt8} (h : ¬ IsEscape s) :
    percentDecode (percent :: s) = percent :: percentDecode s := by
  match s, h with
  | [], _ => rfl
  | [_], _ => rfl
  | a :: b :: t, h =>
    have hnone : escaped? a b = none := by
      by_contra hne
      exact h ⟨a, b, t, rfl, Option.isSome_iff_ne_none.mpr hne⟩
    rw [percentDecode_percent, hnone]

/-- A `%` without two digits behind it is left alone, and so is what is in front of it. -/
theorem percentDecode_append_percent {s : List UInt8} (h : ¬ IsEscape s) (p : List UInt8) :
    percentDecode (p ++ percent :: s) = percentDecode p ++ percent :: percentDecode s := by
  apply percentDecode_induction
    (motive := fun p r => percentDecode (p ++ percent :: s) = r ++ percent :: percentDecode s)
  case escape =>
    intro a b p d hd ih
    rw [List.cons_append, List.cons_append, List.cons_append, percentDecode_percent, hd, ih]
    rfl
  case kept =>
    intro a b p hd ih
    rw [List.cons_append, List.cons_append, List.cons_append, percentDecode_percent, hd]
    exact congrArg _ ih
  case other =>
    intro c p hc ih
    rw [List.cons_append, percentDecode_cons hc, ih]
    rfl
  case short =>
    intro p hp ih
    have hnot : ¬ IsEscape (p ++ percent :: s) := by
      rintro ⟨a, b, t, heq, hsome⟩
      match p, hp with
      | [], _ =>
        obtain ⟨rfl, -⟩ := List.cons_eq_cons.mp heq
        rw [escaped?_percent_left] at hsome
        cases hsome
      | [x], _ =>
        obtain ⟨-, htail⟩ := List.cons_eq_cons.mp heq
        obtain ⟨rfl, -⟩ := List.cons_eq_cons.mp htail
        rw [escaped?_percent_right] at hsome
        cases hsome
      | x :: y :: p, hp => exact hp x y p rfl
    rw [List.cons_append, percentDecode_of_not_isEscape hnot, ih]
    rfl
  case nil => exact percentDecode_of_not_isEscape h
