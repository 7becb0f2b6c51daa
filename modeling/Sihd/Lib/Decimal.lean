import Mathlib.Data.List.Basic
import Mathlib.Data.Nat.Digits.Defs
import Mathlib.Tactic.Common

/-!
# Decimal numbers

`decimal n` are the digits of a number as characters, the highest first, and
`digitsValue` reads them back.
-/

def isDecimalDigit (c : UInt8) : Bool := 48 ≤ c && c ≤ 57

/-- The character of a digit. -/
def decimalDigit (d : Nat) : UInt8 := UInt8.ofNat (48 + d)

def decimal (n : Nat) : List UInt8 :=
  if n = 0 then [decimalDigit 0] else (Nat.digits 10 n).reverse.map decimalDigit

/-- `-`. -/
abbrev minus : UInt8 := 45

def decimalInt (z : Int) : List UInt8 :=
  if z < 0 then minus :: decimal z.natAbs else decimal z.natAbs

def digitsValue (s : List UInt8) : Nat := s.foldl (fun n c => 10 * n + (c.toNat - 48)) 0

theorem decimalDigit_toNat {d : Nat} (h : d < 10) : (decimalDigit d).toNat = 48 + d := by
  rw [decimalDigit, UInt8.toNat_ofNat']
  omega

theorem isDecimalDigit_decimalDigit {d : Nat} (h : d < 10) :
    isDecimalDigit (decimalDigit d) = true := by
  have hd := decimalDigit_toNat h
  simp only [isDecimalDigit, UInt8.le_iff_toNat_le, hd, Bool.and_eq_true, decide_eq_true_eq]
  exact ⟨Nat.le_add_right 48 d, by change 48 + d ≤ 57; omega⟩

theorem decimal_ne_nil (n : Nat) : decimal n ≠ [] := by
  rw [decimal]
  split
  · exact List.cons_ne_nil _ _
  · rename_i hn
    rw [ne_eq, List.map_eq_nil_iff, List.reverse_eq_nil_iff]
    exact Nat.digits_ne_nil_iff_ne_zero.mpr hn

theorem isDecimalDigit_of_mem {n : Nat} {c : UInt8} (h : c ∈ decimal n) :
    isDecimalDigit c = true := by
  rw [decimal] at h
  split at h
  · rw [List.mem_singleton.mp h]
    exact isDecimalDigit_decimalDigit (by omega)
  · obtain ⟨d, hd, rfl⟩ := List.mem_map.mp h
    rw [List.mem_reverse] at hd
    exact isDecimalDigit_decimalDigit (Nat.digits_lt_base (by omega) hd)

theorem digitsValue_reverse {l : List Nat} (h : ∀ d ∈ l, d < 10) :
    digitsValue (l.reverse.map decimalDigit) = Nat.ofDigits 10 l := by
  induction l with
  | nil => rfl
  | cons d l ih =>
    rw [List.forall_mem_cons] at h
    rw [List.reverse_cons, List.map_append, digitsValue, List.foldl_append]
    change 10 * digitsValue (l.reverse.map decimalDigit) + ((decimalDigit d).toNat - 48) = _
    rw [ih h.2, decimalDigit_toNat h.1, Nat.ofDigits_cons]
    omega

theorem digitsValue_decimal (n : Nat) : digitsValue (decimal n) = n := by
  rw [decimal]
  split
  · rename_i hn
    rw [hn]
    rfl
  · rw [digitsValue_reverse fun d hd => Nat.digits_lt_base (by omega) hd, Nat.ofDigits_digits]

/-- The digits of a number end where there is no digit. -/
theorem takeWhile_decimal {n : Nat} {s : List UInt8}
    (h : ∀ c, s.head? = some c → isDecimalDigit c = false) :
    (decimal n ++ s).takeWhile isDecimalDigit = decimal n := by
  rw [List.takeWhile_append_of_pos fun c hc => isDecimalDigit_of_mem hc]
  cases s with
  | nil => simp
  | cons c s => rw [List.takeWhile_cons_of_neg (by simp [h c rfl]), List.append_nil]

/-!
## Numbers in a base

The digits of a number in a base up to 36 as characters, the highest first:
after the decimal digits the letters, which are written small and read in both
cases. In base 10 these are the decimal numbers.
-/

namespace Radix

/-- The value of a digit. -/
def digitOf (c : UInt8) : Option Nat :=
  if 48 ≤ c && c ≤ 57 then some (c.toNat - 48)
  else if 97 ≤ c && c ≤ 122 then some (c.toNat - 87)
  else if 65 ≤ c && c ≤ 90 then some (c.toNat - 55)
  else none

def isDigit (b : Nat) (c : UInt8) : Bool := (digitOf c).any (· < b)

/-- The character of a digit. -/
def digitChar (d : Nat) : UInt8 := if d < 10 then UInt8.ofNat (48 + d) else UInt8.ofNat (87 + d)

def text (b n : Nat) : List UInt8 :=
  if n = 0 then [digitChar 0] else (Nat.digits b n).reverse.map digitChar

def value (b : Nat) (s : List UInt8) : Nat := s.foldl (fun n c => b * n + (digitOf c).getD 0) 0

variable {b n d : Nat}

theorem digitOf_digitChar (h : d < 36) : digitOf (digitChar d) = some d := by
  have hall : ∀ d < 36, digitOf (digitChar d) = some d := by
    decide
  exact hall d h

theorem isDigit_digitChar (hb : b ≤ 36) (h : d < b) : isDigit b (digitChar d) = true := by
  rw [isDigit, digitOf_digitChar (by omega), Option.any_some, decide_eq_true h]

theorem text_ne_nil (b n : Nat) : text b n ≠ [] := by
  rw [text]
  split
  · exact List.cons_ne_nil _ _
  · rename_i hn
    rw [ne_eq, List.map_eq_nil_iff, List.reverse_eq_nil_iff]
    exact Nat.digits_ne_nil_iff_ne_zero.mpr hn

theorem isDigit_of_mem (hb : 2 ≤ b) (hb' : b ≤ 36) {c : UInt8} (h : c ∈ text b n) :
    isDigit b c = true := by
  rw [text] at h
  split at h
  · rw [List.mem_singleton.mp h]
    exact isDigit_digitChar hb' (by omega)
  · obtain ⟨d, hd, rfl⟩ := List.mem_map.mp h
    rw [List.mem_reverse] at hd
    exact isDigit_digitChar hb' (Nat.digits_lt_base (by omega) hd)

theorem value_reverse {l : List Nat} (h : ∀ d ∈ l, d < 36) :
    value b (l.reverse.map digitChar) = Nat.ofDigits b l := by
  induction l with
  | nil => rfl
  | cons d l ih =>
    rw [List.forall_mem_cons] at h
    rw [List.reverse_cons, List.map_append, value, List.foldl_append]
    change b * value b (l.reverse.map digitChar) + (digitOf (digitChar d)).getD 0 = _
    rw [ih h.2, digitOf_digitChar h.1, Nat.ofDigits_cons, Option.getD_some, Nat.add_comm]

/-- A number that is written is read back. -/
theorem value_text (hb : 2 ≤ b) (hb' : b ≤ 36) (n : Nat) : value b (text b n) = n := by
  rw [text]
  split
  · rename_i hn
    rw [hn]
    rfl
  · rw [value_reverse fun d hd => (Nat.digits_lt_base (by omega) hd).trans_le hb',
      Nat.ofDigits_digits]

/-! ## Base 10 -/

theorem digitOf_of_isDecimalDigit {c : UInt8} (h : isDecimalDigit c = true) :
    digitOf c = some (c.toNat - 48) := if_pos h

theorem isDigit_ten (c : UInt8) : isDigit 10 c = isDecimalDigit c := by
  by_cases h : isDecimalDigit c = true
  · have hc : 48 ≤ c.toNat ∧ c.toNat ≤ 57 := by
      rw [isDecimalDigit, Bool.and_eq_true, decide_eq_true_eq, decide_eq_true_eq,
        UInt8.le_iff_toNat_le, UInt8.le_iff_toNat_le] at h
      exact h
    rw [isDigit, digitOf_of_isDecimalDigit h, h, Option.any_some, decide_eq_true (by omega)]
  · have hnot : isDecimalDigit c = false := Bool.not_eq_true _ ▸ h
    have hdecimal : ¬ (48 ≤ c && c ≤ 57) = true := h
    rw [isDigit, digitOf, if_neg hdecimal, hnot]
    split_ifs with hsmall hbig
    · rw [Bool.and_eq_true, decide_eq_true_eq, decide_eq_true_eq, UInt8.le_iff_toNat_le] at hsmall
      have hle : 97 ≤ c.toNat := hsmall.1
      rw [Option.any_some, decide_eq_false (by omega)]
    · rw [Bool.and_eq_true, decide_eq_true_eq, decide_eq_true_eq, UInt8.le_iff_toNat_le] at hbig
      have hle : 65 ≤ c.toNat := hbig.1
      rw [Option.any_some, decide_eq_false (by omega)]
    · rfl

theorem value_ten {s : List UInt8} (h : ∀ c ∈ s, isDecimalDigit c = true) :
    value 10 s = digitsValue s := by
  refine List.foldl_ext _ _ _ fun n c hc => ?_
  rw [digitOf_of_isDecimalDigit (h c hc), Option.getD_some]

end Radix
