import Sihd.Lib.Decimal

/-!
# Numbers in strings

`to_signed` and `to_unsigned` in base 10: a sign is taken off, `std::from_chars`
reads the digits, which may be followed by anything, and the number is out of
range or is negated.
-/

namespace Sihd.Util.Str

/-- `+`. -/
abbrev plus : UInt8 := 43

/-- `std::from_chars` of a `long long`, which reads a `-`. -/
def fromCharsSigned (s : List UInt8) : Option Int :=
  let negative := s.head? == some minus
  let digits := (if negative then s.tail else s).takeWhile isDecimalDigit
  let value : Int := if negative then -digitsValue digits else digitsValue digits
  if digits ≠ [] ∧ -2 ^ 63 ≤ value ∧ value < 2 ^ 63 then some value else none

/-- `std::from_chars` of an `unsigned long long`. -/
def fromCharsUnsigned (s : List UInt8) : Option Nat :=
  let digits := s.takeWhile isDecimalDigit
  if digits ≠ [] ∧ digitsValue digits < 2 ^ 64 then some (digitsValue digits) else none

/-- Whether a string starts with `-`, and what is after its sign. -/
def takeSign : List UInt8 → Bool × List UInt8
  | [] => (false, [])
  | c :: s => if c = minus ∨ c = plus then (c = minus, s) else (false, c :: s)

def toSigned (s : List UInt8) : Option Int :=
  (fromCharsSigned (takeSign s).2).map fun value => if (takeSign s).1 then -value else value

def toUnsigned (s : List UInt8) : Option Nat :=
  (fromCharsUnsigned (takeSign s).2).map fun value =>
    if (takeSign s).1 then (2 ^ 64 - value) % 2 ^ 64 else value

theorem takeSign_of_digit {s : List UInt8} (h : ∀ c, s.head? = some c → isDecimalDigit c = true) :
    takeSign s = (false, s) := by
  cases s with
  | nil => rfl
  | cons c s =>
    have hc := h c rfl
    rw [takeSign, if_neg]
    rintro (rfl | rfl) <;> cases hc

theorem head?_decimal {n : Nat} {c : UInt8} (h : (decimal n).head? = some c) :
    isDecimalDigit c = true := isDecimalDigit_of_mem (List.mem_of_head? h)

theorem fromCharsSigned_decimal {n : Nat} (h : n < 2 ^ 63) :
    fromCharsSigned (decimal n) = some (n : Int) := by
  have hminus : ((decimal n).head? == some minus) = false := by
    rw [beq_eq_false_iff_ne]
    intro heq
    have hdigit := head?_decimal heq
    cases hdigit
  have hdigits := takeWhile_decimal (n := n) (s := []) (by simp)
  rw [List.append_nil] at hdigits
  simp only [fromCharsSigned, hminus, Bool.false_eq_true, if_false, hdigits, digitsValue_decimal]
  rw [if_pos ⟨decimal_ne_nil n, by omega, by omega⟩]

theorem takeSign_decimal (n : Nat) : takeSign (decimal n) = (false, decimal n) :=
  takeSign_of_digit fun _ hc => head?_decimal hc

/-- What `std::to_string` writes is read back. -/
theorem toSigned_decimalInt {z : Int} (h : -2 ^ 63 < z) (h' : z < 2 ^ 63) :
    toSigned (decimalInt z) = some z := by
  rw [decimalInt]
  split
  · have habs : (z.natAbs : Int) = -z := by omega
    rw [toSigned, takeSign, if_pos (.inl rfl), fromCharsSigned_decimal (by omega)]
    simp [habs]
  · have habs : (z.natAbs : Int) = z := by omega
    rw [toSigned, takeSign_decimal, fromCharsSigned_decimal (by omega)]
    simp [habs]

/-- A number is written with digits and `-`. -/
theorem not_mem_decimalInt {z : Int} {d : UInt8} (hd : isDecimalDigit d = false)
    (hminus : d ≠ minus) : d ∉ decimalInt z := by
  have hnot : d ∉ decimal z.natAbs := by
    intro hmem
    rw [isDecimalDigit_of_mem hmem] at hd
    cases hd
  rw [decimalInt]
  split
  · rw [List.mem_cons, not_or]
    exact ⟨hminus, hnot⟩
  · exact hnot

end Sihd.Util.Str
