import Mathlib.Data.List.TakeWhile
import Sihd.Lib.Decimal
import Sihd.Util.Number

/-!
# Integers in strings

`convert_from_string` takes the sign off a text, then a prefix of the base, and
reads the digits as a `long long` or an `unsigned long long`. The sign is put
back and the result is cast to the type, which wraps around.
-/

namespace Sihd.Util.Str

inductive IntType
  | int8
  | int16
  | int32
  | int64
  | uint8
  | uint16
  | uint32
  | uint64
  deriving DecidableEq

namespace IntType

def width : IntType → Nat
  | int8 | uint8 => 8
  | int16 | uint16 => 16
  | int32 | uint32 => 32
  | int64 | uint64 => 64

def isSigned : IntType → Bool
  | int8 | int16 | int32 | int64 => true
  | uint8 | uint16 | uint32 | uint64 => false

/-- The integers of the type. -/
def InRange (T : IntType) (z : Int) : Prop :=
  if T.isSigned then -2 ^ (T.width - 1) ≤ z ∧ z < 2 ^ (T.width - 1) else 0 ≤ z ∧ z < 2 ^ T.width

instance (T : IntType) (z : Int) : Decidable (T.InRange z) :=
  inferInstanceAs (Decidable (if T.isSigned then -2 ^ (T.width - 1) ≤ z ∧ z < 2 ^ (T.width - 1)
    else 0 ≤ z ∧ z < 2 ^ T.width))

/-- `static_cast<T>`. -/
def cast (T : IntType) (z : Int) : Int :=
  if T.isSigned then z.bmod (2 ^ T.width) else z % 2 ^ T.width

/-- A cast leaves the integers of the type as they are. -/
theorem cast_of_inRange {T : IntType} {z : Int} (h : T.InRange z) : T.cast z = z := by
  rw [InRange] at h
  rw [cast]
  cases T <;> simp only [isSigned, width, if_true, if_false, Bool.false_eq_true] at h ⊢ <;>
    first
    | exact Int.bmod_eq_of_le (by norm_num; omega) (by norm_num; omega)
    | exact Int.emod_eq_of_lt h.1 h.2

end IntType

/-- The base that a prefix stands for. -/
def prefixBase (c : UInt8) : Option Nat :=
  if c = 120 ∨ c = 88 then some 16
  else if c = 98 ∨ c = 66 then some 2
  else if c = 111 ∨ c = 79 then some 8
  else none

/-- The text without a prefix of the base, and the base to use. -/
def resolveBasePrefix (s : List UInt8) (base : Nat) : List UInt8 × Nat :=
  match s with
  | 48 :: c :: rest =>
      match prefixBase c with
      | some b => if base = 0 ∨ base = b then (rest, b) else (s, if base = 0 then 10 else base)
      | none => (s, if base = 0 then 10 else base)
  | _ => (s, if base = 0 then 10 else base)

/-- `std::from_chars` of a `long long`: the longest row of digits, after a `-`. -/
def fromCharsSignedIn (s : List UInt8) (base : Nat) : Option Int :=
  let negative := s.head? == some minus
  let digits := (if negative then s.tail else s).takeWhile (Radix.isDigit base)
  let value : Int := if negative then -Radix.value base digits else Radix.value base digits
  if digits ≠ [] ∧ -2 ^ 63 ≤ value ∧ value < 2 ^ 63 then some value else none

/-- `std::from_chars` of an `unsigned long long`. -/
def fromCharsUnsignedIn (s : List UInt8) (base : Nat) : Option Nat :=
  let digits := s.takeWhile (Radix.isDigit base)
  if digits ≠ [] ∧ Radix.value base digits < 2 ^ 64 then some (Radix.value base digits) else none

def toSignedIn (s : List UInt8) (base : Nat) : Option Int :=
  let (negate, s) := takeSign s
  let (s, base) := resolveBasePrefix s base
  (fromCharsSignedIn s base).map fun value => if negate then -value else value

def toUnsignedIn (s : List UInt8) (base : Nat) : Option Nat :=
  let (negate, s) := takeSign s
  let (s, base) := resolveBasePrefix s base
  (fromCharsUnsignedIn s base).map fun value =>
    if negate then (2 ^ 64 - value) % 2 ^ 64 else value

def convertFromString (T : IntType) (s : List UInt8) (base : Nat) : Option Int :=
  if T.isSigned then (toSignedIn s base).map T.cast
  else (toUnsignedIn s base).map fun value : Nat => T.cast value

/-- `num_str`. -/
def numStr (n base : Nat) : List UInt8 := Radix.text base n

/-! ## Base 10 -/

theorem prefixBase_eq_some {c : UInt8} {p : Nat} (h : prefixBase c = some p) :
    (c = 120 ∨ c = 88) ∧ p = 16 ∨ (c = 98 ∨ c = 66) ∧ p = 2 ∨ (c = 111 ∨ c = 79) ∧ p = 8 := by
  rw [prefixBase] at h
  split_ifs at h with h₁ h₂ h₃
  · exact .inl ⟨h₁, (Option.some.inj h).symm⟩
  · exact .inr (.inl ⟨h₂, (Option.some.inj h).symm⟩)
  · exact .inr (.inr ⟨h₃, (Option.some.inj h).symm⟩)

/-! ## Texts of integers -/

/-- A base that is given, or no base, and a prefix that stands for the base `b`. -/
structure ReadsIn (base : Nat) (pre : List UInt8) (b : Nat) : Prop where
  two_le : 2 ≤ b
  le : b ≤ 36
  resolves : (pre = [] ∧ (base = b ∨ base = 0 ∧ b = 10)) ∨
    ∃ c, pre = [48, c] ∧ prefixBase c = some b ∧ (base = 0 ∨ base = b)

/-- A sign, if there is one, and whether it is a `-`. -/
def signText : Option Bool → List UInt8
  | none => []
  | some negative => if negative then [minus] else [plus]

/-- The integer of a sign and a number. -/
def signed (sign : Option Bool) (n : Nat) : Int := if sign = some true then -n else n

/-- The text of an integer. -/
def intStr (z : Int) (pre : List UInt8) (b : Nat) : List UInt8 :=
  signText (if z < 0 then some true else none) ++ (pre ++ numStr z.natAbs b)

variable {base b : Nat} {pre digits : List UInt8} {c : UInt8}

/-- A letter that is a digit is no prefix of the base. -/
theorem lt_of_prefixBase {p : Nat} (h : prefixBase c = some p) (hdigit : Radix.isDigit b c = true) :
    p < b ∧ 10 < b := by
  have hall : ∀ c : UInt8, ∀ d, Radix.digitOf c = some d → Radix.isDigit b c = true → d < b := by
    intro c d hd hlt
    rw [Radix.isDigit, hd, Option.any_some, decide_eq_true_eq] at hlt
    exact hlt
  obtain ⟨rfl | rfl, rfl⟩ | ⟨rfl | rfl, rfl⟩ | ⟨rfl | rfl, rfl⟩ := prefixBase_eq_some h
  · have hlt := hall 120 33 rfl hdigit
    omega
  · have hlt := hall 88 33 rfl hdigit
    omega
  · have hlt := hall 98 11 rfl hdigit
    omega
  · have hlt := hall 66 11 rfl hdigit
    omega
  · have hlt := hall 111 24 rfl hdigit
    omega
  · have hlt := hall 79 24 rfl hdigit
    omega

/-- The prefix is taken off, and nothing of the digits. -/
theorem resolveBasePrefix_append (h : ReadsIn base pre b)
    (hdigits : ∀ c ∈ digits, Radix.isDigit b c = true) :
    resolveBasePrefix (pre ++ digits) base = (digits, b) := by
  have htwo := h.two_le
  obtain ⟨rfl, hbase⟩ | ⟨c, rfl, hc, hbase⟩ := h.resolves
  · have hb : (if base = 0 then 10 else base) = b := by
      obtain rfl | ⟨rfl, rfl⟩ := hbase
      · exact if_neg (by omega)
      · rfl
    rw [List.nil_append]
    unfold resolveBasePrefix
    split
    · rename_i c rest
      split
      · rename_i p hp
        have hlt := lt_of_prefixBase hp (hdigits c (by simp))
        rw [if_neg (by omega), hb]
      · rw [hb]
    · rw [hb]
  · rw [List.cons_append, List.cons_append, List.nil_append, resolveBasePrefix, hc]
    exact if_pos hbase

theorem takeSign_signText (sign : Option Bool) {s : List UInt8}
    (h : ∀ c, s.head? = some c → c ≠ minus ∧ c ≠ plus) :
    takeSign (signText sign ++ s) = (decide (sign = some true), s) := by
  cases sign with
  | none =>
    cases s with
    | nil => rfl
    | cons c s =>
      obtain ⟨hminus, hplus⟩ := h c rfl
      exact if_neg (not_or.mpr ⟨hminus, hplus⟩)
  | some negative => cases negative <;> rfl

theorem ne_sign_of_isDigit (h : Radix.isDigit b c = true) : c ≠ minus ∧ c ≠ plus := by
  have hnone : ∀ c, Radix.digitOf c = none → Radix.isDigit b c = true → False := by
    intro c hc hdigit
    rw [Radix.isDigit, hc] at hdigit
    exact absurd hdigit (by simp)
  constructor
  · rintro rfl
    exact hnone minus rfl h
  · rintro rfl
    exact hnone plus rfl h

theorem head?_ne_sign (h : ReadsIn base pre b)
    (hdigits : ∀ c ∈ digits, Radix.isDigit b c = true) (c : UInt8)
    (hc : (pre ++ digits).head? = some c) : c ≠ minus ∧ c ≠ plus := by
  obtain ⟨rfl, -⟩ | ⟨c', rfl, -⟩ := h.resolves
  · exact ne_sign_of_isDigit (hdigits c (List.mem_of_head? hc))
  · cases hc
    decide

theorem fromCharsSignedIn_digits (hdigits : ∀ c ∈ digits, Radix.isDigit b c = true) :
    fromCharsSignedIn digits b =
      if digits ≠ [] ∧ Radix.value b digits < 2 ^ 63 then some (Radix.value b digits : Int)
      else none := by
  have hminus : (digits.head? == some minus) = false := by
    rw [beq_eq_false_iff_ne]
    exact fun heq => (ne_sign_of_isDigit (hdigits _ (List.mem_of_head? heq))).1 rfl
  rw [fromCharsSignedIn]
  simp only [hminus, Bool.false_eq_true, if_false, List.takeWhile_eq_self_iff.mpr hdigits]
  refine if_congr (and_congr_right fun _ => ?_) rfl rfl
  omega

theorem fromCharsUnsignedIn_digits (hdigits : ∀ c ∈ digits, Radix.isDigit b c = true) :
    fromCharsUnsignedIn digits b =
      if digits ≠ [] ∧ Radix.value b digits < 2 ^ 64 then some (Radix.value b digits) else none := by
  rw [fromCharsUnsignedIn, List.takeWhile_eq_self_iff.mpr hdigits]

/-! ## Conversions -/

/-- The magnitudes that the conversion reads before it casts them to the type. -/
def IntType.Reads (T : IntType) (n : Nat) : Prop :=
  n < if T.isSigned then 2 ^ 63 else 2 ^ 64

instance (T : IntType) (n : Nat) : Decidable (T.Reads n) :=
  inferInstanceAs (Decidable (_ < _))

/-- A negative number that has wrapped around in 64 bits is cast as itself. -/
theorem cast_of_wrapped {T : IntType} (hT : T.isSigned = false) {n : Nat} (h : n < 2 ^ 64) :
    T.cast ((2 ^ 64 - n) % 2 ^ 64 : Nat) = T.cast (-n) := by
  have hwrap : (((2 ^ 64 - n) % 2 ^ 64 : Nat) : Int) = (-n : Int) % 2 ^ 64 := by
    omega
  have hdvd : (2 ^ T.width : Int) ∣ 2 ^ 64 := by
    refine pow_dvd_pow 2 ?_
    cases T <;> decide
  rw [IntType.cast, IntType.cast, hT, if_neg Bool.false_ne_true, if_neg Bool.false_ne_true, hwrap,
    Int.emod_emod_of_dvd _ hdvd]

/-- A sign, a prefix and digits are converted to their integer, cast to the type. -/
theorem convertFromString_digits (T : IntType) (h : ReadsIn base pre b) (sign : Option Bool)
    (hdigits : ∀ c ∈ digits, Radix.isDigit b c = true) :
    convertFromString T (signText sign ++ (pre ++ digits)) base =
      if digits ≠ [] ∧ T.Reads (Radix.value b digits) then
        some (T.cast (signed sign (Radix.value b digits)))
      else none := by
  have hsign := takeSign_signText sign (head?_ne_sign h hdigits)
  have hresolve := resolveBasePrefix_append h hdigits
  by_cases hT : T.isSigned = true
  · have hreads : T.Reads (Radix.value b digits) ↔ Radix.value b digits < 2 ^ 63 := by
      rw [IntType.Reads, if_pos hT]
    rw [convertFromString, if_pos hT, toSignedIn, hsign]
    dsimp only
    rw [hresolve]
    dsimp only
    rw [fromCharsSignedIn_digits hdigits, if_congr (and_congr_right fun _ => hreads) rfl rfl]
    by_cases hvalue : digits ≠ [] ∧ Radix.value b digits < 2 ^ 63
    · rw [if_pos hvalue, if_pos hvalue, Option.map_some, Option.map_some, signed]
      simp only [decide_eq_true_eq]
    · rw [if_neg hvalue, if_neg hvalue]
      rfl
  · have hreads : T.Reads (Radix.value b digits) ↔ Radix.value b digits < 2 ^ 64 := by
      rw [IntType.Reads, if_neg hT]
    rw [convertFromString, if_neg hT, toUnsignedIn, hsign]
    dsimp only
    rw [hresolve]
    dsimp only
    rw [fromCharsUnsignedIn_digits hdigits, if_congr (and_congr_right fun _ => hreads) rfl rfl]
    by_cases hvalue : digits ≠ [] ∧ Radix.value b digits < 2 ^ 64
    · rw [if_pos hvalue, if_pos hvalue, Option.map_some, Option.map_some, signed]
      simp only [decide_eq_true_eq]
      by_cases hneg : sign = some true
      · rw [if_pos hneg, if_pos hneg, cast_of_wrapped (Bool.eq_false_of_not_eq_true hT) hvalue.2]
      · rw [if_neg hneg, if_neg hneg]
    · rw [if_neg hvalue, if_neg hvalue]
      rfl

theorem natAbs_signed (sign : Option Bool) (n : Nat) : (signed sign n).natAbs = n := by
  rw [signed]
  split_ifs
  · rw [Int.natAbs_neg, Int.natAbs_natCast]
  · exact Int.natAbs_natCast n

theorem signed_natAbs (z : Int) :
    signed (if z < 0 then some true else none) z.natAbs = z := by
  by_cases hneg : z < 0
  · rw [if_pos hneg, signed, if_pos rfl]
    omega
  · rw [if_neg hneg, signed, if_neg (by decide)]
    omega

/-- An integer that no 64-bit number of the sort of the type is read from. -/
def IntType.Exceeds (T : IntType) (z : Int) : Prop :=
  if T.isSigned then z < -2 ^ 63 ∨ 2 ^ 63 ≤ z else 2 ^ 64 ≤ z.natAbs

theorem IntType.reads_of_inRange {T : IntType} {z : Int} (h : T.InRange z) (hne : z ≠ -2 ^ 63) :
    T.Reads z.natAbs := by
  rw [IntType.InRange] at h
  rw [IntType.Reads]
  cases T <;>
    simp only [IntType.isSigned, IntType.width, if_true, if_false, Bool.false_eq_true] at h ⊢ <;>
    omega

theorem IntType.not_reads_of_exceeds {T : IntType} {z : Int} (h : T.Exceeds z) :
    ¬ T.Reads z.natAbs := by
  rw [IntType.Exceeds] at h
  rw [IntType.Reads]
  split_ifs at h ⊢ <;> omega

/-- The text of an integer of the type is converted to it, but for the least
integer of 64 bits. The value of a text of digits is its integer, cast to the
type, and integers of more than 64 bits are not converted. -/
theorem convertFromString_spec (T : IntType) {base b : Nat} {pre : List UInt8}
    (h : ReadsIn base pre b) :
    (∀ z, T.InRange z → z ≠ -2 ^ 63 → convertFromString T (intStr z pre b) base = some z) ∧
    ∀ sign digits, (∀ c ∈ digits, Radix.isDigit b c = true) →
      (∀ r, convertFromString T (signText sign ++ (pre ++ digits)) base = some r →
        r = T.cast (signed sign (Radix.value b digits)) ∧
          (T.InRange (signed sign (Radix.value b digits)) →
            r = signed sign (Radix.value b digits))) ∧
      (T.Exceeds (signed sign (Radix.value b digits)) →
        convertFromString T (signText sign ++ (pre ++ digits)) base = none) := by
  constructor
  · intro z hz hne
    have hdigits : ∀ c ∈ numStr z.natAbs b, Radix.isDigit b c = true :=
      fun c hc => Radix.isDigit_of_mem h.two_le h.le hc
    have hvalue : Radix.value b (numStr z.natAbs b) = z.natAbs :=
      Radix.value_text h.two_le h.le z.natAbs
    rw [intStr, convertFromString_digits T h _ hdigits, hvalue, signed_natAbs,
      T.cast_of_inRange hz]
    exact if_pos ⟨Radix.text_ne_nil b _, IntType.reads_of_inRange hz hne⟩
  · intro sign digits hdigits
    rw [convertFromString_digits T h sign hdigits]
    constructor
    · intro r hr
      split_ifs at hr
      cases hr
      exact ⟨rfl, fun hrange => T.cast_of_inRange hrange⟩
    · intro hexceeds
      refine if_neg fun hboth => ?_
      exact IntType.not_reads_of_exceeds hexceeds (natAbs_signed sign _ ▸ hboth.2)

/-- The text of the least integer of 32 bits in base 16, with a prefix. -/
theorem convertFromString_int32 :
    convertFromString .int32 (intStr (-2147483648) [48, 120] 16) 0 = some (-2147483648) :=
  (@convertFromString_spec .int32 0 16 [48, 120] ⟨by decide, by decide,
    .inr ⟨120, rfl, by decide, .inl rfl⟩⟩).1 _ (by decide) (by decide)

/-- The first integer that is too big for 16 bits is not rejected: another one
comes out. -/
theorem convertFromString_int16 :
    ∃ r, convertFromString .int16 [51, 50, 55, 54, 56] 10 = some r ∧
      r ≠ signed none (Radix.value 10 [51, 50, 55, 54, 56]) :=
  ⟨-32768, by decide +kernel, by decide +kernel⟩

end Sihd.Util.Str
