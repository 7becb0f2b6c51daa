import Mathlib.Tactic.Common
import Mathlib.Tactic.Positivity
import Mathlib.Tactic.Zify
import Sihd.Lib.Bytes

/-!
# The types of array elements

`DataType` is the enumeration of the element types and `DataType.size` the
number of bytes of one element. The value of an integer element is read from
its bytes with `DataType.toInt`: two's complement for the signed types.
-/

namespace Sihd.Util

inductive DataType
  | none
  | bool
  | char
  | byte
  | ubyte
  | short
  | ushort
  | int
  | uint
  | long
  | ulong
  | float
  | double
  | object
  deriving DecidableEq

namespace DataType

/-- `type::size`. -/
def size : DataType → Nat
  | bool | char | byte | ubyte => 1
  | short | ushort => 2
  | int | uint | float => 4
  | long | ulong | double => 8
  | none | object => 0

/-- `create_from_type` has an array of this type. -/
def hasArray : DataType → Bool
  | none | object => false
  | _ => true

/-- The integer types of fixed width. -/
def isInteger : DataType → Bool
  | byte | ubyte | short | ushort | int | uint | long | ulong => true
  | _ => false

def isSigned : DataType → Bool
  | byte | short | int | long => true
  | _ => false

/-- The integer stored in an element of type `t` whose bytes are those of
`n`. -/
def toInt (t : DataType) (n : Nat) : Int :=
  if t.isSigned ∧ 256 ^ t.size ≤ 2 * n then (n : Int) - 256 ^ t.size else n

/-- The integers that an element of type `t` can hold. -/
def Holds (t : DataType) (v : Int) : Prop :=
  if t.isSigned then -(256 ^ t.size) ≤ 2 * v ∧ 2 * v < 256 ^ t.size
  else 0 ≤ v ∧ v < 256 ^ t.size

instance (t : DataType) (v : Int) : Decidable (t.Holds v) := by
  unfold Holds
  infer_instance

theorem size_pos_of_isInteger {t : DataType} (h : t.isInteger = true) : 0 < t.size := by
  cases t <;> simp_all [isInteger, size]

theorem size_eq_zero_of_hasArray {t : DataType} (h : t.hasArray = false) : t.size = 0 := by
  cases t <;> simp_all [hasArray, size]

theorem size_le (t : DataType) : t.size ≤ 8 := by
  cases t <;> simp [size]

/-- The bytes of an integer that the type holds are those of its remainder. -/
theorem toInt_emod {t : DataType} {v : Int} (h : t.Holds v) :
    t.toInt (v % 256 ^ t.size).toNat = v := by
  have hpos : (0 : Int) < 256 ^ t.size := by positivity
  have hnonneg := Int.emod_nonneg v hpos.ne'
  have hlt := Int.emod_lt_of_pos v hpos
  have hcast : (((v % 256 ^ t.size).toNat : Nat) : Int) = v % 256 ^ t.size :=
    Int.toNat_of_nonneg hnonneg
  unfold toInt
  unfold Holds at h
  by_cases hsigned : t.isSigned = true
  · rw [if_pos hsigned] at h
    rcases lt_or_ge v 0 with hneg | hv
    · have hmod : v % 256 ^ t.size = v + 256 ^ t.size := by
        rw [← Int.add_emod_right, Int.emod_eq_of_lt (by omega) (by omega)]
      rw [if_pos ⟨hsigned, by zify; omega⟩]
      omega
    · have hmod : v % 256 ^ t.size = v := Int.emod_eq_of_lt hv (by omega)
      rw [if_neg, hcast, hmod]
      rintro ⟨-, hle⟩
      zify at hle
      omega
  · rw [if_neg hsigned] at h
    rw [if_neg (fun hs => hsigned hs.1), hcast, Int.emod_eq_of_lt h.1 h.2]

end DataType

end Sihd.Util

/-!
## Values of primitive type

A `Value` is a type and a union of eight bytes. The values here are those of
the integer types: their comparisons read the union as an `int64_t`. A value
read from a buffer has the bytes of its element and zeros above them, on a
little-endian machine.
-/

namespace Sihd.Util

structure Value where
  type : DataType
  data : BitVec 64
  deriving DecidableEq

namespace Value

/-- `data.n`. -/
def n (v : Value) : Int := v.data.toInt

/-- `Value(const uint8_t *buf, Type type)`. -/
def ofBuffer (buf : List UInt8) (type : DataType) : Value where
  type := type
  data := BitVec.ofNat 64 (wordOf (buf.take type.size))

/-- `Value(int64_t val)`, the value of a parsed integer. -/
def ofInt64 (val : Int) : Value where
  type := .long
  data := BitVec.ofInt 64 val

/-- `compare(val.data.n)`, which `compare` calls when neither value is a
float. -/
def compare (v val : Value) : Int :=
  if v.n = val.n then 0 else if v.n < val.n then -1 else 1

theorem compare_eq_zero_iff (v val : Value) : v.compare val = 0 ↔ v.n = val.n := by
  unfold compare
  split_ifs with heq hlt
  · simp [heq]
  · simp [heq]
  · simp [heq]

theorem compare_pos_iff (v val : Value) : 0 < v.compare val ↔ val.n < v.n := by
  unfold compare
  split_ifs <;> omega

theorem compare_neg_iff (v val : Value) : v.compare val < 0 ↔ v.n < val.n := by
  unfold compare
  split_ifs <;> omega

/-- The integer that the union shows for a value `v` of type `t`: only
`int64_t` is sign-extended, and the upper half of `uint64_t` is negative. -/
def shown (t : DataType) (v : Int) : Int :=
  if t = .long then v
  else if v < 0 then v + 256 ^ t.size
  else if 2 ^ 63 ≤ v then v - 2 ^ 64 else v

theorem n_ofBuffer {buf : List UInt8} {t : DataType} (ht : t.isInteger = true)
    (hbuf : t.size ≤ buf.length) :
    (ofBuffer buf t).n = shown t (t.toInt (wordOf (buf.take t.size))) := by
  have hlt := wordOf_lt (buf.take t.size)
  rw [List.length_take_of_le hbuf] at hlt
  simp only [n, ofBuffer]
  generalize wordOf (buf.take t.size) = w at hlt
  rw [BitVec.toInt_ofNat', Int.bmod_def]
  cases t <;>
    simp only [DataType.isInteger, Bool.false_eq_true] at ht <;>
    simp only [DataType.size, shown, DataType.toInt, DataType.isSigned, reduceCtorEq] at hlt ⊢ <;>
    norm_num at hlt ⊢ <;>
    split_ifs <;> omega

end Value

end Sihd.Util
