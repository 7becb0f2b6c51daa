import Sihd.Util.DataType

/-!
# Slices and arrays

An `IArray` is an array seen by its bytes: `buf` is its whole capacity and the
first `size` elements are in use, which the field `fits` says. Byte ranges are
given by a `Slice`, whose bounds may count from the end and which is clamped
when it is resolved. Allocation is taken to succeed.
-/

namespace Sihd.Util

/-- The elements from `start` to `stop`, both included; a negative bound counts
from the end. -/
structure Slice where
  start : Int
  stop : Int

/-- A resolved slice: `stop` is the first index after it. -/
structure Range where
  start : Nat
  stop : Nat
  deriving DecidableEq

namespace Slice

/-- The slice from an offset to the end. -/
def ofOffset (offset : Nat) : Slice := ⟨offset, -1⟩

/-- The whole array. -/
def all : Slice := ⟨0, -1⟩

def resolve (s : Slice) (size : Nat) : Range :=
  let f := if s.start < 0 then s.start + size else s.start
  let t := if s.stop < 0 then s.stop + size else s.stop
  let f := max 0 (min f size)
  let t := max (-1) (min t (size - 1))
  if t < f then ⟨0, 0⟩ else ⟨f.toNat, (t + 1).toNat⟩

theorem resolve_ofOffset_of_lt {offset size : Nat} (h : offset < size) :
    (ofOffset offset).resolve size = ⟨offset, size⟩ := by
  change resolve ⟨offset, -1⟩ size = _
  simp only [resolve]
  split_ifs <;> first | omega | exact congrArg₂ Range.mk (by omega) (by omega)

theorem resolve_ofOffset_of_ge {offset size : Nat} (h : size ≤ offset) :
    (ofOffset offset).resolve size = ⟨0, 0⟩ := by
  change resolve ⟨offset, -1⟩ size = _
  simp only [resolve]
  split_ifs <;> first | rfl | omega

/-- The slice from an offset of type `size_t`, which is cast to `ssize_t`: from
`2 ^ 63` on it counts from the end. -/
def ofCast (offset : Nat) : Slice := ⟨(BitVec.ofNat 64 offset).toInt, -1⟩

theorem ofCast_of_lt {offset : Nat} (h : offset < 2 ^ 63) : ofCast offset = ofOffset offset := by
  have hcast : (BitVec.ofNat 64 offset).toInt = offset := by
    rw [BitVec.toInt_eq_toNat_cond, BitVec.toNat_ofNat, Nat.mod_eq_of_lt (by omega),
      if_pos (by omega)]
  rw [ofCast, hcast, ofOffset]

theorem resolve_ofCast_of_ge {offset : Nat} (h : 2 ^ 63 ≤ offset) (hlt : offset < 2 ^ 64)
    (size : Nat) : (ofCast offset).resolve size = ⟨size - (2 ^ 64 - offset), size⟩ := by
  have hcast : (BitVec.ofNat 64 offset).toInt = offset - 2 ^ 64 := by
    rw [BitVec.toInt_eq_toNat_cond, BitVec.toNat_ofNat, Nat.mod_eq_of_lt hlt, if_neg (by omega)]
    norm_num
  rw [ofCast, hcast]
  simp only [resolve]
  split_ifs <;> first | omega | exact congrArg₂ Range.mk (by omega) (by omega)

end Slice

/-- A view of bytes in memory: no object is larger than `2 ^ 63 - 1` bytes. -/
structure ArrByteView where
  bytes : List UInt8
  addressable : bytes.length < 2 ^ 63

structure IArray where
  type : DataType
  buf : List UInt8
  size : Nat
  fits : size * type.size ≤ buf.length

namespace IArray

def byteSize (a : IArray) : Nat := a.size * a.type.size

def byteCapacity (a : IArray) : Nat := a.buf.length

def byteIndex (a : IArray) (index : Nat) : Nat := index * a.type.size

def bufAt (a : IArray) (index : Nat) : List UInt8 := a.buf.drop (a.byteIndex index)

/-- The bytes in use. -/
def bytes (a : IArray) : List UInt8 := a.buf.take a.byteSize

@[simp] theorem bytes_length (a : IArray) : a.bytes.length = a.byteSize :=
  List.length_take_of_le a.fits

/-- The array over a new buffer, with the bytes in use unchanged in number. -/
def withBuf (a : IArray) (buf : List UInt8) (h : buf.length = a.buf.length) : IArray :=
  { a with buf := buf, fits := h ▸ a.fits }

/-- `copy_from_bytes`, with the array it leaves when it returns true. -/
def copyFromBytes (a : IArray) (src : List UInt8) (slice : Slice) : Option IArray :=
  let range := slice.resolve a.byteSize
  if h : range.start < range.stop ∧ range.start + src.length ≤ a.byteSize then
    some (a.withBuf (overwrite a.buf range.start src)
      (overwrite_length (h.2.trans a.fits)))
  else none

def isBytesEqual (a : IArray) (src : List UInt8) (slice : Slice) : Bool :=
  let range := slice.resolve a.byteSize
  if a.byteSize < range.start + src.length then false
  else (a.buf.drop range.start).take src.length == src

/-- The capacity that `_internal_reserve` asks for: the current one, doubled
until it is enough. -/
def newCapacity (capacity needed : Nat) : Nat :=
  if capacity = 0 then needed
  else if needed ≤ capacity then capacity
  else newCapacity (capacity * 2) needed
  termination_by needed - capacity

@[simp] theorem newCapacity_zero (needed : Nat) : newCapacity 0 needed = needed := by
  rw [newCapacity, if_pos rfl]

theorem le_newCapacity (capacity needed : Nat) : needed ≤ newCapacity capacity needed := by
  fun_induction newCapacity capacity needed with
  | case1 => exact le_rfl
  | case2 capacity hcap hle => exact hle
  | case3 capacity hcap hlt ih => exact ih

/-- `resize`: the elements of a larger capacity are zero, those that the
capacity already had are as they were left. -/
def resize (a : IArray) (size : Nat) : IArray :=
  if h : size * a.type.size ≤ a.buf.length then
    { a with size := size, fits := h }
  else
    { a with
      buf := a.buf ++ List.replicate
        (newCapacity (a.buf.length / a.type.size) size * a.type.size - a.buf.length) 0
      size := size
      fits := by
        have hcap := Nat.mul_le_mul_right a.type.size
          (le_newCapacity (a.buf.length / a.type.size) size)
        rw [List.length_append, List.length_replicate]
        omega }

@[simp] theorem resize_size (a : IArray) (size : Nat) : (a.resize size).size = size := by
  unfold resize
  split <;> rfl

@[simp] theorem resize_type (a : IArray) (size : Nat) : (a.resize size).type = a.type := by
  unfold resize
  split <;> rfl

/-- `Array<T>(size)` followed by `resize(size)`. -/
def ofSize (type : DataType) (size : Nat) : IArray where
  type := type
  buf := List.replicate (size * type.size) 0
  size := size
  fits := by simp

/-- A copy changes bytes only. -/
theorem copyFromBytes_shape {a a' : IArray} {src : List UInt8} {slice : Slice}
    (h : a.copyFromBytes src slice = some a') : a'.type = a.type ∧ a'.size = a.size := by
  simp only [copyFromBytes] at h
  split at h
  · cases h
    exact ⟨rfl, rfl⟩
  · cases h

theorem copyFromBytes_byteCapacity {a a' : IArray} {src : List UInt8} {slice : Slice}
    (h : a.copyFromBytes src slice = some a') : a'.byteCapacity = a.byteCapacity := by
  simp only [copyFromBytes] at h
  split at h
  · rename_i hfits
    cases h
    exact overwrite_length (hfits.2.trans a.fits)
  · cases h

/-- A resize inside the capacity keeps the buffer. -/
theorem resize_buf {a : IArray} {size : Nat} (h : size * a.type.size ≤ a.byteCapacity) :
    (a.resize size).buf = a.buf := by
  rw [byteCapacity] at h
  rw [resize, dif_pos h]

section Range

variable {a : IArray} {src : List UInt8} {slice : Slice} {range : Range}

theorem copyFromBytes_of_resolve (hrange : slice.resolve a.byteSize = range)
    (hne : range.start < range.stop) (h : range.start + src.length ≤ a.byteSize) :
    a.copyFromBytes src slice =
      some (a.withBuf (overwrite a.buf range.start src)
        (overwrite_length (h.trans a.fits))) := by
  subst hrange
  rw [copyFromBytes, dif_pos ⟨hne, h⟩]

theorem copyFromBytes_eq_none (hrange : slice.resolve a.byteSize = range)
    (h : range.stop ≤ range.start ∨ a.byteSize < range.start + src.length) :
    a.copyFromBytes src slice = none := by
  subst hrange
  rw [copyFromBytes, dif_neg (by omega)]

theorem isBytesEqual_of_resolve (hrange : slice.resolve a.byteSize = range)
    (h : range.start + src.length ≤ a.byteSize) :
    a.isBytesEqual src slice = ((a.buf.drop range.start).take src.length == src) := by
  subst hrange
  rw [isBytesEqual, if_neg (by omega)]

theorem isBytesEqual_eq_false (hrange : slice.resolve a.byteSize = range)
    (h : a.byteSize < range.start + src.length) : a.isBytesEqual src slice = false := by
  subst hrange
  rw [isBytesEqual, if_pos h]

end Range

end IArray

end Sihd.Util
