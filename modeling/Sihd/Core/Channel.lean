import Sihd.Util.Array

/-!
# Channels

A `Channel` is an array with a timestamp whose observers are told of its
writes. `write` copies bytes to an offset: it refuses to while the observers
are being told, leaves the channel alone when the bytes are already there and
only changes are written, and grows the array up to its capacity when the
channel is resizable.
-/

namespace Sihd.Core

open Util

structure Channel where
  array : IArray
  timestamp : Int
  notifying : Bool
  writeChangeOnly : Bool
  resizable : Bool
  /-- No buffer is larger than `2 ^ 63 - 1` bytes. -/
  addressable : array.byteCapacity < 2 ^ 63

namespace Channel

/-- A constructed channel. -/
def create (type : DataType) (size : Nat) (h : size * type.size < 2 ^ 63 := by decide) :
    Channel where
  array := IArray.ofSize type size
  timestamp := 0
  notifying := false
  writeChangeOnly := true
  resizable := false
  addressable := by
    rw [IArray.byteCapacity, IArray.ofSize, List.length_replicate]
    exact h

/-- What a call to `write` did: the value it returned, whether the observers
were told, and the channel it left. -/
structure Written where
  ret : Bool
  notified : Bool
  channel : Channel

/-- The part of `write` that follows the check of the size. The sums of a
position in the array and the size of a view do not wrap: both are below
`2 ^ 63`. -/
def copy (c : Channel) (now : Int) (bytes : List UInt8) (byteOffset : Nat) : Written :=
  if c.writeChangeOnly ∧ c.array.isBytesEqual bytes (.ofCast byteOffset) then
    ⟨true, false, c⟩
  else
    match h : c.array.copyFromBytes bytes (.ofCast byteOffset) with
    | some array =>
        ⟨true, true, { c with
          array := array
          timestamp := now
          addressable := IArray.copyFromBytes_byteCapacity h ▸ c.addressable }⟩
    | none => ⟨false, false, c⟩

/-- `byte_resize` to a number of elements that the capacity holds. -/
def byteResize (c : Channel) (needed : Nat) (h : needed ≤ c.array.byteCapacity) : Channel :=
  { c with
    array := c.array.resize (needed / c.array.type.size)
    addressable := by
      have hle := (Nat.div_mul_le_self needed c.array.type.size).trans h
      rw [IArray.byteCapacity, IArray.resize_buf hle]
      exact c.addressable }

/-- `write` of some bytes at an offset, with the clock at `now`; `none` is the
exception of a resize to a part of an element. The sum `needed` is a `size_t`,
which wraps. -/
def write (c : Channel) (now : Int) (bytes : List UInt8) (byteOffset : Nat) :
    Option Written :=
  let needed := (bytes.length + byteOffset) % 2 ^ 64
  if c.notifying then some ⟨false, false, c⟩
  else if needed ≤ c.array.byteSize then some (c.copy now bytes byteOffset)
  else if h : c.resizable = false ∨ c.array.byteCapacity < needed then
    some ⟨false, false, c⟩
  else if needed % c.array.type.size ≠ 0 then none
  else
    some ((c.byteResize needed (by omega)).copy now bytes byteOffset)

/-! ### The three ways of a copy -/

section Copy

variable {c : Channel} {bytes : List UInt8} {byteOffset : Nat}

theorem copy_of_equal (now : Int) (hchange : c.writeChangeOnly = true)
    (hequal : c.array.isBytesEqual bytes (.ofCast byteOffset) = true) :
    c.copy now bytes byteOffset = ⟨true, false, c⟩ := by
  rw [copy, if_pos ⟨hchange, hequal⟩]

theorem copy_of_some (now : Int) {array : IArray}
    (h : ¬ (c.writeChangeOnly = true ∧
      c.array.isBytesEqual bytes (.ofCast byteOffset) = true))
    (hcopy : c.array.copyFromBytes bytes (.ofCast byteOffset) = some array) :
    c.copy now bytes byteOffset =
      ⟨true, true, { c with
        array := array
        timestamp := now
        addressable := IArray.copyFromBytes_byteCapacity hcopy ▸ c.addressable }⟩ := by
  rw [copy, if_neg h]
  split
  · rename_i array' hcopy'
    cases hcopy.symm.trans hcopy'
    rfl
  · rename_i hnone
    cases hcopy.symm.trans hnone

theorem copy_of_none (now : Int)
    (h : ¬ (c.writeChangeOnly = true ∧
      c.array.isBytesEqual bytes (.ofCast byteOffset) = true))
    (hcopy : c.array.copyFromBytes bytes (.ofCast byteOffset) = none) :
    c.copy now bytes byteOffset = ⟨false, false, c⟩ := by
  rw [copy, if_neg h]
  split
  · rename_i array' hcopy'
    cases hcopy.symm.trans hcopy'
  · rfl

/-- The channel after a copy into the array. -/
def overwritten (c : Channel) (now : Int) (bytes : List UInt8) (byteOffset : Nat)
    (h : byteOffset + bytes.length ≤ c.array.byteSize) : Channel :=
  { c with
    array := c.array.withBuf (overwrite c.array.buf byteOffset bytes)
      (overwrite_length (h.trans c.array.fits))
    timestamp := now
    addressable := by
      rw [IArray.byteCapacity, IArray.withBuf, overwrite_length (h.trans c.array.fits)]
      exact c.addressable }

/-- A copy into the array: the bytes are already there, or they are written. -/
theorem copy_inside (now : Int) (hlt : byteOffset < c.array.byteSize)
    (h : byteOffset + bytes.length ≤ c.array.byteSize) :
    c.copy now bytes byteOffset =
      if c.writeChangeOnly = true ∧ (c.array.buf.drop byteOffset).take bytes.length = bytes
      then ⟨true, false, c⟩
      else ⟨true, true, c.overwritten now bytes byteOffset h⟩ := by
  have hcap : c.array.byteSize < 2 ^ 63 := c.array.fits.trans_lt c.addressable
  have hrange : (Slice.ofCast byteOffset).resolve c.array.byteSize =
      ⟨byteOffset, c.array.byteSize⟩ := by
    rw [Slice.ofCast_of_lt (by omega), Slice.resolve_ofOffset_of_lt hlt]
  have hequal := @IArray.isBytesEqual_of_resolve _ bytes _ _ hrange h
  have hcopy := @IArray.copyFromBytes_of_resolve _ bytes _ _ hrange hlt h
  split
  · rename_i hsame
    refine copy_of_equal now hsame.1 ?_
    rw [hequal, beq_iff_eq]
    exact hsame.2
  · rename_i hsame
    refine copy_of_some now ?_ hcopy
    rwa [hequal, beq_iff_eq]

end Copy

/-- The bytes of the element at an index. -/
def bytesAt (c : Channel) (index : Nat) : List UInt8 :=
  (c.array.bufAt index).take c.array.type.size

/-- The integer stored at an index. -/
def valueAt (c : Channel) (index : Nat) : Int :=
  c.array.type.toInt (wordOf (c.bytesAt index))

theorem bytesAt_length {c : Channel} {index : Nat} (h : index < c.array.size) :
    (c.bytesAt index).length = c.array.type.size := by
  have hfits := c.array.fits
  have hend : (index + 1) * c.array.type.size ≤ c.array.size * c.array.type.size :=
    Nat.mul_le_mul_right _ h
  rw [Nat.succ_mul] at hend
  rw [bytesAt, List.length_take_of_le]
  rw [IArray.bufAt, IArray.byteIndex, List.length_drop]
  omega

/-- A write of one element to a free channel stores it, whether or not it was
there. -/
theorem write_element {c : Channel} {bytes : List UInt8} {index : Nat} (now : Int)
    (hfree : c.notifying = false) (hbytes : bytes.length = c.array.type.size)
    (hpos : 0 < c.array.type.size) (h : index < c.array.size) :
    ∃ w, c.write now bytes (c.array.byteIndex index) = some w ∧ w.ret = true ∧
      w.channel.array.type = c.array.type ∧ w.channel.bytesAt index = bytes := by
  have hend : (index + 1) * c.array.type.size ≤ c.array.byteSize :=
    Nat.mul_le_mul_right _ h
  rw [Nat.succ_mul] at hend
  have hroom : c.array.byteIndex index + bytes.length ≤ c.array.byteSize := by
    rw [hbytes]
    exact hend
  have hcap : c.array.byteSize < 2 ^ 63 := c.array.fits.trans_lt c.addressable
  have hcopy : c.write now bytes (c.array.byteIndex index) =
      some (c.copy now bytes (c.array.byteIndex index)) := by
    rw [write, hfree, if_neg (by simp), if_pos (by omega)]
  rw [copy_inside now (by omega) hroom] at hcopy
  refine ⟨_, hcopy, ?_⟩
  split
  · rename_i hsame
    refine ⟨rfl, rfl, ?_⟩
    rw [bytesAt, IArray.bufAt, ← hbytes]
    exact hsame.2
  · refine ⟨rfl, rfl, ?_⟩
    have hread := overwrite_read (l := c.array.buf) (i := c.array.byteIndex index)
      (b := bytes) (hroom.trans c.array.fits)
    rw [hbytes] at hread
    exact hread

/-! ### What a write is for -/

/-- The range that is written is in the array, or in the capacity of an array
that can be resized. -/
def Accepts (c : Channel) (n byteOffset : Nat) : Prop :=
  byteOffset + n ≤ c.array.byteSize ∨
    c.resizable = true ∧ byteOffset + n ≤ c.array.byteCapacity

instance (c : Channel) (n byteOffset : Nat) : Decidable (c.Accepts n byteOffset) :=
  inferInstanceAs (Decidable (_ ∨ _))

/-- An update of the range `[byteOffset, byteOffset + n)`: nothing else changes,
and when only changes are written the observers are told, and the timestamp is
set, exactly when the content changes. -/
structure Updated (c : Channel) (now : Int) (bytes : List UInt8) (byteOffset : Nat)
    (w : Written) : Prop where
  ret : w.ret = true
  buf : w.channel.array.buf = overwrite c.array.buf byteOffset bytes
  byteSize : w.channel.array.byteSize = max c.array.byteSize (byteOffset + bytes.length)
  notified : c.writeChangeOnly = true →
    (w.notified = true ↔ w.channel.array.bytes ≠ c.array.bytes)
  timestamp : c.writeChangeOnly = true →
    w.channel.timestamp = if w.channel.array.bytes = c.array.bytes then c.timestamp else now

/-- A write is an update of its range when it is accepted, and it is refused
without a change when it is not. -/
def WritesExactly (c : Channel) (now : Int) (bytes : List UInt8) (byteOffset : Nat) : Prop :=
  (c.Accepts bytes.length byteOffset →
    ∃ w, c.write now bytes byteOffset = some w ∧ c.Updated now bytes byteOffset w) ∧
  (¬ c.Accepts bytes.length byteOffset →
    c.write now bytes byteOffset = some ⟨false, false, c⟩)

/-- Where the update of an accepted range is not lost: a range in the array has
a byte, or starts in the array, or only changes are written; a range that the
array grows for has a byte, and when only changes are written it is not what
the capacity already holds. -/
structure Grows (c : Channel) (bytes : List UInt8) (byteOffset : Nat) : Prop where
  inside : byteOffset + bytes.length ≤ c.array.byteSize →
    c.writeChangeOnly = true ∨ bytes ≠ [] ∨ byteOffset < c.array.byteSize
  outside : c.array.byteSize < byteOffset + bytes.length →
    bytes ≠ [] ∧ (c.writeChangeOnly = true →
      (c.array.buf.drop byteOffset).take bytes.length ≠ bytes)

/-- A range that is not accepted but whose end, as a `size_t`, passes the check:
it wraps to zero, which writes the last bytes of the array, or to a size that
the array is then resized to. -/
def Wraps (c : Channel) (n byteOffset : Nat) : Prop :=
  byteOffset + n = 2 ^ 64 ∧ n ≤ c.array.byteSize ∨
    c.resizable = true ∧ c.array.byteSize + 2 ^ 64 < byteOffset + n ∧
      byteOffset + n ≤ c.array.byteCapacity + 2 ^ 64

section Write

variable {c : Channel} {bytes : List UInt8} {byteOffset : Nat}

theorem byteSize_le (c : Channel) : c.array.byteSize ≤ c.array.byteCapacity := c.array.fits

theorem byteResize_byteSize {needed : Nat} (h : needed ≤ c.array.byteCapacity)
    (haligned : needed % c.array.type.size = 0) :
    (c.byteResize needed h).array.byteSize = needed := by
  simp only [byteResize, IArray.byteSize, IArray.resize_size, IArray.resize_type]
  exact Nat.div_mul_cancel (Nat.dvd_of_mod_eq_zero haligned)

theorem byteResize_buf {needed : Nat} (h : needed ≤ c.array.byteCapacity) :
    (c.byteResize needed h).array.buf = c.array.buf :=
  IArray.resize_buf ((Nat.div_mul_le_self needed c.array.type.size).trans h)

theorem copy_byteSize (c : Channel) (now : Int) (bytes : List UInt8) (byteOffset : Nat) :
    (c.copy now bytes byteOffset).channel.array.byteSize = c.array.byteSize := by
  unfold copy
  split
  · rfl
  · split
    · rename_i array hcopy
      obtain ⟨htype, hsize⟩ := IArray.copyFromBytes_shape hcopy
      rw [IArray.byteSize, IArray.byteSize, htype, hsize]
    · rfl

/-- An empty view at the end of the array. -/
theorem copy_at_end (now : Int) (h : byteOffset = c.array.byteSize) :
    c.copy now [] byteOffset = ⟨c.writeChangeOnly, false, c⟩ := by
  have hcap := c.byteSize_le.trans_lt c.addressable
  have hrange : (Slice.ofCast byteOffset).resolve c.array.byteSize = ⟨0, 0⟩ := by
    rw [Slice.ofCast_of_lt (by omega), Slice.resolve_ofOffset_of_ge h.ge]
  have hequal : c.array.isBytesEqual [] (.ofCast byteOffset) = true := by
    rw [IArray.isBytesEqual_of_resolve hrange (Nat.zero_le _)]
    rfl
  cases hchange : c.writeChangeOnly with
  | true => exact copy_of_equal now hchange hequal
  | false =>
    exact copy_of_none now (by simp [hchange])
      (IArray.copyFromBytes_eq_none hrange (.inl le_rfl))

theorem write_of_le (now : Int) (hfree : c.notifying = false)
    (h : byteOffset + bytes.length ≤ c.array.byteSize) :
    c.write now bytes byteOffset = some (c.copy now bytes byteOffset) := by
  have hcap := c.byteSize_le.trans_lt c.addressable
  rw [write, hfree, if_neg (by simp), if_pos (by omega)]

theorem write_of_grown (now : Int) (hfree : c.notifying = false)
    (hresizable : c.resizable = true) (hlt : c.array.byteSize < byteOffset + bytes.length)
    (hle : byteOffset + bytes.length ≤ c.array.byteCapacity)
    (haligned : (byteOffset + bytes.length) % c.array.type.size = 0) :
    c.write now bytes byteOffset =
      some ((c.byteResize (byteOffset + bytes.length) hle).copy now bytes byteOffset) := by
  have hcap := c.addressable
  have hneeded : (bytes.length + byteOffset) % 2 ^ 64 = byteOffset + bytes.length := by omega
  simp only [write, hneeded]
  rw [hfree, if_neg (by simp), if_neg (by omega), dif_neg (by simp [hresizable]; omega),
    if_neg (by omega)]

theorem write_of_refused (now : Int) (hfree : c.notifying = false)
    (hlt : byteOffset + bytes.length < 2 ^ 64) (h : ¬ c.Accepts bytes.length byteOffset) :
    c.write now bytes byteOffset = some ⟨false, false, c⟩ := by
  rw [Accepts, not_or, not_and] at h
  have hrefused : c.resizable = false ∨
      c.array.byteCapacity < (bytes.length + byteOffset) % 2 ^ 64 := by
    cases hresizable : c.resizable with
    | false => exact .inl rfl
    | true =>
      have hle := h.2 hresizable
      exact .inr (by omega)
  rw [write, hfree, if_neg (by simp), if_neg (by omega), dif_pos hrefused]

/-! ### An accepted write -/

/-- The bytes of the array after a copy into it. -/
theorem overwritten_bytes (now : Int)
    (h : byteOffset + bytes.length ≤ c.array.byteSize) :
    (c.overwritten now bytes byteOffset h).array.bytes =
      overwrite c.array.bytes byteOffset bytes :=
  overwrite_take h c.array.fits

theorem window_bytes (h : byteOffset + bytes.length ≤ c.array.byteSize) :
    (c.array.bytes.drop byteOffset).take bytes.length =
      (c.array.buf.drop byteOffset).take bytes.length := by
  rw [IArray.bytes, List.drop_take, List.take_take, Nat.min_eq_left (by omega)]

/-- A copy into the array is an update of it. -/
theorem updated_inside (now : Int) (hlt : byteOffset < c.array.byteSize)
    (h : byteOffset + bytes.length ≤ c.array.byteSize) :
    c.Updated now bytes byteOffset (c.copy now bytes byteOffset) := by
  have hsize : c.array.byteSize = max c.array.byteSize (byteOffset + bytes.length) := by omega
  have hfits := c.array.fits
  have hsame := overwrite_eq_self_iff (b := bytes) (i := byteOffset)
    (l := c.array.bytes) (by simpa using h)
  rw [window_bytes h] at hsame
  rw [copy_inside now hlt h]
  split
  · rename_i hequal
    refine ⟨rfl, ?_, hsize, fun _ => by simp, fun _ => by simp⟩
    exact ((overwrite_eq_self_iff (h.trans hfits)).mpr hequal.2).symm
  · rename_i hequal
    rw [not_and] at hequal
    refine ⟨rfl, rfl, hsize, fun hchange => ?_, fun hchange => ?_⟩
    · rw [overwritten_bytes, ne_eq, hsame]
      simp [hequal hchange]
    · rw [overwritten_bytes, if_neg]
      · rfl
      · rw [hsame]
        exact hequal hchange

/-- Whether the write of a range in the array is an update. -/
theorem updated_inside_iff (now : Int) (h : byteOffset + bytes.length ≤ c.array.byteSize) :
    c.Updated now bytes byteOffset (c.copy now bytes byteOffset) ↔
      (c.writeChangeOnly = true ∨ bytes ≠ [] ∨ byteOffset < c.array.byteSize) := by
  by_cases hlt : byteOffset < c.array.byteSize
  · exact iff_of_true (updated_inside now hlt h) (.inr (.inr hlt))
  · obtain rfl : bytes = [] := List.eq_nil_of_length_eq_zero (by omega)
    rw [List.length_nil] at h
    rw [copy_at_end now (by omega)]
    constructor
    · exact fun hupdated => .inl hupdated.ret
    · rintro (hchange | hne | hlt')
      · refine ⟨hchange, by simp [overwrite], ?_, fun _ => by simp, fun _ => by simp⟩
        change c.array.byteSize = _
        rw [List.length_nil]
        omega
      · exact absurd rfl hne
      · exact absurd hlt' hlt

/-- Whether a write that the array grows for is an update. -/
theorem updated_grown_iff (now : Int) (hlt : c.array.byteSize < byteOffset + bytes.length)
    (hle : byteOffset + bytes.length ≤ c.array.byteCapacity)
    (haligned : (byteOffset + bytes.length) % c.array.type.size = 0) :
    c.Updated now bytes byteOffset
        ((c.byteResize (byteOffset + bytes.length) hle).copy now bytes byteOffset) ↔
      bytes ≠ [] ∧ (c.writeChangeOnly = true →
        (c.array.buf.drop byteOffset).take bytes.length ≠ bytes) := by
  have hsize := byteResize_byteSize hle haligned
  have hbuf := byteResize_buf hle
  -- the content is never the same: it has become longer
  have hgrown {w : Written} (hw : w.channel.array.byteSize = byteOffset + bytes.length) :
      w.channel.array.bytes ≠ c.array.bytes := by
    intro heq
    have hlength := congrArg List.length heq
    rw [IArray.bytes_length, IArray.bytes_length] at hlength
    omega
  by_cases hnil : bytes = []
  · subst hnil
    have hend : byteOffset = (c.byteResize (byteOffset + [].length) hle).array.byteSize :=
      hsize.symm
    rw [copy_at_end now hend]
    refine iff_of_false (fun hupdated => ?_) (fun h => h.1 rfl)
    have hchange : c.writeChangeOnly = true := hupdated.ret
    exact absurd ((hupdated.notified hchange).mpr (hgrown hsize)) (by simp)
  · have hpos := List.length_pos_of_ne_nil hnil
    rw [copy_inside now (by omega) hsize.ge, hbuf]
    split
    · rename_i hequal
      refine iff_of_false (fun hupdated => ?_) (fun h => h.2 hequal.1 hequal.2)
      exact absurd ((hupdated.notified hequal.1).mpr (hgrown hsize)) (by simp)
    · rename_i hequal
      rw [not_and] at hequal
      refine iff_of_true ?_ ⟨hnil, hequal⟩
      refine ⟨rfl, ?_, ?_, fun _ => ?_, fun _ => ?_⟩
      · exact congrArg (overwrite · byteOffset bytes) hbuf
      · exact hsize.trans (by omega)
      · exact iff_of_true rfl (hgrown hsize)
      · rw [if_neg (hgrown hsize)]
        rfl

theorem writesExactly_iff_of_accepts (now : Int) (hfree : c.notifying = false)
    (haccepts : c.Accepts bytes.length byteOffset)
    (haligned : c.array.byteSize < byteOffset + bytes.length →
      (byteOffset + bytes.length) % c.array.type.size = 0) :
    c.WritesExactly now bytes byteOffset ↔ c.Grows bytes byteOffset := by
  have hiff : c.WritesExactly now bytes byteOffset ↔
      ∃ w, c.write now bytes byteOffset = some w ∧ c.Updated now bytes byteOffset w :=
    ⟨fun h => h.1 haccepts, fun h => ⟨fun _ => h, fun hnot => absurd haccepts hnot⟩⟩
  rw [hiff]
  rcases Nat.lt_or_ge c.array.byteSize (byteOffset + bytes.length) with hlt | hle
  · obtain ⟨hresizable, hcap⟩ := haccepts.resolve_left (by omega)
    have hgrown := updated_grown_iff now hlt hcap (haligned hlt)
    rw [write_of_grown now hfree hresizable hlt hcap (haligned hlt)]
    simp only [Option.some.injEq, exists_eq_left', hgrown]
    exact ⟨fun h => ⟨fun hle => by omega, fun _ => h⟩, fun h => h.outside hlt⟩
  · have hinside := updated_inside_iff now hle
    rw [write_of_le now hfree hle]
    simp only [Option.some.injEq, exists_eq_left', hinside]
    exact ⟨fun h => ⟨fun _ => h, fun hlt => by omega⟩, fun h => h.inside hle⟩

/-! ### A write that is not accepted -/

/-- The slice of an offset from `2 ^ 63` on counts from the end. -/
theorem copy_from_end (now : Int) (hge : 2 ^ 63 ≤ byteOffset) (hlt : byteOffset < 2 ^ 64)
    (hwraps : 2 ^ 64 ≤ byteOffset + bytes.length)
    (h : ¬ (byteOffset + bytes.length = 2 ^ 64 ∧ bytes.length ≤ c.array.byteSize)) :
    c.copy now bytes byteOffset = ⟨false, false, c⟩ := by
  have hrange := Slice.resolve_ofCast_of_ge hge hlt c.array.byteSize
  have hout : c.array.byteSize <
      c.array.byteSize - (2 ^ 64 - byteOffset) + bytes.length := by omega
  refine copy_of_none now ?_ (IArray.copyFromBytes_eq_none hrange (.inr hout))
  rw [IArray.isBytesEqual_eq_false hrange hout]
  simp

theorem copy_at_last (now : Int) (hge : 2 ^ 63 ≤ byteOffset) (hlt : byteOffset < 2 ^ 64)
    (h : byteOffset + bytes.length = 2 ^ 64 ∧ bytes.length ≤ c.array.byteSize) :
    (c.copy now bytes byteOffset).ret = true := by
  have hrange := Slice.resolve_ofCast_of_ge hge hlt c.array.byteSize
  by_cases hequal : c.writeChangeOnly = true ∧
      c.array.isBytesEqual bytes (.ofCast byteOffset) = true
  · rw [copy_of_equal now hequal.1 hequal.2]
  · have hcopy := @IArray.copyFromBytes_of_resolve _ bytes _ _ hrange (by simp; omega)
      (by simp; omega)
    rw [copy_of_some now hequal hcopy]

theorem writesExactly_iff_of_not_accepts (now : Int) (hfree : c.notifying = false)
    (hbytes : bytes.length < 2 ^ 63) (hlt : byteOffset < 2 ^ 64)
    (hnot : ¬ c.Accepts bytes.length byteOffset) :
    c.WritesExactly now bytes byteOffset ↔ ¬ c.Wraps bytes.length byteOffset := by
  have hcap := c.addressable
  have hle := c.byteSize_le
  have hiff : c.WritesExactly now bytes byteOffset ↔
      c.write now bytes byteOffset = some ⟨false, false, c⟩ :=
    ⟨fun h => h.2 hnot, fun h => ⟨fun haccepts => absurd haccepts hnot, fun _ => h⟩⟩
  rw [hiff]
  rcases Nat.lt_or_ge (byteOffset + bytes.length) (2 ^ 64) with hsum | hsum
  · refine iff_of_true (write_of_refused now hfree hsum hnot) ?_
    rintro (⟨heq, -⟩ | ⟨-, hlt', -⟩) <;> omega
  have hge : 2 ^ 63 ≤ byteOffset := by omega
  have hneeded : (bytes.length + byteOffset) % 2 ^ 64 =
      byteOffset + bytes.length - 2 ^ 64 := by omega
  simp only [write, hneeded]
  rw [hfree, if_neg (by simp)]
  split
  · -- the check passes without a resize
    by_cases hlast : byteOffset + bytes.length = 2 ^ 64 ∧ bytes.length ≤ c.array.byteSize
    · refine iff_of_false (fun heq => ?_) (fun h => h (.inl hlast))
      have hret := copy_at_last now hge hlt hlast
      rw [Option.some.inj heq] at hret
      cases hret
    · rw [copy_from_end now hge hlt hsum hlast]
      refine iff_of_true rfl ?_
      rintro (h | ⟨-, h, -⟩)
      · exact hlast h
      · omega
  split
  · rename_i hsmall hrefused
    refine iff_of_true rfl ?_
    rintro (h | ⟨hresizable, -, h⟩)
    · omega
    · have hcapacity := hrefused.resolve_left (by simp [hresizable])
      omega
  rename_i hsmall hresized
  rw [not_or, Bool.not_eq_false] at hresized
  refine iff_of_false ?_ (fun h => h (.inr ⟨hresized.1, by omega, by omega⟩))
  split
  · exact fun h => by cases h
  · rename_i haligned
    intro heq
    have hsize := copy_byteSize (c.byteResize (byteOffset + bytes.length - 2 ^ 64) (by omega))
      now bytes byteOffset
    rw [Option.some.inj heq, byteResize_byteSize _ (by omega)] at hsize
    change c.array.byteSize = _ at hsize
    omega

end Write

/-- A write is exact if and only if the update of an accepted range is not lost
and the end of a refused one does not wrap. -/
theorem writesExactly_iff {c : Channel} (hfree : c.notifying = false) (now : Int)
    (view : ArrByteView) (byteOffset : UInt64)
    (haligned : c.Accepts view.bytes.length byteOffset.toNat →
      c.array.byteSize < byteOffset.toNat + view.bytes.length →
        (byteOffset.toNat + view.bytes.length) % c.array.type.size = 0) :
    c.WritesExactly now view.bytes byteOffset.toNat ↔
      if c.Accepts view.bytes.length byteOffset.toNat
      then c.Grows view.bytes byteOffset.toNat
      else ¬ c.Wraps view.bytes.length byteOffset.toNat := by
  split
  · rename_i haccepts
    exact writesExactly_iff_of_accepts now hfree haccepts (haligned haccepts)
  · rename_i hnot
    exact writesExactly_iff_of_not_accepts now hfree view.addressable
      byteOffset.toNat_lt hnot

theorem writesExactly_of_one_byte : (create .byte 2).WritesExactly 7 [1] 1 := by
  have hiff := writesExactly_iff (c := create .byte 2) rfl 7 ⟨[1], by decide⟩ 1
    (fun _ _ => by decide)
  refine hiff.mpr ?_
  rw [if_pos (by decide)]
  exact ⟨fun _ => .inl rfl, fun hlt => absurd hlt (by decide)⟩

/-- A channel that uses one of its two bytes. -/
def halfUsed (writeChangeOnly : Bool) : Channel :=
  { create .byte 2 with
    array := ⟨.byte, [0, 0], 1, by decide⟩
    writeChangeOnly := writeChangeOnly
    resizable := true
    addressable := by decide }

/-- The offset `2 ^ 64 - 1` writes the last byte; a growth onto the bytes that
the capacity holds is not notified; an empty view at the end is refused. -/
theorem not_writesExactly :
    ¬ (create .byte 1).WritesExactly 7 [1] (2 ^ 64 - 1) ∧
      ¬ (halfUsed true).WritesExactly 7 [0] 1 ∧ ¬ (halfUsed false).WritesExactly 7 [] 1 := by
  refine ⟨?_, ?_, ?_⟩
  · rw [writesExactly_iff_of_not_accepts 7 rfl (by decide) (by decide) (by decide), not_not]
    exact .inl (by decide)
  · rw [writesExactly_iff_of_accepts 7 rfl (by decide) (by decide)]
    exact fun h => (h.outside (by decide)).2 rfl rfl
  · rw [writesExactly_iff_of_accepts 7 rfl (by decide) (by decide)]
    intro h
    rcases h.inside (by decide) with hchange | hne | hlt
    · cases hchange
    · exact hne rfl
    · exact absurd hlt (by decide)

end Channel

end Sihd.Core
