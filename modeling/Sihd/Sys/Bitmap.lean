import Sihd.Lib.Bytes
import Sihd.Lib.Transition
import Mathlib.Data.List.Basic

/-!
# Bitmaps

The pixels of a bitmap are a vector of bytes beside the width, the height and the
depth that its accesses are checked with. Sizes are computed in 64 bits, those of
the rows of a file in 32.
-/

namespace Sihd.Sys

open Copy

structure Bitmap where
  data : List UInt8
  width : UInt64
  height : UInt64
  bitPerPixel : UInt8

namespace Bitmap

inductive Exception where
  | invalidArgument (what : String)
  | allocation
  deriving DecidableEq

/-- The largest size of a vector of bytes. -/
def maxSize : Nat := 2 ^ 63 - 1

/-- `std::vector::resize`; `none` when it throws. -/
def resize (data : List UInt8) (n : Nat) (allocated : Bool) : Option (List UInt8) :=
  if n ≤ data.length then some (data.take n)
  else if allocated = true ∧ n ≤ maxSize then
    some (data ++ List.replicate (n - data.length) 0)
  else none

def empty : Bitmap := ⟨[], 0, 0, 0⟩

def bytePerPixel (b : Bitmap) : UInt8 := b.bitPerPixel / 8

/-- The depths below 8 are refused before their size would be computed. -/
def create (b : Bitmap) (width height : UInt64) (bitPerPixel : UInt8) (allocated : Bool) :
    Option Exception × Bitmap :=
  if 32 < bitPerPixel then
    (some (.invalidArgument "Bitmaps with more than 32 pixels are not supported"), b)
  else if bitPerPixel < 8 then
    (some (.invalidArgument "Bitmaps with less than 8 bit per pixel are not supported"), b)
  else if bitPerPixel ≠ 24 ∧ bitPerPixel ≠ 32 then
    (some (.invalidArgument
      "Bitmaps not of 24 or 32 bit per pixels are not yet supported"), b)
  else
    let b := ⟨b.data, width, height, bitPerPixel⟩
    match resize b.data (width * height * b.bytePerPixel.toUInt64).toNat allocated with
    | some data => (none, { b with data := data })
    | none => (some .allocation, b)

def clear (b : Bitmap) : Bitmap := ⟨[], 0, 0, b.bitPerPixel⟩

def isAccessible (b : Bitmap) (row line : UInt64) : Bool :=
  row < b.width && line < b.height

def coordinateToPixel (b : Bitmap) (row line : UInt64) : UInt64 :=
  (line * b.width + row) * b.bytePerPixel.toUInt64

def outOfBounds (b : Bitmap) (row line : UInt64) : Exception :=
  let height := b.height
  let width := b.width
  .invalidArgument s!"pixels[{line}][{row}] is out of bounds (pixels[{height}][{width}])"

/-- The first bytes of a pixel of the machine. -/
def pixelBytes (pixel : UInt32) (n : UInt8) : List UInt8 :=
  littleEndian n.toNat pixel.toNat

/-- The loop goes from pixel to pixel as long as it is before the end. -/
def fill (b : Bitmap) (pixel : UInt32) : Bitmap :=
  let byteSize := b.bytePerPixel.toNat
  let pixels := (b.data.length + byteSize - 1) / byteSize
  let copies := (List.range pixels).map fun i => Copy.mk (i * byteSize) 0 byteSize
  { b with data := copies.foldl (memcpy (pixelBytes pixel b.bytePerPixel)) b.data }

def get (b : Bitmap) (row line : UInt64) : Except Exception UInt32 :=
  if b.isAccessible row line then
    .ok (UInt32.ofNat (wordOf
      ((b.data.drop (b.coordinateToPixel row line).toNat).take b.bytePerPixel.toNat)))
  else .error (b.outOfBounds row line)

def set (b : Bitmap) (row line : UInt64) (pixel : UInt32) : Except Exception Bitmap :=
  if b.isAccessible row line then
    let copy := Copy.mk (b.coordinateToPixel row line).toNat 0 b.bytePerPixel.toNat
    .ok { b with data := memcpy (pixelBytes pixel b.bytePerPixel) b.data copy }
  else .error (b.outOfBounds row line)

def setData (b : Bitmap) (bytes : List UInt8) : Except Exception Bitmap :=
  let size := bytes.length
  let length := b.data.length
  if length < size then
    .error (.invalidArgument s!"pixels data ({size}) is out of bounds (pixels[{length}])")
  else .ok { b with data := memcpy bytes b.data (Copy.mk 0 0 size) }

/-- What is read of the two headers of a file. -/
structure Header where
  fileoffset : UInt32
  width : UInt32
  height : UInt32
  bitsPerPixel : UInt16

/-- The word of `w` bytes at an offset. -/
def word (bytes : List UInt8) (i w : Nat) : Nat :=
  wordOf ((bytes.drop i).take w)

namespace Header

/-- `none` when the file is shorter than its headers or has not their signature. -/
def read (bytes : List UInt8) : Option Header :=
  if bytes.length < 14 + 40 then none
  else if word bytes 0 1 ≠ 66 ∨ word bytes 1 1 ≠ 77 then none
  else some ⟨UInt32.ofNat (word bytes 10 4), UInt32.ofNat (word bytes 18 4),
    UInt32.ofNat (word bytes 22 4), UInt16.ofNat (word bytes 28 2)⟩

/-- The height is negative as a signed word. -/
def topDown (h : Header) : Bool := 2 ^ 31 ≤ h.height.toNat

def absHeight (h : Header) : UInt32 :=
  if h.topDown then 0 - h.height else h.height

/-- The depth as `create` is given it. -/
def bitPerPixel (h : Header) : UInt8 := h.bitsPerPixel.toUInt8

/-- Computed in 32 bits. -/
def bytesPerRow (h : Header) : Nat :=
  (h.width * (h.bitPerPixel / 8).toUInt32).toNat

/-- Rows begin at multiples of 4 bytes. -/
def padded (n : Nat) : Nat := (n + 3) / 4 * 4

def rowFits (h : Header) (available y : Nat) : Bool :=
  y * padded h.bytesPerRow + h.bytesPerRow ≤ available

/-- The copy of a row of a file whose rows are padded. -/
def rowCopy (h : Header) (y : Nat) : Copy :=
  let dst := if h.topDown then h.absHeight.toNat - 1 - y else y
  ⟨dst * h.bytesPerRow, h.fileoffset.toNat + y * padded h.bytesPerRow, h.bytesPerRow⟩

/-- The copies made from the available bytes, and whether there were enough of
them; the offsets do not reach `2 ^ 64`. -/
def copies (h : Header) (available : Nat) : Bool × List Copy :=
  let padding := padded h.bytesPerRow - h.bytesPerRow
  if padding = 0 then
    let dataSize := h.bytesPerRow * h.absHeight.toNat
    if dataSize ≤ available then (true, [⟨0, h.fileoffset.toNat, dataSize⟩]) else (false, [])
  else copyWhile (h.rowFits available) h.rowCopy h.absHeight.toNat 0

end Header

/-- What `read_bmp_data` leaves and returns, with the bitmap that its `create` made
and its copies to it. -/
structure Read where
  bitmap : Bitmap
  result : Except Exception Bool
  created : Bitmap
  copies : List Copy

def copyAll (b : Bitmap) (bytes : List UInt8) (copies : List Copy) : Bitmap :=
  { b with data := copies.foldl (memcpy bytes) b.data }

/-- The rows of the file, to the bitmap that was created for it. -/
def readRows (created : Bitmap) (h : Header) (bytes : List UInt8) : Read :=
  let (success, copies) := h.copies (bytes.length - h.fileoffset.toNat)
  let copied := created.copyAll bytes copies
  ⟨if success then copied else copied.clear, .ok success, created, copies⟩

def readBmpData (b : Bitmap) (bytes : List UInt8) (allocated : Bool) : Read :=
  match Header.read bytes with
  | none => ⟨b.clear, .ok false, b.clear, []⟩
  | some h =>
    match b.clear.create h.width.toUInt64 h.absHeight.toUInt64 h.bitPerPixel allocated with
    | (some e, created) => ⟨created, .error e, created, []⟩
    | (none, created) =>
      if bytes.length < h.fileoffset.toNat then ⟨created, .ok false, created, []⟩
      else readRows created h bytes

inductive Call where
  | create (width height : UInt64) (bitPerPixel : UInt8) (allocated : Bool)
  | clear
  | setData (bytes : List UInt8)
  | set (row line : UInt64) (pixel : UInt32)
  | get (row line : UInt64)
  | fill (pixel : UInt32)
  | readBmpData (bytes : List UInt8) (allocated : Bool)

/-- A call that throws leaves what it did so far. -/
def perform (b : Bitmap) : Call → Bitmap
  | .create width height bitPerPixel allocated =>
      (b.create width height bitPerPixel allocated).2
  | .clear => b.clear
  | .setData bytes => (b.setData bytes).toOption.getD b
  | .set row line pixel => (b.set row line pixel).toOption.getD b
  | .get _ _ => b
  | .fill pixel => b.fill pixel
  | .readBmpData bytes allocated => (b.readBmpData bytes allocated).bitmap

def step (b : Bitmap) (call : Call) : Option Bitmap := some (b.perform call)

/-- The size that the measures of a bitmap announce. -/
def size (b : Bitmap) : Nat :=
  b.width.toNat * b.height.toNat * b.bytePerPixel.toNat

/-- A bitmap has the bytes that its measures announce, and so every pixel it gives
access to. -/
structure Covers (b : Bitmap) : Prop where
  length_eq : b.data.length = b.size
  inside : ∀ row line, b.isAccessible row line = true →
    (b.coordinateToPixel row line).toNat + b.bytePerPixel.toNat ≤ b.data.length

namespace Header

/-- The bytes of a row as the header announces it. -/
def rowSize (h : Header) : Nat := h.width.toNat * h.bitsPerPixel.toNat / 8

/-- The row of the bitmap that a row of the file goes to. -/
def rowPlace (h : Header) (y : Nat) : Nat :=
  if h.topDown ∧ padded h.bytesPerRow ≠ h.bytesPerRow then h.absHeight.toNat - 1 - y else y

structure TakesRow (h : Header) (bytes : List UInt8) (copies : List Copy) (y : Nat) : Prop where
  present : h.fileoffset.toNat + y * padded h.rowSize + h.rowSize ≤ bytes.length
  copied : Copied copies (h.rowPlace y * h.rowSize)
    (h.fileoffset.toNat + y * padded h.rowSize) h.rowSize

/-- A bitmap of the measures of a header. -/
def bitmap (h : Header) (data : List UInt8) : Bitmap :=
  ⟨data, h.width.toUInt64, h.absHeight.toUInt64, h.bitPerPixel⟩

/-- The size that the measures of a header announce. -/
def size (h : Header) : Nat :=
  h.width.toNat * h.absHeight.toNat * (h.bitPerPixel / 8).toNat

/-- All rows are in the available bytes, as their size in 32 bits places them. -/
def Suffices (h : Header) (available : Nat) : Prop :=
  h.absHeight = 0 ∨ h.rowFits available (h.absHeight.toNat - 1) = true

instance (h : Header) (available : Nat) : Decidable (h.Suffices available) :=
  inferInstanceAs (Decidable (_ ∨ _))

end Header

/-- A read stays inside the bytes it is given and the bitmap it makes, and it succeeds
only when it took every row. -/
structure Read.IsFaithful (r : Read) (bytes : List UInt8) : Prop where
  inside : ∀ c ∈ r.copies, c.Inside bytes.length r.created.data.length
  rows : r.result = .ok true → ∃ h, Header.read bytes = some h ∧
    ∀ y < h.absHeight.toNat, h.TakesRow bytes r.copies y

def Call.IsFaithful (b : Bitmap) : Call → Prop
  | .readBmpData bytes allocated => (b.readBmpData bytes allocated).IsFaithful bytes
  | _ => True

/-- The depths that `create` accepts. -/
def IsSupported (bitPerPixel : UInt8) : Prop := bitPerPixel = 24 ∨ bitPerPixel = 32

/-- The rows of the file are those that its header announces, or their lack shows
before a copy leaves the bitmap. -/
def Header.Fits (h : Header) (length : Nat) (allocated : Bool) : Prop :=
  (h.size % 2 ^ 64 = 0 ∨ allocated = true ∧ h.size % 2 ^ 64 ≤ maxSize) ∧
    if length < h.fileoffset.toNat then h.size < 2 ^ 64
    else if h.Suffices (length - h.fileoffset.toNat) then
      h.absHeight = 0 ∨ h.bytesPerRow = h.rowSize
    else ∀ y < h.absHeight.toNat, padded h.bytesPerRow ≠ h.bytesPerRow →
      h.rowFits (length - h.fileoffset.toNat) y = true →
        h.rowPlace y * h.bytesPerRow + h.bytesPerRow ≤ h.size % 2 ^ 64

/-- The sizes of a call are those that its measures announce. -/
def Call.Fits (b : Bitmap) : Call → Prop
  | .create width height bitPerPixel allocated =>
      IsSupported bitPerPixel →
        let n := width.toNat * height.toNat * (bitPerPixel / 8).toNat
        n ≤ b.data.length ∨ allocated = true ∧ n ≤ maxSize
  | .readBmpData bytes allocated => ∀ h, Header.read bytes = some h →
      IsSupported h.bitPerPixel → h.Fits bytes.length allocated
  | _ => True

section Create

variable {b : Bitmap} {width height : UInt64} {bitPerPixel : UInt8} {allocated : Bool}

/-- The size computed in 64 bits. -/
theorem toNat_storage (width height : UInt64) (bytes : UInt8) :
    (width * height * bytes.toUInt64).toNat =
      width.toNat * height.toNat * bytes.toNat % 2 ^ 64 := by
  rw [UInt64.toNat_mul, UInt64.toNat_mul, UInt8.toNat_toUInt64, Nat.mod_mul_mod]

theorem resize_eq_some {data data' : List UInt8} {n : Nat}
    (h : resize data n allocated = some data') : data'.length = n := by
  rw [resize] at h
  split at h
  · cases h
    rw [List.length_take]
    omega
  · split at h
    · cases h
      rw [List.length_append, List.length_replicate]
      omega
    · cases h

theorem resize_isSome_iff {data : List UInt8} {n : Nat} :
    (resize data n allocated).isSome = true ↔
      n ≤ data.length ∨ allocated = true ∧ n ≤ maxSize := by
  rw [resize]
  split
  · rename_i hle
    simp [hle]
  · rename_i hle
    split <;> simp_all

theorem create_of_not_isSupported (b : Bitmap) (width height : UInt64) (allocated : Bool)
    (h : ¬ IsSupported bitPerPixel) :
    ∃ e, b.create width height bitPerPixel allocated = (some e, b) := by
  rw [IsSupported, not_or] at h
  rw [create]
  split
  · exact ⟨_, rfl⟩
  · split
    · exact ⟨_, rfl⟩
    · exact ⟨_, rfl⟩

theorem create_of_isSupported (h : IsSupported bitPerPixel) :
    b.create width height bitPerPixel allocated =
      match resize b.data (width.toNat * height.toNat * (bitPerPixel / 8).toNat % 2 ^ 64)
        allocated with
      | some data => (none, ⟨data, width, height, bitPerPixel⟩)
      | none => (some .allocation, ⟨b.data, width, height, bitPerPixel⟩) := by
  rw [← toNat_storage]
  rcases h with rfl | rfl <;> rfl

/-- The coordinate checks are enough for a bitmap of the announced size. -/
theorem covers_of_length_eq (hlength : b.data.length = b.size) (hmax : b.data.length ≤ maxSize) :
    b.Covers := by
  refine ⟨hlength, fun row line haccessible => ?_⟩
  rw [isAccessible, Bool.and_eq_true, decide_eq_true_iff, decide_eq_true_iff,
    UInt64.lt_iff_toNat_lt, UInt64.lt_iff_toNat_lt] at haccessible
  obtain ⟨hrow, hline⟩ := haccessible
  rw [maxSize] at hmax
  rw [size] at hlength
  rw [coordinateToPixel, UInt64.toNat_mul, UInt64.toNat_add, UInt64.toNat_mul,
    UInt8.toNat_toUInt64]
  generalize b.bytePerPixel.toNat = n at *
  have hpixel : line.toNat * b.width.toNat + row.toNat + 1 ≤
      b.width.toNat * b.height.toNat := by
    calc line.toNat * b.width.toNat + row.toNat + 1
        ≤ line.toNat * b.width.toNat + b.width.toNat := by omega
      _ = (line.toNat + 1) * b.width.toNat := by ring
      _ ≤ b.height.toNat * b.width.toNat := Nat.mul_le_mul_right _ hline
      _ = b.width.toNat * b.height.toNat := Nat.mul_comm _ _
  have hend := Nat.mul_le_mul_right n hpixel
  rw [← hlength, Nat.add_mul, Nat.one_mul] at hend
  have hmod : ∀ x y : Nat, (x % 2 ^ 64 + y) % 2 ^ 64 * n % 2 ^ 64 = (x + y) * n % 2 ^ 64 :=
    fun x y => by rw [Nat.mod_mul_mod, Nat.add_mul, Nat.add_mod, Nat.mod_mul_mod, ← Nat.add_mod,
      ← Nat.add_mul]
  rw [hmod, Nat.mod_eq_of_lt (by omega)]
  exact hend

/-- A bitmap that a create leaves covers its size exactly when the size fits. -/
theorem create_covers_iff (hmax : b.data.length ≤ maxSize) (h : IsSupported bitPerPixel) :
    (b.create width height bitPerPixel allocated).2.Covers ↔
      width.toNat * height.toNat * (bitPerPixel / 8).toNat ≤ b.data.length ∨
        allocated = true ∧ width.toNat * height.toNat * (bitPerPixel / 8).toNat ≤ maxSize := by
  rw [create_of_isSupported h]
  have hword : maxSize < 2 ^ 64 := by decide
  generalize hn : width.toNat * height.toNat * (bitPerPixel / 8).toNat = n
  cases hresize : resize b.data (n % 2 ^ 64) allocated with
  | none =>
    have hnone : ¬ (n % 2 ^ 64 ≤ b.data.length ∨ allocated = true ∧ n % 2 ^ 64 ≤ maxSize) := by
      rw [← resize_isSome_iff, hresize]
      exact Bool.false_ne_true
    rw [not_or, not_and] at hnone
    have hlt : b.data.length < n :=
      Nat.lt_of_lt_of_le (Nat.lt_of_not_le hnone.1) (Nat.mod_le _ _)
    refine iff_of_false (fun hcovers => ?_) ?_
    · exact hlt.ne (hcovers.length_eq.trans hn)
    · rintro (hle | ⟨hallocated, hle⟩)
      · omega
      · exact hnone.2 hallocated ((Nat.mod_le _ _).trans hle)
  | some data =>
    have hlength := resize_eq_some hresize
    have hfits := resize_isSome_iff.mp (hresize ▸ rfl :
      (resize b.data (n % 2 ^ 64) allocated).isSome = true)
    constructor
    · intro hcovers
      have hmod : n % 2 ^ 64 = n := hlength.symm.trans (hcovers.length_eq.trans hn)
      rwa [hmod] at hfits
    · intro hfit
      have hmod : n % 2 ^ 64 = n := Nat.mod_eq_of_lt (by
        rcases hfit with hle | ⟨-, hle⟩ <;> omega)
      refine covers_of_length_eq (hlength.trans (hmod.trans hn.symm)) ?_
      rw [hlength, hmod]
      rcases hfit with hle | ⟨-, hle⟩ <;> omega

theorem create_length_le (hmax : b.data.length ≤ maxSize) (width height : UInt64)
    (bitPerPixel : UInt8) (allocated : Bool) :
    (b.create width height bitPerPixel allocated).2.data.length ≤ maxSize := by
  by_cases h : IsSupported bitPerPixel
  · rw [create_of_isSupported h]
    cases hresize : resize b.data
        (width.toNat * height.toNat * (bitPerPixel / 8).toNat % 2 ^ 64) allocated with
    | none => exact hmax
    | some data =>
      have hfits := resize_isSome_iff.mp (hresize ▸ rfl : (resize b.data
        (width.toNat * height.toNat * (bitPerPixel / 8).toNat % 2 ^ 64) allocated).isSome = true)
      dsimp only
      rw [resize_eq_some hresize]
      rcases hfits with hle | ⟨-, hle⟩ <;> omega
  · obtain ⟨e, he⟩ := create_of_not_isSupported b width height allocated h
    rw [he]
    exact hmax

end Create

namespace Header

variable {h : Header} {available : Nat}

theorem le_padded (n : Nat) : n ≤ padded n := by
  rw [padded]
  omega

theorem padded_mono {m n : Nat} (h : m ≤ n) : padded m ≤ padded n := by
  rw [padded, padded]
  omega

theorem rowFits_iff {y : Nat} : h.rowFits available y = true ↔
    y * padded h.bytesPerRow + h.bytesPerRow ≤ available :=
  decide_eq_true_iff

theorem rowFits_mono {i j : Nat} (hij : i ≤ j) (hj : h.rowFits available j = true) :
    h.rowFits available i = true := by
  rw [rowFits_iff] at hj ⊢
  have hmul := Nat.mul_le_mul_right (padded h.bytesPerRow) hij
  omega

/-- Rows that need no padding are one after the other. -/
theorem rows_unpadded (hpad : padded h.bytesPerRow = h.bytesPerRow) {n : Nat} (hn : 0 < n) :
    (n - 1) * padded h.bytesPerRow + h.bytesPerRow = h.bytesPerRow * n := by
  obtain ⟨m, rfl⟩ := Nat.exists_eq_add_one.mpr hn
  rw [hpad, Nat.add_sub_cancel]
  ring

theorem copies_of_padded (hpad : padded h.bytesPerRow ≠ h.bytesPerRow) :
    h.copies available = copyWhile (h.rowFits available) h.rowCopy h.absHeight.toNat 0 := by
  have hle := le_padded h.bytesPerRow
  exact if_neg (by omega)

theorem copies_of_unpadded (hpad : padded h.bytesPerRow = h.bytesPerRow) :
    h.copies available =
      if h.bytesPerRow * h.absHeight.toNat ≤ available then
        (true, [⟨0, h.fileoffset.toNat, h.bytesPerRow * h.absHeight.toNat⟩])
      else (false, []) :=
  if_pos (by omega)

theorem absHeight_eq_zero_iff : h.absHeight = 0 ↔ h.absHeight.toNat = 0 := by
  rw [← UInt32.toNat_inj]
  rfl

/-- The copies are all made exactly when the bytes suffice. -/
theorem copies_fst_eq_true_iff : (h.copies available).1 = true ↔ h.Suffices available := by
  rw [Suffices, absHeight_eq_zero_iff]
  by_cases hpad : padded h.bytesPerRow = h.bytesPerRow
  · rw [copies_of_unpadded hpad]
    rcases Nat.eq_zero_or_pos h.absHeight.toNat with hzero | hpos
    · simp [hzero]
    · rw [rowFits_iff, rows_unpadded hpad hpos]
      split <;> simp_all [Nat.pos_iff_ne_zero]
  · rw [copies_of_padded hpad, copyWhile_fst_eq_true_iff]
    constructor
    · intro hall
      rcases Nat.eq_zero_or_pos h.absHeight.toNat with hzero | hpos
      · exact .inl hzero
      · exact .inr (hall _ (Nat.zero_le _) (by omega))
    · rintro (hzero | hlast) i - hlt
      · omega
      · exact rowFits_mono (by omega) hlast

/-- No copy reads behind the available bytes. -/
theorem copies_source {c : Copy} (hc : c ∈ (h.copies available).2) :
    c.src + c.len ≤ h.fileoffset.toNat + available := by
  by_cases hpad : padded h.bytesPerRow = h.bytesPerRow
  · rw [copies_of_unpadded hpad] at hc
    split at hc
    · cases List.mem_singleton.mp hc
      dsimp only
      omega
    · cases hc
  · rw [copies_of_padded hpad] at hc
    obtain ⟨i, -, -, hfits, rfl⟩ := mem_copyWhile hc
    rw [rowFits_iff] at hfits
    dsimp only [rowCopy]
    omega

/-- Nor behind the last row, as its size in 32 bits places it. -/
theorem copies_last {c : Copy} (hc : c ∈ (h.copies available).2)
    (hpos : 0 < h.absHeight.toNat) :
    c.src + c.len ≤ h.fileoffset.toNat +
      ((h.absHeight.toNat - 1) * padded h.bytesPerRow + h.bytesPerRow) := by
  by_cases hpad : padded h.bytesPerRow = h.bytesPerRow
  · rw [copies_of_unpadded hpad] at hc
    split at hc
    · cases List.mem_singleton.mp hc
      rw [rows_unpadded hpad hpos]
    · cases hc
  · rw [copies_of_padded hpad] at hc
    obtain ⟨i, -, hlt, -, rfl⟩ := mem_copyWhile hc
    have hle : i ≤ h.absHeight.toNat - 1 := by omega
    have hmul := Nat.mul_le_mul_right (padded h.bytesPerRow) hle
    dsimp only [rowCopy]
    omega

theorem rowCopy_dst (hpad : padded h.bytesPerRow ≠ h.bytesPerRow) (y : Nat) :
    (h.rowCopy y).dst = h.rowPlace y * h.bytesPerRow := by
  rw [rowCopy, rowPlace]
  cases h.topDown <;> simp [hpad]

theorem rowPlace_lt {y : Nat} (hy : y < h.absHeight.toNat) : h.rowPlace y < h.absHeight.toNat := by
  rw [rowPlace]
  split <;> omega

/-- No copy writes behind the rows, as their size in 32 bits places them. -/
theorem copies_destination {c : Copy} (hc : c ∈ (h.copies available).2) :
    c.dst + c.len ≤ h.absHeight.toNat * h.bytesPerRow := by
  by_cases hpad : padded h.bytesPerRow = h.bytesPerRow
  · rw [copies_of_unpadded hpad] at hc
    split at hc
    · cases List.mem_singleton.mp hc
      dsimp only
      rw [Nat.zero_add, Nat.mul_comm]
    · cases hc
  · rw [copies_of_padded hpad] at hc
    obtain ⟨i, -, hlt, -, rfl⟩ := mem_copyWhile hc
    have hplace := Nat.mul_le_mul_right h.bytesPerRow (rowPlace_lt (h := h) (y := i) (by omega))
    rw [rowCopy_dst hpad]
    rw [Nat.succ_mul] at hplace
    exact hplace

/-- The rows that are as long as announced are taken when the bytes suffice. -/
theorem takesRow {bytes : List UInt8} (hoffset : h.fileoffset.toNat ≤ bytes.length)
    (hsuffices : h.Suffices (bytes.length - h.fileoffset.toNat))
    (hrow : h.bytesPerRow = h.rowSize) {y : Nat} (hy : y < h.absHeight.toNat) :
    h.TakesRow bytes (h.copies (bytes.length - h.fileoffset.toNat)).2 y := by
  rw [Suffices, absHeight_eq_zero_iff] at hsuffices
  have hfits := rowFits_mono (Nat.le_sub_one_of_lt hy)
    (hsuffices.resolve_left (Nat.ne_of_gt (Nat.zero_lt_of_lt hy)))
  have hlast := hsuffices.resolve_left (Nat.ne_of_gt (Nat.zero_lt_of_lt hy))
  have hpresent := rowFits_iff.mp hfits
  refine ⟨?_, fun i hi => ?_⟩
  · rw [← hrow]
    omega
  · rw [← hrow] at hi ⊢
    by_cases hpad : padded h.bytesPerRow = h.bytesPerRow
    · rw [rowFits_iff, rows_unpadded hpad (Nat.zero_lt_of_lt hy)] at hlast
      have hplace : h.rowPlace y = y := if_neg (by simp [hpad])
      have hend := Nat.mul_le_mul_left h.bytesPerRow hy
      rw [Nat.mul_succ, Nat.mul_comm] at hend
      rw [copies_of_unpadded hpad, if_pos hlast, hplace]
      refine ⟨_, List.mem_singleton_self _, y * h.bytesPerRow + i, ?_, ?_, ?_⟩
      · dsimp only
        omega
      · dsimp only
        rw [hpad]
        omega
      · dsimp only
        omega
    · rw [copies_of_padded hpad]
      refine ⟨h.rowCopy y, row_mem_copyWhile (fun i j => rowFits_mono) (Nat.zero_le _) (by omega)
        hfits, i, hi, rfl, ?_⟩
      rw [rowCopy_dst hpad]

theorem bytesPerRow_eq (h : Header) :
    h.bytesPerRow = h.width.toNat * (h.bitPerPixel / 8).toNat % 2 ^ 32 := by
  rw [bytesPerRow, UInt32.toNat_mul, UInt8.toNat_toUInt32]

/-- The depth that `create` is given is not above the announced one. -/
theorem row_le_rowSize (h : Header) :
    h.width.toNat * (h.bitPerPixel / 8).toNat ≤ h.rowSize := by
  have hbytes : (h.bitPerPixel / 8).toNat = h.bitsPerPixel.toNat % 256 / 8 := by
    rw [UInt8.toNat_div, bitPerPixel, UInt16.toNat_toUInt8]
    rfl
  rw [hbytes, rowSize, Nat.le_div_iff_mul_le (by decide), Nat.mul_assoc]
  exact Nat.mul_le_mul_left _ ((Nat.div_mul_le_self _ _).trans (Nat.mod_le _ _))

theorem bytesPerRow_le_rowSize (h : Header) : h.bytesPerRow ≤ h.rowSize := by
  rw [bytesPerRow_eq]
  exact (Nat.mod_le _ _).trans h.row_le_rowSize

/-- Where the rows are as long as announced, the size is that of the rows. -/
theorem size_of_row (hrow : h.bytesPerRow = h.rowSize) :
    h.size = h.absHeight.toNat * h.bytesPerRow := by
  have hwidth : h.width.toNat * (h.bitPerPixel / 8).toNat = h.bytesPerRow := by
    refine Nat.le_antisymm (hrow ▸ h.row_le_rowSize) ?_
    rw [bytesPerRow_eq]
    exact Nat.mod_le _ _
  rw [size, ← hwidth]
  ring

theorem size_lt_of_row (hrow : h.bytesPerRow = h.rowSize) : h.size < 2 ^ 64 := by
  have hbytes : h.bytesPerRow < 2 ^ 32 := UInt32.toNat_lt _
  have hheight : h.absHeight.toNat < 2 ^ 32 := UInt32.toNat_lt _
  rw [size_of_row hrow]
  calc h.absHeight.toNat * h.bytesPerRow < 2 ^ 32 * 2 ^ 32 := Nat.mul_lt_mul'' hheight hbytes
    _ = 2 ^ 64 := by decide

/-- The end of the last row is out of reach when the rows are longer than their size
in 32 bits. -/
theorem not_takesRow {bytes : List UInt8} (hpos : 0 < h.absHeight.toNat)
    (hrow : h.bytesPerRow ≠ h.rowSize) :
    ¬ h.TakesRow bytes (h.copies available).2 (h.absHeight.toNat - 1) := by
  intro htakes
  have hlt := Nat.lt_of_le_of_ne h.bytesPerRow_le_rowSize hrow
  obtain ⟨c, hc, j, hj, hsrc, -⟩ := htakes.copied (h.rowSize - 1) (by omega)
  have hlast := copies_last hc hpos
  have hpadded := Nat.mul_le_mul_left (h.absHeight.toNat - 1) (padded_mono hlt.le)
  omega

end Header

/-- No bitmap is smaller than a cleared one. -/
theorem covers_clear (b : Bitmap) : b.clear.Covers :=
  covers_of_length_eq (by simp [clear, size]) (Nat.zero_le _)

section Read

variable {b : Bitmap} {bytes : List UInt8} {allocated : Bool} {h : Header}

theorem isFaithful_of_copies_eq_nil {r : Read} (hcopies : r.copies = [])
    (hresult : r.result ≠ .ok true) : r.IsFaithful bytes :=
  ⟨fun c hc => by simp [hcopies] at hc, fun h => absurd h hresult⟩

theorem readRows_copies (created : Bitmap) :
    (readRows created h bytes).copies =
      (h.copies (bytes.length - h.fileoffset.toNat)).2 := rfl

theorem readRows_result (created : Bitmap) :
    (readRows created h bytes).result =
      .ok (h.copies (bytes.length - h.fileoffset.toNat)).1 := rfl

theorem readRows_bitmap (created : Bitmap) :
    (readRows created h bytes).bitmap =
      if (h.copies (bytes.length - h.fileoffset.toNat)).1 then
        created.copyAll bytes (h.copies (bytes.length - h.fileoffset.toNat)).2
      else (created.copyAll bytes (h.copies (bytes.length - h.fileoffset.toNat)).2).clear := rfl

theorem copyAll_covers {copies : List Copy} (hcovers : b.Covers) (hmax : b.data.length ≤ maxSize) :
    (b.copyAll bytes copies).Covers := by
  have hlength : (b.copyAll bytes copies).data.length = b.data.length := foldl_memcpy_length ..
  exact covers_of_length_eq (hlength.trans hcovers.length_eq) (hlength ▸ hmax)

/-- When a read of the rows leaves a bitmap that covers its size and was right. -/
theorem readRows_iff {data : List UInt8} (hheader : Header.read bytes = some h)
    (hoffset : h.fileoffset.toNat ≤ bytes.length) (hdata : data.length = h.size % 2 ^ 64)
    (hmax : data.length ≤ maxSize) {created : Bitmap} (hcreated : created = h.bitmap data) :
    (readRows created h bytes).bitmap.Covers ∧
        (readRows created h bytes).IsFaithful bytes ↔
      if h.Suffices (bytes.length - h.fileoffset.toNat) then
        h.absHeight = 0 ∨ h.bytesPerRow = h.rowSize
      else ∀ y < h.absHeight.toNat, Header.padded h.bytesPerRow ≠ h.bytesPerRow →
        h.rowFits (bytes.length - h.fileoffset.toNat) y = true →
          h.rowPlace y * h.bytesPerRow + h.bytesPerRow ≤ h.size % 2 ^ 64 := by
  have hsource : ∀ c ∈ (h.copies (bytes.length - h.fileoffset.toNat)).2,
      c.src + c.len ≤ bytes.length := fun c hc => by
    have hend := Header.copies_source hc
    omega
  have hlength : (readRows created h bytes).created.data.length = h.size % 2 ^ 64 := by
    rw [← hdata, hcreated]
    rfl
  by_cases hsuffices : h.Suffices (bytes.length - h.fileoffset.toNat)
  · have hsuccess := Header.copies_fst_eq_true_iff.mpr hsuffices
    rw [if_pos hsuffices]
    constructor
    · rintro ⟨-, hfaithful⟩
      by_contra hrow
      rw [not_or, Header.absHeight_eq_zero_iff] at hrow
      have hpos := Nat.pos_of_ne_zero hrow.1
      obtain ⟨h', hheader', hrows⟩ := hfaithful.rows (by rw [readRows_result, hsuccess])
      rw [hheader, Option.some.injEq] at hheader'
      subst hheader'
      exact Header.not_takesRow hpos hrow.2 (hrows _ (Nat.sub_one_lt_of_lt hpos))
    · intro hrow
      have hsize : h.size % 2 ^ 64 = h.absHeight.toNat * h.bytesPerRow ∧
          h.size % 2 ^ 64 = h.size := by
        rcases hrow with hzero | hrow
        · rw [Header.absHeight_eq_zero_iff] at hzero
          simp [Header.size, hzero]
        · rw [Nat.mod_eq_of_lt (Header.size_lt_of_row hrow), Header.size_of_row hrow]
          exact ⟨rfl, rfl⟩
      refine ⟨?_, fun c hc => ⟨hsource c hc, ?_⟩, fun _ => ⟨h, hheader, fun y hy => ?_⟩⟩
      · rw [readRows_bitmap, if_pos hsuccess, hcreated]
        exact copyAll_covers (covers_of_length_eq (hdata.trans hsize.2) hmax) hmax
      · rw [hlength, hsize.1]
        exact Header.copies_destination hc
      · refine Header.takesRow hoffset hsuffices (hrow.resolve_left fun hzero => ?_) hy
        rw [Header.absHeight_eq_zero_iff] at hzero
        omega
  · have hfailure := mt Header.copies_fst_eq_true_iff.mp hsuffices
    rw [if_neg hsuffices, and_iff_right (by
      rw [readRows_bitmap, if_neg hfailure]
      exact covers_clear _)]
    constructor
    · intro hfaithful y hy hpad hfits
      have hinside := hfaithful.inside (h.rowCopy y) (by
        rw [readRows_copies, Header.copies_of_padded hpad]
        exact row_mem_copyWhile (fun i j => Header.rowFits_mono) (Nat.zero_le _) (by omega) hfits)
      have hdst := hinside.2
      rw [hlength, Header.rowCopy_dst hpad] at hdst
      exact hdst
    · intro hrows
      refine ⟨fun c hc => ⟨hsource c hc, ?_⟩, fun hresult => ?_⟩
      · rw [hlength]
        rw [readRows_copies] at hc
        by_cases hpad : Header.padded h.bytesPerRow = h.bytesPerRow
        · rw [Header.copies_of_unpadded hpad] at hc hfailure
          split at hc
          · rename_i hle
            exact absurd (by rw [if_pos hle]) hfailure
          · cases hc
        · rw [Header.copies_of_padded hpad] at hc
          obtain ⟨i, -, hlt, hfits, rfl⟩ := mem_copyWhile hc
          rw [Header.rowCopy_dst hpad]
          exact hrows i (by omega) hpad hfits
      · rw [readRows_result, Except.ok.injEq] at hresult
        exact absurd hresult hfailure

/-- A read that creates a bitmap, for a header of a supported depth. -/
theorem readBmpData_of_isSupported (hheader : Header.read bytes = some h)
    (hsupported : IsSupported h.bitPerPixel) :
    b.readBmpData bytes allocated =
      match resize [] (h.size % 2 ^ 64) allocated with
      | some data =>
          if bytes.length < h.fileoffset.toNat then
            ⟨h.bitmap data, .ok false, h.bitmap data, []⟩
          else readRows (h.bitmap data) h bytes
      | none => ⟨h.bitmap [], .error .allocation, h.bitmap [], []⟩ := by
  have hcreate : b.clear.create h.width.toUInt64 h.absHeight.toUInt64 h.bitPerPixel allocated =
      match resize [] (h.size % 2 ^ 64) allocated with
      | some data => (none, h.bitmap data)
      | none => (some .allocation, h.bitmap []) := create_of_isSupported hsupported
  rw [readBmpData, hheader]
  dsimp only
  rw [hcreate]
  cases resize [] (h.size % 2 ^ 64) allocated <;> rfl

theorem readBmpData_iff :
    (b.readBmpData bytes allocated).bitmap.Covers ∧
        (b.readBmpData bytes allocated).IsFaithful bytes ↔
      (Call.readBmpData bytes allocated).Fits b := by
  change _ ↔ ∀ h, Header.read bytes = some h →
    IsSupported h.bitPerPixel → h.Fits bytes.length allocated
  cases hheader : Header.read bytes with
  | none =>
    rw [readBmpData, hheader]
    exact iff_of_true ⟨covers_clear b, isFaithful_of_copies_eq_nil rfl (by simp)⟩
      fun h hsome => by cases hsome
  | some h =>
    simp only [Option.some.injEq, forall_eq']
    by_cases hsupported : IsSupported h.bitPerPixel
    · have hallocated : (resize [] (h.size % 2 ^ 64) allocated).isSome = true ↔
          h.size % 2 ^ 64 = 0 ∨ allocated = true ∧ h.size % 2 ^ 64 ≤ maxSize := by
        rw [resize_isSome_iff, ← Nat.le_zero]
        rfl
      rw [forall_prop_of_true hsupported, readBmpData_of_isSupported hheader hsupported,
        Header.Fits, ← hallocated]
      cases hresize : resize [] (h.size % 2 ^ 64) allocated with
      | none =>
        have hzero : h.size ≠ 0 := fun hzero => by
          rw [hzero] at hresize
          cases hresize
        refine iff_of_false (fun hread => hzero ?_) fun hfits => Bool.false_ne_true hfits.1
        exact hread.1.length_eq.symm
      | some data =>
        have hdata := resize_eq_some hresize
        have hmax : data.length ≤ maxSize := by
          rw [hresize] at hallocated
          have hle := hallocated.mp rfl
          omega
        rw [Option.isSome_some, and_iff_right rfl]
        dsimp only
        split
        · rw [and_iff_left (isFaithful_of_copies_eq_nil rfl (by simp))]
          refine ⟨fun hcovers => ?_, fun hlt => ?_⟩
          · have hmod : h.size % 2 ^ 64 = h.size := hdata.symm.trans hcovers.length_eq
            exact hmod ▸ Nat.mod_lt _ (by decide)
          · exact covers_of_length_eq (hdata.trans (Nat.mod_eq_of_lt hlt)) hmax
        · rename_i hoffset
          exact readRows_iff hheader (Nat.le_of_not_lt hoffset) hdata hmax rfl
    · obtain ⟨e, he⟩ := create_of_not_isSupported b.clear h.width.toUInt64
        h.absHeight.toUInt64 allocated hsupported
      rw [readBmpData, hheader]
      dsimp only
      rw [he]
      exact iff_of_true ⟨covers_clear b, isFaithful_of_copies_eq_nil rfl (by simp)⟩
        fun hsupported' => absurd hsupported' hsupported

end Read

/-- A step leaves a bitmap that covers its size, and a read was right. -/
def IsSound (b : Bitmap) (call : Call) (b' : Bitmap) : Prop :=
  b'.Covers ∧ call.IsFaithful b

/-- The measures and the number of bytes stay. -/
def Keeps (b b' : Bitmap) : Prop :=
  ∃ data, b' = { b with data := data } ∧ data.length = b.data.length

variable {b b' : Bitmap} {call : Call}

theorem Keeps.covers (h : b.Keeps b') (hcovers : b.Covers) : b'.Covers := by
  obtain ⟨data, rfl, hlength⟩ := h
  refine ⟨hlength.trans hcovers.length_eq, fun row line haccessible => ?_⟩
  rw [hlength]
  exact hcovers.inside row line haccessible

theorem Keeps.length_eq (h : b.Keeps b') : b'.data.length = b.data.length := by
  obtain ⟨data, rfl, hlength⟩ := h
  exact hlength

theorem set_keeps (b : Bitmap) (row line : UInt64) (pixel : UInt32) :
    b.Keeps ((b.set row line pixel).toOption.getD b) := by
  rw [set]
  split
  · exact ⟨_, rfl, memcpy_length ..⟩
  · exact ⟨_, rfl, rfl⟩

theorem setData_keeps (b : Bitmap) (bytes : List UInt8) :
    b.Keeps ((b.setData bytes).toOption.getD b) := by
  rw [setData]
  split
  · exact ⟨_, rfl, rfl⟩
  · exact ⟨_, rfl, memcpy_length ..⟩

theorem fill_keeps (b : Bitmap) (pixel : UInt32) : b.Keeps (b.fill pixel) :=
  ⟨_, rfl, foldl_memcpy_length ..⟩

theorem readBmpData_length_le (b : Bitmap) (bytes : List UInt8) (allocated : Bool) :
    (b.readBmpData bytes allocated).bitmap.data.length ≤ maxSize := by
  have hclear : b.clear.data.length ≤ maxSize := Nat.zero_le _
  rw [readBmpData]
  split
  · exact hclear
  · rename_i h _
    have hcreate := create_length_le hclear h.width.toUInt64 h.absHeight.toUInt64 h.bitPerPixel
      allocated
    generalize b.clear.create _ _ _ _ = created at hcreate
    obtain ⟨e, created⟩ := created
    cases e with
    | some e => exact hcreate
    | none =>
      dsimp only
      split
      · exact hcreate
      · rw [readRows_bitmap]
        split
        · exact (foldl_memcpy_length ..).trans_le hcreate
        · exact Nat.zero_le _

theorem length_perform (hmax : b.data.length ≤ maxSize) (call : Call) :
    (b.perform call).data.length ≤ maxSize := by
  cases call with
  | create width height bitPerPixel allocated => exact create_length_le hmax ..
  | clear => exact Nat.zero_le _
  | setData bytes => exact (setData_keeps b bytes).length_eq.trans_le hmax
  | set row line pixel => exact (set_keeps b row line pixel).length_eq.trans_le hmax
  | get row line => exact hmax
  | fill pixel => exact (fill_keeps b pixel).length_eq.trans_le hmax
  | readBmpData bytes allocated => exact readBmpData_length_le b bytes allocated

/-- A call of a bitmap that covers its size is sound exactly when its sizes fit. -/
theorem isSound_perform_iff (hcovers : b.Covers) (hmax : b.data.length ≤ maxSize) :
    b.IsSound call (b.perform call) ↔ call.Fits b := by
  cases call with
  | create width height bitPerPixel allocated =>
    refine (and_iff_left trivial).trans ?_
    change (b.create width height bitPerPixel allocated).2.Covers ↔ (IsSupported bitPerPixel → _)
    by_cases hsupported : IsSupported bitPerPixel
    · rw [forall_prop_of_true hsupported]
      exact create_covers_iff hmax hsupported
    · obtain ⟨e, he⟩ := create_of_not_isSupported b width height allocated hsupported
      rw [he]
      exact iff_of_true hcovers fun hsupported' => absurd hsupported' hsupported
  | clear => exact iff_of_true ⟨covers_clear b, trivial⟩ trivial
  | setData bytes => exact iff_of_true ⟨(setData_keeps b bytes).covers hcovers, trivial⟩ trivial
  | set row line pixel =>
    exact iff_of_true ⟨(set_keeps b row line pixel).covers hcovers, trivial⟩ trivial
  | get row line => exact iff_of_true ⟨hcovers, trivial⟩ trivial
  | fill pixel => exact iff_of_true ⟨(fill_keeps b pixel).covers hcovers, trivial⟩ trivial
  | readBmpData bytes allocated => exact readBmpData_iff

/-- A run keeps a bitmap that covers its size, and reads only what it was given,
exactly when the sizes of each of its calls fit. -/
theorem isSound_iff (calls : List Call) :
    Transition.Along step IsSound empty calls ↔
      Transition.Along step (fun b call _ => call.Fits b) empty calls := by
  refine Transition.along_iff (I := fun b => b.Covers ∧ b.data.length ≤ maxSize)
    (P := fun _ => True) (fun b call b' _ hb hstep hsound => ?_)
    (fun b call b' _ hb hstep => ?_) ⟨covers_clear empty, Nat.zero_le _⟩ fun _ _ => trivial
  · obtain rfl := Option.some.inj hstep
    exact ⟨hsound.1, length_perform hb.2 call⟩
  · obtain rfl := Option.some.inj hstep
    exact isSound_perform_iff hb.1 hb.2

/-- A width and a height whose size is 0 in 64 bits; and three bytes read for a pixel
of 280 bits, of which `create` is told the lowest byte, 24. -/
theorem not_isSound :
    (¬ ∀ calls, Transition.Along step IsSound empty calls) ∧
      ¬ (empty.readBmpData ([66, 77] ++ List.replicate 8 0 ++ [54, 0, 0, 0] ++
        List.replicate 4 0 ++ [1, 0, 0, 0] ++ [1, 0, 0, 0] ++ [1, 0, 24, 1] ++
        List.replicate 24 0 ++ [7, 8, 9]) true).IsFaithful ([66, 77] ++ List.replicate 8 0 ++
        [54, 0, 0, 0] ++ List.replicate 4 0 ++ [1, 0, 0, 0] ++ [1, 0, 0, 0] ++ [1, 0, 24, 1] ++
        List.replicate 24 0 ++ [7, 8, 9]) := by
  refine ⟨fun h => ?_, fun h => ?_⟩
  · have hcovers := (h [.create (2 ^ 63) 2 32 true] _ rfl).1.1.length_eq
    revert hcovers
    decide +kernel
  · obtain ⟨header, hheader, hrows⟩ := h.rows (by decide +kernel)
    have hread := Option.some.inj (rfl.trans hheader)
    subst hread
    have hpresent := (hrows 0 (by decide +kernel)).present
    revert hpresent
    decide +kernel

end Bitmap

end Sihd.Sys
