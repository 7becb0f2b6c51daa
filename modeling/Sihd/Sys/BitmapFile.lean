import Sihd.Lib.Rows
import Sihd.Sys.Bitmap

/-!
# Bitmap files

A file has two headers and the rows, each padded to a multiple of 4 bytes. A file whose height
is negated has its rows from the top down.
-/

namespace Sihd.Sys.Bitmap

open Copy Header

/-! ### The writer -/

/-- The two headers. -/
def headerBytes (fileSize width height bitsPerPixel imageSize : Nat) : List UInt8 :=
  [66, 77] ++ (littleEndian 4 fileSize ++ (littleEndian 4 0 ++ (littleEndian 4 (14 + 40) ++
    (littleEndian 4 40 ++ (littleEndian 4 width ++ (littleEndian 4 height ++ (littleEndian 2 1 ++
      (littleEndian 2 bitsPerPixel ++ (littleEndian 4 0 ++ (littleEndian 4 imageSize ++
        (littleEndian 4 0x130B ++ (littleEndian 4 0x130B ++ (littleEndian 4 0 ++
          littleEndian 4 0)))))))))))))

def bytesPerRow (b : Bitmap) : UInt64 := b.width * b.bytePerPixel.toUInt64

def paddedRowSize (b : Bitmap) : UInt64 := (b.bytesPerRow + 3) / 4 * 4

def imageSize (b : Bitmap) : UInt64 := b.paddedRowSize * b.height

def fileSize (b : Bitmap) : UInt64 := 14 + 40 + b.imageSize

/-- The copy of a row to the file. -/
def writeRow (b : Bitmap) (y : Nat) : Copy :=
  ⟨y * b.paddedRowSize.toNat, y * b.bytesPerRow.toNat, b.bytesPerRow.toNat⟩

/-- The rows behind the headers; their padding stays zero. -/
def fileRows (b : Bitmap) : List UInt8 :=
  ((List.range b.height.toNat).map b.writeRow).foldl (memcpy b.data)
    (List.replicate b.imageSize.toNat 0)

def toBmpData (b : Bitmap) : List UInt8 :=
  if b.data.isEmpty then []
  else
    headerBytes b.fileSize.toNat b.width.toNat b.height.toNat b.bitPerPixel.toNat
      b.imageSize.toNat ++ b.fileRows

/-- A file with its rows in the other order and its height negated. -/
def upsideDown (bytes : List UInt8) : List UInt8 :=
  match Header.read bytes with
  | none => bytes
  | some h =>
      let size := padded h.bytesPerRow
      let row := fun y => (bytes.drop (h.fileoffset.toNat + y * size)).take size
      bytes.take 22 ++ (littleEndian 4 (0 - h.height).toNat ++
        ((bytes.drop 26).take (h.fileoffset.toNat - 26) ++
          (List.range h.absHeight.toNat).flatMap fun y => row (h.absHeight.toNat - 1 - y)))

/-! ### What is written and read -/

/-- The bytes of a row. -/
def rowSize (b : Bitmap) : Nat := b.width.toNat * b.bytePerPixel.toNat

/-- A bitmap with pixels, whose file has a size of 32 bits. -/
structure IsPicture (b : Bitmap) : Prop where
  supported : IsSupported b.bitPerPixel
  length_eq : b.data.length = b.size
  width_pos : 1 ≤ b.width.toNat
  height_pos : 1 ≤ b.height.toNat
  fits : 14 + 40 + padded b.rowSize * b.height.toNat < 2 ^ 32

/-- The same measures and the same pixels. -/
structure Alike (b b' : Bitmap) : Prop where
  width : b.width = b'.width
  height : b.height = b'.height
  bitPerPixel : b.bitPerPixel = b'.bitPerPixel
  pixel : ∀ row line, b'.isAccessible row line = true → b.get row line = b'.get row line

/-- A file that is read as a bitmap, whatever the bitmap was that reads it. -/
def ReadsAs (bytes : List UInt8) (b : Bitmap) : Prop :=
  ∀ b₀ : Bitmap, (b₀.readBmpData bytes true).result = .ok true ∧
    (b₀.readBmpData bytes true).bitmap.Alike b

/-- A file of the measures of a bitmap. -/
structure IsFileOf (h : Header) (bytes : List UInt8) (b : Bitmap) : Prop where
  header : Header.read bytes = some h
  fileoffset : h.fileoffset = 54
  width : h.width.toUInt64 = b.width
  height : h.absHeight.toUInt64 = b.height
  bitsPerPixel : h.bitsPerPixel = b.bitPerPixel.toUInt16
  length_eq : bytes.length = 54 + padded b.rowSize * b.height.toNat

section Measures

variable {b : Bitmap} {h : Header} {bytes : List UInt8}

theorem bytePerPixel_of_isSupported (hb : IsSupported b.bitPerPixel) :
    b.bitPerPixel.toNat = 8 * b.bytePerPixel.toNat ∧ 0 < b.bytePerPixel.toNat ∧
      b.bytePerPixel.toNat ≤ 4 := by
  rw [bytePerPixel]
  rcases hb with hdepth | hdepth
  · rw [hdepth]
    decide
  · rw [hdepth]
    decide

theorem IsPicture.size_eq (hb : b.IsPicture) : b.data.length = b.rowSize * b.height.toNat := by
  rw [hb.length_eq, size, rowSize]
  ring

theorem IsPicture.rowSize_lt (hb : b.IsPicture) : padded b.rowSize < 2 ^ 32 := by
  have hfits := hb.fits
  have hle := Nat.le_mul_of_pos_right (padded b.rowSize) hb.height_pos
  omega

theorem IsPicture.width_le (hb : b.IsPicture) : b.width.toNat ≤ b.rowSize :=
  Nat.le_mul_of_pos_right _ (bytePerPixel_of_isSupported hb.supported).2.1

theorem IsPicture.rowSize_pos (hb : b.IsPicture) : 0 < b.rowSize :=
  Nat.lt_of_lt_of_le hb.width_pos hb.width_le

theorem IsPicture.height_lt (hb : b.IsPicture) : b.height.toNat < 2 ^ 30 := by
  have hfits := hb.fits
  have hpad : 4 ≤ padded b.rowSize := by
    have hpos := hb.rowSize_pos
    rw [padded]
    omega
  have hle := Nat.mul_le_mul_right b.height.toNat hpad
  omega

theorem IsPicture.bytesPerRow_eq (hb : b.IsPicture) : b.bytesPerRow.toNat = b.rowSize := by
  have hlt := hb.rowSize_lt
  have hle := le_padded b.rowSize
  rw [bytesPerRow, UInt64.toNat_mul, UInt8.toNat_toUInt64, ← rowSize, Nat.mod_eq_of_lt (by omega)]

theorem IsPicture.paddedRowSize_eq (hb : b.IsPicture) :
    b.paddedRowSize.toNat = padded b.rowSize := by
  have hlt := hb.rowSize_lt
  rw [padded] at hlt
  rw [paddedRowSize, UInt64.toNat_mul, UInt64.toNat_div, UInt64.toNat_add, hb.bytesPerRow_eq,
    padded]
  change (b.rowSize + 3) % 2 ^ 64 / 4 * 4 % 2 ^ 64 = _
  rw [Nat.mod_eq_of_lt (a := b.rowSize + 3) (by omega), Nat.mod_eq_of_lt (by omega)]

theorem IsPicture.imageSize_eq (hb : b.IsPicture) :
    b.imageSize.toNat = padded b.rowSize * b.height.toNat := by
  have hfits := hb.fits
  rw [imageSize, UInt64.toNat_mul, hb.paddedRowSize_eq, Nat.mod_eq_of_lt (by omega)]

theorem IsFileOf.bitPerPixel (hf : IsFileOf h bytes b) : h.bitPerPixel = b.bitPerPixel := by
  rw [Header.bitPerPixel, hf.bitsPerPixel, UInt8.toUInt8_toUInt16]

theorem IsFileOf.width_toNat (hf : IsFileOf h bytes b) : h.width.toNat = b.width.toNat := by
  rw [← hf.width]
  rfl

theorem IsFileOf.height_toNat (hf : IsFileOf h bytes b) : h.absHeight.toNat = b.height.toNat := by
  rw [← hf.height]
  rfl

theorem IsFileOf.bytesPerRow (hf : IsFileOf h bytes b) (hb : b.IsPicture) :
    h.bytesPerRow = b.rowSize := by
  have hlt := hb.rowSize_lt
  have hle := le_padded b.rowSize
  rw [bytesPerRow_eq, hf.width_toNat, hf.bitPerPixel]
  change b.rowSize % 2 ^ 32 = b.rowSize
  exact Nat.mod_eq_of_lt (by omega)

theorem IsFileOf.size (hf : IsFileOf h bytes b) (hb : b.IsPicture) :
    h.size = b.data.length := by
  rw [hb.length_eq, Header.size, hf.width_toNat, hf.height_toNat, hf.bitPerPixel]
  rfl

end Measures

/-! ### Rows that are read -/

section Rows

variable {b : Bitmap} {h : Header} {bytes : List UInt8}

/-- No two rows of a file go to the same place. -/
theorem rowPlace_injOn {y y' : Nat} (hy : y < h.absHeight.toNat) (hy' : y' < h.absHeight.toNat)
    (heq : h.rowPlace y' = h.rowPlace y) : y' = y := by
  rw [rowPlace, rowPlace] at heq
  split at heq <;> omega

theorem IsFileOf.suffices (hf : IsFileOf h bytes b) (hb : b.IsPicture) :
    h.Suffices (bytes.length - h.fileoffset.toNat) := by
  have hpos := hb.height_pos
  have hend := Rows.end_le (n := padded b.rowSize) (Nat.sub_one_lt_of_lt hpos)
  have hle := le_padded b.rowSize
  refine .inr (rowFits_iff.mpr ?_)
  rw [hf.length_eq, hf.fileoffset, hf.bytesPerRow hb, hf.height_toNat]
  change _ ≤ 54 + padded b.rowSize * b.height.toNat - 54
  omega

/-- The bytes of a row of the file are those of the row that it goes to. -/
theorem IsFileOf.getElem?_copies (hf : IsFileOf h bytes b) (hb : b.IsPicture)
    {data : List UInt8} (hdata : data.length = b.data.length) {y i : Nat}
    (hy : y < b.height.toNat) (hi : i < b.rowSize) :
    ((h.copies (bytes.length - h.fileoffset.toNat)).2.foldl (memcpy bytes)
        data)[h.rowPlace y * b.rowSize + i]? = bytes[54 + y * padded b.rowSize + i]? := by
  have hrow := hf.bytesPerRow hb
  have hheight := hf.height_toNat
  have hoffset : h.fileoffset.toNat = 54 := by rw [hf.fileoffset]; rfl
  have hlength := hf.length_eq
  have hsize := hb.size_eq
  have hsuccess := copies_fst_eq_true_iff.mpr (hf.suffices hb)
  refine getElem?_foldl_memcpy (fun c hc => ⟨?_, ?_⟩) ?_ (.inr ?_)
  · have hsource := copies_source hc
    omega
  · have hdst := copies_destination hc
    rw [hrow, hheight, Nat.mul_comm] at hdst
    omega
  · intro c hc hle hlt
    by_cases hpad : padded h.bytesPerRow = h.bytesPerRow
    · rw [copies_of_unpadded hpad] at hc
      split at hc
      · obtain rfl := List.mem_singleton.mp hc
        dsimp only
        rw [rowPlace, if_neg (by simp [hpad]), hoffset, ← hrow, hpad]
        omega
      · cases hc
    · rw [copies_of_padded hpad] at hc
      obtain ⟨y', -, hy', -, rfl⟩ := mem_copyWhile hc
      rw [rowCopy_dst hpad, hrow] at hle
      rw [rowCopy_dst hpad] at hlt
      change _ < _ + h.bytesPerRow at hlt
      rw [hrow] at hlt
      have hplace := Rows.unique hi hle hlt
      obtain rfl := rowPlace_injOn (by omega) (by omega) hplace
      rw [rowCopy_dst hpad, hrow]
      change h.fileoffset.toNat + y' * padded h.bytesPerRow + _ = _
      rw [hoffset, hrow]
      omega
  · by_cases hpad : padded h.bytesPerRow = h.bytesPerRow
    · rw [copies_of_unpadded hpad] at hsuccess ⊢
      split at hsuccess
      · rename_i hle
        rw [if_pos hle]
        refine ⟨_, List.mem_singleton_self _, Nat.zero_le _, ?_⟩
        have hend := Rows.end_le (n := b.rowSize) hy
        dsimp only
        rw [rowPlace, if_neg (by simp [hpad]), hrow, hheight]
        omega
      · cases hsuccess
    · rw [copies_of_padded hpad] at hsuccess ⊢
      have hfits := copyWhile_fst_eq_true_iff.mp hsuccess y (Nat.zero_le _) (by omega)
      refine ⟨h.rowCopy y, row_mem_copyWhile (fun i j => rowFits_mono) (Nat.zero_le _) (by omega)
        hfits, ?_, ?_⟩
      · rw [rowCopy_dst hpad, hrow]
        omega
      · rw [rowCopy_dst hpad, hrow]
        change _ < _ + h.bytesPerRow
        omega

/-- A file is read to a bitmap of its measures, with its rows in their places. -/
theorem IsFileOf.read (hf : IsFileOf h bytes b) (hb : b.IsPicture) (b₀ : Bitmap) :
    ∃ data, (b₀.readBmpData bytes true).result = .ok true ∧
      (b₀.readBmpData bytes true).bitmap = { b with data := data } ∧
      data.length = b.data.length ∧
      ∀ y < b.height.toNat, ∀ i < b.rowSize,
        data[h.rowPlace y * b.rowSize + i]? = bytes[54 + y * padded b.rowSize + i]? := by
  have hsupported : IsSupported h.bitPerPixel := hf.bitPerPixel ▸ hb.supported
  have hfits := hb.fits
  have hle := Nat.mul_le_mul_right b.height.toNat (le_padded b.rowSize)
  have hsize := hb.size_eq
  have hoffset : h.fileoffset.toNat = 54 := by rw [hf.fileoffset]; rfl
  have hlength := hf.length_eq
  have hmod : h.size % 2 ^ 64 = b.data.length := by
    rw [hf.size hb, Nat.mod_eq_of_lt (by omega)]
  have hmax : b.data.length ≤ maxSize := by
    rw [maxSize]
    omega
  have hsome : (resize [] b.data.length true).isSome = true :=
    resize_isSome_iff.mpr (.inr ⟨rfl, hmax⟩)
  obtain ⟨created, hresize⟩ := Option.isSome_iff_exists.mp hsome
  have hcreated := resize_eq_some hresize
  rw [readBmpData_of_isSupported hf.header hsupported, hmod, hresize]
  dsimp only
  rw [if_neg (by omega), readRows_result, readRows_bitmap,
    copies_fst_eq_true_iff.mpr (hf.suffices hb), if_pos rfl]
  refine ⟨_, rfl, ?_, (foldl_memcpy_length ..).trans hcreated, fun y hy i hi =>
    hf.getElem?_copies hb hcreated hy hi⟩
  rw [copyAll, Header.bitmap, hf.width, hf.height, hf.bitPerPixel]

end Rows

/-! ### Files that are written -/

section Files

variable {b : Bitmap}

theorem headerBytes_length (fileSize width height bitsPerPixel imageSize : Nat) :
    (headerBytes fileSize width height bitsPerPixel imageSize).length = 54 := rfl

/-- What is written in the headers is read from them. -/
theorem read_headerBytes (fileSize width height bitsPerPixel imageSize : Nat)
    (rows : List UInt8) :
    Header.read (headerBytes fileSize width height bitsPerPixel imageSize ++ rows) =
      some ⟨54, UInt32.ofNat width, UInt32.ofNat height, UInt16.ofNat bitsPerPixel⟩ := by
  generalize hbytes : headerBytes fileSize width height bitsPerPixel imageSize ++ rows = bytes
  have hlength : ¬ bytes.length < 14 + 40 := by
    rw [← hbytes, List.length_append, headerBytes_length]
    omega
  have hword : ∀ (i w n : Nat), (bytes.drop i).take w = littleEndian w n →
      word bytes i w = n % 256 ^ w := by
    intro i w n hfield
    rw [word, hfield, wordOf_littleEndian]
  have hB : word bytes 0 1 = 66 := by rw [← hbytes]; rfl
  have hM : word bytes 1 1 = 77 := by rw [← hbytes]; rfl
  have hfileoffset := hword 10 4 54 (by rw [← hbytes]; rfl)
  have hwidth := hword 18 4 width (by rw [← hbytes]; rfl)
  have hheight := hword 22 4 height (by rw [← hbytes]; rfl)
  have hdepth := hword 28 2 bitsPerPixel (by rw [← hbytes]; rfl)
  rw [Header.read, if_neg hlength, if_neg (by simp [hB, hM]), hfileoffset, hwidth, hheight, hdepth]
  refine congrArg some ?_
  have hmod32 : ∀ n : Nat, UInt32.ofNat (n % 256 ^ 4) = UInt32.ofNat n := fun n =>
    UInt32.ofNat_mod_size
  have hmod16 : ∀ n : Nat, UInt16.ofNat (n % 256 ^ 2) = UInt16.ofNat n := fun n =>
    UInt16.ofNat_mod_size
  rw [hmod32, hmod32, hmod32, hmod16]
  rfl

theorem upsideDown_headerBytes (fileSize width height bitsPerPixel imageSize : Nat)
    (rows : List UInt8) {h : Header}
    (hh : h = ⟨54, UInt32.ofNat width, UInt32.ofNat height, UInt16.ofNat bitsPerPixel⟩) :
    upsideDown (headerBytes fileSize width height bitsPerPixel imageSize ++ rows) =
      headerBytes fileSize width (0 - UInt32.ofNat height).toNat bitsPerPixel imageSize ++
        (List.range h.absHeight.toNat).flatMap fun y =>
          (rows.drop ((h.absHeight.toNat - 1 - y) * padded h.bytesPerRow)).take
            (padded h.bytesPerRow) := by
  have hdrop : ∀ k, (headerBytes fileSize width height bitsPerPixel imageSize ++ rows).drop
      (UInt32.toNat 54 + k) = rows.drop k := by
    intro k
    change List.drop (54 + k) _ = _
    rw [← List.drop_drop, List.drop_left' (headerBytes_length ..)]
  rw [upsideDown, read_headerBytes, hh]
  dsimp only
  simp only [hdrop]
  rfl

theorem IsPicture.fileRows_length (hb : b.IsPicture) :
    b.fileRows.length = padded b.rowSize * b.height.toNat := by
  rw [fileRows, foldl_memcpy_length, List.length_replicate, hb.imageSize_eq]

/-- A row is written where the file has it. -/
theorem IsPicture.getElem?_fileRows (hb : b.IsPicture) {y i : Nat} (hy : y < b.height.toNat)
    (hi : i < b.rowSize) :
    b.fileRows[y * padded b.rowSize + i]? = b.data[y * b.rowSize + i]? := by
  have hwrite : ∀ y, b.writeRow y = ⟨y * padded b.rowSize, y * b.rowSize, b.rowSize⟩ := by
    intro y
    rw [writeRow, hb.paddedRowSize_eq, hb.bytesPerRow_eq]
  have hle := le_padded b.rowSize
  refine getElem?_foldl_memcpy (fun c hc => ?_) (fun c hc hle hlt => ?_) (.inr ?_)
  · obtain ⟨y', hy', rfl⟩ := List.mem_map.mp hc
    have hsrc := Rows.end_le (n := b.rowSize) (List.mem_range.mp hy')
    have hdst := Rows.end_le (n := padded b.rowSize) (List.mem_range.mp hy')
    rw [hwrite, List.length_replicate, hb.imageSize_eq, hb.size_eq]
    refine ⟨hsrc, ?_⟩
    dsimp only
    omega
  · obtain ⟨y', hy', rfl⟩ := List.mem_map.mp hc
    rw [hwrite] at hle hlt ⊢
    dsimp only at hle hlt ⊢
    have hsame : y' = y := Rows.unique (by omega) hle (by omega)
    rw [hsame]
    omega
  · refine ⟨b.writeRow y, List.mem_map_of_mem (List.mem_range.mpr hy), ?_⟩
    rw [hwrite]
    dsimp only
    omega

/-- The header of the file of a bitmap. -/
def fileHeader (b : Bitmap) : Header :=
  ⟨54, UInt32.ofNat b.width.toNat, UInt32.ofNat b.height.toNat, UInt16.ofNat b.bitPerPixel.toNat⟩

theorem IsPicture.toBmpData_eq (hb : b.IsPicture) :
    b.toBmpData = headerBytes b.fileSize.toNat b.width.toNat b.height.toNat b.bitPerPixel.toNat
      b.imageSize.toNat ++ b.fileRows := by
  have hpos := Nat.mul_pos hb.rowSize_pos hb.height_pos
  rw [← hb.size_eq] at hpos
  rw [toBmpData, if_neg]
  rw [List.isEmpty_iff, ← List.length_eq_zero_iff]
  omega

theorem IsPicture.isFileOf_toBmpData (hb : b.IsPicture) :
    IsFileOf b.fileHeader b.toBmpData b := by
  have hheight := hb.height_lt
  have hwidth := hb.width_le
  have hrow := hb.rowSize_lt
  have hle := le_padded b.rowSize
  have htop : b.fileHeader.topDown = false := by
    rw [topDown, fileHeader]
    dsimp only
    rw [UInt32.toNat_ofNat', Nat.mod_eq_of_lt (by omega)]
    simpa using by omega
  refine ⟨?_, rfl, ?_, ?_, ?_, ?_⟩
  · rw [hb.toBmpData_eq, read_headerBytes]
    rfl
  · rw [← UInt64.toNat_inj, UInt32.toNat_toUInt64, fileHeader]
    dsimp only
    rw [UInt32.toNat_ofNat', Nat.mod_eq_of_lt (by omega)]
  · rw [absHeight, htop, if_neg Bool.false_ne_true, ← UInt64.toNat_inj, UInt32.toNat_toUInt64,
      fileHeader]
    dsimp only
    rw [UInt32.toNat_ofNat', Nat.mod_eq_of_lt (by omega)]
  · have hdepth := b.bitPerPixel.toNat_lt
    rw [← UInt16.toNat_inj, UInt8.toNat_toUInt16, fileHeader]
    dsimp only
    rw [UInt16.toNat_ofNat', Nat.mod_eq_of_lt (by omega)]
  · rw [hb.toBmpData_eq, List.length_append, headerBytes_length, hb.fileRows_length]

theorem IsPicture.getElem?_toBmpData (hb : b.IsPicture) (k : Nat) :
    b.toBmpData[54 + k]? = b.fileRows[k]? := by
  rw [hb.toBmpData_eq, List.getElem?_append_right (by rw [headerBytes_length]; omega),
    headerBytes_length, Nat.add_sub_cancel_left]

/-- The header of the file with its rows in the other order. -/
def upsideDownHeader (b : Bitmap) : Header :=
  { b.fileHeader with height := 0 - b.fileHeader.height }

theorem IsPicture.topDown_upsideDownHeader (hb : b.IsPicture) :
    b.upsideDownHeader.topDown = true ∧ b.upsideDownHeader.absHeight = b.fileHeader.height := by
  have hheight := hb.height_lt
  have hpos := hb.height_pos
  have hfield : b.fileHeader.height.toNat = b.height.toNat := by
    rw [fileHeader]
    dsimp only
    rw [UInt32.toNat_ofNat', Nat.mod_eq_of_lt (by omega)]
  have htop : b.upsideDownHeader.topDown = true := by
    rw [topDown, upsideDownHeader]
    dsimp only
    rw [UInt32.toNat_sub, hfield, decide_eq_true_iff]
    change 2 ^ 31 ≤ (2 ^ 32 - b.height.toNat + 0) % 2 ^ 32
    omega
  refine ⟨htop, ?_⟩
  rw [absHeight, htop, if_pos rfl, upsideDownHeader]
  dsimp only
  rw [← UInt32.toNat_inj, UInt32.toNat_sub, UInt32.toNat_sub, hfield]
  change (2 ^ 32 - (2 ^ 32 - b.height.toNat + 0) % 2 ^ 32 + 0) % 2 ^ 32 = _
  omega

theorem IsPicture.upsideDown_eq (hb : b.IsPicture) :
    upsideDown b.toBmpData =
      headerBytes b.fileSize.toNat b.width.toNat b.upsideDownHeader.height.toNat
        b.bitPerPixel.toNat b.imageSize.toNat ++
        (List.range b.height.toNat).flatMap fun y =>
          (b.fileRows.drop ((b.height.toNat - 1 - y) * padded b.rowSize)).take
            (padded b.rowSize) := by
  have hf := hb.isFileOf_toBmpData
  have heq := upsideDown_headerBytes b.fileSize.toNat b.width.toNat b.height.toNat
    b.bitPerPixel.toNat b.imageSize.toNat b.fileRows (h := b.fileHeader) rfl
  rw [hf.height_toNat, hf.bytesPerRow hb, ← hb.toBmpData_eq] at heq
  exact heq

/-- The rows of the file are whole. -/
theorem IsPicture.fileRow_length (hb : b.IsPicture) {y : Nat} (hy : y < b.height.toNat) :
    ((b.fileRows.drop ((b.height.toNat - 1 - y) * padded b.rowSize)).take
      (padded b.rowSize)).length = padded b.rowSize := by
  have hend := Rows.end_le (n := padded b.rowSize) (show b.height.toNat - 1 - y < b.height.toNat by
    omega)
  rw [List.length_take, List.length_drop, hb.fileRows_length]
  omega

theorem IsPicture.isFileOf_upsideDown (hb : b.IsPicture) :
    IsFileOf b.upsideDownHeader (upsideDown b.toBmpData) b := by
  have hf := hb.isFileOf_toBmpData
  obtain ⟨-, habs⟩ := hb.topDown_upsideDownHeader
  have hfileAbs : b.fileHeader.absHeight = b.fileHeader.height := by
    rw [← UInt32.toNat_inj, hf.height_toNat, fileHeader]
    dsimp only
    rw [UInt32.toNat_ofNat', Nat.mod_eq_of_lt (by have := hb.height_lt; omega)]
  refine ⟨?_, rfl, hf.width, ?_, hf.bitsPerPixel, ?_⟩
  · rw [hb.upsideDown_eq, read_headerBytes, UInt32.ofNat_toNat]
    rfl
  · rw [habs, ← hfileAbs]
    exact hf.height
  · rw [hb.upsideDown_eq, List.length_append, headerBytes_length,
      Rows.length_flatMap_range fun y => hb.fileRow_length]

/-- The rows of the file are in the other order. -/
theorem IsPicture.getElem?_upsideDown (hb : b.IsPicture) {y i : Nat} (hy : y < b.height.toNat)
    (hi : i < b.rowSize) :
    (upsideDown b.toBmpData)[54 + y * padded b.rowSize + i]? =
      b.data[(b.height.toNat - 1 - y) * b.rowSize + i]? := by
  have hle := le_padded b.rowSize
  rw [hb.upsideDown_eq, List.getElem?_append_right (by rw [headerBytes_length]; omega),
    headerBytes_length, Nat.add_assoc, Nat.add_sub_cancel_left,
    Rows.getElem?_flatMap_range (fun y => hb.fileRow_length) hy (by omega),
    List.getElem?_take_of_lt (by omega), List.getElem?_drop,
    hb.getElem?_fileRows (by omega) hi]

end Files

/-! ### Files that are read back -/

section ReadBack

variable {b : Bitmap}

theorem alike_refl (b : Bitmap) : b.Alike b := ⟨rfl, rfl, rfl, fun _ _ _ => rfl⟩

/-- What is written is read back. -/
theorem IsPicture.readsAs_toBmpData (hb : b.IsPicture) : ReadsAs b.toBmpData b := by
  intro b₀
  have hheight := hb.height_lt
  obtain ⟨data, hresult, hbitmap, hlength, hrows⟩ := hb.isFileOf_toBmpData.read hb b₀
  have htop : b.fileHeader.topDown = false := by
    rw [topDown, fileHeader]
    dsimp only
    rw [UInt32.toNat_ofNat', Nat.mod_eq_of_lt (by omega)]
    simpa using by omega
  have hdata : data = b.data := by
    refine Rows.ext (hlength.trans hb.size_eq) hb.size_eq fun y hy i hi => ?_
    have hrow := hrows y hy i hi
    rwa [rowPlace, if_neg (by simp [htop]), Nat.add_assoc, hb.getElem?_toBmpData,
      hb.getElem?_fileRows hy hi] at hrow
  rw [hresult, hbitmap, hdata]
  exact ⟨rfl, alike_refl b⟩

/-- Where the rows are padded, the order of the rows does not matter. -/
theorem IsPicture.readsAs_upsideDown (hb : b.IsPicture) (hpad : padded b.rowSize ≠ b.rowSize) :
    ReadsAs (upsideDown b.toBmpData) b := by
  intro b₀
  have hf := hb.isFileOf_upsideDown
  obtain ⟨data, hresult, hbitmap, hlength, hrows⟩ := hf.read hb b₀
  have hdata : data = b.data := by
    refine Rows.ext (hlength.trans hb.size_eq) hb.size_eq fun y hy i hi => ?_
    have hrow := hrows (b.height.toNat - 1 - y) (by omega) i hi
    rw [hb.getElem?_upsideDown (by omega) hi, rowPlace, hf.bytesPerRow hb, hf.height_toNat,
      if_pos ⟨hb.topDown_upsideDownHeader.1, hpad⟩] at hrow
    rwa [show b.height.toNat - 1 - (b.height.toNat - 1 - y) = y by omega] at hrow
  rw [hresult, hbitmap, hdata]
  exact ⟨rfl, alike_refl b⟩

/-- A bitmap that is the same upside down. -/
def IsSymmetric (b : Bitmap) : Prop :=
  ∀ row line, b.isAccessible row line = true → b.get row line = b.get row (b.height - 1 - line)

theorem isAccessible_iff {row line : UInt64} : b.isAccessible row line = true ↔
    row.toNat < b.width.toNat ∧ line.toNat < b.height.toNat := by
  rw [isAccessible, Bool.and_eq_true, decide_eq_true_iff, decide_eq_true_iff,
    UInt64.lt_iff_toNat_lt, UInt64.lt_iff_toNat_lt]

/-- The bytes of a pixel are in its row. -/
theorem pixelEnd_le {row line : UInt64} (h : b.isAccessible row line = true) :
    row.toNat * b.bytePerPixel.toNat + b.bytePerPixel.toNat ≤ b.rowSize := by
  rw [← Nat.succ_mul]
  exact Nat.mul_le_mul_right _ (isAccessible_iff.mp h).1

theorem IsPicture.coordinateToPixel_eq (hb : b.IsPicture) {row line : UInt64}
    (h : b.isAccessible row line = true) : (b.coordinateToPixel row line).toNat =
      line.toNat * b.rowSize + row.toNat * b.bytePerPixel.toNat := by
  obtain ⟨hrow, hline⟩ := isAccessible_iff.mp h
  have hpixel := pixelEnd_le h
  have hend := Rows.end_le (n := b.rowSize) hline
  have hfits := hb.fits
  have hle := Nat.mul_le_mul_right b.height.toNat (le_padded b.rowSize)
  have hbytes := (bytePerPixel_of_isSupported hb.supported).2.1
  have heq : (line.toNat * b.width.toNat + row.toNat) * b.bytePerPixel.toNat =
      line.toNat * b.rowSize + row.toNat * b.bytePerPixel.toNat := by
    rw [rowSize]
    ring
  have hindex := Nat.le_mul_of_pos_right (line.toNat * b.width.toNat + row.toNat) hbytes
  rw [coordinateToPixel, UInt64.toNat_mul, UInt64.toNat_add, UInt64.toNat_mul,
    UInt8.toNat_toUInt64, Nat.mod_eq_of_lt (a := line.toNat * b.width.toNat) (by omega),
    Nat.mod_eq_of_lt (a := line.toNat * b.width.toNat + row.toNat) (by omega), heq,
    Nat.mod_eq_of_lt (by omega)]

/-- The line at the same distance from the other end. -/
theorem IsPicture.toNat_mirror (hb : b.IsPicture) {line : UInt64}
    (hline : line.toNat < b.height.toNat) :
    (b.height - 1 - line).toNat = b.height.toNat - 1 - line.toNat := by
  have hpos := hb.height_pos
  have hone : (b.height - 1).toNat = b.height.toNat - 1 :=
    UInt64.toNat_sub_of_le _ _ (UInt64.le_iff_toNat_le.mpr hpos)
  rw [UInt64.toNat_sub_of_le _ _ (UInt64.le_iff_toNat_le.mpr (by omega)), hone]

/-- Where they are not padded, the lines of the bitmap that is read are in the other order. -/
theorem IsPicture.get_upsideDown (hb : b.IsPicture) (hpad : padded b.rowSize = b.rowSize)
    (b₀ : Bitmap) :
    ∃ b', (b₀.readBmpData (upsideDown b.toBmpData) true).result = .ok true ∧
      (b₀.readBmpData (upsideDown b.toBmpData) true).bitmap = b' ∧ b'.width = b.width ∧
      b'.height = b.height ∧ b'.bitPerPixel = b.bitPerPixel ∧
      ∀ row line, b.isAccessible row line = true →
        b'.get row line = b.get row (b.height - 1 - line) := by
  have hf := hb.isFileOf_upsideDown
  obtain ⟨data, hresult, hbitmap, hlength, hrows⟩ := hf.read hb b₀
  refine ⟨_, hresult, hbitmap, rfl, rfl, rfl, fun row line haccessible => ?_⟩
  obtain ⟨hrow, hline⟩ := isAccessible_iff.mp haccessible
  have hmirror := hb.toNat_mirror hline
  have haccessible' : b.isAccessible row (b.height - 1 - line) = true :=
    isAccessible_iff.mpr ⟨hrow, by omega⟩
  have hpixel := pixelEnd_le haccessible
  have hoffset : (coordinateToPixel { b with data := data } row line).toNat =
      line.toNat * b.rowSize + row.toNat * b.bytePerPixel.toNat :=
    hb.coordinateToPixel_eq haccessible
  have hsame : (data.drop (line.toNat * b.rowSize + row.toNat * b.bytePerPixel.toNat)).take
      b.bytePerPixel.toNat = (b.data.drop ((b.height.toNat - 1 - line.toNat) * b.rowSize +
        row.toNat * b.bytePerPixel.toNat)).take b.bytePerPixel.toNat := by
    refine List.ext_getElem? fun j => ?_
    by_cases hj : j < b.bytePerPixel.toNat
    · have hbyte := hrows line.toNat hline (row.toNat * b.bytePerPixel.toNat + j) (by omega)
      rw [rowPlace, hf.bytesPerRow hb, if_neg (by simp [hpad]),
        hb.getElem?_upsideDown hline (by omega)] at hbyte
      rw [List.getElem?_take_of_lt hj, List.getElem?_take_of_lt hj, List.getElem?_drop,
        List.getElem?_drop, Nat.add_assoc, hbyte, Nat.add_assoc]
    · rw [List.getElem?_eq_none (by rw [List.length_take]; omega),
        List.getElem?_eq_none (by rw [List.length_take]; omega)]
  have haccess : isAccessible { b with data := data } row line = true := haccessible
  rw [get, if_pos haccess, get, if_pos haccessible', hoffset,
    hb.coordinateToPixel_eq haccessible', hmirror]
  exact congrArg (fun bytes => Except.ok (UInt32.ofNat (wordOf bytes))) hsame

/-- Both orders of the rows are read as the bitmap exactly when the rows are padded or it is
the same upside down. -/
theorem readsAs_iff (hb : b.IsPicture) :
    ReadsAs b.toBmpData b ∧ ReadsAs (upsideDown b.toBmpData) b ↔
      padded b.rowSize ≠ b.rowSize ∨ b.IsSymmetric := by
  rw [and_iff_right hb.readsAs_toBmpData]
  by_cases hpad : padded b.rowSize = b.rowSize
  · rw [or_iff_right (not_not.mpr hpad)]
    constructor
    · intro hreads row line haccessible
      obtain ⟨b', -, hbitmap, -, -, -, hget⟩ := hb.get_upsideDown hpad b
      rw [← hget row line haccessible, ← hbitmap]
      exact ((hreads b).2.pixel row line haccessible).symm
    · intro hsymmetric b₀
      obtain ⟨b', hresult, hbitmap, hwidth, hheight, hdepth, hget⟩ := hb.get_upsideDown hpad b₀
      rw [hbitmap]
      refine ⟨hresult, hwidth, hheight, hdepth, fun row line haccessible => ?_⟩
      rw [hget row line haccessible, hsymmetric row line haccessible]
  · exact iff_of_true (hb.readsAs_upsideDown hpad) (.inl hpad)

/-- Two pixels of 24 bits, one over the other. -/
def column : Bitmap := ⟨[1, 2, 3, 4, 5, 6], 1, 2, 24⟩

theorem isPicture_column : column.IsPicture :=
  ⟨.inl rfl, rfl, by decide, by decide, by decide⟩

theorem readsAs_column : ReadsAs column.toBmpData column ∧
    ReadsAs (upsideDown column.toBmpData) column :=
  (readsAs_iff isPicture_column).mpr (.inl (by decide))

/-- Two different pixels of 32 bits, one over the other. -/
theorem not_readsAs_upsideDown : ¬ ∀ b : Bitmap, b.IsPicture →
    ReadsAs b.toBmpData b ∧ ReadsAs (upsideDown b.toBmpData) b := by
  intro h
  have hreads := (h ⟨[1, 2, 3, 4, 5, 6, 7, 8], 1, 2, 32⟩
    ⟨.inr rfl, rfl, by decide, by decide, by decide⟩).2 empty
  have hpixel := hreads.2.pixel 0 0 rfl
  revert hpixel
  decide +kernel

end ReadBack

end Sihd.Sys.Bitmap
