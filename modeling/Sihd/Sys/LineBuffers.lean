import Sihd.Lib.Bytes
import Sihd.Lib.Cut
import Sihd.Sys.LineReader
import Sihd.Util.Array

/-!
# The buffers of the line reader

`BufferedLineReader` is a `LineReader` with its two buffers, the indexes into
them and the blocks that the reads of the file return, cut in any way. An access
outside a buffer is `none`. `readNext` looks for the delimiter in what is unread
of the read buffer, copies the line, or the part of it that is there, to the
line buffer, which grows when it must, and reads the next block.
-/

namespace Sihd.Sys

open Util

/-- What `memcpy` and `memchr` read. -/
def load (buff : List UInt8) (index size : Nat) : Option (List UInt8) :=
  if index + size ≤ buff.length then some ((buff.drop index).take size) else none

def store (buff : List UInt8) (index : Nat) (bytes : List UInt8) : Option (List UInt8) :=
  if index + bytes.length ≤ buff.length then some (overwrite buff index bytes) else none

/-- `reserve` of an array of bytes. -/
def reserve (buff : List UInt8) (size : Nat) : List UInt8 :=
  buff ++ List.replicate (IArray.newCapacity buff.length size - buff.length) 0

structure LineReaderOptions where
  readBuffSize : Nat := 4096
  lineBuffSize : Nat := 512
  delimiterInLine : Bool := false
  delimiter : Int32 := 10

structure BufferedLineReader where
  readBuffSize : Nat
  /-- Empty before it is allocated. -/
  readBuff : List UInt8
  lineBuffSize : Nat
  lineSize : Nat
  /-- Empty before it is allocated. -/
  lineBuff : List UInt8
  lastReadIndex : Nat
  readSize : Nat
  putDelimiterInLine : Bool
  delimiter : Int32
  /-- What the next reads of the file return. -/
  file : List (List UInt8)

namespace BufferedLineReader

def create (options : LineReaderOptions) : BufferedLineReader where
  readBuffSize := options.readBuffSize
  readBuff := []
  lineBuffSize := options.lineBuffSize
  lineSize := 0
  lineBuff := []
  lastReadIndex := 0
  readSize := 0
  putDelimiterInLine := options.delimiterInLine
  delimiter := options.delimiter
  file := []

/-- The byte that `memchr` looks for. -/
def delimiterByte (r : BufferedLineReader) : UInt8 := r.delimiter.toInt8.toUInt8

def allocateLine (r : BufferedLineReader) : BufferedLineReader :=
  { r with lineBuff := reserve r.lineBuff (r.lineBuffSize + 1) }

def reallocateLine (r : BufferedLineReader) (needed : Nat) : BufferedLineReader :=
  allocateLine { r with lineBuffSize := needed }

/-- The line buffer has room for `needed` bytes and a zero. -/
def growLine (r : BufferedLineReader) (needed : Nat) : BufferedLineReader :=
  if r.lineBuffSize ≤ needed then r.reallocateLine needed else r

def allocateReadBuffer (r : BufferedLineReader) : BufferedLineReader :=
  { r with readBuff := reserve r.readBuff (r.readBuffSize + 1) }

/-- A zero at the start of a buffer, if it is allocated. -/
def resetBuff (buff : List UInt8) : Option (List UInt8) :=
  if buff = [] then some [] else store buff 0 [0]

def reset (r : BufferedLineReader) : Option BufferedLineReader := do
  let readBuff ← resetBuff r.readBuff
  let lineBuff ← resetBuff r.lineBuff
  some { r with
    lastReadIndex := 0
    readSize := 0
    lineSize := 0
    readBuff := readBuff
    lineBuff := lineBuff }

/-- `_init` and the opening of a file. -/
def openFile (r : BufferedLineReader) (file : List (List UInt8)) : Option BufferedLineReader :=
  let r := if r.lineBuff = [] then r.allocateLine else r
  let r := if r.readBuff = [] then r.allocateReadBuffer else r
  ({ r with file := file } : BufferedLineReader).reset

/-- A turn of the loop of `read_next` before it reads: whether a delimiter was
found, and the number of bytes of the line buffer that are filled. -/
structure Part where
  found : Bool
  fillIdx : Nat
  reader : BufferedLineReader

def takePart (r : BufferedLineReader) (fillIdx : Nat) : Option Part :=
  if r.lastReadIndex < r.readSize then do
    let readAt ← load r.readBuff r.lastReadIndex (r.readSize - r.lastReadIndex)
    let found := readAt.idxOf? r.delimiterByte
    let copyLen := match found with
      | some i => i + r.putDelimiterInLine.toNat
      | none => r.readSize - r.lastReadIndex
    let r := r.growLine (fillIdx + copyLen)
    let bytes ← load r.readBuff r.lastReadIndex copyLen
    let lineBuff ← store r.lineBuff fillIdx bytes
    let lastReadIndex := r.lastReadIndex + (copyLen + (!r.putDelimiterInLine).toNat)
    let fillIdx := fillIdx + copyLen
    if found.isSome then
      let lineBuff ← store lineBuff fillIdx [0]
      some ⟨true, fillIdx, { r with
        lineBuff := lineBuff, lastReadIndex := lastReadIndex, lineSize := fillIdx }⟩
    else
      some ⟨false, fillIdx, { r with lineBuff := lineBuff, lastReadIndex := lastReadIndex }⟩
  else
    some ⟨false, fillIdx, r⟩

/-- A read of the file, which may write as many bytes as it asks for. -/
def fill (r : BufferedLineReader) (block : List UInt8) : Option BufferedLineReader := do
  let _ ← load r.readBuff 0 r.readBuffSize
  let readBuff ← store r.readBuff 0 block
  let readBuff ← store readBuff block.length [0]
  some { r with readBuff := readBuff, readSize := block.length, lastReadIndex := 0 }

/-- A read of no byte, after which the file may still be read. -/
def endLine (r : BufferedLineReader) (fillIdx : Nat) (file : List (List UInt8)) :
    Option (Bool × BufferedLineReader) := do
  let lineBuff ← store r.lineBuff fillIdx [0]
  some (decide (0 < fillIdx),
    { r with lineBuff := lineBuff, lineSize := fillIdx, lastReadIndex := fillIdx, file := file })

/-- The loop of `read_next`, with what the next reads of the file return. -/
def readNextLoop (file : List (List UInt8)) (r : BufferedLineReader) (fillIdx : Nat) :
    Option (Bool × BufferedLineReader) := do
  let part ← r.takePart fillIdx
  if part.found then
    some (true, { part.reader with file := file })
  else
    match file with
    | [] => do
      let r ← part.reader.fill []
      r.endLine part.fillIdx []
    | block :: file => do
      let r ← part.reader.fill block
      if r.readSize = 0 then r.endLine part.fillIdx file
      else readNextLoop file r part.fillIdx

def readNext (r : BufferedLineReader) : Option (Bool × BufferedLineReader) :=
  if r.lineBuff = [] ∨ r.readBuff = [] then some (false, r)
  else do
    let lineBuff ← store r.lineBuff 0 [0]
    readNextLoop r.file { r with lineBuff := lineBuff } 0

def getReadData (r : BufferedLineReader) : Option (List UInt8) := load r.lineBuff 0 r.lineSize

/-- What `n` calls of `read_next`, each followed by `get_read_data`, return. -/
def calls : Nat → BufferedLineReader → Option (List (Option (List UInt8)))
  | 0, _ => some []
  | n + 1, r => do
    let (ok, r) ← r.readNext
    let view ← r.getReadData
    let views ← calls n r
    some ((if ok then some view else none) :: views)

/-! ### The accesses -/

theorem load_eq {buff : List UInt8} {index size : Nat} (h : index + size ≤ buff.length) :
    load buff index size = some ((buff.drop index).take size) := if_pos h

theorem load_zero {buff : List UInt8} {size : Nat} (h : size ≤ buff.length) :
    load buff 0 size = some (buff.take size) := load_eq (by omega)

theorem store_eq {buff bytes : List UInt8} {index : Nat}
    (h : index + bytes.length ≤ buff.length) :
    store buff index bytes = some (overwrite buff index bytes) := if_pos h

theorem lt_reserve_length (buff : List UInt8) (size : Nat) :
    size < (reserve buff (size + 1)).length := by
  have hle := IArray.le_newCapacity buff.length (size + 1)
  rw [reserve, List.length_append, List.length_replicate]
  omega

theorem reserve_take {buff : List UInt8} {n : Nat} (h : n ≤ buff.length) (size : Nat) :
    (reserve buff size).take n = buff.take n := List.take_append_of_le_length h

/-! ### The invariant of the buffers -/

/-- The buffers are as large as their sizes say, with a zero behind. -/
structure Fits (r : BufferedLineReader) : Prop where
  readBuff : r.readBuffSize < r.readBuff.length
  lineBuff : r.lineBuffSize < r.lineBuff.length
  readSize : r.readSize ≤ r.readBuffSize

/-- What a step of the reader never changes. -/
structure Keeps (r r' : BufferedLineReader) : Prop where
  readBuffSize : r'.readBuffSize = r.readBuffSize
  putDelimiterInLine : r'.putDelimiterInLine = r.putDelimiterInLine
  delimiter : r'.delimiter = r.delimiter

/-- The beginning of a line is in the line buffer. -/
structure Holds (r : BufferedLineReader) (w : List UInt8) : Prop where
  length_le : w.length ≤ r.lineBuffSize
  take_eq : r.lineBuff.take w.length = w

/-- What is unread of the read buffer. -/
def unread (r : BufferedLineReader) : List UInt8 :=
  (r.readBuff.take r.readSize).drop r.lastReadIndex

/-- The text that is not read yet. -/
def rest (r : BufferedLineReader) : List UInt8 := r.unread ++ r.file.flatten

/-- The lines of a text, for the delimiter of the reader. -/
def lines (r : BufferedLineReader) (text : List UInt8) : List (List UInt8) :=
  linesOf r.delimiterByte r.putDelimiterInLine text

section Steps

variable {r r' : BufferedLineReader} {w : List UInt8}

theorem Keeps.trans {r'' : BufferedLineReader} (h : Keeps r r') (h' : Keeps r' r'') :
    Keeps r r'' where
  readBuffSize := h'.readBuffSize.trans h.readBuffSize
  putDelimiterInLine := h'.putDelimiterInLine.trans h.putDelimiterInLine
  delimiter := h'.delimiter.trans h.delimiter

theorem Keeps.delimiterByte (h : Keeps r r') : r'.delimiterByte = r.delimiterByte := by
  rw [BufferedLineReader.delimiterByte, h.delimiter, BufferedLineReader.delimiterByte]

theorem Keeps.lines (h : Keeps r r') : r'.lines = r.lines := by
  funext text
  rw [BufferedLineReader.lines, h.delimiterByte, h.putDelimiterInLine, BufferedLineReader.lines]

theorem growLine_spec (hfits : r.Fits) (hholds : r.Holds w) (needed : Nat) :
    ∃ lineBuff lineBuffSize,
      r.growLine needed = { r with lineBuffSize := lineBuffSize, lineBuff := lineBuff } ∧
      needed ≤ lineBuffSize ∧ lineBuffSize < lineBuff.length ∧
      lineBuff.take w.length = w := by
  have hlength := hholds.length_le.trans hfits.lineBuff.le
  rw [growLine]
  split
  · refine ⟨_, _, rfl, le_rfl, lt_reserve_length _ _, ?_⟩
    exact (reserve_take hlength _).trans hholds.take_eq
  · exact ⟨r.lineBuff, r.lineBuffSize, rfl, by omega, hfits.lineBuff, hholds.take_eq⟩

/-- The copy of some bytes behind the beginning of a line. -/
theorem copy_spec (hfits : r.Fits) (hholds : r.Holds w) (bytes : List UInt8) :
    ∃ grown lineBuff lineBuffSize,
      r.growLine (w.length + bytes.length) =
        { r with lineBuffSize := lineBuffSize, lineBuff := grown } ∧
      store grown w.length bytes = some lineBuff ∧
      w.length + bytes.length ≤ lineBuffSize ∧ lineBuffSize < lineBuff.length ∧
      lineBuff.take (w.length + bytes.length) = w ++ bytes := by
  obtain ⟨grown, lineBuffSize, heq, hle, hlt, htake⟩ :=
    growLine_spec hfits hholds (w.length + bytes.length)
  have hroom : w.length + bytes.length ≤ grown.length := by omega
  refine ⟨grown, _, lineBuffSize, heq, store_eq hroom, hle, ?_, ?_⟩
  · rw [overwrite_length hroom]
    exact hlt
  · rw [overwrite_take_end (by omega), htake]

theorem unread_length (hfits : r.Fits) : r.unread.length = r.readSize - r.lastReadIndex := by
  have hsize := hfits.readSize
  have hbuff := hfits.readBuff
  rw [unread, List.length_drop, List.length_take_of_le (by omega)]

theorem load_unread (hfits : r.Fits) (hlt : r.lastReadIndex < r.readSize) {n : Nat}
    (h : n ≤ r.readSize - r.lastReadIndex) :
    load r.readBuff r.lastReadIndex n = some (r.unread.take n) := by
  have hsize := hfits.readSize
  have hbuff := hfits.readBuff
  rw [load_eq (by omega), unread, List.drop_take, List.take_take, Nat.min_eq_left h]

/-- The unread text has no delimiter: all of it goes to the line buffer. -/
theorem takePart_of_not_mem (hfits : r.Fits) (hholds : r.Holds w)
    (hnot : r.delimiterByte ∉ r.unread) :
    ∃ r', r.takePart w.length = some ⟨false, (w ++ r.unread).length, r'⟩ ∧
      r'.Fits ∧ Keeps r r' ∧ r'.Holds (w ++ r.unread) := by
  have hlength := unread_length hfits
  by_cases hlt : r.lastReadIndex < r.readSize
  · obtain ⟨grown, lineBuff, lineBuffSize, hgrow, hstore, hle, hfit, htake⟩ :=
      copy_spec hfits hholds r.unread
    have hload := load_unread hfits hlt le_rfl
    rw [← hlength, List.take_length] at hload
    have hfound : r.unread.idxOf? r.delimiterByte = none := List.idxOf?_eq_none_iff.mpr hnot
    refine ⟨{ r with
        lineBuffSize := lineBuffSize
        lineBuff := lineBuff
        lastReadIndex := r.lastReadIndex +
          (r.unread.length + (!r.putDelimiterInLine).toNat) },
      ?_, ⟨hfits.readBuff, hfit, hfits.readSize⟩, ⟨rfl, rfl, rfl⟩, ?_⟩
    · rw [takePart, if_pos hlt, ← hlength, hload]
      simp only [Option.bind_eq_bind, Option.bind_some, hfound, hgrow, hload, hstore,
        List.length_append]
      rfl
    · rw [← List.length_append] at hle htake
      exact ⟨hle, htake⟩
  · have hnil : r.unread = [] := List.eq_nil_of_length_eq_zero (by omega)
    rw [hnil, List.append_nil, takePart, if_neg hlt]
    exact ⟨r, rfl, hfits, ⟨rfl, rfl, rfl⟩, hholds⟩

/-- The unread text has a delimiter: the line is complete, and what is after the
delimiter stays unread. -/
theorem takePart_of_idxOf? (hfits : r.Fits) (hholds : r.Holds w) {i : Nat}
    (hi : r.unread.idxOf? r.delimiterByte = some i) :
    ∃ fillIdx r', r.takePart w.length = some ⟨true, fillIdx, r'⟩ ∧
      r'.Fits ∧ Keeps r r' ∧ r'.unread = r.unread.drop (i + 1) ∧
      r'.getReadData = some (w ++ (r.unread.take i ++
        if r.putDelimiterInLine then [r.delimiterByte] else [])) := by
  have hlength := unread_length hfits
  obtain ⟨hsplit, -⟩ := eq_of_idxOf?_eq_some hi
  have hilt : i < r.unread.length := (List.idxOf?_eq_some_iff.mp hi).1
  have hlt : r.lastReadIndex < r.readSize := by omega
  have hall := load_unread hfits hlt le_rfl
  rw [← hlength, List.take_length] at hall
  obtain ⟨copyLen, hcopyLen⟩ : ∃ n, i + r.putDelimiterInLine.toNat = n := ⟨_, rfl⟩
  have hle : copyLen ≤ r.unread.length := by
    have hput := Bool.toNat_le r.putDelimiterInLine
    omega
  -- the bytes that are copied, with the delimiter or without it
  have hcopy : r.unread.take copyLen =
      r.unread.take i ++ if r.putDelimiterInLine then [r.delimiterByte] else [] := by
    have hi' : (r.unread.take i).length = i := List.length_take_of_le hilt.le
    rw [← hcopyLen]
    cases r.putDelimiterInLine with
    | false => simp
    | true => rw [hsplit, List.take_append, List.take_append]; simp [hi']
  have hnext : copyLen + (!r.putDelimiterInLine).toNat = i + 1 := by
    rw [← hcopyLen]
    cases r.putDelimiterInLine <;> rfl
  have hload := load_unread hfits hlt (hle.trans hlength.le)
  obtain ⟨grown, lineBuff, lineBuffSize, hgrow, hstore, hroom, hfit, htake⟩ :=
    copy_spec hfits hholds (r.unread.take copyLen)
  rw [List.length_take_of_le hle] at hgrow hroom htake
  have hzeroRoom : w.length + copyLen + [(0 : UInt8)].length ≤ lineBuff.length := by
    rw [List.length_singleton]
    omega
  refine ⟨w.length + copyLen, { r with
      lineBuffSize := lineBuffSize
      lineBuff := overwrite lineBuff (w.length + copyLen) [0]
      lastReadIndex := r.lastReadIndex + (i + 1)
      lineSize := w.length + copyLen },
    ?_, ⟨hfits.readBuff, ?_, hfits.readSize⟩, ⟨rfl, rfl, rfl⟩, ?_, ?_⟩
  · rw [takePart, if_pos hlt, ← hlength, hall]
    simp only [Option.bind_eq_bind, Option.bind_some, hi, hcopyLen, hgrow, hload, hstore,
      store_eq hzeroRoom, hnext]
    rfl
  · rw [overwrite_length hzeroRoom]
    exact hfit
  · simp only [unread, List.drop_drop]
  · have hview := overwrite_take_of_le (b := [(0 : UInt8)]) (le_refl (w.length + copyLen))
      (hroom.trans hfit.le)
    rw [htake, hcopy] at hview
    have hlength : w.length + copyLen ≤
        (overwrite lineBuff (w.length + copyLen) [0]).length := by
      rw [overwrite_length hzeroRoom]
      omega
    exact (load_zero hlength).trans (congrArg some hview)

/-- A block replaces what was read. -/
theorem fill_spec (hfits : r.Fits) (hholds : r.Holds w) {block : List UInt8}
    (h : block.length ≤ r.readBuffSize) :
    ∃ r', r.fill block = some r' ∧ r'.Fits ∧ Keeps r r' ∧ r'.Holds w ∧
      r'.unread = block ∧ r'.readSize = block.length := by
  have hbuff := hfits.readBuff
  have hstore : store r.readBuff 0 block = some (overwrite r.readBuff 0 block) :=
    store_eq (by omega)
  have hlength : (overwrite r.readBuff 0 block).length = r.readBuff.length :=
    overwrite_length (by omega)
  have hzero : store (overwrite r.readBuff 0 block) block.length [0] =
      some (overwrite (overwrite r.readBuff 0 block) block.length [0]) :=
    store_eq (by rw [List.length_singleton]; omega)
  have hload : load r.readBuff 0 r.readBuffSize = some (r.readBuff.take r.readBuffSize) :=
    load_zero hbuff.le
  refine ⟨{ r with
      readBuff := overwrite (overwrite r.readBuff 0 block) block.length [0]
      readSize := block.length
      lastReadIndex := 0 },
    ?_, ⟨?_, hfits.lineBuff, h⟩, ⟨rfl, rfl, rfl⟩, ⟨hholds.length_le, hholds.take_eq⟩, ?_, rfl⟩
  · simp only [fill, hload, hstore, hzero, Option.bind_eq_bind, Option.bind_some]
  · rw [overwrite_length (by rw [List.length_singleton]; omega), hlength]
    exact hbuff
  · have htake := overwrite_take_end (l := r.readBuff) (b := block) (i := 0) (Nat.zero_le _)
    rw [Nat.zero_add, List.take_zero, List.nil_append] at htake
    have hle : block.length ≤ (overwrite r.readBuff 0 block).length := by omega
    rw [unread, List.drop_zero]
    exact (overwrite_take_of_le le_rfl hle).trans htake

/-- The invariant of a reader between two calls. -/
structure Opened (r : BufferedLineReader) : Prop extends Fits r where
  file : ∀ block ∈ r.file, block ≠ [] ∧ block.length ≤ r.readBuffSize

/-- What a call to `read_next` leaves: the first line of the text in the line
buffer and the others still to read, or nothing to read. -/
structure Takes (r r' : BufferedLineReader) (text : List UInt8) (ok : Bool) : Prop where
  opened : r'.Opened
  keeps : Keeps r r'
  view : ∃ view, r'.getReadData = some view ∧
    r.lines text = (if ok then [view] else []) ++ r.lines r'.rest
  last : ok = false → r.lines text = []

theorem Takes.of_keeps {r'' : BufferedLineReader} {text : List UInt8} {ok : Bool}
    (h : Keeps r r') (htakes : Takes r' r'' text ok) : Takes r r'' text ok where
  opened := htakes.opened
  keeps := h.trans htakes.keeps
  view := h.lines ▸ htakes.view
  last := h.lines ▸ htakes.last

theorem endLine_spec (hfits : r.Fits) (hholds : r.Holds w) (hnot : r.delimiterByte ∉ w)
    (hsize : r.readSize = 0) :
    ∃ ok r', r.endLine w.length [] = some (ok, r') ∧ Takes r r' w ok := by
  have hbuff := hfits.lineBuff
  have hle := hholds.length_le
  have hroom : w.length + [(0 : UInt8)].length ≤ r.lineBuff.length := by
    rw [List.length_singleton]
    omega
  have hlines := linesOf_of_not_mem hnot r.putDelimiterInLine
  refine ⟨decide (0 < w.length), { r with
      lineBuff := overwrite r.lineBuff w.length [0]
      lineSize := w.length
      lastReadIndex := w.length
      file := [] },
    ?_, ⟨⟨hfits.readBuff, ?_, hfits.readSize⟩, ?_⟩, ⟨rfl, rfl, rfl⟩, ⟨w, ?_, ?_⟩, ?_⟩
  · simp only [endLine, store_eq hroom, Option.bind_eq_bind, Option.bind_some]
  · rw [overwrite_length hroom]
    exact hbuff
  · simp
  · have hlength : w.length ≤ (overwrite r.lineBuff w.length [0]).length := by
      rw [overwrite_length hroom]
      omega
    have hview := overwrite_take_of_le (b := [(0 : UInt8)]) (le_refl w.length)
      (hle.trans hbuff.le)
    rw [hholds.take_eq] at hview
    exact (load_zero hlength).trans (congrArg some hview)
  · have hrest : rest { r with
        lineBuff := overwrite r.lineBuff w.length [0]
        lineSize := w.length
        lastReadIndex := w.length
        file := [] } = [] := by
      simp [rest, unread, hsize]
    rw [hrest, lines, lines, linesOf_nil, hlines, List.append_nil]
    cases w <;> simp
  · rw [lines, hlines]
    cases w <;> simp

theorem readNextLoop_of_idxOf? {file : List (List UInt8)}
    (hfile : ∀ block ∈ file, block ≠ [] ∧ block.length ≤ r.readBuffSize) (hfits : r.Fits)
    (hholds : r.Holds w) (hnot : r.delimiterByte ∉ w) {i : Nat}
    (hi : r.unread.idxOf? r.delimiterByte = some i) :
    ∃ r', readNextLoop file r w.length = some (true, r') ∧
      Takes r r' (w ++ (r.unread ++ file.flatten)) true := by
  obtain ⟨fillIdx, r', hpart, hfits', hkeeps, hunread, hview⟩ :=
    takePart_of_idxOf? hfits hholds hi
  obtain ⟨hsplit, hbefore⟩ := eq_of_idxOf?_eq_some hi
  refine ⟨{ r' with file := file }, ?_,
    ⟨⟨hfits'.readBuff, hfits'.lineBuff, hfits'.readSize⟩,
      fun block hblock => hkeeps.readBuffSize ▸ hfile block hblock⟩,
    ⟨hkeeps.readBuffSize, hkeeps.putDelimiterInLine, hkeeps.delimiter⟩, ⟨_, hview, ?_⟩,
    fun h => by cases h⟩
  · unfold readNextLoop
    rw [hpart]
    rfl
  · have htext : w ++ (r.unread ++ file.flatten) =
        (w ++ r.unread.take i) ++ r.delimiterByte ::
          (r.unread.drop (i + 1) ++ file.flatten) := by
      conv_lhs => rw [hsplit]
      simp
    have hline : r.delimiterByte ∉ w ++ r.unread.take i := by simp [hnot, hbefore]
    have hrest : rest { r' with file := file } = r.unread.drop (i + 1) ++ file.flatten := by
      rw [← hunread]
      rfl
    rw [hrest, lines, lines, htext, linesOf_append_cons hline, if_pos rfl,
      List.append_assoc, List.singleton_append]

/-- A turn of the loop without a delimiter, up to the next turn. -/
theorem takePart_fill (hfits : r.Fits) (hholds : r.Holds w) (hnot : r.delimiterByte ∉ w)
    (hunread : r.delimiterByte ∉ r.unread) {block : List UInt8}
    (hblock : block.length ≤ r.readBuffSize) :
    ∃ r₁ r', r.takePart w.length = some ⟨false, (w ++ r.unread).length, r₁⟩ ∧
      r₁.fill block = some r' ∧ r'.Fits ∧ Keeps r r' ∧ r'.Holds (w ++ r.unread) ∧
      r'.delimiterByte ∉ w ++ r.unread ∧ r'.unread = block ∧ r'.readSize = block.length := by
  obtain ⟨r₁, hpart, hfits₁, hkeeps₁, hholds₁⟩ := takePart_of_not_mem hfits hholds hunread
  obtain ⟨r', hfill, hfits', hkeeps', hholds', hnext⟩ :=
    fill_spec hfits₁ hholds₁ (hkeeps₁.readBuffSize ▸ hblock)
  have hkeeps := hkeeps₁.trans hkeeps'
  refine ⟨r₁, r', hpart, hfill, hfits', hkeeps, hholds', ?_, hnext⟩
  rw [hkeeps.delimiterByte, List.mem_append, not_or]
  exact ⟨hnot, hunread⟩

/-- The loop of `read_next`, for the beginning `w` of a line in the line buffer. -/
theorem readNextLoop_spec {file : List (List UInt8)}
    (hfile : ∀ block ∈ file, block ≠ [] ∧ block.length ≤ r.readBuffSize) (hfits : r.Fits)
    (hholds : r.Holds w) (hnot : r.delimiterByte ∉ w) :
    ∃ ok r', readNextLoop file r w.length = some (ok, r') ∧
      Takes r r' (w ++ (r.unread ++ file.flatten)) ok := by
  induction file generalizing r w with
  | nil =>
    cases hi : r.unread.idxOf? r.delimiterByte with
    | some i => exact ⟨true, readNextLoop_of_idxOf? hfile hfits hholds hnot hi⟩
    | none =>
      have hunread : r.delimiterByte ∉ r.unread := List.idxOf?_eq_none_iff.mp hi
      obtain ⟨r₁, r₂, hpart, hfill, hfits₂, hkeeps, hholds₂, hnot₂, -, hsize⟩ :=
        @takePart_fill r w hfits hholds hnot hunread [] (Nat.zero_le _)
      obtain ⟨ok, r', hend, htakes⟩ := endLine_spec hfits₂ hholds₂ hnot₂ hsize
      refine ⟨ok, r', ?_, ?_⟩
      · unfold readNextLoop
        simp only [hpart, hfill, Option.bind_eq_bind, Option.bind_some, Bool.false_eq_true,
          if_false]
        exact hend
      · rw [List.flatten_nil, List.append_nil]
        exact htakes.of_keeps hkeeps
  | cons block file ih =>
    cases hi : r.unread.idxOf? r.delimiterByte with
    | some i => exact ⟨true, readNextLoop_of_idxOf? hfile hfits hholds hnot hi⟩
    | none =>
      have hunread : r.delimiterByte ∉ r.unread := List.idxOf?_eq_none_iff.mp hi
      rw [List.forall_mem_cons] at hfile
      obtain ⟨r₁, r₂, hpart, hfill, hfits₂, hkeeps, hholds₂, hnot₂, hnext, hsize⟩ :=
        takePart_fill hfits hholds hnot hunread hfile.1.2
      have hne : r₂.readSize ≠ 0 := by
        rw [hsize]
        exact (List.length_pos_of_ne_nil hfile.1.1).ne'
      obtain ⟨ok, r', hloop, htakes⟩ :=
        ih (hkeeps.readBuffSize ▸ hfile.2) hfits₂ hholds₂ hnot₂
      refine ⟨ok, r', ?_, ?_⟩
      · unfold readNextLoop
        simp only [hpart, hfill, Option.bind_eq_bind, Option.bind_some, Bool.false_eq_true,
          if_false, if_neg hne]
        exact hloop
      · rw [hnext, List.append_assoc] at htakes
        rw [List.flatten_cons]
        exact htakes.of_keeps hkeeps

/-- `read_next` takes the first line of the text that is left. -/
theorem readNext_spec (h : r.Opened) :
    ∃ ok r', r.readNext = some (ok, r') ∧ Takes r r' r.rest ok := by
  have hlineBuff := h.lineBuff
  have hreadBuff := h.readBuff
  have hnull : ¬ (r.lineBuff = [] ∨ r.readBuff = []) := by
    rintro (hnil | hnil)
    · rw [hnil, List.length_nil] at hlineBuff
      omega
    · rw [hnil, List.length_nil] at hreadBuff
      omega
  have hroom : 0 + [(0 : UInt8)].length ≤ r.lineBuff.length := by
    rw [List.length_singleton]
    omega
  have hfits : Fits { r with lineBuff := overwrite r.lineBuff 0 [0] } := by
    refine ⟨h.readBuff, ?_, h.readSize⟩
    rw [overwrite_length hroom]
    exact hlineBuff
  obtain ⟨ok, r', hloop, htakes⟩ :=
    @readNextLoop_spec { r with lineBuff := overwrite r.lineBuff 0 [0] } [] r.file h.file hfits
      ⟨Nat.zero_le _, rfl⟩ List.not_mem_nil
  rw [List.nil_append] at htakes
  have hkeeps : Keeps r { r with lineBuff := overwrite r.lineBuff 0 [0] } := ⟨rfl, rfl, rfl⟩
  refine ⟨ok, r', ?_, htakes.of_keeps hkeeps⟩
  rw [readNext, if_neg hnull, store_eq hroom]
  exact hloop

/-- The calls return the lines of the text, then nothing for ever. -/
theorem calls_eq (h : r.Opened) (n : Nat) :
    calls n r = some ((List.range n).map fun i => (r.lines r.rest)[i]?) := by
  induction n generalizing r with
  | zero => rfl
  | succ n ih =>
    obtain ⟨ok, r', hnext, htakes⟩ := readNext_spec h
    obtain ⟨view, hview, hlines⟩ := htakes.view
    have ih := ih htakes.opened
    rw [htakes.keeps.lines] at ih
    rw [List.range_succ_eq_map, List.map_cons, List.map_map]
    simp only [calls, hnext, hview, ih, Option.bind_eq_bind, Option.bind_some,
      Option.some.injEq, List.cons.injEq]
    cases ok with
    | true =>
      rw [hlines]
      exact ⟨rfl, rfl⟩
    | false =>
      have hnil := htakes.last rfl
      rw [hnil, if_neg (by simp), List.nil_append] at hlines
      rw [hnil, ← hlines]
      exact ⟨rfl, rfl⟩

/-- A reader whose buffers are not allocated yet, or are of their sizes. -/
structure Sized (r : BufferedLineReader) : Prop where
  readBuff : r.readBuff = [] ∨ r.readBuffSize < r.readBuff.length
  lineBuff : r.lineBuff = [] ∨ r.lineBuffSize < r.lineBuff.length

end Steps

/-- A reader with its buffers and one without return the same lines. -/
theorem readNext_agrees {r : BufferedLineReader} {s : LineReader} (h : r.Opened)
    (hlines : r.lines r.rest = s.lines) :
    ∃ ok r' view, r.readNext = some (ok, r') ∧ r'.getReadData = some view ∧
      s.readNext.1 = (if ok then some view else none) ∧ r'.Opened ∧
      r'.lines r'.rest = s.readNext.2.lines := by
  obtain ⟨ok, r', hnext, htakes⟩ := readNext_spec h
  obtain ⟨view, hview, hfirst⟩ := htakes.view
  obtain ⟨hline, hnone⟩ := s.readNext_lines
  refine ⟨ok, r', view, hnext, hview, ?_⟩
  rw [htakes.keeps.lines]
  cases ok with
  | true =>
    cases hs : s.readNext.1 with
    | none =>
      have hnil := hnone hs
      rw [← hlines, hfirst] at hnil
      cases hnil
    | some line =>
      rw [hlines, hline, hs] at hfirst
      obtain ⟨rfl, hrest⟩ := List.cons_eq_cons.mp hfirst
      exact ⟨rfl, htakes.opened, hrest.symm⟩
  | false =>
    have hnil := htakes.last rfl
    rw [hnil] at hfirst hlines
    cases hs : s.readNext.1 with
    | none =>
      rw [hs, Option.toList_none, List.nil_append, ← hlines] at hline
      exact ⟨rfl, htakes.opened, hfirst.symm.trans hline⟩
    | some line =>
      rw [← hlines, hs] at hline
      cases hline

end BufferedLineReader

end Sihd.Sys
