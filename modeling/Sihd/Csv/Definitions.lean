import Sihd.Sys.LineReader
import Sihd.Util.Splitter.Definitions

/-!
# CSV files

A `CsvWriter` writes rows of fields to a file and a `CsvReader` reads them
back: it joins the lines of the file while the number of quotes is odd and cuts
what it has joined into columns. `csvFromString` reads a string without a file.

Strings hold no NUL byte, the file can be opened and its writes succeed.
-/

namespace Sihd.Csv

open Util Util.Str Sys

/-- `count_unescaped_quotes`. -/
def countUnescapedQuotes (view : List UInt8) : Nat :=
  match h : findCharNotEscaped view quote quote with
  | none => 0
  | some i => countUnescapedQuotes (view.drop (i + 1)) + 1
  termination_by view.length
  decreasing_by
    have hmem := List.mem_of_find?_eq_some h
    rw [List.mem_range] at hmem
    rw [List.length_drop]
    omega

/-- `escape_str`. -/
def escapeStr (view : List UInt8) : List UInt8 :=
  [quote] ++ replace view [quote] [quote, quote] ++ [quote]

/-! ## The writer -/

structure CsvWriter where
  delimiter : UInt8 := 44
  comment : UInt8 := 35
  lineFeed : UInt8 := lineFeed
  col : Nat := 0
  row : Nat := 0
  maxCol : Nat := 0
  file : List UInt8 := []

namespace CsvWriter

def setDelimiter (w : CsvWriter) (c : UInt8) : Bool × CsvWriter :=
  if isPrint c then (true, { w with delimiter := c }) else (false, w)

def newRow (w : CsvWriter) : CsvWriter :=
  { w with file := w.file ++ [w.lineFeed], row := w.row + 1, col := 0 }

/-- `write` of one value. -/
def write (w : CsvWriter) (view : List UInt8) : CsvWriter :=
  { w with
    file := w.file ++ (if 0 < w.col then [w.delimiter] else []) ++ view
    col := w.col + 1
    maxCol := max w.maxCol (w.col + 1) }

/-- `write_row` of values. -/
def writeRow (w : CsvWriter) (values : List (List UInt8)) : CsvWriter :=
  (values.foldl write w).newRow

end CsvWriter

/-! ## The reader -/

structure CsvReader where
  comment : UInt8 := 35
  splitter : Splitter :=
    { emptyDelimitations := true, delimiter := [44], openEscapeSequences := [quote] }
  line : List UInt8 := []
  hasData : Bool := false
  lineReader : LineReader

namespace CsvReader

/-- `CsvReader(path)`, on what the file holds. -/
def ofFile (file : List UInt8) : CsvReader :=
  { lineReader := { putDelimiterInLine := true, file := file } }

def setDelimiter (r : CsvReader) (c : UInt8) : Bool × CsvReader :=
  if isPrint c then (true, { r with splitter := { r.splitter with delimiter := [c] } })
  else (false, r)

/-- A line that is skipped when no end quote is searched: a comment or spaces. -/
def isSkipped (comment : UInt8) (view : List UInt8) : Bool :=
  view.head? == some comment || isAllSpaces view

/-- The loop of `read_next`: `line` is what was joined so far. -/
def readNextLoop (comment : UInt8) (lineReader : LineReader) (line : List UInt8) :
    Bool × List UInt8 × LineReader :=
  match h : lineReader.readNext.1 with
  | none => (false, line, lineReader.readNext.2)
  | some view =>
      let searchingForEndQuote := !line.isEmpty
      if view.isEmpty || (!searchingForEndQuote && isSkipped comment view) then
        readNextLoop comment lineReader.readNext.2 line
      else
        let odd := decide (countUnescapedQuotes view % 2 = 1)
        let quotesAreEven := if searchingForEndQuote then odd else !odd
        if quotesAreEven then
          -- the last character is taken for a line feed
          (true, (line ++ view).dropLast, lineReader.readNext.2)
        else readNextLoop comment lineReader.readNext.2 (line ++ view)
  termination_by lineReader.rest.length
  decreasing_by all_goals exact LineReader.readNext_length_lt h

def readNext (r : CsvReader) : Bool × CsvReader :=
  let (ok, line, lineReader) := readNextLoop r.comment r.lineReader []
  (ok, { r with line := line, hasData := ok, lineReader := lineReader })

def columns (r : CsvReader) : List (List UInt8) :=
  if r.hasData then
    (r.splitter.split r.line r.line.length).map (removeEscapeChar quote)
  else []

theorem readNextLoop_length_lt {comment : UInt8} {lineReader : LineReader} {line : List UInt8}
    (h : (readNextLoop comment lineReader line).1 = true) :
    (readNextLoop comment lineReader line).2.2.rest.length < lineReader.rest.length := by
  fun_induction readNextLoop comment lineReader line with
  | case1 => cases h
  | case2 lineReader line view hview searching hskip ih =>
    exact (ih h).trans (LineReader.readNext_length_lt hview)
  | case3 lineReader line view hview searching hskip odd even heven =>
    exact LineReader.readNext_length_lt hview
  | case4 lineReader line view hview searching hskip odd even heven ih =>
    exact (ih h).trans (LineReader.readNext_length_lt hview)

/-- The rows that calls of `read_next` give until it returns false. -/
def readAll (r : CsvReader) : List (List (List UInt8)) :=
  if h : r.readNext.1 = true then r.readNext.2.columns :: readAll r.readNext.2 else []
  termination_by r.lineReader.rest.length
  decreasing_by exact readNextLoop_length_lt h

end CsvReader

/-! ## Strings and files of rows -/

/-- `line.empty() || line[0] == comment_char` for a line of `content`. -/
def isEmptyOrComment (content : List UInt8) (commentChar : UInt8) (line : Nat × Nat) : Bool :=
  line.2 == 0 || content[line.1]? == some commentChar

end Sihd.Csv
