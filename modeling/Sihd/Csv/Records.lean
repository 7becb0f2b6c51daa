import Mathlib.Data.List.TakeWhile
import Sihd.Csv.Columns
import Sihd.Lib.Segmentation

/-!
# The records of a CSV file

`CsvReader.readNext` joins lines up to the first line feed that an even number
of quotes comes before. Every quote counts: of two adjacent quotes none is
taken for an escape. A file that ends without a line feed loses its last
character.
-/

namespace Sihd.Csv

open Util Util.Str Sys

/-! ## The quotes of a line -/

/-- The first quote is not escaped. -/
theorem findCharNotEscaped_quote (s : List UInt8) :
    findCharNotEscaped s quote quote = s.idxOf? quote := by
  cases h : s.idxOf? quote with
  | none =>
    rw [List.idxOf?_eq_none_iff] at h
    refine List.find?_range_eq_none.mpr fun i _ => ?_
    have hi : s[i]? ≠ some quote := fun hq => h (List.mem_of_getElem? hq)
    simp [hi]
  | some i =>
    obtain ⟨hi, hquote, hbefore⟩ := List.idxOf?_eq_some_iff.mp h
    have hnot (j : Nat) (hj : j < i) : s[j]? ≠ some quote := fun hq =>
      hbefore j hj (List.getElem?_eq_some_iff.mp hq).2
    have hescaped : isEscapedChar s i quote = false := by
      unfold isEscapedChar
      by_cases hpos : 0 < i
      · simp [hnot (i - 1) (by omega)]
      · simp [hpos]
    refine List.find?_range_eq_some.mpr ⟨?_, List.mem_range.mpr hi, fun j hj => ?_⟩
    · simp [List.getElem?_eq_getElem hi, hquote, hescaped]
    · simp [hnot j hj]

/-- No quote is escaped, since the one before it was counted and dropped. -/
theorem countUnescapedQuotes_eq (view : List UInt8) :
    countUnescapedQuotes view = view.count quote := by
  fun_induction countUnescapedQuotes view with
  | case1 view h =>
    rw [findCharNotEscaped_quote, List.idxOf?_eq_none_iff] at h
    exact (List.count_eq_zero.mpr h).symm
  | case2 view i h ih =>
    rw [findCharNotEscaped_quote] at h
    obtain ⟨hi, hquote, hbefore⟩ := List.idxOf?_eq_some_iff.mp h
    have htake : (view.take i).count quote = 0 := by
      refine List.count_eq_zero.mpr fun hmem => ?_
      obtain ⟨j, hj, hq⟩ := List.getElem_of_mem hmem
      rw [List.length_take] at hj
      exact hbefore j (by omega) (by rwa [List.getElem_take] at hq)
    have hsplit : view = view.take i ++ quote :: view.drop (i + 1) := by
      rw [← hquote, List.getElem_cons_drop, List.take_append_drop]
    conv_rhs => rw [hsplit, List.count_append, htake, List.count_cons_self]
    rw [ih, Nat.zero_add]

/-! ## The scanner of the records -/

/-- The state tells that an odd number of quotes was met. -/
def records : Scanner Bool UInt8 where
  step odd c := xor odd (c == quote)
  cut odd c := c == lineFeed && !odd

theorem records_cutsAt : records.CutsAt lineFeed := by
  intro odd c h
  simp only [records, Bool.and_eq_true, beq_iff_eq] at h
  exact h.1

theorem records_run (odd : Bool) (s : List UInt8) :
    records.run odd s = xor odd (decide (s.count quote % 2 = 1)) := by
  induction s generalizing odd with
  | nil => simp
  | cons c s ih =>
    rw [Scanner.run_cons, ih, List.count_cons]
    by_cases hc : c = quote
    · have hflip : decide ((s.count quote + 1) % 2 = 1) = !decide (s.count quote % 2 = 1) := by
        rw [← decide_not, decide_eq_decide]
        omega
      simp [records, hc, hflip]
    · have hquote : (c == quote) = false := by simpa using hc
      simp [records, hquote]

theorem records_uncut_iff {s : List UInt8} :
    records.Uncut false s ↔ ∀ x y, s = x ++ lineFeed :: y → Odd (x.count quote) := by
  rw [records_cutsAt.uncut_iff]
  refine forall_congr' fun x => forall_congr' fun y => forall_congr' fun _ => ?_
  rw [records_run, Nat.odd_iff]
  simp [records]

theorem records_run_eq_false_iff {s : List UInt8} :
    records.run false s = false ↔ Even (s.count quote) := by
  rw [records_run, Nat.even_iff]
  simp

/-! ## Reading a record -/

namespace CsvReader

open LineReader

theorem splitLine_append_lineFeed {x : List UInt8} (h : lineFeed ∉ x) (y : List UInt8) :
    splitLine lineFeed (x ++ lineFeed :: y) = (x ++ [lineFeed], y) := by
  rw [splitLine_of_not_mem h, splitLine, if_pos rfl]

/-- A line reader that gives lines with their line feeds. -/
structure ReadsLines (lineReader : LineReader) : Prop where
  delimiter : lineReader.delimiter = lineFeed
  putDelimiterInLine : lineReader.putDelimiterInLine = true

variable {comment : UInt8} {lineReader : LineReader} {line : List UInt8}

theorem ReadsLines.readNext (h : ReadsLines lineReader) : ReadsLines lineReader.readNext.2 := by
  obtain ⟨-, -, hdelim, hput⟩ := readNext_eq h.putDelimiterInLine
  exact ⟨hdelim.trans h.delimiter, hput⟩

/-- The line that comes next is joined to the record: an end quote is searched,
or the line is not one that is skipped. -/
def Joins (comment : UInt8) (line text : List UInt8) : Prop :=
  line ≠ [] ∨ isSkipped comment (splitLine lineFeed text).1 = false

/-- One round of the loop, on a line that is joined. -/
theorem readNextLoop_joins (h : ReadsLines lineReader) (hrest : lineReader.rest ≠ [])
    (hjoins : Joins comment line lineReader.rest) :
    readNextLoop comment lineReader line =
      if records.run (!line.isEmpty) (splitLine lineFeed lineReader.rest).1 = false then
        (true, (line ++ (splitLine lineFeed lineReader.rest).1).dropLast, lineReader.readNext.2)
      else
        readNextLoop comment lineReader.readNext.2
          (line ++ (splitLine lineFeed lineReader.rest).1) := by
  obtain ⟨hline, -, -, -⟩ := readNext_eq h.putDelimiterInLine
  rw [if_neg hrest, h.delimiter] at hline
  have hne : (splitLine lineFeed lineReader.rest).1 ≠ [] := splitLine_ne_nil hrest
  rw [readNextLoop]
  split
  · rename_i hnone
    rw [hline] at hnone
    cases hnone
  · rename_i view hview
    cases hline.symm.trans hview
    rw [if_neg]
    · rw [countUnescapedQuotes_eq, records_run]
      cases line with
      | nil => simp
      | cons c line => simp
    · rcases hjoins with hline' | hskip
      · simp [hne, hline']
      · simp [hne, hskip]

/-- A record that ends at a line feed. -/
theorem readNextLoop_of_cut {x y : List UInt8} (h : ReadsLines lineReader)
    (hrest : lineReader.rest = x ++ lineFeed :: y) (hjoins : Joins comment line lineReader.rest)
    (huncut : records.Uncut (!line.isEmpty) x)
    (hcut : records.run (!line.isEmpty) x = false) :
    ∃ lineReader', readNextLoop comment lineReader line = (true, line ++ x, lineReader') ∧
      ReadsLines lineReader' ∧ lineReader'.rest = y := by
  induction hn : x.length using Nat.strong_induction_on generalizing x line lineReader with
  | _ n ih =>
    have hne : lineReader.rest ≠ [] := by simp [hrest]
    obtain ⟨-, hnext, -, -⟩ := readNext_eq h.putDelimiterInLine
    rw [h.delimiter] at hnext
    rw [readNextLoop_joins h hne hjoins]
    by_cases hmem : lineFeed ∈ x
    · -- a line feed that is enclosed
      obtain ⟨u, v, rfl, hu⟩ := List.eq_append_cons_of_mem hmem
      rw [List.append_assoc, List.cons_append] at hrest
      have hsplit := splitLine_append_lineFeed hu (v ++ lineFeed :: y)
      rw [← hrest] at hsplit
      rw [hsplit] at hnext ⊢
      have hodd : records.run (!line.isEmpty) u = true := by
        simpa [records] using huncut u lineFeed v rfl
      have hline : records.run (!line.isEmpty) (u ++ [lineFeed]) = true := by
        rw [Scanner.run_append, hodd]
        rfl
      rw [if_neg (by rw [hline]; simp)]
      have hempty : (!(line ++ (u ++ [lineFeed])).isEmpty) = true := by simp
      have hne' : line ++ (u ++ [lineFeed]) ≠ [] := by simp
      have hlt : v.length < n := by
        rw [← hn, List.length_append, List.length_cons]
        omega
      rw [Scanner.uncut_append, hodd, Scanner.uncut_cons] at huncut
      rw [Scanner.run_append, hodd, Scanner.run_cons] at hcut
      obtain ⟨lineReader', hread, hlines, hrest'⟩ := ih v.length hlt h.readNext hnext
        (.inl hne') (by rw [hempty]; exact huncut.2.2) (by rw [hempty]; exact hcut) rfl
      refine ⟨lineReader', ?_, hlines, hrest'⟩
      rw [hread]
      simp
    · have hsplit := splitLine_append_lineFeed hmem y
      rw [← hrest] at hsplit
      rw [hsplit] at hnext ⊢
      rw [if_pos (by rw [Scanner.run_append, hcut]; rfl)]
      exact ⟨_, by rw [← List.append_assoc, List.dropLast_concat], h.readNext, hnext⟩

theorem readNextLoop_of_rest_eq_nil (h : ReadsLines lineReader) (hrest : lineReader.rest = []) :
    readNextLoop comment lineReader line = (false, line, lineReader.readNext.2) := by
  obtain ⟨hline, -, -, -⟩ := readNext_eq h.putDelimiterInLine
  rw [if_pos hrest] at hline
  rw [readNextLoop]
  split
  · rfl
  · rename_i view hview
    rw [hline] at hview
    cases hview

/-- A text that holds no end of a record: it is a record, without its last
character, when the quotes are even at its end. -/
theorem readNextLoop_of_uncut (h : ReadsLines lineReader)
    (hjoins : Joins comment line lineReader.rest)
    (huncut : records.Uncut (!line.isEmpty) lineReader.rest) :
    ∃ line' lineReader', readNextLoop comment lineReader line =
        (!records.run (!line.isEmpty) lineReader.rest, line', lineReader') ∧
      (records.run (!line.isEmpty) lineReader.rest = false →
        line' = (line ++ lineReader.rest).dropLast ∧ ReadsLines lineReader' ∧
          lineReader'.rest = []) := by
  induction hn : lineReader.rest.length using Nat.strong_induction_on
    generalizing line lineReader with
  | _ n ih =>
    by_cases hrest : lineReader.rest = []
    · -- the end of the file, in an enclosure
      have hline : (!line.isEmpty) = true := by
        rcases hjoins with hline | hskip
        · simpa using hline
        · rw [hrest] at hskip
          simp [isSkipped, isAllSpaces, splitLine] at hskip
      rw [readNextLoop_of_rest_eq_nil h hrest, hrest, hline]
      exact ⟨_, _, rfl, fun hrun => by cases hrun⟩
    obtain ⟨-, hnext, -, -⟩ := readNext_eq h.putDelimiterInLine
    rw [h.delimiter] at hnext
    have hsplit := splitLine_append lineFeed lineReader.rest
    have hlt : lineReader.readNext.2.rest.length < n := by
      have hpos : 0 < (splitLine lineFeed lineReader.rest).1.length :=
        List.length_pos_of_ne_nil (splitLine_ne_nil hrest)
      have hlen := congrArg List.length hsplit
      rw [List.length_append] at hlen
      rw [hnext]
      omega
    rw [readNextLoop_joins h hrest hjoins]
    split
    · -- the last line ends the record
      rename_i hrun
      have hnil : (splitLine lineFeed lineReader.rest).2 = [] := by
        by_cases hmem : lineFeed ∈ lineReader.rest
        · obtain ⟨u, v, huv, hu⟩ := List.eq_append_cons_of_mem hmem
          have hodd : records.run (!line.isEmpty) u = true := by
            simpa [records] using huncut u lineFeed v huv
          rw [huv, splitLine_append_lineFeed hu, Scanner.run_append, hodd] at hrun
          exact absurd hrun (by decide)
        · rw [← List.append_nil lineReader.rest, splitLine_of_not_mem hmem]
          rfl
      rw [hnil, List.append_nil] at hsplit
      rw [hsplit] at hrun ⊢
      rw [hrun]
      exact ⟨_, _, rfl, fun _ => ⟨rfl, h.readNext, hnext.trans hnil⟩⟩
    · rename_i hrun
      rw [Bool.not_eq_false] at hrun
      have hne : line ++ (splitLine lineFeed lineReader.rest).1 ≠ [] := by
        simp [splitLine_ne_nil hrest]
      have hempty : (!(line ++ (splitLine lineFeed lineReader.rest).1).isEmpty) = true := by
        simp [splitLine_ne_nil hrest]
      have hrun' : records.run (!line.isEmpty) lineReader.rest =
          records.run true (splitLine lineFeed lineReader.rest).2 := by
        rw [← hrun, ← Scanner.run_append, hsplit]
      have huncut' := huncut
      rw [← hsplit, Scanner.uncut_append, hrun] at huncut'
      obtain ⟨line', lineReader', hread, hline'⟩ := ih _ hlt h.readNext (.inl hne)
        (by rw [hempty, hnext]; exact huncut'.2) rfl
      rw [hempty, hnext, ← hrun'] at hread hline'
      refine ⟨line', lineReader', hread, fun heven => ?_⟩
      obtain ⟨hline', hlines, hrest'⟩ := hline' heven
      exact ⟨by rw [hline', List.append_assoc, hsplit], hlines, hrest'⟩

/-! ## The rows of a file -/

/-- A reader that was opened on a file, with its delimiter. -/
structure Opened (d comment : UInt8) (r : CsvReader) : Prop where
  splitter : r.splitter = readerSplitter d
  comment : r.comment = comment
  lines : ReadsLines r.lineReader

variable {d : UInt8} {r : CsvReader}

theorem readAll_of_readNext (h : Opened d comment r)
    (hread : readNextLoop r.comment r.lineReader [] = (true, line, lineReader)) :
    r.readAll = columnsOf d line ::
      readAll { r with line := line, hasData := true, lineReader := lineReader } := by
  have hnext : r.readNext =
      (true, { r with line := line, hasData := true, lineReader := lineReader }) := by
    rw [readNext, hread]
  rw [readAll, dif_pos (by rw [hnext]), hnext]
  simp [columns, columnsOf, h.splitter]

theorem readAll_of_not_readNext
    (hread : (readNextLoop r.comment r.lineReader []).1 = false) : r.readAll = [] := by
  rw [readAll, dif_neg]
  rw [readNext, Bool.not_eq_true]
  exact hread

/-- A record that ends at a line feed is read, and what comes after it. -/
theorem readAll_of_cut (h : Opened d comment r) {x y : List UInt8}
    (hrest : r.lineReader.rest = x ++ lineFeed :: y)
    (hjoins : Joins r.comment [] r.lineReader.rest) (huncut : records.Uncut false x)
    (hcut : records.run false x = false) :
    ∃ r', r.readAll = columnsOf d x :: readAll r' ∧ Opened d comment r' ∧
      r'.lineReader.rest = y := by
  obtain ⟨lineReader, hread, hlines, hrest'⟩ :=
    readNextLoop_of_cut h.lines hrest hjoins huncut hcut
  rw [List.nil_append] at hread
  exact ⟨_, readAll_of_readNext h hread, ⟨h.splitter, h.comment, hlines⟩, hrest'⟩

/-! ## Lines that are skipped -/

/-- The line of a text that is read first, without its line feed. -/
def firstLine (s : List UInt8) : List UInt8 := s.takeWhile (· ≠ lineFeed)

/-- The reader skips every line of the text. -/
structure Skipped (comment : UInt8) (s : List UInt8) : Prop where
  first : CsvReader.isSkipped comment (firstLine s) = true
  lineFeeds : ∀ x y, s = x ++ lineFeed :: y → CsvReader.isSkipped comment (firstLine y) = true

end CsvReader

end Sihd.Csv
