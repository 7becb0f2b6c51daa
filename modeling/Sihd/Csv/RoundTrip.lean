import Sihd.Csv.Records

/-!
# Rows that are written and read again

The rows come back from the reader exactly when every row is kept: the reader
ends the row at its end, since each line feed in it follows an odd number of
written quotes and all of them are even; it cuts the row at the delimiters that
were written between the fields, since these follow an even number of quotes
that no backslash escapes and the delimiters in fields an odd one; and the
quotes of each field come back.
-/

namespace Sihd.Csv

open Util Util.Str Sys

/-! ## The file -/

/-- The row as it is written, without its line feed. -/
def writtenRow (d : UInt8) (row : List (List UInt8)) : List UInt8 :=
  [d].intercalate (row.map fun field => quote :: doubleQuotes field ++ [quote])

/-- What the writer leaves in a file. -/
def writeFile (d : UInt8) (rows : List (List (List UInt8))) : List UInt8 :=
  (rows.foldl (fun w row => w.writeRow (row.map escapeStr))
    (CsvWriter.setDelimiter {} d).2).file

/-- The rows that the reader gives from a file. -/
def readFile (d : UInt8) (file : List UInt8) : List (List (List UInt8)) :=
  ((CsvReader.ofFile file).setDelimiter d).2.readAll

theorem writtenRow_eq (d : UInt8) (row : List (List UInt8)) :
    writtenRow d row = [d].intercalate (row.map escapeStr) := by
  rw [writtenRow]
  congr 1
  exact List.map_congr_left fun field _ => (escapeStr_eq field).symm

namespace CsvWriter

theorem file_foldl_write (values : List (List UInt8)) :
    (w : CsvWriter) → 0 < w.col →
      (values.foldl write w).file = w.file ++ values.flatMap (w.delimiter :: ·) ∧
        (values.foldl write w).delimiter = w.delimiter ∧
        (values.foldl write w).lineFeed = w.lineFeed := by
  induction values with
  | nil => exact fun w _ => ⟨(List.append_nil _).symm, rfl, rfl⟩
  | cons value values ih =>
    intro w hcol
    obtain ⟨hfile, hdelim, hline⟩ := ih (w.write value) (Nat.succ_pos _)
    refine ⟨hfile.trans ?_, hdelim, hline⟩
    simp [write, hcol]

theorem intercalate_eq_append (d : UInt8) (value : List UInt8) (values : List (List UInt8)) :
    [d].intercalate (value :: values) = value ++ values.flatMap (d :: ·) := by
  induction values generalizing value with
  | nil => simp
  | cons value' values ih =>
    rw [Scanner.intercalate_cons value (List.cons_ne_nil value' values), ih]
    simp

/-- A row is written with its delimiters and its line feed. -/
theorem writeRow_spec {w : CsvWriter} (hcol : w.col = 0) {values : List (List UInt8)}
    (h : values ≠ []) :
    (w.writeRow values).file = w.file ++ [w.delimiter].intercalate values ++ [w.lineFeed] ∧
      (w.writeRow values).delimiter = w.delimiter ∧
      (w.writeRow values).lineFeed = w.lineFeed ∧ (w.writeRow values).col = 0 := by
  cases values with
  | nil => exact absurd rfl h
  | cons value values =>
    obtain ⟨hfile, hdelim, hline⟩ := file_foldl_write values (w.write value) (Nat.succ_pos _)
    refine ⟨?_, hdelim, hline, rfl⟩
    rw [writeRow, List.foldl_cons, newRow, hfile, hline, intercalate_eq_append]
    simp [write, hcol]

end CsvWriter

/-- The text of a file of rows. -/
def fileText (d : UInt8) (rows : List (List (List UInt8))) : List UInt8 :=
  rows.flatMap fun row => writtenRow d row ++ [lineFeed]

theorem file_foldl_writeRow {d : UInt8} {rows : List (List (List UInt8))}
    (hrows : ∀ row ∈ rows, row ≠ []) :
    (w : CsvWriter) → w.col = 0 → w.delimiter = d → w.lineFeed = lineFeed →
      (rows.foldl (fun w row => w.writeRow (row.map escapeStr)) w).file =
        w.file ++ fileText d rows := by
  induction rows with
  | nil => exact fun w _ _ _ => (List.append_nil _).symm
  | cons row rows ih =>
    intro w hcol hd hline
    have hne : row.map escapeStr ≠ [] := by
      simpa using hrows row List.mem_cons_self
    obtain ⟨hfile, hdelim, hline', hcol'⟩ := w.writeRow_spec hcol hne
    rw [List.foldl_cons, ih (fun row' h => hrows row' (List.mem_cons_of_mem _ h)) _ hcol'
      (hdelim.trans hd) (hline'.trans hline), hfile, hd, hline, fileText, fileText,
      List.flatMap_cons, writtenRow_eq]
    simp

theorem writeFile_eq {d : UInt8} (hd : isPrint d = true) {rows : List (List (List UInt8))}
    (hrows : ∀ row ∈ rows, row ≠ []) : writeFile d rows = fileText d rows := by
  rw [writeFile, CsvWriter.setDelimiter, if_pos hd, file_foldl_writeRow hrows _ rfl rfl rfl]
  rfl

open Splitter (positions piecesFrom CutsAtChar)

/-- A record that starts with a quote. -/
theorem split_of_quote {d : UInt8} (hd : d ≠ quote) (s : List UInt8) :
    (readerSplitter d).split (quote :: s) (quote :: s).length =
      (positions (quote :: s) backslash d).pieces (0, false) (quote :: s) := by
  have hcuts : CutsAtChar (readerSplitter d) (quote :: s) backslash d :=
    ⟨⟨rfl, rfl, rfl⟩, Splitter.not_toggles_of_ne hd _ _⟩
  rw [Splitter.split_eq hcuts rfl (List.cons_ne_nil _ _), if_neg (by simpa using Ne.symm hd),
    piecesFrom, List.drop_zero]

/-! ## The rows that come back -/

/-- A row that the reader gives back. -/
structure RowKept (d : UInt8) (row : List (List UInt8)) : Prop where
  lineFeeds : ∀ x y, writtenRow d row = x ++ lineFeed :: y → Odd (x.count quote)
  closed : Even ((writtenRow d row).count quote)
  delimiters : ∀ x y, writtenRow d row = x ++ d :: y →
    (Even (unescapedQuotes x) ↔
      ∃ k, 0 < k ∧ k < row.length ∧ x = writtenRow d (row.take k))
  fields : ∀ field ∈ row, FieldKept field = true

instance (d : UInt8) (row : List (List UInt8)) : Decidable (RowKept d row) :=
  decidable_of_iff
    ((∀ i < (writtenRow d row).length, (writtenRow d row)[i]? = some lineFeed →
        Odd (((writtenRow d row).take i).count quote)) ∧
      Even ((writtenRow d row).count quote) ∧
      (∀ i < (writtenRow d row).length, (writtenRow d row)[i]? = some d →
        (Even (unescapedQuotes ((writtenRow d row).take i)) ↔
          ∃ k < row.length, 0 < k ∧ (writtenRow d row).take i = writtenRow d (row.take k))) ∧
      ∀ field ∈ row, FieldKept field = true) (by
    have hline := forall_eq_append_iff (c := lineFeed) (s := writtenRow d row)
      (P := fun x _ => Odd (x.count quote))
    have hdelim := forall_eq_append_iff (c := d) (s := writtenRow d row)
      (P := fun x _ => Even (unescapedQuotes x) ↔
        ∃ k < row.length, 0 < k ∧ x = writtenRow d (row.take k))
    rw [← hline, ← hdelim]
    constructor
    · rintro ⟨h₁, h₂, h₃, h₄⟩
      refine ⟨h₁, h₂, fun x y hxy => (h₃ x y hxy).trans ?_, h₄⟩
      exact exists_congr fun k => and_left_comm
    · rintro ⟨h₁, h₂, h₃, h₄⟩
      refine ⟨h₁, h₂, fun x y hxy => (h₃ x y hxy).trans ?_, h₄⟩
      exact exists_congr fun k => and_left_comm)

theorem exists_writtenRow_eq {row : List (List UInt8)} (d : UInt8) (h : row ≠ []) :
    ∃ s, writtenRow d row = quote :: s := by
  cases row with
  | nil => exact absurd rfl h
  | cons field row =>
    rw [writtenRow, List.map_cons, CsvWriter.intercalate_eq_append]
    exact ⟨_, rfl⟩

/-- The columns of a written row are its fields exactly when the splitter cuts
it between the fields and their quotes come back. -/
theorem columns_writtenRow_iff {d : UInt8} (hd : d ≠ quote) {row : List (List UInt8)}
    (h : row ≠ []) :
    columnsOf d (writtenRow d row) = row ↔
      (∀ x y, writtenRow d row = x ++ d :: y →
        (Even (unescapedQuotes x) ↔
          ∃ k, 0 < k ∧ k < row.length ∧ x = writtenRow d (row.take k))) ∧
        ∀ field ∈ row, FieldKept field = true := by
  obtain ⟨s, hs⟩ := exists_writtenRow_eq d h
  rw [columnsOf, hs, split_of_quote hd, ← hs]
  have hcuts := Splitter.positions_cutsAt (writtenRow d row) backslash d
  have hne : row.map escapeStr ≠ [] := by simpa using h
  have hjoin : (positions (writtenRow d row) backslash d).CutsJoin d (0, false)
      (row.map escapeStr) ↔ ∀ x y, writtenRow d row = x ++ d :: y →
        (Even (unescapedQuotes x) ↔
          ∃ k, 0 < k ∧ k < row.length ∧ x = writtenRow d (row.take k)) := by
    rw [Scanner.CutsJoin, ← writtenRow_eq]
    refine forall_congr' fun x => forall_congr' fun y => forall_congr' fun hxy => ?_
    rw [hxy, positions_cut_iff]
    simp only [List.length_map, ← List.map_take, writtenRow_eq]
  have hfields : (row.map escapeStr).map (removeEscapeChar quote) = row ↔
      ∀ field ∈ row, FieldKept field = true := by
    rw [List.map_map]
    have hid := List.map_inj_left (f := removeEscapeChar quote ∘ escapeStr) (g := id) (l := row)
    rw [List.map_id] at hid
    rw [hid]
    exact forall₂_congr fun field _ => removeEscapeChar_escapeStr_iff field
  rw [← hjoin, ← hfields, ← Scanner.pieces_intercalate_iff hcuts hne, ← writtenRow_eq]
  constructor
  · intro hmap
    have hpieces := Scanner.pieces_eq_of_map_eq hcuts
      (count_escapeStr hd) (count_removeEscapeChar hd) h
      (s := (0, false)) (by rw [← writtenRow_eq]; exact hmap)
    rw [← writtenRow_eq] at hpieces
    exact ⟨hpieces, by rw [← hpieces]; exact hmap⟩
  · rintro ⟨hpieces, hmap⟩
    rw [hpieces, hmap]

/-! ## The rows of a file -/

namespace CsvReader

open LineReader

/-- A row that starts with a quote is neither a comment nor spaces. -/
theorem joins_of_quote {comment : UInt8} (h : comment ≠ quote) (line s : List UInt8) :
    Joins comment line (quote :: s) := by
  have hfirst : (splitLine lineFeed (quote :: s)).1 = quote :: (splitLine lineFeed s).1 := by
    rw [splitLine, if_neg (by decide)]
  have hspace : isSpace quote = false := by decide
  refine .inr ?_
  rw [hfirst]
  simp [isSkipped, isAllSpaces, hspace, Ne.symm h]

theorem exists_fileText_eq_concat (d : UInt8) (row : List (List UInt8))
    (rows : List (List (List UInt8))) :
    ∃ s, fileText d (row :: rows) = s ++ [lineFeed] := by
  induction rows generalizing row with
  | nil => exact ⟨writtenRow d row, by simp [fileText]⟩
  | cons row' rows ih =>
    obtain ⟨s, hs⟩ := ih row'
    refine ⟨writtenRow d row ++ [lineFeed] ++ s, ?_⟩
    rw [fileText, List.flatMap_cons, ← fileText, hs]
    simp

/-- A record that has the columns of a row has its line feeds. -/
theorem count_lineFeed_of_columns {d : UInt8} (hd : d ≠ quote) (hd' : d ≠ lineFeed)
    {s : List UInt8} {row : List (List UInt8)}
    (h : columnsOf d (quote :: s) = row) :
    (quote :: s).count lineFeed = (writtenRow d row).count lineFeed := by
  have hne : lineFeed ≠ quote := by decide
  rw [columnsOf, split_of_quote hd] at h
  have hpieces := Scanner.sum_count_pieces (Splitter.positions_cutsAt (quote :: s) backslash d)
    (Ne.symm hd') (0, false) (quote :: s)
  rw [← hpieces, writtenRow_eq, Scanner.count_intercalate (Ne.symm hd'), ← h, List.map_map,
    List.map_map]
  congr 1
  refine List.map_congr_left fun p _ => ?_
  rw [Function.comp_apply, Function.comp_apply, count_escapeStr hne, count_removeEscapeChar hne]

/-- The first row comes back, and the rows after it are read. -/
theorem readAll_cons_of_rowKept {d comment : UInt8} (hd : d ≠ quote) {row : List (List UInt8)}
    (hrow : row ≠ []) (hkept : RowKept d row) {r : CsvReader} {y : List UInt8}
    (h : Opened d comment r)
    (hrest : r.lineReader.rest = writtenRow d row ++ lineFeed :: y)
    (hjoins : Joins r.comment [] r.lineReader.rest) :
    ∃ r', r.readAll = row :: readAll r' ∧ Opened d comment r' ∧ r'.lineReader.rest = y := by
  obtain ⟨r', hread, h', hrest'⟩ := readAll_of_cut h hrest hjoins
    (records_uncut_iff.mpr hkept.lineFeeds) (records_run_eq_false_iff.mpr hkept.closed)
  rw [(columns_writtenRow_iff hd hrow).mpr ⟨hkept.delimiters, hkept.fields⟩] at hread
  exact ⟨r', hread, h', hrest'⟩

/-- A row that comes back is kept. -/
theorem rowKept_of_readAll_eq {d comment : UInt8} (hd : d ≠ quote) (hd' : d ≠ lineFeed)
    {row : List (List UInt8)} {rows : List (List (List UInt8))} (hrow : row ≠ [])
    {r : CsvReader} (h : Opened d comment r)
    (hrest : r.lineReader.rest = fileText d (row :: rows))
    (hjoins : Joins r.comment [] r.lineReader.rest) (heq : r.readAll = row :: rows) :
    RowKept d row := by
  have hsplit : r.lineReader.rest = writtenRow d row ++ lineFeed :: fileText d rows := by
    rw [hrest, fileText, List.flatMap_cons, List.append_assoc, List.singleton_append, fileText]
  rcases records.uncut_or_cut false r.lineReader.rest with huncut | ⟨x, a, y, hxy, hx, ha⟩
  · -- the file ends in a record that is not closed
    obtain ⟨s, hs⟩ := exists_fileText_eq_concat d row rows
    have hodd : records.run false s = true := by
      simpa [records] using huncut s lineFeed [] (hrest.trans hs)
    have hrun : records.run false r.lineReader.rest = true := by
      rw [hrest, hs, Scanner.run_append, hodd]
      rfl
    obtain ⟨line, lineReader, hread, -⟩ := readNextLoop_of_uncut h.lines hjoins huncut
    rw [readAll_of_not_readNext (by rw [hread]; simpa using hrun)] at heq
    cases heq
  · cases records_cutsAt _ _ ha
    have hrun : records.run false x = false := by simpa [records] using ha
    obtain ⟨r', hread, -, -⟩ := readAll_of_cut h hxy hjoins hx hrun
    rw [hread] at heq
    obtain ⟨hcolumns, -⟩ := List.cons.inj heq
    obtain ⟨s, hs⟩ := exists_writtenRow_eq d hrow
    have hcount : x.count lineFeed = (writtenRow d row).count lineFeed := by
      cases x with
      | nil =>
        rw [hsplit, hs] at hxy
        exact absurd (List.cons.inj hxy).1 (by decide)
      | cons c x =>
        obtain rfl : c = quote := by
          rw [hsplit, hs] at hxy
          exact (List.cons.inj hxy).1.symm
        exact count_lineFeed_of_columns hd hd' hcolumns
    obtain rfl : x = writtenRow d row :=
      Scanner.eq_of_count_eq (hxy.symm.trans hsplit) hcount
    obtain ⟨hdelims, hfields⟩ := (columns_writtenRow_iff hd hrow).mp hcolumns
    exact ⟨records_uncut_iff.mp hx, records_run_eq_false_iff.mp hrun, hdelims, hfields⟩

theorem readAll_eq_iff {d comment : UInt8} (hd : d ≠ quote) (hd' : d ≠ lineFeed)
    (hcomment : comment ≠ quote) {rows : List (List (List UInt8))}
    (hrows : ∀ row ∈ rows, row ≠ []) :
    (r : CsvReader) → Opened d comment r → r.lineReader.rest = fileText d rows →
      (r.readAll = rows ↔ ∀ row ∈ rows, RowKept d row) := by
  induction rows with
  | nil =>
    intro r h hrest
    have hread := @readNextLoop_of_rest_eq_nil r.comment _ [] h.lines hrest
    rw [readAll_of_not_readNext (by rw [hread])]
    simp
  | cons row rows ih =>
    intro r h hrest
    have hrow := hrows row List.mem_cons_self
    have ih := ih fun row' hrow' => hrows row' (List.mem_cons_of_mem _ hrow')
    obtain ⟨s, hs⟩ := exists_writtenRow_eq d hrow
    have hsplit : r.lineReader.rest = writtenRow d row ++ lineFeed :: fileText d rows := by
      rw [hrest, fileText, List.flatMap_cons, List.append_assoc, List.singleton_append, fileText]
    have hjoins : Joins r.comment [] r.lineReader.rest := by
      rw [hsplit, hs]
      exact joins_of_quote (h.comment.trans_ne hcomment) [] _
    rw [List.forall_mem_cons]
    constructor
    · intro heq
      have hkept := rowKept_of_readAll_eq hd hd' hrow h hrest hjoins heq
      obtain ⟨r', hread, h', hrest'⟩ := readAll_cons_of_rowKept hd hrow hkept h hsplit hjoins
      rw [hread] at heq
      exact ⟨hkept, (ih r' h' hrest').mp (List.cons.inj heq).2⟩
    · rintro ⟨hkept, hrest'⟩
      obtain ⟨r', hread, h', hrest''⟩ := readAll_cons_of_rowKept hd hrow hkept h hsplit hjoins
      rw [hread, (ih r' h' hrest'').mpr hrest']

end CsvReader

/-- The rows that were written come back exactly when every row is kept. -/
theorem readFile_writeFile_iff {d : UInt8} {rows : List (List (List UInt8))}
    (hprint : isPrint d = true) (hd : d ≠ quote) (hrows : ∀ row ∈ rows, row ≠ []) :
    readFile d (writeFile d rows) = rows ↔ ∀ row ∈ rows, RowKept d row := by
  have hd' : d ≠ lineFeed := by
    rintro rfl
    exact absurd hprint (by decide)
  rw [readFile, writeFile_eq hprint hrows]
  rw [CsvReader.setDelimiter, if_pos hprint]
  have hcomment : (35 : UInt8) ≠ quote := by decide
  exact CsvReader.readAll_eq_iff hd hd' hcomment hrows _ ⟨rfl, rfl, rfl, rfl⟩ rfl

/-- A field with a quote and a delimiter. -/
theorem readFile_writeFile_quoted :
    readFile 44 (writeFile 44 [[[97, 34, 98], [99, 44]]]) = [[[97, 34, 98], [99, 44]]] :=
  (readFile_writeFile_iff (by decide) (by decide) (by decide)).mpr (by decide)

/-- Of two adjacent quotes the second one is written alone, and lost. -/
theorem readFile_writeFile_ne :
    readFile 44 (writeFile 44 [[[97, 34, 34, 98]]]) ≠ [[[97, 34, 34, 98]]] := by
  decide +kernel

end Sihd.Csv
