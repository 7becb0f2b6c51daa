import Sihd.Csv.Records

/-!
# The parser of files and the parser of strings

`csvFromString` splits the whole text into lines and the lines into columns,
`readCsv` joins the lines of a file. They give the same rows on a text whose
lines end alike for both: the reader counts all quotes, the splitter only those
that enclose, of which the columns of the reader know other escapes. The last
line of a file is read without its last character, so that it must end with a
line feed, or with a quote that is not kept.
-/

namespace Sihd.Csv

open Util Util.Str Sys

open Splitter (positions CutsAtChar linesFrom)

open CsvReader (firstLine Skipped)

/-! ## The lines of a text -/

/-- Each line feed in the line is enclosed. -/
def Encloses (line : List UInt8) : Prop :=
  ∀ x y, line = x ++ lineFeed :: y → Odd (enclosingQuotes x)

section Text

variable {pre line post : List UInt8}

end Text

/-! ## The texts with the same rows -/

/-- Both parsers begin a row here, and neither ends it at a line feed in it. -/
structure Row (comment : UInt8) (s : List UInt8) : Prop where
  not_comment : s.head? ≠ some comment
  not_spaces : isAllSpaces (firstLine s) = false
  lineFeeds : ∀ x y, s = x ++ lineFeed :: y → Odd (x.count quote) ∧ Odd (enclosingQuotes x)

/-- Both parsers end a row after its last character. -/
structure Closed (s : List UInt8) : Prop where
  quotes : Even (s.count quote)
  enclosingQuotes : Even (enclosingQuotes s)

/-- A comment, which `csvFromString` takes for one line and the reader skips. -/
structure Comment (comment : UInt8) (s : List UInt8) : Prop where
  head : s.head? = some comment
  encloses : Encloses s
  skipped : Skipped comment s

/-- The texts whose lines are the same for both parsers. The argument tells
whether the header is still to be removed. -/
inductive Agrees (d comment : UInt8) : Bool → List UInt8 → Prop
  | nil : Agrees d comment false []
  | lineFeed {header : Bool} {y : List UInt8} :
      Agrees d comment header y → Agrees d comment header (lineFeed :: y)
  | comment {x y : List UInt8} : Comment comment x → Even (enclosingQuotes x) →
      Agrees d comment false y → Agrees d comment false (x ++ Str.lineFeed :: y)
  | lastComment {x : List UInt8} : Comment comment x → Agrees d comment false x
  | header {x y : List UInt8} : Row comment x → Closed x →
      Agrees d comment false y → Agrees d comment true (x ++ Str.lineFeed :: y)
  | lastHeader {x : List UInt8} : Row comment x → Agrees d comment true x
  | row {x y : List UInt8} : Row comment x → Closed x → SameColumns d x →
      Agrees d comment false y → Agrees d comment false (x ++ Str.lineFeed :: y)
  | lastRow {x : List UInt8} : Row comment x → Even (x.count quote) → SameColumns d x →
      Odd (endQuotes x) → Agrees d comment false x

instance (s : List UInt8) : Decidable (Encloses s) :=
  decidable_of_iff _ (forall_eq_append_iff (P := fun x _ => Odd (enclosingQuotes x))).symm

instance (comment : UInt8) (s : List UInt8) : Decidable (Skipped comment s) :=
  decidable_of_iff (CsvReader.isSkipped comment (firstLine s) = true ∧
      ∀ i < s.length, s[i]? = some lineFeed →
        CsvReader.isSkipped comment (firstLine (s.drop (i + 1))) = true)
    ⟨fun h => ⟨h.1, forall_eq_append_iff.mpr h.2⟩,
      fun h => ⟨h.first, forall_eq_append_iff.mp h.lineFeeds⟩⟩

instance (comment : UInt8) (s : List UInt8) : Decidable (Row comment s) :=
  decidable_of_iff (s.head? ≠ some comment ∧ isAllSpaces (firstLine s) = false ∧
      ∀ i < s.length, s[i]? = some lineFeed →
        Odd ((s.take i).count quote) ∧ Odd (enclosingQuotes (s.take i)))
    ⟨fun h => ⟨h.1, h.2.1, forall_eq_append_iff.mpr h.2.2⟩,
      fun h => ⟨h.not_comment, h.not_spaces, forall_eq_append_iff.mp h.lineFeeds⟩⟩

instance (s : List UInt8) : Decidable (Closed s) :=
  decidable_of_iff (Even (s.count quote) ∧ Even (enclosingQuotes s))
    ⟨fun h => ⟨h.1, h.2⟩, fun h => ⟨h.quotes, h.enclosingQuotes⟩⟩

instance (comment : UInt8) (s : List UInt8) : Decidable (Comment comment s) :=
  decidable_of_iff (s.head? = some comment ∧ Encloses s ∧ Skipped comment s)
    ⟨fun h => ⟨h.1, h.2.1, h.2.2⟩, fun h => ⟨h.head, h.encloses, h.skipped⟩⟩

theorem Row.ne_nil {comment : UInt8} {s : List UInt8} (h : Row comment s) : s ≠ [] := by
  rintro rfl
  cases h.not_spaces

theorem Row.encloses {comment : UInt8} {s : List UInt8} (h : Row comment s) : Encloses s :=
  fun x y hs => (h.lineFeeds x y hs).2

theorem Row.uncut {comment : UInt8} {s : List UInt8} (h : Row comment s) :
    records.Uncut false s :=
  records_uncut_iff.mpr fun x y hs => (h.lineFeeds x y hs).1

theorem Comment.ne_nil {comment : UInt8} {s : List UInt8} (h : Comment comment s) : s ≠ [] := by
  rintro rfl
  cases h.head

variable {content : List UInt8} {d comment : UInt8} {line : Nat × Nat}
  {lines : List (Nat × Nat)}

theorem isEmptyOrComment_eq (pre : List UInt8) {x : List UInt8} (hx : x ≠ [])
    (post : List UInt8) :
    isEmptyOrComment (pre ++ (x ++ post)) comment (pre.length, x.length) =
      (x.head? == some comment) := by
  obtain ⟨c, x, rfl⟩ := List.exists_cons_of_ne_nil hx
  simp [isEmptyOrComment]

theorem Row.isEmptyOrComment {x : List UInt8} (h : Row comment x) (pre post : List UInt8) :
    isEmptyOrComment (pre ++ (x ++ post)) comment (pre.length, x.length) = false := by
  rw [isEmptyOrComment_eq pre h.ne_nil]
  simpa using h.not_comment

theorem Comment.isEmptyOrComment {x : List UInt8} (h : Comment comment x)
    (pre post : List UInt8) :
    isEmptyOrComment (pre ++ (x ++ post)) comment (pre.length, x.length) = true := by
  rw [isEmptyOrComment_eq pre h.ne_nil]
  simpa using h.head

namespace CsvReader

open LineReader

variable {r : CsvReader}

end CsvReader

end Sihd.Csv
