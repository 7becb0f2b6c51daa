import Mathlib.Algebra.Ring.Parity
import Sihd.Csv.Quoting
import Sihd.Util.Splitter.Lines

/-!
# The columns of a row

The reader and `csvFromString` cut a row at the delimiters that an even number
of quotes comes before. They do not count the same quotes: those that a
backslash escapes are left out by the reader, those that are next to another
quote by `csvFromString`.
-/

namespace Sihd.Csv

open Util Util.Str

open Splitter (toggles positions piecesFrom CutsAtChar Closes LineOf)

/-! ## The quotes that enclose -/

/-- The quotes that are not escaped by a backslash. -/
def unescapedQuotes (s : List UInt8) : Nat :=
  (List.range s.length).countP fun i => s[i]? == some quote && !isEscapedChar s i backslash

theorem toggles_backslash (s : List UInt8) (i : Nat) :
    toggles s backslash i = (s[i]? == some quote && !isEscapedChar s i backslash) := by
  have hne : (backslash == quote) = false := by decide
  simp [toggles, isAnEscape, hne]

/-- Whether a quote is escaped depends on what comes before it. -/
theorem toggles_append {x : List UInt8} (y : List UInt8) {i : Nat} (h : i < x.length) :
    toggles (x ++ y) backslash i = toggles x backslash i := by
  have hget (j : Nat) (hj : j ≤ i) : (x ++ y)[j]? = x[j]? :=
    List.getElem?_append_left (by omega)
  simp only [toggles_backslash, isEscapedChar]
  rw [hget i le_rfl, hget (i - 1) (by omega), hget (i - 2) (by omega)]

/-- The reader cuts a record at a delimiter when an even number of quotes that
are not escaped comes before it. -/
theorem positions_cut_iff (x y : List UInt8) (d : UInt8) :
    (positions (x ++ d :: y) backslash d).cut
        ((positions (x ++ d :: y) backslash d).run (0, false) x) d = true ↔
      Even (unescapedQuotes x) := by
  have hcount : (List.range x.length).countP (toggles (x ++ d :: y) backslash) =
      unescapedQuotes x := by
    refine List.countP_congr fun i hi => ?_
    rw [toggles_append _ (List.mem_range.mp hi), toggles_backslash]
  have hrun := Splitter.positions_run (x ++ d :: y) backslash d 0 x
  simp only [Nat.zero_add] at hrun
  rw [hrun, hcount, Nat.even_iff]
  simp [positions]

/-- The quotes that open or close an enclosure for `csvFromString`. -/
def enclosingQuotes (s : List UInt8) : Nat := (List.range s.length).countP (toggles s quote)

/-- The splitter of a reader with a delimiter. -/
def readerSplitter (d : UInt8) : Splitter :=
  { emptyDelimitations := true, delimiter := [d], openEscapeSequences := [quote] }

/-- The columns that the reader gives for a record. -/
def columnsOf (d : UInt8) (line : List UInt8) : List (List UInt8) :=
  ((readerSplitter d).split line line.length).map (removeEscapeChar quote)

/-- Both parsers cut the row at the same delimiters. When the quote itself is
the delimiter, each quote of the row is alone, not escaped and not the first
character, and there is no cut. -/
structure SameColumns (d : UInt8) (row : List UInt8) : Prop where
  delimiters : d ≠ quote → ∀ x y, row = x ++ d :: y →
    (Even (enclosingQuotes x) ↔ Even (unescapedQuotes x))
  quotes : d = quote → row.head? ≠ some quote ∧
    ∀ i, row[i]? = some quote → toggles row quote i = true ∧ toggles row backslash i = true

instance (d : UInt8) (row : List UInt8) : Decidable (SameColumns d row) :=
  decidable_of_iff ((d ≠ quote → ∀ i < row.length, row[i]? = some d →
        (Even (enclosingQuotes (row.take i)) ↔ Even (unescapedQuotes (row.take i)))) ∧
      (d = quote → row.head? ≠ some quote ∧ ∀ i < row.length, row[i]? = some quote →
        toggles row quote i = true ∧ toggles row backslash i = true)) (by
    constructor
    · rintro ⟨hdelims, hquotes⟩
      refine ⟨fun hd => forall_eq_append_iff.mpr (hdelims hd), fun hd => ⟨(hquotes hd).1, ?_⟩⟩
      exact fun i hi => (hquotes hd).2 i (List.getElem?_eq_some_iff.mp hi).1 hi
    · intro h
      exact ⟨fun hd => forall_eq_append_iff.mp (h.delimiters hd),
        fun hd => ⟨(h.quotes hd).1, fun i _ => (h.quotes hd).2 i⟩⟩)

/-- The quotes at the end. -/
def endQuotes (s : List UInt8) : Nat := (s.reverse.takeWhile (· == quote)).length

end Sihd.Csv
