import Sihd.Util.Splitter.Definitions
import Sihd.Util.Splitter.Passes

/-!
# A splitter with a delimiter method

All that a `Splitter` can be set to: a delimiter string, a delimiter method or
both, over a string that may go on after its view and hold zeros. What is read
after the end of the string is its final zero.
-/

namespace Sihd.Util

namespace Str

/-- The string up to its first zero. -/
def cString (s : List UInt8) : List UInt8 := s.takeWhile (· ≠ 0)

/-- `strncmp(s, t, t.size()) == 0`. -/
def strncmpEqual : List UInt8 → List UInt8 → Bool
  | _, [] => true
  | s, c :: t => s.headD 0 == c && (c == 0 || strncmpEqual s.tail t)

theorem length_cString_le (s : List UInt8) : (cString s).length ≤ s.length :=
  (List.takeWhile_sublist _).length_le

end Str

/-- An escape character that is no `char` is never found, as it is with 0. -/
structure MethodSplitter extends Splitter where
  compareMethod : Option (UInt8 → Bool) := none

namespace MethodSplitter

/-- `_get_delimiter_offset`, with 0 for no delimiter. -/
def getDelimiterOffset (sp : MethodSplitter) (s : List UInt8) : Nat :=
  if sp.compareMethod.any fun method => method (s.headD 0) then 1
  else if Str.strncmpEqual s sp.delimiter then sp.delimiter.length
  else 0

/-- What the loops of the splitter see of a view on the first `size` characters
of `s`. -/
def scan (sp : MethodSplitter) (s : List UInt8) (size : Nat) : Scan where
  size := size
  emptyDelimitations := sp.emptyDelimitations
  delimiterOffset i := sp.getDelimiterOffset (s.drop i)
  enclosure i :=
    Str.stoppingEncloseIndex (Str.cString s) i (Str.cString sp.openEscapeSequences) sp.escapeChar
  lt_of_closedAt h := (Str.lt_of_closedAt h).1

def countTokens (sp : MethodSplitter) (s : List UInt8) (size : Nat) : Nat :=
  (sp.scan s size).countTokens

/-- `split_view`. -/
def splitView (sp : MethodSplitter) (s : List UInt8) (size : Nat) : List (Nat × Nat) :=
  if sp.delimiter.isEmpty ∧ sp.compareMethod.isNone then [(0, size)]
  else (sp.scan s size).tokensFrom (sp.countTokens s size) 0

def split (sp : MethodSplitter) (s : List UInt8) (size : Nat) : List (List UInt8) :=
  (sp.splitView s size).map fun token => (s.drop token.1).take token.2

/-- The index after calls of `next_token` from the start of a string. -/
def indexAfter (sp : MethodSplitter) (s : List UInt8) (calls : Nat) : Nat :=
  (sp.scan s s.length).indexAfter calls

/-- The token that a call of `next_token` returns after other calls. -/
def tokenAfter (sp : MethodSplitter) (s : List UInt8) (calls : Nat) : Nat × Nat :=
  ((sp.scan s s.length).nextToken (sp.indexAfter s calls)).1

/-- A splitter that has something to split at. -/
def HasDelimiter (sp : MethodSplitter) : Prop :=
  sp.delimiter ≠ [] ∨ sp.compareMethod ≠ none

variable {sp : MethodSplitter} {s : List UInt8} {size : Nat}

theorem splitView_of_hasDelimiter (h : sp.HasDelimiter) (s : List UInt8) (size : Nat) :
    sp.splitView s size = (sp.scan s size).tokens .start 0 := by
  rw [← Scan.tokensFrom_eq_tokens]
  refine if_neg fun hnot => ?_
  rcases h with h | h
  · exact h (List.isEmpty_iff.mp hnot.1)
  · exact h (Option.isNone_iff_eq_none.mp hnot.2)

/-- Nothing but delimiters is left after the calls, and nothing at all with
empty delimitations. -/
def ConsumedAfter (sp : MethodSplitter) (s : List UInt8) (calls : Nat) : Prop :=
  (sp.scan s s.length).Consumed (sp.indexAfter s calls)

/-- The splitter counts the calls of `next_token` that consume the string, but
for the delimiters at its end when there are no empty delimitations. The split
has the tokens of these calls; none has a delimiter outside its enclosures. -/
theorem isLeast_countTokens (sp : MethodSplitter) (s : List UInt8) (h : sp.HasDelimiter) :
    IsLeast {calls | sp.ConsumedAfter s calls} (sp.countTokens s s.length) ∧
      sp.splitView s s.length =
        (List.range (sp.countTokens s s.length)).map (sp.tokenAfter s) ∧
      ∀ token ∈ sp.splitView s s.length,
        (sp.scan s s.length).Clear token.1 (token.1 + token.2) ∧
          (sp.emptyDelimitations = false → 0 < token.2) := by
  refine ⟨(sp.scan s s.length).isLeast_calls 0, ?_, ?_⟩
  · rw [splitView_of_hasDelimiter h, ← Scan.tokensFrom_eq_tokens]
    exact Scan.tokensFrom_eq_map _ _ 0
  · rw [splitView_of_hasDelimiter h, ← Scan.tokensFrom_eq_tokens]
    intro token htoken
    have htoken' := (sp.scan s s.length).isToken_of_mem_tokensFrom 0 token htoken
    exact ⟨htoken'.clear, htoken'.pos⟩

/-- `,`. -/
def commas : MethodSplitter := { delimiter := [44] }

/-- The tokens of `a,b,`. -/
theorem isLeast_countTokens_commas :
    IsLeast {calls | commas.ConsumedAfter [97, 44, 98, 44] calls} 2 ∧
      commas.splitView [97, 44, 98, 44] 4 = [(0, 1), (2, 1)] := by
  have h := isLeast_countTokens commas [97, 44, 98, 44] (.inl (by decide))
  have hcount : commas.countTokens [97, 44, 98, 44] 4 = 2 := by decide +kernel
  have hsplit : commas.splitView [97, 44, 98, 44] 4 = [(0, 1), (2, 1)] := by decide +kernel
  change IsLeast _ (commas.countTokens [97, 44, 98, 44] 4) ∧ _ at h
  rw [hcount] at h
  exact ⟨h.1, hsplit⟩

/-- A third call is needed to come to the end of `a,b,`. -/
theorem not_isLeast_countTokens_commas :
    ¬ IsLeast {calls | 4 ≤ commas.indexAfter [97, 44, 98, 44] calls}
      (commas.countTokens [97, 44, 98, 44] 4) := by
  intro h
  have hnot : ¬ 4 ≤ commas.indexAfter [97, 44, 98, 44]
      (commas.countTokens [97, 44, 98, 44] 4) := by decide +kernel
  exact hnot h.1

end MethodSplitter

end Sihd.Util
