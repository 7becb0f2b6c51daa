import Sihd.Lib.Segmentation
import Sihd.Util.Str

/-!
# The splitter

A `Splitter` cuts a view at the delimiters that are not enclosed. The string
`s` is what `view.data()` points to, up to its end, which can be after the end
of the view: enclosures are searched in the whole string. A token is given by
its first index and its size.
-/

namespace Sihd.Util

/-- A splitter with a delimiter string and no delimiter method. -/
structure Splitter where
  escapeChar : UInt8 := Str.backslash
  emptyDelimitations : Bool := false
  delimiter : List UInt8
  openEscapeSequences : List UInt8 := []

namespace Splitter

/-- `_get_delimiter_offset`, with 0 for no delimiter. -/
def getDelimiterOffset (sp : Splitter) (s : List UInt8) (i : Nat) : Nat :=
  if sp.delimiter.isPrefixOf (s.drop i) then sp.delimiter.length else 0

/-- The first loop of `count_tokens`: the index after the delimiters and their
number. -/
def passDelimiters (sp : Splitter) (s : List UInt8) (size i count : Nat) : Nat × Nat :=
  if h : i < size ∧ 0 < sp.getDelimiterOffset s i then
    passDelimiters sp s size (i + sp.getDelimiterOffset s i) (count + 1)
  else (i, count)
  termination_by size - i

/-- The loop that `count_tokens` and `next_token` have over the characters of a
token: its end, `none` when an enclosure never ends. -/
def endOfToken (sp : Splitter) (s : List UInt8) (size i : Nat) : Option Nat :=
  if hi : i < size then
    match h : Str.stoppingEncloseIndex s i sp.openEscapeSequences sp.escapeChar with
    | .closedAt closedAt => endOfToken sp s size closedAt
    | .neverEnds => none
    | .notOpened =>
        if 0 < sp.getDelimiterOffset s i then some i else endOfToken sp s size (i + 1)
  else some i
  termination_by size - i
  decreasing_by
    · have := Str.lt_of_closedAt h
      omega
    · omega

theorem endOfToken_of_closedAt {sp : Splitter} {s : List UInt8} {size i k : Nat} (hi : i < size)
    (h : Str.stoppingEncloseIndex s i sp.openEscapeSequences sp.escapeChar = .closedAt k) :
    sp.endOfToken s size i = sp.endOfToken s size k := by
  rw [endOfToken, dif_pos hi]
  split
  · rename_i k' hk'
    cases h.symm.trans hk'
    rfl
  · rename_i hk'
    cases h.symm.trans hk'
  · rename_i hk'
    cases h.symm.trans hk'

theorem endOfToken_of_neverEnds {sp : Splitter} {s : List UInt8} {size i : Nat} (hi : i < size)
    (h : Str.stoppingEncloseIndex s i sp.openEscapeSequences sp.escapeChar = .neverEnds) :
    sp.endOfToken s size i = none := by
  rw [endOfToken, dif_pos hi]
  split
  · rename_i k' hk'
    cases h.symm.trans hk'
  · rfl
  · rename_i hk'
    cases h.symm.trans hk'

theorem endOfToken_of_notOpened {sp : Splitter} {s : List UInt8} {size i : Nat} (hi : i < size)
    (h : Str.stoppingEncloseIndex s i sp.openEscapeSequences sp.escapeChar = .notOpened) :
    sp.endOfToken s size i =
      if 0 < sp.getDelimiterOffset s i then some i else sp.endOfToken s size (i + 1) := by
  rw [endOfToken, dif_pos hi]
  split
  · rename_i k' hk'
    cases h.symm.trans hk'
  · rename_i hk'
    cases h.symm.trans hk'
  · rfl

theorem endOfToken_of_not_lt {sp : Splitter} {s : List UInt8} {size i : Nat} (hi : ¬ i < size) :
    sp.endOfToken s size i = some i := by
  rw [endOfToken, dif_neg hi]

theorem passDelimiters_eq_self {sp : Splitter} {s : List UInt8} {size i count : Nat}
    (h : ¬ (i < size ∧ 0 < sp.getDelimiterOffset s i)) :
    sp.passDelimiters s size i count = (i, count) := by
  rw [passDelimiters, dif_neg h]

theorem le_passDelimiters (sp : Splitter) (s : List UInt8) (size i count : Nat) :
    i ≤ (sp.passDelimiters s size i count).1 := by
  fun_induction passDelimiters sp s size i count with
  | case1 i count h ih => omega
  | case2 i count h => exact le_rfl

theorem le_endOfToken {sp : Splitter} {s : List UInt8} {size i : Nat} :
    ∀ {y : Nat}, sp.endOfToken s size i = some y → i ≤ y := by
  fun_induction endOfToken sp s size i with
  | case1 i hi closedAt h ih =>
    intro y hy
    have := Str.lt_of_closedAt h
    have := ih hy
    omega
  | case2 => exact fun h => by cases h
  | case3 i hi h hdelim =>
    rintro y ⟨⟩
    exact le_rfl
  | case4 i hi h hdelim ih =>
    intro y hy
    have := ih hy
    omega
  | case5 i hi =>
    rintro y ⟨⟩
    exact le_rfl

/-- A token that starts where there is no delimiter has a character. -/
theorem lt_endOfToken {sp : Splitter} {s : List UInt8} {size i y : Nat} (hi : i < size)
    (hdelim : sp.getDelimiterOffset s i = 0) (h : sp.endOfToken s size i = some y) : i < y := by
  rw [endOfToken, dif_pos hi] at h
  split at h
  · rename_i closedAt hclosed
    have := Str.lt_of_closedAt hclosed
    have := le_endOfToken h
    omega
  · cases h
  · rw [if_neg (by omega)] at h
    have := le_endOfToken h
    omega

/-- `count_tokens` goes on after the end of each token. -/
theorem lt_of_endOfToken_passDelimiters {sp : Splitter} {s : List UInt8} {size i y : Nat}
    (hi : i < size) (h : sp.endOfToken s size (sp.passDelimiters s size i 0).1 = some y) :
    i < y := by
  by_cases hdelim : 0 < sp.getDelimiterOffset s i
  · rw [passDelimiters, dif_pos ⟨hi, hdelim⟩] at h
    have := sp.le_passDelimiters s size (i + sp.getDelimiterOffset s i) (0 + 1)
    have := le_endOfToken h
    omega
  · rw [passDelimiters_eq_self (fun hd => hdelim hd.2)] at h
    exact lt_endOfToken hi (by omega) h

/-- `count_tokens`, from an index. -/
def countTokensFrom (sp : Splitter) (s : List UInt8) (size i : Nat) : Nat :=
  if hi : i < size then
    let x := (sp.passDelimiters s size i 0).1
    let delimiters := (sp.passDelimiters s size i 0).2
    -- a token for each delimiter after the first one, and one after the delimiters
    let empty := if sp.emptyDelimitations then delimiters - 1 else 0
    let token := if x < size ∨ (sp.emptyDelimitations ∧ 0 < delimiters) then 1 else 0
    empty + token +
      match h : sp.endOfToken s size x with
      | none => 0
      | some y => countTokensFrom sp s size y
  else 0
  termination_by size - i
  decreasing_by
    have := lt_of_endOfToken_passDelimiters hi h
    omega

/-- One round of `count_tokens`. -/
theorem countTokensFrom_of_lt (sp : Splitter) (s : List UInt8) {size i : Nat} (hi : i < size) :
    sp.countTokensFrom s size i =
      (if sp.emptyDelimitations then (sp.passDelimiters s size i 0).2 - 1 else 0) +
          (if (sp.passDelimiters s size i 0).1 < size ∨
            (sp.emptyDelimitations ∧ 0 < (sp.passDelimiters s size i 0).2) then 1 else 0) +
        (sp.endOfToken s size (sp.passDelimiters s size i 0).1).elim 0
          (sp.countTokensFrom s size) := by
  rw [countTokensFrom, dif_pos hi]
  dsimp only
  congr 1
  split
  · rename_i hnone
    rw [hnone, Option.elim_none]
  · rename_i y hy
    rw [hy, Option.elim_some]

def countTokens (sp : Splitter) (s : List UInt8) (size : Nat) : Nat :=
  sp.countTokensFrom s size 0

/-- The loop of `next_token` over the delimiters: the index that it ends at,
and whether there is an empty token there. -/
def skipDelimiters (sp : Splitter) (s : List UInt8) (size start x : Nat) : Nat × Bool :=
  if h : x < size ∧ 0 < sp.getDelimiterOffset s x then
    if sp.emptyDelimitations ∧ x ≠ start then (x, true)
    else skipDelimiters sp s size start (x + sp.getDelimiterOffset s x)
  else (x, false)
  termination_by size - x

/-- `next_token`: the token and the next index. -/
def nextToken (sp : Splitter) (s : List UInt8) (size i : Nat) : (Nat × Nat) × Nat :=
  let (x, isEmpty) := sp.skipDelimiters s size i i
  if isEmpty then ((x, 0), x)
  else
    let y := (sp.endOfToken s size x).getD size
    ((x, y - x), y)

/-- The loop of `split_view`. -/
def tokensFrom (sp : Splitter) (s : List UInt8) (size : Nat) : Nat → Nat → List (Nat × Nat)
  | 0, _ => []
  | tokens + 1, i =>
      let (token, i') := sp.nextToken s size i
      token :: tokensFrom sp s size tokens i'

def splitView (sp : Splitter) (s : List UInt8) (size : Nat) : List (Nat × Nat) :=
  if sp.delimiter.isEmpty then [(0, size)]
  else sp.tokensFrom s size (sp.countTokens s size) 0

def split (sp : Splitter) (s : List UInt8) (size : Nat) : List (List UInt8) :=
  (sp.splitView s size).map fun token => (s.drop token.1).take token.2

end Splitter

end Sihd.Util
