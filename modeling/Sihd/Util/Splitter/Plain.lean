import Sihd.Lib.Cut
import Sihd.Lib.Pieces
import Sihd.Util.Splitter.Lines

/-!
# Splitting without enclosures

A splitter without enclosures cuts a string at every occurrence of its
delimiter, from the left: its tokens are the pieces that are not empty. This is
what `str::split` does.
-/

namespace Sihd.Util.Splitter

/-- A splitter with a delimiter, and without enclosures or empty delimitations. -/
structure Plain (sp : Splitter) : Prop where
  delimiter : sp.delimiter ≠ []
  openEscapeSequences : sp.openEscapeSequences = []
  emptyDelimitations : sp.emptyDelimitations = false

/-- The tokens of what starts at an index. -/
def tokensAt (sp : Splitter) (s : List UInt8) (i : Nat) : List (List UInt8) :=
  (pieces sp.delimiter (s.drop i)).filter fun p => p ≠ []

section Plain

variable {sp : Splitter} {s : List UInt8} {i : Nat}

theorem Plain.stoppingEncloseIndex (h : Plain sp) :
    Str.stoppingEncloseIndex s i sp.openEscapeSequences sp.escapeChar = .notOpened := by
  rw [h.openEscapeSequences, Str.stoppingEncloseIndex]
  split
  · rfl
  · rw [List.contains_nil, if_pos rfl]

theorem Plain.offset_pos_iff (h : Plain sp) :
    0 < sp.getDelimiterOffset s i ↔ sp.delimiter <+: s.drop i := by
  have hpos := List.length_pos_of_ne_nil h.delimiter
  rw [getDelimiterOffset, ← List.isPrefixOf_iff_prefix]
  split
  · rename_i hprefix
    exact iff_of_true hpos hprefix
  · rename_i hprefix
    exact iff_of_false (lt_irrefl 0) hprefix

/-- A delimiter at an index. -/
theorem Plain.delimiter_eq (h : Plain sp) (hd : 0 < sp.getDelimiterOffset s i) :
    sp.getDelimiterOffset s i = sp.delimiter.length ∧
      s.drop i = sp.delimiter ++ s.drop (i + sp.getDelimiterOffset s i) := by
  have hprefix := h.offset_pos_iff.mp hd
  have hoffset : sp.getDelimiterOffset s i = sp.delimiter.length := by
    rw [getDelimiterOffset, if_pos (List.isPrefixOf_iff_prefix.mpr hprefix)]
  obtain ⟨t, ht⟩ := hprefix
  refine ⟨hoffset, ?_⟩
  rw [hoffset, ← List.drop_drop, ← ht, List.drop_left]

theorem tokensAt_length : sp.tokensAt s s.length = [] := by
  rw [tokensAt, List.drop_length, pieces_nil]
  rfl

theorem Plain.tokensAt_delimiter (h : Plain sp) (hd : 0 < sp.getDelimiterOffset s i) :
    sp.tokensAt s i = sp.tokensAt s (i + sp.getDelimiterOffset s i) := by
  rw [tokensAt, (h.delimiter_eq hd).2, pieces_append h.delimiter, List.filter_cons_of_neg (by simp)]
  rfl

/-- The delimiters before a token. -/
theorem Plain.passDelimiters (h : Plain sp) (hi : i ≤ s.length) (count : Nat) :
    i ≤ (sp.passDelimiters s s.length i count).1 ∧
      (sp.passDelimiters s s.length i count).1 ≤ s.length ∧
      ((sp.passDelimiters s s.length i count).1 < s.length →
        sp.getDelimiterOffset s (sp.passDelimiters s s.length i count).1 = 0) ∧
      sp.tokensAt s i = sp.tokensAt s (sp.passDelimiters s s.length i count).1 := by
  fun_induction Splitter.passDelimiters sp s s.length i count with
  | case1 i count hd ih =>
    obtain ⟨hoffset, hdrop⟩ := h.delimiter_eq hd.2
    have hlength := congrArg List.length hdrop
    rw [List.length_append, List.length_drop, List.length_drop] at hlength
    obtain ⟨hle, hx, hnot, htokens⟩ := ih (by omega)
    exact ⟨by omega, hx, hnot, (h.tokensAt_delimiter hd.2).trans htokens⟩
  | case2 i count hd =>
    refine ⟨le_rfl, hi, fun hlt => ?_, rfl⟩
    rw [not_and] at hd
    exact Nat.eq_zero_of_not_pos (hd hlt)

/-- The end of a token: what is before it is a piece. -/
theorem Plain.endOfToken (h : Plain sp) (hi : i ≤ s.length) :
    ∃ y, sp.endOfToken s s.length i = some y ∧ i ≤ y ∧ y ≤ s.length ∧
      ∃ l, pieces sp.delimiter (s.drop y) = [] :: l ∧
        pieces sp.delimiter (s.drop i) = (s.drop i).take (y - i) :: l := by
  fun_induction Splitter.endOfToken sp s s.length i with
  | case1 i hlt closedAt hclosed ih =>
    rw [h.stoppingEncloseIndex] at hclosed
    cases hclosed
  | case2 i hlt hnever =>
    rw [h.stoppingEncloseIndex] at hnever
    cases hnever
  | case3 i hlt hnot hd =>
    have hpieces := pieces_append h.delimiter (s.drop (i + sp.getDelimiterOffset s i))
    rw [← (h.delimiter_eq hd).2] at hpieces
    refine ⟨i, rfl, le_rfl, hi, _, hpieces, ?_⟩
    rw [Nat.sub_self, List.take_zero]
    exact hpieces
  | case4 i hlt hnot hd ih =>
    obtain ⟨y, hy, hle, hys, l, hnext, hpieces⟩ := ih hlt
    refine ⟨y, hy, by omega, hys, l, hnext, ?_⟩
    have hprefix : ¬ sp.delimiter <+: s.drop i := h.offset_pos_iff.not.mp hd
    have hsub : y - i = y - (i + 1) + 1 := by omega
    rw [List.drop_eq_getElem_cons hlt] at hprefix ⊢
    rw [pieces_cons hprefix, hpieces, hsub, List.take_succ_cons]
    rfl
  | case5 i hge =>
    obtain rfl : i = s.length := by omega
    exact ⟨_, rfl, le_rfl, le_rfl, [], by rw [List.drop_length, pieces_nil],
      by rw [List.drop_length, pieces_nil, List.take_nil]⟩

/-- The tokens from an index. -/
theorem Plain.tokensFrom (h : Plain sp) (hi : i ≤ s.length) :
    (sp.tokensFrom s s.length (sp.countTokensFrom s s.length i) i).map
      (fun token => (s.drop token.1).take token.2) = sp.tokensAt s i := by
  induction hn : s.length - i using Nat.strong_induction_on generalizing i with
  | _ n ih =>
    rcases Nat.lt_or_eq_of_le hi with hlt | rfl
    · obtain ⟨hix, hx, hnot, htokens⟩ := h.passDelimiters hi 0
      have hskip := skipDelimiters_eq (s := s) (i := i) h.emptyDelimitations s.length i 0
      generalize hpass : (sp.passDelimiters s s.length i 0).1 = x at hix hx hnot htokens hskip
      obtain ⟨y, hy, hxy, hys, l, hnext, hpieces⟩ := h.endOfToken hx
      rw [htokens, countTokensFrom_of_lt sp s hlt, h.emptyDelimitations, if_neg (by simp), hpass,
        hy, Option.elim_some, Nat.zero_add]
      rcases Nat.lt_or_eq_of_le hx with hxlt | rfl
      · have hlty := lt_endOfToken hxlt (hnot hxlt) hy
        have htoken : sp.nextToken s s.length i = ((x, y - x), y) := by
          rw [nextToken, hskip]
          simp [hy]
        have hne : (s.drop x).take (y - x) ≠ [] := by
          rw [ne_eq, List.take_eq_nil_iff, List.drop_eq_nil_iff]
          omega
        have htail : sp.tokensAt s x = (s.drop x).take (y - x) :: sp.tokensAt s y := by
          rw [tokensAt, hpieces, List.filter_cons_of_pos (by simpa using hne), tokensAt, hnext,
            List.filter_cons_of_neg (by simp)]
        rw [if_pos (.inl hxlt), Nat.add_comm 1, Splitter.tokensFrom, htoken, List.map_cons,
          ih (s.length - y) (by omega) hys rfl, htail]
      · obtain rfl : y = s.length := by omega
        rw [if_neg (by simp), tokensAt_length]
        have hcount : sp.countTokensFrom s s.length s.length = 0 := countTokensFrom_length
        rw [hcount]
        rfl
    · have hcount : sp.countTokensFrom s s.length s.length = 0 := countTokensFrom_length
      rw [hcount, tokensAt_length]
      rfl

/-- The tokens are the pieces that are not empty. -/
theorem Plain.split_eq (h : Plain sp) (s : List UInt8) :
    sp.split s s.length = (pieces sp.delimiter s).filter fun p => p ≠ [] := by
  have hdelimiter : sp.delimiter.isEmpty = false := by simpa using h.delimiter
  rw [Splitter.split, splitView, hdelimiter, if_neg (by simp), countTokens,
    h.tokensFrom (Nat.zero_le _)]
  rfl

end Plain

end Sihd.Util.Splitter

namespace Sihd.Util.Str

/-- `str::split`, of a view whose delimiters do not go on after its end. -/
def split (s delimiter : List UInt8) : List (List UInt8) :=
  ({ delimiter := delimiter } : Splitter).split s s.length

theorem split_eq {delimiter : List UInt8} (h : delimiter ≠ []) (s : List UInt8) :
    split s delimiter = (pieces delimiter s).filter fun p => p ≠ [] :=
  Splitter.Plain.split_eq ⟨h, rfl, rfl⟩ s

theorem mem_split_char {d : UInt8} {s w : List UInt8} (h : w ∈ split s [d]) :
    w ≠ [] ∧ d ∉ w := by
  rw [split_eq (List.cons_ne_nil _ _), List.mem_filter] at h
  exact ⟨by simpa using h.2, not_mem_of_mem_pieces h.1⟩

theorem split_intercalate {d : UInt8} {l : List (List UInt8)}
    (h : ∀ w ∈ l, w ≠ [] ∧ d ∉ w) : split ([d].intercalate l) [d] = l := by
  rw [split_eq (List.cons_ne_nil _ _)]
  cases l with
  | nil => simp
  | cons w l =>
    rw [pieces_char_intercalate (List.cons_ne_nil _ _) fun w hw => (h w hw).2,
      List.filter_eq_self]
    exact fun w hw => by simpa using (h w hw).1

/-- The delimiter parts the tokens of what is before it from those of what is after it. -/
theorem split_append_cons (d : UInt8) (s t : List UInt8) :
    split (s ++ d :: t) [d] = split s [d] ++ split t [d] := by
  simp only [split_eq (List.cons_ne_nil d []), pieces_append_cons_self, List.filter_append]

theorem split_of_not_mem {d : UInt8} {w : List UInt8} (hne : w ≠ []) (h : d ∉ w) :
    split w [d] = [w] := by
  rw [split_eq (List.cons_ne_nil d []), pieces_char_of_not_mem h]
  simpa using hne

/-- `split_pair` at a character: both are empty without a key. -/
def splitPair (s : List UInt8) (delimiter : UInt8) : List UInt8 × List UInt8 :=
  match cut delimiter s with
  | some (key, value) => if key = [] then ([], []) else (key, value)
  | none => ([], [])

theorem splitPair_append_cons {delimiter : UInt8} {key : List UInt8} (h : delimiter ∉ key)
    (hne : key ≠ []) (value : List UInt8) :
    splitPair (key ++ delimiter :: value) delimiter = (key, value) := by
  rw [splitPair, cut_append_cons h]
  exact if_neg hne

end Sihd.Util.Str
