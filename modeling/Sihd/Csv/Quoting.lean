import Sihd.Csv.Definitions

/-!
# Quotes in a field

`escapeStr` is meant to double the quotes of a field, but the search goes on one
character after each quote that it doubles: of adjacent quotes it doubles the
first, the third and so on. `removeEscapeChar` makes one quote of two. A field
comes back when its quotes are alone, with up to three at either end
(`FieldKept`).
-/

namespace Sihd.Csv

open Util.Str

/-- What `escapeStr` writes for the characters of a field: the character after
a quote is written as it is. -/
def doubleQuotes : List UInt8 → List UInt8
  | [] => []
  | [c] => if c = quote then [quote, quote] else [c]
  | c :: c' :: s =>
      if c = quote then quote :: quote :: c' :: doubleQuotes s else c :: doubleQuotes (c' :: s)

theorem doubleQuotes_cons_of_ne {c : UInt8} (h : c ≠ quote) (s : List UInt8) :
    doubleQuotes (c :: s) = c :: doubleQuotes s := by
  cases s with
  | nil => rw [doubleQuotes, doubleQuotes, if_neg h]
  | cons c' s => rw [doubleQuotes, if_neg h]

theorem doubleQuotes_quote_cons (c : UInt8) (s : List UInt8) :
    doubleQuotes (quote :: c :: s) = quote :: quote :: c :: doubleQuotes s := by
  rw [doubleQuotes, if_pos rfl]

theorem doubleQuotes_append {x : List UInt8} (h : quote ∉ x) (y : List UInt8) :
    doubleQuotes (x ++ y) = x ++ doubleQuotes y := by
  induction x with
  | nil => rfl
  | cons c x ih =>
    rw [List.mem_cons, not_or] at h
    rw [List.cons_append, doubleQuotes_cons_of_ne (Ne.symm h.1), ih h.2, List.cons_append]

theorem doubleQuotes_of_not_mem {x : List UInt8} (h : quote ∉ x) : doubleQuotes x = x := by
  have happend := doubleQuotes_append h []
  rwa [List.append_nil, doubleQuotes, List.append_nil] at happend

/-! ## The search for quotes -/

theorem isPrefixOf_quote_drop (s : List UInt8) (i : Nat) :
    [quote].isPrefixOf (s.drop i) = (s[i]? == some quote) := by
  rw [← List.head?_drop]
  cases s.drop i with
  | nil => rfl
  | cons c l =>
    by_cases hc : c = quote
    · simp [List.isPrefixOf, hc]
    · simp [List.isPrefixOf, hc, Ne.symm hc]

/-- The next quote: there is none before it. -/
theorem find?_quote_eq_some {s : List UInt8} {pos i : Nat} (h : find? s [quote] pos = some i) :
    pos ≤ i ∧ s.drop pos = (s.drop pos).take (i - pos) ++ quote :: s.drop (i + 1) ∧
      quote ∉ (s.drop pos).take (i - pos) := by
  obtain ⟨hquote, hmem, hbefore⟩ := List.find?_range'_eq_some.mp h
  rw [List.mem_range'_1] at hmem
  rw [isPrefixOf_quote_drop, beq_iff_eq] at hquote
  obtain ⟨hi, hquote⟩ := List.getElem?_eq_some_iff.mp hquote
  have hpos : pos + (i - pos) = i := by omega
  refine ⟨hmem.1, ?_, fun hq => ?_⟩
  · rw [← hquote, List.getElem_cons_drop]
    conv_lhs => rw [← List.take_append_drop (i - pos) (s.drop pos), List.drop_drop, hpos]
  · obtain ⟨j, hj, hq⟩ := List.getElem_of_mem hq
    rw [List.length_take, List.length_drop] at hj
    have hnot := hbefore (pos + j) (by omega) (by omega)
    rw [isPrefixOf_quote_drop] at hnot
    rw [List.getElem_take, List.getElem_drop] at hq
    simp [List.getElem?_eq_getElem (show pos + j < s.length by omega), hq] at hnot

theorem find?_quote_eq_none {s : List UInt8} {pos : Nat} (h : find? s [quote] pos = none) :
    quote ∉ s.drop pos := by
  intro hq
  obtain ⟨j, hj, hq⟩ := List.getElem_of_mem hq
  rw [List.length_drop] at hj
  rw [List.getElem_drop] at hq
  have hnot := List.find?_range'_eq_none.mp h (pos + j) (by omega) (by omega)
  rw [isPrefixOf_quote_drop] at hnot
  simp [List.getElem?_eq_getElem (show pos + j < s.length by omega), hq] at hnot

/-- What is written after the quotes of an occurrence: the next character, and
the characters after it with their quotes doubled. -/
def afterQuote : List UInt8 → List UInt8
  | [] => []
  | c :: s => c :: doubleQuotes s

theorem doubleQuotes_quote (s : List UInt8) :
    doubleQuotes (quote :: s) = quote :: quote :: afterQuote s := by
  cases s with
  | nil => rw [doubleQuotes, if_pos rfl, afterQuote]
  | cons c s => rw [doubleQuotes_quote_cons, afterQuote]

theorem replaceLoop_quote (s : List UInt8) (last i : Nat) :
    replaceLoop s [quote] [quote, quote] last i =
      (s.drop last).take (i - last) ++ quote :: quote :: afterQuote (s.drop (i + 1)) := by
  induction hn : s.length + 1 - i using Nat.strong_induction_on generalizing last i with
  | _ n ih =>
    rw [replaceLoop, List.append_assoc]
    congr 1
    rw [List.cons_append, List.cons_append, List.nil_append]
    congr 2
    split
    · rename_i hnone
      have hnot := find?_quote_eq_none hnone
      cases hdrop : s.drop (i + 1) with
      | nil => simp [afterQuote]
      | cons c s' =>
        have hs' : s.drop (i + [quote].length + 1) = s' := by
          rw [← List.drop_drop, List.length_singleton, hdrop]
          rfl
        rw [hs'] at hnot
        rw [afterQuote, doubleQuotes_of_not_mem hnot]
    · rename_i i' hsome
      obtain ⟨hle, hsplit, hnot⟩ := find?_quote_eq_some hsome
      have hspec := find?_spec hsome
      rw [List.length_singleton] at hle hsplit hnot ⊢
      rw [ih (s.length + 1 - i') (by omega) _ _ rfl]
      have hlt : i + 1 < s.length := by omega
      rw [← List.getElem_cons_drop hlt, afterQuote, hsplit, doubleQuotes_append hnot,
        doubleQuotes_quote]
      have hsub : i' - (i + 1) = (i' - (i + 1 + 1)) + 1 := by omega
      rw [hsub, List.take_succ_cons, List.cons_append, ← hsplit]

/-- `escape_str` puts the field between quotes and doubles quotes in it. -/
theorem escapeStr_eq (view : List UInt8) :
    escapeStr view = quote :: doubleQuotes view ++ [quote] := by
  have hreplace : replace view [quote] [quote, quote] = doubleQuotes view := by
    unfold replace
    split
    · rename_i hnone
      have hnot := find?_quote_eq_none hnone
      rw [List.drop_zero] at hnot
      rw [doubleQuotes_of_not_mem hnot]
    · rename_i i hsome
      obtain ⟨-, hsplit, hnot⟩ := find?_quote_eq_some hsome
      rw [List.drop_zero, Nat.sub_zero] at hsplit hnot
      rw [replaceLoop_quote, List.drop_zero, Nat.sub_zero]
      conv_rhs => rw [hsplit, doubleQuotes_append hnot, doubleQuotes_quote]
  rw [escapeStr, hreplace, List.singleton_append]

/-! ## Removing the quotes -/

theorem removeEscapeChar_quote_cons (c : UInt8) (s : List UInt8) :
    removeEscapeChar quote (quote :: c :: s) = c :: removeEscapeChar quote s := by
  rw [removeEscapeChar, if_pos rfl]

theorem removeEscapeChar_cons_of_ne {c : UInt8} (h : c ≠ quote) (s : List UInt8) :
    removeEscapeChar quote (c :: s) = c :: removeEscapeChar quote s := by
  cases s with
  | nil => rw [removeEscapeChar, removeEscapeChar, if_neg h]
  | cons c' s => rw [removeEscapeChar, if_neg h]

/-- Only quotes are removed. -/
theorem count_removeEscapeChar {c : UInt8} (h : c ≠ quote) (s : List UInt8) :
    (removeEscapeChar quote s).count c = s.count c := by
  fun_induction removeEscapeChar quote s with
  | case1 => rfl
  | case2 => simp [Ne.symm h]
  | case3 => rfl
  | case4 c' s ih => simp [List.count_cons, ih, Ne.symm h]
  | case5 c' c'' s hc ih => rw [List.count_cons, List.count_cons, ih]

theorem count_doubleQuotes {c : UInt8} (h : c ≠ quote) (s : List UInt8) :
    (doubleQuotes s).count c = s.count c := by
  fun_induction doubleQuotes s with
  | case1 => rfl
  | case2 => simp [Ne.symm h]
  | case3 => rfl
  | case4 c' s ih => simp [List.count_cons, ih, Ne.symm h]
  | case5 c' c'' s hc ih => rw [List.count_cons, List.count_cons, ih]

/-- The end of a field with its closing quote, read from a character that is not
escaped. -/
def unquoted (s : List UInt8) : List UInt8 := removeEscapeChar quote (doubleQuotes s ++ [quote])

/-- The same, read after a quote. -/
def unquotedAfterQuote (s : List UInt8) : List UInt8 :=
  removeEscapeChar quote (quote :: doubleQuotes s ++ [quote])

theorem unquoted_nil : unquoted [] = [] := by decide

theorem unquoted_singleton : unquoted [quote] = [quote] := by decide

theorem unquoted_cons {c : UInt8} (h : c ≠ quote) (s : List UInt8) :
    unquoted (c :: s) = c :: unquoted s := by
  rw [unquoted, doubleQuotes_cons_of_ne h, List.cons_append, removeEscapeChar_cons_of_ne h,
    unquoted]

theorem unquoted_quote_cons {c : UInt8} (h : c ≠ quote) (s : List UInt8) :
    unquoted (quote :: c :: s) = quote :: c :: unquoted s := by
  rw [unquoted, doubleQuotes_quote_cons, List.cons_append, List.cons_append, List.cons_append,
    removeEscapeChar_quote_cons, removeEscapeChar_cons_of_ne h, unquoted]

theorem unquoted_quote_quote (s : List UInt8) :
    unquoted (quote :: quote :: s) = quote :: unquotedAfterQuote s := by
  rw [unquoted, doubleQuotes_quote_cons, List.cons_append, List.cons_append, List.cons_append,
    removeEscapeChar_quote_cons, unquotedAfterQuote, List.cons_append]

theorem unquotedAfterQuote_nil : unquotedAfterQuote [] = [quote] := by decide

theorem unquotedAfterQuote_singleton : unquotedAfterQuote [quote] = [quote, quote] := by decide

theorem unquotedAfterQuote_cons {c : UInt8} (h : c ≠ quote) (s : List UInt8) :
    unquotedAfterQuote (c :: s) = c :: unquoted s := by
  rw [unquotedAfterQuote, doubleQuotes_cons_of_ne h, List.cons_append, List.cons_append,
    removeEscapeChar_quote_cons, unquoted]

theorem unquotedAfterQuote_quote_cons (c : UInt8) (s : List UInt8) :
    unquotedAfterQuote (quote :: c :: s) = quote :: c :: unquoted s := by
  rw [unquotedAfterQuote, doubleQuotes_quote_cons, List.cons_append, List.cons_append,
    List.cons_append, List.cons_append, removeEscapeChar_quote_cons,
    removeEscapeChar_quote_cons, unquoted]

/-- Reading does not add characters, but for the quote that was read before. -/
theorem length_unquoted_le (s : List UInt8) :
    (unquoted s).length ≤ s.length ∧ (unquotedAfterQuote s).length ≤ s.length + 1 := by
  induction hn : s.length using Nat.strong_induction_on generalizing s with
  | _ n ih =>
    match s with
    | [] => simp [unquoted_nil, unquotedAfterQuote_nil]
    | [c] =>
        by_cases hc : c = quote
        · rw [hc, unquoted_singleton, unquotedAfterQuote_singleton, ← hn]
          simp
        · rw [unquoted_cons hc, unquotedAfterQuote_cons hc, unquoted_nil, ← hn]
          simp
    | c :: c' :: s' =>
        have hs := ih s'.length (by rw [← hn, List.length_cons, List.length_cons]; omega) s' rfl
        have hs' := ih (c' :: s').length (by rw [← hn]; simp) _ rfl
        rw [List.length_cons, List.length_cons] at hn
        by_cases hc : c = quote
        · subst hc
          rw [unquotedAfterQuote_quote_cons]
          by_cases hc' : c' = quote
          · subst hc'
            rw [unquoted_quote_quote]
            simp only [List.length_cons] at hs' ⊢
            omega
          · rw [unquoted_quote_cons hc']
            simp only [List.length_cons]
            omega
        · rw [unquoted_cons hc, unquotedAfterQuote_cons hc]
          simp only [List.length_cons] at hs' ⊢
          omega

/-! ## The fields that come back -/

/-- The quotes are alone, or the last two or three characters. -/
def KeepsQuotes : List UInt8 → Bool
  | [] => true
  | [_] => true
  | c :: c' :: s =>
      if c ≠ quote then KeepsQuotes (c' :: s)
      else if c' ≠ quote then KeepsQuotes s
      else s.isEmpty || s == [quote]

theorem unquoted_eq_iff (s : List UInt8) : unquoted s = s ↔ KeepsQuotes s = true := by
  fun_induction KeepsQuotes s with
  | case1 => simp [unquoted_nil]
  | case2 c =>
    by_cases hc : c = quote
    · simp [hc, unquoted_singleton]
    · simp [unquoted_cons hc, unquoted_nil]
  | case3 c c' s hc ih =>
    rw [unquoted_cons hc, List.cons_inj_right, ih]
  | case4 c c' s hc hc' ih =>
    obtain rfl : c = quote := by simpa using hc
    rw [unquoted_quote_cons hc', List.cons_inj_right, List.cons_inj_right, ih]
  | case5 c c' s hc hc' =>
    obtain rfl : c = quote := by simpa using hc
    obtain rfl : c' = quote := by simpa using hc'
    rw [unquoted_quote_quote, List.cons_inj_right]
    match s with
    | [] => simp [unquotedAfterQuote_nil]
    | [c] =>
        by_cases hc : c = quote
        · simp [hc, unquotedAfterQuote_singleton]
        · simp [unquotedAfterQuote_cons hc, hc]
    | c :: c' :: s =>
        refine iff_of_false ?_ (by simp)
        by_cases hc : c = quote
        · subst hc
          rw [unquotedAfterQuote_quote_cons, List.cons_inj_right]
          intro h
          -- the rest would have more quotes than were written
          have hlen := (length_unquoted_le s).1
          have := congrArg List.length (List.cons.inj h).2
          rw [List.length_cons] at this
          omega
        · rw [unquotedAfterQuote_cons hc]
          intro h
          exact hc (List.cons.inj h).1

/-- The fields that come back: not empty, with quotes that are alone and up to
three quotes at the start. -/
def FieldKept : List UInt8 → Bool
  | [] => false
  | [c] => c ≠ quote
  | c :: c' :: s => if c ≠ quote then KeepsQuotes (c' :: s) else KeepsQuotes s

theorem removeEscapeChar_escapeStr_iff (field : List UInt8) :
    removeEscapeChar quote (escapeStr field) = field ↔ FieldKept field = true := by
  have hafter : removeEscapeChar quote (escapeStr field) = unquotedAfterQuote field := by
    rw [escapeStr_eq, unquotedAfterQuote]
  rw [hafter]
  match field with
  | [] => simp [unquotedAfterQuote_nil, FieldKept]
  | [c] =>
      by_cases hc : c = quote
      · simp [hc, unquotedAfterQuote_singleton, FieldKept]
      · simp [unquotedAfterQuote_cons hc, unquoted_nil, FieldKept, hc]
  | c :: c' :: s =>
      by_cases hc : c = quote
      · subst hc
        rw [unquotedAfterQuote_quote_cons, List.cons_inj_right, List.cons_inj_right,
          unquoted_eq_iff, FieldKept, if_neg (by simp)]
      · rw [unquotedAfterQuote_cons hc, List.cons_inj_right, unquoted_eq_iff, FieldKept,
          if_pos hc]

theorem count_escapeStr {c : UInt8} (h : c ≠ quote) (field : List UInt8) :
    (escapeStr field).count c = field.count c := by
  rw [escapeStr_eq, List.count_append, List.count_cons, count_doubleQuotes h]
  simp [Ne.symm h]

end Sihd.Csv
