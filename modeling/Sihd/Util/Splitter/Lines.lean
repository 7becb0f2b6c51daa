import Mathlib.Algebra.Group.Nat.Even
import Sihd.Util.Splitter.Pieces

/-!
# The lines of a text

Without `set_empty_delimitations` the tokens of a splitter are the pieces that
are not empty, each with its place in the text. A token is then split as a view
into the text, with the characters after it: it has the same tokens as when it
is alone, since its enclosures end in it.
-/

namespace Sihd.Util.Splitter

open Str

variable {sp : Splitter} {s : List UInt8} {escape d : UInt8} {i : Nat}

/-! ## Tokens without empty delimitations -/

/-- The places of pieces that have one character between them. -/
def places : Nat → List (List UInt8) → List (Nat × Nat)
  | _, [] => []
  | i, p :: ps => (i, p.length) :: places (i + p.length + 1) ps

/-- The places from an index, without the empty ones. -/
def linesFrom (s : List UInt8) (escape d : UInt8) (i : Nat) : List (Nat × Nat) :=
  (places i (piecesFrom s escape d i)).filter fun line => line.2 ≠ 0

theorem places_replicate_append (n : Nat) (ps : List (List UInt8)) :
    (i : Nat) → (places i (List.replicate n [] ++ ps)).filter (fun line => line.2 ≠ 0) =
      (places (i + n) ps).filter fun line => line.2 ≠ 0 := by
  induction n with
  | zero => exact fun _ => rfl
  | succ n ih =>
    intro i
    have hi : i + 1 + n = i + (n + 1) := by omega
    rw [List.replicate_succ, List.cons_append, places, List.filter_cons_of_neg (by simp),
      List.length_nil, Nat.add_zero, ih, hi]

theorem linesFrom_length : linesFrom s escape d s.length = [] := by
  rw [linesFrom, piecesFrom_length]
  rfl

/-- A delimiter is passed. -/
theorem linesFrom_delimiter (h : CutsAtChar sp s escape d) (hd : s[i]? = some d) :
    linesFrom s escape d i = linesFrom s escape d (i + 1) := by
  rw [linesFrom, piecesFrom_delimiter h hd, places, List.filter_cons_of_neg (by simp)]
  rfl

theorem linesFrom_passDelimiters (h : CutsAtChar sp s escape d) (hi : i ≤ s.length) :
    linesFrom s escape d i = linesFrom s escape d (sp.passDelimiters s s.length i 0).1 := by
  obtain ⟨hix, -, -, -, hpieces⟩ := passDelimiters_spec h hi 0
  have hx : i + ((sp.passDelimiters s s.length i 0).1 - i) =
      (sp.passDelimiters s s.length i 0).1 := by omega
  rw [linesFrom, hpieces, places_replicate_append, hx]
  rfl

/-- The line that starts where there is no delimiter. -/
theorem linesFrom_of_endsAt {y : Nat} (h : CutsAtChar sp s escape d) (hi : i ≤ s.length)
    (hend : EndsAt s escape d i y) (hiy : i < y) :
    linesFrom s escape d i = (i, y - i) :: linesFrom s escape d y := by
  have hpieces := hend.piecesFrom_eq h
  obtain ⟨hle, b, hgoes, hy⟩ := hend
  have hlen : (segment s i y).length = y - i := by
    rw [segment, List.length_take, List.length_drop]
    omega
  have hnext : i + (y - i) + 1 = y + 1 := by omega
  have hpos : y - i ≠ 0 := by omega
  rw [linesFrom, hpieces, places, List.filter_cons_of_pos (by simp [hlen, hpos]), hlen, hnext]
  congr 1
  split
  · rename_i hlt
    rw [linesFrom_delimiter h (hy hlt).1]
    rfl
  · obtain rfl : y = s.length := by omega
    rw [linesFrom_length]
    rfl

theorem skipDelimiters_eq (hempty : sp.emptyDelimitations = false) (size start count : Nat) :
    sp.skipDelimiters s size start i = ((sp.passDelimiters s size i count).1, false) := by
  fun_induction passDelimiters sp s size i count with
  | case1 i count h ih =>
    rw [skipDelimiters, dif_pos h, if_neg (by simp [hempty]), ih]
  | case2 i count h => rw [skipDelimiters, dif_neg h]

/-- The tokens from an index that is not enclosed are the lines from there. -/
theorem tokensFrom_eq (h : CutsAtChar sp s escape d) (hempty : sp.emptyDelimitations = false)
    (hi : i ≤ s.length) :
    sp.tokensFrom s s.length (sp.countTokensFrom s s.length i) i = linesFrom s escape d i := by
  induction hn : s.length - i using Nat.strong_induction_on generalizing i with
  | _ n ih =>
    rcases Nat.lt_or_eq_of_le hi with hlt | rfl
    · rw [linesFrom_passDelimiters h hi]
      obtain ⟨hix, hx, -, hne, -⟩ := passDelimiters_spec h hi 0
      generalize hpass : (sp.passDelimiters s s.length i 0).1 = x at hix hx hne ⊢
      rcases Nat.lt_or_eq_of_le hx with hxlt | rfl
      · have hend := endsAt_endOfToken h hx
        have hskip : sp.skipDelimiters s s.length i i = (x, false) := by
          rw [skipDelimiters_eq hempty s.length i 0, hpass]
        have htoken : sp.nextToken s s.length i =
            ((x, (sp.endOfToken s s.length x).getD s.length - x),
              (sp.endOfToken s s.length x).getD s.length) := by
          rw [nextToken, hskip]
          rfl
        have hoffset : sp.getDelimiterOffset s x = 0 := by
          have := h.offset_pos_iff.not.mpr hne
          omega
        rw [countTokensFrom_of_lt sp s hlt, hempty, if_neg (by simp), hpass, if_pos (.inl hxlt),
          Nat.zero_add, Nat.add_comm 1, tokensFrom, htoken]
        cases hy : sp.endOfToken s s.length x with
        | none =>
          rw [hy, Option.getD_none] at hend
          rw [linesFrom_of_endsAt h hx hend hxlt, linesFrom_length]
          rfl
        | some y =>
          rw [hy, Option.getD_some] at hend
          have hxy := lt_endOfToken hxlt hoffset hy
          rw [linesFrom_of_endsAt h hx hend hxy, ← ih (s.length - y) (by omega) hend.le rfl]
          rfl
      · rw [countTokensFrom_of_lt sp s hlt, hempty, if_neg (by simp), hpass, if_neg (by simp),
          endOfToken_of_not_lt (lt_irrefl _), Option.elim_some, countTokensFrom_length,
          linesFrom_length]
        rfl
    · rw [countTokensFrom_length, linesFrom_length]
      rfl

theorem splitView_eq (h : CutsAtChar sp s escape d) (hempty : sp.emptyDelimitations = false) :
    sp.splitView s s.length = linesFrom s escape d 0 := by
  rw [splitView, h.delimiter, if_neg (by simp), countTokens,
    tokensFrom_eq h hempty (Nat.zero_le _)]

/-! ## The quotes of a line -/

/-- The quotes that open or close an enclosure do not depend on the text around
the line, when the quote is its own escape. -/
theorem toggles_window {pre view post : List UInt8} (hpre : pre.getLast? ≠ some quote)
    (hpost : post.head? ≠ some quote) {j : Nat} (hj : j < view.length) :
    toggles (pre ++ (view ++ post)) quote (pre.length + j) = toggles view quote j := by
  have hget (k : Nat) (hk : k < view.length) :
      (pre ++ (view ++ post))[pre.length + k]? = view[k]? := by
    rw [List.getElem?_append_right (Nat.le_add_right _ _), Nat.add_sub_cancel_left,
      List.getElem?_append_left hk]
  have hlast : 0 < pre.length → (pre ++ (view ++ post))[pre.length - 1]? ≠ some quote := by
    intro hpos
    rwa [List.getElem?_append_left (by omega), ← List.getLast?_eq_getElem?]
  have hnext : isAnEscape (pre ++ (view ++ post)) (pre.length + j) quote quote =
      isAnEscape view j quote quote := by
    unfold isAnEscape
    by_cases hj' : j + 1 < view.length
    · rw [Nat.add_assoc, hget (j + 1) hj']
    · have hend : j + 1 = view.length := by omega
      have hhead : (pre ++ (view ++ post))[pre.length + j + 1]? = post.head? := by
        rw [Nat.add_assoc, hend, List.getElem?_append_right (Nat.le_add_right _ _),
          Nat.add_sub_cancel_left, List.getElem?_append_right le_rfl, Nat.sub_self,
          List.head?_eq_getElem?]
      rw [hhead, hend, List.getElem?_eq_none le_rfl]
      simpa using hpost
  have hescaped : isEscapedChar (pre ++ (view ++ post)) (pre.length + j) quote =
      isEscapedChar view j quote := by
    unfold isEscapedChar
    rcases j with _ | _ | j
    · by_cases hpos : 0 < pre.length
      · simp [hlast hpos]
      · simp [Nat.eq_zero_of_not_pos hpos]
    · have hone : pre.length + (0 + 1) - 1 = pre.length + 0 := by omega
      have htwo : pre.length + (0 + 1) - 2 = pre.length - 1 := by omega
      rw [hone, htwo, hget 0 (by omega)]
      by_cases hpos : 0 < pre.length
      · simp [hlast hpos]
      · simp [Nat.eq_zero_of_not_pos hpos]
    · have hone : pre.length + (j + 1 + 1) - 1 = pre.length + (j + 1) := by omega
      have htwo : pre.length + (j + 1 + 1) - 2 = pre.length + j := by omega
      have hpos : 0 < pre.length + (j + 1 + 1) := by omega
      have hpos' : 1 < pre.length + (j + 1 + 1) := by omega
      rw [hone, htwo, hget (j + 1) (by omega), hget j (by omega)]
      simp [hpos, hpos']
  rw [toggles, toggles, hget j hj, hnext, hescaped]

/-- The enclosing quotes of a line from an index. -/
def quotesFrom (view : List UInt8) (i : Nat) : Nat :=
  (List.range' i (view.length - i)).countP (toggles view quote)

theorem quotesFrom_split {view : List UInt8} {j : Nat} (hij : i ≤ j) (hj : j ≤ view.length) :
    quotesFrom view i =
      (List.range' i (j - i)).countP (toggles view quote) + quotesFrom view j := by
  have hlen : view.length - i = (j - i) + (view.length - j) := by omega
  have hstart : i + (j - i) = j := by omega
  rw [quotesFrom, hlen, ← List.range'_append_1, hstart, List.countP_append]
  rfl

/-- The line is not in an enclosure at an index: all of them end in the line. -/
structure Closes (view : List UInt8) (i : Nat) : Prop where
  le : i ≤ view.length
  even : Even (quotesFrom view i)

theorem closes_length (view : List UInt8) : Closes view view.length :=
  ⟨le_rfl, by simp [quotesFrom]⟩

theorem Closes.succ {view : List UInt8} (h : Closes view i) (hi : i < view.length)
    (htoggles : toggles view quote i = false) : Closes view (i + 1) := by
  have hsplit := quotesFrom_split (Nat.le_succ i) hi
  rw [Nat.succ_sub (Nat.le_refl i), Nat.sub_self, List.range'_one, List.countP_singleton,
    htoggles] at hsplit
  exact ⟨hi, by simpa [hsplit] using h.even⟩

theorem quotesFrom_of_toggles {view : List UInt8} (hi : i < view.length)
    (htoggles : toggles view quote i = true) : quotesFrom view i = 1 + quotesFrom view (i + 1) := by
  have hsplit := quotesFrom_split (Nat.le_succ i) hi
  rw [Nat.succ_sub (Nat.le_refl i), Nat.sub_self, List.range'_one, List.countP_singleton,
    htoggles] at hsplit
  simpa using hsplit

/-- In a line that closes its enclosures the search for the end of an enclosure
stays in the line. -/
theorem Closes.stoppingEncloseIndex {view post : List UInt8} (hpost : post.head? ≠ some quote)
    (h : Closes view i) (hi : i < view.length) :
    (stoppingEncloseIndex (view ++ post) i [quote] quote = .notOpened ∧
        stoppingEncloseIndex view i [quote] quote = .notOpened ∧
        toggles view quote i = false) ∨
      ∃ k, stoppingEncloseIndex (view ++ post) i [quote] quote = .closedAt k ∧
        stoppingEncloseIndex view i [quote] quote = .closedAt k ∧ i < k ∧ Closes view k := by
  have htext {j : Nat} (hj : j < view.length) :
      toggles (view ++ post) quote j = toggles view quote j := by
    simpa using @toggles_window [] view post (by simp) hpost j hj
  cases htoggles : toggles view quote i with
  | false =>
    refine .inl ⟨stoppingEncloseIndex_of_not_toggles ?_,
      stoppingEncloseIndex_of_not_toggles htoggles, rfl⟩
    rw [htext hi, htoggles]
  | true =>
    refine .inr ?_
    have heven := h.even
    rw [quotesFrom_of_toggles hi htoggles] at heven
    rw [stoppingEncloseIndex_of_toggles htoggles,
      stoppingEncloseIndex_of_toggles ((htext hi).trans htoggles)]
    cases hfind : (List.range' (i + 1) (view.length - (i + 1))).find? (toggles view quote) with
    | none =>
      have hzero : quotesFrom view (i + 1) = 0 := by
        rw [quotesFrom, List.countP_eq_zero]
        exact List.find?_eq_none.mp hfind
      rw [hzero] at heven
      exact absurd heven (by decide)
    | some j =>
      obtain ⟨hj, hmem, hbefore⟩ := List.find?_range'_eq_some.mp hfind
      rw [List.mem_range'_1] at hmem
      have hlt : j < view.length := by omega
      have hfind' : (List.range' (i + 1) ((view ++ post).length - (i + 1))).find?
          (toggles (view ++ post) quote) = some j := by
        refine List.find?_range'_eq_some.mpr ⟨(htext hlt).trans hj, ?_, fun k hk hkj => ?_⟩
        · rw [List.mem_range'_1, List.length_append]
          omega
        · rw [htext (by omega)]
          exact hbefore k hk hkj
      rw [hfind']
      refine ⟨j + 1, rfl, rfl, by omega, hlt, ?_⟩
      have hnone : (List.range' (i + 1) (j - (i + 1))).countP (toggles view quote) = 0 := by
        rw [List.countP_eq_zero]
        intro k hk
        rw [List.mem_range'_1] at hk
        simpa using hbefore k (by omega) (by omega)
      rw [quotesFrom_split (i := i + 1) (j := j) (by omega) hlt.le, hnone,
        quotesFrom_of_toggles hlt hj, Nat.even_iff] at heven
      rw [Nat.even_iff]
      omega

/-! ## A line in its text -/

section Text

variable {view post : List UInt8}

theorem getDelimiterOffset_append (h : sp.delimiter = [d]) (hi : i < view.length) :
    sp.getDelimiterOffset (view ++ post) i = sp.getDelimiterOffset view i := by
  rw [getDelimiterOffset, getDelimiterOffset, h, List.drop_append_of_le_length hi.le,
    ← List.getElem_cons_drop hi, List.cons_append]
  rfl

/-- The end of a token, in a line that a quote does not follow. -/
theorem EnclosesQuotes.endOfToken (h : EnclosesQuotes sp quote d)
    (hpost : post.head? ≠ some quote) (hi : Closes view i) :
    sp.endOfToken (view ++ post) view.length i = sp.endOfToken view view.length i ∧
      ∀ y, sp.endOfToken view view.length i = some y → Closes view y := by
  induction hn : view.length - i using Nat.strong_induction_on generalizing i with
  | _ n ih =>
    by_cases hlt : i < view.length
    · have hstop := hi.stoppingEncloseIndex hpost hlt
      have hsp (text : List UInt8) :
          stoppingEncloseIndex text i sp.openEscapeSequences sp.escapeChar =
            stoppingEncloseIndex text i [quote] quote := by
        rw [h.openEscapeSequences, h.escapeChar]
      rw [← hsp, ← hsp] at hstop
      rcases hstop with ⟨hnot, hnot', htoggles⟩ | ⟨k, hclosed, hclosed', hik, hk⟩
      · rw [endOfToken_of_notOpened hlt hnot, endOfToken_of_notOpened hlt hnot',
          getDelimiterOffset_append h.delimiter hlt]
        split
        · refine ⟨rfl, ?_⟩
          rintro y ⟨⟩
          exact hi
        · exact ih (view.length - (i + 1)) (by omega) (hi.succ hlt htoggles) rfl
      · rw [endOfToken_of_closedAt hlt hclosed, endOfToken_of_closedAt hlt hclosed']
        exact ih (view.length - k) (by omega) hk rfl
    · rw [endOfToken_of_not_lt hlt, endOfToken_of_not_lt hlt]
      refine ⟨rfl, ?_⟩
      rintro y ⟨⟩
      exact hi

/-- The line is followed by a character that is not a quote, and its delimiters
open or close no enclosure. -/
structure LineOf (sp : Splitter) (view post : List UInt8) (d : UInt8) : Prop where
  cuts : CutsAtChar sp view quote d
  post : post.head? ≠ some quote

/-- A delimiter is passed. -/
theorem LineOf.closes_delimiter (h : LineOf sp view post d) (hi : Closes view i)
    (hlt : i < view.length) (hdelim : 0 < sp.getDelimiterOffset view i) :
    Closes view (i + sp.getDelimiterOffset view i) := by
  have hd := h.cuts.offset_pos_iff.mp hdelim
  rw [offset_eq_one h.cuts hd]
  exact hi.succ hlt (h.cuts.not_toggles i hd)

theorem LineOf.passDelimiters (h : LineOf sp view post d) (hi : Closes view i) (count : Nat) :
    sp.passDelimiters (view ++ post) view.length i count =
        sp.passDelimiters view view.length i count ∧
      Closes view (sp.passDelimiters view view.length i count).1 := by
  fun_induction Splitter.passDelimiters sp view view.length i count with
  | case1 i count hdelim ih =>
    have hoffset := @getDelimiterOffset_append sp d _ _ post h.cuts.delimiter hdelim.1
    obtain ⟨heq, hcloses⟩ := ih (h.closes_delimiter hi hdelim.1 hdelim.2)
    rw [Splitter.passDelimiters, dif_pos (by rw [hoffset]; exact hdelim), hoffset]
    exact ⟨heq, hcloses⟩
  | case2 i count hdelim =>
    refine ⟨passDelimiters_eq_self ?_, hi⟩
    rintro ⟨hlt, hpos⟩
    rw [getDelimiterOffset_append h.cuts.delimiter hlt] at hpos
    exact hdelim ⟨hlt, hpos⟩

theorem LineOf.skipDelimiters (h : LineOf sp view post d) (hi : Closes view i) (start : Nat) :
    sp.skipDelimiters (view ++ post) view.length start i =
        sp.skipDelimiters view view.length start i ∧
      Closes view (sp.skipDelimiters view view.length start i).1 := by
  fun_induction Splitter.skipDelimiters sp view view.length start i with
  | case1 i hdelim hempty =>
    have hoffset := @getDelimiterOffset_append sp d _ _ post h.cuts.delimiter hdelim.1
    rw [Splitter.skipDelimiters, dif_pos (by rw [hoffset]; exact hdelim), if_pos hempty]
    exact ⟨rfl, hi⟩
  | case2 i hdelim hempty ih =>
    have hoffset := @getDelimiterOffset_append sp d _ _ post h.cuts.delimiter hdelim.1
    obtain ⟨heq, hcloses⟩ := ih (h.closes_delimiter hi hdelim.1 hdelim.2)
    rw [Splitter.skipDelimiters, dif_pos (by rw [hoffset]; exact hdelim), if_neg hempty, hoffset]
    exact ⟨heq, hcloses⟩
  | case3 i hdelim =>
    rw [Splitter.skipDelimiters, dif_neg]
    · exact ⟨rfl, hi⟩
    rintro ⟨hlt, hpos⟩
    rw [getDelimiterOffset_append h.cuts.delimiter hlt] at hpos
    exact hdelim ⟨hlt, hpos⟩

theorem LineOf.countTokensFrom (h : LineOf sp view post d) (hi : Closes view i) :
    sp.countTokensFrom (view ++ post) view.length i =
      sp.countTokensFrom view view.length i := by
  induction hn : view.length - i using Nat.strong_induction_on generalizing i with
  | _ n ih =>
    by_cases hlt : i < view.length
    · obtain ⟨hpass, hx⟩ := h.passDelimiters hi 0
      obtain ⟨hend, hclose⟩ := h.cuts.endOfToken h.post hx
      rw [countTokensFrom_of_lt sp _ hlt, countTokensFrom_of_lt sp _ hlt, hpass, hend]
      congr 1
      cases hy : sp.endOfToken view view.length (sp.passDelimiters view view.length i 0).1 with
      | none => rfl
      | some y =>
        have hiy := lt_of_endOfToken_passDelimiters hlt hy
        exact ih (view.length - y) (by omega) (hclose y hy) rfl
    · rw [Splitter.countTokensFrom, dif_neg hlt, Splitter.countTokensFrom, dif_neg hlt]

/-- The next token is in the line. -/
theorem LineOf.nextToken (h : LineOf sp view post d) (hi : Closes view i) :
    sp.nextToken (view ++ post) view.length i = sp.nextToken view view.length i ∧
      (sp.nextToken view view.length i).1.1 + (sp.nextToken view view.length i).1.2 ≤
        view.length ∧
      Closes view (sp.nextToken view view.length i).2 := by
  obtain ⟨hskip, hx⟩ := h.skipDelimiters hi i
  unfold Splitter.nextToken
  rw [hskip]
  generalize sp.skipDelimiters view view.length i i = skipped at hx ⊢
  obtain ⟨x, isEmpty⟩ := skipped
  cases isEmpty with
  | true => exact ⟨rfl, hx.le, hx⟩
  | false =>
    obtain ⟨hend, hclose⟩ := h.cuts.endOfToken h.post hx
    dsimp only at hend hclose hx ⊢
    rw [if_neg (by simp), if_neg (by simp), hend]
    have hle := hx.le
    cases hy : sp.endOfToken view view.length x with
    | none =>
      refine ⟨rfl, ?_, closes_length view⟩
      simp only [Option.getD_none]
      omega
    | some y =>
      have hyle := (hclose y hy).le
      have hxy := le_endOfToken hy
      refine ⟨rfl, ?_, hclose y hy⟩
      simp only [Option.getD_some]
      omega

theorem LineOf.tokensFrom (h : LineOf sp view post d) (n : Nat) :
    {i : Nat} → Closes view i →
      (sp.tokensFrom (view ++ post) view.length n i).map (text (view ++ post)) =
        (sp.tokensFrom view view.length n i).map (text view) := by
  induction n with
  | zero => exact fun _ => rfl
  | succ n ih =>
    intro i hi
    obtain ⟨hnext, hle, hclose⟩ := h.nextToken hi
    have htext : text (view ++ post) (sp.nextToken view view.length i).1 =
        text view (sp.nextToken view view.length i).1 := by
      rw [text, text, List.drop_append_of_le_length (by omega),
        List.take_append_of_le_length (by rw [List.length_drop]; omega)]
    rw [Splitter.tokensFrom, Splitter.tokensFrom, hnext, List.map_cons, List.map_cons, htext,
      ih hclose]

/-- A line that closes its enclosures is split as when it is alone. -/
theorem LineOf.split (h : LineOf sp view post d) (hi : Closes view 0) :
    sp.split (view ++ post) view.length = sp.split view view.length := by
  have htokens := h.tokensFrom (sp.countTokens view view.length) hi
  rw [Splitter.split, Splitter.split, splitView, splitView, h.cuts.delimiter,
    if_neg (by simp), if_neg (by simp), countTokens, h.countTokensFrom hi]
  exact htokens

end Text

end Sihd.Util.Splitter
