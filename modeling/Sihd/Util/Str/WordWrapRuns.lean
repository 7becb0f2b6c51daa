import Sihd.Util.Str.WordWrap

/-!
# What word wrapping keeps

Up to the last character of the text, the state of the loop of `word_wrap` says
which words are written: all that end before the word that the loop is in. The
last character ends its word, but when it is a space it is written as a part of
it.
-/

namespace Sihd.Util.Str

/-- A maximal run of characters that are not spaces, from `b` to before `e`. -/
structure IsWord (s : List UInt8) (b e : Nat) : Prop where
  lt : b < e
  le : e ≤ s.length
  isSpace_eq : ∀ i, b ≤ i → i < e → isSpace (s.getD i 0) = false
  before : b = 0 ∨ isSpace (s.getD (b - 1) 0) = true
  after : e = s.length ∨ isSpace (s.getD e 0) = true

namespace IsWord

variable {s : List UInt8} {b e b' e' i : Nat}

/-- Of two words that share a character, none starts before the other. -/
theorem start_le (h : IsWord s b e) (h' : IsWord s b' e') (hi : b ≤ i) (hi' : i < e') :
    b ≤ b' := by
  by_contra hlt
  obtain hzero | hspace := h.before
  · omega
  · rw [h'.isSpace_eq (b - 1) (by omega) (by omega)] at hspace
    exact absurd hspace (by decide)

theorem stop_le (h : IsWord s b e) (h' : IsWord s b' e') (hi : i < e) (hi' : b' ≤ i) :
    e' ≤ e := by
  by_contra hlt
  have hle := h'.le
  obtain hend | hspace := h.after
  · omega
  · rw [h'.isSpace_eq e (by omega) (by omega)] at hspace
    exact absurd hspace (by decide)

/-- Words that share a character are the same. -/
theorem eq_of_mem (h : IsWord s b e) (h' : IsWord s b' e') (hb : b ≤ i) (he : i < e)
    (hb' : b' ≤ i) (he' : i < e') : b = b' ∧ e = e' :=
  ⟨le_antisymm (h.start_le h' hb he') (h'.start_le h hb' he),
    le_antisymm (h'.stop_le h he' hb) (h.stop_le h' he hb')⟩

end IsWord

/-! ## The state of the loop -/

/-- The characters of the text that are not spaces. -/
def isWordChar (s : List UInt8) (i : Nat) : Bool := !isSpace (s.getD i 0)

/-- How much of the text is written before the character `i`. -/
def Wrapper.written (st : Wrapper) (i : Nat) : Nat := if st.inWord then st.wordBegin else i

namespace WrapWidth

/-- Before a character of the text, the words that end before the word that the
loop is in are written. -/
structure Inv (w : WrapWidth) (s : List UInt8) (i : Nat) (st : Wrapper) : Prop where
  fits : Fits w s st
  indices_eq : indices st.ret = (List.range (st.written i)).filter (isWordChar s)
  isInfix : ∀ b e, IsWord s b e → e ≤ st.written i → e - b ≤ w.maxWidth →
    sources b (e - b) <:+: st.ret
  inside : st.inWord = true → st.wordBegin < i ∧
    (∀ j, st.wordBegin ≤ j → j < i → isSpace (s.getD j 0) = false) ∧
    (st.wordBegin = 0 ∨ isSpace (s.getD (st.wordBegin - 1) 0) = true)
  outside : st.inWord = false → i = 0 ∨ isSpace (s.getD (i - 1) 0) = true

variable {w : WrapWidth} {s : List UInt8} {st : Wrapper} {i : Nat}

theorem Inv.init (w : WrapWidth) (s : List UInt8) : Inv w s 0 ⟨[], 0, 0, false⟩ where
  fits := ⟨PiecesWithin.nil _ _ _, Nat.zero_le _⟩
  indices_eq := rfl
  isInfix b e h hle _ := absurd h.lt (by rw [Wrapper.written, if_neg (by decide)] at hle; omega)
  inside h := absurd h (by decide)
  outside _ := .inl rfl

/-- The word that the loop is in ends at the first space after it. -/
theorem Inv.isWord (h : Inv w s i st) (hin : st.inWord = true) (hle : i ≤ s.length)
    (hafter : i = s.length ∨ isSpace (s.getD i 0) = true) : IsWord s st.wordBegin i :=
  ⟨(h.inside hin).1, hle, (h.inside hin).2.1, (h.inside hin).2.2, hafter⟩

/-- A line feed of the text ends the line. -/
def lineEnd (c : UInt8) (st : Wrapper) : Wrapper :=
  if c = lineFeed then { st with ret := st.ret ++ [.newline], currWidth := 0 } else st

theorem step_of_isSpace_inWord (hlt : i + 1 < s.length) (hspace : isSpace (s.getD i 0) = true)
    (hin : st.inWord = true) :
    w.step s st i = lineEnd (s.getD i 0) (w.addWord i { st with inWord := false }) := by
  have hnot : ¬ i + 1 ≥ s.length := not_le.mpr hlt
  simp [step, -List.getD_eq_getElem?_getD, lineEnd, hspace, hin, hnot]

theorem step_of_isSpace (hlt : i + 1 < s.length) (hspace : isSpace (s.getD i 0) = true)
    (hin : st.inWord = false) : w.step s st i = lineEnd (s.getD i 0) st := by
  have hnot : ¬ i + 1 ≥ s.length := not_le.mpr hlt
  have hst : { st with inWord := false } = st := by
    rw [← hin]
  simp [step, -List.getD_eq_getElem?_getD, lineEnd, hspace, hin, hnot, hst]

theorem ne_lineFeed_of_not_isSpace {c : UInt8} (h : isSpace c = false) : c ≠ lineFeed := by
  rintro rfl
  exact absurd h (by decide)

/-- The state in the word of the character `i`. -/
def inWordAt (i : Nat) (st : Wrapper) : Wrapper :=
  { st with wordBegin := if st.inWord then st.wordBegin else i, inWord := true }

theorem step_of_not_isSpace (hlt : i + 1 < s.length) (hspace : isSpace (s.getD i 0) = false) :
    w.step s st i = inWordAt i st := by
  have hnot : ¬ i + 1 ≥ s.length := not_le.mpr hlt
  have hline := ne_lineFeed_of_not_isSpace hspace
  cases hin : st.inWord <;> simp [step, -List.getD_eq_getElem?_getD, inWordAt, hspace, hin, hnot, hline]

theorem step_last_of_isSpace_inWord (hend : i + 1 = s.length)
    (hspace : isSpace (s.getD i 0) = true) (hin : st.inWord = true) :
    w.step s st i = w.addWord (i + 1) { st with inWord := false } := by
  have hge : i + 1 ≥ s.length := hend.ge
  simp [step, -List.getD_eq_getElem?_getD, hspace, hin, hge]

theorem step_last_of_isSpace (hend : i + 1 = s.length) (hspace : isSpace (s.getD i 0) = true)
    (hin : st.inWord = false) : w.step s st i = st := by
  have hge : i + 1 ≥ s.length := hend.ge
  have hst : { st with inWord := false } = st := by
    rw [← hin]
  simp [step, -List.getD_eq_getElem?_getD, hspace, hin, hge, hst]

theorem step_last_of_not_isSpace (hend : i + 1 = s.length)
    (hspace : isSpace (s.getD i 0) = false) :
    w.step s st i = w.addWord (i + 1) (inWordAt i st) := by
  have hge : i + 1 ≥ s.length := hend.ge
  have hline := ne_lineFeed_of_not_isSpace hspace
  cases hin : st.inWord <;> simp [step, -List.getD_eq_getElem?_getD, inWordAt, hspace, hin, hge, hline]

/-! ## One character -/

/-- The characters of a word follow those before it. -/
theorem filter_range_of_word {b e : Nat} (hle : b ≤ e)
    (h : ∀ j, b ≤ j → j < e → isSpace (s.getD j 0) = false) :
    (List.range e).filter (isWordChar s) =
      (List.range b).filter (isWordChar s) ++ List.range' b (e - b) := by
  have hrange : List.range e = List.range b ++ List.range' b (e - b) := by
    rw [List.range_eq_range', List.range_eq_range']
    have happend := List.range'_append_1 (s := 0) (m := b) (n := e - b)
    rw [Nat.zero_add, Nat.add_sub_cancel' hle] at happend
    exact happend.symm
  have hword : (List.range' b (e - b)).filter (isWordChar s) = List.range' b (e - b) := by
    refine List.filter_eq_self.mpr fun j hj => ?_
    rw [List.mem_range'_1] at hj
    rw [isWordChar, h j hj.1 (by omega), Bool.not_false]
  rw [hrange, List.filter_append, hword]

theorem filter_range_succ (h : isSpace (s.getD i 0) = true) :
    (List.range (i + 1)).filter (isWordChar s) = (List.range i).filter (isWordChar s) := by
  rw [List.range_succ, List.filter_append, List.filter_cons_of_neg, List.filter_nil,
    List.append_nil]
  rw [isWordChar, h]
  decide

theorem written_of_inWord (h : st.inWord = true) (i : Nat) : st.written i = st.wordBegin :=
  if_pos h

theorem written_of_not_inWord (h : st.inWord = false) (i : Nat) : st.written i = i :=
  if_neg (by rw [h]; decide)

theorem Inv.lineEnd (h : Inv w s i st) (c : UInt8) : Inv w s i (lineEnd c st) := by
  rw [WrapWidth.lineEnd]
  split_ifs
  · refine ⟨⟨within_newline h.fits.within, Nat.zero_le _⟩, ?_, fun b e hword hle hsize => ?_,
      h.inside, h.outside⟩
    · rw [indices_append, h.indices_eq]
      exact List.append_nil _
    · exact (h.isInfix b e hword hle hsize).trans (List.prefix_append _ _).isInfix
  · exact h

/-- A space outside of the words. -/
theorem Inv.skip (h : Inv w s i st) (hin : st.inWord = false)
    (hspace : isSpace (s.getD i 0) = true) : Inv w s (i + 1) st := by
  refine ⟨h.fits, ?_, fun b e hword hle hsize => ?_, fun htrue => ?_, fun _ => .inr hspace⟩
  · rw [h.indices_eq, written_of_not_inWord hin, written_of_not_inWord hin,
      filter_range_succ hspace]
  · refine h.isInfix b e hword ?_ hsize
    rw [written_of_not_inWord hin] at hle ⊢
    by_contra hnot
    have hchar := hword.isSpace_eq i (by have hlt := hword.lt; omega) (by omega)
    rw [hspace] at hchar
    exact absurd hchar (by decide)
  · rw [hin] at htrue
    exact absurd htrue (by decide)

/-- A character of a word. -/
theorem Inv.enter (h : Inv w s i st) (hspace : isSpace (s.getD i 0) = false) :
    Inv w s (i + 1) (inWordAt i st) := by
  have hwritten : (inWordAt i st).written (i + 1) = st.written i := rfl
  refine ⟨⟨h.fits.within, h.fits.le⟩, ?_, fun b e hword hle hsize => ?_, fun _ => ?_,
    fun hfalse => absurd hfalse (by simp [inWordAt])⟩
  · rw [hwritten]
    exact h.indices_eq
  · rw [hwritten] at hle
    exact h.isInfix b e hword hle hsize
  · cases hin : st.inWord with
    | false =>
      have hbegin : (inWordAt i st).wordBegin = i := if_neg (by rw [hin]; decide)
      rw [hbegin]
      refine ⟨Nat.lt_succ_self i, fun j hle hlt => ?_, h.outside hin⟩
      rwa [Nat.le_antisymm (Nat.le_of_lt_succ hlt) hle]
    | true =>
      have hbegin : (inWordAt i st).wordBegin = st.wordBegin := if_pos hin
      rw [hbegin]
      obtain ⟨hlt, hchars, hbefore⟩ := h.inside hin
      refine ⟨Nat.lt_succ_of_lt hlt, fun j hle hj => ?_, hbefore⟩
      obtain hj | rfl := Nat.lt_succ_iff_lt_or_eq.mp hj
      · exact hchars j hle hj
      · exact hspace

/-- The space behind a word. -/
theorem Inv.close (h : Inv w s i st) (hlt : i < s.length) (hin : st.inWord = true)
    (hspace : isSpace (s.getD i 0) = true) :
    Inv w s (i + 1) (w.addWord i { st with inWord := false }) := by
  have hword := h.isWord hin hlt.le (.inr hspace)
  have hfits : Fits w s { st with inWord := false } := ⟨h.fits.within, h.fits.le⟩
  obtain ⟨hfits', ⟨ret, hret, hindices⟩, -, hin'⟩ := @addWord_wrote w s _ i hfits
  dsimp only at hin'
  refine ⟨hfits', ?_, fun b e hother hle hsize => ?_, fun htrue => ?_, fun _ => .inr hspace⟩
  · rw [written_of_not_inWord hin', hret, indices_append, hindices, h.indices_eq,
      written_of_inWord hin, filter_range_succ hspace,
      filter_range_of_word hword.lt.le hword.isSpace_eq]
  · rw [written_of_not_inWord hin'] at hle
    by_cases hbefore : e ≤ st.wordBegin
    · rw [hret]
      refine (h.isInfix b e hother ?_ hsize).trans (List.prefix_append _ _).isInfix
      rwa [written_of_inWord hin]
    · -- the other word has a character of the word that ends here
      have hne : e - 1 ≠ i := by
        intro heq
        have hchar := hother.isSpace_eq (e - 1) (by have hlt' := hother.lt; omega)
          (by have hlt' := hother.lt; omega)
        rw [heq, hspace] at hchar
        exact absurd hchar (by decide)
      have hlt' := hother.lt
      obtain ⟨rfl, rfl⟩ := hother.eq_of_mem (i := e - 1) hword (by omega) (by omega) (by omega)
        (by omega)
      exact (sources_suffix_addWord hfits hsize).isInfix
  · rw [hin'] at htrue
    exact absurd htrue Bool.false_ne_true

theorem Inv.step (h : Inv w s i st) (hlt : i + 1 < s.length) : Inv w s (i + 1) (w.step s st i) := by
  cases hspace : isSpace (s.getD i 0) with
  | false =>
    rw [step_of_not_isSpace hlt hspace]
    exact h.enter hspace
  | true =>
    cases hin : st.inWord with
    | false =>
      rw [step_of_isSpace hlt hspace hin]
      exact (h.skip hin hspace).lineEnd _
    | true =>
      rw [step_of_isSpace_inWord hlt hspace hin]
      exact (h.close (by omega) hin hspace).lineEnd _

theorem run_succ (w : WrapWidth) (s : List UInt8) (i : Nat) :
    w.run s (i + 1) = w.step s (w.run s i) i := by
  rw [run, run, List.range_succ, List.foldl_append]
  rfl

/-- The loop up to the last character of the text. -/
theorem inv_run (w : WrapWidth) (s : List UInt8) : ∀ i, i < s.length → Inv w s i (w.run s i)
  | 0, _ => Inv.init w s
  | i + 1, hlt => by
      rw [run_succ]
      exact (inv_run w s i (Nat.lt_of_succ_lt hlt)).step hlt

/-! ## The last character -/

/-- The text ends with a word of the whole width and one space, and the words
that are too big are cut with a hyphen. -/
def CutsLast (w : WrapWidth) (s : List UInt8) : Prop :=
  w.appendHyphen = true ∧
    ∃ b, IsWord s b (b + w.maxWidth) ∧ s.length = b + w.maxWidth + 1

/-- The whole text is written. -/
structure Finished (w : WrapWidth) (s : List UInt8) (st : Wrapper) : Prop where
  fits : Fits w s st
  indices_eq : (indices st.ret).filter (isWordChar s) =
    (List.range s.length).filter (isWordChar s)
  isInfix_iff : (∀ b e, IsWord s b e → e - b ≤ w.maxWidth → sources b (e - b) <:+: st.ret) ↔
    ¬ CutsLast w s

theorem filter_append_range' {b n : Nat} (hle : b ≤ n) :
    ((List.range b).filter (isWordChar s) ++ List.range' b (n - b)).filter (isWordChar s) =
      (List.range n).filter (isWordChar s) := by
  have happend := List.range'_append_1 (s := 0) (m := b) (n := n - b)
  rw [Nat.zero_add, Nat.add_sub_cancel' hle] at happend
  rw [List.filter_append, List.filter_filter, List.range_eq_range', List.range_eq_range',
    ← happend, List.filter_append]
  simp only [Bool.and_self]

/-- A part of a word that is followed by a hyphen is not followed by the rest of
the word. -/
theorem not_sources_infix {ret : List Mark} {b m : Nat} (hpos : 0 < m)
    (hret : ∀ j ∈ indices ret, j < b) (n : Nat) :
    ¬ sources b (m + 1) <:+:
      ret ++ sources b m ++ [.hyphen, .newline] ++ sources (b + m) n := by
  obtain ⟨k, rfl⟩ := Nat.exists_eq_succ_of_ne_zero (Nat.ne_of_gt hpos)
  have hword : sources b (k + 1 + 1) = sources b k ++ .source (b + k) :: [.source (b + k + 1)] := by
    rw [Nat.add_assoc, sources_add]
    rfl
  have hpart : sources b (k + 1) = sources b k ++ [.source (b + k)] := by
    rw [sources_add]
    rfl
  have hbefore : Mark.source (b + k) ∉ ret ++ sources b k := by
    rw [List.mem_append, mem_sources, ← mem_indices]
    rintro (hmem | hmem)
    · have hlt := hret _ hmem
      omega
    · omega
  have hbehind : Mark.source (b + k) ∉ Mark.hyphen :: Mark.newline :: sources (b + (k + 1)) n := by
    simp only [List.mem_cons, reduceCtorEq, false_or, mem_sources]
    omega
  rintro ⟨p, q, heq⟩
  have hcut : (ret ++ sources b k) ++
      Mark.source (b + k) :: (.hyphen :: .newline :: sources (b + (k + 1)) n) =
        (p ++ sources b k) ++ .source (b + k) :: (.source (b + k + 1) :: q) := by
    rw [hword, hpart] at heq
    simpa only [List.append_assoc, List.cons_append, List.nil_append] using heq.symm
  have htail := (List.append_cons_inj_of_notMem hbefore hbehind).mp hcut
  exact absurd (List.head_eq_of_cons_eq htail.2.2) (by simp)

/-- The last word is written from its beginning to the end of the text. -/
theorem finished_addWord {e : Nat} (hfits : Fits w s st)
    (hindices : indices st.ret = (List.range st.wordBegin).filter (isWordChar s))
    (hwhole : ∀ b e, IsWord s b e → e ≤ st.wordBegin → e - b ≤ w.maxWidth →
      sources b (e - b) <:+: st.ret)
    (hword : IsWord s st.wordBegin e)
    (hend : e = s.length ∨ e + 1 = s.length ∧ isSpace (s.getD e 0) = true) :
    Finished w s (w.addWord s.length st) := by
  have hlt := hword.lt
  have hle : st.wordBegin ≤ s.length := hlt.le.trans hword.le
  obtain ⟨hfits', ⟨ret, hret, hnew⟩, -, -⟩ := @addWord_wrote w s _ s.length hfits
  refine ⟨hfits', ?_, ?_⟩
  · rw [hret, indices_append, hnew, hindices, filter_append_range' hle]
  -- a word that does not end before the last one is the last one
  have hlast : ∀ b' e', IsWord s b' e' → ¬ e' ≤ st.wordBegin → b' = st.wordBegin ∧ e' = e := by
    intro b' e' hother hnot
    have hlt' := hother.lt
    have hle' := hother.le
    have hchar := hother.isSpace_eq (e' - 1) (by omega) (by omega)
    have hbefore : e' - 1 < e := by
      obtain hend | ⟨hend, hspace⟩ := hend
      · omega
      · by_contra hnot'
        have heq : e' - 1 = e := by omega
        rw [heq, hspace] at hchar
        exact absurd hchar (by decide)
    exact hother.eq_of_mem (i := e' - 1) hword (by omega) (by omega) (by omega) hbefore
  constructor
  · rintro hall ⟨hhyphen, b, hcut, hlen⟩
    have hnot : ¬ b + w.maxWidth ≤ st.wordBegin := by
      intro hle'
      have heq : st.wordBegin = b + w.maxWidth := by
        have hle'' := hword.le
        omega
      have hchar := hword.isSpace_eq st.wordBegin le_rfl hlt
      obtain hafter | hafter := hcut.after
      · omega
      · rw [← heq, hchar] at hafter
        exact absurd hafter (by decide)
    obtain ⟨rfl, -⟩ := hlast _ _ hcut hnot
    obtain ⟨gap, hnone, hparts⟩ := addWord_of_eq hfits hlen
    have hcutEq : w.cut = w.maxWidth - 1 := if_pos hhyphen
    have hpart : w.partEnd = [.hyphen, .newline] := if_pos hhyphen
    have htwo := w.two_le hhyphen
    have hin := hall _ _ hcut (by omega)
    rw [hparts, hpart, hcutEq, Nat.add_sub_cancel_left] at hin
    have hsize : w.maxWidth = w.maxWidth - 1 + 1 := by omega
    rw [hsize] at hin
    refine not_sources_infix (by omega) (fun j hj => ?_) _ hin
    rw [indices_append, hnone, List.append_nil, hindices, List.mem_filter, List.mem_range] at hj
    exact hj.1
  · intro hnot b' e' hother hsize
    by_cases hbefore : e' ≤ st.wordBegin
    · rw [hret]
      exact (hwhole b' e' hother hbefore hsize).trans (List.prefix_append _ _).isInfix
    obtain ⟨rfl, rfl⟩ := hlast _ _ hother hbefore
    by_cases hfit : s.length - st.wordBegin ≤ w.maxWidth
    · have hsuffix := sources_suffix_addWord hfits hfit
      refine List.IsInfix.trans ?_ hsuffix.isInfix
      have hsplit : s.length - st.wordBegin =
          (e' - st.wordBegin) + (s.length - e') := by
        have hle := hword.le
        omega
      rw [hsplit, sources_add]
      exact (List.prefix_append _ _).isInfix
    · have hlen : s.length = st.wordBegin + w.maxWidth + 1 := by
        obtain hend | ⟨hend, -⟩ := hend <;> omega
      have hcutEq : w.cut = w.maxWidth := by
        refine if_neg fun hhyphen => hnot ⟨hhyphen, st.wordBegin, ?_, hlen⟩
        have heq : e' = st.wordBegin + w.maxWidth := by
          obtain hend | ⟨hend, -⟩ := hend <;> omega
        exact heq ▸ hother
      obtain ⟨gap, -, hparts⟩ := addWord_of_eq hfits hlen
      have heq : e' - st.wordBegin = w.maxWidth := by
        obtain hend | ⟨hend, -⟩ := hend <;> omega
      rw [hparts, hcutEq, heq]
      exact ⟨st.ret ++ gap, _, by rw [← List.append_assoc]⟩

theorem Inv.last (h : Inv w s i st) (hend : i + 1 = s.length) :
    Finished w s (w.step s st i) := by
  have hlt : i < s.length := by omega
  cases hspace : isSpace (s.getD i 0) with
  | false =>
    have henter := h.enter hspace
    have hword := henter.isWord rfl hend.le (.inl hend)
    rw [step_last_of_not_isSpace hend hspace, hend]
    exact finished_addWord henter.fits henter.indices_eq henter.isInfix hword (.inl hend)
  | true =>
    cases hin : st.inWord with
    | false =>
      have hskip := h.skip hin hspace
      have hwritten : st.written (i + 1) = s.length := by
        rw [written_of_not_inWord hin, hend]
      rw [step_last_of_isSpace hend hspace hin]
      refine ⟨h.fits, ?_, iff_of_true (fun b e hword hsize => ?_) ?_⟩
      · rw [hskip.indices_eq, hwritten, List.filter_filter]
        simp only [Bool.and_self]
      · exact hskip.isInfix b e hword (hwritten ▸ hword.le) hsize
      · -- the last word ends before the last space, which is not outside of the words
        rintro ⟨-, b, hcut, hlen⟩
        have hlt' := hcut.lt
        obtain hzero | hbefore := h.outside hin
        · omega
        · rw [hcut.isSpace_eq (i - 1) (by omega) (by omega)] at hbefore
          exact absurd hbefore (by decide)
    | true =>
      have hword := h.isWord hin hlt.le (.inr hspace)
      have hindices := h.indices_eq
      have hwhole := h.isInfix
      rw [written_of_inWord hin] at hindices hwhole
      rw [step_last_of_isSpace_inWord hend hspace hin, hend]
      exact finished_addWord ⟨h.fits.within, h.fits.le⟩ hindices hwhole hword
        (.inr ⟨hend, hspace⟩)

theorem finished_run (w : WrapWidth) (s : List UInt8) : Finished w s (w.run s s.length) := by
  cases hlen : s.length with
  | zero =>
    refine ⟨(Inv.init w s).fits, ?_, iff_of_true (fun b e hword _ => ?_) ?_⟩
    · rw [hlen]
      rfl
    · have hlt := hword.lt
      have hle := hword.le
      omega
    · rintro ⟨-, b, -, hend⟩
      omega
  | succ n =>
    rw [run_succ]
    exact (inv_run w s n (by omega)).last hlen.symm

end WrapWidth

/-! ## The wrapped text -/

/-- The characters that are not spaces, without the hyphens that are inserted,
are those of the text. -/
theorem filter_char (s : List UInt8) (ret : List Mark) :
    ((ret.filter (· ≠ .hyphen)).map (Mark.char s)).filter (!isSpace ·) =
      ((indices ret).filter (isWordChar s)).map (s.getD · 0) := by
  induction ret with
  | nil => rfl
  | cons m ret ih =>
    cases m with
    | source i =>
      have hindices : indices (.source i :: ret) = i :: indices ret := rfl
      rw [hindices, List.filter_cons_of_pos (by simp), List.map_cons, List.filter_cons, ih,
        List.filter_cons]
      have hchar : (!isSpace (Mark.char s (.source i))) = isWordChar s i := rfl
      rw [hchar]
      split_ifs
      · rfl
      · rfl
    | hyphen =>
      rw [List.filter_cons_of_neg (by simp)]
      exact ih
    | newline | space =>
      rw [List.filter_cons_of_pos (by simp), List.map_cons,
        List.filter_cons_of_neg (by rw [Mark.char]; decide)]
      exact ih

theorem filter_range_length (s : List UInt8) :
    ((List.range s.length).filter (isWordChar s)).map (s.getD · 0) = s.filter (!isSpace ·) := by
  have hmap : (List.range s.length).map (s.getD · 0) = s := by
    refine List.ext_getElem (by simp) fun i hi hi' => ?_
    simp [hi']
  conv_rhs => rw [← hmap, List.filter_map]
  rfl

/-- A text is wrapped: its lines are no wider than the width, without the
hyphens that are inserted it has the characters of the text, and each of its
words that is no wider than a line is written as a whole. -/
structure WrapsWords (s : List UInt8) (maxWidth : Nat) (appendHyphen : Bool) : Prop where
  length_le : ∀ line ∈ pieces [lineFeed] (wordWrap s maxWidth appendHyphen),
    line.length ≤ maxWidth
  filter_eq :
    (((wordWrapMarks s maxWidth appendHyphen).filter (· ≠ .hyphen)).map (Mark.char s)).filter
      (!isSpace ·) = s.filter (!isSpace ·)
  isInfix : ∀ b e, IsWord s b e → e - b ≤ maxWidth →
    sources b (e - b) <:+: wordWrapMarks s maxWidth appendHyphen

/-- Texts are wrapped but when words are hyphenated and the text ends with a word
of the whole width and one space. -/
theorem wrapsWords_iff (s : List UInt8) {maxWidth : Nat} (appendHyphen : Bool)
    (h : 1 ≤ maxWidth) :
    WrapsWords s maxWidth appendHyphen ↔
      ¬ (appendHyphen = true ∧ 2 ≤ maxWidth ∧
        ∃ b, IsWord s b (b + maxWidth) ∧ s.length = b + maxWidth + 1) := by
  have hne : maxWidth ≠ 0 := by omega
  have hmarks : wordWrapMarks s maxWidth appendHyphen = _ := dif_neg hne
  have hfinished := WrapWidth.finished_run
    ⟨maxWidth, if maxWidth = 1 then false else appendHyphen, Nat.pos_of_ne_zero hne,
      by split_ifs with hone; exacts [False.elim, fun _ => by omega]⟩ s
  have hwhole := hfinished.isInfix_iff
  rw [← hmarks] at hwhole
  have hcuts : (if maxWidth = 1 then false else appendHyphen) = true ↔
      appendHyphen = true ∧ 2 ≤ maxWidth := by
    split_ifs with hone
    · exact iff_of_false not_false fun htwo => by omega
    · exact ⟨fun hhyphen => ⟨hhyphen, by omega⟩, fun hboth => hboth.1⟩
  replace hwhole := hwhole.trans (not_congr ((and_congr_left' hcuts).trans and_assoc))
  constructor
  · exact fun hwraps => hwhole.mp hwraps.isInfix
  · intro hnot
    refine ⟨fun line hline => ?_, ?_, hwhole.mpr hnot⟩
    · rw [wordWrap, hmarks] at hline
      exact hfinished.fits.within.length_le_of_mem hline
    · rw [filter_char, hmarks, hfinished.indices_eq, filter_range_length]

/-- A word of three characters is wrapped to lines of two. -/
theorem wrapsWords_three : WrapsWords [97, 98, 99] 2 true :=
  (wrapsWords_iff _ true (by decide)).mpr fun ⟨_, _, b, hword, hlen⟩ => by
    have hbefore := hword.before
    have hb : b = 0 := by
      have hlen' : 3 = b + 2 + 1 := hlen
      omega
    subst hb
    have hafter := hword.after
    exact absurd hafter (by decide)

/-- A word of the whole width and a space behind it: the word is cut. -/
theorem not_wrapsWords_three : ¬ WrapsWords [97, 98, 99, 32] 3 true := by
  intro hwraps
  have hchars : ∀ i < 3, isSpace ([97, 98, 99, 32].getD i 0) = false := by
    decide
  have hword : IsWord [97, 98, 99, 32] 0 3 :=
    ⟨by decide, by decide, fun i _ hlt => hchars i hlt, .inl rfl, .inr rfl⟩
  exact absurd (hwraps.isInfix 0 3 hword (by decide)) (by decide +kernel)

end Sihd.Util.Str
