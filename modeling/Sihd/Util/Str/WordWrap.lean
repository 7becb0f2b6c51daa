import Mathlib.Data.List.Range
import Mathlib.Order.Nat
import Sihd.Lib.Pieces
import Sihd.Util.Str

/-!
# Wrapping a text at its words

`word_wrap` goes through a text with the beginning of the word that it is in and
the width of the line that it writes. A word that is wider than the lines is
cut, with or without a hyphen behind each part. What is written is either a
character of the text, here as its index, or inserted.
-/

namespace Sihd.Util.Str

/-- A character of what is written. -/
inductive Mark
  | source (i : Nat)
  | hyphen
  | newline
  | space
  deriving DecidableEq

/-- The character of a mark, in the text `s`. -/
def Mark.char (s : List UInt8) : Mark → UInt8
  | source i => s.getD i 0
  | hyphen => 45
  | newline => lineFeed
  | space => 32

/-- The width and the hyphenation after the checks of `word_wrap`. -/
structure WrapWidth where
  maxWidth : Nat
  appendHyphen : Bool
  pos : 0 < maxWidth
  two_le : appendHyphen = true → 2 ≤ maxWidth

/-- The state of the loop of `word_wrap`. -/
structure Wrapper where
  ret : List Mark
  currWidth : Nat
  wordBegin : Nat
  inWord : Bool

/-- The characters of the text from `first` on. -/
def sources (first size : Nat) : List Mark := (List.range' first size).map .source

namespace WrapWidth

/-- The size of a part of a word that does not end it. -/
def cut (w : WrapWidth) : Nat := if w.appendHyphen then w.maxWidth - 1 else w.maxWidth

theorem cut_pos (w : WrapWidth) : 0 < w.cut := by
  rw [cut]
  split_ifs with h
  · have htwo := w.two_le h
    omega
  · exact w.pos

theorem cut_le (w : WrapWidth) : w.cut ≤ w.maxWidth := by
  rw [cut]
  split_ifs
  · exact Nat.sub_le _ _
  · exact Nat.le_refl _

/-- What is between two parts of a word. -/
def partEnd (w : WrapWidth) : List Mark := if w.appendHyphen then [.hyphen, .newline] else [.newline]

/-- The loop over the parts of a word that is too big, from its character `j` on. -/
def addParts (w : WrapWidth) (wordSize j : Nat) (st : Wrapper) : Wrapper :=
  if j < wordSize then
    let addSize := if j + w.maxWidth ≥ wordSize then wordSize - j else w.cut
    let ret := st.ret ++ sources (st.wordBegin + j) addSize
    let ret := if j + addSize < wordSize then ret ++ w.partEnd else ret
    w.addParts wordSize (j + addSize) { st with ret, currWidth := addSize }
  else st
  termination_by wordSize - j
  decreasing_by
    have hpos := w.cut_pos
    split_ifs <;> omega

def addWord (w : WrapWidth) (wordEnd : Nat) (st : Wrapper) : Wrapper :=
  let wordSize := wordEnd - st.wordBegin
  if wordSize > w.maxWidth then
    w.addParts wordSize 0
      (if st.currWidth > 0 then { st with ret := st.ret ++ [.newline] } else st)
  else if st.currWidth + wordSize > w.maxWidth ∨
      st.currWidth > 0 ∧ st.currWidth + wordSize + 1 > w.maxWidth then
    { st with
      ret := st.ret ++ .newline :: sources st.wordBegin wordSize
      currWidth := wordSize }
  else if st.currWidth > 0 then
    { st with
      ret := st.ret ++ .space :: sources st.wordBegin wordSize
      currWidth := st.currWidth + 1 + wordSize }
  else
    { st with
      ret := st.ret ++ sources st.wordBegin wordSize
      currWidth := st.currWidth + wordSize }

/-- The loop of `word_wrap` at the character `i`. -/
def step (w : WrapWidth) (s : List UInt8) (st : Wrapper) (i : Nat) : Wrapper :=
  let c := s.getD i 0
  let nextIsEnd := i + 1 ≥ s.length
  let shouldAdd := isSpace c && st.inWord
  let st := { st with
    wordBegin := if !isSpace c && !st.inWord then i else st.wordBegin
    inWord := !isSpace c }
  -- the end of the text ends the word, also when the last character is a space
  let st :=
    if shouldAdd ∨ st.inWord ∧ nextIsEnd then w.addWord (if nextIsEnd then i + 1 else i) st else st
  if c = lineFeed ∧ ¬ nextIsEnd then { st with ret := st.ret ++ [.newline], currWidth := 0 } else st

/-- The state before the character `i`. -/
def run (w : WrapWidth) (s : List UInt8) (i : Nat) : Wrapper :=
  (List.range i).foldl (w.step s) ⟨[], 0, 0, false⟩

end WrapWidth

/-- What `word_wrap` writes, as marks. -/
def wordWrapMarks (s : List UInt8) (maxWidth : Nat) (appendHyphen : Bool) : List Mark :=
  if h : maxWidth = 0 then []
  else
    let w : WrapWidth :=
      { maxWidth
        appendHyphen := if maxWidth = 1 then false else appendHyphen
        pos := Nat.pos_of_ne_zero h
        two_le := by
          split_ifs with hone
          · exact False.elim
          · exact fun _ => by omega }
    (w.run s s.length).ret

def wordWrap (s : List UInt8) (maxWidth : Nat) (appendHyphen : Bool) : List UInt8 :=
  (wordWrapMarks s maxWidth appendHyphen).map (Mark.char s)

/-! ## What is written -/

/-- The places of the text that are written, in the order of writing. -/
def indices (ret : List Mark) : List Nat :=
  ret.filterMap fun
    | .source i => some i
    | _ => none

@[simp] theorem indices_append (l l' : List Mark) : indices (l ++ l') = indices l ++ indices l' :=
  List.filterMap_append

@[simp] theorem indices_sources (first size : Nat) :
    indices (sources first size) = List.range' first size := by
  rw [indices, sources, List.filterMap_map]
  exact List.filterMap_some

theorem mem_indices {i : Nat} {ret : List Mark} : i ∈ indices ret ↔ .source i ∈ ret := by
  rw [indices, List.mem_filterMap]
  constructor
  · rintro ⟨m, hm, hi⟩
    cases m with
    | source j => rwa [← Option.some.inj hi]
    | hyphen | newline | space => exact absurd hi (by simp)
  · exact fun h => ⟨_, h, rfl⟩

theorem mem_sources {i first size : Nat} :
    .source i ∈ sources first size ↔ first ≤ i ∧ i < first + size := by
  rw [← mem_indices, indices_sources, List.mem_range'_1]

@[simp] theorem indices_partEnd (w : WrapWidth) : indices w.partEnd = [] := by
  rw [WrapWidth.partEnd]
  split_ifs <;> rfl

@[simp] theorem length_sources (first size : Nat) : (sources first size).length = size := by
  rw [sources, List.length_map, List.length_range']

theorem sources_add (first m n : Nat) :
    sources first (m + n) = sources first m ++ sources (first + m) n := by
  rw [sources, sources, sources, ← List.map_append, List.range'_append_1]

/-- The lines that are written are no wider than the width, and the last one no
wider than the state says. -/
structure Fits (w : WrapWidth) (s : List UInt8) (st : Wrapper) : Prop where
  within : PiecesWithin lineFeed w.maxWidth st.currWidth (st.ret.map (Mark.char s))
  le : st.currWidth ≤ w.maxWidth

/-- The state `st'` has written the characters from `first` on. -/
structure Wrote (w : WrapWidth) (s : List UInt8) (st st' : Wrapper) (first size : Nat) : Prop where
  fits : Fits w s st'
  indices_eq : ∃ ret, st'.ret = st.ret ++ ret ∧ indices ret = List.range' first size
  wordBegin_eq : st'.wordBegin = st.wordBegin
  inWord_eq : st'.inWord = st.inWord

namespace WrapWidth

variable {w : WrapWidth} {s : List UInt8} {st : Wrapper}

theorem within_newline {n : Nat} {ret : List Mark}
    (h : PiecesWithin lineFeed w.maxWidth n (ret.map (Mark.char s))) :
    PiecesWithin lineFeed w.maxWidth 0 ((ret ++ [Mark.newline]).map (Mark.char s)) := by
  rw [List.map_append]
  exact h.concat_self

theorem within_append {n : Nat} {ret l : List Mark}
    (h : PiecesWithin lineFeed w.maxWidth n (ret.map (Mark.char s)))
    (hle : n + l.length ≤ w.maxWidth) :
    PiecesWithin lineFeed w.maxWidth (n + l.length) ((ret ++ l).map (Mark.char s)) := by
  rw [← List.length_map (f := Mark.char s)] at hle ⊢
  rw [List.map_append]
  exact h.append hle

/-- A part of a word and its end fit on a line. -/
theorem within_partEnd {first : Nat} {ret : List Mark}
    (h : PiecesWithin lineFeed w.maxWidth 0 (ret.map (Mark.char s))) :
    PiecesWithin lineFeed w.maxWidth 0
      ((ret ++ sources first w.cut ++ w.partEnd).map (Mark.char s)) := by
  by_cases hhyphen : w.appendHyphen = true
  · have htwo := w.two_le hhyphen
    have hcut : w.cut = w.maxWidth - 1 := if_pos hhyphen
    have hpart : w.partEnd = [Mark.hyphen] ++ [Mark.newline] := if_pos hhyphen
    rw [hpart, ← List.append_assoc]
    refine within_newline (within_append (within_append h ?_) ?_)
    · rw [length_sources, hcut]
      omega
    · rw [length_sources, hcut, List.length_singleton]
      omega
  · have hcut : w.cut = w.maxWidth := if_neg hhyphen
    have hpart : w.partEnd = [Mark.newline] := if_neg hhyphen
    rw [hpart]
    refine within_newline (within_append h ?_)
    rw [length_sources, hcut]
    omega

/-! ## Words that are too big -/

theorem addParts_of_lt {size j : Nat} (h : j + w.maxWidth < size) :
    w.addParts size j st =
      w.addParts size (j + w.cut)
        { st with
          ret := st.ret ++ sources (st.wordBegin + j) w.cut ++ w.partEnd
          currWidth := w.cut } := by
  have hle := w.cut_le
  rw [addParts, if_pos (by omega)]
  dsimp only
  rw [if_neg (by omega), if_pos (by omega)]

theorem addParts_of_ge {size j : Nat} (hlt : j < size) (h : size ≤ j + w.maxWidth) :
    w.addParts size j st =
      { st with
        ret := st.ret ++ sources (st.wordBegin + j) (size - j)
        currWidth := size - j } := by
  rw [addParts, if_pos hlt]
  dsimp only
  rw [if_pos h, if_neg (by omega), addParts, if_neg (by omega)]

/-- The parts of a word are the word, and they are cut to the width. -/
theorem addParts_wrote {size j : Nat} (hlt : j < size)
    (h : PiecesWithin lineFeed w.maxWidth 0 (st.ret.map (Mark.char s))) :
    Wrote w s st (w.addParts size j st) (st.wordBegin + j) (size - j) := by
  induction hrest : size - j using Nat.strong_induction_on generalizing j st with
  | _ rest ih =>
    subst hrest
    by_cases hbig : j + w.maxWidth < size
    · have hpos := w.cut_pos
      have hle := w.cut_le
      obtain ⟨hfits, ⟨ret, hret, hindices⟩, hbegin, hin⟩ :=
        @ih (size - (j + w.cut)) (by omega)
          { st with
            ret := st.ret ++ sources (st.wordBegin + j) w.cut ++ w.partEnd
            currWidth := w.cut }
          (j + w.cut) (by omega) (within_partEnd h) rfl
      rw [addParts_of_lt hbig]
      refine ⟨hfits, ⟨sources (st.wordBegin + j) w.cut ++ w.partEnd ++ ret, ?_, ?_⟩, hbegin, hin⟩
      · rw [hret]
        simp only [List.append_assoc]
      · rw [indices_append, indices_append, indices_sources, indices_partEnd, List.append_nil,
          hindices, ← Nat.add_assoc, List.range'_append_1]
        congr 1
        omega
    · rw [addParts_of_ge hlt (not_lt.mp hbig)]
      refine ⟨⟨?_, by dsimp only; omega⟩, ⟨_, rfl, indices_sources _ _⟩, rfl, rfl⟩
      have happend := within_append (l := sources (st.wordBegin + j) (size - j)) h
        (by rw [length_sources]; omega)
      rwa [length_sources, Nat.zero_add] at happend

/-! ## Words -/

/-- The line is ended before a word that is too big. -/
def beforeParts (st : Wrapper) : Wrapper :=
  if st.currWidth > 0 then { st with ret := st.ret ++ [.newline] } else st

theorem addWord_of_lt {wordEnd : Nat} (h : w.maxWidth < wordEnd - st.wordBegin) :
    w.addWord wordEnd st = w.addParts (wordEnd - st.wordBegin) 0 (beforeParts st) := if_pos h

theorem beforeParts_wrote (h : Fits w s st) :
    PiecesWithin lineFeed w.maxWidth 0 ((beforeParts st).ret.map (Mark.char s)) ∧
      ∃ ret, (beforeParts st).ret = st.ret ++ ret ∧ indices ret = [] := by
  rw [beforeParts]
  split_ifs with hpos
  · exact ⟨within_newline h.within, _, rfl, rfl⟩
  · have hzero : st.currWidth = 0 := Nat.eq_zero_of_not_pos hpos
    exact ⟨hzero ▸ h.within, [], (List.append_nil _).symm, rfl⟩

@[simp] theorem beforeParts_wordBegin : (beforeParts st).wordBegin = st.wordBegin := by
  rw [beforeParts]
  split_ifs <;> rfl

@[simp] theorem beforeParts_inWord : (beforeParts st).inWord = st.inWord := by
  rw [beforeParts]
  split_ifs <;> rfl

/-- A word that is not too big is written behind a line feed, a space or
nothing. -/
theorem addWord_of_le {wordEnd : Nat} (h : Fits w s st)
    (hle : wordEnd - st.wordBegin ≤ w.maxWidth) :
    ∃ gap, indices gap = [] ∧
      (w.addWord wordEnd st).ret =
        st.ret ++ (gap ++ sources st.wordBegin (wordEnd - st.wordBegin)) ∧
      Fits w s (w.addWord wordEnd st) ∧
      (w.addWord wordEnd st).wordBegin = st.wordBegin ∧
      (w.addWord wordEnd st).inWord = st.inWord := by
  have hlen : (sources st.wordBegin (wordEnd - st.wordBegin)).length = wordEnd - st.wordBegin :=
    length_sources _ _
  rw [addWord, if_neg (not_lt.mpr hle)]
  split_ifs with hline hspace
  · refine ⟨[.newline], rfl, rfl, ⟨?_, hle⟩, rfl, rfl⟩
    have hwithin := within_append (l := sources st.wordBegin (wordEnd - st.wordBegin))
      (within_newline h.within) (by omega)
    rwa [hlen, Nat.zero_add, List.append_assoc] at hwithin
  · refine ⟨[.space], rfl, rfl, ⟨?_, by dsimp only; omega⟩, rfl, rfl⟩
    have hwithin := within_append (l := sources st.wordBegin (wordEnd - st.wordBegin))
      (within_append (l := [.space]) h.within (by rw [List.length_singleton]; omega))
      (by rw [List.length_singleton]; omega)
    rwa [hlen, List.append_assoc] at hwithin
  · refine ⟨[], rfl, rfl, ⟨?_, by dsimp only; omega⟩, rfl, rfl⟩
    have hwithin := within_append (l := sources st.wordBegin (wordEnd - st.wordBegin))
      h.within (by omega)
    rwa [hlen] at hwithin

theorem addWord_wrote {wordEnd : Nat} (h : Fits w s st) :
    Wrote w s st (w.addWord wordEnd st) st.wordBegin (wordEnd - st.wordBegin) := by
  by_cases hbig : w.maxWidth < wordEnd - st.wordBegin
  · obtain ⟨hwithin, gap, hgap, hnone⟩ := beforeParts_wrote h
    obtain ⟨hfits, ⟨ret, hret, hindices⟩, hbegin, hin⟩ :=
      @addParts_wrote w s _ (wordEnd - st.wordBegin) 0 (by omega) hwithin
    rw [addWord_of_lt hbig]
    refine ⟨hfits, ⟨gap ++ ret, ?_, ?_⟩, ?_, ?_⟩
    · rw [hret, hgap, List.append_assoc]
    · rw [indices_append, hnone, hindices, beforeParts_wordBegin]
      rfl
    · rw [hbegin, beforeParts_wordBegin]
    · rw [hin, beforeParts_inWord]
  · obtain ⟨gap, hnone, hret, hfits, hbegin, hin⟩ := addWord_of_le h (not_lt.mp hbig)
    refine ⟨hfits, ⟨_, hret, ?_⟩, hbegin, hin⟩
    rw [indices_append, hnone, indices_sources, List.nil_append]

/-- A word that is not too big is on one line. -/
theorem sources_suffix_addWord {wordEnd : Nat} (h : Fits w s st)
    (hle : wordEnd - st.wordBegin ≤ w.maxWidth) :
    sources st.wordBegin (wordEnd - st.wordBegin) <:+ (w.addWord wordEnd st).ret := by
  obtain ⟨gap, -, hret, -⟩ := addWord_of_le h hle
  rw [hret, ← List.append_assoc]
  exact List.suffix_append _ _

/-- A word that is one character wider than the lines is cut once. -/
theorem addWord_of_eq {wordEnd : Nat} (hfits : Fits w s st)
    (h : wordEnd = st.wordBegin + w.maxWidth + 1) :
    ∃ gap, indices gap = [] ∧
      (w.addWord wordEnd st).ret =
        st.ret ++ gap ++ sources st.wordBegin w.cut ++ w.partEnd ++
          sources (st.wordBegin + w.cut) (w.maxWidth + 1 - w.cut) := by
  have hpos := w.cut_pos
  have hle := w.cut_le
  subst h
  have hsize : st.wordBegin + w.maxWidth + 1 - st.wordBegin = w.maxWidth + 1 := by
    omega
  obtain ⟨-, gap, hgap, hnone⟩ := beforeParts_wrote hfits
  refine ⟨gap, hnone, ?_⟩
  rw [addWord_of_lt (by omega), hsize, addParts_of_lt (by omega), addParts_of_ge (by omega)
    (by omega)]
  dsimp only
  rw [hgap, beforeParts_wordBegin, Nat.zero_add, Nat.add_zero]

end WrapWidth

end Sihd.Util.Str
