import Sihd.Util.Splitter.Method

/-!
# Splitting what was joined

Without enclosures and with empty delimitations, a splitter at a character
gives back the strings that were joined with this character, the empty ones
included. Only an empty string at the start is lost: a delimiter that starts the
view is passed without a token before it.
-/

namespace Sihd.Util

/-- A scan with empty delimitations whose only delimiters are the characters
`d` of a string. -/
structure Scan.SplitsAt (S : Scan) (s : List UInt8) (d : UInt8) : Prop where
  size : S.size = s.length
  emptyDelimitations : S.emptyDelimitations = true
  enclosure : ∀ i, S.enclosure i = .notOpened
  delimiterOffset : ∀ {x : List UInt8} {c : UInt8} {y : List UInt8}, s = x ++ c :: y →
    S.delimiterOffset x.length = if c = d then 1 else 0

namespace Scan.SplitsAt

variable {S : Scan} {s x p y : List UInt8} {d : UInt8}

theorem lt_size {c : UInt8} (h : S.SplitsAt s d) (hs : s = x ++ c :: y) : x.length < S.size := by
  rw [h.size, hs, List.length_append, List.length_cons]
  omega

theorem tokens_start_of_delimiter (h : S.SplitsAt s d) (hs : s = x ++ d :: y) :
    S.tokens .start x.length = S.tokens .passed (x ++ [d]).length := by
  have hdelim := h.delimiterOffset hs
  rw [if_pos rfl] at hdelim
  rw [Scan.tokens_start_of_delimiter (h.lt_size hs) (by omega), hdelim, List.length_append]
  rfl

/-- What comes after a string: nothing, or the character that it was joined
with. -/
def Follows (d : UInt8) (y : List UInt8) : Prop := y = [] ∨ ∃ t, y = d :: t

/-- The end of a token is that of its string. -/
theorem endOfToken (h : S.SplitsAt s d) (hs : s = x ++ p ++ y) (hd : d ∉ p)
    (hy : Follows d y) : S.endOfToken x.length = some (x ++ p).length := by
  induction p generalizing x with
  | nil =>
    rw [List.append_nil] at hs ⊢
    rcases hy with rfl | ⟨t, rfl⟩
    · rw [List.append_nil] at hs
      exact endOfToken_of_le (by rw [h.size, hs])
    · have hdelim := h.delimiterOffset hs
      rw [if_pos rfl] at hdelim
      rw [endOfToken_of_notOpened (h.lt_size hs) (h.enclosure _), hdelim, if_pos Nat.one_pos]
  | cons c p ih =>
    rw [List.mem_cons, not_or] at hd
    have hs' : s = x ++ c :: (p ++ y) := by rw [hs, List.append_assoc, List.cons_append]
    have hdelim := h.delimiterOffset hs'
    rw [if_neg (Ne.symm hd.1)] at hdelim
    have hnext := ih (x := x ++ [c]) (by rw [hs', List.append_assoc, List.append_assoc]; rfl) hd.2
    rw [List.length_append, List.length_singleton, List.append_assoc, List.singleton_append]
      at hnext
    rw [endOfToken_of_notOpened (h.lt_size hs') (h.enclosure _), hdelim, if_neg (by simp), hnext]

theorem tokens_token (h : S.SplitsAt s d) (hs : s = x ++ p ++ y) (hd : d ∉ p)
    (hy : Follows d y) :
    S.tokens (.token x.length) x.length =
      (x.length, p.length) :: S.tokens .start (x ++ p).length := by
  rw [Scan.tokens_token, h.endOfToken hs hd hy, Option.getD_some, List.length_append,
    Nat.add_sub_cancel_left]

/-- There is no delimiter at the start of a string that is not empty. -/
theorem delimiterOffset_of_ne_nil (h : S.SplitsAt s d) (hs : s = x ++ p ++ y) (hd : d ∉ p)
    (hp : p ≠ []) : x.length < S.size ∧ S.delimiterOffset x.length = 0 := by
  obtain ⟨c, p, rfl⟩ := List.exists_cons_of_ne_nil hp
  rw [List.mem_cons, not_or] at hd
  rw [List.append_assoc, List.cons_append] at hs
  refine ⟨h.lt_size hs, ?_⟩
  rw [h.delimiterOffset hs, if_neg (Ne.symm hd.1)]

/-- After a delimiter, a string is the next token, also when it is empty. -/
theorem tokens_passed (h : S.SplitsAt s d) (hs : s = x ++ p ++ y) (hd : d ∉ p)
    (hy : Follows d y) :
    S.tokens .passed x.length = (x.length, p.length) :: S.tokens .start (x ++ p).length := by
  by_cases hp : p = []
  · subst hp
    rw [List.append_nil] at hs ⊢
    rcases hy with rfl | ⟨t, rfl⟩
    · rw [List.append_nil] at hs
      have hsize : S.size ≤ x.length := by rw [h.size, hs]
      rw [tokens_passed_of_not_delimiter h.emptyDelimitations (by omega), Scan.tokens_token,
        endOfToken_of_le hsize, Option.getD_some, Nat.sub_self]
      rfl
    · have hdelim := h.delimiterOffset hs
      rw [if_pos rfl] at hdelim
      exact tokens_passed_of_delimiter h.emptyDelimitations (h.lt_size hs) (by omega)
  · have hfirst := (h.delimiterOffset_of_ne_nil hs hd hp).2
    rw [tokens_passed_of_not_delimiter h.emptyDelimitations (by omega), h.tokens_token hs hd hy]

/-- The characters of a token. -/
def contents (s : List UInt8) (token : Nat × Nat) : List UInt8 :=
  (s.drop token.1).take token.2

theorem contents_eq (hs : s = x ++ p ++ y) : contents s (x.length, p.length) = p := by
  rw [contents, hs, List.append_assoc, List.drop_left, List.take_left]

/-- After a delimiter, the strings that are left are the tokens. -/
theorem map_tokens_passed (h : S.SplitsAt s d) {ps : List (List UInt8)} :
    ∀ {x p : List UInt8}, s = x ++ List.intercalate [d] (p :: ps) → (∀ q ∈ p :: ps, d ∉ q) →
      (S.tokens .passed x.length).map (contents s) = p :: ps := by
  induction ps with
  | nil =>
    intro x p hs hd
    rw [List.intercalate_singleton] at hs
    have hs' : s = x ++ p ++ [] := by rw [hs, List.append_nil]
    have hsize : S.size ≤ (x ++ p).length := by rw [h.size, hs]
    rw [h.tokens_passed hs' (hd p List.mem_cons_self) (.inl rfl), tokens_start_of_le hsize,
      List.map_cons, contents_eq hs']
    rfl
  | cons q qs ih =>
    intro x p hs hd
    rw [List.intercalate_cons_cons] at hs
    have hs' : s = x ++ p ++ d :: List.intercalate [d] (q :: qs) := by
      rw [hs, List.append_assoc, List.append_assoc]
      rfl
    have hnext := @ih (x ++ p ++ [d]) q (by rw [hs', List.append_assoc _ [d]]; rfl)
      fun r hr => hd r (List.mem_cons_of_mem p hr)
    rw [h.tokens_passed hs' (hd p List.mem_cons_self) (.inr ⟨_, rfl⟩),
      h.tokens_start_of_delimiter hs', List.map_cons, contents_eq hs', hnext]

/-- At the start, an empty string is no token. -/
theorem map_tokens_start (h : S.SplitsAt s d) {p : List UInt8} {ps : List (List UInt8)}
    (hs : s = List.intercalate [d] (p :: ps)) (hd : ∀ q ∈ p :: ps, d ∉ q) :
    (S.tokens .start 0).map (contents s) = if p = [] then ps else p :: ps := by
  have hmem := hd p List.mem_cons_self
  cases ps with
  | nil =>
    rw [List.intercalate_singleton] at hs
    by_cases hp : p = []
    · have hsize : S.size ≤ 0 := by rw [h.size, hs, hp]; rfl
      rw [if_pos hp, tokens_start_of_le hsize]
      rfl
    · have hs' : s = [] ++ p ++ [] := by rw [hs, List.append_nil]; rfl
      obtain ⟨hlt, hfirst⟩ := h.delimiterOffset_of_ne_nil hs' hmem hp
      have htoken := h.tokens_token hs' hmem (.inl rfl)
      rw [List.length_nil] at hlt hfirst htoken
      have hsize : S.size ≤ ([] ++ p).length := by rw [h.size, hs]; rfl
      rw [if_neg hp, tokens_start_of_opens hlt hfirst, htoken, tokens_start_of_le hsize,
        List.map_cons, ← List.length_nil (α := UInt8), contents_eq hs']
      rfl
  | cons q qs =>
    rw [List.intercalate_cons_cons] at hs
    have hs' : s = [] ++ p ++ d :: List.intercalate [d] (q :: qs) := by
      rw [hs, List.append_assoc]
      rfl
    have hrest : (S.tokens .start ([] ++ p).length).map (contents s) = q :: qs := by
      rw [h.tokens_start_of_delimiter hs']
      exact h.map_tokens_passed (by rw [hs', List.append_assoc _ [d]]; rfl)
        fun r hr => hd r (List.mem_cons_of_mem p hr)
    by_cases hp : p = []
    · rw [if_pos hp, ← hrest, hp]
      rfl
    · obtain ⟨hlt, hfirst⟩ := h.delimiterOffset_of_ne_nil hs' hmem hp
      have htoken := h.tokens_token hs' hmem (.inr ⟨_, rfl⟩)
      rw [List.length_nil] at hlt hfirst htoken
      rw [if_neg hp, tokens_start_of_opens hlt hfirst, htoken, List.map_cons, hrest,
        ← List.length_nil (α := UInt8), contents_eq hs']

end Scan.SplitsAt

namespace MethodSplitter

/-- `set_delimiter_char(d)` and `set_empty_delimitations(true)`. -/
def columns (d escape : UInt8) : MethodSplitter :=
  { delimiter := [d], emptyDelimitations := true, escapeChar := escape }

theorem columns_splitsAt (d escape : UInt8) (s : List UInt8) :
    ((columns d escape).scan s s.length).SplitsAt s d where
  size := rfl
  emptyDelimitations := rfl
  enclosure i := by
    change Str.stoppingEncloseIndex (Str.cString s) i [] escape = .notOpened
    unfold Str.stoppingEncloseIndex
    split
    · rfl
    · rw [List.contains_nil, if_pos rfl]
  delimiterOffset := by
    rintro x c y rfl
    change (columns d escape).getDelimiterOffset ((x ++ c :: y).drop x.length) = _
    rw [List.drop_left]
    by_cases hc : c = d
    · simp [getDelimiterOffset, columns, Str.strncmpEqual, hc]
    · simp [getDelimiterOffset, columns, Str.strncmpEqual, hc]

/-- The strings that were joined are split again, without an empty one at the
start. -/
theorem split_columns_intercalate (d escape : UInt8) {l : List (List UInt8)} (hne : l ≠ [])
    (hd : ∀ p ∈ l, d ∉ p) :
    (columns d escape).split (List.intercalate [d] l) (List.intercalate [d] l).length =
      if l.head hne = [] then l.tail else l := by
  obtain ⟨p, ps, rfl⟩ := List.exists_cons_of_ne_nil hne
  rw [split, splitView_of_hasDelimiter (.inl (by simp [columns]))]
  exact (columns_splitsAt d escape _).map_tokens_start rfl hd

/-- The strings `a`, an empty one, `b` and an empty one. -/
theorem split_columns_intercalate_commas :
    (columns 44 Str.backslash).split [97, 44, 44, 98, 44] 5 = [[97], [], [98], []] :=
  split_columns_intercalate 44 Str.backslash (l := [[97], [], [98], []]) (by decide) (by decide)

/-- An empty string before `a` is lost. -/
theorem split_columns_intercalate_ne :
    (columns 44 Str.backslash).split (List.intercalate [44] [[], [97]]) 2 ≠ [[], [97]] := by
  decide +kernel

end MethodSplitter

end Sihd.Util
