import Sihd.Util.Splitter.Definitions

/-!
# The tokens of a splitter are the pieces of a scanner

A splitter with one delimiter character and the enclosure `"` cuts its string
at the delimiters that have an even number of toggling quotes before them: the
quotes that open or close an enclosure. With `set_empty_delimitations` all
pieces are tokens, but for an empty piece before a delimiter at the start; else
the pieces that are not empty.
-/

namespace Sihd.Util.Splitter

open Str

/-- The quotes that open or close an enclosure. -/
def toggles (s : List UInt8) (escape : UInt8) (i : Nat) : Bool :=
  s[i]? == some quote && !isAnEscape s i quote escape && !isEscapedChar s i escape

theorem stoppingEncloseIndex_of_not_toggles {s : List UInt8} {escape : UInt8} {i : Nat}
    (h : toggles s escape i = false) :
    stoppingEncloseIndex s i [quote] escape = .notOpened := by
  unfold stoppingEncloseIndex
  split
  · rfl
  · rename_i c hc
    split
    · rfl
    · rename_i hquote
      obtain rfl : c = quote := by simpa using hquote
      have hstop : stoppingEncloseOf quote = some quote := by decide
      rw [hstop]
      dsimp only
      rw [if_pos]
      rw [toggles, hc] at h
      cases h₁ : isAnEscape s i quote escape <;> cases h₂ : isEscapedChar s i escape <;>
        simp_all

theorem stoppingEncloseIndex_of_toggles {s : List UInt8} {escape : UInt8} {i : Nat}
    (h : toggles s escape i = true) :
    stoppingEncloseIndex s i [quote] escape =
      match (List.range' (i + 1) (s.length - (i + 1))).find? (toggles s escape) with
      | none => .neverEnds
      | some j => .closedAt (j + 1) := by
  simp only [toggles, Bool.and_eq_true, beq_iff_eq, Bool.not_eq_true'] at h
  have hstop : stoppingEncloseOf quote = some quote := by decide
  unfold stoppingEncloseIndex
  rw [h.1.1]
  dsimp only
  rw [if_neg (by simp), hstop]
  dsimp only
  rw [if_neg (by simp [h.1.2, h.2])]
  rfl

/-! ## The scanner of the positions -/

/-- The characters from an index to another. -/
def segment (s : List UInt8) (i j : Nat) : List UInt8 := (s.drop i).take (j - i)

/-- The scanner of a string that goes through its indices, with the state of
the enclosure. -/
def positions (s : List UInt8) (escape d : UInt8) : Scanner (Nat × Bool) UInt8 where
  step state _ := (state.1 + 1, xor state.2 (toggles s escape state.1))
  cut state c := c == d && !state.2

/-- The state tells the index and whether the quotes that toggle were odd. -/
theorem positions_run (s : List UInt8) (escape d : UInt8) (i : Nat) (x : List UInt8) :
    (positions s escape d).run (i, false) x =
      (i + x.length, decide
        ((List.range x.length).countP (fun j => toggles s escape (i + j)) % 2 = 1)) := by
  induction x using List.reverseRecOn with
  | nil => rfl
  | append_singleton x c ih =>
    rw [Scanner.run_append, ih, Scanner.run_cons, Scanner.run_nil, List.length_append,
      List.length_singleton, List.range_succ, List.countP_append, List.countP_singleton]
    change (_, _) = (_, _)
    refine congrArg (Prod.mk (i + (x.length + 1))) ?_
    cases htoggles : toggles s escape (i + x.length) with
    | false => simp
    | true =>
      simp only [Bool.xor_true, ↓reduceIte]
      rw [← decide_not, decide_eq_decide]
      omega

theorem positions_cutsAt (s : List UInt8) (escape d : UInt8) :
    (positions s escape d).CutsAt d := by
  intro state c h
  simp only [positions, Bool.and_eq_true, beq_iff_eq] at h
  exact h.1

theorem segment_self (s : List UInt8) (i : Nat) : segment s i i = [] := by
  simp [segment]

theorem segment_append (s : List UInt8) {i j k : Nat} (hij : i ≤ j) (hjk : j ≤ k) :
    segment s i j ++ segment s j k = segment s i k := by
  have hk : k - i = (j - i) + (k - j) := by omega
  have hj : i + (j - i) = j := by omega
  rw [segment, segment, segment, hk, List.take_add, List.drop_drop, hj]

theorem segment_succ {s : List UInt8} {i : Nat} {c : UInt8} (h : s[i]? = some c) :
    segment s i (i + 1) = [c] := by
  have hi : i + 1 - i = 1 := by omega
  rw [segment, hi, List.take_one, List.head?_drop, h]
  rfl

theorem segment_length (s : List UInt8) (i : Nat) : segment s i s.length = s.drop i := by
  rw [segment, List.take_of_length_le (by simp)]

theorem getElem?_of_lt {s : List UInt8} {i : Nat} (h : i < s.length) : ∃ c, s[i]? = some c :=
  ⟨s[i], List.getElem?_eq_getElem h⟩

/-- The scanner goes from `state` to `state'` without a cut. -/
def Goes (s : List UInt8) (escape d : UInt8) (i j : Nat) (inside inside' : Bool) : Prop :=
  i ≤ j ∧ (positions s escape d).Uncut (i, inside) (segment s i j) ∧
    (positions s escape d).run (i, inside) (segment s i j) = (j, inside')

variable {s : List UInt8} {escape d : UInt8} {i j k : Nat} {b b' b'' : Bool}

theorem Goes.refl : Goes s escape d i i b b := by
  refine ⟨le_rfl, ?_, ?_⟩
  · rw [segment_self]
    exact Scanner.uncut_nil _ _
  · rw [segment_self, Scanner.run_nil]

theorem Goes.trans (h : Goes s escape d i j b b') (h' : Goes s escape d j k b' b'') :
    Goes s escape d i k b b'' := by
  obtain ⟨hij, huncut, hrun⟩ := h
  obtain ⟨hjk, huncut', hrun'⟩ := h'
  refine ⟨hij.trans hjk, ?_, ?_⟩
  · rw [← segment_append s hij hjk, Scanner.uncut_append, hrun]
    exact ⟨huncut, huncut'⟩
  · rw [← segment_append s hij hjk, Scanner.run_append, hrun, hrun']

theorem Goes.step {c : UInt8} (hc : s[i]? = some c) (hcut : c = d → b = true) :
    Goes s escape d i (i + 1) b (xor b (toggles s escape i)) := by
  refine ⟨Nat.le_succ i, ?_, ?_⟩
  · rw [segment_succ hc, Scanner.uncut_cons]
    refine ⟨?_, Scanner.uncut_nil _ _⟩
    by_cases hd : c = d
    · simp [positions, hcut hd]
    · simp [positions, hd]
  · rw [segment_succ hc]
    rfl

/-- Inside an enclosure, up to the next quote that toggles. -/
theorem Goes.inside (hij : i ≤ j) (hj : j ≤ s.length)
    (h : ∀ k, i ≤ k → k < j → toggles s escape k = false) :
    Goes s escape d i j true true := by
  induction j, hij using Nat.le_induction with
  | base => exact Goes.refl
  | succ j hij ih =>
    obtain ⟨c, hc⟩ := getElem?_of_lt (s := s) (i := j) (by omega)
    have hstep := @Goes.step s escape d j true c hc fun _ => rfl
    rw [h j hij (Nat.lt_succ_self j), Bool.xor_false] at hstep
    exact (ih (by omega) fun k hk hkj => h k hk (by omega)).trans hstep

/-! ## The end of a token -/

section Char

variable {sp : Splitter}

/-- A splitter with one delimiter character and the enclosure `"`. -/
structure EnclosesQuotes (sp : Splitter) (escape d : UInt8) : Prop where
  escapeChar : sp.escapeChar = escape
  delimiter : sp.delimiter = [d]
  openEscapeSequences : sp.openEscapeSequences = [quote]

/-- No delimiter of the string opens or closes an enclosure. -/
structure CutsAtChar (sp : Splitter) (s : List UInt8) (escape d : UInt8) : Prop
    extends EnclosesQuotes sp escape d where
  not_toggles : ∀ i, s[i]? = some d → toggles s escape i = false

theorem not_toggles_of_ne (hd : d ≠ quote) (s : List UInt8) (escape : UInt8) (i : Nat)
    (h : s[i]? = some d) : toggles s escape i = false := by
  simp [toggles, h, hd]

theorem EnclosesQuotes.offset_pos_iff (h : EnclosesQuotes sp escape d) :
    0 < sp.getDelimiterOffset s i ↔ s[i]? = some d := by
  rw [getDelimiterOffset, h.delimiter, ← List.head?_drop]
  cases s.drop i with
  | nil => simp
  | cons c l =>
    by_cases hc : d = c
    · simp [List.isPrefixOf, hc]
    · simp [List.isPrefixOf, hc, Ne.symm hc]

theorem CutsAtChar.ne_of_toggles (h : CutsAtChar sp s escape d)
    (htoggles : toggles s escape i = true) : quote ≠ d := by
  rintro rfl
  simp only [toggles, Bool.and_eq_true, beq_iff_eq] at htoggles
  have hnot := h.not_toggles i htoggles.1.1
  simp [toggles, htoggles] at hnot

theorem getElem?_of_toggles (h : toggles s escape i = true) : s[i]? = some quote := by
  simp only [toggles, Bool.and_eq_true, beq_iff_eq] at h
  exact h.1.1

theorem Goes.opens (h : CutsAtChar sp s escape d) (htoggles : toggles s escape i = true) :
    Goes s escape d i (i + 1) false true := by
  have hstep := @Goes.step s escape d i false quote
    (getElem?_of_toggles htoggles) fun hd => absurd hd (h.ne_of_toggles htoggles)
  rwa [htoggles] at hstep

theorem Goes.closes (h : CutsAtChar sp s escape d) (htoggles : toggles s escape i = true) :
    Goes s escape d i (i + 1) true false := by
  have hstep := @Goes.step s escape d i true quote
    (getElem?_of_toggles htoggles) fun hd => absurd hd (h.ne_of_toggles htoggles)
  rwa [htoggles] at hstep

/-- The end of a token: the next delimiter that is not enclosed, or the end of
the string. -/
structure EndsAt (s : List UInt8) (escape d : UInt8) (i y : Nat) : Prop where
  le : y ≤ s.length
  uncut : ∃ b, Goes s escape d i y false b ∧ (y < s.length → s[y]? = some d ∧ b = false)

theorem endsAt_endOfToken (h : CutsAtChar sp s escape d) (hi : i ≤ s.length) :
    EndsAt s escape d i ((sp.endOfToken s s.length i).getD s.length) := by
  fun_induction endOfToken sp s s.length i with
  | case1 i hi' closedAt hclosed ih =>
    rw [h.openEscapeSequences, h.escapeChar] at hclosed
    have htoggles : toggles s escape i = true := by
      by_contra hn
      rw [stoppingEncloseIndex_of_not_toggles (by simpa using hn)] at hclosed
      cases hclosed
    rw [stoppingEncloseIndex_of_toggles htoggles] at hclosed
    split at hclosed
    · cases hclosed
    · rename_i j hj
      cases hclosed
      have hmem := List.mem_of_find?_eq_some hj
      rw [List.mem_range'_1] at hmem
      have hnext : Goes s escape d i (j + 1) false false := by
        have hinside := @Goes.inside s escape d (i + 1) j (by omega) (by omega)
          fun k hk hkj => by
            simpa using (List.find?_range'_eq_some.mp hj).2.2 k hk hkj
        exact (Goes.opens h htoggles).trans (hinside.trans (Goes.closes h (List.find?_some hj)))
      obtain ⟨hle, b, hgoes, hend⟩ := ih (by omega)
      exact ⟨hle, b, hnext.trans hgoes, hend⟩
  | case2 i hi' hnever =>
    rw [h.openEscapeSequences, h.escapeChar] at hnever
    have htoggles : toggles s escape i = true := by
      by_contra hn
      rw [stoppingEncloseIndex_of_not_toggles (by simpa using hn)] at hnever
      cases hnever
    rw [stoppingEncloseIndex_of_toggles htoggles] at hnever
    split at hnever
    · rename_i hnone
      rw [List.find?_eq_none] at hnone
      have hinside := @Goes.inside s escape d (i + 1) s.length (by omega) le_rfl
        fun k hk hkj => by
          simpa using hnone k (List.mem_range'_1.mpr (by omega))
      exact ⟨le_rfl, true, (Goes.opens h htoggles).trans hinside,
        fun hlt => absurd hlt (lt_irrefl _)⟩
    · cases hnever
  | case3 i hi' hnot hdelim =>
    exact ⟨hi, false, Goes.refl, fun _ => ⟨h.offset_pos_iff.mp hdelim, rfl⟩⟩
  | case4 i hi' hnot hdelim ih =>
    obtain ⟨c, hc⟩ := getElem?_of_lt hi'
    have htoggles : toggles s escape i = false := by
      by_contra hn
      rw [h.openEscapeSequences, h.escapeChar,
        stoppingEncloseIndex_of_toggles (by simpa using hn)] at hnot
      split at hnot <;> cases hnot
    have hstep := @Goes.step s escape d i false c hc fun hd =>
      absurd (h.offset_pos_iff.mpr (hd ▸ hc)) hdelim
    rw [htoggles, Bool.xor_false] at hstep
    obtain ⟨hle, b, hgoes, hend⟩ := ih (by omega)
    exact ⟨hle, b, hstep.trans hgoes, hend⟩
  | case5 i hi' =>
    obtain rfl : i = s.length := by omega
    exact ⟨le_rfl, false, Goes.refl, fun hlt => absurd hlt (lt_irrefl _)⟩

/-! ## The pieces from an index -/

/-- The pieces of the string from an index that is not enclosed. -/
def piecesFrom (s : List UInt8) (escape d : UInt8) (i : Nat) : List (List UInt8) :=
  (positions s escape d).pieces (i, false) (s.drop i)

theorem EndsAt.piecesFrom_eq {y : Nat} (h : CutsAtChar sp s escape d)
    (hend : EndsAt s escape d i y) :
    piecesFrom s escape d i =
      segment s i y :: if y < s.length then piecesFrom s escape d (y + 1) else [] := by
  obtain ⟨hle, b, ⟨hiy, huncut, hrun⟩, hy⟩ := hend
  unfold piecesFrom
  by_cases hlt : y < s.length
  · obtain ⟨hd, rfl⟩ := hy hlt
    have hdrop : s.drop i = segment s i y ++ d :: s.drop (y + 1) := by
      rw [← segment_length, ← segment_append s hiy hle, segment_length,
        ← List.getElem_cons_drop hlt, List.getElem_eq_iff hlt |>.mpr hd]
    rw [if_pos hlt, hdrop, Scanner.pieces_append _ _ huncut (by rw [hrun]; simp [positions]), hrun]
    simp [positions, h.not_toggles y hd]
  · obtain rfl : y = s.length := by omega
    rw [if_neg hlt, ← segment_length, Scanner.pieces_of_uncut _ huncut]

theorem piecesFrom_delimiter (h : CutsAtChar sp s escape d) (hd : s[i]? = some d) :
    piecesFrom s escape d i = [] :: piecesFrom s escape d (i + 1) := by
  have hlt : i < s.length := (List.getElem?_eq_some_iff.mp hd).1
  have hend : EndsAt s escape d i i := ⟨hlt.le, false, Goes.refl, fun _ => ⟨hd, rfl⟩⟩
  rw [hend.piecesFrom_eq h, if_pos hlt, segment_self]

theorem piecesFrom_length : piecesFrom s escape d s.length = [[]] := by
  rw [piecesFrom, List.drop_length, Scanner.pieces]

/-- The delimiters that `count_tokens` passes have empty pieces between them. -/
theorem passDelimiters_spec (h : CutsAtChar sp s escape d) (hi : i ≤ s.length) (count : Nat) :
    let x := (sp.passDelimiters s s.length i count).1
    let n := (sp.passDelimiters s s.length i count).2
    i ≤ x ∧ x ≤ s.length ∧ n = count + (x - i) ∧ s[x]? ≠ some d ∧
      piecesFrom s escape d i = List.replicate (x - i) [] ++ piecesFrom s escape d x := by
  fun_induction passDelimiters sp s s.length i count with
  | case1 i count hdelim ih =>
    have hoffset : sp.getDelimiterOffset s i = 1 := by
      have hprefix := hdelim.2
      unfold getDelimiterOffset at hprefix ⊢
      split at hprefix
      · rename_i hpre
        rw [if_pos hpre, h.delimiter]
        rfl
      · omega
    rw [hoffset] at ih ⊢
    obtain ⟨hle, hx, hn, hne, hpieces⟩ := ih (by omega)
    refine ⟨by omega, hx, by omega, hne, ?_⟩
    rw [piecesFrom_delimiter h (h.offset_pos_iff.mp hdelim.2), hpieces, ← List.cons_append,
      ← List.replicate_succ]
    congr 2
    omega
  | case2 i count hdelim =>
    refine ⟨le_rfl, hi, by omega, fun hd => hdelim ⟨?_, h.offset_pos_iff.mpr hd⟩, by simp⟩
    exact (List.getElem?_eq_some_iff.mp hd).1

theorem offset_eq_one (h : CutsAtChar sp s escape d) (hd : s[i]? = some d) :
    sp.getDelimiterOffset s i = 1 := by
  have hpos := h.offset_pos_iff.mpr hd
  unfold getDelimiterOffset at hpos ⊢
  split at hpos
  · rename_i hprefix
    rw [if_pos hprefix, h.delimiter]
    rfl
  · omega

theorem countTokensFrom_length : sp.countTokensFrom s s.length s.length = 0 := by
  rw [countTokensFrom, dif_neg (lt_irrefl _)]

/-- The pieces after a token are those after the delimiter that ends it. -/
theorem piecesFrom_tail_of_endOfToken (h : CutsAtChar sp s escape d) {x y : Nat}
    (hx : x ≤ s.length) (hy : sp.endOfToken s s.length x = some y) :
    y ≤ s.length ∧ piecesFrom s escape d x = segment s x y :: (piecesFrom s escape d x).tail ∧
      (y < s.length → s[y]? = some d ∧
        (piecesFrom s escape d x).tail = piecesFrom s escape d (y + 1)) ∧
      (y = s.length → (piecesFrom s escape d x).tail = []) := by
  have hend := endsAt_endOfToken h hx
  rw [hy, Option.getD_some] at hend
  have hpieces := hend.piecesFrom_eq h
  obtain ⟨hle, b, hgoes, hyd⟩ := hend
  refine ⟨hle, by rw [hpieces, List.tail_cons], fun hlt => ⟨(hyd hlt).1, ?_⟩, fun heq => ?_⟩
  · rw [hpieces, List.tail_cons, if_pos hlt]
  · rw [hpieces, List.tail_cons, if_neg (by omega)]

theorem piecesFrom_of_endOfToken_none (h : CutsAtChar sp s escape d) {x : Nat}
    (hx : x ≤ s.length) (hy : sp.endOfToken s s.length x = none) :
    piecesFrom s escape d x = [segment s x s.length] := by
  have hend := endsAt_endOfToken h hx
  rw [hy, Option.getD_none] at hend
  rw [hend.piecesFrom_eq h, if_neg (lt_irrefl _)]

/-! ## Tokens with empty delimitations -/

/-- One round of `count_tokens`, with the tokens that it counts from the end of
the next one on. -/
theorem countTokensFrom_round (h : CutsAtChar sp s escape d)
    (hempty : sp.emptyDelimitations = true) (hi : i < s.length)
    (ih : ∀ y, i < y → y < s.length → s[y]? = some d →
      sp.countTokensFrom s s.length y = (piecesFrom s escape d (y + 1)).length) :
    sp.countTokensFrom s s.length i =
      ((sp.passDelimiters s s.length i 0).2 - 1) +
        (piecesFrom s escape d (sp.passDelimiters s s.length i 0).1).length := by
  obtain ⟨hix, hx, hcount, -, -⟩ := passDelimiters_spec h hi.le 0
  have htoken : (if (sp.passDelimiters s s.length i 0).1 < s.length ∨
      sp.emptyDelimitations = true ∧ 0 < (sp.passDelimiters s s.length i 0).2
      then 1 else 0) = 1 := by
    refine if_pos ?_
    by_cases hlt : (sp.passDelimiters s s.length i 0).1 < s.length
    · exact .inl hlt
    · exact .inr ⟨hempty, by omega⟩
  rw [countTokensFrom_of_lt sp s hi, htoken, if_pos hempty, Nat.add_assoc]
  congr 1
  cases hy : sp.endOfToken s s.length (sp.passDelimiters s s.length i 0).1 with
  | none =>
    rw [piecesFrom_of_endOfToken_none h hx hy]
    rfl
  | some y =>
    obtain ⟨hle, hcons, hlt, heq⟩ := piecesFrom_tail_of_endOfToken h hx hy
    rw [hcons, List.length_cons, Option.elim_some, Nat.add_comm]
    congr 1
    rcases Nat.lt_or_eq_of_le hle with hylt | rfl
    · obtain ⟨hyd, htail⟩ := hlt hylt
      rw [ih y (lt_of_endOfToken_passDelimiters hi hy) hylt hyd, htail]
    · rw [countTokensFrom_length, heq rfl, List.length_nil]

/-- The tokens from a delimiter on are the pieces after it. -/
theorem countTokensFrom_delimiter (h : CutsAtChar sp s escape d)
    (hempty : sp.emptyDelimitations = true) (hd : s[i]? = some d) :
    sp.countTokensFrom s s.length i = (piecesFrom s escape d (i + 1)).length := by
  induction hn : s.length - i using Nat.strong_induction_on generalizing i with
  | _ n ih =>
    have hi : i < s.length := (List.getElem?_eq_some_iff.mp hd).1
    obtain ⟨hix, hx, hcount, hne, hpieces⟩ := passDelimiters_spec h hi.le 0
    have hround := countTokensFrom_round h hempty hi fun y hiy hylt hyd =>
      ih (s.length - y) (by omega) hyd rfl
    have hlen := congrArg List.length hpieces
    rw [piecesFrom_delimiter h hd, List.length_cons, List.length_append,
      List.length_replicate] at hlen
    have hne' : i ≠ (sp.passDelimiters s s.length i 0).1 := fun heq => hne (heq ▸ hd)
    omega

theorem countTokens_eq (h : CutsAtChar sp s escape d) (hempty : sp.emptyDelimitations = true)
    (hd : s[0]? ≠ some d) (hs : s ≠ []) :
    sp.countTokens s s.length = (piecesFrom s escape d 0).length := by
  have hpass := @passDelimiters_eq_self sp s s.length 0 0
    fun hdelim => hd (h.offset_pos_iff.mp hdelim.2)
  have hround := countTokensFrom_round (i := 0) h hempty (List.length_pos_of_ne_nil hs)
    fun y _ _ hyd => countTokensFrom_delimiter h hempty hyd
  rw [hpass] at hround
  simpa [countTokens] using hround

/-- The characters of a token. -/
def text (s : List UInt8) (token : Nat × Nat) : List UInt8 := (s.drop token.1).take token.2

theorem skipDelimiters_of_not {start x : Nat} (h : CutsAtChar sp s escape d)
    (hd : s[x]? ≠ some d) : sp.skipDelimiters s s.length start x = (x, false) := by
  rw [skipDelimiters, dif_neg fun hdelim => hd (h.offset_pos_iff.mp hdelim.2)]

/-- From a delimiter, the next token is the first piece after it. -/
theorem nextToken_delimiter (h : CutsAtChar sp s escape d) (hempty : sp.emptyDelimitations = true)
    (hd : s[i]? = some d) :
    let r := sp.nextToken s s.length i
    piecesFrom s escape d (i + 1) = text s r.1 ::
        (if r.2 < s.length then piecesFrom s escape d (r.2 + 1) else []) ∧
      (r.2 < s.length → s[r.2]? = some d) := by
  have hi : i < s.length := (List.getElem?_eq_some_iff.mp hd).1
  have hskip : sp.skipDelimiters s s.length i i = sp.skipDelimiters s s.length i (i + 1) := by
    rw [skipDelimiters, dif_pos ⟨hi, h.offset_pos_iff.mpr hd⟩, if_neg (by simp),
      offset_eq_one h hd]
  unfold nextToken
  rw [hskip]
  by_cases hd' : s[i + 1]? = some d
  · have hi' : i + 1 < s.length := (List.getElem?_eq_some_iff.mp hd').1
    rw [skipDelimiters, dif_pos ⟨hi', h.offset_pos_iff.mpr hd'⟩, if_pos ⟨hempty, by omega⟩]
    dsimp only
    rw [if_pos rfl, piecesFrom_delimiter h hd', if_pos hi']
    exact ⟨by simp [text], fun _ => hd'⟩
  · rw [skipDelimiters_of_not h hd']
    have hend := endsAt_endOfToken (i := i + 1) h hi
    refine ⟨hend.piecesFrom_eq h, fun hlt => ?_⟩
    obtain ⟨-, b, -, hy⟩ := hend
    exact (hy hlt).1

/-- The tokens after a delimiter are the pieces after it. -/
theorem tokensFrom_delimiter (h : CutsAtChar sp s escape d)
    (hempty : sp.emptyDelimitations = true) {n : Nat} :
    {i : Nat} → s[i]? = some d → n ≤ (piecesFrom s escape d (i + 1)).length →
      (sp.tokensFrom s s.length n i).map (text s) = (piecesFrom s escape d (i + 1)).take n := by
  induction n with
  | zero => exact fun _ _ => rfl
  | succ n ih =>
    intro i hd hn
    obtain ⟨hpieces, hnext⟩ := nextToken_delimiter h hempty hd
    rw [tokensFrom, List.map_cons, hpieces, List.take_succ_cons]
    congr 1
    rw [hpieces, List.length_cons] at hn
    split
    · rename_i hlt
      rw [if_pos hlt] at hn
      exact ih (hnext hlt) (by omega)
    · rename_i hlt
      rw [if_neg hlt, List.length_nil] at hn
      obtain rfl : n = 0 := by omega
      rfl

/-- The tokens of a string, with empty delimitations: the pieces of the string
without the empty one before a delimiter at its start. -/
theorem split_eq (h : CutsAtChar sp s escape d) (hempty : sp.emptyDelimitations = true)
    (hs : s ≠ []) :
    sp.split s s.length =
      if s[0]? = some d then (piecesFrom s escape d 0).tail else piecesFrom s escape d 0 := by
  have hsplit : sp.split s s.length =
      (sp.tokensFrom s s.length (sp.countTokens s s.length) 0).map (text s) := by
    rw [split, splitView, h.delimiter, if_neg (by simp)]
    rfl
  rw [hsplit]
  split
  · rename_i hd
    rw [countTokens, countTokensFrom_delimiter h hempty hd,
      tokensFrom_delimiter h hempty hd le_rfl, List.take_length, piecesFrom_delimiter h hd,
      List.tail_cons]
  · rename_i hd
    have hend := endsAt_endOfToken (i := 0) h (Nat.zero_le s.length)
    have hpieces := hend.piecesFrom_eq h
    rw [countTokens_eq h hempty hd hs, hpieces, List.length_cons, tokensFrom, List.map_cons]
    have htoken : sp.nextToken s s.length 0 =
        ((0, (sp.endOfToken s s.length 0).getD s.length - 0),
          (sp.endOfToken s s.length 0).getD s.length) := by
      rw [nextToken, skipDelimiters_of_not h hd]
      rfl
    rw [htoken]
    congr 1
    split
    · rename_i hlt
      obtain ⟨-, b, -, hy⟩ := hend
      rw [tokensFrom_delimiter h hempty (hy hlt).1 le_rfl, List.take_length]
    · rfl

/-! ## A delimiter that encloses -/

end Char

end Sihd.Util.Splitter
