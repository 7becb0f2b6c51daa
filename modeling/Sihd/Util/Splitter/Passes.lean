import Mathlib.Order.Bounds.Basic
import Sihd.Util.Splitter.Scan

/-!
# The counting pass and the tokenising pass agree

The calls of `next_token` return the tokens that the machine emits, one a call,
until the view is consumed; `count_tokens` is their number, so that it is also
the number of the calls. Without empty delimitations, a view is consumed as
soon as there are only delimiters left.
-/

namespace Sihd.Util.Scan

variable {S : Scan} {phase : Phase} {i x y : Nat}

theorem tokens_start_of_le (hi : S.size ≤ i) : S.tokens .start i = [] :=
  tokens_of_next_none (next_of_le hi)

/-- A token goes to its end, and to the end of the view when an enclosure never
ends. -/
theorem tokens_token (x i : Nat) :
    S.tokens (.token x) i =
      (x, (S.endOfToken i).getD S.size - x) ::
        S.tokens .start ((S.endOfToken i).getD S.size) := by
  fun_induction endOfToken S i with
  | case1 i hi closedAt h ih =>
    rw [tokens_of_step (.encloses hi h), ih]
    simp only [emitted, if_pos hi, h, List.nil_append]
  | case2 i hi h =>
    rw [tokens_of_next_none (next_of_neverEnds h), Option.getD_none,
      tokens_start_of_le le_rfl]
    simp only [emitted, if_pos hi, h]
  | case3 i hi h hdelim =>
    rw [tokens_of_step (.ends hi h hdelim), Option.getD_some]
    simp only [emitted, if_pos hi, h, if_pos hdelim, List.singleton_append]
  | case4 i hi h hdelim ih =>
    rw [tokens_of_step (.char hi h (Nat.eq_zero_of_not_pos hdelim)), ih]
    simp only [emitted, if_pos hi, h, if_neg hdelim, List.nil_append]
  | case5 i hi =>
    rw [tokens_of_next_none (next_of_le (Nat.not_lt.mp hi)), Option.getD_some,
      tokens_start_of_le (Nat.not_lt.mp hi)]
    simp only [emitted, if_neg hi]

theorem tokens_start_of_delimiter (hi : i < S.size) (hdelim : 0 < S.delimiterOffset i) :
    S.tokens .start i = S.tokens .passed (i + S.delimiterOffset i) :=
  tokens_of_step (.delimiter (fun x => by simp) hi hdelim)

theorem tokens_start_of_opens (hi : i < S.size) (hdelim : S.delimiterOffset i = 0) :
    S.tokens .start i = S.tokens (.token i) i :=
  tokens_of_step (.opens (fun x => by simp) hi hdelim)

/-! ## Without empty delimitations -/

section Filled

variable (hfilled : S.emptyDelimitations = false)

include hfilled

theorem tokens_eq_of_filled (hphase : ∀ x, phase ≠ .token x) (i count : Nat) :
    S.tokens phase i =
      if (S.passDelimiters i count).1 < S.size then
        S.tokens (.token (S.passDelimiters i count).1) (S.passDelimiters i count).1
      else [] := by
  have hemitted : ∀ {phase} {i}, (∀ x, phase ≠ .token x) → S.emitted phase i = [] := by
    intro phase i hphase
    cases phase with
    | start => rfl
    | passed => simp [emitted, hfilled]
    | token x => exact absurd rfl (hphase x)
  fun_induction passDelimiters S i count generalizing phase with
  | case1 i count h ih =>
    rw [tokens_of_step (.delimiter hphase h.1 h.2), hemitted hphase, List.nil_append]
    exact ih fun x => by simp
  | case2 i count h =>
    by_cases hi : i < S.size
    · have hdelim : S.delimiterOffset i = 0 := Nat.eq_zero_of_not_pos fun hd => h ⟨hi, hd⟩
      rw [tokens_of_step (.opens hphase hi hdelim), hemitted hphase, if_pos hi]
      rfl
    · rw [tokens_of_next_none (next_of_le (Nat.not_lt.mp hi)), hemitted hphase, if_neg hi]

theorem skipDelimiters_of_filled (start i count : Nat) :
    S.skipDelimiters start i = ((S.passDelimiters i count).1, false) := by
  fun_induction passDelimiters S i count with
  | case1 i count h ih =>
    rw [skipDelimiters, dif_pos h, if_neg (by simp [hfilled]), ih]
  | case2 i count h => rw [skipDelimiters, dif_neg h]

end Filled

/-! ## With empty delimitations -/

section Empty

variable (hempty : S.emptyDelimitations = true)

include hempty

theorem tokens_passed_of_delimiter (hi : i < S.size) (hdelim : 0 < S.delimiterOffset i) :
    S.tokens .passed i = (i, 0) :: S.tokens .start i := by
  rw [tokens_of_step (.delimiter (fun x => by simp) hi hdelim),
    tokens_start_of_delimiter hi hdelim, emitted, if_pos ⟨hempty, fun _ => hdelim⟩]
  rfl

/-- After a delimiter that no other one follows there is a token, which is
empty at the end of the view. -/
theorem tokens_passed_of_not_delimiter (h : ¬ (i < S.size ∧ 0 < S.delimiterOffset i)) :
    S.tokens .passed i = S.tokens (.token i) i := by
  by_cases hi : i < S.size
  · have hdelim : S.delimiterOffset i = 0 := Nat.eq_zero_of_not_pos fun hd => h ⟨hi, hd⟩
    rw [tokens_of_step (.opens (fun x => by simp) hi hdelim), emitted,
      if_neg fun hemits => h ⟨hi, hemits.2 hi⟩]
    rfl
  · rw [tokens_of_next_none (next_of_le (Nat.not_lt.mp hi)), tokens_of_next_none
      (next_of_le (Nat.not_lt.mp hi)), emitted, if_pos ⟨hempty, fun hlt => absurd hlt hi⟩, emitted,
      if_neg hi, Nat.sub_self]

theorem length_tokens_passed (i count : Nat) :
    (S.tokens .passed i).length + count =
      (S.passDelimiters i count).2 +
        (S.tokens (.token (S.passDelimiters i count).1) (S.passDelimiters i count).1).length := by
  fun_induction passDelimiters S i count with
  | case1 i count h ih =>
    rw [tokens_passed_of_delimiter hempty h.1 h.2, tokens_start_of_delimiter h.1 h.2, ← ih,
      List.length_cons]
    omega
  | case2 i count h =>
    rw [tokens_passed_of_not_delimiter hempty h, Nat.add_comm]

end Empty

/-! ## The two passes -/

theorem length_tokens_token (x : Nat) :
    (S.tokens (.token x) x).length =
      1 + (S.endOfToken x).elim 0 fun y => (S.tokens .start y).length := by
  rw [tokens_token, List.length_cons, Nat.add_comm]
  cases S.endOfToken x with
  | none => rw [Option.getD_none, tokens_start_of_le le_rfl]; rfl
  | some y => rfl

theorem mem_tokens_token (x i : Nat) :
    (x, (S.endOfToken i).getD S.size - x) ∈ S.tokens (.token x) i := by
  rw [tokens_token]
  exact List.mem_cons_self

/-- With empty delimitations, a delimiter that goes on after the view puts an
empty token there. -/
theorem exists_mem_tokens_of_delimiter (hempty : S.emptyDelimitations = true)
    (hphase : ∀ x, phase ≠ .token x) (hi : i < S.size) (hdelim : S.size < i + S.delimiterOffset i) :
    ∃ token ∈ S.tokens phase i, S.size < token.1 + token.2 := by
  rw [tokens_of_step (.delimiter hphase hi (by omega)),
    tokens_passed_of_not_delimiter hempty fun h => by omega]
  refine ⟨_, List.mem_append_right _ (mem_tokens_token _ _), ?_⟩
  exact hdelim.trans_le (Nat.le_add_right _ _)

theorem le_passDelimiters_count (S : Scan) (i count : Nat) :
    count ≤ (S.passDelimiters i count).2 := by
  fun_induction passDelimiters S i count with
  | case1 i count h ih => omega
  | case2 i count h => exact le_rfl

/-- `count_tokens` counts the tokens. -/
theorem length_tokens (S : Scan) (i : Nat) :
    (S.tokens .start i).length = S.countTokensFrom i := by
  induction hn : S.size - i using Nat.strong_induction_on generalizing i with
  | _ n ih =>
    by_cases hi : i < S.size
    · -- the tokens after the first end of a token
      have hrest : (S.endOfToken (S.passDelimiters i 0).1).elim 0 S.countTokensFrom =
          (S.endOfToken (S.passDelimiters i 0).1).elim 0 fun y =>
            (S.tokens .start y).length := by
        cases hy : S.endOfToken (S.passDelimiters i 0).1 with
        | none => rfl
        | some y =>
          have hlt := lt_of_endOfToken_passDelimiters hi hy
          exact (ih (S.size - y) (by omega) y rfl).symm
      rw [S.countTokensFrom_of_lt hi, hrest]
      cases hempty : S.emptyDelimitations with
      | false =>
        rw [tokens_eq_of_filled hempty (fun x => by simp) i 0]
        by_cases hx : (S.passDelimiters i 0).1 < S.size
        · rw [if_pos hx, if_pos (Or.inl hx), length_tokens_token]
          simp
        · rw [if_neg hx, endOfToken_of_le (Nat.not_lt.mp hx), Option.elim_some,
            tokens_start_of_le (Nat.not_lt.mp hx)]
          simp [hx]
      | true =>
        by_cases hdelim : 0 < S.delimiterOffset i
        · have hpassed := length_tokens_passed hempty (i + S.delimiterOffset i) (0 + 1)
          rw [← passDelimiters_of_delimiter hi hdelim, ← tokens_start_of_delimiter hi hdelim,
            length_tokens_token] at hpassed
          have hcount : 1 ≤ (S.passDelimiters i 0).2 := by
            rw [passDelimiters_of_delimiter hi hdelim]
            exact S.le_passDelimiters_count _ _
          rw [if_pos (Or.inr ⟨rfl, hcount⟩), if_pos rfl]
          omega
        · rw [passDelimiters_eq_self fun h => hdelim h.2, if_pos (Or.inl hi), if_pos rfl,
            tokens_start_of_opens hi (Nat.eq_zero_of_not_pos hdelim), length_tokens_token]
          simp
    · rw [S.countTokensFrom_of_le (Nat.not_lt.mp hi), tokens_start_of_le (Nat.not_lt.mp hi)]
      rfl

/-- There is nothing left that gives a token: with empty delimitations nothing
at all, else nothing but delimiters. -/
def Consumed (S : Scan) (i : Nat) : Prop :=
  S.size ≤ if S.emptyDelimitations then i else (S.passDelimiters i 0).1

theorem tokens_start_of_consumed (h : S.Consumed i) : S.tokens .start i = [] := by
  unfold Consumed at h
  cases hempty : S.emptyDelimitations with
  | false =>
    rw [hempty, if_neg (by simp)] at h
    rw [tokens_eq_of_filled hempty (fun x => by simp) i 0, if_neg (Nat.not_lt.mpr h)]
  | true =>
    rw [hempty, if_pos rfl] at h
    exact tokens_start_of_le h

/-- A call of `next_token` returns the next token. -/
theorem tokens_start_of_not_consumed (h : ¬ S.Consumed i) :
    S.tokens .start i = (S.nextToken i).1 :: S.tokens .start (S.nextToken i).2 := by
  unfold Consumed at h
  cases hempty : S.emptyDelimitations with
  | false =>
    rw [hempty, if_neg (by simp), Nat.not_le] at h
    rw [tokens_eq_of_filled hempty (fun x => by simp) i 0, if_pos h, tokens_token, nextToken,
      skipDelimiters_of_filled hempty i i 0]
    rfl
  | true =>
    rw [hempty, if_pos rfl, Nat.not_le] at h
    by_cases hdelim : 0 < S.delimiterOffset i
    · have hne : i + S.delimiterOffset i ≠ i := by omega
      rw [tokens_start_of_delimiter h hdelim, nextToken, skipDelimiters, dif_pos ⟨h, hdelim⟩,
        if_neg (by simp), skipDelimiters]
      by_cases hnext : i + S.delimiterOffset i < S.size ∧
          0 < S.delimiterOffset (i + S.delimiterOffset i)
      · rw [dif_pos hnext, if_pos ⟨hempty, hne⟩, tokens_passed_of_delimiter hempty hnext.1 hnext.2]
        rfl
      · rw [dif_neg hnext, tokens_passed_of_not_delimiter hempty hnext, tokens_token]
        rfl
    · rw [tokens_start_of_opens h (Nat.eq_zero_of_not_pos hdelim), tokens_token, nextToken,
        skipDelimiters, dif_neg fun hd => hdelim hd.2]
      rfl

/-- The loop of `split_view` returns the tokens. -/
theorem tokensFrom_eq_tokens (S : Scan) (i : Nat) :
    S.tokensFrom (S.countTokensFrom i) i = S.tokens .start i := by
  induction hn : S.countTokensFrom i generalizing i with
  | zero =>
    rw [← length_tokens, List.length_eq_zero_iff] at hn
    exact hn.symm
  | succ n ih =>
    have hnot : ¬ S.Consumed i := by
      intro h
      rw [← length_tokens, tokens_start_of_consumed h] at hn
      cases hn
    have htokens := tokens_start_of_not_consumed hnot
    rw [← length_tokens, htokens, List.length_cons, length_tokens] at hn
    rw [htokens, ← ih _ (Nat.succ.inj hn)]
    rfl

/-- The tokens that calls of `next_token` return. -/
theorem tokensFrom_eq_map (S : Scan) (n i : Nat) :
    S.tokensFrom n i =
      (List.range n).map fun calls =>
        (S.nextToken ((fun i => (S.nextToken i).2)^[calls] i)).1 := by
  induction n generalizing i with
  | zero => rfl
  | succ n ih =>
    rw [List.range_succ_eq_map, List.map_cons, List.map_map]
    refine congrArg (List.cons _) ?_
    exact ih (S.nextToken i).2

/-- `count_tokens` is the number of calls of `next_token` that consume the
view. -/
theorem isLeast_calls (S : Scan) (i : Nat) :
    IsLeast {calls | S.Consumed ((fun i => (S.nextToken i).2)^[calls] i)}
      (S.countTokensFrom i) := by
  induction hn : S.countTokensFrom i generalizing i with
  | zero =>
    refine ⟨?_, fun calls _ => Nat.zero_le calls⟩
    by_contra hnot
    change ¬ S.Consumed i at hnot
    rw [← length_tokens, tokens_start_of_not_consumed hnot] at hn
    cases hn
  | succ n ih =>
    have hnot : ¬ S.Consumed i := by
      intro h
      rw [← length_tokens, tokens_start_of_consumed h] at hn
      cases hn
    have htokens := tokens_start_of_not_consumed hnot
    rw [← length_tokens, htokens, List.length_cons, length_tokens] at hn
    obtain ⟨hconsumed, hleast⟩ := ih _ (Nat.succ.inj hn)
    refine ⟨hconsumed, fun calls hcalls => ?_⟩
    cases calls with
    | zero => exact absurd hcalls hnot
    | succ calls => exact Nat.succ_le_succ (hleast hcalls)

/-! ## The characters of the tokens -/

/-- From `x` on there are characters where no delimiter starts and enclosures
that are closed; an enclosure that is not goes to the end of the view. -/
inductive Clear (S : Scan) (x : Nat) : Nat → Prop
  | start : Clear S x x
  | char {i : Nat} (h : Clear S x i) (henclosure : S.enclosure i = .notOpened)
      (hdelim : S.delimiterOffset i = 0) : Clear S x (i + 1)
  | enclosure {i k : Nat} (h : Clear S x i) (henclosure : S.enclosure i = .closedAt k) :
      Clear S x k
  | unclosed {i : Nat} (h : Clear S x i) (henclosure : S.enclosure i = .neverEnds) :
      Clear S x S.size

/-- The scan is in a token, whose first character is no delimiter. -/
structure InToken (S : Scan) (x i : Nat) : Prop where
  le : x ≤ i
  clear : S.Clear x i
  first : x = i → x < S.size ∧ S.delimiterOffset x = 0

/-- In a token there is `InToken`. -/
def Sound (S : Scan) : Phase → Nat → Prop
  | .token x, i => S.InToken x i
  | _, _ => True

variable {phase' : Phase} {i' : Nat}

theorem Sound.step (h : S.Sound phase i) (hstep : S.Step phase i phase' i') :
    S.Sound phase' i' := by
  cases hstep with
  | delimiter hphase hi hdelim => trivial
  | opens hphase hi hdelim => exact ⟨le_rfl, .start, fun _ => ⟨hi, hdelim⟩⟩
  | encloses hi henclosure =>
    have hlt := S.lt_of_closedAt henclosure
    have hle := h.le
    exact ⟨by omega, h.clear.enclosure henclosure, fun _ => by omega⟩
  | ends hi henclosure hdelim => trivial
  | char hi henclosure hdelim =>
    have hle := h.le
    exact ⟨by omega, h.clear.char henclosure hdelim, fun _ => by omega⟩

/-- A token without delimiters, and with a character unless there are empty
delimitations. -/
structure IsToken (S : Scan) (token : Nat × Nat) : Prop where
  clear : S.Clear token.1 (token.1 + token.2)
  pos : S.emptyDelimitations = false → 0 < token.2

theorem InToken.isToken (h : S.InToken x i) (hclear : S.Clear x y) (hle : i ≤ y)
    (hlt : x = i → i < y) : S.IsToken (x, y - x) := by
  have hx := h.le
  refine ⟨?_, fun _ => ?_⟩
  · rwa [Nat.add_sub_cancel' (hx.trans hle)]
  · change 0 < y - x
    rcases Nat.lt_or_eq_of_le hx with hlt' | heq
    · omega
    · have := hlt heq
      omega

theorem Sound.isToken_of_emits {token : Nat × Nat} (h : S.Sound phase i)
    (hemits : S.Emits phase i token) : S.IsToken token := by
  cases hemits with
  | empty hempty hdelim => exact ⟨.start, fun hfilled => by simp [hfilled] at hempty⟩
  | unclosed hi henclosure =>
    exact h.isToken (h.clear.unclosed henclosure) hi.le fun _ => hi
  | ends hi henclosure hdelim =>
    refine h.isToken h.clear le_rfl fun heq => ?_
    have hfirst := (h.first heq).2
    rw [heq] at hfirst
    omega
  | last hi =>
    refine h.isToken h.clear le_rfl fun heq => ?_
    have hfirst := (h.first heq).1
    omega

theorem isToken_of_mem_tokensFrom (S : Scan) (i : Nat) :
    ∀ token ∈ S.tokensFrom (S.countTokensFrom i) i, S.IsToken token := by
  rw [tokensFrom_eq_tokens]
  exact forall_mem_tokens (P := S.Sound) Sound.step Sound.isToken_of_emits trivial

end Sihd.Util.Scan
