import Mathlib.Logic.Function.Iterate
import Mathlib.Order.Nat
import Sihd.Util.Str

/-!
# The two passes of a splitter

`count_tokens` and `next_token` see their view through two questions: how long
is the delimiter at an index, and where does the enclosure that opens there
end. A `Scan` is a view with the answers, and both functions are written over
it as they are in the code. An index is an `int`: views have less than 2 ^ 31
characters.

Both passes follow one machine, that goes through the view a character, a
delimiter or an enclosure at a time: `count_tokens` counts the tokens that it
emits (`length_tokens`) and the calls of `next_token` return them
(`tokensFrom_eq_tokens`).
-/

namespace Sihd.Util

/-- A view, as the loops of a splitter see it. -/
structure Scan where
  size : Nat
  emptyDelimitations : Bool
  /-- The length of the delimiter at an index, 0 without one. -/
  delimiterOffset : Nat → Nat
  enclosure : Nat → Str.Enclosure
  lt_of_closedAt : ∀ {i k : Nat}, enclosure i = .closedAt k → i < k

namespace Scan

variable (S : Scan)

/-- The first loop of `count_tokens`: the index after the delimiters and their
number. -/
def passDelimiters (i count : Nat) : Nat × Nat :=
  if _h : i < S.size ∧ 0 < S.delimiterOffset i then
    passDelimiters (i + S.delimiterOffset i) (count + 1)
  else (i, count)
  termination_by S.size - i

/-- The loop that `count_tokens` and `next_token` have over the characters of a
token: its end, `none` when an enclosure never ends. -/
def endOfToken (i : Nat) : Option Nat :=
  if _hi : i < S.size then
    match h : S.enclosure i with
    | .closedAt closedAt => endOfToken closedAt
    | .neverEnds => none
    | .notOpened => if 0 < S.delimiterOffset i then some i else endOfToken (i + 1)
  else some i
  termination_by S.size - i
  decreasing_by
    · have := S.lt_of_closedAt h
      omega
    · omega

variable {S} {i k x y : Nat}

theorem endOfToken_of_closedAt (hi : i < S.size) (h : S.enclosure i = .closedAt k) :
    S.endOfToken i = S.endOfToken k := by
  rw [endOfToken, dif_pos hi]
  split
  · rename_i k' hk'
    cases h.symm.trans hk'
    rfl
  · rename_i hk'
    cases h.symm.trans hk'
  · rename_i hk'
    cases h.symm.trans hk'

theorem endOfToken_of_neverEnds (hi : i < S.size) (h : S.enclosure i = .neverEnds) :
    S.endOfToken i = none := by
  rw [endOfToken, dif_pos hi]
  split
  · rename_i k' hk'
    cases h.symm.trans hk'
  · rfl
  · rename_i hk'
    cases h.symm.trans hk'

theorem endOfToken_of_notOpened (hi : i < S.size) (h : S.enclosure i = .notOpened) :
    S.endOfToken i = if 0 < S.delimiterOffset i then some i else S.endOfToken (i + 1) := by
  rw [endOfToken, dif_pos hi]
  split
  · rename_i k' hk'
    cases h.symm.trans hk'
  · rename_i hk'
    cases h.symm.trans hk'
  · rfl

theorem endOfToken_of_le (hi : S.size ≤ i) : S.endOfToken i = some i := by
  rw [endOfToken, dif_neg (Nat.not_lt.mpr hi)]

theorem passDelimiters_eq_self {count : Nat} (h : ¬ (i < S.size ∧ 0 < S.delimiterOffset i)) :
    S.passDelimiters i count = (i, count) := by
  rw [passDelimiters, dif_neg h]

theorem passDelimiters_of_delimiter {count : Nat} (hi : i < S.size)
    (h : 0 < S.delimiterOffset i) :
    S.passDelimiters i count = S.passDelimiters (i + S.delimiterOffset i) (count + 1) := by
  rw [passDelimiters, dif_pos ⟨hi, h⟩]

theorem le_passDelimiters (S : Scan) (i count : Nat) : i ≤ (S.passDelimiters i count).1 := by
  fun_induction passDelimiters S i count with
  | case1 i count h ih => omega
  | case2 i count h => exact le_rfl

theorem le_endOfToken : ∀ {y : Nat}, S.endOfToken i = some y → i ≤ y := by
  fun_induction endOfToken S i with
  | case1 i hi closedAt h ih =>
    intro y hy
    have hlt := S.lt_of_closedAt h
    have hle := ih hy
    omega
  | case2 => exact fun h => by cases h
  | case3 i hi h hdelim =>
    rintro y ⟨⟩
    exact le_rfl
  | case4 i hi h hdelim ih =>
    intro y hy
    have hle := ih hy
    omega
  | case5 i hi =>
    rintro y ⟨⟩
    exact le_rfl

/-- A token that starts where there is no delimiter has a character. -/
theorem lt_endOfToken (hi : i < S.size) (hdelim : S.delimiterOffset i = 0)
    (h : S.endOfToken i = some y) : i < y := by
  cases henclosure : S.enclosure i with
  | closedAt k =>
    rw [endOfToken_of_closedAt hi henclosure] at h
    exact (S.lt_of_closedAt henclosure).trans_le (le_endOfToken h)
  | neverEnds =>
    rw [endOfToken_of_neverEnds hi henclosure] at h
    cases h
  | notOpened =>
    rw [endOfToken_of_notOpened hi henclosure, hdelim, if_neg (Nat.lt_irrefl 0)] at h
    exact le_endOfToken h

/-- `count_tokens` goes on after the end of each token. -/
theorem lt_of_endOfToken_passDelimiters (hi : i < S.size)
    (h : S.endOfToken (S.passDelimiters i 0).1 = some y) : i < y := by
  by_cases hdelim : 0 < S.delimiterOffset i
  · rw [passDelimiters_of_delimiter hi hdelim] at h
    have hpass := S.le_passDelimiters (i + S.delimiterOffset i) (0 + 1)
    have hle := le_endOfToken h
    omega
  · rw [passDelimiters_eq_self fun hd => hdelim hd.2] at h
    exact lt_endOfToken hi (Nat.eq_zero_of_not_pos hdelim) h

variable (S)

/-- `count_tokens`, from an index. -/
def countTokensFrom (i : Nat) : Nat :=
  if hi : i < S.size then
    let x := (S.passDelimiters i 0).1
    let delimiters := (S.passDelimiters i 0).2
    -- a token for each delimiter after the first one, and one after the delimiters
    let empty := if S.emptyDelimitations then delimiters - 1 else 0
    let token := if x < S.size ∨ (S.emptyDelimitations ∧ 0 < delimiters) then 1 else 0
    empty + token +
      match _h : S.endOfToken x with
      | none => 0
      | some y => countTokensFrom y
  else 0
  termination_by S.size - i
  decreasing_by
    have := lt_of_endOfToken_passDelimiters hi _h
    omega

def countTokens : Nat := S.countTokensFrom 0

/-- The loop of `next_token` over the delimiters: the index that it ends at,
and whether there is an empty token there. -/
def skipDelimiters (start x : Nat) : Nat × Bool :=
  if _h : x < S.size ∧ 0 < S.delimiterOffset x then
    if S.emptyDelimitations ∧ x ≠ start then (x, true)
    else skipDelimiters start (x + S.delimiterOffset x)
  else (x, false)
  termination_by S.size - x

/-- `next_token`: the token and the next index. -/
def nextToken (i : Nat) : (Nat × Nat) × Nat :=
  let (x, isEmpty) := S.skipDelimiters i i
  if isEmpty then ((x, 0), x)
  else
    let y := (S.endOfToken x).getD S.size
    ((x, y - x), y)

/-- The loop of `split_view`. -/
def tokensFrom : Nat → Nat → List (Nat × Nat)
  | 0, _ => []
  | tokens + 1, i =>
      let (token, i') := S.nextToken i
      token :: tokensFrom tokens i'

/-- The index after calls of `next_token` from the start. -/
def indexAfter (calls : Nat) : Nat := (fun i => (S.nextToken i).2)^[calls] 0

theorem countTokensFrom_of_le (h : S.size ≤ i) : S.countTokensFrom i = 0 := by
  rw [countTokensFrom, dif_neg (Nat.not_lt.mpr h)]

/-- One round of `count_tokens`. -/
theorem countTokensFrom_of_lt (hi : i < S.size) :
    S.countTokensFrom i =
      (if S.emptyDelimitations then (S.passDelimiters i 0).2 - 1 else 0) +
          (if (S.passDelimiters i 0).1 < S.size ∨
            (S.emptyDelimitations ∧ 0 < (S.passDelimiters i 0).2) then 1 else 0) +
        (S.endOfToken (S.passDelimiters i 0).1).elim 0 S.countTokensFrom := by
  rw [countTokensFrom, dif_pos hi]
  dsimp only
  congr 1
  split
  · rename_i hnone
    rw [hnone, Option.elim_none]
  · rename_i y hy
    rw [hy, Option.elim_some]

/-! ## The machine -/

/-- Where a scan stands: at the start of a call, after a delimiter, or in the
token that starts at an index. -/
inductive Phase
  | start
  | passed
  | token (x : Nat)
  deriving DecidableEq

/-- The tokens that a step emits. -/
def emitted : Phase → Nat → List (Nat × Nat)
  | .start, _ => []
  | .passed, i =>
      if S.emptyDelimitations ∧ (i < S.size → 0 < S.delimiterOffset i) then [(i, 0)] else []
  | .token x, i =>
      if i < S.size then
        match S.enclosure i with
        | .closedAt _ => []
        | .neverEnds => [(x, S.size - x)]
        | .notOpened => if 0 < S.delimiterOffset i then [(x, i - x)] else []
      else [(x, i - x)]

/-- The next place of the scan, `none` at its end. -/
def next (phase : Phase) (i : Nat) : Option (Phase × Nat) :=
  if i < S.size then
    match phase with
    | .token x =>
        match S.enclosure i with
        | .closedAt k => some (.token x, k)
        | .neverEnds => none
        | .notOpened =>
            if 0 < S.delimiterOffset i then some (.start, i) else some (.token x, i + 1)
    | _ =>
        if 0 < S.delimiterOffset i then some (.passed, i + S.delimiterOffset i)
        else some (.token i, i)
  else none

/-- The steps of a scan. -/
inductive Step : Phase → Nat → Phase → Nat → Prop
  | delimiter {phase : Phase} {i : Nat} (hphase : ∀ x, phase ≠ .token x) (hi : i < S.size)
      (hdelim : 0 < S.delimiterOffset i) : Step phase i .passed (i + S.delimiterOffset i)
  | opens {phase : Phase} {i : Nat} (hphase : ∀ x, phase ≠ .token x) (hi : i < S.size)
      (hdelim : S.delimiterOffset i = 0) : Step phase i (.token i) i
  | encloses {x i k : Nat} (hi : i < S.size) (henclosure : S.enclosure i = .closedAt k) :
      Step (.token x) i (.token x) k
  | ends {x i : Nat} (hi : i < S.size) (henclosure : S.enclosure i = .notOpened)
      (hdelim : 0 < S.delimiterOffset i) : Step (.token x) i .start i
  | char {x i : Nat} (hi : i < S.size) (henclosure : S.enclosure i = .notOpened)
      (hdelim : S.delimiterOffset i = 0) : Step (.token x) i (.token x) (i + 1)

variable {S} {phase phase' : Phase} {i' : Nat}

theorem next_of_le (hi : S.size ≤ i) : S.next phase i = none :=
  if_neg (Nat.not_lt.mpr hi)

theorem next_of_neverEnds (h : S.enclosure i = .neverEnds) : S.next (.token x) i = none := by
  unfold next
  split
  · simp only [h]
  · rfl

theorem Step.next (h : S.Step phase i phase' i') : S.next phase i = some (phase', i') := by
  cases h with
  | delimiter hphase hi hdelim =>
    cases phase with
    | start => simp only [Scan.next, if_pos hi, if_pos hdelim]
    | passed => simp only [Scan.next, if_pos hi, if_pos hdelim]
    | token x => exact absurd rfl (hphase x)
  | opens hphase hi hdelim =>
    cases phase with
    | start => simp only [Scan.next, if_pos hi, hdelim, Nat.lt_irrefl, if_false]
    | passed => simp only [Scan.next, if_pos hi, hdelim, Nat.lt_irrefl, if_false]
    | token x => exact absurd rfl (hphase x)
  | encloses hi henclosure => simp only [Scan.next, if_pos hi, henclosure]
  | ends hi henclosure hdelim => simp only [Scan.next, if_pos hi, henclosure, if_pos hdelim]
  | char hi henclosure hdelim =>
    simp only [Scan.next, if_pos hi, henclosure, hdelim, Nat.lt_irrefl, if_false]

theorem Step.of_next (h : S.next phase i = some (phase', i')) : S.Step phase i phase' i' := by
  unfold Scan.next at h
  split at h
  · rename_i hi
    split at h
    · split at h
      · rename_i henclosure
        cases h
        exact .encloses hi henclosure
      · cases h
      · rename_i henclosure
        split at h
        · rename_i hdelim
          cases h
          exact .ends hi henclosure hdelim
        · rename_i hdelim
          cases h
          exact .char hi henclosure (Nat.eq_zero_of_not_pos hdelim)
    · rename_i hphase
      split at h
      · rename_i hdelim
        cases h
        exact .delimiter hphase hi hdelim
      · rename_i hdelim
        cases h
        exact .opens hphase hi (Nat.eq_zero_of_not_pos hdelim)
  · cases h

/-- The tokens of the steps. -/
inductive Emits (S : Scan) : Phase → Nat → Nat × Nat → Prop
  | empty {i : Nat} (hempty : S.emptyDelimitations = true)
      (h : i < S.size → 0 < S.delimiterOffset i) : Emits S .passed i (i, 0)
  | unclosed {x i : Nat} (hi : i < S.size) (henclosure : S.enclosure i = .neverEnds) :
      Emits S (.token x) i (x, S.size - x)
  | ends {x i : Nat} (hi : i < S.size) (henclosure : S.enclosure i = .notOpened)
      (hdelim : 0 < S.delimiterOffset i) : Emits S (.token x) i (x, i - x)
  | last {x i : Nat} (hi : S.size ≤ i) : Emits S (.token x) i (x, i - x)

theorem Emits.of_mem {token : Nat × Nat} (h : token ∈ S.emitted phase i) :
    S.Emits phase i token := by
  cases phase with
  | start => cases h
  | passed =>
    simp only [emitted] at h
    split at h
    · rename_i hemits
      obtain rfl := List.mem_singleton.mp h
      exact .empty hemits.1 hemits.2
    · cases h
  | token x =>
    simp only [emitted] at h
    split at h
    · rename_i hi
      split at h
      · cases h
      · rename_i henclosure
        obtain rfl := List.mem_singleton.mp h
        exact .unclosed hi henclosure
      · rename_i henclosure
        split at h
        · rename_i hdelim
          obtain rfl := List.mem_singleton.mp h
          exact .ends hi henclosure hdelim
        · cases h
    · rename_i hi
      obtain rfl := List.mem_singleton.mp h
      exact .last (Nat.not_lt.mp hi)

/-- Every step goes on in the view, or turns from a token to the delimiter
after it or from the delimiters to their token. -/
def remaining (S : Scan) (phase : Phase) (i : Nat) : Nat :=
  2 * (S.size - i) +
    match phase with
    | .token _ => if 0 < S.delimiterOffset i then 1 else 0
    | _ => if 0 < S.delimiterOffset i then 0 else 1

theorem remaining_le (S : Scan) (phase : Phase) (i : Nat) :
    S.remaining phase i ≤ 2 * (S.size - i) + 1 := by
  unfold remaining
  cases phase <;> dsimp only <;> split <;> omega

theorem remaining_lt_of_lt (hi : i < S.size) (hlt : i < i') :
    S.remaining phase' i' < S.remaining phase i := by
  have hle := S.remaining_le phase' i'
  have hge : 2 * (S.size - i) ≤ S.remaining phase i := Nat.le_add_right _ _
  omega

theorem remaining_of_ne_token (hphase : ∀ x, phase ≠ .token x) :
    S.remaining phase i = 2 * (S.size - i) + if 0 < S.delimiterOffset i then 0 else 1 := by
  cases phase with
  | start => rfl
  | passed => rfl
  | token x => exact absurd rfl (hphase x)

theorem Step.remaining_lt (h : S.Step phase i phase' i') :
    S.remaining phase' i' < S.remaining phase i := by
  cases h with
  | delimiter hphase hi hdelim => exact remaining_lt_of_lt hi (Nat.lt_add_of_pos_right hdelim)
  | opens hphase hi hdelim =>
    rw [remaining_of_ne_token hphase, hdelim]
    simp only [remaining, hdelim, Nat.lt_irrefl, if_false]
    exact Nat.lt_succ_self _
  | encloses hi henclosure => exact remaining_lt_of_lt hi (S.lt_of_closedAt henclosure)
  | ends hi henclosure hdelim =>
    simp only [remaining, if_pos hdelim]
    exact Nat.lt_succ_self _
  | char hi henclosure hdelim => exact remaining_lt_of_lt hi (Nat.lt_succ_self _)

/-- The tokens that the scan emits from a place. -/
def tokens (S : Scan) (phase : Phase) (i : Nat) : List (Nat × Nat) :=
  S.emitted phase i ++
    match _h : S.next phase i with
    | none => []
    | some (phase', i') => tokens S phase' i'
  termination_by S.remaining phase i
  decreasing_by exact (Step.of_next _h).remaining_lt

/-- What every step keeps holds of all tokens that are emitted. -/
theorem forall_mem_tokens {P : Phase → Nat → Prop} {Q : Nat × Nat → Prop}
    (hstep : ∀ {phase i phase' i'}, P phase i → S.Step phase i phase' i' → P phase' i')
    (hemits : ∀ {phase i token}, P phase i → S.Emits phase i token → Q token) :
    ∀ {phase : Phase} {i : Nat}, P phase i → ∀ token ∈ S.tokens phase i, Q token := by
  intro phase i
  fun_induction tokens S phase i with
  | case1 phase i ih =>
    intro h token htoken
    rw [List.mem_append] at htoken
    rcases htoken with htoken | htoken
    · exact hemits h (.of_mem htoken)
    · split at htoken
      · cases htoken
      · rename_i phase' i' hnext
        exact ih phase' i' hnext (hstep h (Step.of_next hnext)) token htoken

theorem tokens_of_next_none (h : S.next phase i = none) :
    S.tokens phase i = S.emitted phase i := by
  rw [tokens]
  split
  · exact List.append_nil _
  · rename_i hnext
    cases h.symm.trans hnext

theorem tokens_of_step (h : S.Step phase i phase' i') :
    S.tokens phase i = S.emitted phase i ++ S.tokens phase' i' := by
  rw [tokens]
  split
  · rename_i hnext
    cases h.next.symm.trans hnext
  · rename_i hnext
    cases h.next.symm.trans hnext
    rfl

/-- The places that a scan comes to. -/
inductive Reached (S : Scan) : Phase → Nat → Prop
  | start : Reached S .start 0
  | step {phase phase' : Phase} {i i' : Nat} (h : Reached S phase i)
      (hstep : S.Step phase i phase' i') : Reached S phase' i'

/-! ## Two views that look the same -/

/-- At a place, two scans of the same size get the same answers to what they
ask. -/
structure Agree (S S' : Scan) (phase : Phase) (i : Nat) : Prop where
  size : S.size = S'.size
  emptyDelimitations : S.emptyDelimitations = S'.emptyDelimitations
  delimiterOffset : i < S.size → (∀ x, phase = .token x → S.enclosure i = .notOpened) →
    S.delimiterOffset i = S'.delimiterOffset i
  enclosure : i < S.size → ∀ x, phase = .token x → S.enclosure i = S'.enclosure i

variable {S' : Scan}

theorem Agree.step (h : S.Agree S' phase i) (hstep : S.Step phase i phase' i') :
    S'.Step phase i phase' i' := by
  cases hstep with
  | delimiter hphase hi hdelim =>
    have hsame := h.delimiterOffset hi fun x hx => absurd hx (hphase x)
    rw [hsame] at hdelim ⊢
    exact .delimiter hphase (h.size ▸ hi) hdelim
  | opens hphase hi hdelim =>
    have hsame := h.delimiterOffset hi fun x hx => absurd hx (hphase x)
    exact .opens hphase (h.size ▸ hi) (hsame ▸ hdelim)
  | encloses hi henclosure =>
    exact .encloses (h.size ▸ hi) (h.enclosure hi _ rfl ▸ henclosure)
  | ends hi henclosure hdelim =>
    have hsame := h.delimiterOffset hi fun x hx => henclosure
    exact .ends (h.size ▸ hi) (h.enclosure hi _ rfl ▸ henclosure) (hsame ▸ hdelim)
  | char hi henclosure hdelim =>
    have hsame := h.delimiterOffset hi fun x hx => henclosure
    exact .char (h.size ▸ hi) (h.enclosure hi _ rfl ▸ henclosure) (hsame ▸ hdelim)

theorem Agree.symm (h : S.Agree S' phase i) : S'.Agree S phase i where
  size := h.size.symm
  emptyDelimitations := h.emptyDelimitations.symm
  delimiterOffset hi hnot := by
    have hi' : i < S.size := h.size ▸ hi
    exact (h.delimiterOffset hi' fun x hx => (h.enclosure hi' x hx).trans (hnot x hx)).symm
  enclosure hi x hx := (h.enclosure (h.size ▸ hi) x hx).symm

theorem Agree.next_eq (h : S.Agree S' phase i) : S.next phase i = S'.next phase i := by
  cases hnext : S.next phase i with
  | some place => exact (h.step (.of_next hnext)).next.symm
  | none =>
    cases hnext' : S'.next phase i with
    | none => rfl
    | some place => exact hnext.symm.trans (h.symm.step (.of_next hnext')).next

theorem Agree.emitted_eq (h : S.Agree S' phase i) : S.emitted phase i = S'.emitted phase i := by
  cases phase with
  | start => rfl
  | passed =>
    simp only [emitted, h.emptyDelimitations, h.size]
    by_cases hi : i < S'.size
    · rw [h.delimiterOffset (h.size ▸ hi) fun x hx => by cases hx]
    · simp only [hi, false_imp_iff]
  | token x =>
    simp only [emitted, h.size]
    by_cases hi : i < S'.size
    · have hi' : i < S.size := h.size ▸ hi
      rw [if_pos hi, if_pos hi, ← h.enclosure hi' x rfl]
      cases henclosure : S.enclosure i with
      | closedAt k => rfl
      | neverEnds => rfl
      | notOpened => rw [h.delimiterOffset hi' fun _ _ => henclosure]
    · rw [if_neg hi, if_neg hi]

/-- Scans that agree wherever one of them comes to emit the same tokens. -/
theorem tokens_eq_of_agree (h : ∀ phase i, S.Reached phase i → S.Agree S' phase i) :
    ∀ {phase : Phase} {i : Nat}, S.Reached phase i → S.tokens phase i = S'.tokens phase i := by
  intro phase i
  fun_induction tokens S phase i with
  | case1 phase i ih =>
    intro hreached
    have hagree := h phase i hreached
    conv_rhs => rw [tokens]
    rw [hagree.emitted_eq]
    refine congrArg _ ?_
    split
    · rename_i hnext
      split
      · rfl
      · rename_i hnext'
        cases hnext'.symm.trans (hagree.next_eq.symm.trans hnext)
    · rename_i phase' i' hnext
      split
      · rename_i hnext'
        cases hnext'.symm.trans (hagree.next_eq.symm.trans hnext)
      · rename_i phase'' i'' hnext'
        cases hnext'.symm.trans (hagree.next_eq.symm.trans hnext)
        exact ih phase' i' hnext (hreached.step (.of_next hnext))

end Scan

end Sihd.Util
