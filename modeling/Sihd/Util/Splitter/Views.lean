import Mathlib.Data.List.TakeWhile
import Sihd.Util.Splitter.Enclosures

/-!
# A splitter and the end of its view

The bytes after a view are read when the view ends in a delimiter or with an
open enclosure. A scan of the view alone tells whether this happens: it stays
inside the view, whatever comes after it, exactly when everything that it asks
is settled by the view (`IsWhole`).
-/

namespace Sihd.Util.MethodSplitter

variable {sp : MethodSplitter} {v r : List UInt8} {phase phase' : Scan.Phase} {i i' k : Nat}

/-- The tokens of a view on a part of a buffer are the same whatever is around
the part, and inside it. -/
structure StaysInside (sp : MethodSplitter) (v : List UInt8) : Prop where
  splitView_eq : ∀ b r b' r' : List UInt8,
    sp.splitView ((b ++ v ++ r).drop b.length) v.length =
      sp.splitView ((b' ++ v ++ r').drop b'.length) v.length
  split_eq : ∀ b r b' r' : List UInt8,
    sp.split ((b ++ v ++ r).drop b.length) v.length =
      sp.split ((b' ++ v ++ r').drop b'.length) v.length
  le : ∀ b r : List UInt8, ∀ token ∈ sp.splitView ((b ++ v ++ r).drop b.length) v.length,
    token.1 + token.2 ≤ v.length

/-- At an index, the method finds a delimiter or the view does not end in the
delimiter string. -/
def DelimiterSettled (sp : MethodSplitter) (v : List UInt8) (i : Nat) : Prop :=
  (sp.compareMethod.any fun method => method ((v.drop i).headD 0)) = true ∨
    (Str.compareIn (v.drop i) sp.delimiter).isSome

/-- At an index, no enclosure opens or it closes in the view, and the next
character cannot escape the closing one. A zero in the view ends the search. -/
def EnclosureSettled (sp : MethodSplitter) (v : List UInt8) (i : Nat) : Prop :=
  (0 : UInt8) ∈ v ∨ (sp.scan v v.length).enclosure i = .notOpened ∨
    ∃ k, (sp.scan v v.length).enclosure i = .closedAt k ∧
      (k < v.length ∨ v[k - 1]? ≠ some sp.escapeChar)

/-- What the scan asks at a place is settled by the view, and it does not put
an empty token after it. -/
def Settled (sp : MethodSplitter) (v : List UInt8) : Scan.Phase → Nat → Prop
  | .token _, i =>
      sp.EnclosureSettled v i ∧
        ((sp.scan v v.length).enclosure i = .notOpened → sp.DelimiterSettled v i)
  | _, i =>
      sp.DelimiterSettled v i ∧
        (sp.emptyDelimitations = true →
          i + (sp.scan v v.length).delimiterOffset i ≤ v.length)

/-- A scan of the view alone is settled wherever it comes to. -/
def IsWhole (sp : MethodSplitter) (v : List UInt8) : Prop :=
  sp.HasDelimiter → ∀ phase i, (sp.scan v v.length).Reached phase i → i < v.length →
    sp.Settled v phase i

/-! ## What is settled -/

theorem Settled.delimiter (h : sp.Settled v phase i) (hphase : ∀ x, phase ≠ .token x) :
    sp.DelimiterSettled v i ∧ (sp.emptyDelimitations = true →
      i + (sp.scan v v.length).delimiterOffset i ≤ v.length) := by
  cases phase with
  | start => exact h
  | passed => exact h
  | token x => exact absurd rfl (hphase x)

theorem DelimiterSettled.offset_eq (h : sp.DelimiterSettled v i) (hi : i < v.length)
    (r : List UInt8) :
    (sp.scan v v.length).delimiterOffset i = (sp.scan (v ++ r) v.length).delimiterOffset i := by
  change sp.getDelimiterOffset (v.drop i) = sp.getDelimiterOffset ((v ++ r).drop i)
  rw [List.drop_append_of_le_length hi.le]
  have hhead : (v.drop i ++ r).headD 0 = (v.drop i).headD 0 := by
    rw [List.drop_eq_getElem_cons hi]
    rfl
  unfold getDelimiterOffset
  rw [hhead]
  rcases h with h | h
  · rw [if_pos h, if_pos h]
  · obtain ⟨b, hb⟩ := Option.isSome_iff_exists.mp h
    have hsame := Str.strncmpEqual_append hb []
    rw [List.append_nil] at hsame
    rw [Str.strncmpEqual_append hb r, hsame]

theorem cString_append_of_mem (h : (0 : UInt8) ∈ v) (r : List UInt8) :
    Str.cString (v ++ r) = Str.cString v := by
  have hne : (v.takeWhile fun c => decide (c ≠ 0)).length ≠ v.length := by
    intro heq
    have hall := (List.takeWhile_prefix (l := v) fun c => decide (c ≠ 0)).eq_of_length heq
    rw [List.takeWhile_eq_self_iff] at hall
    simpa using hall 0 h
  rw [Str.cString, List.takeWhile_append, if_neg hne]
  rfl

theorem cString_append_of_notMem (h : (0 : UInt8) ∉ v) (r : List UInt8) :
    Str.cString (v ++ r) = v ++ Str.cString r := by
  have hall : v.takeWhile (fun c => decide (c ≠ 0)) = v := by
    rw [List.takeWhile_eq_self_iff]
    intro c hc
    simpa using ne_of_mem_of_not_mem hc h
  rw [Str.cString, List.takeWhile_append, hall, if_pos rfl]
  rfl

theorem cString_of_notMem (h : (0 : UInt8) ∉ v) : Str.cString v = v := by
  have hall := cString_append_of_notMem h []
  rwa [List.append_nil, Str.cString, Str.cString, List.takeWhile_nil, List.append_nil] at hall

theorem EnclosureSettled.enclosure_eq (h : sp.EnclosureSettled v i) (hi : i < v.length)
    (r : List UInt8) :
    (sp.scan v v.length).enclosure i = (sp.scan (v ++ r) v.length).enclosure i := by
  unfold EnclosureSettled at h
  simp only [scan] at h ⊢
  by_cases hzero : (0 : UInt8) ∈ v
  · rw [cString_append_of_mem hzero]
  · rw [cString_append_of_notMem hzero]
    rw [cString_of_notMem hzero] at h ⊢
    rcases h with h | h | ⟨k, h, hk⟩
    · exact absurd h hzero
    · rw [h, Str.notOpened_append hi h]
    · rw [h, Str.closedAt_append h hk]

theorem agree (h : i < v.length → sp.Settled v phase i) (r : List UInt8) :
    (sp.scan v v.length).Agree (sp.scan (v ++ r) v.length) phase i where
  size := rfl
  emptyDelimitations := rfl
  delimiterOffset hi hnot := by
    cases phase with
    | start => exact (h hi).1.offset_eq hi r
    | passed => exact (h hi).1.offset_eq hi r
    | token x => exact ((h hi).2 (hnot x rfl)).offset_eq hi r
  enclosure hi x hx := by
    subst hx
    exact (h hi).1.enclosure_eq hi r

/-! ## A whole view -/

/-- A token has its characters in the view, and after a delimiter an empty
token can be put. -/
def Within (sp : MethodSplitter) (v : List UInt8) : Scan.Phase → Nat → Prop
  | .token x, i => x ≤ i ∧ i ≤ v.length
  | .passed, i => sp.emptyDelimitations = true → i ≤ v.length
  | .start, _ => True

theorem IsWhole.le_of_mem (h : sp.IsWhole v) (hsp : sp.HasDelimiter) :
    ∀ token ∈ (sp.scan v v.length).tokens .start 0, token.1 + token.2 ≤ v.length := by
  refine Scan.forall_mem_tokens
    (P := fun phase i => (sp.scan v v.length).Reached phase i ∧ sp.Within v phase i)
    ?_ ?_ ⟨.start, trivial⟩
  · rintro phase i phase' i' ⟨hreached, hwithin⟩ hstep
    refine ⟨hreached.step hstep, ?_⟩
    cases hstep with
    | delimiter hphase hi hdelim =>
      intro hempty
      exact ((h hsp phase i hreached hi).delimiter hphase).2 hempty
    | opens hphase hi hdelim => exact ⟨le_rfl, Nat.le_of_lt hi⟩
    | encloses hi henclosure =>
      have hle := (Str.lt_of_closedAt henclosure).2
      exact ⟨hwithin.1.trans ((sp.scan v v.length).lt_of_closedAt henclosure).le,
        hle.trans (Str.length_cString_le v)⟩
    | ends hi henclosure hdelim => trivial
    | char hi henclosure hdelim => exact ⟨hwithin.1.trans (Nat.le_succ _), hi⟩
  · rintro phase i token ⟨-, hwithin⟩ hemits
    cases hemits with
    | empty hempty hdelim => exact hwithin hempty
    | unclosed hi henclosure =>
      have hx := hwithin.1
      exact (Nat.add_sub_cancel' (hx.trans (Nat.le_of_lt hi))).le
    | ends hi henclosure hdelim => exact (Nat.add_sub_cancel' hwithin.1).trans_le hwithin.2
    | last hi => exact (Nat.add_sub_cancel' hwithin.1).trans_le hwithin.2

theorem IsWhole.splitView_eq (h : sp.IsWhole v) (r : List UInt8) :
    sp.splitView (v ++ r) v.length = sp.splitView v v.length := by
  by_cases hsp : sp.HasDelimiter
  · rw [splitView_of_hasDelimiter hsp, splitView_of_hasDelimiter hsp]
    exact (Scan.tokens_eq_of_agree (fun phase i hreached =>
      agree (fun hi => h hsp phase i hreached hi) r) .start).symm
  · simp only [HasDelimiter, not_or, not_not] at hsp
    rw [splitView, splitView, if_pos (by simp [hsp]), if_pos (by simp [hsp])]

theorem IsWhole.le_of_mem_splitView (h : sp.IsWhole v) :
    ∀ token ∈ sp.splitView v v.length, token.1 + token.2 ≤ v.length := by
  by_cases hsp : sp.HasDelimiter
  · rw [splitView_of_hasDelimiter hsp]
    exact h.le_of_mem hsp
  · simp only [HasDelimiter, not_or, not_not] at hsp
    rw [splitView, if_pos (by simp [hsp])]
    intro token htoken
    obtain rfl := List.mem_singleton.mp htoken
    simp

theorem drop_part (b v r : List UInt8) : (b ++ v ++ r).drop b.length = v ++ r := by
  rw [List.append_assoc, List.drop_left]

theorem IsWhole.split_eq (h : sp.IsWhole v) (r : List UInt8) :
    sp.split (v ++ r) v.length = sp.split v v.length := by
  rw [split, split, h.splitView_eq]
  refine List.map_congr_left fun token htoken => ?_
  have hle := h.le_of_mem_splitView token htoken
  rw [List.drop_append_of_le_length (by omega), List.take_append_of_le_length]
  rw [List.length_drop]
  omega

theorem IsWhole.staysInside (h : sp.IsWhole v) : sp.StaysInside v where
  splitView_eq b r b' r' := by
    rw [drop_part, drop_part, h.splitView_eq, h.splitView_eq]
  split_eq b r b' r' := by
    rw [drop_part, drop_part, h.split_eq, h.split_eq]
  le b r := by
    rw [drop_part, h.splitView_eq]
    exact h.le_of_mem_splitView

/-! ## A view that is not whole -/

/-- Whatever comes after the view, the scan comes to a place, with the same
tokens before it. -/
def ComesTo (sp : MethodSplitter) (v : List UInt8) (phase : Scan.Phase) (i : Nat) : Prop :=
  ∃ before, ∀ r, (sp.scan (v ++ r) v.length).tokens .start 0 =
    before ++ (sp.scan (v ++ r) v.length).tokens phase i

/-- The scan comes to a place unless something before it is not settled. -/
theorem comesTo_or (h : (sp.scan v v.length).Reached phase i) :
    sp.ComesTo v phase i ∨ ∃ phase i, (sp.scan v v.length).Reached phase i ∧ i < v.length ∧
      ¬ sp.Settled v phase i ∧ sp.ComesTo v phase i := by
  induction h with
  | start => exact .inl ⟨[], fun r => rfl⟩
  | @step phase phase' i i' hreached hstep ih =>
    rcases ih with ⟨before, hbefore⟩ | hunsettled
    · by_cases hsettled : i < v.length → sp.Settled v phase i
      · refine .inl ⟨before ++ (sp.scan v v.length).emitted phase i, fun r => ?_⟩
        have hagree := agree hsettled r
        rw [hbefore r, Scan.tokens_of_step (hagree.step hstep), ← hagree.emitted_eq,
          List.append_assoc]
      · rw [Classical.not_imp] at hsettled
        exact .inr ⟨phase, i, hreached, hsettled.1, hsettled.2, before, hbefore⟩
    · exact .inr hunsettled

theorem exists_unsettled (h : ¬ sp.IsWhole v) :
    sp.HasDelimiter ∧ ∃ phase i, (sp.scan v v.length).Reached phase i ∧ i < v.length ∧
      ¬ sp.Settled v phase i ∧ sp.ComesTo v phase i := by
  simp only [IsWhole, Classical.not_imp, not_forall] at h
  obtain ⟨hsp, phase, i, hreached, hi, hsettled⟩ := h
  refine ⟨hsp, ?_⟩
  rcases comesTo_or hreached with hcomes | hunsettled
  · exact ⟨phase, i, hreached, hi, hsettled, hcomes⟩
  · exact hunsettled

/-- The view ends in the delimiter: it can go on with the rest of it or not. -/
theorem exists_delimiterOffset (h : ¬ sp.DelimiterSettled v i) (hi : i < v.length) :
    (∃ r, v.length < i + (sp.scan (v ++ r) v.length).delimiterOffset i) ∧
      ∃ r, (sp.scan (v ++ r) v.length).delimiterOffset i = 0 := by
  simp only [DelimiterSettled, not_or, Option.not_isSome_iff_eq_none] at h
  obtain ⟨⟨r, hr⟩, ⟨r', hr'⟩, hlt⟩ := Str.exists_strncmpEqual_append h.2
  have hoffset : ∀ r, (sp.scan (v ++ r) v.length).delimiterOffset i =
      if Str.strncmpEqual (v.drop i ++ r) sp.delimiter then sp.delimiter.length else 0 := by
    intro r
    change sp.getDelimiterOffset ((v ++ r).drop i) = _
    have hhead : (v.drop i ++ r).headD 0 = (v.drop i).headD 0 := by
      rw [List.drop_eq_getElem_cons hi]
      rfl
    rw [List.drop_append_of_le_length hi.le, getDelimiterOffset, hhead, if_neg h.1]
  rw [List.length_drop] at hlt
  refine ⟨⟨r, ?_⟩, r', ?_⟩
  · rw [hoffset, hr, if_pos rfl]
    omega
  · rw [hoffset, hr', if_neg (by simp)]

/-- What comes after the view can close an enclosure that is not settled. -/
theorem exists_closedAt (h : ¬ sp.EnclosureSettled v i) :
    ∃ r k, v.length < k ∧ (sp.scan (v ++ r) v.length).enclosure i = .closedAt k := by
  simp only [EnclosureSettled, not_or, not_exists, not_and, scan] at h
  obtain ⟨hzero, hopened, hclosed⟩ := h
  rw [cString_of_notMem hzero] at hopened hclosed
  have hexists : ∃ t, (0 : UInt8) ∉ t ∧ ∃ k, v.length < k ∧
      Str.stoppingEncloseIndex (v ++ t) i (Str.cString sp.openEscapeSequences) sp.escapeChar =
        .closedAt k := by
    cases henclosure : Str.stoppingEncloseIndex v i (Str.cString sp.openEscapeSequences)
      sp.escapeChar with
    | notOpened => exact absurd henclosure hopened
    | neverEnds => exact Str.exists_closedAt_of_neverEnds henclosure
    | closedAt k =>
      have hle := (Str.lt_of_closedAt henclosure).2
      have hlast := hclosed k henclosure
      obtain rfl : k = v.length := by omega
      exact Str.exists_closedAt_of_last henclosure (not_not.mp hlast.2)
  obtain ⟨t, ht, k, hk, hclosedAt⟩ := hexists
  refine ⟨t, k, hk, ?_⟩
  simp only [scan]
  rwa [cString_append_of_notMem hzero, cString_of_notMem ht]

theorem reached_sound (S : Scan) (h : S.Reached phase i) : S.Sound phase i := by
  induction h with
  | start => trivial
  | step hreached hstep ih => exact ih.step hstep

/-- From a place, the tokens are not the same for all that comes after the view,
or one of them is not inside it. -/
def Escapes (sp : MethodSplitter) (v : List UInt8) (phase : Scan.Phase) (i : Nat) : Prop :=
  (∃ r r', (sp.scan (v ++ r) v.length).tokens phase i ≠
    (sp.scan (v ++ r') v.length).tokens phase i) ∨
  ∃ r, ∃ token ∈ (sp.scan (v ++ r) v.length).tokens phase i, v.length < token.1 + token.2

/-- A delimiter at the end that may go on after the view gives no token or one. -/
theorem escapes_of_filled (hempty : sp.emptyDelimitations = false)
    (hphase : ∀ x, phase ≠ .token x) (hi : i < v.length) (h : ¬ sp.DelimiterSettled v i) :
    sp.Escapes v phase i := by
  obtain ⟨⟨r, hr⟩, r', hr'⟩ := exists_delimiterOffset h hi
  have hnone : (sp.scan (v ++ r) v.length).tokens phase i = [] := by
    have hpass : ((sp.scan (v ++ r) v.length).passDelimiters i 0).1 =
        i + (sp.scan (v ++ r) v.length).delimiterOffset i := by
      rw [Scan.passDelimiters_of_delimiter hi (by omega),
        Scan.passDelimiters_eq_self fun hnot => absurd hnot.1 (Nat.not_lt.mpr hr.le)]
    rw [Scan.tokens_eq_of_filled hempty hphase i 0, hpass]
    exact if_neg (Nat.not_lt.mpr hr.le)
  have hsome := Scan.tokens_of_step (.opens hphase hi hr')
  rw [Scan.tokens_token] at hsome
  refine .inl ⟨r, r', fun heq => ?_⟩
  rw [hnone, hsome] at heq
  exact List.append_ne_nil_of_right_ne_nil _ (List.cons_ne_nil _ _) heq.symm

/-- With empty delimitations it can give an empty token after the view. -/
theorem escapes_of_empty (hempty : sp.emptyDelimitations = true)
    (hphase : ∀ x, phase ≠ .token x) (hi : i < v.length)
    (h : ¬ (sp.DelimiterSettled v i ∧
      i + (sp.scan v v.length).delimiterOffset i ≤ v.length)) :
    sp.Escapes v phase i := by
  have hoffset : ∃ r, v.length < i + (sp.scan (v ++ r) v.length).delimiterOffset i := by
    by_cases hsettled : sp.DelimiterSettled v i
    · refine ⟨[], ?_⟩
      rw [List.append_nil]
      exact Nat.not_le.mp fun hle => h ⟨hsettled, hle⟩
    · exact (exists_delimiterOffset hsettled hi).1
  obtain ⟨r, hr⟩ := hoffset
  exact .inr ⟨r, Scan.exists_mem_tokens_of_delimiter hempty hphase hi hr⟩

/-- A token ends where the view ends in a delimiter, or goes on. -/
theorem escapes_of_notOpened {x : Nat} (hle : x ≤ i) (hi : i < v.length)
    (henclosed : sp.EnclosureSettled v i)
    (hopened : (sp.scan v v.length).enclosure i = .notOpened)
    (h : ¬ sp.DelimiterSettled v i) : sp.Escapes v (.token x) i := by
  obtain ⟨⟨r, hr⟩, r', hr'⟩ := exists_delimiterOffset h hi
  have hopened' := fun t => (henclosed.enclosure_eq hi t).symm.trans hopened
  refine .inl ⟨r, r', fun heq => ?_⟩
  rw [Scan.tokens_token, Scan.tokens_token, Scan.endOfToken_of_notOpened hi (hopened' r),
    if_pos (by omega), Scan.endOfToken_of_notOpened hi (hopened' r'), hr',
    if_neg (Nat.lt_irrefl 0)] at heq
  have hsize := congrArg Prod.snd (List.cons.inj heq).1
  have hlt : i + 1 ≤ ((sp.scan (v ++ r') v.length).endOfToken (i + 1)).getD v.length := by
    cases hend : (sp.scan (v ++ r') v.length).endOfToken (i + 1) with
    | none => exact hi
    | some y => exact Scan.le_endOfToken hend
  change i - x = ((sp.scan (v ++ r') v.length).endOfToken (i + 1)).getD v.length - x at hsize
  omega

/-- An enclosure that closes after the view ends a token there. -/
theorem escapes_of_enclosure {x : Nat} (hle : x ≤ i) (hi : i < v.length)
    (h : ¬ sp.EnclosureSettled v i) : sp.Escapes v (.token x) i := by
  obtain ⟨r, k, hk, hclosed⟩ := exists_closedAt h
  refine .inr ⟨r, (x, k - x), ?_, ?_⟩
  · rw [Scan.tokens_token, Scan.endOfToken_of_closedAt hi hclosed, Scan.endOfToken_of_le hk.le]
    exact List.mem_cons_self
  · change v.length < x + (k - x)
    omega

theorem escapes_of_not_settled (hreached : (sp.scan v v.length).Reached phase i)
    (hi : i < v.length) (h : ¬ sp.Settled v phase i) : sp.Escapes v phase i := by
  by_cases hphase : ∀ x, phase ≠ .token x
  · have hnot : ¬ (sp.DelimiterSettled v i ∧ (sp.emptyDelimitations = true →
        i + (sp.scan v v.length).delimiterOffset i ≤ v.length)) := by
      cases phase with
      | start => exact h
      | passed => exact h
      | token x => exact absurd rfl (hphase x)
    cases hempty : sp.emptyDelimitations with
    | true => exact escapes_of_empty hempty hphase hi fun hs => hnot ⟨hs.1, fun _ => hs.2⟩
    | false =>
      exact escapes_of_filled hempty hphase hi fun hs =>
        hnot ⟨hs, fun htrue => by rw [hempty] at htrue; cases htrue⟩
  · obtain ⟨x, rfl⟩ : ∃ x, phase = .token x := by simpa using hphase
    have hle : x ≤ i := (reached_sound _ hreached).le
    by_cases henclosed : sp.EnclosureSettled v i
    · have hsettled : ¬ ((sp.scan v v.length).enclosure i = .notOpened →
          sp.DelimiterSettled v i) := fun hd => h ⟨henclosed, hd⟩
      rw [Classical.not_imp] at hsettled
      exact escapes_of_notOpened hle hi henclosed hsettled.1 hsettled.2
    · exact escapes_of_enclosure hle hi henclosed

/-- A splitter stays inside a view exactly when the view is whole for it. -/
theorem staysInside_iff (sp : MethodSplitter) (v : List UInt8) :
    sp.StaysInside v ↔ sp.IsWhole v := by
  refine ⟨fun h => ?_, IsWhole.staysInside⟩
  by_contra hnot
  obtain ⟨hsp, phase, i, hreached, hi, hsettled, before, hbefore⟩ := exists_unsettled hnot
  have htokens : ∀ r, sp.splitView (([] ++ v ++ r).drop ([] : List UInt8).length) v.length =
      before ++ (sp.scan (v ++ r) v.length).tokens phase i := by
    intro r
    rw [drop_part, splitView_of_hasDelimiter hsp, hbefore r]
  rcases escapes_of_not_settled hreached hi hsettled with ⟨r, r', hne⟩ | ⟨r, token, hmem, hlt⟩
  · have heq := h.splitView_eq [] r [] r'
    rw [htokens, htokens] at heq
    exact hne (List.append_cancel_left heq)
  · have hle := h.le [] r token
    rw [htokens] at hle
    exact absurd (hle (List.mem_append_right _ hmem)) (Nat.not_le.mpr hlt)

/-- The view `ab-` of `ab--c`, with the delimiter `--`: one token or the whole
view, with what comes after it. -/
theorem not_staysInside_dashes : ¬ ({ delimiter := [45, 45] } : MethodSplitter).StaysInside
    [97, 98, 45] := by
  intro h
  have heq := h.splitView_eq [] [45, 99] [] [99, 99]
  have hne : ({ delimiter := [45, 45] } : MethodSplitter).splitView [97, 98, 45, 45, 99] 3 ≠
      ({ delimiter := [45, 45] } : MethodSplitter).splitView [97, 98, 45, 99, 99] 3 := by
    decide +kernel
  exact hne heq

end Sihd.Util.MethodSplitter
