import Sihd.Http.Decoding

/-!
# What a route matches

`Aligned` aligns the segments of a pattern with the decoded segments of a path,
all of both: a literal with a segment that it is, a parameter with a segment, a
catch-all with one segment or more. A route returns when it reaches its first
catch-all, so it matches by the alignments of its pattern unless segments stand
behind that one.
-/

namespace Sihd.Http

open Util.Str

abbrev Segment.literal (value : List UInt8) : Segment := ⟨value, false, false⟩

abbrev Segment.param (name : List UInt8) : Segment := ⟨name, true, false⟩

abbrev Segment.catchAll (name : List UInt8) : Segment := ⟨name, true, true⟩

/-- The names, in the order of their segments, with what they are aligned with. -/
abbrev Bindings := List (List UInt8 × List UInt8)

inductive Aligned : List Segment → List (List UInt8) → Bindings → Prop
  | nil : Aligned [] [] []
  | literal {segments ds bindings} (d : List UInt8) :
      Aligned segments ds bindings → Aligned (.literal d :: segments) (d :: ds) bindings
  | param {segments ds bindings} (name d : List UInt8) :
      Aligned segments ds bindings →
        Aligned (.param name :: segments) (d :: ds) ((name, d) :: bindings)
  | catchAll {segments ds bindings} (name : List UInt8) {taken : List (List UInt8)} :
      taken ≠ [] → Aligned segments ds bindings →
        Aligned (.catchAll name :: segments) (taken ++ ds)
          ((name, [slash].intercalate taken) :: bindings)

/-- A parameter map that has the bindings of an alignment. -/
def Binds (segments : List Segment) (ds : List (List UInt8)) (params : Params) : Prop :=
  ∃ bindings, Aligned segments ds bindings ∧ params = OrderedMap.empty.setAll bindings

section

variable {Handler : Type}

/-- A route matches a path iff they can be aligned, with the parameters of an alignment. -/
def Route.MatchesExactly (r : Route Handler) (path : List UInt8) : Prop :=
  ((r.matchPath path).isSome ↔
      ∃ bindings, Aligned r.segments (decodedSegments path) bindings) ∧
    ∀ params, r.matchPath path = some params →
      Binds r.segments (decodedSegments path) params

/-- The path is long enough, its first segments are aligned with what the pattern has before its
first catch-all, and segments of the pattern stand behind that one. -/
def Route.LeavesUnchecked (r : Route Handler) (path : List UInt8) : Prop :=
  ∃ before name after matched rest bindings,
    r.segments = before ++ .catchAll name :: after ∧ after ≠ [] ∧
      (∀ segment ∈ before, segment.isCatchAll = false) ∧
      decodedSegments path = matched ++ rest ∧ Aligned before matched bindings ∧
      r.segments.length ≤ (decodedSegments path).length

end

/-! ### Alignments -/

namespace Aligned

variable {segments tail : List Segment} {ds rest : List (List UInt8)}
  {bindings bindings' : Bindings}

theorem length_le (h : Aligned segments ds bindings) : segments.length ≤ ds.length := by
  induction h with
  | nil => exact Nat.le_refl _
  | literal d _ ih => exact Nat.succ_le_succ ih
  | param name d _ ih => exact Nat.succ_le_succ ih
  | catchAll name htaken _ ih =>
    have hpos := List.length_pos_iff.mpr htaken
    rw [List.length_cons, List.length_append]
    omega

theorem length_eq (h : Aligned segments ds bindings)
    (hsegments : ∀ segment ∈ segments, segment.isCatchAll = false) :
    segments.length = ds.length := by
  induction h with
  | nil => rfl
  | literal d _ ih => exact congrArg Nat.succ (ih (List.forall_mem_cons.mp hsegments).2)
  | param name d _ ih => exact congrArg Nat.succ (ih (List.forall_mem_cons.mp hsegments).2)
  | catchAll name _ _ _ => cases (List.forall_mem_cons.mp hsegments).1

theorem append (h : Aligned segments ds bindings) (htail : Aligned tail rest bindings') :
    Aligned (segments ++ tail) (ds ++ rest) (bindings ++ bindings') := by
  induction h with
  | nil => exact htail
  | literal d _ ih => exact .literal d ih
  | param name d _ ih => exact .param name d ih
  | catchAll name htaken _ ih =>
    rw [List.append_assoc]
    exact .catchAll name htaken ih

/-- An alignment of a pattern aligns its two halves. -/
theorem of_append (h : Aligned (segments ++ tail) ds bindings) :
    ∃ ds₁ ds₂ bindings₁ bindings₂, ds = ds₁ ++ ds₂ ∧ bindings = bindings₁ ++ bindings₂ ∧
      Aligned segments ds₁ bindings₁ ∧ Aligned tail ds₂ bindings₂ := by
  induction segments generalizing ds bindings with
  | nil => exact ⟨[], ds, [], bindings, rfl, rfl, .nil, h⟩
  | cons segment segments ih =>
    cases h with
    | literal d h =>
      obtain ⟨ds₁, ds₂, b₁, b₂, rfl, rfl, h₁, h₂⟩ := ih h
      exact ⟨d :: ds₁, ds₂, b₁, b₂, rfl, rfl, .literal d h₁, h₂⟩
    | param name d h =>
      obtain ⟨ds₁, ds₂, b₁, b₂, rfl, rfl, h₁, h₂⟩ := ih h
      exact ⟨d :: ds₁, ds₂, (name, d) :: b₁, b₂, rfl, rfl, .param name d h₁, h₂⟩
    | catchAll name htaken h =>
      obtain ⟨ds₁, ds₂, b₁, b₂, rfl, rfl, h₁, h₂⟩ := ih h
      exact ⟨_, ds₂, _ :: b₁, b₂, (List.append_assoc _ _ _).symm, rfl,
        .catchAll name htaken h₁, h₂⟩

end Aligned

theorem length_intercalate_append_le (l l' : List (List UInt8)) :
    ([slash].intercalate l').length ≤ ([slash].intercalate (l ++ l')).length := by
  rw [length_intercalate, length_intercalate, List.flatten_append, List.length_append,
    List.length_append]
  omega

/-- Two lists of segments are joined by one slash more. -/
theorem length_intercalate_append {l l' : List (List UInt8)} (hl : l ≠ []) (hl' : l' ≠ []) :
    ([slash].intercalate (l ++ l')).length =
      ([slash].intercalate l).length + 1 + ([slash].intercalate l').length := by
  have hpos := List.length_pos_iff.mpr hl
  have hpos' := List.length_pos_iff.mpr hl'
  rw [length_intercalate, length_intercalate, length_intercalate, List.flatten_append,
    List.length_append, List.length_append]
  omega

/-- A name is aligned with no more than there is. -/
theorem Aligned.length_le_of_mem {segments : List Segment} {ds : List (List UInt8)}
    {bindings : Bindings} (h : Aligned segments ds bindings) :
    ∀ b ∈ bindings, b.2.length ≤ ([slash].intercalate ds).length := by
  induction h with
  | nil => exact List.forall_mem_nil _
  | @literal _ ds _ d _ ih =>
    exact fun b hb => (ih b hb).trans (length_intercalate_append_le [d] ds)
  | @param _ ds _ name d _ ih =>
    refine List.forall_mem_cons.mpr ⟨?_, fun b hb =>
      (ih b hb).trans (length_intercalate_append_le [d] ds)⟩
    change d.length ≤ _
    rw [length_intercalate, List.flatten_cons, List.length_append]
    omega
  | @catchAll _ ds _ name taken _ _ ih =>
    refine List.forall_mem_cons.mpr ⟨?_, fun b hb =>
      (ih b hb).trans (length_intercalate_append_le taken ds)⟩
    rw [length_intercalate, length_intercalate, List.flatten_append, List.length_append,
      List.length_append]
    omega

/-! ### The loop over the segments -/

theorem setAll_cons (m : Params) (b : List UInt8 × List UInt8) (l : Bindings) :
    m.setAll (b :: l) = (m.set b.1 b.2).setAll l := rfl

theorem setAll_append (m : Params) (l l' : Bindings) :
    m.setAll (l ++ l') = (m.setAll l).setAll l' := List.foldl_append

theorem aligned_literal_iff {value d : List UInt8} {bindings : Bindings} :
    Aligned [.literal value] [d] bindings ↔ value = d ∧ bindings = [] := by
  constructor
  · intro h
    cases h with
    | literal _ h =>
      cases h
      exact ⟨rfl, rfl⟩
  · rintro ⟨rfl, rfl⟩
    exact .literal value .nil

theorem aligned_param_iff {name d : List UInt8} {bindings : Bindings} :
    Aligned [.param name] [d] bindings ↔ bindings = [(name, d)] := by
  constructor
  · intro h
    cases h with
    | param _ _ h =>
      cases h
      rfl
  · rintro rfl
    exact .param name d .nil

/-- A segment that is not a catch-all takes one part, or fails. -/
theorem matchDecoded_cons_eq_some {segment : Segment} (hsegment : segment.isCatchAll = false)
    {segments : List Segment} {ds : List (List UInt8)} {params p : Params} :
    matchDecoded (segment :: segments) ds params = some p ↔
      ∃ d ds' bindings, ds = d :: ds' ∧ Aligned [segment] [d] bindings ∧
        matchDecoded segments ds' (params.setAll bindings) = some p := by
  obtain ⟨value, isParam, isCatchAll⟩ := segment
  cases (hsegment : isCatchAll = false)
  cases ds with
  | nil => simp [matchDecoded]
  | cons d ds =>
    cases isParam with
    | true =>
      constructor
      · exact fun h => ⟨d, ds, _, rfl, aligned_param_iff.mpr rfl, h⟩
      · rintro ⟨_, _, b, ⟨⟩, hb, h⟩
        cases aligned_param_iff.mp hb
        exact h
    | false =>
      constructor
      · intro h
        rw [matchDecoded, if_neg Bool.false_ne_true] at h
        dsimp only at h
        rw [if_neg Bool.false_ne_true, ite_eq_iff] at h
        rcases h with ⟨-, ⟨⟩⟩ | ⟨hvalue, h⟩
        exact ⟨d, ds, [], rfl, aligned_literal_iff.mpr ⟨not_not.mp hvalue, rfl⟩, h⟩
      · rintro ⟨_, _, b, ⟨⟩, hb, h⟩
        obtain ⟨rfl, rfl⟩ := aligned_literal_iff.mp hb
        rw [matchDecoded, if_neg Bool.false_ne_true]
        dsimp only
        rw [if_neg Bool.false_ne_true, if_neg (not_not.mpr rfl)]
        exact h

theorem matchDecoded_append_eq_some {before : List Segment}
    (hbefore : ∀ segment ∈ before, segment.isCatchAll = false) {tail : List Segment}
    {ds : List (List UInt8)} {params p : Params} :
    matchDecoded (before ++ tail) ds params = some p ↔
      ∃ matched rest bindings, ds = matched ++ rest ∧ Aligned before matched bindings ∧
        matchDecoded tail rest (params.setAll bindings) = some p := by
  induction before generalizing ds params with
  | nil =>
    constructor
    · exact fun h => ⟨[], ds, [], rfl, .nil, h⟩
    · rintro ⟨_, _, _, rfl, ⟨⟩, h⟩
      exact h
  | cons segment before ih =>
    rw [List.forall_mem_cons] at hbefore
    rw [List.cons_append, matchDecoded_cons_eq_some hbefore.1]
    constructor
    · rintro ⟨d, ds', b, rfl, hd, h⟩
      obtain ⟨matched, rest, b', rfl, hmatched, h⟩ := (ih hbefore.2).mp h
      refine ⟨d :: matched, rest, b ++ b', rfl, hd.append hmatched, ?_⟩
      rwa [setAll_append]
    · rintro ⟨matched, rest, b, rfl, hmatched, h⟩
      rw [← List.singleton_append] at hmatched
      obtain ⟨ds₁, ds₂, b₁, b₂, rfl, rfl, h₁, h₂⟩ := hmatched.of_append
      obtain ⟨d, rfl⟩ := List.length_eq_one_iff.mp
        (h₁.length_eq (List.forall_mem_singleton.mpr hbefore.1)).symm
      rw [setAll_append] at h
      exact ⟨d, ds₂ ++ rest, b₁, rfl, h₁, (ih hbefore.2).mpr ⟨ds₂, rest, b₂, rfl, h₂, h⟩⟩

/-! ### The routes -/

theorem Segment.ofPart_of_isCatchAll {part : List UInt8}
    (h : (Segment.ofPart part).isCatchAll = true) :
    ∃ name, Segment.ofPart part = .catchAll name := by
  rw [Segment.ofPart] at h ⊢
  split at h
  · rw [if_pos ‹_›]
    dsimp only at h ⊢
    split at h
    · rw [if_pos ‹_›]
      exact ⟨_, rfl⟩
    · cases h
  · cases h

namespace Route

variable {Handler : Type} {r : Route Handler}

theorem exists_first_catchAll (h : r.hasCatchAll = true) :
    ∃ before name after, r.segments = before ++ .catchAll name :: after ∧
      ∀ segment ∈ before, segment.isCatchAll = false := by
  obtain ⟨segment, hmem, hcatchAll⟩ := List.any_eq_true.mp h
  obtain ⟨segment, before, after, hbefore, hcatchAll, heq, -⟩ :=
    List.exists_of_eraseP hmem hcatchAll
  have hpart : segment ∈ r.segments := heq ▸ List.mem_append_right _ List.mem_cons_self
  obtain ⟨part, -, rfl⟩ := List.mem_map.mp hpart
  obtain ⟨name, hname⟩ := Segment.ofPart_of_isCatchAll hcatchAll
  exact ⟨before, name, after, hname ▸ heq, fun s hs => Bool.eq_false_iff.mpr (hbefore s hs)⟩

variable {path : List UInt8} {p : Params}

theorem matchPath_eq_some_iff_of_no_catchAll (h : r.hasCatchAll = false) :
    r.matchPath path = some p ↔ Binds r.segments (decodedSegments path) p := by
  have hsegments : ∀ segment ∈ r.segments, segment.isCatchAll = false := by
    simpa [hasCatchAll] using h
  have hmatch : matchDecoded (r.segments ++ []) (decodedSegments path) .empty = some p ↔ _ :=
    matchDecoded_append_eq_some hsegments
  rw [List.append_nil] at hmatch
  rw [matchPath_eq, matchSegments, fits, h, if_neg Bool.false_ne_true]
  constructor
  · intro heq
    obtain ⟨hlength, heq⟩ := Option.ite_none_right_eq_some.mp heq
    obtain ⟨matched, rest, b, hds, hmatched, heq⟩ := hmatch.mp heq
    have hrest : rest = [] := by
      have := hmatched.length_eq hsegments
      rw [decide_eq_true_iff, hds, List.length_append] at hlength
      exact List.length_eq_zero_iff.mp (by omega)
    subst hrest
    rw [List.append_nil] at hds
    exact ⟨b, hds ▸ hmatched, (Option.some_inj.mp heq).symm⟩
  · rintro ⟨b, hb, rfl⟩
    rw [if_pos (decide_eq_true (hb.length_eq hsegments).symm)]
    exact hmatch.mpr ⟨_, [], b, (List.append_nil _).symm, hb, rfl⟩

/-- The first catch-all of a route is given all the parts that are left. -/
theorem matchPath_eq_some_iff_of_catchAll {before after : List Segment} {name : List UInt8}
    (hsegments : r.segments = before ++ .catchAll name :: after)
    (hbefore : ∀ segment ∈ before, segment.isCatchAll = false) :
    r.matchPath path = some p ↔ r.segments.length ≤ (decodedSegments path).length ∧
      ∃ matched rest bindings, decodedSegments path = matched ++ rest ∧
        Aligned before matched bindings ∧
        p = (OrderedMap.empty.setAll bindings).set name ([slash].intercalate rest) := by
  have hcatchAll : r.hasCatchAll = true := by simp [hasCatchAll, hsegments]
  rw [matchPath_eq, matchSegments, fits, if_pos hcatchAll, Option.ite_none_right_eq_some,
    decide_eq_true_iff, hsegments, matchDecoded_append_eq_some hbefore]
  refine and_congr_right fun _ => ?_
  refine exists_congr fun matched => exists_congr fun rest => exists_congr fun b => ?_
  refine and_congr_right fun _ => and_congr_right fun _ => ?_
  rw [matchDecoded.eq_def]
  dsimp only
  rw [if_pos rfl, Option.some_inj, eq_comm]

/-- No alignment binds the first catch-all to what is aligned behind it. -/
theorem not_binds_of_leavesUnchecked {before after : List Segment} {name : List UInt8}
    {matched rest : List (List UInt8)} {bindings : Bindings} (hafter : after ≠ [])
    (hbefore : ∀ segment ∈ before, segment.isCatchAll = false)
    (hmatched : Aligned before matched bindings) :
    ¬ Binds (before ++ .catchAll name :: after) (matched ++ rest)
      ((OrderedMap.empty.setAll bindings).set name ([slash].intercalate rest)) := by
  rintro ⟨bindings', haligned, heq⟩
  obtain ⟨ds₁, ds₂, b₁, b₂, hds, rfl, h₁, h₂⟩ := haligned.of_append
  -- the segments before the catch-all are aligned with as many segments of the path
  have hlength : matched.length = ds₁.length :=
    (hmatched.length_eq hbefore).symm.trans (h₁.length_eq hbefore)
  obtain ⟨rfl, rfl⟩ := List.append_inj hds hlength
  cases h₂ with
  | @catchAll _ ds b _ taken htaken h₂ =>
    have hds : ds ≠ [] := by
      rintro rfl
      have := h₂.length_le
      exact hafter (List.length_eq_zero_iff.mp (by simpa using this))
    have hjoin := length_intercalate_append htaken hds
    have hfind : (OrderedMap.empty.setAll (b₁ ++ (name, [slash].intercalate taken) :: b)).find
        name = some ([slash].intercalate (taken ++ ds)) := by
      rw [← heq, OrderedMap.find_set_self]
    rw [setAll_append, setAll_cons] at hfind
    obtain ⟨v, hv, hcase⟩ := OrderedMap.find_setAll_of_find
      ((OrderedMap.empty.setAll b₁).find_set_self name ([slash].intercalate taken)) b
    rw [hfind, Option.some_inj] at hv
    -- the name is bound to less than all that is left
    rcases hcase with rfl | hmem
    · rw [← hv] at hjoin
      omega
    · have := h₂.length_le_of_mem _ hmem
      dsimp only at this
      rw [← hv] at this
      omega

theorem LeavesUnchecked.not_matchesExactly (h : r.LeavesUnchecked path) :
    ¬ r.MatchesExactly path := by
  obtain ⟨before, name, after, matched, rest, b, hsegments, hafter, hbefore, hds, hmatched,
    hlength⟩ := h
  intro hexact
  have hmatch := (matchPath_eq_some_iff_of_catchAll hsegments hbefore).mpr
    ⟨hlength, matched, rest, b, hds, hmatched, rfl⟩
  have hbinds := hexact.2 _ hmatch
  rw [hsegments, hds] at hbinds
  exact not_binds_of_leavesUnchecked hafter hbefore hmatched hbinds

theorem matchesExactly_of_eq_some_iff
    (h : ∀ p, r.matchPath path = some p ↔ Binds r.segments (decodedSegments path) p) :
    r.MatchesExactly path := by
  refine ⟨?_, fun p => (h p).mp⟩
  rw [Option.isSome_iff_exists]
  constructor
  · rintro ⟨p, hp⟩
    obtain ⟨b, hb, -⟩ := (h p).mp hp
    exact ⟨b, hb⟩
  · rintro ⟨b, hb⟩
    exact ⟨_, (h _).mpr ⟨b, hb, rfl⟩⟩

/-- A catch-all that ends its pattern is aligned with all that is left. -/
theorem matchPath_eq_some_iff_of_last {before : List Segment} {name : List UInt8}
    (hsegments : r.segments = before ++ [.catchAll name])
    (hbefore : ∀ segment ∈ before, segment.isCatchAll = false) :
    r.matchPath path = some p ↔ Binds r.segments (decodedSegments path) p := by
  rw [matchPath_eq_some_iff_of_catchAll hsegments hbefore, hsegments]
  constructor
  · rintro ⟨hlength, matched, rest, b, hds, hmatched, rfl⟩
    have hrest : rest ≠ [] := by
      rintro rfl
      have := hmatched.length_eq hbefore
      rw [hds, List.length_append, List.length_append, List.length_singleton] at hlength
      simp only [List.length_nil] at hlength
      omega
    have hlast := Aligned.catchAll name hrest .nil
    rw [List.append_nil] at hlast
    refine ⟨b ++ [(name, [slash].intercalate rest)], hds ▸ hmatched.append hlast, ?_⟩
    rw [setAll_append, setAll_cons]
    rfl
  · rintro ⟨b, hb, rfl⟩
    refine ⟨hb.length_le, ?_⟩
    obtain ⟨ds₁, ds₂, b₁, b₂, hds, rfl, h₁, h₂⟩ := hb.of_append
    cases h₂ with
    | @catchAll _ ds b _ taken htaken h₂ =>
      cases h₂
      rw [List.append_nil] at hds
      refine ⟨ds₁, taken, b₁, hds, h₁, ?_⟩
      rw [setAll_append, setAll_cons]
      rfl

/-- A route matches by the alignments of its pattern and of a path iff the path does not bring it
to a catch-all with segments behind it. -/
theorem matchesExactly_iff (r : Route Handler) (path : List UInt8) :
    r.MatchesExactly path ↔ ¬ r.LeavesUnchecked path := by
  constructor
  · exact fun hexact h => h.not_matchesExactly hexact
  · intro h
    cases hcatchAll : r.hasCatchAll with
    | false =>
      exact matchesExactly_of_eq_some_iff fun p => matchPath_eq_some_iff_of_no_catchAll hcatchAll
    | true =>
      obtain ⟨before, name, after, hsegments, hbefore⟩ := exists_first_catchAll hcatchAll
      by_cases hafter : after = []
      · subst hafter
        exact matchesExactly_of_eq_some_iff fun p =>
          matchPath_eq_some_iff_of_last hsegments hbefore
      -- a pattern that is left unchecked neither matches nor is aligned here
      · have hreached : ∀ matched rest b, decodedSegments path = matched ++ rest →
            Aligned before matched b → ¬ r.segments.length ≤ (decodedSegments path).length :=
          fun matched rest b hds hmatched hlength => h ⟨before, name, after, matched, rest, b,
            hsegments, hafter, hbefore, hds, hmatched, hlength⟩
        refine matchesExactly_of_eq_some_iff fun p => iff_of_false ?_ ?_
        · rw [matchPath_eq_some_iff_of_catchAll hsegments hbefore]
          rintro ⟨hlength, matched, rest, b, hds, hmatched, -⟩
          exact hreached matched rest b hds hmatched hlength
        · rintro ⟨b, hb, -⟩
          have hlength := hb.length_le
          rw [hsegments] at hb
          obtain ⟨ds₁, ds₂, b₁, b₂, hds, -, h₁, -⟩ := hb.of_append
          exact hreached ds₁ ds₂ b₁ hds h₁ hlength

/-- The route `{a...}/x` matches the path `y/z`. -/
theorem not_matchesExactly_catchAll :
    ¬ (⟨[slash].intercalate [catchAllPart, [120]], ()⟩ : Route Unit).MatchesExactly
      ([slash].intercalate [[121], [122]]) := by
  have hsegments : (⟨[slash].intercalate [catchAllPart, [120]], ()⟩ : Route Unit).segments =
      [.catchAll [97], .literal [120]] := by
    rw [Route.segments, split_intercalate (by decide)]
    rfl
  have hds : decodedSegments ([slash].intercalate [[121], [122]]) = [[121], [122]] := by
    rw [decodedSegments, split_intercalate (by decide)]
    simp [strDecode, percentDecode]
  refine LeavesUnchecked.not_matchesExactly ?_
  refine ⟨[], [97], [.literal [120]], [], [[121], [122]], [], hsegments, List.cons_ne_nil _ _,
    List.forall_mem_nil _, hds, .nil, ?_⟩
  rw [hsegments, hds]
  exact le_rfl

end Route

end Sihd.Http
