import Sihd.Lib.LexicalPath
import Sihd.Util.Splitter.Plain

/-!
# Paths

A path is a string of bytes, with `/` between its segments. `normalize` takes a
segment that begins with `..` for the parent of the one before it.
-/

namespace Sihd.Sys.Path

open Util

/-- The segments of a path. -/
def segments (path : List UInt8) : List (List UInt8) := Str.split path [Str.slash]

/-- The path from the root. -/
def isAbsolute (path : List UInt8) : Bool := path.head? == some Str.slash

/-- `..`. -/
def dotdot : List UInt8 := [46, 46]

/-- `.`. -/
def dot : List UInt8 := [46]

/-- One segment of the loop of `normalize`. -/
def push (lst : List (List UInt8)) (split : List UInt8) : List (List UInt8) :=
  if dotdot.isPrefixOf split ∧ 0 < lst.length then lst.dropLast else lst ++ [split]

def normalize (path : List UInt8) : List UInt8 :=
  let lst := (segments path).foldl push []
  let ret := [Str.slash].intercalate lst
  if isAbsolute path then Str.slash :: ret else ret

/-- The string of some segments. -/
def render (absolute : Bool) (names : List (List UInt8)) : List UInt8 :=
  (if absolute then [Str.slash] else []) ++ [Str.slash].intercalate names

/-- What stands between two separators. -/
def IsName (name : List UInt8) : Prop := name ≠ [] ∧ Str.slash ∉ name

/-! ### Separators -/

/-- The segments of a path between other separators, which `set_sep` sets. -/
def segmentsAt (sep : UInt8) (path : List UInt8) : List (List UInt8) := Str.split path [sep]

def isAbsoluteAt (sep : UInt8) (path : List UInt8) : Bool := path.head? == some sep

def renderAt (sep : UInt8) (absolute : Bool) (names : List (List UInt8)) : List UInt8 :=
  (if absolute then [sep] else []) ++ [sep].intercalate names

def IsNameAt (sep : UInt8) (name : List UInt8) : Prop := name ≠ [] ∧ sep ∉ name

section

variable {sep : UInt8}

theorem segmentsAt_eq (path : List UInt8) :
    segmentsAt sep path = (pieces [sep] path).filter fun p => p ≠ [] :=
  Str.split_eq (List.cons_ne_nil _ _) path

theorem isNameAt_of_mem_segmentsAt {path name : List UInt8} (h : name ∈ segmentsAt sep path) :
    IsNameAt sep name := Str.mem_split_char h

theorem segmentsAt_cons (path : List UInt8) :
    segmentsAt sep (sep :: path) = segmentsAt sep path := by
  rw [segmentsAt_eq, segmentsAt_eq, pieces_char_cons_self, List.filter_cons]
  exact if_neg (by simp)

/-- A separator ends a segment. -/
theorem segmentsAt_append (path path' : List UInt8) :
    segmentsAt sep (path ++ sep :: path') = segmentsAt sep path ++ segmentsAt sep path' := by
  have hpieces : ∀ s : List UInt8, pieces [sep] (s ++ sep :: path') =
      pieces [sep] s ++ pieces [sep] path' := fun s => by
    induction s with
    | nil =>
      rw [List.nil_append, pieces_char_cons_self, pieces_nil]
      rfl
    | cons c s ih =>
      rw [List.cons_append]
      by_cases hc : c = sep
      · rw [hc, pieces_char_cons_self, pieces_char_cons_self, ih]
        rfl
      · rw [pieces_char_cons hc, pieces_char_cons hc, ih]
        cases hp : pieces [sep] s with
        | nil => exact absurd hp (pieces_ne_nil _ _)
        | cons w l => rfl
  rw [segmentsAt_eq, segmentsAt_eq, segmentsAt_eq, hpieces, List.filter_append]

variable {names : List (List UInt8)} (h : ∀ name ∈ names, IsNameAt sep name)

include h

theorem segmentsAt_renderAt (absolute : Bool) :
    segmentsAt sep (renderAt sep absolute names) = names := by
  cases absolute with
  | false => exact Str.split_intercalate h
  | true =>
    rw [renderAt, if_pos rfl, List.singleton_append, segmentsAt_cons]
    exact Str.split_intercalate h

theorem isAbsoluteAt_renderAt (absolute : Bool) :
    isAbsoluteAt sep (renderAt sep absolute names) = absolute := by
  cases absolute with
  | true =>
    rw [isAbsoluteAt, beq_iff_eq]
    rfl
  | false =>
    change isAbsoluteAt sep ([sep].intercalate names) = false
    rw [isAbsoluteAt, beq_eq_false_iff_ne]
    intro hhead
    cases names with
    | nil => simp at hhead
    | cons name names =>
      obtain ⟨hne, hsep⟩ := h name List.mem_cons_self
      obtain ⟨c, cs, rfl⟩ := List.exists_cons_of_ne_nil hne
      have hc : c = sep := by
        cases names with
        | nil => simpa using hhead
        | cons name' names => simpa [List.intercalate_cons_cons] using hhead
      exact hsep (hc ▸ List.mem_cons_self)

end

theorem segments_eq (path : List UInt8) :
    segments path = (pieces [Str.slash] path).filter fun p => p ≠ [] := segmentsAt_eq path

theorem isName_of_mem_segments {path name : List UInt8} (h : name ∈ segments path) :
    IsName name := isNameAt_of_mem_segmentsAt h

theorem segments_slash_cons (path : List UInt8) :
    segments (Str.slash :: path) = segments path := segmentsAt_cons path

/-- A separator ends a segment. -/
theorem segments_append (path path' : List UInt8) :
    segments (path ++ Str.slash :: path') = segments path ++ segments path' :=
  segmentsAt_append path path'

section Render

variable {names : List (List UInt8)} (h : ∀ name ∈ names, IsName name)

include h

theorem segments_intercalate : segments ([Str.slash].intercalate names) = names :=
  Str.split_intercalate h

theorem segments_render (absolute : Bool) : segments (render absolute names) = names :=
  segmentsAt_renderAt h absolute

theorem isAbsolute_render (absolute : Bool) : isAbsolute (render absolute names) = absolute :=
  isAbsoluteAt_renderAt h absolute

end Render

theorem segments_nil : segments [] = [] := segments_intercalate (List.forall_mem_nil IsName)

theorem segments_singleton {name : List UInt8} (h : IsName name) : segments name = [name] := by
  have hsegments := segments_intercalate (List.forall_mem_singleton.mpr h)
  rwa [List.intercalate_singleton] at hsegments

/-- The segments that the loop of `normalize` leaves. -/
def normalNames (names : List (List UInt8)) : List (List UInt8) := names.foldl push []

theorem normalize_eq (path : List UInt8) :
    normalize path = render (isAbsolute path) (normalNames (segments path)) := by
  rw [normalize, render, normalNames]
  cases isAbsolute path <;> rfl

theorem mem_push {lst : List (List UInt8)} {split name : List UInt8} (h : name ∈ push lst split) :
    name ∈ lst ∨ name = split := by
  rw [push] at h
  split at h
  · exact .inl (List.mem_of_mem_dropLast h)
  · simpa using h

theorem mem_foldl_push {lst names : List (List UInt8)} {name : List UInt8}
    (h : name ∈ names.foldl push lst) : name ∈ lst ∨ name ∈ names := by
  induction names generalizing lst with
  | nil => exact .inl h
  | cons split names ih =>
    obtain hlst | hmem := ih h
    · rcases mem_push hlst with hlst | rfl
      · exact .inl hlst
      · exact .inr List.mem_cons_self
    · exact .inr (List.mem_cons_of_mem _ hmem)

/-- Only the first of the segments begins with `..`. -/
def IsNormal (names : List (List UInt8)) : Prop :=
  ∀ name ∈ names.tail, ¬ dotdot <+: name

theorem isNormal_push {lst : List (List UInt8)} (h : IsNormal lst) (split : List UInt8) :
    IsNormal (push lst split) := by
  rw [push]
  split
  · intro name hname
    rw [List.tail_dropLast] at hname
    exact h name (List.mem_of_mem_dropLast hname)
  · rename_i hpush
    intro name hname
    cases lst with
    | nil => cases hname
    | cons first lst =>
      rw [List.cons_append, List.tail_cons, List.mem_append, List.mem_singleton] at hname
      rcases hname with hname | rfl
      · exact h name hname
      · intro hprefix
        exact hpush ⟨by simpa using hprefix, Nat.succ_pos _⟩

theorem isNormal_foldl_push {lst : List (List UInt8)} (h : IsNormal lst)
    (names : List (List UInt8)) : IsNormal (names.foldl push lst) := by
  induction names generalizing lst with
  | nil => exact h
  | cons split names ih => exact ih (isNormal_push h split)

theorem isNormal_normalNames (names : List (List UInt8)) : IsNormal (normalNames names) :=
  isNormal_foldl_push (fun _ hname => by cases hname) names

/-- Segments that do not begin with `..` are pushed. -/
theorem foldl_push_of_forall {lst names : List (List UInt8)}
    (h : ∀ name ∈ names, ¬ dotdot <+: name) : names.foldl push lst = lst ++ names := by
  induction names generalizing lst with
  | nil => simp
  | cons split names ih =>
    rw [List.forall_mem_cons] at h
    have hpush : push lst split = lst ++ [split] := if_neg fun hp => h.1 (by simpa using hp.1)
    rw [List.foldl_cons, hpush, ih h.2, List.append_assoc, List.singleton_append]

/-- A normal list is its own normal form. -/
theorem normalNames_eq_self {names : List (List UInt8)} (h : IsNormal names) :
    normalNames names = names := by
  cases names with
  | nil => rfl
  | cons first names =>
    have hpush : push [] first = [first] := if_neg fun hp => absurd hp.2 (Nat.lt_irrefl 0)
    rw [normalNames, List.foldl_cons, hpush]
    exact foldl_push_of_forall h

theorem isName_normalNames {path name : List UInt8} (h : name ∈ normalNames (segments path)) :
    IsName name :=
  (mem_foldl_push h).elim (fun hnil => by cases hnil) isName_of_mem_segments

end Sihd.Sys.Path

/-!
## Normal paths and their parents

A path over any separator should be what is left of it when every `..` takes the
segment before it away. `normalize` does so where no segment is longer than the
`..` that it begins with, no `..` is left in front of another one and none stands
at the root.
-/

namespace Sihd.Sys.Path

open Util LexicalPath

/-- `normalize` over a separator that was set. -/
def normalizeAt (sep : UInt8) (path : List UInt8) : List UInt8 :=
  let lst := (segmentsAt sep path).foldl push []
  let ret := [sep].intercalate lst
  if isAbsoluteAt sep path then sep :: ret else ret

/-! ### Lexical resolution -/

/-- The path of what is left of the segments. -/
def lexicalAt (sep : UInt8) (path : List UInt8) : List UInt8 :=
  renderAt sep (isAbsoluteAt sep path)
    (reduce (isAbsoluteAt sep path) dotdot (segmentsAt sep path))

structure ResolvesLexically (sep : UInt8) (path : List UInt8) : Prop where
  eq_lexicalAt : normalizeAt sep path = lexicalAt sep path
  idempotent : normalizeAt sep (normalizeAt sep path) = normalizeAt sep path
  append : normalizeAt sep path ≠ [] → ∀ path',
    normalizeAt sep (path ++ sep :: path') = normalizeAt sep (normalizeAt sep path ++ sep :: path')
  /-- A relative path does not lose parents. -/
  climbs_le : isAbsoluteAt sep path = false →
    climbs dotdot (segmentsAt sep path) ≤ climbs dotdot (segmentsAt sep (normalizeAt sep path))

/-- Where a segment stands that begins with `..`: behind something that `..` takes away or at the
start of a relative path, and a longer one behind nothing at all. -/
def Fits (absolute : Bool) (stack : List (List UInt8)) (name : List UInt8) : Prop :=
  dotdot <+: name →
    if name = dotdot then if absolute then stack ≠ [] else stack.getLast? ≠ some dotdot
    else stack = []

/-- Every segment fits behind what is left of those before it. -/
def AllFit (absolute : Bool) (names : List (List UInt8)) : Prop :=
  ∀ before name after, names = before ++ name :: after →
    Fits absolute (reduce absolute dotdot before) name

/-! ### One segment -/

variable {sep : UInt8} {absolute : Bool}

theorem push_of_dotdot {stack : List (List UInt8)} {name : List UInt8} (h : dotdot <+: name)
    (hne : stack ≠ []) : push stack name = stack.dropLast :=
  if_pos ⟨List.isPrefixOf_iff_prefix.mpr h, List.length_pos_iff.mpr hne⟩

theorem push_of_not_dotdot (stack : List (List UInt8)) {name : List UInt8}
    (h : ¬ dotdot <+: name) : push stack name = stack ++ [name] :=
  if_neg fun hp => h (List.isPrefixOf_iff_prefix.mp hp.1)

theorem push_nil (name : List UInt8) : push [] name = [name] :=
  if_neg fun hp => absurd hp.2 (Nat.lt_irrefl 0)

/-- One turn of the loop is one step of the reduction iff the segment fits. -/
theorem push_eq_reduceStep_iff {stack : List (List UInt8)} (h : IsReduced absolute dotdot stack)
    (name : List UInt8) :
    push stack name = reduceStep absolute dotdot stack name ↔ Fits absolute stack name := by
  rw [Fits]
  by_cases hprefix : dotdot <+: name
  · rw [imp_iff_right hprefix]
    by_cases hname : name = dotdot
    · subst hname
      rw [if_pos rfl]
      rcases List.eq_nil_or_concat stack with rfl | ⟨stack, top, rfl⟩
      · rw [push_nil, reduceStep_nil]
        cases absolute <;> simp
      · have htop : absolute = true → top ≠ dotdot := by
          rintro rfl rfl
          exact not_mem_of_isReduced h (by simp)
        rw [List.concat_eq_append] at h ⊢
        rw [push_of_dotdot hprefix (by simp), reduceStep_concat, List.dropLast_concat,
          List.getLast?_concat]
        by_cases heq : top = dotdot
        · have hrelative : absolute = false := by
            rw [← Bool.not_eq_true]
            exact fun habsolute => htop habsolute heq
          rw [if_pos heq, if_neg (by simp [hrelative]), heq]
          simp
        · rw [if_neg heq]
          cases absolute <;> simp [heq]
    · rw [if_neg hname, reduceStep_of_ne hname]
      by_cases hnil : stack = []
      · rw [hnil, push_nil]
        simp
      · rw [push_of_dotdot hprefix hnil]
        refine iff_of_false (fun heq => ?_) hnil
        have hlength := congrArg List.length heq
        rw [List.length_dropLast, List.length_append, List.length_singleton] at hlength
        omega
  · have hname : name ≠ dotdot := by
      rintro rfl
      exact hprefix (List.prefix_refl _)
    rw [push_of_not_dotdot stack hprefix, reduceStep_of_ne hname]
    exact iff_of_true rfl fun hp => absurd hp hprefix

theorem normalNames_concat (names : List (List UInt8)) (name : List UInt8) :
    normalNames (names ++ [name]) = push (normalNames names) name := List.foldl_concat _ _ _ _

/-- The loop is a reduction at every place iff all segments fit. -/
theorem normalNames_eq_reduce_iff (names : List (List UInt8)) :
    (∀ before, before <+: names → normalNames before = reduce absolute dotdot before) ↔
      AllFit absolute names := by
  constructor
  · rintro h before name after rfl
    have hbefore := h before (List.prefix_append _ _)
    have hnext := h (before ++ [name]) (by simp)
    rw [normalNames_concat, reduce_concat, hbefore] at hnext
    exact (push_eq_reduceStep_iff (isReduced_reduce before) name).mp hnext
  · rintro h before ⟨after, rfl⟩
    induction before using List.reverseRecOn generalizing after with
    | nil => rfl
    | append_singleton before name ih =>
      rw [List.append_assoc] at h
      rw [normalNames_concat, reduce_concat, ih _ h]
      exact (push_eq_reduceStep_iff (isReduced_reduce before) name).mpr
        (h before name after rfl)

/-! ### Paths -/

theorem normalizeAt_eq (path : List UInt8) : normalizeAt sep path =
    renderAt sep (isAbsoluteAt sep path) (normalNames (segmentsAt sep path)) := by
  rw [normalizeAt, renderAt, normalNames]
  cases isAbsoluteAt sep path <;> rfl

theorem isNameAt_normalNames {names : List (List UInt8)} (h : ∀ name ∈ names, IsNameAt sep name) :
    ∀ name ∈ normalNames names, IsNameAt sep name :=
  fun name hname => (mem_foldl_push hname).elim (fun hnil => by cases hnil) (h name)

theorem isNameAt_reduce {names : List (List UInt8)} (h : ∀ name ∈ names, IsNameAt sep name) :
    ∀ name ∈ reduce absolute dotdot names, IsNameAt sep name :=
  fun name hname => h name (mem_reduce hname)

theorem isAbsoluteAt_normalizeAt (path : List UInt8) :
    isAbsoluteAt sep (normalizeAt sep path) = isAbsoluteAt sep path := by
  rw [normalizeAt_eq]
  exact isAbsoluteAt_renderAt (isNameAt_normalNames fun _ => isNameAt_of_mem_segmentsAt) _

theorem segmentsAt_normalizeAt (path : List UInt8) :
    segmentsAt sep (normalizeAt sep path) = normalNames (segmentsAt sep path) := by
  rw [normalizeAt_eq]
  exact segmentsAt_renderAt (isNameAt_normalNames fun _ => isNameAt_of_mem_segmentsAt) _

theorem normalizeAt_normalizeAt (path : List UInt8) :
    normalizeAt sep (normalizeAt sep path) = normalizeAt sep path := by
  rw [normalizeAt_eq, segmentsAt_normalizeAt, isAbsoluteAt_normalizeAt,
    normalNames_eq_self (isNormal_normalNames _), ← normalizeAt_eq]

theorem isAbsoluteAt_append {path : List UInt8} (h : path ≠ []) (path' : List UInt8) :
    isAbsoluteAt sep (path ++ path') = isAbsoluteAt sep path := by
  obtain ⟨c, cs, rfl⟩ := List.exists_cons_of_ne_nil h
  rfl

theorem normalizeAt_nil (sep : UInt8) : normalizeAt sep [] = [] := by
  rw [normalizeAt, segmentsAt_eq, pieces_nil]
  rfl

theorem normalizeAt_append {path : List UInt8} (h : normalizeAt sep path ≠ [])
    (path' : List UInt8) : normalizeAt sep (path ++ sep :: path') =
      normalizeAt sep (normalizeAt sep path ++ sep :: path') := by
  have hpath : path ≠ [] := by
    rintro rfl
    exact h (normalizeAt_nil sep)
  rw [normalizeAt_eq, normalizeAt_eq, isAbsoluteAt_append hpath, isAbsoluteAt_append h,
    isAbsoluteAt_normalizeAt, segmentsAt_append, segmentsAt_append, segmentsAt_normalizeAt]
  refine congrArg _ ?_
  rw [normalNames, normalNames, List.foldl_append, List.foldl_append]
  refine congrArg (fun lst => (segmentsAt sep path').foldl push lst) ?_
  exact (normalNames_eq_self (isNormal_normalNames _)).symm

theorem eq_lexicalAt_iff (path : List UInt8) : normalizeAt sep path = lexicalAt sep path ↔
    normalNames (segmentsAt sep path) =
      reduce (isAbsoluteAt sep path) dotdot (segmentsAt sep path) := by
  rw [normalizeAt_eq, lexicalAt]
  constructor
  · intro heq
    have hnames : ∀ name ∈ segmentsAt sep path, IsNameAt sep name :=
      fun _ => isNameAt_of_mem_segmentsAt
    have hsegments := congrArg (segmentsAt sep) heq
    rwa [segmentsAt_renderAt (isNameAt_normalNames hnames),
      segmentsAt_renderAt (isNameAt_reduce hnames)] at hsegments
  · exact fun heq => congrArg _ heq

theorem resolvesLexically_of_eq {path : List UInt8}
    (h : normalNames (segmentsAt sep path) =
      reduce (isAbsoluteAt sep path) dotdot (segmentsAt sep path)) :
    ResolvesLexically sep path where
  eq_lexicalAt := (eq_lexicalAt_iff path).mpr h
  idempotent := normalizeAt_normalizeAt path
  append := normalizeAt_append
  climbs_le := by
    intro hrelative
    rw [segmentsAt_normalizeAt, h, hrelative, climbs_reduce]

/-- The paths that the first segments of a path make, the whole of it among them, are resolved
lexically iff all segments fit. -/
theorem resolvesLexically_iff (sep : UInt8) (path : List UInt8) :
    (ResolvesLexically sep path ∧ ∀ names, names <+: segmentsAt sep path →
      ResolvesLexically sep (renderAt sep (isAbsoluteAt sep path) names)) ↔
      AllFit (isAbsoluteAt sep path) (segmentsAt sep path) := by
  rw [← normalNames_eq_reduce_iff]
  have hnames : ∀ names, names <+: segmentsAt sep path → ∀ name ∈ names, IsNameAt sep name :=
    fun names hprefix name hname => isNameAt_of_mem_segmentsAt (List.IsPrefix.subset hprefix hname)
  constructor
  · intro h names hprefix
    have heq := (eq_lexicalAt_iff _).mp (h.2 names hprefix).eq_lexicalAt
    rwa [segmentsAt_renderAt (hnames names hprefix),
      isAbsoluteAt_renderAt (hnames names hprefix)] at heq
  · intro h
    refine ⟨resolvesLexically_of_eq (h _ (List.prefix_refl _)), fun names hprefix => ?_⟩
    refine resolvesLexically_of_eq ?_
    rw [segmentsAt_renderAt (hnames names hprefix), isAbsoluteAt_renderAt (hnames names hprefix)]
    exact h names hprefix

/-- `a/..b` is made nothing. -/
theorem not_resolvesLexically_dotdotName :
    ¬ ResolvesLexically Str.slash [97, 47, 46, 46, 98] := by
  intro h
  have hsegments : segmentsAt Str.slash [97, 47, 46, 46, 98] = [[97], [46, 46, 98]] :=
    Str.split_intercalate (d := Str.slash) (l := [[97], [46, 46, 98]]) (by decide)
  have heq := (eq_lexicalAt_iff _).mp h.eq_lexicalAt
  rw [hsegments] at heq
  revert heq
  decide

end Sihd.Sys.Path
