import Sihd.Sys.Path

/-!
# The jail of a root

`jail` takes the path of a client for one below a root. The joined path is normalized
and compared with the root as a string, and so is the answer of `realpath`; a path
that is not under the root becomes the root.
-/

namespace Sihd.Sys.Path

open Util LexicalPath

/-- The loop that drops the separators at the end, on the reversed path. -/
def dropSeparatorsRev : List UInt8 → List UInt8
  | [] => []
  | [c] => [c]
  | c :: d :: path => if c = Str.slash then dropSeparatorsRev (d :: path) else c :: d :: path

def dropSeparators (path : List UInt8) : List UInt8 :=
  (dropSeparatorsRev path.reverse).reverse

def underRoot (root p : List UInt8) : Bool :=
  if root = [Str.slash] then isAbsolute p
  else p = root ∨
    (root.length < p.length ∧ p.take root.length = root ∧ p[root.length]? = some Str.slash)

/-- `realpath` answers the empty path when the target does not exist. -/
def jail (realpath : List UInt8 → List UInt8) (rootView pathView : List UInt8) : List UInt8 :=
  if rootView = [] then pathView
  else
    let root := dropSeparators (normalize rootView)
    let cleanPath := if isAbsolute pathView then pathView.tail else pathView
    let joined := if root = [Str.slash] then Str.slash :: cleanPath
      else root ++ Str.slash :: cleanPath
    let candidate := normalize joined
    if !underRoot root candidate then root
    else
      let realStr := realpath candidate
      if realStr ≠ [] then if underRoot root realStr then realStr else root
      else candidate

/-- Where a path leads, lexically, from the working directory `wd`. -/
def resolved (wd : List (List UInt8)) (path : List UInt8) : List (List UInt8) :=
  resolve dot dotdot (if isAbsolute path then [] else wd) (segments path)

section Strings

variable {names names' : List (List UInt8)}

theorem intercalate_append (l : List (List UInt8)) (hl : l ≠ []) (l' : List (List UInt8))
    (hl' : l' ≠ []) : [Str.slash].intercalate (l ++ l') =
      [Str.slash].intercalate l ++ Str.slash :: [Str.slash].intercalate l' := by
  induction l with
  | nil => exact absurd rfl hl
  | cons name l ih =>
    cases l with
    | nil =>
      obtain ⟨name', l', rfl⟩ := List.exists_cons_of_ne_nil hl'
      simp [List.intercalate_cons_cons]
    | cons name' l =>
      rw [List.cons_append, List.cons_append, List.intercalate_cons_cons,
        List.intercalate_cons_cons, ← List.cons_append, ih (by simp), List.append_assoc,
        List.append_assoc, List.append_assoc]

theorem dropSeparatorsRev_cons {c : UInt8} (hc : c ≠ Str.slash) (path : List UInt8) :
    dropSeparatorsRev (c :: path) = c :: path := by
  cases path with
  | nil => rfl
  | cons d path => exact if_neg hc

/-- A path of names ends with no separator. -/
theorem exists_render_concat (h : ∀ name ∈ names, IsName name) (hnames : names ≠ [])
    (absolute : Bool) : ∃ u c, c ≠ Str.slash ∧ render absolute names = u ++ [c] := by
  obtain ⟨l, name, rfl⟩ := List.eq_nil_or_concat names |>.resolve_left hnames
  rw [List.concat_eq_append] at h ⊢
  obtain ⟨hne, hslash⟩ := h name (by simp)
  obtain ⟨cs, c, rfl⟩ := List.eq_nil_or_concat name |>.resolve_left hne
  rw [List.concat_eq_append] at hslash ⊢
  have hc : c ≠ Str.slash := by
    rintro rfl
    exact hslash (by simp)
  cases l with
  | nil => exact ⟨_, c, hc, by rw [render, List.nil_append, List.intercalate_singleton,
      ← List.append_assoc]⟩
  | cons first l =>
    refine ⟨render absolute (first :: l) ++ Str.slash :: cs, c, hc, ?_⟩
    rw [render, intercalate_append _ (by simp) _ (by simp), List.intercalate_singleton, render]
    simp

/-- A normal path has no separator at its end to be dropped. -/
theorem dropSeparators_render (h : ∀ name ∈ names, IsName name) (absolute : Bool) :
    dropSeparators (render absolute names) = render absolute names := by
  by_cases hnames : names = []
  · rw [hnames]
    cases absolute <;> rfl
  · obtain ⟨u, c, hc, hu⟩ := exists_render_concat h hnames absolute
    rw [hu, dropSeparators, List.reverse_append, List.reverse_singleton, List.singleton_append,
      dropSeparatorsRev_cons hc, List.reverse_cons, List.reverse_reverse]

theorem render_inj (h : ∀ name ∈ names, IsName name) (h' : ∀ name ∈ names', IsName name)
    {absolute absolute' : Bool} (heq : render absolute names = render absolute' names') :
    absolute = absolute' ∧ names = names' := by
  refine ⟨?_, ?_⟩
  · rw [← isAbsolute_render h absolute, heq, isAbsolute_render h']
  · rw [← segments_render h absolute, heq, segments_render h']

/-- A longer list of names is written behind a shorter one. -/
theorem render_append (absolute : Bool) (hne : names ≠ []) (hne' : names' ≠ []) :
    render absolute (names ++ names') =
      render absolute names ++ Str.slash :: [Str.slash].intercalate names' := by
  rw [render, intercalate_append names hne names' hne', ← List.append_assoc]
  rfl

theorem render_eq_slash_iff (h : ∀ name ∈ names, IsName name) (absolute : Bool) :
    render absolute names = [Str.slash] ↔ absolute = true ∧ names = [] := by
  constructor
  · intro heq
    have heq' : render absolute names = render true [] := heq
    exact render_inj h (fun _ hname => by cases hname) heq'
  · rintro ⟨rfl, rfl⟩
    rfl

/-- What is under a root other than `/`: the root, and what follows a separator after
it. -/
theorem underRoot_iff {root p : List UInt8} (hroot : root ≠ [Str.slash]) :
    underRoot root p = true ↔ p = root ∨ ∃ path, p = root ++ Str.slash :: path := by
  rw [underRoot, if_neg hroot, decide_eq_true_iff]
  refine or_congr_right ⟨?_, ?_⟩
  · rintro ⟨hlt, htake, hget⟩
    refine ⟨p.drop (root.length + 1), ?_⟩
    have hdrop : p.drop root.length = Str.slash :: p.drop (root.length + 1) := by
      rw [List.drop_eq_getElem_cons hlt]
      rw [List.getElem?_eq_getElem hlt, Option.some.injEq] at hget
      rw [hget]
    calc p = p.take root.length ++ p.drop root.length := (List.take_append_drop _ _).symm
      _ = root ++ Str.slash :: p.drop (root.length + 1) := by rw [htake, hdrop]
  · rintro ⟨path, rfl⟩
    simp

end Strings

/-- The names of a root in its normal form. -/
def rootNames (root : List UInt8) : List (List UInt8) := normalNames (segments root)

/-- Whether the paths below a root are from the root of the file system. -/
def isJailAbsolute (root : List UInt8) : Bool := isAbsolute root || (rootNames root).isEmpty

/-- The names of the candidate of `jail`. -/
def jailNames (root path : List UInt8) : List (List UInt8) :=
  (segments path).foldl push (rootNames root)

section Names

variable {wd : List (List UInt8)} {root path real : List UInt8}

theorem isName_rootNames (root : List UInt8) : ∀ name ∈ rootNames root, IsName name :=
  fun _ => isName_normalNames

theorem isName_jailNames : ∀ name ∈ jailNames root path, IsName name := fun _ hname =>
  (mem_foldl_push hname).elim isName_normalNames isName_of_mem_segments

theorem normalize_root (root : List UInt8) :
    dropSeparators (normalize root) = render (isAbsolute root) (rootNames root) := by
  rw [normalize_eq]
  exact dropSeparators_render (isName_rootNames root) _

theorem isJailAbsolute_of_ne_nil (h : rootNames root ≠ []) :
    isJailAbsolute root = isAbsolute root := by
  rw [isJailAbsolute, List.isEmpty_eq_false_iff.mpr h, Bool.or_false]

/-- The path that `jail` normalizes. -/
theorem normalize_joined {joined : List UInt8}
    (hjoined : joined = if render (isAbsolute root) (rootNames root) = [Str.slash] then
        Str.slash :: (if isAbsolute path then path.tail else path)
      else render (isAbsolute root) (rootNames root) ++
        Str.slash :: (if isAbsolute path then path.tail else path)) :
    normalize joined = render (isJailAbsolute root) (jailNames root path) := by
  have hclean : segments (if isAbsolute path then path.tail else path) = segments path := by
    split
    · rename_i habsolute
      cases path with
      | nil => rfl
      | cons c path =>
        have hc : c = Str.slash := by simpa [isAbsolute] using habsolute
        rw [hc, segments_slash_cons, List.tail_cons]
    · rfl
  have hnames : ∀ names, normalNames (rootNames root ++ names) = names.foldl push (rootNames root) :=
    fun names => by
      rw [normalNames, List.foldl_append]
      exact congrArg (names.foldl push) (normalNames_eq_self (isNormal_normalNames _))
  rw [normalize_eq]
  split at hjoined
  · rename_i hslash
    obtain ⟨habsolute, hnil⟩ := (render_eq_slash_iff (isName_rootNames root) _).mp hslash
    rw [hjoined, segments_slash_cons, hclean, jailNames, ← hnames, hnil, List.nil_append,
      isJailAbsolute, habsolute]
    rfl
  · rename_i hslash
    have habsolute : isAbsolute joined = isJailAbsolute root := by
      rw [hjoined]
      by_cases hnil : rootNames root = []
      · have hrelative : isAbsolute root = false := by
          rw [render_eq_slash_iff (isName_rootNames root), not_and'] at hslash
          simpa using hslash hnil
        rw [isJailAbsolute, hnil, hrelative]
        rfl
      · rw [isJailAbsolute_of_ne_nil hnil]
        have hrender := isAbsolute_render (isName_rootNames root) (isAbsolute root)
        have hne : render (isAbsolute root) (rootNames root) ≠ [] := fun heq => by
          have hsegments := segments_render (isName_rootNames root) (isAbsolute root)
          rw [heq] at hsegments
          exact hnil (hsegments.symm.trans (by rw [segments_eq]; simp))
        obtain ⟨c, cs, hc⟩ := List.exists_cons_of_ne_nil hne
        rw [hc] at hrender ⊢
        exact hrender
    rw [habsolute, hjoined, segments_append, hclean, segments_render (isName_rootNames root), hnames]
    rfl

/-- Under a root with names are the names that begin with them. -/
theorem underRoot_candidate (root path : List UInt8) :
    underRoot (render (isAbsolute root) (rootNames root))
        (render (isJailAbsolute root) (jailNames root path)) = true ↔
      rootNames root = [] ∨ rootNames root <+: jailNames root path := by
  by_cases hnil : rootNames root = []
  · refine iff_of_true ?_ (.inl hnil)
    have habsolute : isJailAbsolute root = true := by
      rw [isJailAbsolute, hnil]
      exact Bool.or_true _
    rw [habsolute, hnil]
    cases isAbsolute root with
    | true => rfl
    | false => exact (underRoot_iff (by simp [render])).mpr (.inr ⟨_, rfl⟩)
  · have hslash : render (isAbsolute root) (rootNames root) ≠ [Str.slash] := fun heq =>
      hnil ((render_eq_slash_iff (isName_rootNames root) _).mp heq).2
    rw [or_iff_right hnil, isJailAbsolute_of_ne_nil hnil, underRoot_iff hslash]
    constructor
    · rintro (heq | ⟨p, heq⟩)
      · rw [(render_inj isName_jailNames (isName_rootNames root) heq).2]
      · have hsegments := congrArg segments heq
        rw [segments_append, segments_render isName_jailNames,
          segments_render (isName_rootNames root)] at hsegments
        exact ⟨_, hsegments.symm⟩
    · rintro ⟨rest, hrest⟩
      rw [← hrest]
      by_cases hempty : rest = []
      · exact .inl (by rw [hempty, List.append_nil])
      · exact .inr ⟨_, render_append _ hnil hempty⟩

/-- What is really under a root with names begins with them, and the root is
absolute. -/
theorem prefix_of_underRoot (hnil : rootNames root ≠ []) (habsolute : isAbsolute real = true)
    (h : underRoot (render (isAbsolute root) (rootNames root)) real = true) :
    isAbsolute root = true ∧ rootNames root <+: segments real := by
  have hslash : render (isAbsolute root) (rootNames root) ≠ [Str.slash] := fun heq =>
    hnil ((render_eq_slash_iff (isName_rootNames root) _).mp heq).2
  have hrender := isAbsolute_render (isName_rootNames root) (isAbsolute root)
  have hsegments := segments_render (isName_rootNames root) (isAbsolute root)
  rcases (underRoot_iff hslash).mp h with heq | ⟨p, heq⟩
  · rw [← heq] at hrender hsegments
    exact ⟨hrender.symm.trans habsolute, by rw [hsegments]⟩
  · refine ⟨?_, ?_⟩
    · have hne : render (isAbsolute root) (rootNames root) ≠ [] := fun hempty => by
        rw [hempty, segments_eq] at hsegments
        exact hnil (hsegments.symm.trans (by simp))
      obtain ⟨c, cs, hc⟩ := List.exists_cons_of_ne_nil hne
      rw [heq, hc] at habsolute
      rw [← hrender, hc]
      exact habsolute
    · rw [heq, segments_append, hsegments]
      exact ⟨_, rfl⟩

/-- The three ways of `jail`. -/
theorem jail_eq (hroot : root ≠ []) (realpath : List UInt8 → List UInt8) :
    jail realpath root path =
      if rootNames root = [] ∨ rootNames root <+: jailNames root path then
        let realStr := realpath (render (isJailAbsolute root) (jailNames root path))
        if realStr ≠ [] then
          if underRoot (render (isAbsolute root) (rootNames root)) realStr then realStr
          else render (isAbsolute root) (rootNames root)
        else render (isJailAbsolute root) (jailNames root path)
      else render (isAbsolute root) (rootNames root) := by
  rw [jail, if_neg hroot]
  simp only [normalize_root]
  rw [normalize_joined rfl]
  by_cases hunder : rootNames root = [] ∨ rootNames root <+: jailNames root path
  · rw [if_pos hunder, (underRoot_candidate root path).mpr hunder]
    rfl
  · rw [if_neg hunder,
      Bool.eq_false_iff.mpr (mt (underRoot_candidate root path).mp hunder)]
    rfl

/-- The directory that the names of a root are resolved from. -/
def base (wd : List (List UInt8)) (root : List UInt8) : List (List UInt8) :=
  if isJailAbsolute root then [] else wd

end Names

section Tidy

variable {wd : List (List UInt8)} {root path : List UInt8}

end Tidy

end Sihd.Sys.Path
