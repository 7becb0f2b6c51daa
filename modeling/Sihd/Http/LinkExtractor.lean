import Sihd.Http.RequestType
import Sihd.Lib.Cut
import Sihd.Util.Str.Replace
import Sihd.Util.Str.Trim
import Sihd.Util.Url.Parts

/-!
# Links

`resolve_url` makes a url of the `href` of a page and of the url of the page. It takes the
slashes off the end of the base and then looks for characters in what is left, wherever
they are: a base that ends with a directory loses it, and the slashes of a query are taken
for those of a path.
-/

namespace Sihd.Http.LinkExtractor

open Util Util.Str

/-- `"://"`. -/
def schemeEnd : List UInt8 := [colon, slash, slash]

def httpText : List UInt8 := [104, 116, 116, 112]

def httpsText : List UInt8 := [104, 116, 116, 112, 115]

/-- `s.rfind(c)`. -/
def rfind? (s : List UInt8) (c : UInt8) : Option Nat := (cutLast c s).map fun p => p.1.length

def isSlash (c : UInt8) : Bool := c == slash

/-- The loop that takes the slashes off the end of the base. -/
def popSlashes (base : List UInt8) : List UInt8 := base.rdropWhile isSlash

/-- `resolve_url` for an `href` that begins with one slash. -/
def resolveFromHost (href base : List UInt8) : List UInt8 :=
  match find? base schemeEnd 0 with
  | some i =>
      match find? base [slash] (i + 3) with
      | some hostEnd => base.take hostEnd ++ href
      | none => base ++ href
  | none => base ++ href

/-- `resolve_url` for any other `href`. -/
def resolveFromPath (href base : List UInt8) : List UInt8 :=
  match rfind? base slash, find? base schemeEnd 0 with
  | some lastSlash, none => base.take (lastSlash + 1) ++ href
  | some lastSlash, some i =>
      if i + 2 < lastSlash then base.take (lastSlash + 1) ++ href
      else base ++ slash :: href
  | none, _ => base ++ slash :: href

def resolveUrl (href base : List UInt8) : List UInt8 :=
  if href = [] then []
  else if (httpText ++ schemeEnd).isPrefixOf href || (httpsText ++ schemeEnd).isPrefixOf href ||
      [slash, slash].isPrefixOf href then href
  else if base = [] then href
  else if [slash].isPrefixOf href then resolveFromHost href (popSlashes base)
  else resolveFromPath href (popSlashes base)

/-! ### Bases and references -/

/-- A base url, without a fragment. -/
structure BaseUrl where
  scheme : List UInt8
  authority : List UInt8
  path : List UInt8
  query : Option (List UInt8)
  validScheme : Url.validScheme scheme = true
  authorityChars : ∀ c ∈ authority, Url.isAuthorityEnd c = false
  pathStart : path = [] ∨ path.head? = some slash
  pathChars : question ∉ path ∧ Str.hash ∉ path
  queryChars : ∀ q ∈ query, Str.hash ∉ q

inductive Kind
  | absolute | hostRelative | pathAbsolute | relative
  deriving DecidableEq

/-- The kinds of references that have a path, an authority or `http` for a scheme. The case of
the letters of a scheme does not matter, and a relative path has no colon in its first
segment. -/
def IsOfKind (href : List UInt8) : Kind → Prop
  | .absolute => ∃ scheme rest, href = scheme ++ schemeEnd ++ rest ∧
      (iequals scheme httpText = true ∨ iequals scheme httpsText = true)
  | .hostRelative => [slash, slash] <+: href
  | .pathAbsolute => [slash] <+: href ∧ ¬ [slash, slash] <+: href
  | .relative => href ≠ [] ∧ (∀ c ∈ href.head?, Url.isAuthorityEnd c = false) ∧
      colon ∉ href.takeWhile fun c => !Url.isAuthorityEnd c

structure Reference where
  href : List UInt8
  kind : Kind
  isOfKind : IsOfKind href kind
  noDotSegments :
    ∀ segment ∈ (href.takeWhile fun c => c != question && c != Str.hash).splitOn slash,
      segment ≠ [46] ∧ segment ≠ [46, 46]

namespace BaseUrl

def queryText (b : BaseUrl) : List UInt8 := b.query.elim [] (question :: ·)

/-- The scheme and the authority. -/
def origin (b : BaseUrl) : List UInt8 := b.scheme ++ schemeEnd ++ b.authority

def text (b : BaseUrl) : List UInt8 := b.origin ++ b.path ++ b.queryText

/-- A path up to and including its last slash. -/
def directory (b : BaseUrl) : List UInt8 :=
  (cutLast slash b.path).elim [slash] fun p => p.1 ++ [slash]

/-- What a reference refers to from a base. -/
def target (b : BaseUrl) (r : Reference) : List UInt8 :=
  match r.kind with
  | .absolute | .hostRelative => r.href
  | .pathAbsolute => b.origin ++ r.href
  | .relative => b.origin ++ b.directory ++ r.href

/-- Nothing but slashes is behind the scheme. -/
def IsBare (b : BaseUrl) : Prop :=
  b.authority = [] ∧ b.query = none ∧ ∀ c ∈ b.path, c = slash

/-- The path is empty, is a slash, or does not end with a slash; slashes in a query only end
it. -/
def KeepsDirectory (b : BaseUrl) : Prop :=
  match b.query with
  | none => b.path = [] ∨ b.path = [slash] ∨ b.path.getLast? ≠ some slash
  | some q => b.path ≠ [] ∧ slash ∉ q.rdropWhile isSlash

def ResolvesRight (b : BaseUrl) (r : Reference) : Prop :=
  match r.kind with
  | .absolute => httpText ++ schemeEnd <+: r.href ∨ httpsText ++ schemeEnd <+: r.href
  | .hostRelative => True
  | .pathAbsolute => (b.path ≠ [] ∨ b.query = none) ∧ ¬ b.IsBare
  | .relative => b.KeepsDirectory ∧ ¬ b.IsBare

end BaseUrl

/-! ### Searches -/

section Searches

variable {pre w t p : List UInt8} {c : UInt8}

/-- A pattern does not occur before its first character does. -/
theorem not_prefix_drop (h : c ∉ w) {j : Nat} (hle : pre.length ≤ j)
    (hlt : j < pre.length + w.length) : ¬ c :: p <+: (pre ++ (w ++ t)).drop j := by
  intro hoccurs
  have hchar : [c] <+: (pre ++ (w ++ t)).drop j := (List.prefix_append [c] p).trans hoccurs
  have hkept : w.drop (j - pre.length) ≠ [] := by
    rw [ne_eq, List.drop_eq_nil_iff]
    omega
  rw [List.drop_append, List.drop_of_length_le hle, List.nil_append,
    List.drop_append_of_le_length (by omega)] at hchar
  exact not_singleton_prefix hkept (fun hmem => h (List.mem_of_mem_drop hmem)) t hchar

theorem find?_eq_some (h : c ∉ w) (pre p t : List UInt8) :
    find? (pre ++ (w ++ (c :: p ++ t))) (c :: p) pre.length = some (pre.length + w.length) := by
  refine find?_eq_some_iff.mpr ⟨by omega, by simp, ?_, fun j hle hlt => ?_⟩
  · rw [List.drop_append, List.drop_of_length_le (by omega), List.nil_append,
      Nat.add_sub_cancel_left, List.drop_left]
    exact List.prefix_append _ _
  · exact not_prefix_drop h hle hlt

theorem find?_eq_none (h : c ∉ w) (pre p : List UInt8) :
    find? (pre ++ w) (c :: p) pre.length = none := by
  refine find?_eq_none_iff.mpr fun i hle hle' hoccurs => ?_
  rw [List.length_append] at hle'
  by_cases hlt : i < pre.length + w.length
  · rw [← List.append_nil w] at hoccurs
    exact not_prefix_drop h hle hlt hoccurs
  · rw [List.drop_of_length_le (by rw [List.length_append]; omega)] at hoccurs
    cases List.prefix_nil.mp hoccurs

theorem rfind?_eq_some (h : c ∉ t) (w : List UInt8) :
    rfind? (w ++ c :: t) c = some w.length := by
  rw [rfind?, cutLast_append_cons h]
  rfl

theorem rfind?_eq_none (h : c ∉ w) : rfind? w c = none := by
  rw [rfind?, cutLast_eq_none_iff.mpr h]
  rfl

theorem take_succ_length (w : List UInt8) (c : UInt8) (t : List UInt8) :
    (w ++ c :: t).take (w.length + 1) = w ++ [c] := by
  simp [List.take_append]

theorem rfind?_take {s : List UInt8} {i : Nat} (h : rfind? s c = some i) :
    ∃ w t, c ∉ t ∧ s = w ++ c :: t ∧ s.take (i + 1) = w ++ [c] := by
  rw [rfind?, Option.map_eq_some_iff] at h
  obtain ⟨⟨w, t⟩, hcut, rfl⟩ := h
  obtain ⟨hnot, rfl⟩ := cutLast_eq_some_iff.mp hcut
  exact ⟨w, t, hnot, rfl, take_succ_length w c t⟩

end Searches

/-! ### The base that is left -/

/-- A text up to and including its last slash, or with one behind it. -/
def directoryOf (s : List UInt8) : List UInt8 :=
  (cutLast slash s).elim (s ++ [slash]) fun p => p.1 ++ [slash]

theorem directoryOf_append_cons {t : List UInt8} (h : slash ∉ t) (w : List UInt8) :
    directoryOf (w ++ slash :: t) = w ++ [slash] := by
  rw [directoryOf, cutLast_append_cons h]
  rfl

theorem directoryOf_of_not_mem {s : List UInt8} (h : slash ∉ s) :
    directoryOf s = s ++ [slash] := by
  rw [directoryOf, cutLast_eq_none_iff.mpr h]
  rfl

/-- A text with a slash around the last one. -/
theorem exists_last_slash {s : List UInt8} (h : slash ∈ s) :
    ∃ w t, slash ∉ t ∧ s = w ++ slash :: t := by
  cases hcut : cutLast slash s with
  | none => exact absurd h (cutLast_eq_none_iff.mp hcut)
  | some parts => exact ⟨parts.1, parts.2, cutLast_eq_some_iff.mp hcut⟩

theorem directoryOf_append {s : List UInt8} (h : slash ∈ s) (u : List UInt8) :
    directoryOf (u ++ s) = u ++ directoryOf s := by
  obtain ⟨w, t, hmem, rfl⟩ := exists_last_slash h
  rw [← List.append_assoc, directoryOf_append_cons hmem, directoryOf_append_cons hmem,
    List.append_assoc]

theorem mem_directoryOf (s : List UInt8) : slash ∈ directoryOf s := by
  rw [directoryOf]
  cases cutLast slash s with
  | none => simp
  | some parts => simp

theorem length_directoryOf_le {s : List UInt8} (h : slash ∈ s) :
    (directoryOf s).length ≤ s.length := by
  obtain ⟨w, t, hmem, rfl⟩ := exists_last_slash h
  rw [directoryOf_append_cons hmem]
  simp

theorem length_directoryOf_le_succ (s : List UInt8) :
    (directoryOf s).length ≤ s.length + 1 := by
  by_cases h : slash ∈ s
  · exact (length_directoryOf_le h).trans (Nat.le_succ _)
  · rw [directoryOf_of_not_mem h, List.length_append, List.length_singleton]

theorem isSlash_iff {c : UInt8} : isSlash c = true ↔ c = slash := by
  rw [isSlash, beq_iff_eq]

theorem isSlash_eq_false_iff {c : UInt8} : isSlash c = false ↔ c ≠ slash := by
  rw [isSlash, beq_eq_false_iff_ne]

/-- What is before the first slash of a text. -/
def hostOf (s : List UInt8) : List UInt8 := s.takeWhile fun c => !isSlash c

theorem hostOf_append {w : List UInt8} (h : slash ∉ w) (t : List UInt8) :
    hostOf (w ++ t) = w ++ hostOf t := by
  rw [hostOf, List.takeWhile_append_of_pos, hostOf]
  intro c hc
  rw [Bool.not_eq_true', isSlash_eq_false_iff]
  exact fun heq => h (heq ▸ hc)

theorem hostOf_of_not_mem {w : List UInt8} (h : slash ∉ w) : hostOf w = w := by
  have happend := hostOf_append h []
  rwa [List.append_nil, show hostOf [] = [] from rfl, List.append_nil] at happend

theorem hostOf_eq_nil_iff {s : List UInt8} : hostOf s = [] ↔ s = [] ∨ s.head? = some slash := by
  cases s with
  | nil => simp [hostOf]
  | cons c s =>
    by_cases hc : c = slash
    · simp [hostOf, isSlash, hc]
    · simp [hostOf, isSlash, hc]

theorem hostOf_append_of_forall {run : List UInt8} (h : ∀ c ∈ run, isSlash c = true)
    (s : List UInt8) : hostOf (s ++ run) = hostOf s := by
  have hrun : hostOf run = [] := by
    cases run with
    | nil => rfl
    | cons c run => exact hostOf_eq_nil_iff.mpr (.inr (by simp [isSlash_iff.mp (h c (by simp))]))
  cases hcut : cut slash s with
  | none =>
    have hmem : slash ∉ s := cut_eq_none_iff.mp hcut
    rw [hostOf_append hmem, hostOf_of_not_mem hmem, hrun, List.append_nil]
  | some parts =>
    obtain ⟨w, t⟩ := parts
    obtain ⟨hmem, rfl⟩ := cut_eq_some_iff.mp hcut
    rw [List.append_assoc, hostOf_append hmem, hostOf_append hmem]
    simp [hostOf, isSlash]

section Left

variable {scheme : List UInt8}

/-- The end of the scheme is found in a base that has something behind it. -/
theorem find?_schemeEnd (hscheme : colon ∉ scheme) (left : List UInt8) :
    find? (scheme ++ (schemeEnd ++ left)) schemeEnd 0 = some scheme.length := by
  simpa [schemeEnd] using find?_eq_some hscheme [] [slash, slash] left

/-- The host ends at the first slash that is left behind the scheme. -/
theorem resolveFromHost_eq (hscheme : colon ∉ scheme) (href left : List UInt8) :
    resolveFromHost href (scheme ++ (schemeEnd ++ left)) =
      scheme ++ (schemeEnd ++ (hostOf left ++ href)) := by
  have hlength : (scheme ++ schemeEnd).length = scheme.length + 3 := by
    rw [List.length_append]
    rfl
  rw [resolveFromHost, find?_schemeEnd hscheme]
  simp only
  cases hcut : cut slash left with
  | none =>
    have hmem : slash ∉ left := cut_eq_none_iff.mp hcut
    have hnone := find?_eq_none hmem (scheme ++ schemeEnd) []
    rw [hlength, List.append_assoc] at hnone
    rw [hnone, hostOf_of_not_mem hmem]
    simp
  | some parts =>
    obtain ⟨w, t⟩ := parts
    obtain ⟨hmem, rfl⟩ := cut_eq_some_iff.mp hcut
    have hsome := find?_eq_some hmem (scheme ++ schemeEnd) [] t
    rw [hlength, List.append_assoc, List.singleton_append] at hsome
    rw [hsome, hostOf_append hmem, ← hlength, ← List.length_append]
    simp only
    rw [← List.append_assoc, ← List.append_assoc (scheme ++ schemeEnd), List.take_left]
    simp [hostOf, isSlash]

/-- The directory ends at the last slash that is left behind the scheme. -/
theorem resolveFromPath_eq (hscheme : colon ∉ scheme) (href left : List UInt8) :
    resolveFromPath href (scheme ++ (schemeEnd ++ left)) =
      scheme ++ (schemeEnd ++ (directoryOf left ++ href)) := by
  rw [resolveFromPath, find?_schemeEnd hscheme]
  cases hcut : cutLast slash left with
  | none =>
    have hmem : slash ∉ left := cutLast_eq_none_iff.mp hcut
    have hlast := rfind?_eq_some hmem (scheme ++ [colon, slash])
    have hsplit : scheme ++ (schemeEnd ++ left) = scheme ++ [colon, slash] ++ slash :: left := by
      simp [schemeEnd]
    rw [hsplit, hlast, directoryOf_of_not_mem hmem]
    simp [schemeEnd]
  | some parts =>
    obtain ⟨w, t⟩ := parts
    obtain ⟨hmem, rfl⟩ := cutLast_eq_some_iff.mp hcut
    have hlast := rfind?_eq_some hmem (scheme ++ (schemeEnd ++ w))
    have hsplit : scheme ++ (schemeEnd ++ (w ++ slash :: t)) =
        scheme ++ (schemeEnd ++ w) ++ slash :: t := by simp
    have hbehind : scheme.length + 2 < (scheme ++ (schemeEnd ++ w)).length := by
      simp [schemeEnd]
    rw [hsplit, hlast, directoryOf_append_cons hmem]
    simp only
    rw [if_pos hbehind, take_succ_length]
    simp

/-- Of a scheme alone no slash is left. -/
theorem resolveFromHost_bare (hscheme : colon ∉ scheme) (href : List UInt8) :
    resolveFromHost href (scheme ++ [colon]) = scheme ++ colon :: href := by
  have hnone : find? (scheme ++ [colon]) schemeEnd 0 = none := by
    refine find?_eq_none_iff.mpr fun i _ hle hoccurs => ?_
    have hlength := hoccurs.length_le
    rw [List.length_drop, List.length_append, List.length_singleton] at hlength
    have hshort : 3 ≤ scheme.length + 1 - i := hlength
    exact @not_prefix_drop [] scheme [colon] _ _ hscheme i (Nat.zero_le i) (by simp; omega) hoccurs
  rw [resolveFromHost, hnone]
  simp

theorem resolveFromPath_bare (hscheme : slash ∉ scheme) (href : List UInt8) :
    resolveFromPath href (scheme ++ [colon]) = scheme ++ colon :: slash :: href := by
  have hnone : rfind? (scheme ++ [colon]) slash = none := by
    have hne : slash ≠ colon := by decide
    refine rfind?_eq_none ?_
    simp [hscheme, hne]
  rw [resolveFromPath, hnone]
  simp

end Left

namespace BaseUrl

variable (b : BaseUrl)

theorem colon_not_mem_scheme : colon ∉ b.scheme := by
  intro h
  have hchar := Url.isSchemeChar_of_mem b.validScheme _ h
  revert hchar
  decide

theorem slash_not_mem_scheme : slash ∉ b.scheme := by
  intro h
  have hchar := Url.isSchemeChar_of_mem b.validScheme _ h
  revert hchar
  decide

theorem slash_not_mem_authority : slash ∉ b.authority := by
  intro h
  have hchar := b.authorityChars _ h
  revert hchar
  decide

/-- What is behind the scheme. -/
def rest : List UInt8 := b.authority ++ (b.path ++ b.queryText)

theorem text_eq : b.text = b.scheme ++ (schemeEnd ++ b.rest) := by
  simp [text, origin, rest]

theorem isBare_iff_forall : b.IsBare ↔ ∀ c ∈ b.rest, isSlash c = true := by
  constructor
  · rintro ⟨hauthority, hquery, hpath⟩ c hc
    rw [rest, hauthority, queryText, hquery] at hc
    exact isSlash_iff.mpr (hpath c (by simpa using hc))
  · intro h
    refine ⟨List.eq_nil_iff_forall_not_mem.mpr fun c hc => ?_, ?_, fun c hc => ?_⟩
    · have hslash := isSlash_iff.mp (h c (List.mem_append_left _ hc))
      exact b.slash_not_mem_authority (hslash ▸ hc)
    · cases hquery : b.query with
      | none => rfl
      | some q =>
        have hquestion := h question (by simp [rest, queryText, hquery])
        cases hquestion
    · exact isSlash_iff.mp (h c (by simp [rest, hc]))

/-- What is left of the text behind the scheme. -/
def left : List UInt8 := b.rest.rdropWhile isSlash

variable {b}

theorem popSlashes_text (h : ¬ b.IsBare) :
    popSlashes b.text = b.scheme ++ (schemeEnd ++ b.left) := by
  obtain ⟨c, hc, hnot⟩ : ∃ c ∈ b.rest, isSlash c = false := by
    simpa [isBare_iff_forall] using h
  obtain ⟨u, v, hsplit⟩ := List.append_of_mem hc
  rw [left, popSlashes, text_eq, hsplit, rdropWhile_append_cons hnot, ← List.append_assoc,
    ← List.append_assoc, rdropWhile_append_cons hnot, List.append_assoc, List.append_assoc]

theorem popSlashes_text_bare (h : b.IsBare) : popSlashes b.text = b.scheme ++ [colon] := by
  have hslashes : (slash :: slash :: b.rest).rdropWhile isSlash = [] :=
    List.rdropWhile_eq_nil_iff.mpr (by simpa [isSlash] using b.isBare_iff_forall.mp h)
  have hsplit : b.text = b.scheme ++ colon :: slash :: slash :: b.rest := by
    simp [text_eq, schemeEnd]
  rw [popSlashes, hsplit, rdropWhile_append_cons rfl, hslashes]

/-! ### The host -/

theorem hostOf_left : hostOf b.left = hostOf b.rest := by
  have hrest : b.rest = b.left ++ b.rest.rtakeWhile isSlash :=
    List.rdropWhile_append_rtakeWhile.symm
  have hrun : ∀ c ∈ b.rest.rtakeWhile isSlash, isSlash c = true :=
    fun c hc => List.mem_rtakeWhile_imp hc
  rw [hrest, hostOf_append_of_forall hrun]

/-- The host is the authority where a slash or nothing is behind it. -/
theorem hostOf_left_eq_iff :
    hostOf b.left = b.authority ↔ b.path ≠ [] ∨ b.query = none := by
  rw [hostOf_left, rest, hostOf_append b.slash_not_mem_authority, List.append_right_eq_self,
    hostOf_eq_nil_iff]
  rcases b.pathStart with hpath | hpath
  · cases hquery : b.query with
    | none => simp [hpath, queryText, hquery]
    | some q =>
      have hne : question ≠ slash := by decide
      simp [hpath, queryText, hquery, hne]
  · have hne : b.path ≠ [] := by
      intro hnil
      rw [hnil] at hpath
      cases hpath
    simp [hne, List.head?_append, hpath]

/-! ### The directory -/

theorem path_eq_nil_or_mem : b.path = [] ∨ slash ∈ b.path :=
  b.pathStart.imp_right fun h => List.mem_of_mem_head? h

theorem directory_eq : b.directory = directoryOf b.path := by
  rw [directory, directoryOf]
  rcases b.path_eq_nil_or_mem with hpath | hpath
  · rw [hpath]
    rfl
  · cases hcut : cutLast slash b.path with
    | none => exact absurd hpath (cutLast_eq_none_iff.mp hcut)
    | some parts => rfl

theorem rdropWhile_authority : b.authority.rdropWhile isSlash = b.authority := by
  refine List.rdropWhile_eq_self_iff.mpr fun hne hlast => ?_
  exact b.slash_not_mem_authority (isSlash_iff.mp hlast ▸ List.getLast_mem hne)

/-- With a query the directory is kept when there is one and no slash is left in the query. -/
theorem directoryOf_left_of_query {q : List UInt8} (hquery : b.query = some q) :
    directoryOf b.left = b.authority ++ b.directory ↔
      b.path ≠ [] ∧ slash ∉ q.rdropWhile isSlash := by
  have hleft : b.left = b.authority ++ (b.path ++ question :: q.rdropWhile isSlash) := by
    have hsplit : b.rest = b.authority ++ b.path ++ question :: q := by
      simp [rest, queryText, hquery]
    rw [left, hsplit, rdropWhile_append_cons rfl, List.append_assoc]
  have hne : slash ≠ question := by decide
  have hlength := length_directoryOf_le_succ b.path
  rw [hleft, directory_eq]
  generalize q.rdropWhile isSlash = kept
  by_cases hkept : slash ∈ kept
  · have hsplit : b.authority ++ (b.path ++ question :: kept) =
        b.authority ++ (b.path ++ [question]) ++ kept := by simp
    rw [hsplit, directoryOf_append hkept]
    refine iff_of_false (fun heq => ?_) fun hkeeps => hkeeps.2 hkept
    have hcount := congrArg List.length heq
    have hslash := List.length_pos_of_mem (mem_directoryOf kept)
    simp only [List.length_append, List.length_singleton] at hcount
    omega
  · rcases b.path_eq_nil_or_mem with hpath | hpath
    · rw [hpath] at hlength ⊢
      have hmem : slash ∉ b.authority ++ ([] ++ question :: kept) := by
        simp [b.slash_not_mem_authority, hne, hkept]
      rw [directoryOf_of_not_mem hmem]
      refine iff_of_false (fun heq => ?_) fun hkeeps => hkeeps.1 rfl
      have hcount := congrArg List.length heq
      simp only [List.length_append, List.length_cons, List.length_nil] at hcount hlength
      omega
    · obtain ⟨w, t, hmem, hsplit⟩ : ∃ w t, slash ∉ t ∧ b.path = w ++ slash :: t :=
        exists_last_slash hpath
      have hmem' : slash ∉ t ++ question :: kept := by simp [hmem, hne, hkept]
      refine iff_of_true ?_ ⟨List.ne_nil_of_mem hpath, hkept⟩
      rw [hsplit, directoryOf_append_cons hmem, List.append_assoc, List.cons_append,
        ← List.append_assoc, directoryOf_append_cons hmem', List.append_assoc]

/-- Without one it is kept when no slash is taken off, or the only one. -/
theorem directoryOf_left_of_no_query (hquery : b.query = none) :
    directoryOf b.left = b.authority ++ b.directory ↔
      b.path = [] ∨ b.path = [slash] ∨ b.path.getLast? ≠ some slash := by
  have hrest : b.rest = b.authority ++ b.path := by simp [rest, queryText, hquery]
  rw [directory_eq]
  rcases b.path_eq_nil_or_mem with hpath | hpath
  · have hleft : b.left = b.authority := by
      rw [left, hrest, hpath, List.append_nil, rdropWhile_authority]
    rw [hleft, hpath, directoryOf_of_not_mem b.slash_not_mem_authority]
    exact iff_of_true rfl (.inl rfl)
  · obtain ⟨w, t, hmem, hsplit⟩ := exists_last_slash hpath
    have hne : b.path ≠ [] := List.ne_nil_of_mem hpath
    cases t using List.reverseRecOn with
    | nil =>
      have hdirectory : directoryOf b.path = w ++ [slash] := by
        rw [hsplit, directoryOf_append_cons hmem]
      have hhost : hostOf b.left = b.authority := hostOf_left_eq_iff.mpr (.inl hne)
      by_cases hslash : slash ∈ b.left
      · -- A name of the directory is left, and the slash behind it is taken off.
        have hleft : b.left = (b.authority ++ w).rdropWhile isSlash := by
          rw [left, hrest, hsplit, ← List.append_assoc, List.rdropWhile_concat_pos _ _ _ rfl]
        have hprefix : b.left.length ≤ (b.authority ++ w).length :=
          hleft ▸ (List.rdropWhile_prefix isSlash _).length_le
        have hw : w ≠ [] := by
          rintro rfl
          rw [hleft, List.append_nil, rdropWhile_authority] at hslash
          exact b.slash_not_mem_authority hslash
        refine iff_of_false (fun heq => ?_) (by simp [hsplit, hw])
        have hcount := congrArg List.length heq
        have hle := length_directoryOf_le hslash
        rw [hdirectory, ← List.append_assoc, List.length_append, List.length_singleton] at hcount
        omega
      · rw [directoryOf_of_not_mem hslash, ← hostOf_of_not_mem hslash, hhost, hdirectory,
          List.append_cancel_left_eq, hsplit]
        simp
    | append_singleton t c =>
      have hc : isSlash c = false := by
        rw [isSlash_eq_false_iff]
        rintro rfl
        exact hmem (by simp)
      have hend : b.path = w ++ slash :: t ++ [c] := by simp [hsplit]
      have hleft : b.left = b.authority ++ b.path := by
        rw [left, hrest, hend, ← List.append_assoc, rdropWhile_append_cons hc, List.rdropWhile_nil]
      have hlast : b.path.getLast? ≠ some slash := by
        rw [hend, List.getLast?_concat, ne_eq, Option.some.injEq]
        exact isSlash_eq_false_iff.mp hc
      rw [hleft, directoryOf_append hpath]
      exact iff_of_true rfl (.inr (.inr hlast))

theorem directoryOf_left_eq_iff :
    directoryOf b.left = b.authority ++ b.directory ↔ b.KeepsDirectory := by
  rw [KeepsDirectory]
  cases hquery : b.query with
  | none => exact directoryOf_left_of_no_query hquery
  | some q => exact directoryOf_left_of_query hquery

end BaseUrl

/-! ### References -/

/-- What a base gives is longer than the reference. -/
theorem length_lt_resolveFromPath (href base : List UInt8) :
    href.length < (resolveFromPath href base).length := by
  have hbehind : href.length < (base ++ slash :: href).length := by
    simp
    omega
  rw [resolveFromPath]
  cases hlast : rfind? base slash with
  | none => exact hbehind
  | some lastSlash =>
    obtain ⟨w, t, -, -, htake⟩ := rfind?_take hlast
    have hbefore : href.length < (base.take (lastSlash + 1) ++ href).length := by
      rw [htake]
      simp
      omega
    cases find? base schemeEnd 0 with
    | none => exact hbefore
    | some i =>
      simp only
      split
      · exact hbefore
      · exact hbehind

theorem BaseUrl.text_ne_nil (b : BaseUrl) : b.text ≠ [] := by
  simp [BaseUrl.text_eq, schemeEnd]

section Reference

variable {href base : List UInt8}

theorem resolveUrl_of_isAbsolute
    (h : (httpText ++ schemeEnd <+: href ∨ httpsText ++ schemeEnd <+: href) ∨
      [slash, slash] <+: href) : resolveUrl href base = href := by
  rw [resolveUrl]
  simp only [Bool.or_eq_true, List.isPrefixOf_iff_prefix]
  by_cases hhref : href = []
  · rw [if_pos hhref, hhref]
  · rw [if_neg hhref, if_pos h]

theorem resolveUrl_pathAbsolute (hbase : base ≠ []) (h : IsOfKind href .pathAbsolute) :
    resolveUrl href base = resolveFromHost href (popSlashes base) := by
  obtain ⟨⟨rest, hrest⟩, hslashes⟩ := h
  have hhttp : ¬ (httpText ++ schemeEnd <+: href ∨ httpsText ++ schemeEnd <+: href) := by
    rw [← hrest]
    simp [httpText, httpsText, slash]
  rw [resolveUrl]
  simp only [Bool.or_eq_true, List.isPrefixOf_iff_prefix]
  rw [if_neg (by simp [← hrest]), if_neg (by simp [hhttp, hslashes]), if_neg hbase,
    if_pos ⟨rest, hrest⟩]

theorem resolveUrl_of_not_slash (hbase : base ≠ []) (hhref : href ≠ [])
    (hslash : ¬ [slash] <+: href)
    (hhttp : ¬ (httpText ++ schemeEnd <+: href ∨ httpsText ++ schemeEnd <+: href)) :
    resolveUrl href base = resolveFromPath href (popSlashes base) := by
  have hslashes : ¬ [slash, slash] <+: href := fun h => hslash ((List.prefix_append _ _).trans h)
  rw [resolveUrl]
  simp only [Bool.or_eq_true, List.isPrefixOf_iff_prefix]
  rw [if_neg hhref, if_neg (by simp [hhttp, hslashes]), if_neg hbase, if_neg hslash]

/-- A scheme begins with a letter. -/
theorem not_slash_prefix_of_absolute (h : IsOfKind href .absolute) : ¬ [slash] <+: href := by
  obtain ⟨scheme, rest, rfl, hscheme⟩ := h
  cases scheme with
  | nil => cases hscheme with
    | inl hhttp => cases hhttp
    | inr hhttps => cases hhttps
  | cons c scheme =>
    rw [List.append_assoc, List.cons_append, List.singleton_prefix_cons_iff]
    rintro rfl
    simp [iequals, toLower, httpText, httpsText, slash] at hscheme

theorem not_slash_prefix_of_relative (h : IsOfKind href .relative) : ¬ [slash] <+: href := by
  obtain ⟨-, hhead, -⟩ := h
  rintro ⟨rest, rfl⟩
  cases hhead slash rfl

/-- A relative path has no scheme. -/
theorem not_http_prefix_of_relative (h : IsOfKind href .relative) :
    ¬ (httpText ++ schemeEnd <+: href ∨ httpsText ++ schemeEnd <+: href) := by
  obtain ⟨-, -, hcolon⟩ := h
  rintro (⟨rest, rfl⟩ | ⟨rest, rfl⟩)
  · exact hcolon (by
      simp [httpText, schemeEnd, Url.isAuthorityEnd, slash, question, Str.hash, colon])
  · exact hcolon (by
      simp [httpsText, schemeEnd, Url.isAuthorityEnd, slash, question, Str.hash, colon])

end Reference

theorem resolveUrl_eq_target_iff (b : BaseUrl) (r : Reference) :
    resolveUrl r.href b.text = b.target r ↔ b.ResolvesRight r := by
  obtain ⟨href, kind, hkind, -⟩ := r
  have hbase := b.text_ne_nil
  cases kind with
  | absolute =>
    change _ = href ↔ httpText ++ schemeEnd <+: href ∨ httpsText ++ schemeEnd <+: href
    by_cases hhttp : httpText ++ schemeEnd <+: href ∨ httpsText ++ schemeEnd <+: href
    · exact iff_of_true (resolveUrl_of_isAbsolute (.inl hhttp)) hhttp
    · have hslash := not_slash_prefix_of_absolute hkind
      have hhref : href ≠ [] := by
        obtain ⟨scheme, rest, rfl, -⟩ := hkind
        simp [schemeEnd]
      rw [resolveUrl_of_not_slash hbase hhref hslash hhttp]
      refine iff_of_false (fun heq => ?_) hhttp
      have hlonger := length_lt_resolveFromPath href (popSlashes b.text)
      rw [heq] at hlonger
      exact hlonger.false
  | hostRelative => exact iff_of_true (resolveUrl_of_isAbsolute (.inr hkind)) trivial
  | pathAbsolute =>
    change _ = b.origin ++ href ↔ (b.path ≠ [] ∨ b.query = none) ∧ ¬ b.IsBare
    rw [resolveUrl_pathAbsolute hbase hkind]
    by_cases hbare : b.IsBare
    · rw [BaseUrl.popSlashes_text_bare hbare, resolveFromHost_bare b.colon_not_mem_scheme]
      refine iff_of_false (fun heq => ?_) fun h => h.2 hbare
      have hcount := congrArg List.length heq
      simp [BaseUrl.origin, schemeEnd] at hcount
      omega
    · rw [BaseUrl.popSlashes_text hbare, resolveFromHost_eq b.colon_not_mem_scheme,
        and_iff_left hbare, ← BaseUrl.hostOf_left_eq_iff, BaseUrl.origin]
      simp
  | relative =>
    change _ = b.origin ++ b.directory ++ href ↔ b.KeepsDirectory ∧ ¬ b.IsBare
    rw [resolveUrl_of_not_slash hbase hkind.1 (not_slash_prefix_of_relative hkind)
      (not_http_prefix_of_relative hkind)]
    by_cases hbare : b.IsBare
    · rw [BaseUrl.popSlashes_text_bare hbare, resolveFromPath_bare b.slash_not_mem_scheme]
      refine iff_of_false (fun heq => ?_) fun h => h.2 hbare
      have hcount := congrArg List.length heq
      simp [BaseUrl.origin, schemeEnd] at hcount
      omega
    · rw [BaseUrl.popSlashes_text hbare, resolveFromPath_eq b.colon_not_mem_scheme,
        and_iff_left hbare, ← BaseUrl.directoryOf_left_eq_iff, BaseUrl.origin]
      simp only [List.append_assoc, List.append_cancel_left_eq]
      rw [← List.append_assoc, List.append_cancel_right_eq]

/-- `"http://a/dir/"`. -/
def directoryBase : BaseUrl where
  scheme := httpText
  authority := [97]
  path := [slash, 100, 105, 114, slash]
  query := none
  validScheme := by decide
  authorityChars c hc := by
    obtain rfl := List.mem_singleton.mp hc
    rfl
  pathStart := by decide
  pathChars := by decide
  queryChars := by simp

/-- `"x"`. -/
def pageReference : Reference where
  href := [120]
  kind := .relative
  isOfKind := by
    refine ⟨by decide, fun c hc => ?_, by decide⟩
    obtain rfl := Option.some.inj hc
    rfl
  noDotSegments := by decide

/-- From `"http://a/dir/"` the reference `"x"` is resolved to `"http://a/x"`. -/
theorem resolveUrl_directory_ne :
    resolveUrl pageReference.href directoryBase.text ≠ directoryBase.target pageReference := by
  decide

end Sihd.Http.LinkExtractor
