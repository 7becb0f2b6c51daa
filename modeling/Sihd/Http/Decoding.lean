import Sihd.Http.Route

/-!
# Decoding the segments of a path

`findOnce` is the table whose routes see each raw segment decoded once. The
table decodes a path, cuts it again and decodes its parts again; it is the same
for every path whose segments decode to texts without slashes and without
escapes, and only for these: a route of as many parameters as the path has
segments, and one catch-all, tell the others apart.
-/

namespace Sihd.Http

open Util.Str

/-- A match of decoded segments. -/
def matchDecoded : List Segment → List (List UInt8) → Params → RouteMatch
  | [], _, params => some params
  | segment :: segments, decoded, params =>
      if segment.isCatchAll then some (params.set segment.value ([slash].intercalate decoded))
      else
        match decoded with
        | [] => none
        | d :: decoded =>
            if segment.isParam then matchDecoded segments decoded (params.set segment.value d)
            else if segment.value ≠ d then none
            else matchDecoded segments decoded params

section

variable {Handler : Type}

def Route.matchSegments (r : Route Handler) (decoded : List (List UInt8)) : RouteMatch :=
  if r.fits decoded.length then matchDecoded r.segments decoded .empty else none

/-- The segments between the slashes of a path, each decoded once. -/
def decodedSegments (path : List UInt8) : List (List UInt8) :=
  (split path [slash]).map strDecode

/-- `find`, with every raw segment decoded once. -/
def RouteTable.findOnce (t : RouteTable Handler) (method : RequestType) (path : List UInt8) :
    Option (FindResult Handler) :=
  match t.routes method with
  | none => none
  | some routes => findBy (fun r => r.matchSegments (decodedSegments path)) routes

end

/-! ### The parts of a path -/

theorem flatten_split (s : List UInt8) (d : UInt8) :
    (split s [d]).flatten = s.filter (· ≠ d) := by
  rw [split_eq (List.cons_ne_nil _ _), List.flatten_filter_ne_nil, flatten_pieces]

/-- Joining adds nothing but the separator. -/
theorem filter_intercalate (d : UInt8) (l : List (List UInt8)) :
    ([d].intercalate l).filter (· ≠ d) = l.flatten.filter (· ≠ d) := by
  induction l with
  | nil => rfl
  | cons w l ih =>
    cases l with
    | nil => simp
    | cons w' l =>
      rw [List.intercalate_cons_cons, List.filter_append, List.filter_append, ih,
        List.flatten_cons, List.filter_append]
      simp

theorem length_intercalate (d : UInt8) (l : List (List UInt8)) :
    ([d].intercalate l).length = l.flatten.length + (l.length - 1) := by
  induction l with
  | nil => rfl
  | cons w l ih =>
    cases l with
    | nil => simp
    | cons w' l =>
      rw [List.intercalate_cons_cons, List.length_append, List.length_append, ih]
      simp only [List.flatten_cons, List.length_append, List.length_cons, List.length_nil]
      omega

/-! ### The match of a path -/

theorem strDecode_ne_nil {s : List UInt8} (h : s ≠ []) : strDecode s ≠ [] :=
  percentDecode_eq_nil_iff.not.mpr h

theorem joinParts_append (joined : List UInt8) (hjoined : joined ≠ [])
    {parts : List (List UInt8)} :
    parts.foldl (fun joined part =>
      (if joined = [] then joined else joined ++ [slash]) ++ strDecode part) joined =
      [slash].intercalate (joined :: parts.map strDecode) := by
  induction parts generalizing joined with
  | nil => simp
  | cons part parts ih =>
    rw [List.foldl_cons, if_neg hjoined, ih _ (by simp [hjoined]), List.map_cons,
      List.intercalate_cons_cons]
    cases parts with
    | nil => simp
    | cons part' parts =>
      simp only [List.map_cons, List.intercalate_cons_cons, List.append_assoc]

/-- A catch-all is given the decoded parts, joined. -/
theorem joinParts_eq {parts : List (List UInt8)} (h : ∀ part ∈ parts, part ≠ []) :
    joinParts parts = [slash].intercalate (parts.map strDecode) := by
  cases parts with
  | nil => rfl
  | cons part parts =>
    rw [joinParts, List.foldl_cons, if_pos rfl, List.nil_append,
      joinParts_append _ (strDecode_ne_nil (h part List.mem_cons_self))]
    rfl

theorem matchParts_eq (segments : List Segment) {parts : List (List UInt8)}
    (h : ∀ part ∈ parts, part ≠ []) (params : Params) :
    matchParts segments parts params =
      matchDecoded segments (parts.map strDecode) params := by
  induction segments generalizing parts params with
  | nil => rfl
  | cons segment segments ih =>
    rw [matchParts.eq_def, matchDecoded.eq_def]
    dsimp only
    rw [joinParts_eq h]
    cases parts with
    | nil => rfl
    | cons part parts =>
      rw [List.forall_mem_cons] at h
      simp only [List.map_cons, ih h.2]

variable {Handler : Type}

/-- A route decodes the parts of the path that it is given. -/
theorem Route.matchPath_eq (r : Route Handler) (path : List UInt8) :
    r.matchPath path = r.matchSegments (decodedSegments path) := by
  rw [matchPath, matchSegments, decodedSegments, List.length_map,
    matchParts_eq _ fun part hpart => (mem_split_char hpart).1]

theorem RouteTable.find_eq (t : RouteTable Handler) (method : RequestType)
    (path : List UInt8) : t.find method path = t.findOnce method (normalizePath path) := by
  rw [find, findOnce]
  cases t.routes method with
  | none => rfl
  | some routes => simp only [Route.matchPath_eq]

/-! ### When the table decodes once -/

/-- A path whose segments decode to texts without slashes and escapes. -/
def DecodedOnce (path : List UInt8) : Prop :=
  ∀ s ∈ split path [slash], slash ∉ strDecode s ∧ strDecode (strDecode s) = strDecode s

theorem decodedSegments_normalizePath {path : List UInt8} (h : DecodedOnce path) :
    decodedSegments (normalizePath path) = decodedSegments path := by
  rw [decodedSegments, normalizePath, split_intercalate, List.map_map]
  · exact List.map_congr_left fun s hs => (h s hs).2
  · intro w hw
    obtain ⟨s, hs, rfl⟩ := List.mem_map.mp hw
    exact ⟨strDecode_ne_nil (mem_split_char hs).1, (h s hs).1⟩

theorem length_strDecode_le (s : List UInt8) : (strDecode s).length ≤ s.length :=
  length_percentDecode_le s

theorem length_map_strDecode_le (l : List (List UInt8)) :
    (l.map strDecode).flatten.length ≤ l.flatten.length := by
  induction l with
  | nil => exact Nat.le_refl _
  | cons s l ih =>
    have hs := length_strDecode_le s
    rw [List.map_cons, List.flatten_cons, List.flatten_cons, List.length_append,
      List.length_append]
    omega

/-- Texts that lose no byte are decoded to themselves. -/
theorem strDecode_eq_self_of_length {l : List (List UInt8)}
    (h : (l.map strDecode).flatten.length = l.flatten.length) : ∀ s ∈ l, strDecode s = s := by
  induction l with
  | nil => exact fun s hs => by cases hs
  | cons s l ih =>
    have hs := length_strDecode_le s
    have hl := length_map_strDecode_le l
    rw [List.map_cons, List.flatten_cons, List.flatten_cons, List.length_append,
      List.length_append] at h
    rw [List.forall_mem_cons]
    exact ⟨percentDecode_eq_self (by change (strDecode s).length = _; omega), ih (by omega)⟩

/-- Segments that are as many and as long after they were decoded again. -/
theorem decodedOnce_of_length {path : List UInt8}
    (hcount : (decodedSegments (normalizePath path)).length = (decodedSegments path).length)
    (hlength : ([slash].intercalate (decodedSegments (normalizePath path))).length =
      ([slash].intercalate (decodedSegments path)).length) : DecodedOnce path := by
  have hflatten : (decodedSegments (normalizePath path)).flatten.length =
      (decodedSegments path).flatten.length := by
    rw [length_intercalate, length_intercalate, hcount] at hlength
    omega
  -- the parts of the normalized path are the decoded segments without their slashes
  have hparts : (split (normalizePath path) [slash]).flatten =
      (decodedSegments path).flatten.filter (· ≠ slash) := by
    rw [flatten_split, normalizePath, filter_intercalate]
    rfl
  have hdecode := length_map_strDecode_le (split (normalizePath path) [slash])
  have hfilter := List.length_filter_le (fun c => decide (c ≠ slash)) (decodedSegments path).flatten
  rw [hparts] at hdecode
  have hslash : ∀ w ∈ decodedSegments path, w ≠ [] ∧ slash ∉ w := by
    intro w hw
    have hall := List.length_filter_eq_length_iff.mp (by
      exact le_antisymm hfilter (hflatten ▸ hdecode))
    refine ⟨?_, fun hmem => ?_⟩
    · obtain ⟨s, hs, rfl⟩ := List.mem_map.mp hw
      exact strDecode_ne_nil (mem_split_char hs).1
    · have hne := hall slash (List.mem_flatten_of_mem hw hmem)
      simp at hne
  -- so they are its parts, and decoding them again loses nothing
  have hsplit : split (normalizePath path) [slash] = decodedSegments path :=
    split_intercalate hslash
  have hself : ∀ w ∈ decodedSegments path, strDecode w = w := by
    refine strDecode_eq_self_of_length ?_
    rw [← hflatten, ← hsplit]
    rfl
  intro s hs
  have hmem : strDecode s ∈ decodedSegments path := List.mem_map_of_mem hs
  exact ⟨(hslash _ hmem).2, hself _ hmem⟩

/-! ### Routes that tell paths apart -/

theorem findBy_singleton (matchRoute : Route Handler → RouteMatch) (r : Route Handler) :
    RouteTable.findBy matchRoute [r] =
      (matchRoute r).map fun params => ⟨r.handler, params⟩ := by
  cases h : r.hasParams with
  | false =>
    cases hm : matchRoute r <;> simp [RouteTable.findBy, RouteTable.firstMatch, h, hm]
  | true =>
    cases hm : matchRoute r <;> simp [RouteTable.findBy, RouteTable.firstMatch, h, hm]

/-- A table with one route. -/
def single (pattern : List UInt8) : RouteTable Unit := RouteTable.empty.add pattern () .get

theorem find_single (pattern path : List UInt8) :
    (single pattern).find .get path =
      ((⟨pattern, ()⟩ : Route Unit).matchSegments (decodedSegments (normalizePath path))).map
        fun params => ⟨(), params⟩ := by
  rw [RouteTable.find_eq]
  exact findBy_singleton _ _

theorem findOnce_single (pattern path : List UInt8) :
    (single pattern).findOnce .get path =
      ((⟨pattern, ()⟩ : Route Unit).matchSegments (decodedSegments path)).map
        fun params => ⟨(), params⟩ := findBy_singleton _ _

/-- `{a}`. -/
def paramPart : List UInt8 := [123, 97, 125]

/-- `{a...}`. -/
def catchAllPart : List UInt8 := [123, 97, 46, 46, 46, 125]

/-- A pattern of some parameters. -/
def paramsPattern (n : Nat) : List UInt8 := [slash].intercalate (List.replicate n paramPart)

theorem segments_paramsPattern (n : Nat) :
    (⟨paramsPattern n, ()⟩ : Route Unit).segments = List.replicate n ⟨[97], true, false⟩ := by
  have hpart : ∀ w ∈ List.replicate n paramPart, w ≠ [] ∧ slash ∉ w := by
    intro w hw
    rw [(List.mem_replicate.mp hw).2]
    exact ⟨by decide, by decide⟩
  rw [Route.segments, paramsPattern, split_intercalate hpart, List.map_replicate]
  rfl

theorem isSome_matchDecoded {n : Nat} {decoded : List (List UInt8)} (h : decoded.length = n)
    (params : Params) :
    (matchDecoded (List.replicate n ⟨[97], true, false⟩) decoded params).isSome = true := by
  induction n generalizing decoded params with
  | zero => rfl
  | succ n ih =>
    cases decoded with
    | nil => cases h
    | cons d decoded => exact ih (Nat.succ.inj h) _

/-- A route of parameters matches paths of as many segments. -/
theorem isSome_matchSegments_paramsPattern (n : Nat) (decoded : List (List UInt8)) :
    ((⟨paramsPattern n, ()⟩ : Route Unit).matchSegments decoded).isSome = true ↔
      decoded.length = n := by
  have hcatchAll : (⟨paramsPattern n, ()⟩ : Route Unit).hasCatchAll = false := by
    rw [Route.hasCatchAll, segments_paramsPattern]
    simp
  rw [Route.matchSegments, Route.fits, hcatchAll, segments_paramsPattern, List.length_replicate]
  by_cases h : decoded.length = n
  · simp [h, isSome_matchDecoded h]
  · simp [h]

theorem matchSegments_catchAllPart {decoded : List (List UInt8)} (h : decoded ≠ []) :
    (⟨catchAllPart, ()⟩ : Route Unit).matchSegments decoded =
      some (OrderedMap.empty.set [97] ([slash].intercalate decoded)) := by
  have hsegments : (⟨catchAllPart, ()⟩ : Route Unit).segments = [⟨[97], true, true⟩] := by
    have hsplit := split_intercalate (d := slash) (l := [catchAllPart]) fun w hw => by
      rw [List.mem_singleton.mp hw]
      exact ⟨by decide, by decide⟩
    rw [List.intercalate_singleton] at hsplit
    rw [Route.segments, hsplit]
    rfl
  have hlength : 1 ≤ decoded.length := List.length_pos_of_ne_nil h
  rw [Route.matchSegments, Route.fits, Route.hasCatchAll, hsegments]
  simp [hlength, matchDecoded]

/-- The table sees every segment decoded once, whatever its routes, exactly when
the segments decode to texts without slashes and escapes. -/
theorem find_eq_findOnce_iff (path : List UInt8) :
    (∀ (Handler : Type) (t : RouteTable Handler) (method : RequestType),
      t.find method path = t.findOnce method path) ↔ DecodedOnce path := by
  constructor
  · intro h
    by_cases hnil : decodedSegments path = []
    · intro s hs
      rw [decodedSegments, List.map_eq_nil_iff] at hnil
      rw [hnil] at hs
      cases hs
    · have hcount : (decodedSegments (normalizePath path)).length =
          (decodedSegments path).length := by
        have hfind := h Unit (single (paramsPattern (decodedSegments path).length)) .get
        rw [find_single, findOnce_single] at hfind
        have hsome := congrArg Option.isSome hfind
        rw [Option.isSome_map, Option.isSome_map,
          (isSome_matchSegments_paramsPattern _ _).mpr rfl] at hsome
        exact (isSome_matchSegments_paramsPattern _ _).mp hsome
      have hnil' : decodedSegments (normalizePath path) ≠ [] := by
        rw [← List.length_pos_iff, hcount]
        exact List.length_pos_of_ne_nil hnil
      refine decodedOnce_of_length hcount (congrArg List.length ?_)
      have hfind := h Unit (single catchAllPart) .get
      rw [find_single, findOnce_single, matchSegments_catchAllPart hnil,
        matchSegments_catchAllPart hnil'] at hfind
      have hentries := congrArg (fun r => r.map fun r => r.params.entries) hfind
      simpa [OrderedMap.set, OrderedMap.empty, OrderedMap.setEntries] using hentries
  · intro h Handler t method
    rw [RouteTable.find_eq, RouteTable.findOnce, RouteTable.findOnce,
      decodedSegments_normalizePath h]

/-- `/%2525` reaches a handler as `%`. -/
theorem not_find_eq_findOnce :
    ¬ ∀ (path : List UInt8) (Handler : Type) (t : RouteTable Handler) (method : RequestType),
      t.find method path = t.findOnce method path := by
  intro h
  have hsplit : split [47, 37, 50, 53, 50, 53] [slash] = [[37, 50, 53, 50, 53]] := by
    rw [split_eq (List.cons_ne_nil _ _), pieces_char_cons_self,
      pieces_char_of_not_mem (by decide)]
    rfl
  have honce : decodedSegments [47, 37, 50, 53, 50, 53] = [[37, 50, 53]] := by
    rw [decodedSegments, hsplit]
    rfl
  have htwice : decodedSegments (normalizePath [47, 37, 50, 53, 50, 53]) = [[37]] := by
    have hnormal : normalizePath [47, 37, 50, 53, 50, 53] = [37, 50, 53] := by
      rw [normalizePath, hsplit]
      rfl
    rw [hnormal, decodedSegments, split_eq (List.cons_ne_nil _ _),
      pieces_char_of_not_mem (by decide)]
    rfl
  have hfind := h [47, 37, 50, 53, 50, 53] Unit (single catchAllPart) .get
  rw [find_single, findOnce_single, honce, htwice,
    matchSegments_catchAllPart (List.cons_ne_nil _ _),
    matchSegments_catchAllPart (List.cons_ne_nil _ _)] at hfind
  have hentries := congrArg (fun r => r.map fun r => r.params.entries) hfind
  simp [OrderedMap.set, OrderedMap.empty, OrderedMap.setEntries] at hentries

end Sihd.Http
