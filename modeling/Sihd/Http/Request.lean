import Sihd.Http.Header

/-!
# Requests

A request is written as a line with its method, its url and its query, a line
for each header, an empty line and its content, and is read from such a text.
-/

namespace Sihd.Http

open Util.Str

structure HttpRequest where
  requestType : RequestType
  url : List UInt8
  queryParams : UnorderedMap (List UInt8) (List UInt8)
  httpHeader : HeaderMap
  content : List UInt8

/-- `HTTP/1.`. -/
def httpVersionStart : List UInt8 := [72, 84, 84, 80, 47, 49, 46]

namespace HttpRequest

def paramText (e : List UInt8 × List UInt8) : List UInt8 := e.1 ++ equal :: e.2

def queryText (queryParams : UnorderedMap (List UInt8) (List UInt8)) : List UInt8 :=
  if queryParams.entries = [] then []
  else question :: [ampersand].intercalate (queryParams.entries.map paramText)

def parseQuery (query : List UInt8) : UnorderedMap (List UInt8) (List UInt8) :=
  (split query [ampersand]).foldl (fun params param =>
    let (key, value) := splitPair param equal
    if key = [] then params else params.assign key value) .empty

/-- The path and the query parameters. -/
def splitPath (fullPath : List UInt8) :
    List UInt8 × UnorderedMap (List UInt8) (List UInt8) :=
  match cut question fullPath with
  | some (path, query) => (path, parseQuery query)
  | none => (fullPath, .empty)

/-- A request from the parts of its first line, its other lines and its
content. -/
def ofParts (parts lines : List (List UInt8)) (body : List UInt8) : Option HttpRequest :=
  match parts with
  | method :: fullPath :: version :: _ =>
      if RequestType.typeFromStr method = .none then none
      else if httpVersionStart.isPrefixOf version then
        some
          { requestType := RequestType.typeFromStr method
            url := (splitPath fullPath).1
            queryParams := (splitPath fullPath).2
            httpHeader := lines.foldl addHeaderFromStr .empty
            content := body }
      else none
  | _ => none

/-- The same method, url, query parameters, headers and content. -/
structure Same (r q : HttpRequest) : Prop where
  requestType : r.requestType = q.requestType
  url : r.url = q.url
  queryParams : r.queryParams.Same q.queryParams
  httpHeader : r.httpHeader.Same q.httpHeader
  content : r.content = q.content

end HttpRequest

/-- Headers with names that are tokens and values without line ends. -/
def PlainHeaders (headers : HeaderMap) : Prop :=
  ∀ e ∈ headers.entries, HeaderKey e.1 ∧ carriageReturn ∉ e.2 ∧ lineFeed ∉ e.2

namespace HttpRequest

structure Sendable (r : HttpRequest) : Prop where
  requestType : r.requestType ≠ .none
  url : space ∉ r.url ∧ question ∉ r.url ∧ carriageReturn ∉ r.url ∧ lineFeed ∉ r.url
  keys : ∀ e ∈ r.queryParams.entries, e.1 ≠ []
  headers : PlainHeaders r.httpHeader

/-- A request whose parts cannot be taken for the characters between them. -/
structure Kept (r : HttpRequest) : Prop where
  target : r.url ≠ [] ∨ r.queryParams.entries ≠ []
  params : ∀ e ∈ r.queryParams.entries,
    (equal ∉ e.1 ∧ ampersand ∉ e.1 ∧ space ∉ e.1 ∧ ¬ crlf <:+: e.1) ∧
      ampersand ∉ e.2 ∧ space ∉ e.2 ∧ ¬ crlf <:+: e.2
  headers : ∀ e ∈ r.httpHeader.entries, e.2 ≠ []

/-! ### What is written is read -/

section Kept

variable {r : HttpRequest}

theorem split_params {l : List (List UInt8 × List UInt8)} (hne : l ≠ [])
    (h : ∀ e ∈ l, ampersand ∉ paramText e) :
    split ([ampersand].intercalate (l.map paramText)) [ampersand] = l.map paramText := by
  have hpieces := pieces_char_intercalate (d := ampersand) (l := l.map paramText)
    (by simpa using hne) fun w hw => by
      obtain ⟨e, he, rfl⟩ := List.mem_map.mp hw
      exact h e he
  rw [split_eq (List.cons_ne_nil _ _), hpieces, List.filter_eq_self]
  intro w hw
  obtain ⟨e, -, rfl⟩ := List.mem_map.mp hw
  simp [paramText]

theorem Kept.ampersand_not_mem (h : Kept r) : ∀ e ∈ r.queryParams.entries,
    ampersand ∉ paramText e := by
  intro e he
  obtain ⟨hkey, hvalue⟩ := h.params e he
  rw [paramText, List.mem_append, List.mem_cons, not_or, not_or]
  exact ⟨hkey.2.1, by decide, hvalue.1⟩

/-- The parameters of a query are assigned in its order. -/
theorem Kept.entries_parseQuery (h : Kept r) (hr : Sendable r)
    (hne : r.queryParams.entries ≠ []) :
    (parseQuery ([ampersand].intercalate (r.queryParams.entries.map paramText))).entries =
      r.queryParams.entries := by
  have hassign : ∀ (m : UnorderedMap (List UInt8) (List UInt8)) (e : List UInt8 × List UInt8),
      e ∈ r.queryParams.entries →
        (let (key, value) := splitPair (paramText e) equal
          if key = [] then m else m.assign key value) = m.assign e.1 e.2 := by
    intro m e he
    rw [paramText, splitPair_append_cons (h.params e he).1.1 (hr.keys e he)]
    exact if_neg (hr.keys e he)
  rw [parseQuery, split_params hne h.ampersand_not_mem, List.foldl_map,
    List.foldl_ext _ _ _ hassign]
  refine (UnorderedMap.entries_foldl (fun m k v hk => UnorderedMap.entries_assign hk v) ?_).trans
    (List.nil_append _)
  rw [UnorderedMap.empty, List.nil_append]
  exact r.queryParams.nodup

theorem Kept.splitPath (h : Kept r) (hr : Sendable r) :
    (splitPath (r.url ++ queryText r.queryParams)).1 = r.url ∧
      (splitPath (r.url ++ queryText r.queryParams)).2.entries = r.queryParams.entries := by
  by_cases hne : r.queryParams.entries = []
  · rw [queryText, if_pos hne, List.append_nil, HttpRequest.splitPath,
      cut_eq_none_iff.mpr hr.url.2.1]
    exact ⟨rfl, hne.symm⟩
  · rw [queryText, if_neg hne, HttpRequest.splitPath, cut_append_cons hr.url.2.1]
    exact ⟨rfl, h.entries_parseQuery hr hne⟩

end Kept

/-! ### What is read can be written -/

end HttpRequest

end Sihd.Http
