import Sihd.Http.RequestType
import Sihd.Lib.Pieces
import Sihd.Lib.UnorderedMap
import Sihd.Util.Splitter.Plain

/-!
# Headers

The headers are a map whose keys are names in lower case with a colon behind
them. `setHeader` leaves a header that is there alone. Headers are written a
line each, `name: value`, and a line is read up to its first colon or blank.
-/

namespace Sihd.Http

open Util.Str

/-- The blank. -/
abbrev space : UInt8 := 32

/-- `\r`. -/
abbrev carriageReturn : UInt8 := 13

def crlf : List UInt8 := [carriageReturn, lineFeed]

abbrev HeaderMap := UnorderedMap (List UInt8) (List UInt8)

/-- `to_lower`, which stops at a zero. -/
def strToLower : List UInt8 → List UInt8
  | [] => []
  | c :: s => if c = 0 then c :: s else toLower c :: strToLower s

def formatHdrName (entry : List UInt8) : List UInt8 :=
  strToLower (if entry.getLast? = some colon then entry else entry ++ [colon])

def setHeader (headers : HeaderMap) (name value : List UInt8) : HeaderMap :=
  headers.emplace (formatHdrName name) value

/-- The name and the value of a header, at the first of `:` and the blank. -/
def splitHeader (header : List UInt8) : Option (List UInt8 × List UInt8) :=
  let header := if header.getLast? = some lineFeed then header.dropLast else header
  match header.findIdx? fun c => c == colon || c == space with
  | none => none
  | some i =>
      if header.length ≤ i + 2 then none else some (header.take i, header.drop (i + 2))

def addHeaderFromStr (headers : HeaderMap) (header : List UInt8) : HeaderMap :=
  match splitHeader header with
  | none => headers
  | some (name, value) => setHeader headers name value

/-- The name of a header, without its colon. -/
def hdrName (name : List UInt8) : List UInt8 :=
  if name.getLast? = some colon then name.dropLast else name

/-- Letters, digits and ``!#$%&'*+-.^_`|~``. -/
def isTokenChar (c : UInt8) : Bool :=
  (65 ≤ c && c ≤ 90) || (97 ≤ c && c ≤ 122) || (48 ≤ c && c ≤ 57) ||
    [33, 35, 36, 37, 38, 39, 42, 43, 45, 46, 94, 95, 96, 124, 126].contains c

/-- A key that `setHeader` makes of a token. -/
def HeaderKey (key : List UInt8) : Prop :=
  ∃ name, name ≠ [] ∧ (∀ c ∈ name, isTokenChar c = true) ∧ key = formatHdrName name

theorem strToLower_append_colon {name : List UInt8} (h : ∀ c ∈ name, isTokenChar c = true) :
    strToLower (name ++ [colon]) = name.map toLower ++ [colon] := by
  induction name with
  | nil => rfl
  | cons c name ih =>
    rw [List.forall_mem_cons] at h
    have hc : c ≠ 0 := by
      rintro rfl
      cases h.1
    rw [List.cons_append, strToLower, if_neg hc, ih h.2]
    rfl

theorem getLast?_ne {name : List UInt8} (h : ∀ c ∈ name, isTokenChar c = true) :
    name.getLast? ≠ some colon := by
  intro hlast
  have hcolon := h colon (List.mem_of_getLast? hlast)
  cases hcolon

theorem formatHdrName_token {name : List UInt8} (h : ∀ c ∈ name, isTokenChar c = true) :
    formatHdrName name = name.map toLower ++ [colon] := by
  rw [formatHdrName, if_neg (getLast?_ne h), strToLower_append_colon h]

/-- A name in lower case. -/
structure LowerToken (low : List UInt8) : Prop where
  ne_nil : low ≠ []
  token : ∀ c ∈ low, isTokenChar c = true
  lower : low.map toLower = low

theorem LowerToken.formatHdrName {low : List UInt8} (h : LowerToken low) :
    formatHdrName low = low ++ [colon] := by
  rw [formatHdrName_token h.token, h.lower]

theorem LowerToken.ne {low : List UInt8} (h : LowerToken low) {d : UInt8}
    (hd : isTokenChar d = false) : d ∉ low := by
  intro hmem
  rw [h.token d hmem] at hd
  cases hd

theorem LowerToken.splitHeader {low value : List UInt8} (h : LowerToken low)
    (hvalue : lineFeed ∉ value) :
    splitHeader (low ++ colon :: space :: value) =
      if value = [] then none else some (low, value) := by
  have hlast : (low ++ colon :: space :: value).getLast? ≠ some lineFeed := by
    intro hlast
    have hmem := List.mem_of_getLast? hlast
    rw [List.mem_append, List.mem_cons, List.mem_cons] at hmem
    rcases hmem with hmem | heq | heq | hmem
    · exact h.ne rfl hmem
    · cases heq
    · cases heq
    · exact hvalue hmem
  have hfind : (low ++ colon :: space :: value).findIdx? (fun c => c == colon || c == space) =
      some low.length := by
    have hnone : low.findIdx? (fun c => c == colon || c == space) = none := by
      rw [List.findIdx?_eq_none_iff]
      intro c hc
      have hcolon : c ≠ colon := fun heq => h.ne rfl (heq ▸ hc)
      have hspace : c ≠ space := fun heq => h.ne rfl (heq ▸ hc)
      simp [hcolon, hspace]
    rw [List.findIdx?_append, hnone, List.findIdx?_cons, if_pos (by rfl)]
    simp
  rw [Http.splitHeader, if_neg hlast, hfind]
  dsimp only
  by_cases hnil : value = []
  · rw [if_pos hnil, if_pos (by simp [hnil])]
  · have hpos := List.length_pos_of_ne_nil hnil
    rw [if_neg hnil, if_neg (by simp only [List.length_append, List.length_cons]; omega)]
    simp [List.drop_append]

end Sihd.Http
