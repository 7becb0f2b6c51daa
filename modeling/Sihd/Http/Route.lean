import Sihd.Http.RequestType
import Sihd.Lib.OrderedMap
import Sihd.Lib.Percent
import Sihd.Util.Splitter.Plain

/-!
# Routes

A route is a pattern of literal segments, of named parameters `{name}` and of
catch-alls `{name...}`. A table keeps the routes of every method in the order in
which they were added; a path goes to the first route without parameters that
matches it, then to the first of the others, ordered by how specific they are.
-/

namespace Sihd.Http

open Util.Str

/-- `{`. -/
abbrev openBrace : UInt8 := 123

/-- `}`. -/
abbrev closeBrace : UInt8 := 125

/-- `...`. -/
def ellipsis : List UInt8 := [46, 46, 46]

def strDecode (s : List UInt8) : List UInt8 := percentDecode s

/-- Trailing and double slashes are dropped, and the segments are decoded. -/
def normalizePath (raw : List UInt8) : List UInt8 :=
  [slash].intercalate ((split raw [slash]).map strDecode)

structure Segment where
  value : List UInt8
  isParam : Bool
  isCatchAll : Bool

/-- A part of a pattern. -/
def Segment.ofPart (part : List UInt8) : Segment :=
  if 3 ≤ part.length ∧ part.head? = some openBrace ∧ part.getLast? = some closeBrace then
    let name := (part.drop 1).take (part.length - 2)
    if 4 ≤ name.length ∧ ellipsis.isSuffixOf name then
      ⟨name.take (name.length - 3), true, true⟩
    else ⟨name, true, false⟩
  else ⟨part, false, false⟩

structure Route (Handler : Type) where
  pattern : List UInt8
  handler : Handler

abbrev Params := OrderedMap (List UInt8) (List UInt8)

/-- The parameters when a route matches. -/
abbrev RouteMatch := Option Params

/-- The parts from a catch-all on, decoded. -/
def joinParts (parts : List (List UInt8)) : List UInt8 :=
  parts.foldl (fun joined part =>
    (if joined = [] then joined else joined ++ [slash]) ++ strDecode part) []

/-- The loop over the segments of a route. -/
def matchParts : List Segment → List (List UInt8) → Params → RouteMatch
  | [], _, params => some params
  | segment :: segments, parts, params =>
      if segment.isCatchAll then some (params.set segment.value (joinParts parts))
      else
        match parts with
        | [] => none
        | part :: parts =>
            if segment.isParam then
              matchParts segments parts (params.set segment.value (strDecode part))
            else if segment.value ≠ strDecode part then none
            else matchParts segments parts params

namespace Route

variable {Handler : Type}

def segments (r : Route Handler) : List Segment := (split r.pattern [slash]).map Segment.ofPart

def hasParams (r : Route Handler) : Bool := r.segments.any Segment.isParam

def hasCatchAll (r : Route Handler) : Bool := r.segments.any Segment.isCatchAll

/-- How many segments are literal. -/
def specificity (r : Route Handler) : Nat := r.segments.countP fun segment => !segment.isParam

/-- Whether a route has a segment for each of some parts. -/
def fits (r : Route Handler) (count : Nat) : Bool :=
  if r.hasCatchAll then r.segments.length ≤ count else count = r.segments.length

/-- `match`. -/
def matchPath (r : Route Handler) (path : List UInt8) : RouteMatch :=
  let parts := split path [slash]
  if r.fits parts.length then matchParts r.segments parts .empty else none

/-- The order in which the routes with parameters are tried. -/
def before (a b : Route Handler) : Bool :=
  if a.hasCatchAll ≠ b.hasCatchAll then !a.hasCatchAll else b.specificity < a.specificity

end Route

structure FindResult (Handler : Type) where
  handler : Handler
  params : Params

/-- The routes of each method that has some. -/
structure RouteTable (Handler : Type) where
  routes : RequestType → Option (List (Route Handler))

namespace RouteTable

variable {Handler : Type}

def empty : RouteTable Handler := ⟨fun _ => none⟩

def add (t : RouteTable Handler) (pattern : List UInt8) (handler : Handler)
    (method : RequestType) : RouteTable Handler where
  routes := Function.update t.routes method
    (some ((t.routes method).getD [] ++ [⟨pattern, handler⟩]))

/-- The first route of a list that matches. -/
def firstMatch (matchRoute : Route Handler → RouteMatch) (routes : List (Route Handler)) :
    Option (FindResult Handler) :=
  routes.findSome? fun r => (matchRoute r).map fun params => ⟨r.handler, params⟩

/-- The exact routes first, then those with parameters in their order. -/
def findBy (matchRoute : Route Handler → RouteMatch) (routes : List (Route Handler)) :
    Option (FindResult Handler) :=
  (firstMatch matchRoute (routes.filter fun r => !r.hasParams)).or
    (firstMatch matchRoute ((routes.filter Route.hasParams).mergeSort fun a b => !b.before a))

def find (t : RouteTable Handler) (method : RequestType) (path : List UInt8) :
    Option (FindResult Handler) :=
  match t.routes method with
  | none => none
  | some routes =>
      let normalized := normalizePath path
      findBy (fun r => r.matchPath normalized) routes

end RouteTable

end Sihd.Http
