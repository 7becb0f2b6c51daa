import Mathlib.Data.List.Basic
import Mathlib.Tactic.Common

/-!
# Methods of requests

The names of the methods are written in upper case and read in any case.
-/

namespace Sihd.Http

inductive RequestType where
  | none
  | post
  | get
  | put
  | delete
  | options
  | patch
  | head
  deriving DecidableEq

/-- `tolower` of an ASCII character. -/
def toLower (c : UInt8) : UInt8 := if 65 ≤ c ∧ c ≤ 90 then c + 32 else c

def iequals (s t : List UInt8) : Bool := s.map toLower == t.map toLower

namespace RequestType

def typeFromStr (type : List UInt8) : RequestType :=
  if iequals type [103, 101, 116] then get
  else if iequals type [112, 111, 115, 116] then post
  else if iequals type [112, 117, 116] then put
  else if iequals type [100, 101, 108, 101, 116, 101] then delete
  else if iequals type [111, 112, 116, 105, 111, 110, 115] then options
  else if iequals type [112, 97, 116, 99, 104] then patch
  else if iequals type [104, 101, 97, 100] then head
  else none

end RequestType

end Sihd.Http
