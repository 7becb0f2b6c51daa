import Sihd.Lib.OrderedMap
import Sihd.Lib.Percent
import Sihd.Util.Number
import Sihd.Util.Splitter.Plain

/-!
# Urls

`Url.parse` cuts a string into the parts of a URI, each part after the one
before it, and `Url.encode` writes the parts again. The port is an `int` and
zero when there is none; the parameters of the query are decoded and ordered by
key; brackets around a host are not kept, and are written when the host has a
colon.
-/

namespace Sihd.Util

open Str

structure Url where
  scheme : List UInt8
  userinfo : List UInt8
  host : List UInt8
  port : Int32
  path : List UInt8
  queryParams : OrderedMap (List UInt8) (List UInt8)
  fragment : List UInt8
  hasAuthority : Bool

namespace Url

def isAlpha (c : UInt8) : Bool := (65 ≤ c && c ≤ 90) || (97 ≤ c && c ≤ 122)

/-- The characters of a scheme after the first one: letters, digits and `+-.`. -/
def isSchemeChar (c : UInt8) : Bool :=
  isAlpha c || isDecimalDigit c || c == 43 || c == 45 || c == 46

def validScheme : List UInt8 → Bool
  | [] => false
  | c :: s => isAlpha c && s.all isSchemeChar

/-- Letters, digits and `-_.~`. -/
def isUnreserved (c : UInt8) : Bool :=
  isAlpha c || isDecimalDigit c || c == 45 || c == 95 || c == 46 || c == 126

def strEncode (s : List UInt8) : List UInt8 := percentEncode isUnreserved s

def strDecode (s : List UInt8) : List UInt8 := percentDecode s

/-! ### Parsing -/

/-- The scheme and what is after it. -/
def splitScheme (url : List UInt8) : List UInt8 × List UInt8 :=
  match cut colon url with
  | some (potential, remainder) =>
      if validScheme potential then (potential, remainder) else ([], url)
  | none => ([], url)

def isAuthorityEnd (c : UInt8) : Bool := c == slash || c == question || c == hash

/-- Whether there is an authority, the authority and what is after it. -/
def splitAuthority (remainder : List UInt8) : Bool × List UInt8 × List UInt8 :=
  if [slash, slash].isPrefixOf remainder then
    (true, (remainder.drop 2).takeWhile fun c => !isAuthorityEnd c,
      (remainder.drop 2).dropWhile fun c => !isAuthorityEnd c)
  else (false, [], remainder)

/-- The user information, up to the last `@`, and what is after it. -/
def splitUserinfo (authority : List UInt8) : List UInt8 × List UInt8 :=
  (cutLast atSign authority).getD ([], authority)

/-- `convert_from_string<long>`, cast to `int`. -/
def convertPort (s : List UInt8) : Option Int32 := (toSigned s).map Int32.ofInt

/-- The host and the port. -/
def parseHostPort (authority : List UInt8) : List UInt8 × Int32 :=
  if authority.head? = some openBracket then
    match cut closeBracket authority with
    | some (before, after) =>
        (before.tail, if after.head? = some colon then (convertPort after.tail).getD 0 else 0)
    | none => ([], 0)
  else
    match cutLast colon authority with
    | some (before, after) =>
        match convertPort after with
        | some port => (before, port)
        | none => (authority, 0)
    | none => (authority, 0)

def splitFragment (remainder : List UInt8) : List UInt8 × List UInt8 :=
  (cut hash remainder).getD (remainder, [])

def parseQuery (query : List UInt8) : OrderedMap (List UInt8) (List UInt8) :=
  (split query [ampersand]).foldl (fun params param =>
    let (key, value) := splitPair param equal
    if key = [] then params else params.set (strDecode key) (strDecode value)) .empty

/-- The path and the parameters. -/
def splitQuery (remainder : List UInt8) :
    List UInt8 × OrderedMap (List UInt8) (List UInt8) :=
  match cut question remainder with
  | some (path, query) => (path, parseQuery query)
  | none => (remainder, .empty)

def parse (url : List UInt8) : Url :=
  let (scheme, remainder) := splitScheme url
  let (hasAuthority, authority, remainder) := splitAuthority remainder
  let (userinfo, hostPort) := splitUserinfo authority
  let (host, port) := parseHostPort hostPort
  let (remainder, fragment) := splitFragment remainder
  let (path, queryParams) := splitQuery remainder
  { scheme := scheme
    userinfo := userinfo
    host := host
    port := port
    path := if hasAuthority ∧ path = [] then [slash] else path
    queryParams := queryParams
    fragment := fragment
    hasAuthority := hasAuthority }

/-! ### Encoding -/

def encodeScheme (scheme : List UInt8) : List UInt8 :=
  if scheme = [] then [] else scheme ++ [colon]

def encodeUserinfo (userinfo : List UInt8) : List UInt8 :=
  if userinfo = [] then [] else userinfo ++ [atSign]

/-- The text of a port, after the host. -/
def encodePort (port : Int32) : List UInt8 :=
  if port = 0 then [] else colon :: decimalInt port.toInt

def encodeHostPort (host : List UInt8) (port : Int32) : List UInt8 :=
  (if colon ∈ host then openBracket :: host ++ [closeBracket] else host) ++ encodePort port

def encodeQuery (queryParams : OrderedMap (List UInt8) (List UInt8)) : List UInt8 :=
  if queryParams.entries = [] then []
  else question :: [ampersand].intercalate
    (queryParams.entries.map fun e => strEncode e.1 ++ equal :: strEncode e.2)

def encodeFragment (fragment : List UInt8) : List UInt8 :=
  if fragment = [] then [] else hash :: fragment

def encode (u : Url) : List UInt8 :=
  encodeScheme u.scheme ++
    ((if u.hasAuthority then
        slash :: slash :: (encodeUserinfo u.userinfo ++ encodeHostPort u.host u.port)
      else []) ++
      (u.path ++ encodeQuery u.queryParams ++ encodeFragment u.fragment))

end Url

end Sihd.Util
