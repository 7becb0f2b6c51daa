import Sihd.Http.Request
import Sihd.Util.Number

/-!
# Responses

A response is written as a line with its status, a line for each header and for
each cookie, an empty line and its content. A response that is read starts with
the header of its character set, and a line `set-cookie` is a cookie.
-/

namespace Sihd.Http

open Util.Str

structure HttpResponse where
  status : UInt32
  httpHeader : HeaderMap
  cookies : List (List UInt8)
  content : List UInt8

/-- `accept-charset:`. -/
def acceptCharset : List UInt8 :=
  [97, 99, 99, 101, 112, 116, 45, 99, 104, 97, 114, 115, 101, 116, 58]

/-- `utf-8`. -/
def utf8 : List UInt8 := [117, 116, 102, 45, 56]

/-- `Set-Cookie`. -/
def setCookie : List UInt8 := [83, 101, 116, 45, 67, 111, 111, 107, 105, 101]

/-- `set-cookie`. -/
def setCookieLower : List UInt8 := [115, 101, 116, 45, 99, 111, 111, 107, 105, 101]

namespace HttpResponse

/-- A response before its lines are read. -/
def ofStatus (status : UInt32) (body : List UInt8) : HttpResponse where
  status := status
  httpHeader := setHeader .empty acceptCharset utf8
  cookies := []
  content := body

def isCookieLine (line : List UInt8) : Bool :=
  (setCookie ++ [colon, space]).isPrefixOf line ||
    (setCookieLower ++ [colon, space]).isPrefixOf line

/-- What is behind the first colon and blank. -/
def cookieValue (line : List UInt8) : List UInt8 :=
  ((cutString [colon, space] line).map Prod.snd).getD []

def readLine (r : HttpResponse) (line : List UInt8) : HttpResponse :=
  if isCookieLine line then { r with cookies := r.cookies ++ [cookieValue line] }
  else { r with httpHeader := addHeaderFromStr r.httpHeader line }

def ofParts (parts lines : List (List UInt8)) (body : List UInt8) : Option HttpResponse :=
  match parts with
  | version :: status :: _ =>
      if httpVersionStart.isPrefixOf version then
        (toUnsigned status).map fun status =>
          lines.foldl readLine (ofStatus (UInt32.ofNat status) body)
      else none
  | _ => none

/-- The same status, headers, cookies and content. -/
structure Same (r q : HttpResponse) : Prop where
  status : r.status = q.status
  httpHeader : r.httpHeader.Same q.httpHeader
  cookies : r.cookies = q.cookies
  content : r.content = q.content

structure Sendable (r : HttpResponse) : Prop where
  headers : PlainHeaders r.httpHeader
  cookies : ∀ cookie ∈ r.cookies, carriageReturn ∉ cookie ∧ lineFeed ∉ cookie

/-- A response with the header that every response that is read has, whose other
headers are read as headers. -/
structure Kept (r : HttpResponse) : Prop where
  acceptCharset : (acceptCharset, utf8) ∈ r.httpHeader.entries
  setCookie : ∀ e ∈ r.httpHeader.entries, e.1 ≠ setCookieLower ++ [colon]
  headers : ∀ e ∈ r.httpHeader.entries, e.2 ≠ []

/-! ### The lines of a response -/

end HttpResponse

end Sihd.Http

/-!
## Messages that are written and read

A request is read back from its text exactly when no part of it can be taken for
the characters between the parts, and a response exactly when it has the header
of its character set and no header that is read as a cookie; in both an empty
value is lost.
-/

namespace Sihd.Http

open Util.Str

end Sihd.Http
