import Mathlib.Data.List.DropRight
import Sihd.Http.Header
import Sihd.Lib.Transition
import Sihd.Net.Ip
import Sihd.Util.Url.Definitions

/-!
# The navigator

A request is made of its url, and then of the urls that the responses lead to: the location of
a redirect, or the url of a meta refresh. A url is checked against the policy of redirects and,
with the guard, for an internal host.
-/

namespace Sihd.Http

open Util Net

inductive RedirectPolicy where
  | all
  | sameHost
  | sameDomain
  | none
  deriving DecidableEq

/-- What `curl` gives of one request: whether it was `CURLE_OK`, and the rest. -/
structure SingleResponse where
  ok : Bool
  overflow : Bool
  httpStatus : Nat
  headers : HeaderMap
  redirectLocation : List UInt8
  content : List UInt8

structure RequestInfo where
  url : List UInt8
  method : List UInt8

/-- The settings of a navigator, its hooks, and what it uses of others: the resolver, and the
search for a meta refresh. -/
structure Navigator where
  followRedirects : Bool
  maxRedirects : Int
  redirectPolicy : RedirectPolicy
  ssrfGuard : Bool
  retryMax : Int
  resolve : Resolver
  extractMetaRefreshUrl : List UInt8 → List UInt8
  onBeforeRequest : Option (RequestInfo → Bool × RequestInfo)
  hasOnAuthRequired : Bool

structure NavigatorResponse where
  finalUrl : List UInt8
  redirectHistory : List (List UInt8)
  methodDowngraded : Bool
  httpStatus : Nat
  content : List UInt8

inductive Phase where
  | running
  | failed
  | done (response : NavigatorResponse)

/-- The variables of `perform_request`, whether `curl` was told to use `GET`, and the urls that
were requested, without the retries. -/
structure Session where
  currentUrl : List UInt8
  history : List (List UInt8)
  methodDowngraded : Bool
  canDowngrade : Bool
  redirects : Nat
  httpGet : Bool
  tried : List (List UInt8)
  phase : Phase

/-- What comes back for one url: the responses to the attempts, the answer of
`on_auth_required`, and the response to the request after it. -/
structure Exchange where
  attempts : Nat → SingleResponse
  authorized : Bool
  retried : SingleResponse

namespace HttpStatus

def isRedirect (code : Nat) : Bool :=
  code == 301 || code == 302 || code == 303 || code == 307 || code == 308

def isPostDowngrade (code : Nat) : Bool := code == 301 || code == 302 || code == 303

def isRateLimit (code : Nat) : Bool := code == 429 || code == 503

end HttpStatus

/-- `location:`. -/
def locationName : List UInt8 := [108, 111, 99, 97, 116, 105, 111, 110, 58]

/-- `GET`, `HEAD` and `OPTIONS`. -/
def safeMethods : List (List UInt8) :=
  [[71, 69, 84], [72, 69, 65, 68], [79, 80, 84, 73, 79, 78, 83]]

/-- The last two labels of a host. -/
def regDomain (host : List UInt8) : List UInt8 :=
  let parts := Str.split host [46]
  if parts.length ≤ 2 then host
  else [46].intercalate (parts.drop (parts.length - 2))

/-- A string without the `\\r`, `\\n` and blanks at its end. -/
def trimEnd (s : List UInt8) : List UInt8 :=
  s.rdropWhile fun c => c == carriageReturn || c == Str.lineFeed || c == space

namespace Navigator

/-- The internal hosts that the guard finds. -/
def isPrivateUrl (n : Navigator) (url : List UInt8) : Bool :=
  isPrivateHost n.resolve (Url.parse url).host

def checkRedirectPolicy (n : Navigator) (originalUrl targetUrl : List UInt8) : Bool :=
  match n.redirectPolicy with
  | .all => true
  | .none => false
  | .sameHost => (Url.parse originalUrl).host == (Url.parse targetUrl).host
  | .sameDomain => regDomain (Url.parse originalUrl).host == regDomain (Url.parse targetUrl).host

/-- `try_perform`, with so many attempts left. -/
def tryPerform : Nat → (Nat → SingleResponse) → Option SingleResponse
  | 0, _ => none
  | left + 1, attempts =>
      let sr := attempts 0
      if sr.overflow then some sr
      else if !sr.ok then tryPerform left fun i => attempts (i + 1)
      else if HttpStatus.isRateLimit sr.httpStatus && 0 < left then
        tryPerform left fun i => attempts (i + 1)
      else some sr

/-- The response to a url, after `on_auth_required`. -/
def response (n : Navigator) (e : Exchange) : Option SingleResponse :=
  (tryPerform (n.retryMax + 1).toNat e.attempts).map fun sr =>
    if sr.httpStatus == 401 && n.hasOnAuthRequired && e.authorized && e.retried.ok then e.retried
    else sr

/-- The location that a response redirects to and the policy accepts. -/
def location (n : Navigator) (startUrl : List UInt8) (s : Session) (sr : SingleResponse) :
    Option (List UInt8) :=
  if n.followRedirects && HttpStatus.isRedirect sr.httpStatus &&
      decide ((s.redirects : Int) < n.maxRedirects) then
    let locHdr := (sr.headers.find (formatHdrName locationName)).getD []
    let nextUrl := trimEnd (if locHdr ≠ [] then locHdr else sr.redirectLocation)
    if nextUrl ≠ [] ∧ n.checkRedirectPolicy startUrl nextUrl = true then some nextUrl else none
  else none

/-- The url of a meta refresh that the policy accepts. -/
def metaRefresh (n : Navigator) (startUrl : List UInt8) (s : Session) (sr : SingleResponse) :
    Option (List UInt8) :=
  if n.followRedirects && decide ((s.redirects : Int) < n.maxRedirects) && !sr.content.isEmpty then
    let metaUrl := n.extractMetaRefreshUrl sr.content
    if metaUrl ≠ [] ∧ n.checkRedirectPolicy startUrl metaUrl = true then some metaUrl else none
  else none

/-- A status that takes the body from a request. -/
def downgrade (s : Session) (sr : SingleResponse) : Session :=
  if s.canDowngrade && HttpStatus.isPostDowngrade sr.httpStatus then
    { s with methodDowngraded := true, canDowngrade := false, httpGet := true }
  else s

/-- A url is handed to `try_perform`, and again after `on_auth_required`. -/
def request (s : Session) : Session := { s with tried := s.tried ++ [s.currentUrl] }

def hop (s : Session) (url : List UInt8) : Session :=
  { s with history := s.history ++ [url], currentUrl := url, redirects := s.redirects + 1 }

/-- Follow the location of a response; false when there is none to follow. -/
def followLocation (n : Navigator) (startUrl : List UInt8) (s : Session) (sr : SingleResponse) :
    Bool × Session :=
  match n.location startUrl s sr with
  | none => (false, s)
  | some nextUrl =>
      let s := downgrade s sr
      if n.ssrfGuard && n.isPrivateUrl nextUrl then (false, s) else (true, hop s nextUrl)

/-- Follow a meta refresh, or give the response. -/
def followMeta (n : Navigator) (startUrl : List UInt8) (s : Session) (sr : SingleResponse) :
    Bool × Session :=
  match n.metaRefresh startUrl s sr with
  | none => (false, s)
  | some metaUrl =>
      if n.ssrfGuard && n.isPrivateUrl metaUrl then (false, s)
      else (true, { hop s metaUrl with httpGet := true })

def finish (s : Session) (sr : SingleResponse) : Session :=
  { s with
    phase := .done
      { finalUrl := s.currentUrl
        redirectHistory := if 1 < s.history.length then s.history else []
        methodDowngraded := s.methodDowngraded
        httpStatus := sr.httpStatus
        content := sr.content } }

/-- One round of the loop of `perform_request`. -/
def exchange (n : Navigator) (startUrl : List UInt8) (s : Session) (e : Exchange) : Session :=
  let s := request s
  match n.response e with
  | none => { s with phase := .failed }
  | some sr =>
      let (doRedirect, s) := n.followLocation startUrl s sr
      if doRedirect then s
      else
        let (doRefresh, s) := n.followMeta startUrl s sr
        if doRefresh then s else finish s sr

/-- The loop ends when the request has failed or has its response. -/
def step (n : Navigator) (startUrl : List UInt8) (s : Session) (e : Exchange) :
    Option Session :=
  match s.phase with
  | .running => some (n.exchange startUrl s e)
  | _ => none

/-- The url of the first request, if one is made. -/
def firstUrl (n : Navigator) (startUrl method : List UInt8) : Option (List UInt8) :=
  if n.ssrfGuard && n.isPrivateUrl startUrl then none
  else
    match n.onBeforeRequest with
    | none => some startUrl
    | some hook =>
        let (accepted, info) := hook ⟨startUrl, method⟩
        if accepted then some info.url else none

/-- What is before the loop of `perform_request`. -/
def start (n : Navigator) (startUrl method : List UInt8) : Option Session :=
  (n.firstUrl startUrl method).map fun url =>
    { currentUrl := url
      history := [url]
      methodDowngraded := false
      canDowngrade := !safeMethods.contains method
      redirects := 0
      httpGet := false
      tried := []
      phase := .running }

end Navigator

end Sihd.Http
