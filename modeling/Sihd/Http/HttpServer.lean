import Mathlib.Data.List.DropRight
import Sihd.Http.Response
import Sihd.Http.Route
import Sihd.Util.Str.Convert
import Sihd.Util.Str.Trim

/-!
# The HTTP server

The callbacks of a server as functions of a session, of what the library has of
the request and of what others answer meanwhile: the file system, the
authenticators and the handlers. `events` is what a callback asks for and sends,
in this order. A write succeeds; a head is sent when the library can put it into
its buffer.
-/

namespace Sihd.Http

open Util.Str

/-- `server:`. -/
def serverHdr : List UInt8 := [115, 101, 114, 118, 101, 114, 58]

/-- `content-type:`. -/
def contentTypeHdr : List UInt8 := [99, 111, 110, 116, 101, 110, 116, 45, 116, 121, 112, 101, 58]

/-- `content-length:`. -/
def contentLengthHdr : List UInt8 :=
  [99, 111, 110, 116, 101, 110, 116, 45, 108, 101, 110, 103, 116, 104, 58]

/-- `connection:`. -/
def connectionHdr : List UInt8 := [99, 111, 110, 110, 101, 99, 116, 105, 111, 110, 58]

/-- `www-authenticate:`. -/
def wwwAuthenticate : List UInt8 :=
  [119, 119, 119, 45, 97, 117, 116, 104, 101, 110, 116, 105, 99, 97, 116, 101, 58]

/-- `Basic realm="sihd", Bearer`. -/
def basicRealm : List UInt8 :=
  [66, 97, 115, 105, 99, 32, 114, 101, 97, 108, 109, 61, 34, 115, 105, 104, 100, 34, 44, 32, 66,
    101, 97, 114, 101, 114]

/-- `access-control-allow-origin:`. -/
def allowOrigin : List UInt8 :=
  [97, 99, 99, 101, 115, 115, 45, 99, 111, 110, 116, 114, 111, 108, 45, 97, 108, 108, 111, 119,
    45, 111, 114, 105, 103, 105, 110, 58]

/-- `access-control-allow-methods:`. -/
def allowMethods : List UInt8 :=
  [97, 99, 99, 101, 115, 115, 45, 99, 111, 110, 116, 114, 111, 108, 45, 97, 108, 108, 111, 119,
    45, 109, 101, 116, 104, 111, 100, 115, 58]

/-- `access-control-allow-headers:`. -/
def allowHeaders : List UInt8 :=
  [97, 99, 99, 101, 115, 115, 45, 99, 111, 110, 116, 114, 111, 108, 45, 97, 108, 108, 111, 119,
    45, 104, 101, 97, 100, 101, 114, 115, 58]

/-- `access-control-max-age:`. -/
def maxAgeHdr : List UInt8 :=
  [97, 99, 99, 101, 115, 115, 45, 99, 111, 110, 116, 114, 111, 108, 45, 109, 97, 120, 45, 97,
    103, 101, 58]

/-- `GET, POST, PUT, DELETE, PATCH, HEAD, OPTIONS`. -/
def corsMethods : List UInt8 :=
  [71, 69, 84, 44, 32, 80, 79, 83, 84, 44, 32, 80, 85, 84, 44, 32, 68, 69, 76, 69, 84, 69, 44,
    32, 80, 65, 84, 67, 72, 44, 32, 72, 69, 65, 68, 44, 32, 79, 80, 84, 73, 79, 78, 83]

/-- `content-type, authorization`. -/
def corsHeaders : List UInt8 :=
  [99, 111, 110, 116, 101, 110, 116, 45, 116, 121, 112, 101, 44, 32, 97, 117, 116, 104, 111,
    114, 105, 122, 97, 116, 105, 111, 110]

/-- `86400`. -/
def corsMaxAge : List UInt8 := [56, 54, 52, 48, 48]

/-- `close`. -/
def closeWord : List UInt8 := [99, 108, 111, 115, 101]

/-- `keep-alive`. -/
def keepAlive : List UInt8 := [107, 101, 101, 112, 45, 97, 108, 105, 118, 101]

/-- `Bearer `. -/
def bearerStart : List UInt8 := [66, 101, 97, 114, 101, 114, 32]

/-- `Basic `. -/
def basicStart : List UInt8 := [66, 97, 115, 105, 99, 32]

/-- `; charset=`. -/
def charsetText : List UInt8 := [59, 32, 99, 104, 97, 114, 115, 101, 116, 61]

/-- `text/`. -/
def textSlash : List UInt8 := [116, 101, 120, 116, 47]

/-- `html`. -/
def htmlWord : List UInt8 := [104, 116, 109, 108]

/-- `index.html`. -/
def indexHtml : List UInt8 := [105, 110, 100, 101, 120, 46, 104, 116, 109, 108]

/-- `<html><body><h1>404 file not found</h1></body></html>`. -/
def html404 : List UInt8 :=
  [60, 104, 116, 109, 108, 62, 60, 98, 111, 100, 121, 62, 60, 104, 49, 62, 52, 48, 52, 32, 102,
    105, 108, 101, 32, 110, 111, 116, 32, 102, 111, 117, 110, 100, 60, 47, 104, 49, 62, 60, 47,
    98, 111, 100, 121, 62, 60, 47, 104, 116, 109, 108, 62]

/-- What each call of a stream provider gives: a chunk, and whether there is more. -/
abbrev StreamProvider := Nat → List UInt8 × Bool

structure ServedResponse extends HttpResponse where
  streamProvider : Option StreamProvider

structure ServedRequest extends HttpRequest where
  uriArgs : List (List UInt8)
  pathParams : Params
  clientIp : List UInt8
  authUser : List UInt8
  authToken : List UInt8
  cookies : UnorderedMap (List UInt8) (List UInt8)

/-- A request with its line only. -/
def ServedRequest.ofLine (url : List UInt8) (uriArgs : List (List UInt8))
    (requestType : RequestType) : ServedRequest where
  requestType := requestType
  url := url
  queryParams := .empty
  httpHeader := .empty
  content := []
  uriArgs := uriArgs
  pathParams := .empty
  clientIp := []
  authUser := []
  authToken := []
  cookies := .empty

namespace ServedResponse

/-- A response of status 200. -/
def new : ServedResponse := { HttpResponse.ofStatus 200 [] with streamProvider := none }

def setHeader (r : ServedResponse) (name value : List UInt8) : ServedResponse :=
  { r with httpHeader := Http.setHeader r.httpHeader name value }

def setContentLength (r : ServedResponse) (length : Nat) : ServedResponse :=
  r.setHeader contentLengthHdr (decimal length)

end ServedResponse

/-- The headers of a request that the server asks the library for. -/
inductive HeaderToken where
  | authorization
  | contentLength
  | cookie
  | connection
  deriving DecidableEq

/-- What the library has of a request. `uriLength` is the length of the url for its method, and
`closes` whether the connection ends with the transaction. -/
structure Incoming where
  uriLength : RequestType → Nat
  path : List UInt8
  header : HeaderToken → Option (List UInt8)
  uriArgs : List (List UInt8)
  clientIp : List UInt8
  closes : Bool

/-- What an authenticator is asked about. -/
inductive Credentials where
  | token (token : List UInt8)
  | basic (user pass : List UInt8)

/-- What others answer during a callback, for authenticators `A` and handlers `H`. -/
structure Surroundings (A H : Type) where
  isFile : List UInt8 → Bool
  isDir : List UInt8 → Bool
  accepts : A → Credentials → Bool
  respond : H → ServedRequest → ServedResponse → ServedResponse

/-- What the library does for the server: whether a head fits into its buffer, and the bytes of a
text in base 64, of which there are none when it cannot be decoded. -/
structure Lws where
  headFits : ServedResponse → Bool
  b64Decode : List UInt8 → List UInt8

structure WebService (A H : Type) where
  authenticator : Option A
  routeTable : RouteTable H

structure HttpServer (A H : Type) where
  rootDir : List UInt8
  resourcesPath : List (List UInt8)
  webservice : List UInt8 → Option (WebService A H)
  httpAuthenticator : Option A
  mimeTypes : UnorderedMap (List UInt8) (List UInt8)
  encoding : List UInt8
  defaultServerName : List UInt8
  defaultCorsOrigin : List UInt8
  page404Path : List UInt8

/-- What a callback asks for, runs or sends. `status` is `lws_return_http_status`, `file` is
`lws_serve_http_file`. -/
inductive ServerEvent (A H : Type) where
  | arrived (r : Incoming)
  | asked (a : A) (credentials : Credentials) (answer : Bool)
  | handled (service : WebService A H) (handler : H) (request : ServedRequest)
      (response : ServedResponse)
  | head (status : UInt32) (headers : HeaderMap) (cookies : List (List UInt8))
  | status (code : UInt32)
  | file (path type : List UInt8)
  | write (data : List UInt8) (final : Bool)
  | callbackOnWritable
  | transactionCompleted

structure HttpSession where
  rc : Int
  requestType : RequestType
  content : Option (List UInt8)
  contentSize : Nat
  request : Option ServedRequest
  shouldCompleteTransaction : Bool
  streamProvider : Option StreamProvider
  cachedAuthHeader : Option (List UInt8)

namespace HttpSession

/-- A session as the library allocates it. -/
def zero : HttpSession := ⟨0, .none, none, 0, none, false, none, none⟩

def init (s : HttpSession) : HttpSession :=
  { s with
    rc := 0
    requestType := .none
    contentSize := 0
    shouldCompleteTransaction := true
    streamProvider := none }

def clean (s : HttpSession) : HttpSession :=
  { s with request := none, content := none, cachedAuthHeader := none, streamProvider := none }

def newRequest (s : HttpSession) : HttpSession :=
  { s with
    request := none
    content := none
    contentSize := 0
    shouldCompleteTransaction := true
    streamProvider := none
    cachedAuthHeader := none }

end HttpSession

/-- `get_request_type`, in the order in which the methods are tried. -/
def Incoming.requestType (r : Incoming) : RequestType :=
  if r.uriLength .get ≠ 0 then .get
  else if r.uriLength .post ≠ 0 then .post
  else if r.uriLength .put ≠ 0 then .put
  else if r.uriLength .delete ≠ 0 then .delete
  else if r.uriLength .options ≠ 0 then .options
  else if r.uriLength .patch ≠ 0 then .patch
  else if r.uriLength .head ≠ 0 then .head
  else .none

/-- `parse_query_params`. -/
def parseQueryParams (uriArgs : List (List UInt8)) : UnorderedMap (List UInt8) (List UInt8) :=
  uriArgs.foldl (fun params arg =>
    match cut equal arg with
    | some (key, value) => params.assign key value
    | none => params.assign arg []) .empty

/-- `std::isspace`. -/
def isSpace (c : UInt8) : Bool := c == space || (9 ≤ c && c ≤ 13)

/-- `trim`. -/
def trimSpaces (s : List UInt8) : List UInt8 := (s.rdropWhile isSpace).dropWhile isSpace

/-- The loop over the parts of a cookie header. -/
def parseCookies (header : List UInt8) : UnorderedMap (List UInt8) (List UInt8) :=
  (split header [59]).foldl (fun cookies part =>
    match cut equal (trimSpaces part) with
    | some (name, value) => if name = [] then cookies else cookies.emplace name value
    | none => cookies) .empty

/-- A path without the slash that it begins with. -/
def dropSlash (path : List UInt8) : List UInt8 :=
  if path.head? = some slash then path.tail else path

/-- `combine`. -/
def combinePath (path1 path2 : List UInt8) : List UInt8 :=
  if path1 = [] then path2
  else if path1.getLast? = some slash then path1 ++ path2
  else path1 ++ slash :: path2

/-- `extension`, from the first dot behind the last slash. -/
def pathExtension (path : List UInt8) : List UInt8 :=
  let name := path.rtakeWhile (· ≠ slash)
  ((cut 46 name).map Prod.snd).getD []

namespace HttpServer

variable {A H : Type} (srv : HttpServer A H) (lws : Lws)

def mimeGet (ext : List UInt8) : List UInt8 := (srv.mimeTypes.find ext).getD (textSlash ++ ext)

/-! ### Heads and contents -/

/-- `send_http_headers`. Nothing is sent when a header does not fit. -/
def sendHttpHeaders (r : ServedResponse) : List (ServerEvent A H) :=
  if lws.headFits r then [.head r.status r.httpHeader r.cookies] else []

/-- The answer of a preflight request. -/
def preflightResponse : ServedResponse :=
  { ServedResponse.new with status := 204 }
    |>.setHeader serverHdr srv.defaultServerName
    |>.setHeader allowOrigin srv.defaultCorsOrigin
    |>.setHeader allowMethods corsMethods
    |>.setHeader allowHeaders corsHeaders
    |>.setHeader maxAgeHdr corsMaxAge
    |>.setContentLength 0

def unauthorizedResponse : ServedResponse :=
  { ServedResponse.new with status := 401 }
    |>.setHeader serverHdr srv.defaultServerName
    |>.setHeader wwwAuthenticate basicRealm
    |>.setContentLength 0

def notFoundResponse : ServedResponse :=
  { ServedResponse.new with status := 404 }
    |>.setHeader serverHdr srv.defaultServerName
    |>.setHeader acceptCharset srv.encoding
    |>.setHeader contentTypeHdr (srv.mimeGet htmlWord ++ charsetText ++ srv.encoding)
    |>.setContentLength html404.length

/-- `send_404`. -/
def send404 : List (ServerEvent A H) :=
  sendHttpHeaders lws srv.notFoundResponse ++ [.write html404 true]

/-- `get_resource_path`. -/
def getResourcePath (x : Surroundings A H) (path : List UInt8) : Option (List UInt8) :=
  let path := dropSlash path
  let fullPath := combinePath srv.rootDir path
  let indexPath := combinePath fullPath indexHtml
  if srv.rootDir ≠ [] ∧ x.isFile fullPath then some fullPath
  else if srv.rootDir ≠ [] ∧ (path = [] ∨ x.isDir fullPath) ∧ x.isFile indexPath then
    some indexPath
  else (srv.resourcesPath.map fun resourcePath => combinePath resourcePath path).find? x.isFile

/-! ### Authentication -/

structure AuthResult where
  authorized : Bool := false
  user : List UInt8 := []
  token : List UInt8 := []

def parseAuthorization (x : Surroundings A H) (value : List UInt8) (a : A) :
    AuthResult × List (ServerEvent A H) :=
  if value = [] then ({}, [])
  else if bearerStart.isPrefixOf value then
    let token := value.drop bearerStart.length
    let authorized := x.accepts a (.token token)
    ({ authorized, token := if authorized then token else [] },
      [.asked a (.token token) authorized])
  else if basicStart.isPrefixOf value then
    match cut colon (lws.b64Decode (value.drop basicStart.length)) with
    | some (user, pass) =>
      let authorized := x.accepts a (.basic user pass)
      ({ authorized, user := if authorized then user else [] },
        [.asked a (.basic user pass) authorized])
    | none => ({}, [])
  else ({}, [])

def getAuthenticatorFor (service : WebService A H) : Option A :=
  service.authenticator.or srv.httpAuthenticator

/-- `none` is a request that is refused. -/
def checkAndApplyAuth (x : Surroundings A H) (header : Option (List UInt8))
    (service : WebService A H) (request : ServedRequest) :
    Option ServedRequest × List (ServerEvent A H) :=
  match srv.getAuthenticatorFor service with
  | none => (some request, [])
  | some a =>
    let (auth, asked) := parseAuthorization lws x (header.getD []) a
    if auth.authorized then
      let request := if auth.user = [] then request else { request with authUser := auth.user }
      let request := if auth.token = [] then request else { request with authToken := auth.token }
      (some request, asked)
    else (none, asked ++ sendHttpHeaders lws srv.unauthorizedResponse)

/-! ### Web services -/

/-- `call`. `none` is a path that no handler has. -/
def call (x : Surroundings A H) (service : WebService A H) (path : List UInt8)
    (request : ServedRequest) (response : ServedResponse) :
    Option (H × ServedRequest × ServedResponse) :=
  (service.routeTable.find request.requestType path).map fun result =>
    let request := { request with pathParams := result.params }
    (result.handler, request, x.respond result.handler request response)

/-- The head that `send_response` makes. -/
def responseHead (r : Incoming) (response : ServedResponse) : ServedResponse :=
  if response.streamProvider.isSome then response.setHeader connectionHdr closeWord
  else
    let response :=
      if iequals ((r.header .connection).getD []) keepAlive then
        response.setHeader connectionHdr keepAlive
      else response
    response.setContentLength response.content.length

def sendResponse (s : HttpSession) (r : Incoming) (response : ServedResponse) :
    HttpSession × List (ServerEvent A H) :=
  let head := sendHttpHeaders lws (responseHead r response)
  match response.streamProvider with
  | some provider =>
    ({ s with streamProvider := some provider, shouldCompleteTransaction := false },
      head ++ [.callbackOnWritable])
  | none =>
    (s, head ++ if response.content = [] then [] else [.write response.content true])

/-- The request as a handler gets it, but for its credentials. -/
def describe (r : Incoming) (request : ServedRequest) : ServedRequest :=
  { request with
    clientIp := r.clientIp
    queryParams := parseQueryParams request.uriArgs
    cookies :=
      match r.header .cookie with
      | some header => parseCookies header
      | none => request.cookies }

/-- The name of a web service and the rest of the path. -/
def cutService (path : List UInt8) : Option (List UInt8 × List UInt8) := cut slash (dropSlash path)

/-- `false` is a request that was not served. -/
def serveWebservice (x : Surroundings A H) (s : HttpSession) (service : WebService A H)
    (r : Incoming) (request : ServedRequest) : Bool × HttpSession × List (ServerEvent A H) :=
  match cutService request.url with
  | none => (false, s, [])
  | some (_, restOfPath) =>
    match srv.checkAndApplyAuth lws x s.cachedAuthHeader service (describe r request) with
    | (none, events) => (true, s, events)
    | (some request, events) =>
      let response := ServedResponse.new.setHeader serverHdr srv.defaultServerName
      match call x service restOfPath request response with
      | none => (false, s, events)
      | some (handler, request, response) =>
        let (s, sent) := sendResponse lws s r response
        (true, s, events ++ .handled service handler request response :: sent)

/-- `_get_webservice_from_path`. -/
def getWebserviceFromPath (path : List UInt8) : Option (WebService A H) :=
  (cutService path).bind fun p => srv.webservice p.1

/-- `none` is an exception. -/
def checkWebservices (x : Surroundings A H) (s : HttpSession) (r : Incoming) :
    Option Bool × HttpSession × List (ServerEvent A H) :=
  match srv.getWebserviceFromPath r.path with
  | none => (some false, s, [])
  | some service =>
    let request := ServedRequest.ofLine r.path r.uriArgs s.requestType
    let served :=
      let (ok, s, events) := srv.serveWebservice lws x s service r request
      (some ok, s, events)
    if s.requestType = .post ∨ s.requestType = .put ∨ s.requestType = .patch then
      match r.header .contentLength with
      | none => (none, s, [])
      | some text =>
        if text = [] then (some false, s, [])
        else
          match convertFromString .uint64 text 10 with
          | none => (none, s, [])
          | some length =>
            if length = 0 then served
            else
              (some true,
                { s with
                  contentSize := 0
                  content := some (List.replicate length.toNat 0)
                  request := some request
                  shouldCompleteTransaction := false }, [])
    else served

/-! ### Callbacks -/

/-- The authorization header of a request, kept for the end of its body. -/
def cacheAuthHeader (s : HttpSession) (r : Incoming) : HttpSession :=
  match r.header .authorization with
  | some value => { s with cachedAuthHeader := some value }
  | none => s

def onHttpRequest (x : Surroundings A H) (s : HttpSession) (r : Incoming) :
    Int × HttpSession × List (ServerEvent A H) :=
  if s.requestType = .options ∧ srv.defaultCorsOrigin ≠ [] then
    (0, s, sendHttpHeaders lws srv.preflightResponse)
  else
    let s := cacheAuthHeader s r
    match srv.getResourcePath x r.path with
    | some path =>
      (0, { s with shouldCompleteTransaction := false },
        [.file path (srv.mimeGet (pathExtension path) ++ charsetText ++ srv.encoding)])
    | none =>
      match srv.checkWebservices lws x s r with
      | (none, s, events) => (-1, s, events)
      | (some true, s, events) => (s.rc, s, events)
      | (some false, s, events) =>
        (0, s, if srv.page404Path = [] then events ++ srv.send404 lws else events)

/-- `copy_from`, which copies nothing that does not fit. -/
def copyFrom (content buf : List UInt8) (offset : Nat) : List UInt8 :=
  if offset < content.length ∧ offset + buf.length ≤ content.length then
    content.take offset ++ buf ++ content.drop (offset + buf.length)
  else content

def onHttpBody (s : HttpSession) (buf : List UInt8) : HttpSession :=
  match s.content with
  | none => s
  | some content =>
    { s with
      content := some (copyFrom content buf s.contentSize)
      contentSize := s.contentSize + buf.length }

def onHttpBodyEnd (x : Surroundings A H) (s : HttpSession) (r : Incoming) :
    HttpSession × List (ServerEvent A H) :=
  match s.request, s.content with
  | some request, some content =>
    let request := { request with content }
    match srv.getWebserviceFromPath request.url with
    | none => (s.newRequest, [])
    | some service =>
      let (_, s, events) := srv.serveWebservice lws x s service r request
      (s.newRequest, events)
  | _, _ => (s, [.status 200])

/-- The reasons of the callbacks that reach a session. -/
inductive CallbackReason (A H : Type) where
  | http (r : Incoming) (x : Surroundings A H)
  | httpBody (buf : List UInt8)
  | httpBodyCompletion (r : Incoming) (x : Surroundings A H)
  | httpFileCompletion (closes : Bool)
  | httpWriteable
  | httpBindProtocol
  | httpDropProtocol (active : Bool)

/-- `lws_http_transaction_completed`, with what the callback returns then. -/
def completed (closes : Bool) (rc : Int) : Int := if closes then -1 else rc

/-- `_lws_http_callback`: what it returns, the session and what was sent. -/
def lwsHttpCallback (s : HttpSession) :
    CallbackReason A H → Int × HttpSession × List (ServerEvent A H)
  | .http r x =>
    if r.path.length < 1 then
      (completed r.closes 0, s, [.arrived r, .status 400, .transactionCompleted])
    else
      let s := { s.newRequest with requestType := r.requestType }
      let (rc, s, events) := srv.onHttpRequest lws x s r
      if s.shouldCompleteTransaction then
        (completed r.closes rc, s, .arrived r :: events ++ [.transactionCompleted])
      else (rc, s, .arrived r :: events)
  | .httpBody buf => (0, onHttpBody s buf, [])
  | .httpBodyCompletion r x =>
    let (s, events) := srv.onHttpBodyEnd lws x s r
    (completed r.closes 0, s, events ++ [.transactionCompleted])
  | .httpFileCompletion closes => (completed closes 0, s, [.transactionCompleted])
  | .httpWriteable =>
    match s.streamProvider with
    | none => (0, s, [])
    | some provider =>
      let (chunk, hasMore) := provider 0
      let sent := if chunk = [] then [] else [.write chunk (!hasMore)]
      if hasMore then
        (0, { s with streamProvider := some fun k => provider (k + 1) },
          sent ++ [.callbackOnWritable])
      else (-1, { s with streamProvider := none }, sent ++ [.transactionCompleted])
  | .httpBindProtocol => (0, s.init, [])
  | .httpDropProtocol active => (0, if active then s.clean else s, [])

end HttpServer

end Sihd.Http
