import Sihd.Http.HttpServer

/-!
# Who the handlers of a server run for

A session keeps the authorization header of the request that it was sent last,
beside the request itself when its body is still to come. The log of a session
has what happened there, the latest first: a handler that has an authenticator
runs right after this has accepted what the last request carried.
-/

namespace Sihd.Http

open Util.Str

namespace Credentials

/-- The user that a handler sees. -/
def user : Credentials → List UInt8
  | .token _ => []
  | .basic user _ => user

/-- The token that a handler sees. -/
def tokenText : Credentials → List UInt8
  | .token text => text
  | .basic _ _ => []

end Credentials

namespace ServerEvent

variable {A H : Type}

/-- Another request comes to the session. -/
def IsArrival : ServerEvent A H → Prop
  | .arrived r => r.path ≠ []
  | _ => False

/-- Neither a request nor the run of a handler. -/
def Quiet : ServerEvent A H → Prop
  | .arrived r => r.path = []
  | .handled _ _ _ _ => False
  | _ => True

theorem Quiet.not_isArrival {e : ServerEvent A H} (h : e.Quiet) : ¬ e.IsArrival := by
  cases e with
  | arrived r => exact not_not.mpr h
  | _ => exact not_false

end ServerEvent

namespace HttpServer

open ServerEvent (Quiet)

variable {A H : Type} {srv : HttpServer A H} {lws : Lws}

/-- The header carries the credentials: a token, or a user and a password around the first colon. -/
def Carries (lws : Lws) (header : Option (List UInt8)) : Credentials → Prop
  | .token token => header = some (bearerStart ++ token)
  | .basic user pass => ∃ text, header = some (basicStart ++ text) ∧
      lws.b64Decode text = user ++ colon :: pass ∧ colon ∉ user

/-- What a handler sees of the credentials of a request, and what was asked before it ran. -/
def Accepted (srv : HttpServer A H) (lws : Lws) (header : Option (List UInt8))
    (service : WebService A H) (request : ServedRequest) (asked : List (ServerEvent A H)) : Prop :=
  match srv.getAuthenticatorFor service with
  | none => asked = [] ∧ request.authUser = [] ∧ request.authToken = []
  | some a => ∃ credentials, asked = [.asked a credentials true] ∧ Carries lws header credentials ∧
      request.authUser = credentials.user ∧ request.authToken = credentials.tokenText

/-- The request of a handler is the one that came last, and its credentials were accepted. -/
def RanFor (srv : HttpServer A H) (lws : Lws) (log : List (ServerEvent A H))
    (service : WebService A H) (request : ServedRequest) : Prop :=
  ∃ asked between r earlier, log = asked ++ (between ++ .arrived r :: earlier) ∧
    (∀ e ∈ between, ¬ e.IsArrival) ∧ srv.getWebserviceFromPath r.path = some service ∧
    request.url = r.path ∧ request.uriArgs = r.uriArgs ∧ request.requestType = r.requestType ∧
    Accepted srv lws (r.header .authorization) service request asked

/-- Every handler ran for a request whose credentials were accepted. -/
def Authorized (srv : HttpServer A H) (lws : Lws) (log : List (ServerEvent A H)) : Prop :=
  ∀ later earlier service handler request response,
    log = later ++ .handled service handler request response :: earlier →
      RanFor srv lws earlier service request

theorem Authorized.cons {log : List (ServerEvent A H)} (h : Authorized srv lws log)
    {e : ServerEvent A H}
    (he : ∀ service handler request response, e = .handled service handler request response →
      RanFor srv lws log service request) : Authorized srv lws (e :: log) := by
  intro later earlier service handler request response heq
  cases later with
  | nil =>
    obtain ⟨rfl, rfl⟩ := List.cons_eq_cons.mp heq
    exact he service handler request response rfl
  | cons e' later =>
    obtain ⟨-, heq⟩ := List.cons_eq_cons.mp heq
    exact h later earlier service handler request response heq

theorem Authorized.cons_quiet {log : List (ServerEvent A H)} (h : Authorized srv lws log)
    {e : ServerEvent A H} (he : e.Quiet) : Authorized srv lws (e :: log) := by
  apply h.cons
  rintro service handler request response rfl
  exact he.elim

theorem Authorized.append_quiet {log events : List (ServerEvent A H)} (h : Authorized srv lws log)
    (hevents : ∀ e ∈ events, e.Quiet) : Authorized srv lws (events.reverse ++ log) := by
  induction events generalizing log with
  | nil => exact h
  | cons e events ih =>
    obtain ⟨he, hevents⟩ := List.forall_mem_cons.mp hevents
    rw [List.reverse_cons, List.append_assoc]
    exact ih (h.cons_quiet he) hevents

/-! ### What is asked and sent -/

theorem quiet_nil : ∀ e ∈ ([] : List (ServerEvent A H)), e.Quiet := List.forall_mem_nil _

theorem quiet_transactionCompleted :
    ∀ e ∈ [(.transactionCompleted : ServerEvent A H)], e.Quiet :=
  List.forall_mem_singleton.mpr trivial

theorem quiet_sendHttpHeaders (r : ServedResponse) :
    ∀ e ∈ (sendHttpHeaders lws r : List (ServerEvent A H)), e.Quiet := by
  rw [sendHttpHeaders]
  split
  · exact List.forall_mem_singleton.mpr trivial
  · exact List.forall_mem_nil _

theorem quiet_send404 : ∀ e ∈ srv.send404 lws, e.Quiet :=
  List.forall_mem_append.mpr ⟨quiet_sendHttpHeaders _, List.forall_mem_singleton.mpr trivial⟩

theorem quiet_sendResponse (s : HttpSession) (r : Incoming) (response : ServedResponse) :
    ∀ e ∈ (sendResponse lws s r response : HttpSession × List (ServerEvent A H)).2, e.Quiet := by
  rw [sendResponse]
  split
  · exact List.forall_mem_append.mpr
      ⟨quiet_sendHttpHeaders _, List.forall_mem_singleton.mpr trivial⟩
  · refine List.forall_mem_append.mpr ⟨quiet_sendHttpHeaders _, ?_⟩
    split
    · exact List.forall_mem_nil _
    · exact List.forall_mem_singleton.mpr trivial

variable (lws) in
/-- An authenticator is asked once at most, about what the header carries. -/
theorem parseAuthorization_spec (x : Surroundings A H) (header : Option (List UInt8)) (a : A) :
    (∀ e ∈ (parseAuthorization lws x (header.getD []) a).2, e.Quiet) ∧
      ((parseAuthorization lws x (header.getD []) a).1.authorized = true →
        ∃ credentials, (parseAuthorization lws x (header.getD []) a).2 =
            [.asked a credentials true] ∧ Carries lws header credentials ∧
          (parseAuthorization lws x (header.getD []) a).1.user = credentials.user ∧
          (parseAuthorization lws x (header.getD []) a).1.token = credentials.tokenText) := by
  cases header with
  | none => exact ⟨List.forall_mem_nil _, fun h => absurd h Bool.false_ne_true⟩
  | some value =>
    rw [Option.getD_some, parseAuthorization]
    split
    · exact ⟨List.forall_mem_nil _, fun h => absurd h Bool.false_ne_true⟩
    · split
      · rename_i hbearer
        obtain ⟨token, rfl⟩ := List.isPrefixOf_iff_prefix.mp hbearer
        rw [List.drop_left]
        refine ⟨by simp [Quiet], fun hauthorized => ⟨.token token, ?_, rfl, rfl, ?_⟩⟩
        · exact congrArg (fun answer => [ServerEvent.asked a (.token token) answer]) hauthorized
        · exact if_pos hauthorized
      · split
        · rename_i hbasic
          obtain ⟨text, rfl⟩ := List.isPrefixOf_iff_prefix.mp hbasic
          rw [List.drop_left]
          split
          · rename_i user pass hcut
            obtain ⟨huser, htext⟩ := cut_eq_some_iff.mp hcut
            refine ⟨by simp [Quiet], fun hauthorized => ⟨.basic user pass, ?_, ?_, ?_, rfl⟩⟩
            · exact congrArg (fun answer => [ServerEvent.asked a (.basic user pass) answer])
                hauthorized
            · exact ⟨text, rfl, htext, huser⟩
            · exact if_pos hauthorized
          · exact ⟨List.forall_mem_nil _, fun h => absurd h Bool.false_ne_true⟩
        · exact ⟨List.forall_mem_nil _, fun h => absurd h Bool.false_ne_true⟩

variable (srv lws) in
/-- A request that is let through is the same, but for the credentials that were accepted. -/
theorem checkAndApplyAuth_spec (x : Surroundings A H) (header : Option (List UInt8))
    (service : WebService A H) (request : ServedRequest) (huser : request.authUser = [])
    (htoken : request.authToken = []) :
    (∀ e ∈ (srv.checkAndApplyAuth lws x header service request).2, e.Quiet) ∧
      ∀ request', (srv.checkAndApplyAuth lws x header service request).1 = some request' →
        request'.url = request.url ∧ request'.uriArgs = request.uriArgs ∧
          request'.requestType = request.requestType ∧
          Accepted srv lws header service request'
            (srv.checkAndApplyAuth lws x header service request).2 := by
  rw [checkAndApplyAuth]
  unfold Accepted
  cases srv.getAuthenticatorFor service with
  | none =>
    refine ⟨List.forall_mem_nil _, fun request' heq => ?_⟩
    obtain rfl := Option.some.inj heq
    exact ⟨rfl, rfl, rfl, rfl, huser, htoken⟩
  | some a =>
    obtain ⟨hquiet, haccepted⟩ := parseAuthorization_spec lws x header a
    dsimp only
    split
    · rename_i hauthorized
      obtain ⟨credentials, hasked, hcarries, husers, htokens⟩ := haccepted hauthorized
      refine ⟨hquiet, fun request' heq => ?_⟩
      obtain rfl := Option.some.inj heq
      have hfields : ∀ (user token : List UInt8) (request : ServedRequest),
          request.authUser = [] → request.authToken = [] →
          let request' := if user = [] then request else { request with authUser := user }
          let request' := if token = [] then request' else { request' with authToken := token }
          request'.url = request.url ∧ request'.uriArgs = request.uriArgs ∧
            request'.requestType = request.requestType ∧ request'.authUser = user ∧
            request'.authToken = token := by
        intro user token request huser htoken
        by_cases hu : user = [] <;> by_cases ht : token = [] <;> simp [hu, ht, huser, htoken]
      obtain ⟨hurl, hargs, htype, huser', htoken'⟩ := hfields _ _ request huser htoken
      exact ⟨hurl, hargs, htype, credentials, hasked, hcarries, huser'.trans husers,
        htoken'.trans htokens⟩
    · exact ⟨List.forall_mem_append.mpr ⟨hquiet, quiet_sendHttpHeaders _⟩,
        fun _ h => absurd h.symm (Option.some_ne_none _)⟩

/-- The events of a request that is served: a handler runs at most once, after its request was
accepted. -/
def Serves (srv : HttpServer A H) (lws : Lws) (header : Option (List UInt8))
    (service : WebService A H) (request : ServedRequest) (events : List (ServerEvent A H)) : Prop :=
  (∀ e ∈ events, e.Quiet) ∨ ∃ asked handler request' response sent,
    events = asked ++ .handled service handler request' response :: sent ∧
      (∀ e ∈ sent, e.Quiet) ∧ request'.url = request.url ∧ request'.uriArgs = request.uriArgs ∧
      request'.requestType = request.requestType ∧
      Accepted srv lws header service request' asked

/-- The session after a request was served, but for the response. -/
structure SameRequest (s s' : HttpSession) : Prop where
  request : s'.request = s.request
  cachedAuthHeader : s'.cachedAuthHeader = s.cachedAuthHeader

theorem sameRequest_sendResponse (s : HttpSession) (r : Incoming) (response : ServedResponse) :
    SameRequest s
      (sendResponse lws s r response : HttpSession × List (ServerEvent A H)).1 := by
  rw [sendResponse]
  split <;> exact ⟨rfl, rfl⟩

variable (srv lws) in
theorem serveWebservice_spec (x : Surroundings A H) (s : HttpSession) (service : WebService A H)
    (r : Incoming) (request : ServedRequest) (huser : request.authUser = [])
    (htoken : request.authToken = []) :
    Serves srv lws s.cachedAuthHeader service request
        (srv.serveWebservice lws x s service r request).2.2 ∧
      SameRequest s (srv.serveWebservice lws x s service r request).2.1 := by
  rw [serveWebservice]
  split
  · exact ⟨.inl (List.forall_mem_nil _), rfl, rfl⟩
  · have hauth := checkAndApplyAuth_spec srv lws x s.cachedAuthHeader service
      (describe r request) huser htoken
    split
    · rename_i events heq
      rw [heq] at hauth
      exact ⟨.inl hauth.1, rfl, rfl⟩
    · rename_i request' events heq
      rw [heq] at hauth
      obtain ⟨hurl, hargs, htype, haccepted⟩ := hauth.2 request' rfl
      dsimp only
      split
      · exact ⟨.inl hauth.1, rfl, rfl⟩
      · rename_i handler request'' response hcall
        obtain ⟨result, -, heq⟩ := Option.map_eq_some_iff.mp hcall
        cases heq
        exact ⟨.inr ⟨events, _, _, _, _, rfl, quiet_sendResponse s r _, hurl, hargs, htype,
          haccepted⟩, sameRequest_sendResponse s r _⟩

theorem Serves.append_quiet {header : Option (List UInt8)} {service : WebService A H}
    {request : ServedRequest} {events more : List (ServerEvent A H)}
    (h : Serves srv lws header service request events) (hmore : ∀ e ∈ more, e.Quiet) :
    Serves srv lws header service request (events ++ more) := by
  rcases h with hquiet | ⟨asked, handler, request', response, sent, rfl, hsent, hrequest⟩
  · exact .inl (List.forall_mem_append.mpr ⟨hquiet, hmore⟩)
  · refine .inr ⟨asked, handler, request', response, sent ++ more, ?_, ?_, hrequest⟩
    · rw [List.append_assoc, List.cons_append]
    · exact List.forall_mem_append.mpr ⟨hsent, hmore⟩

/-! ### The requests of a session -/

/-- What comes of the line of a request: it is kept for its body, or it may be served. -/
structure Arrives (srv : HttpServer A H) (lws : Lws) (r : Incoming) (s : HttpSession)
    (events : List (ServerEvent A H)) : Prop where
  kept : ∀ request, s.request = some request →
    request = .ofLine r.path r.uriArgs r.requestType ∧
      s.cachedAuthHeader = r.header .authorization
  served : (∀ e ∈ events, e.Quiet) ∨ ∃ service,
    srv.getWebserviceFromPath r.path = some service ∧
      Serves srv lws (r.header .authorization) service
        (.ofLine r.path r.uriArgs r.requestType) events

theorem Arrives.append_quiet {r : Incoming} {s : HttpSession}
    {events more : List (ServerEvent A H)} (h : Arrives srv lws r s events)
    (hmore : ∀ e ∈ more, e.Quiet) : Arrives srv lws r s (events ++ more) where
  kept := h.kept
  served := by
    rcases h.served with hquiet | ⟨service, hservice, hserves⟩
    · exact .inl (List.forall_mem_append.mpr ⟨hquiet, hmore⟩)
    · exact .inr ⟨service, hservice, hserves.append_quiet hmore⟩

theorem arrives_nil {r : Incoming} {s : HttpSession} (h : s.request = none) :
    Arrives srv lws r s ([] : List (ServerEvent A H)) where
  kept request heq := by
    rw [h] at heq
    cases heq
  served := .inl (List.forall_mem_nil _)

variable (srv lws) in
theorem arrives_checkWebservices (x : Surroundings A H) {s : HttpSession} {r : Incoming}
    (hrequest : s.request = none) (htype : s.requestType = r.requestType)
    (hheader : s.cachedAuthHeader = r.header .authorization) :
    Arrives srv lws r (srv.checkWebservices lws x s r).2.1
      (srv.checkWebservices lws x s r).2.2 := by
  rw [checkWebservices]
  split
  · exact arrives_nil hrequest
  · rename_i service hservice
    obtain ⟨hserves, hsame⟩ := serveWebservice_spec srv lws x s service r
      (.ofLine r.path r.uriArgs s.requestType) rfl rfl
    rw [hheader, htype] at hserves
    have hserved : Arrives srv lws r
        (srv.serveWebservice lws x s service r (.ofLine r.path r.uriArgs r.requestType)).2.1
        (srv.serveWebservice lws x s service r (.ofLine r.path r.uriArgs r.requestType)).2.2 :=
      { kept := fun request heq => by
          rw [htype] at hsame
          rw [hsame.request, hrequest] at heq
          cases heq
        served := .inr ⟨service, hservice, hserves⟩ }
    rw [htype]
    dsimp only
    split
    · split
      · exact arrives_nil hrequest
      · split
        · exact arrives_nil hrequest
        · split
          · exact arrives_nil hrequest
          · split
            · exact hserved
            · exact
                { kept := fun request heq => ⟨(Option.some.inj heq).symm, hheader⟩
                  served := .inl (List.forall_mem_nil _) }
    · exact hserved

variable (srv lws) in
theorem arrives_onHttpRequest (x : Surroundings A H) {s : HttpSession} {r : Incoming}
    (hrequest : s.request = none) (htype : s.requestType = r.requestType)
    (hheader : s.cachedAuthHeader = none) :
    Arrives srv lws r (srv.onHttpRequest lws x s r).2.1 (srv.onHttpRequest lws x s r).2.2 := by
  rw [onHttpRequest]
  split
  · exact (arrives_nil hrequest).append_quiet (quiet_sendHttpHeaders _)
  · have hs : (cacheAuthHeader s r).request = none ∧
        (cacheAuthHeader s r).requestType = r.requestType ∧
        (cacheAuthHeader s r).cachedAuthHeader = r.header .authorization := by
      rw [cacheAuthHeader]
      cases r.header .authorization with
      | none => exact ⟨hrequest, htype, hheader⟩
      | some value => exact ⟨hrequest, htype, rfl⟩
    dsimp only
    split
    · have hfile : Arrives srv lws r
          { cacheAuthHeader s r with shouldCompleteTransaction := false } [] := arrives_nil hs.1
      exact hfile.append_quiet (List.forall_mem_singleton.mpr trivial)
    · have hcheck := arrives_checkWebservices srv lws x hs.1 hs.2.1 hs.2.2
      split
      · rename_i heq
        rwa [heq] at hcheck
      · rename_i heq
        rwa [heq] at hcheck
      · rename_i heq
        rw [heq] at hcheck
        dsimp only
        split
        · exact hcheck.append_quiet quiet_send404
        · exact hcheck

/-! ### The log of a session -/

/-- `r` is the request that came last. -/
def Latest (log : List (ServerEvent A H)) (r : Incoming) : Prop :=
  ∃ between earlier, log = between ++ .arrived r :: earlier ∧ ∀ e ∈ between, ¬ e.IsArrival

theorem Latest.append {log events : List (ServerEvent A H)} {r : Incoming} (h : Latest log r)
    (hevents : ∀ e ∈ events, ¬ e.IsArrival) : Latest (events.reverse ++ log) r := by
  obtain ⟨between, earlier, rfl, hbetween⟩ := h
  refine ⟨events.reverse ++ between, earlier, (List.append_assoc _ _ _).symm, fun e he => ?_⟩
  rcases List.mem_append.mp he with he | he
  · exact hevents e (List.mem_reverse.mp he)
  · exact hbetween e he

theorem Serves.not_isArrival {header : Option (List UInt8)} {service : WebService A H}
    {request : ServedRequest} {events : List (ServerEvent A H)}
    (h : Serves srv lws header service request events) : ∀ e ∈ events, ¬ e.IsArrival := by
  rcases h with hquiet | ⟨asked, handler, request', response, sent, rfl, hsent, -, -, -, hacc⟩
  · exact fun e he => (hquiet e he).not_isArrival
  · have hasked : ∀ e ∈ asked, ¬ e.IsArrival := by
      unfold Accepted at hacc
      split at hacc
      · rw [hacc.1]
        exact List.forall_mem_nil _
      · obtain ⟨credentials, rfl, -⟩ := hacc
        intro e he
        rw [List.mem_singleton.mp he]
        exact not_false
    intro e he
    rw [List.mem_append, List.mem_cons] at he
    rcases he with he | rfl | he
    · exact hasked e he
    · exact not_false
    · exact (hsent e he).not_isArrival

theorem Authorized.append_serves {log events : List (ServerEvent A H)}
    (h : Authorized srv lws log) {r : Incoming} (hlatest : Latest log r)
    {service : WebService A H} (hservice : srv.getWebserviceFromPath r.path = some service)
    {request : ServedRequest} (hurl : request.url = r.path) (hargs : request.uriArgs = r.uriArgs)
    (htype : request.requestType = r.requestType)
    (hserves : Serves srv lws (r.header .authorization) service request events) :
    Authorized srv lws (events.reverse ++ log) := by
  rcases hserves with hquiet | ⟨asked, handler, request', response, sent, rfl, hsent, hurl',
    hargs', htype', haccepted⟩
  · exact h.append_quiet hquiet
  · obtain ⟨between, earlier, rfl, hbetween⟩ := hlatest
    have hasked : (∀ e ∈ asked, e.Quiet) ∧ asked.reverse = asked := by
      have hacc := haccepted
      unfold Accepted at hacc
      split at hacc
      · rw [hacc.1]
        exact ⟨List.forall_mem_nil _, rfl⟩
      · obtain ⟨credentials, rfl, -⟩ := hacc
        exact ⟨List.forall_mem_singleton.mpr trivial, rfl⟩
    rw [List.reverse_append, List.reverse_cons, List.append_assoc, List.append_assoc]
    refine Authorized.append_quiet ((h.append_quiet hasked.1).cons ?_) hsent
    intro _ _ _ _ heq
    cases heq
    rw [hasked.2]
    exact ⟨asked, between, r, earlier, rfl, hbetween, hservice, hurl'.trans hurl,
      hargs'.trans hargs, htype'.trans htype, haccepted⟩

/-- The log of a session is authorized, and a request that waits for its body is the last one, kept
with its header. -/
structure Sound (srv : HttpServer A H) (lws : Lws) (s : HttpSession)
    (log : List (ServerEvent A H)) : Prop where
  authorized : Authorized srv lws log
  kept : ∀ request, s.request = some request → ∃ r, Latest log r ∧
    request = .ofLine r.path r.uriArgs r.requestType ∧
    s.cachedAuthHeader = r.header .authorization

/-- What says nothing about requests leaves a session as it was. -/
theorem Sound.append_quiet {s s' : HttpSession} {log events : List (ServerEvent A H)}
    (h : Sound srv lws s log) (hsame : SameRequest s s') (hevents : ∀ e ∈ events, e.Quiet) :
    Sound srv lws s' (events.reverse ++ log) where
  authorized := h.authorized.append_quiet hevents
  kept request heq := by
    rw [hsame.request] at heq
    obtain ⟨r, hlatest, hrequest, hheader⟩ := h.kept request heq
    exact ⟨r, hlatest.append fun e he => (hevents e he).not_isArrival, hrequest,
      hsame.cachedAuthHeader.trans hheader⟩

/-- A session that keeps no request. -/
theorem Sound.of_none {s : HttpSession} {log : List (ServerEvent A H)}
    (h : Authorized srv lws log) (hs : s.request = none) : Sound srv lws s log where
  authorized := h
  kept request heq := by
    rw [hs] at heq
    cases heq

theorem Sound.arrives {s : HttpSession} {log events : List (ServerEvent A H)} {r : Incoming}
    (h : Authorized srv lws log) (harrives : Arrives srv lws r s events) :
    Sound srv lws s ((.arrived r :: events).reverse ++ log) := by
  have hlatest : Latest (.arrived r :: log) r := ⟨[], log, rfl, List.forall_mem_nil _⟩
  have hlog : Authorized srv lws (.arrived r :: log) := h.cons (by rintro _ _ _ _ ⟨⟩)
  have hnot : ∀ e ∈ events, ¬ e.IsArrival := by
    rcases harrives.served with hquiet | ⟨service, -, hserves⟩
    · exact fun e he => (hquiet e he).not_isArrival
    · exact hserves.not_isArrival
  rw [List.reverse_cons, List.append_assoc, List.singleton_append]
  refine ⟨?_, fun request heq => ⟨r, hlatest.append hnot, harrives.kept request heq⟩⟩
  rcases harrives.served with hquiet | ⟨service, hservice, hserves⟩
  · exact hlog.append_quiet hquiet
  · exact hlog.append_serves hlatest hservice rfl rfl rfl hserves

theorem SameRequest.refl (s : HttpSession) : SameRequest s s := ⟨rfl, rfl⟩

theorem sameRequest_onHttpBody (s : HttpSession) (buf : List UInt8) :
    SameRequest s (onHttpBody s buf) := by
  rw [onHttpBody]
  split <;> exact ⟨rfl, rfl⟩

/-- The end of a body serves the request that was kept. -/
theorem Sound.onHttpBodyEnd {s : HttpSession} {log : List (ServerEvent A H)}
    (h : Sound srv lws s log) (x : Surroundings A H) (r : Incoming) :
    Sound srv lws (srv.onHttpBodyEnd lws x s r).1
      (((srv.onHttpBodyEnd lws x s r).2 ++ [ServerEvent.transactionCompleted]).reverse ++ log) := by
  rw [HttpServer.onHttpBodyEnd]
  split
  · rename_i request content hrequest hcontent
    obtain ⟨r', hlatest, rfl, hheader⟩ := h.kept request hrequest
    dsimp only
    split
    · exact .of_none (h.authorized.append_quiet quiet_transactionCompleted) rfl
    · rename_i service hservice
      have hserves := (serveWebservice_spec srv lws x s service r
        { ServedRequest.ofLine r'.path r'.uriArgs r'.requestType with content } rfl rfl).1
      rw [hheader] at hserves
      exact .of_none (h.authorized.append_serves hlatest hservice rfl rfl rfl
        (hserves.append_quiet quiet_transactionCompleted)) rfl
  · exact h.append_quiet (.refl s) (List.forall_mem_append.mpr
      ⟨List.forall_mem_singleton.mpr trivial, quiet_transactionCompleted⟩)

/-- A callback keeps the log of its session authorized. -/
theorem Sound.lwsHttpCallback {s : HttpSession} {log : List (ServerEvent A H)}
    (h : Sound srv lws s log) (reason : CallbackReason A H) :
    Sound srv lws (srv.lwsHttpCallback lws s reason).2.1
      ((srv.lwsHttpCallback lws s reason).2.2.reverse ++ log) := by
  cases reason with
  | http r x =>
    rw [HttpServer.lwsHttpCallback]
    split
    · rename_i hlength
      have hpath : r.path = [] := List.length_eq_zero_iff.mp (Nat.lt_one_iff.mp hlength)
      exact h.append_quiet (.refl s) (List.forall_mem_cons.mpr ⟨hpath,
        List.forall_mem_cons.mpr ⟨trivial, quiet_transactionCompleted⟩⟩)
    · have harrives := arrives_onHttpRequest srv lws x (r := r)
        (s := { s.newRequest with requestType := r.requestType }) rfl rfl rfl
      dsimp only
      split
      · exact Sound.arrives h.authorized (harrives.append_quiet quiet_transactionCompleted)
      · exact Sound.arrives h.authorized harrives
  | httpBody buf => exact h.append_quiet (sameRequest_onHttpBody s buf) quiet_nil
  | httpBodyCompletion r x => exact h.onHttpBodyEnd x r
  | httpFileCompletion closes =>
    exact h.append_quiet (.refl s) quiet_transactionCompleted
  | httpWriteable =>
    rw [HttpServer.lwsHttpCallback]
    split
    · exact h.append_quiet (.refl s) quiet_nil
    · rename_i provider _
      have hchunk : ∀ e ∈ (if (provider 0).1 = [] then []
          else [.write (provider 0).1 (!(provider 0).2)] : List (ServerEvent A H)), e.Quiet := by
        split
        · exact List.forall_mem_nil _
        · exact List.forall_mem_singleton.mpr trivial
      dsimp only
      split
      · exact h.append_quiet ⟨rfl, rfl⟩
          (List.forall_mem_append.mpr ⟨hchunk, List.forall_mem_singleton.mpr trivial⟩)
      · exact h.append_quiet ⟨rfl, rfl⟩
          (List.forall_mem_append.mpr ⟨hchunk, quiet_transactionCompleted⟩)
  | httpBindProtocol => exact h.append_quiet ⟨rfl, rfl⟩ quiet_nil
  | httpDropProtocol active =>
    cases active with
    | true => exact .of_none h.authorized rfl
    | false => exact h

/-! ### Any number of sessions -/

variable {ι : Type} [DecidableEq ι]

/-- The sessions of a server and what happened in each, the latest first. -/
structure World (ι A H : Type) where
  session : ι → HttpSession
  log : ι → List (ServerEvent A H)

def World.initial : World ι A H := ⟨fun _ => .zero, fun _ => []⟩

/-- A callback for a session. -/
def World.step (srv : HttpServer A H) (lws : Lws) (w : World ι A H)
    (callback : ι × CallbackReason A H) : World ι A H :=
  let (_, s, events) := srv.lwsHttpCallback lws (w.session callback.1) callback.2
  { session := Function.update w.session callback.1 s
    log := Function.update w.log callback.1 (events.reverse ++ w.log callback.1) }

def World.run (srv : HttpServer A H) (lws : Lws) (callbacks : List (ι × CallbackReason A H)) :
    World ι A H :=
  callbacks.foldl (step srv lws) initial

end HttpServer

end Sihd.Http
