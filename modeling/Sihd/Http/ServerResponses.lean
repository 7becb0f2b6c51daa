import Sihd.Http.HttpServer

/-!
# The responses of a server

An exchange is a request as the library deals with it: the callback for its
line, those for its body unless the transaction is completed by then, and those
for a file or for a stream. A request is answered when one head was sent for it,
and behind it the content or the chunks of the handler's response.
-/

namespace Sihd.Http

open Util.Str

namespace ServerEvent

variable {A H : Type}

def isHead : ServerEvent A H → Bool
  | .head _ _ _ | .status _ | .file _ _ => true
  | _ => false

def isFile : ServerEvent A H → Bool
  | .file _ _ => true
  | _ => false

def isOnWritable : ServerEvent A H → Bool
  | .callbackOnWritable => true
  | _ => false

def isCompleted : ServerEvent A H → Bool
  | .transactionCompleted => true
  | _ => false

/-- The data of a write behind a head. -/
def written : ServerEvent A H → Option (List UInt8)
  | .write data _ => some data
  | _ => none

/-- What the client gets. -/
def isSent (e : ServerEvent A H) : Bool := e.isHead || e.written.isSome

/-- The response of a handler that ran. -/
def response : ServerEvent A H → Option ServedResponse
  | .handled _ _ _ response => some response
  | _ => none

end ServerEvent

/-- The provider has no more after its call `n`. -/
def EndsAt (p : StreamProvider) (n : Nat) : Prop := (∀ k < n, (p k).2 = true) ∧ (p n).2 = false

/-- The chunks of the calls up to `n` that are not empty. -/
def chunksTo (p : StreamProvider) (n : Nat) : List (List UInt8) :=
  ((List.range (n + 1)).map fun k => (p k).1).filter (· ≠ [])

namespace HttpServer

variable {A H : Type}

/-- The head is that of the response, and the writes are its content or its chunks. -/
def Gives (response : ServedResponse) (head : ServerEvent A H) (data : List (List UInt8)) : Prop :=
  (∃ headers, head = .head response.status headers response.cookies) ∧
    match response.streamProvider with
    | none => data.flatten = response.content
    | some p => ∃ n, EndsAt p n ∧ data = chunksTo p n

/-- One head was sent, and then what the responses of the handlers hold. -/
def Answers (sent : List (ServerEvent A H)) (responses : List ServedResponse) : Prop :=
  ∃ head rest, sent = head :: rest ∧ head.isHead = true ∧ (∀ e ∈ rest, e.isHead = false) ∧
    ∀ response ∈ responses, Gives response head (rest.filterMap ServerEvent.written)

/-- The events of a request are one complete response to it. -/
def Answered (events : List (ServerEvent A H)) : Prop :=
  Answers (events.filter ServerEvent.isSent) (events.filterMap ServerEvent.response)

/-! ### Exchanges -/

/-- A request with the chunks of its body, if it has one, what others answer at its line and at
the end of its body, and how often the library finds the connection writable. -/
structure Exchange (A H : Type) where
  incoming : Incoming
  chunks : Option (List (List UInt8))
  atLine : Surroundings A H
  atEnd : Surroundings A H
  writeables : Nat

structure Transaction (A H : Type) where
  session : HttpSession
  events : List (ServerEvent A H)
  writable : Bool
  closed : Bool

namespace Transaction

def isCompleted (t : Transaction A H) : Bool := t.events.any ServerEvent.isCompleted

/-- A callback of the library. -/
def call (srv : HttpServer A H) (lws : Lws) (t : Transaction A H) (reason : CallbackReason A H) :
    Transaction A H :=
  let (rc, s, events) := srv.lwsHttpCallback lws t.session reason
  { session := s
    events := t.events ++ events
    writable := t.writable || events.any ServerEvent.isOnWritable
    closed := t.closed || rc < 0 }

/-- The callbacks while the server asks to write. -/
def drain (srv : HttpServer A H) (lws : Lws) : Nat → Transaction A H → Transaction A H
  | 0, t => t
  | n + 1, t =>
    if t.writable && !t.isCompleted then
      drain srv lws n ({ t with writable := false }.call srv lws .httpWriteable)
    else t

/-- The callbacks for a body. -/
def body (srv : HttpServer A H) (lws : Lws) (e : Exchange A H) (t : Transaction A H) :
    Transaction A H :=
  match e.chunks with
  | none => t
  | some chunks =>
    if t.isCompleted then t
    else (chunks.foldl (fun t buf => t.call srv lws (.httpBody buf)) t).call srv lws
      (.httpBodyCompletion e.incoming e.atEnd)

/-- The callbacks for a file or a stream. -/
def rest (srv : HttpServer A H) (lws : Lws) (e : Exchange A H) (t : Transaction A H) :
    Transaction A H :=
  if t.isCompleted then t
  else if t.events.any ServerEvent.isFile then
    t.call srv lws (.httpFileCompletion e.incoming.closes)
  else t.drain srv lws e.writeables

end Transaction

/-- The callbacks of a request. -/
def exchange (srv : HttpServer A H) (lws : Lws) (s : HttpSession) (e : Exchange A H) :
    Transaction A H :=
  let t : Transaction A H := ⟨s, [], false, false⟩
  ((t.call srv lws (.http e.incoming e.atLine)).body srv lws e).rest srv lws e

/-- The requests of a session, as long as the connection goes on. -/
def exchanges (srv : HttpServer A H) (lws : Lws) (s : HttpSession) :
    List (Exchange A H) → List (Exchange A H × Transaction A H)
  | [] => []
  | e :: es =>
    let t := srv.exchange lws s e
    (e, t) :: if t.isCompleted && !t.closed then exchanges srv lws t.session es else []

/-! ### What is answered -/

/-- What the line of a request for a web service says of its body. -/
inductive BodyLength where
  | unreadable
  | unserved
  | served
  | awaited (length : Nat)

def bodyLength (r : Incoming) : BodyLength :=
  if r.requestType = .post ∨ r.requestType = .put ∨ r.requestType = .patch then
    match r.header .contentLength with
    | none => .unreadable
    | some text =>
      if text = [] then .unserved
      else
        match convertFromString .uint64 text 10 with
        | none => .unreadable
        | some length => if length = 0 then .served else .awaited length.toNat
  else .served

/-- What a web service does with a request. -/
inductive Serving (H : Type) where
  | refused
  | missing
  | ran (handler : H) (request : ServedRequest) (response : ServedResponse)

def serving (srv : HttpServer A H) (lws : Lws) (x : Surroundings A H)
    (header : Option (List UInt8)) (service : WebService A H) (r : Incoming)
    (request : ServedRequest) : Serving H :=
  match cutService request.url with
  | none => .missing
  | some (_, restOfPath) =>
    match (srv.checkAndApplyAuth lws x header service (describe r request)).1 with
    | none => .refused
    | some request =>
      match call x service restOfPath request
          (ServedResponse.new.setHeader serverHdr srv.defaultServerName) with
      | none => .missing
      | some (handler, request, response) => .ran handler request response

/-- The content of a request whose body has come in chunks. -/
def receivedContent (length : Nat) (chunks : List (List UInt8)) : List UInt8 :=
  (chunks.foldl (fun c buf => (copyFrom c.1 buf c.2, c.2 + buf.length))
    (List.replicate length 0, 0)).1

/-- There is no page for what is not found, and the head of the answer fits. -/
def AnswersNotFound (srv : HttpServer A H) (lws : Lws) : Prop :=
  srv.page404Path = [] ∧ lws.headFits srv.notFoundResponse = true

/-- The condition for a request that a web service gets. -/
def ServiceAnswers (srv : HttpServer A H) (lws : Lws) (e : Exchange A H)
    (service : WebService A H) : Prop :=
  let r := e.incoming
  let request := ServedRequest.ofLine r.path r.uriArgs r.requestType
  match bodyLength r with
  | .unreadable => False
  | .unserved => srv.AnswersNotFound lws
  | .served =>
    match srv.serving lws e.atLine (r.header .authorization) service r request with
    | .refused => lws.headFits srv.unauthorizedResponse = true
    | .missing => srv.AnswersNotFound lws
    | .ran _ _ response => lws.headFits (responseHead r response) = true ∧
        (response.streamProvider.isSome → e.chunks = none)
  | .awaited length =>
    let content := receivedContent length (e.chunks.getD [])
    match srv.serving lws e.atEnd (r.header .authorization) service r { request with content } with
    | .refused => lws.headFits srv.unauthorizedResponse = true
    | .missing => False
    | .ran _ _ response => lws.headFits (responseHead r response) = true ∧
        ∀ p, response.streamProvider = some p → ∃ n, EndsAt p n ∧ chunksTo p n = []

/-- The condition under which a request is answered. -/
def Answerable (srv : HttpServer A H) (lws : Lws) (e : Exchange A H) : Prop :=
  let r := e.incoming
  if r.path = [] then True
  else if r.requestType = .options ∧ srv.defaultCorsOrigin ≠ [] then
    lws.headFits srv.preflightResponse = true
  else if (srv.getResourcePath e.atLine r.path).isSome then e.chunks = none
  else
    match srv.getWebserviceFromPath r.path with
    | none => srv.AnswersNotFound lws
    | some service => srv.ServiceAnswers lws e service

/-! ### What is asked -/

/-- An event that the client does not notice. -/
structure Silent (e : ServerEvent A H) : Prop where
  isSent : e.isSent = false
  response : e.response = none
  isCompleted : e.isCompleted = false
  isFile : e.isFile = false
  isOnWritable : e.isOnWritable = false

section Silent

variable {asked : List (ServerEvent A H)}

theorem filter_silent (h : ∀ e ∈ asked, Silent e) : asked.filter ServerEvent.isSent = [] := by
  rw [List.filter_eq_nil_iff]
  intro e he
  rw [(h e he).isSent]
  exact Bool.false_ne_true

theorem filterMap_silent (h : ∀ e ∈ asked, Silent e) :
    asked.filterMap ServerEvent.response = [] := by
  rw [List.filterMap_eq_nil_iff]
  exact fun e he => (h e he).response

theorem any_silent (h : ∀ e ∈ asked, Silent e) :
    asked.any ServerEvent.isCompleted = false ∧ asked.any ServerEvent.isFile = false ∧
      asked.any ServerEvent.isOnWritable = false := by
  have hany : ∀ f : ServerEvent A H → Bool, (∀ e ∈ asked, f e = false) → asked.any f = false := by
    intro f hf
    rw [List.any_eq_false]
    intro e he
    rw [hf e he]
    exact Bool.false_ne_true
  exact ⟨hany _ fun e he => (h e he).isCompleted, hany _ fun e he => (h e he).isFile,
    hany _ fun e he => (h e he).isOnWritable⟩

end Silent

theorem silent_asked (a : A) (credentials : Credentials) (answer : Bool) :
    ∀ e ∈ [ServerEvent.asked a credentials answer], Silent (e : ServerEvent A H) :=
  List.forall_mem_singleton.mpr ⟨rfl, rfl, rfl, rfl, rfl⟩

theorem silent_parseAuthorization (lws : Lws) (x : Surroundings A H) (value : List UInt8) (a : A) :
    ∀ e ∈ (parseAuthorization lws x value a).2, Silent e := by
  rw [parseAuthorization]
  split
  · exact List.forall_mem_nil _
  · split
    · exact silent_asked _ _ _
    · split
      · split
        · exact silent_asked _ _ _
        · exact List.forall_mem_nil _
      · exact List.forall_mem_nil _

/-- What authentication sends is the refusal. -/
theorem checkAndApplyAuth_events (srv : HttpServer A H) (lws : Lws) (x : Surroundings A H)
    (header : Option (List UInt8)) (service : WebService A H) (request : ServedRequest) :
    ∃ asked, (∀ e ∈ asked, Silent e) ∧
      (srv.checkAndApplyAuth lws x header service request).2 =
        asked ++ if (srv.checkAndApplyAuth lws x header service request).1.isNone then
          sendHttpHeaders lws srv.unauthorizedResponse else [] := by
  rw [checkAndApplyAuth]
  split
  · exact ⟨[], List.forall_mem_nil _, rfl⟩
  · rename_i a _
    refine ⟨_, silent_parseAuthorization lws x (header.getD []) a, ?_⟩
    dsimp only
    split
    · exact (List.append_nil _).symm
    · rfl

theorem serveWebservice_eq (srv : HttpServer A H) (lws : Lws) (x : Surroundings A H)
    (s : HttpSession) (service : WebService A H) (r : Incoming) (request : ServedRequest) :
    ∃ asked, (∀ e ∈ asked, Silent e) ∧ srv.serveWebservice lws x s service r request =
      match srv.serving lws x s.cachedAuthHeader service r request with
      | .refused => (true, s, asked ++ sendHttpHeaders lws srv.unauthorizedResponse)
      | .missing => (false, s, asked)
      | .ran handler request response =>
        (true, (sendResponse lws s r response : HttpSession × List (ServerEvent A H)).1,
          asked ++ .handled service handler request response ::
            (sendResponse lws s r response).2) := by
  rw [serveWebservice, serving]
  cases cutService request.url with
  | none => exact ⟨[], List.forall_mem_nil _, rfl⟩
  | some p =>
    obtain ⟨asked, hasked, hevents⟩ := checkAndApplyAuth_events srv lws x s.cachedAuthHeader
      service (describe r request)
    refine ⟨asked, hasked, ?_⟩
    dsimp only
    revert hevents
    generalize srv.checkAndApplyAuth lws x s.cachedAuthHeader service (describe r request) = out
    obtain ⟨request', events⟩ := out
    intro hevents
    cases request' with
    | none =>
      obtain rfl : events = asked ++ sendHttpHeaders lws srv.unauthorizedResponse := hevents
      rfl
    | some request' =>
      obtain rfl : events = asked := hevents.trans (List.append_nil _)
      dsimp only
      cases call x service p.2 request'
          (ServedResponse.new.setHeader serverHdr srv.defaultServerName) with
      | none => rfl
      | some result => rfl

/-! ### Bodies -/

theorem request_foldl_onHttpBody (chunks : List (List UInt8)) (s : HttpSession) :
    (chunks.foldl onHttpBody s).request = s.request := by
  induction chunks generalizing s with
  | nil => rfl
  | cons buf chunks ih =>
    rw [List.foldl_cons, ih, onHttpBody]
    split <;> rfl

theorem foldl_onHttpBody (chunks : List (List UInt8)) (s : HttpSession) (content : List UInt8)
    (size : Nat) :
    chunks.foldl onHttpBody { s with content := some content, contentSize := size } =
      let c := chunks.foldl (fun c buf => (copyFrom c.1 buf c.2, c.2 + buf.length)) (content, size)
      { s with content := some c.1, contentSize := c.2 } := by
  induction chunks generalizing content size with
  | nil => rfl
  | cons buf chunks ih => exact ih _ _

namespace Transaction

variable {srv : HttpServer A H} {lws : Lws}

theorem call_httpBody (t : Transaction A H) (buf : List UInt8) :
    t.call srv lws (.httpBody buf) = { t with session := onHttpBody t.session buf } := by
  obtain ⟨session, events, writable, closed⟩ := t
  simp [call, lwsHttpCallback]

theorem foldl_httpBody (chunks : List (List UInt8)) (t : Transaction A H) :
    chunks.foldl (fun t buf => t.call srv lws (.httpBody buf)) t =
      { t with session := chunks.foldl onHttpBody t.session } := by
  induction chunks generalizing t with
  | nil => rfl
  | cons buf chunks ih => rw [List.foldl_cons, ih, call_httpBody, List.foldl_cons]

theorem rest_of_completed {e : Exchange A H} {t : Transaction A H} (h : t.isCompleted = true) :
    t.rest srv lws e = t := if_pos h

theorem body_of_completed {e : Exchange A H} {t : Transaction A H} (h : t.isCompleted = true) :
    t.body srv lws e = t := by
  rw [body]
  split
  · rfl
  · exact if_pos h

theorem isCompleted_call_httpBodyCompletion (t : Transaction A H) (r : Incoming)
    (x : Surroundings A H) : (t.call srv lws (.httpBodyCompletion r x)).isCompleted = true := by
  simp [isCompleted, call, lwsHttpCallback, ServerEvent.isCompleted]

/-- The end of a body completes the transaction. -/
theorem body_rest_of_some {e : Exchange A H} {chunks : List (List UInt8)}
    (hchunks : e.chunks = some chunks) {t : Transaction A H} (h : t.isCompleted = false) :
    ((t.body srv lws e).rest srv lws e).events = t.events ++
      ((srv.onHttpBodyEnd lws e.atEnd (chunks.foldl onHttpBody t.session) e.incoming).2 ++
        [.transactionCompleted]) := by
  have hbody : t.body srv lws e =
      (chunks.foldl (fun t buf => t.call srv lws (.httpBody buf)) t).call srv lws
        (.httpBodyCompletion e.incoming e.atEnd) := by
    rw [body, hchunks]
    exact if_neg (h ▸ Bool.false_ne_true)
  rw [hbody, rest_of_completed (isCompleted_call_httpBodyCompletion _ _ _), foldl_httpBody]
  rfl

theorem body_of_none {e : Exchange A H} (hchunks : e.chunks = none) (t : Transaction A H) :
    t.body srv lws e = t := by
  rw [body, hchunks]

/-! ### Streams -/

theorem chunksTo_zero (p : StreamProvider) :
    chunksTo p 0 = if (p 0).1 = [] then [] else [(p 0).1] := by
  rw [chunksTo]
  by_cases h : (p 0).1 = [] <;> simp [h]

theorem chunksTo_succ (p : StreamProvider) (n : Nat) :
    chunksTo p (n + 1) = (if (p 0).1 = [] then [] else [(p 0).1]) ++
      chunksTo (fun k => p (k + 1)) n := by
  rw [chunksTo, chunksTo, List.range_succ_eq_map, List.map_cons, List.map_map]
  by_cases h : (p 0).1 = [] <;> simp [h, Function.comp_def]

theorem endsAt_succ {p : StreamProvider} {n : Nat} (h0 : (p 0).2 = true)
    (h : EndsAt (fun k => p (k + 1)) n) : EndsAt p (n + 1) := by
  refine ⟨fun k hk => ?_, h.2⟩
  cases k with
  | zero => exact h0
  | succ k => exact h.1 k (Nat.lt_of_succ_lt_succ hk)

/-- A stream that has ended has sent the chunks of its provider, and nothing else. -/
def Streamed (p : StreamProvider) (before after : List (ServerEvent A H)) : Prop :=
  ∃ n more, EndsAt p n ∧ after = before ++ more ∧
    more.filterMap ServerEvent.written = chunksTo p n ∧
    (∀ e ∈ more, e.isHead = false) ∧ more.filterMap ServerEvent.response = []

/-- The write of a chunk. -/
def chunkEvents (chunk : List UInt8) (final : Bool) : List (ServerEvent A H) :=
  if chunk = [] then [] else [.write chunk final]

theorem written_chunkEvents (chunk : List UInt8) (final : Bool) :
    (chunkEvents chunk final : List (ServerEvent A H)).filterMap ServerEvent.written =
        (if chunk = [] then [] else [chunk]) ∧
      (∀ e ∈ (chunkEvents chunk final : List (ServerEvent A H)), e.isHead = false) ∧
      (chunkEvents chunk final : List (ServerEvent A H)).filterMap ServerEvent.response = [] ∧
      (chunkEvents chunk final : List (ServerEvent A H)).any ServerEvent.isCompleted = false := by
  rw [chunkEvents]
  split
  · exact ⟨rfl, List.forall_mem_nil _, rfl, rfl⟩
  · exact ⟨rfl, List.forall_mem_singleton.mpr rfl, rfl, rfl⟩

variable (srv lws) in
theorem call_httpWriteable {t : Transaction A H} {p : StreamProvider}
    (hp : t.session.streamProvider = some p) :
    (t.call srv lws .httpWriteable).events = t.events ++ (chunkEvents (p 0).1 (!(p 0).2) ++
        if (p 0).2 then [.callbackOnWritable] else [.transactionCompleted]) ∧
      ((p 0).2 = true → (t.call srv lws .httpWriteable).session.streamProvider =
          some (fun k => p (k + 1)) ∧ (t.call srv lws .httpWriteable).writable = true) := by
  rw [call, lwsHttpCallback, hp]
  dsimp only
  cases hmore : (p 0).2 with
  | true =>
    refine ⟨rfl, fun _ => ⟨rfl, ?_⟩⟩
    simp [ServerEvent.isOnWritable]
  | false => exact ⟨rfl, fun h => absurd h Bool.false_ne_true⟩

theorem drain_of_completed {n : Nat} {t : Transaction A H} (h : t.isCompleted = true) :
    t.drain srv lws n = t := by
  cases n with
  | zero => rfl
  | succ n =>
    rw [drain, h, Bool.not_true, Bool.and_false]
    rfl

theorem streamed_of_drain (n : Nat) {t : Transaction A H} {p : StreamProvider}
    (hp : t.session.streamProvider = some p) (hwritable : t.writable = true)
    (hnot : t.isCompleted = false) (hcompleted : (t.drain srv lws n).isCompleted = true) :
    Streamed p t.events (t.drain srv lws n).events := by
  induction n generalizing t p with
  | zero =>
    rw [drain, hnot] at hcompleted
    cases hcompleted
  | succ n ih =>
    have hdrain : t.drain srv lws (n + 1) =
        ({ t with writable := false }.call srv lws .httpWriteable).drain srv lws n := by
      rw [drain, hwritable, hnot]
      rfl
    obtain ⟨hevents, hmore⟩ := call_httpWriteable srv lws
      (t := { t with writable := false }) hp
    obtain ⟨hwritten, hhead, hresponse, hchunk⟩ :=
      written_chunkEvents (A := A) (H := H) (p 0).1 (!(p 0).2)
    rw [hdrain] at hcompleted ⊢
    cases h0 : (p 0).2 with
    | true =>
      obtain ⟨hprovider, hwritable'⟩ := hmore h0
      rw [h0, if_pos rfl] at hevents
      rw [h0] at hwritten hhead hresponse hchunk
      have hnot' : ({ t with writable := false }.call srv lws .httpWriteable).isCompleted =
          false := by
        rw [isCompleted, hevents, List.any_append, List.any_append, hchunk]
        have hbefore : t.events.any ServerEvent.isCompleted = false := hnot
        dsimp only
        rw [hbefore]
        rfl
      obtain ⟨k, more, hends, hafter, hmoreWritten, hmoreHead, hmoreResponse⟩ :=
        ih hprovider hwritable' hnot' hcompleted
      refine ⟨k + 1, chunkEvents (p 0).1 (!true) ++ .callbackOnWritable :: more,
        endsAt_succ h0 hends, ?_, ?_, ?_, ?_⟩
      · rw [hafter, hevents]
        simp
      · rw [List.filterMap_append, hwritten, chunksTo_succ]
        exact congrArg _ hmoreWritten
      · intro e he
        rw [List.mem_append, List.mem_cons] at he
        rcases he with he | rfl | he
        · exact hhead e he
        · rfl
        · exact hmoreHead e he
      · rw [List.filterMap_append, hresponse]
        exact hmoreResponse
    | false =>
      rw [h0, if_neg Bool.false_ne_true] at hevents
      rw [h0] at hwritten hhead hresponse hchunk
      have hdone : ({ t with writable := false }.call srv lws .httpWriteable).isCompleted =
          true := by
        rw [isCompleted, hevents]
        simp [ServerEvent.isCompleted]
      rw [drain_of_completed hdone]
      refine ⟨0, chunkEvents (p 0).1 (!false) ++ [.transactionCompleted], ⟨by rintro _ ⟨⟩, h0⟩, hevents,
        ?_, ?_, ?_⟩
      · rw [List.filterMap_append, hwritten, chunksTo_zero]
        exact List.append_nil _
      · intro e he
        rw [List.mem_append, List.mem_singleton] at he
        rcases he with he | rfl
        · exact hhead e he
        · rfl
      · rw [List.filterMap_append, hresponse]
        rfl

end Transaction

/-! ### What is sent -/

section Sent

variable {lws : Lws} {asked : List (ServerEvent A H)}

/-- What is silent makes no difference. -/
theorem answered_append_silent (h : ∀ e ∈ asked, Silent e) (events : List (ServerEvent A H)) :
    Answered (asked ++ events) ↔ Answered events := by
  rw [Answered, List.filter_append, List.filterMap_append, filter_silent h, filterMap_silent h]
  rfl

theorem answered_cons_arrived (r : Incoming) (events : List (ServerEvent A H)) :
    Answered (.arrived r :: events) ↔ Answered events := Iff.rfl

theorem answered_arrived (r : Incoming) (events : List (ServerEvent A H)) :
    Answered (.arrived r :: events ++ [.transactionCompleted]) ↔ Answered events := by
  rw [Answered, Answered, List.filter_append, List.filterMap_append]
  exact Iff.of_eq (congrArg₂ _ (List.append_nil _) (List.append_nil _))

theorem not_answered_nil : ¬ Answered ([] : List (ServerEvent A H)) := by
  rintro ⟨head, rest, heq, -⟩
  cases heq

theorem answered_singleton {e : ServerEvent A H} (h : e.isHead = true)
    (hresponse : e.response = none) : Answered [e] := by
  have hsent : [e].filter ServerEvent.isSent = [e] := by simp [ServerEvent.isSent, h]
  have hnone : [e].filterMap ServerEvent.response = [] := by simp [hresponse]
  rw [Answered, hsent, hnone]
  exact ⟨e, [], rfl, h, List.forall_mem_nil _, List.forall_mem_nil _⟩

theorem answered_sendHttpHeaders (response : ServedResponse) :
    Answered (sendHttpHeaders lws response : List (ServerEvent A H)) ↔
      lws.headFits response = true := by
  rw [sendHttpHeaders]
  split
  · rename_i hfits
    exact iff_of_true (answered_singleton rfl rfl) hfits
  · rename_i hfits
    exact iff_of_false not_answered_nil hfits

/-- Two heads are not one. -/
theorem not_answered_append_status {events : List (ServerEvent A H)} (code : UInt32)
    (h : events.filter ServerEvent.isSent ≠ []) : ¬ Answered (events ++ [.status code]) := by
  rintro ⟨head, rest, heq, -, hrest, -⟩
  rw [List.filter_append] at heq
  cases hfilter : events.filter ServerEvent.isSent with
  | nil => exact h hfilter
  | cons e sent =>
    rw [hfilter, List.cons_append] at heq
    obtain ⟨-, rfl⟩ := List.cons_eq_cons.mp heq
    have hstatus := hrest (.status code) (List.mem_append_right _ (List.mem_singleton_self _))
    cases hstatus

/-- A handler that ran has a head of its own. -/
theorem not_answered_append_status_of_response {events : List (ServerEvent A H)}
    {response : ServedResponse} (code : UInt32)
    (h : response ∈ events.filterMap ServerEvent.response) :
    ¬ Answered (events ++ [.status code]) := by
  by_cases hsent : events.filter ServerEvent.isSent = []
  · rintro ⟨head, rest, heq, -, -, hgives⟩
    rw [List.filter_append, hsent] at heq
    obtain ⟨rfl, -⟩ := List.cons_eq_cons.mp heq
    rw [List.filterMap_append] at hgives
    obtain ⟨headers, hhead⟩ := (hgives response (List.mem_append_left _ h)).1
    cases hhead
  · exact not_answered_append_status code hsent

theorem answered_send404 (srv : HttpServer A H) :
    Answered (srv.send404 lws) ↔ lws.headFits srv.notFoundResponse = true := by
  rw [send404, sendHttpHeaders]
  split
  · rename_i hfits
    have hwrite : ∀ e ∈ ([.write html404 true] : List (ServerEvent A H)), e.isHead = false :=
      List.forall_mem_singleton.mpr rfl
    exact iff_of_true ⟨_, [.write html404 true], rfl, rfl, hwrite, List.forall_mem_nil _⟩ hfits
  · rename_i hfits
    refine iff_of_false ?_ hfits
    rintro ⟨head, rest, heq, hhead, -⟩
    obtain ⟨rfl, -⟩ := List.cons_eq_cons.mp heq
    cases hhead

theorem answered_notFound (srv : HttpServer A H) (hasked : ∀ e ∈ asked, Silent e) :
    Answered (if srv.page404Path = [] then asked ++ srv.send404 lws else asked) ↔
      srv.AnswersNotFound lws := by
  rw [AnswersNotFound]
  split
  · rename_i hpage
    rw [answered_append_silent hasked, answered_send404]
    exact (and_iff_right hpage).symm
  · rename_i hpage
    refine iff_of_false ?_ fun h => hpage h.1
    rw [← List.append_nil asked, answered_append_silent hasked]
    exact not_answered_nil

/-! ### The responses of handlers -/

theorem responseHead_spec (r : Incoming) (response : ServedResponse) :
    (responseHead r response).status = response.status ∧
      (responseHead r response).cookies = response.cookies := by
  rw [responseHead]
  split
  · exact ⟨rfl, rfl⟩
  · dsimp only
    split <;> exact ⟨rfl, rfl⟩

/-- A response is answered when its head is sent and what comes behind it is what it holds. -/
theorem answered_handled (service : WebService A H) (handler : H) (request : ServedRequest)
    (r : Incoming) (response : ServedResponse) {more : List (ServerEvent A H)}
    (hhead : ∀ e ∈ more, e.isHead = false) (hresponse : more.filterMap ServerEvent.response = []) :
    Answered (.handled service handler request response ::
        (sendHttpHeaders lws (responseHead r response) ++ more)) ↔
      lws.headFits (responseHead r response) = true ∧
        match response.streamProvider with
        | none => (more.filterMap ServerEvent.written).flatten = response.content
        | some p => ∃ n, EndsAt p n ∧ more.filterMap ServerEvent.written = chunksTo p n := by
  have hwritten : (more.filter ServerEvent.isSent).filterMap ServerEvent.written =
      more.filterMap ServerEvent.written := by
    rw [List.filterMap_filter]
    refine List.filterMap_congr fun e he => ?_
    rw [ServerEvent.isSent, hhead e he, Bool.false_or]
    cases e.written <;> rfl
  have hresponses : (.handled service handler request response ::
      (sendHttpHeaders lws (responseHead r response) ++ more)).filterMap ServerEvent.response =
        [response] := by
    have hsend : (sendHttpHeaders lws (responseHead r response) :
        List (ServerEvent A H)).filterMap ServerEvent.response = [] := by
      rw [sendHttpHeaders]
      split <;> rfl
    rw [List.filterMap_cons, List.filterMap_append, hsend, hresponse]
    rfl
  have hnot : ∀ e ∈ more.filter ServerEvent.isSent, e.isHead = false :=
    fun e he => hhead e (List.mem_of_mem_filter he)
  obtain ⟨hstatus, hcookies⟩ := responseHead_spec r response
  rw [Answered, hresponses]
  by_cases hfits : lws.headFits (responseHead r response) = true
  · have hsent : (ServerEvent.handled service handler request response ::
        (sendHttpHeaders lws (responseHead r response) ++ more)).filter ServerEvent.isSent =
          .head response.status (responseHead r response).httpHeader response.cookies ::
            more.filter ServerEvent.isSent := by
      rw [sendHttpHeaders, if_pos hfits, hstatus, hcookies]
      rfl
    rw [hsent, and_iff_right hfits]
    constructor
    · rintro ⟨head, rest, heq, -, -, hgives⟩
      obtain ⟨rfl, rfl⟩ := List.cons_eq_cons.mp heq
      rw [← hwritten]
      exact (hgives response (List.mem_singleton_self _)).2
    · intro hcarried
      refine ⟨_, _, rfl, rfl, hnot, fun response' hmem => ?_⟩
      rw [List.mem_singleton.mp hmem, hwritten]
      exact ⟨⟨_, rfl⟩, hcarried⟩
  · have hsent : (ServerEvent.handled service handler request response ::
        (sendHttpHeaders lws (responseHead r response) ++ more)).filter ServerEvent.isSent =
          more.filter ServerEvent.isSent := by
      rw [sendHttpHeaders, if_neg hfits]
      rfl
    refine iff_of_false ?_ fun h => hfits h.1
    rintro ⟨head, rest, heq, hhead', -⟩
    rw [hsent] at heq
    have hmem : head ∈ more.filter ServerEvent.isSent := heq ▸ List.mem_cons_self
    rw [hnot head hmem] at hhead'
    cases hhead'

/-- A response that does not stream is sent at once. -/
theorem answered_plain (service : WebService A H) (handler : H) (request : ServedRequest)
    (s : HttpSession) (r : Incoming) {response : ServedResponse}
    (hresponse : response.streamProvider = none) :
    Answered (.handled service handler request response ::
        (sendResponse lws s r response : HttpSession × List (ServerEvent A H)).2) ↔
      lws.headFits (responseHead r response) = true := by
  rw [sendResponse, hresponse]
  dsimp only
  by_cases hcontent : response.content = []
  · have hhead : ∀ e ∈ ([] : List (ServerEvent A H)), e.isHead = false := List.forall_mem_nil _
    rw [if_pos hcontent, answered_handled service handler request r response hhead rfl, hresponse]
    exact and_iff_left hcontent.symm
  · have hhead : ∀ e ∈ ([.write response.content true] : List (ServerEvent A H)),
        e.isHead = false := List.forall_mem_singleton.mpr rfl
    rw [if_neg hcontent, answered_handled service handler request r response hhead rfl, hresponse]
    exact and_iff_left (List.append_nil _)

/-- A stream whose provider is given up has sent no chunk. -/
theorem answered_givenUp (service : WebService A H) (handler : H) (request : ServedRequest)
    (s : HttpSession) (r : Incoming) {response : ServedResponse} {p : StreamProvider}
    (hresponse : response.streamProvider = some p) :
    Answered (.handled service handler request response ::
        (sendResponse lws s r response : HttpSession × List (ServerEvent A H)).2) ↔
      lws.headFits (responseHead r response) = true ∧ ∃ n, EndsAt p n ∧ chunksTo p n = [] := by
  have hhead : ∀ e ∈ ([.callbackOnWritable] : List (ServerEvent A H)), e.isHead = false :=
    List.forall_mem_singleton.mpr rfl
  rw [sendResponse, hresponse]
  dsimp only
  rw [answered_handled service handler request r response hhead rfl, hresponse]
  exact and_congr_right fun _ => exists_congr fun n => and_congr_right fun _ => eq_comm

end Sent

/-! ### The line of a request -/

section Line

variable {srv : HttpServer A H} {lws : Lws} {s s' : HttpSession} {e : Exchange A H}
  {events : List (ServerEvent A H)} {rc : Int}

/-- A session at the line of a request. -/
def atLine (s : HttpSession) (r : Incoming) : HttpSession :=
  { s.newRequest with requestType := r.requestType }

/-- The line completes the transaction. -/
theorem exchange_of_complete (hpath : e.incoming.path ≠ [])
    (h : srv.onHttpRequest lws e.atLine (atLine s e.incoming) e.incoming = (rc, s', events))
    (hs : s'.shouldCompleteTransaction = true) :
    (srv.exchange lws s e).events = .arrived e.incoming :: events ++ [.transactionCompleted] := by
  have hlength : ¬ e.incoming.path.length < 1 := by
    rwa [Nat.lt_one_iff, List.length_eq_zero_iff]
  have hcall : ((⟨s, [], false, false⟩ : Transaction A H).call srv lws
      (.http e.incoming e.atLine)).events =
        .arrived e.incoming :: events ++ [.transactionCompleted] := by
    rw [Transaction.call, lwsHttpCallback, if_neg hlength]
    rw [atLine] at h
    dsimp only
    rw [h]
    dsimp only
    rw [if_pos hs]
    rfl
  have hdone : ((⟨s, [], false, false⟩ : Transaction A H).call srv lws
      (.http e.incoming e.atLine)).isCompleted = true := by
    rw [Transaction.isCompleted, hcall]
    simp [ServerEvent.isCompleted]
  rw [exchange, Transaction.body_of_completed hdone, Transaction.rest_of_completed hdone, hcall]

theorem exchange_of_empty (hpath : e.incoming.path = []) :
    (srv.exchange lws s e).events =
      .arrived e.incoming :: [.status 400] ++ [.transactionCompleted] := by
  have hlength : e.incoming.path.length < 1 := by
    rw [hpath]
    exact Nat.one_pos
  have hcall : (⟨s, [], false, false⟩ : Transaction A H).call srv lws (.http e.incoming e.atLine) =
      ⟨s, [.arrived e.incoming, .status 400, .transactionCompleted], false,
        decide (completed e.incoming.closes 0 < 0)⟩ := by
    rw [Transaction.call, lwsHttpCallback, if_pos hlength]
    simp [ServerEvent.isOnWritable]
  rw [exchange, hcall]
  rw [Transaction.body_of_completed rfl, Transaction.rest_of_completed rfl]
  rfl

/-- The line leaves the transaction open. -/
theorem exchange_of_open (hpath : e.incoming.path ≠ [])
    (h : srv.onHttpRequest lws e.atLine (atLine s e.incoming) e.incoming = (rc, s', events))
    (hs : s'.shouldCompleteTransaction = false) :
    srv.exchange lws s e =
      ((⟨s', .arrived e.incoming :: events, events.any ServerEvent.isOnWritable,
        decide (rc < 0)⟩ : Transaction A H).body srv lws e).rest srv lws e := by
  have hlength : ¬ e.incoming.path.length < 1 := by
    rwa [Nat.lt_one_iff, List.length_eq_zero_iff]
  have hcall : (⟨s, [], false, false⟩ : Transaction A H).call srv lws
      (.http e.incoming e.atLine) =
        ⟨s', .arrived e.incoming :: events, events.any ServerEvent.isOnWritable,
          decide (rc < 0)⟩ := by
    rw [Transaction.call, lwsHttpCallback, if_neg hlength]
    rw [atLine] at h
    dsimp only
    rw [h]
    dsimp only
    rw [if_neg (hs ▸ Bool.false_ne_true)]
    rfl
  rw [exchange, hcall]

theorem cacheAuthHeader_atLine (s : HttpSession) (r : Incoming) :
    cacheAuthHeader (atLine s r) r =
      { atLine s r with cachedAuthHeader := r.header .authorization } := by
  rw [cacheAuthHeader]
  cases r.header .authorization <;> rfl

variable (lws) in
theorem checkWebservices_eq (x : Surroundings A H) {r : Incoming} {service : WebService A H}
    (hservice : srv.getWebserviceFromPath r.path = some service)
    (htype : s.requestType = r.requestType) :
    srv.checkWebservices lws x s r =
      let request := ServedRequest.ofLine r.path r.uriArgs r.requestType
      match bodyLength r with
      | .unreadable => (none, s, [])
      | .unserved => (some false, s, [])
      | .served =>
        let out := srv.serveWebservice lws x s service r request
        (some out.1, out.2.1, out.2.2)
      | .awaited length =>
        (some true,
          { s with
            contentSize := 0
            content := some (List.replicate length 0)
            request := some request
            shouldCompleteTransaction := false }, []) := by
  rw [checkWebservices, hservice, bodyLength, htype]
  dsimp only
  split
  · cases r.header .contentLength with
    | none => rfl
    | some text =>
      dsimp only
      split
      · rfl
      · cases convertFromString .uint64 text 10 with
        | none => rfl
        | some length =>
          dsimp only
          split <;> rfl
  · rfl

variable (srv lws) in
theorem onHttpBodyEnd_of_none (x : Surroundings A H) (r : Incoming) (h : s.request = none) :
    srv.onHttpBodyEnd lws x s r = (s, [.status 200]) := by
  rw [onHttpBodyEnd, h]

variable (srv lws) in
theorem onHttpBodyEnd_of_some (x : Surroundings A H) (r : Incoming) {request : ServedRequest}
    {content : List UInt8} {service : WebService A H} (hrequest : s.request = some request)
    (hcontent : s.content = some content)
    (hservice : srv.getWebserviceFromPath request.url = some service) :
    (srv.onHttpBodyEnd lws x s r).2 =
      (srv.serveWebservice lws x s service r { request with content }).2.2 := by
  rw [onHttpBodyEnd, hrequest, hcontent]
  dsimp only
  rw [hservice]

/-- A request that is neither a preflight nor for a file. -/
structure ForService (srv : HttpServer A H) (e : Exchange A H) : Prop where
  path : e.incoming.path ≠ []
  notPreflight : ¬ (e.incoming.requestType = .options ∧ srv.defaultCorsOrigin ≠ [])
  notFile : srv.getResourcePath e.atLine e.incoming.path = none

/-- A session at the line of a request, with its header. -/
def withHeader (s : HttpSession) (r : Incoming) : HttpSession :=
  { atLine s r with cachedAuthHeader := r.header .authorization }

variable (lws) in
theorem ForService.onHttpRequest (h : ForService srv e) (s : HttpSession) :
    srv.onHttpRequest lws e.atLine (HttpServer.atLine s e.incoming) e.incoming =
      match srv.checkWebservices lws e.atLine (withHeader s e.incoming) e.incoming with
      | (none, s, events) => (-1, s, events)
      | (some true, s, events) => (s.rc, s, events)
      | (some false, s, events) =>
        (0, s, if srv.page404Path = [] then events ++ srv.send404 lws else events) := by
  rw [HttpServer.onHttpRequest, cacheAuthHeader_atLine]
  have hnot : ¬ ((HttpServer.atLine s e.incoming).requestType = .options ∧
      srv.defaultCorsOrigin ≠ []) := h.notPreflight
  rw [if_neg hnot]
  dsimp only
  rw [h.notFile]
  rfl

/-- What a line without an answer of its own gets. -/
theorem ForService.notFound (h : ForService srv e) (hs : s'.shouldCompleteTransaction = true)
    (hcheck : srv.checkWebservices lws e.atLine (withHeader s e.incoming) e.incoming =
      (some false, s', events)) (hevents : ∀ e ∈ events, Silent e) :
    Answered (srv.exchange lws s e).events ↔ srv.AnswersNotFound lws := by
  have hline := h.onHttpRequest lws s
  rw [hcheck] at hline
  rw [exchange_of_complete h.path hline hs, answered_arrived]
  exact answered_notFound srv hevents

/-- What a line gets that the web service has answered. -/
theorem ForService.answered (h : ForService srv e) (hs : s'.shouldCompleteTransaction = true)
    (hcheck : srv.checkWebservices lws e.atLine (withHeader s e.incoming) e.incoming =
      (some true, s', events)) :
    Answered (srv.exchange lws s e).events ↔ Answered events := by
  have hline := h.onHttpRequest lws s
  rw [hcheck] at hline
  rw [exchange_of_complete h.path hline hs, answered_arrived]

/-- A response that streams answers a request without a body. -/
theorem ForService.streamed (h : ForService srv e) (hs : s'.shouldCompleteTransaction = false)
    (hrequest : s'.request = none) {p : StreamProvider} (hprovider : s'.streamProvider = some p)
    {asked : List (ServerEvent A H)} (hasked : ∀ e ∈ asked, Silent e) {service : WebService A H}
    {handler : H} {request : ServedRequest} {response : ServedResponse}
    (hresponse : response.streamProvider = some p)
    (hcheck : srv.checkWebservices lws e.atLine (withHeader s e.incoming) e.incoming =
      (some true, s', asked ++ .handled service handler request response ::
        (sendHttpHeaders lws (responseHead e.incoming response) ++ [.callbackOnWritable])))
    (hcompleted : (srv.exchange lws s e).isCompleted = true) :
    Answered (srv.exchange lws s e).events ↔
      lws.headFits (responseHead e.incoming response) = true ∧ e.chunks = none := by
  have hline := h.onHttpRequest lws s
  rw [hcheck] at hline
  have hopen := exchange_of_open h.path hline hs
  obtain ⟨hdone, hfile, -⟩ := any_silent hasked
  have hsend : (sendHttpHeaders lws (responseHead e.incoming response) :
      List (ServerEvent A H)).any ServerEvent.isCompleted = false ∧
      (sendHttpHeaders lws (responseHead e.incoming response) :
        List (ServerEvent A H)).any ServerEvent.isFile = false := by
    rw [sendHttpHeaders]
    split <;> exact ⟨rfl, rfl⟩
  set sent := asked ++ .handled service handler request response ::
    (sendHttpHeaders lws (responseHead e.incoming response) ++ [.callbackOnWritable]) with hsent
  have hnotDone : sent.any ServerEvent.isCompleted = false := by
    rw [hsent, List.any_append, List.any_cons, List.any_append, hdone, hsend.1]
    rfl
  have hnotFile : sent.any ServerEvent.isFile = false := by
    rw [hsent, List.any_append, List.any_cons, List.any_append, hfile, hsend.2]
    rfl
  have hwritable : sent.any ServerEvent.isOnWritable = true := by
    rw [List.any_eq_true]
    exact ⟨.callbackOnWritable, by simp [hsent], rfl⟩
  set t : Transaction A H := ⟨s', .arrived e.incoming :: sent,
    sent.any ServerEvent.isOnWritable, decide (s'.rc < 0)⟩ with ht
  have htDone : t.isCompleted = false := hnotDone
  rw [hopen] at hcompleted ⊢
  cases hchunks : e.chunks with
  | none =>
    have hdrain : t.rest srv lws e = t.drain srv lws e.writeables := by
      have htFile : t.events.any ServerEvent.isFile = false := hnotFile
      rw [Transaction.rest, htDone, htFile]
      rfl
    rw [Transaction.body_of_none hchunks, hdrain] at hcompleted ⊢
    obtain ⟨n, more, hends, hafter, hwritten, hhead, hresponses⟩ :=
      Transaction.streamed_of_drain e.writeables hprovider hwritable htDone hcompleted
    have hevents : sent ++ more = asked ++ .handled service handler request response ::
        (sendHttpHeaders lws (responseHead e.incoming response) ++
          (.callbackOnWritable :: more)) := by
      simp [hsent]
    have hhead' : ∀ e ∈ ServerEvent.callbackOnWritable :: more, e.isHead = false :=
      List.forall_mem_cons.mpr ⟨rfl, hhead⟩
    have hlog : t.events = .arrived e.incoming :: sent := rfl
    rw [hafter, hlog, List.cons_append, answered_cons_arrived, hevents,
      answered_append_silent hasked,
      answered_handled service handler request e.incoming response hhead' hresponses, hresponse]
    exact and_congr_right fun _ => iff_of_true ⟨n, hends, hwritten⟩ rfl
  | some chunks =>
    refine iff_of_false ?_ fun hnone => Option.some_ne_none _ hnone.2
    have hend := onHttpBodyEnd_of_none srv lws e.atEnd e.incoming
      ((request_foldl_onHttpBody chunks s').trans hrequest)
    rw [Transaction.body_rest_of_some hchunks htDone, hend]
    have hevents : (ServerEvent.arrived e.incoming :: sent ++
        ([.status 200] ++ [.transactionCompleted]) : List (ServerEvent A H)) =
          .arrived e.incoming :: (sent ++ [.status 200]) ++ [.transactionCompleted] := by
      simp
    rw [hevents, answered_arrived]
    apply not_answered_append_status_of_response
    rw [List.mem_filterMap]
    exact ⟨.handled service handler request response, by simp [hsent], rfl⟩

/-- A file answers a request without a body. -/
theorem answered_file (hpath : e.incoming.path ≠ [])
    (hnot : ¬ (e.incoming.requestType = .options ∧ srv.defaultCorsOrigin ≠ []))
    {path : List UInt8} (hfile : srv.getResourcePath e.atLine e.incoming.path = some path) :
    Answered (srv.exchange lws s e).events ↔ e.chunks = none := by
  have hline : srv.onHttpRequest lws e.atLine (atLine s e.incoming) e.incoming =
      (0, { withHeader s e.incoming with shouldCompleteTransaction := false },
        [.file path (srv.mimeGet (pathExtension path) ++ charsetText ++ srv.encoding)]) := by
    have hnot' : ¬ ((atLine s e.incoming).requestType = .options ∧ srv.defaultCorsOrigin ≠ []) :=
      hnot
    rw [onHttpRequest, cacheAuthHeader_atLine, if_neg hnot']
    dsimp only
    rw [hfile]
    rfl
  rw [exchange_of_open hpath hline rfl]
  cases hchunks : e.chunks with
  | none =>
    rw [Transaction.body_of_none hchunks]
    refine iff_of_true ?_ rfl
    have hevents : (Transaction.rest srv lws e ⟨{ withHeader s e.incoming with
        shouldCompleteTransaction := false }, [.arrived e.incoming,
          .file path (srv.mimeGet (pathExtension path) ++ charsetText ++ srv.encoding)],
          false, false⟩).events = .arrived e.incoming ::
            [.file path (srv.mimeGet (pathExtension path) ++ charsetText ++ srv.encoding)] ++
              [.transactionCompleted] := rfl
    have hanswered := (answered_arrived e.incoming _).mpr (answered_singleton (A := A) (H := H)
      (e := .file path (srv.mimeGet (pathExtension path) ++ charsetText ++ srv.encoding)) rfl rfl)
    rw [← hevents] at hanswered
    exact hanswered
  | some chunks =>
    refine iff_of_false ?_ (Option.some_ne_none _)
    have hend := onHttpBodyEnd_of_none srv lws e.atEnd e.incoming
      (request_foldl_onHttpBody chunks
        { withHeader s e.incoming with shouldCompleteTransaction := false })
    rw [Transaction.body_rest_of_some hchunks rfl, hend]
    have hsent : ([.file path (srv.mimeGet (pathExtension path) ++ charsetText ++
        srv.encoding)] : List (ServerEvent A H)).filter ServerEvent.isSent ≠ [] :=
      List.cons_ne_nil _ _
    exact (answered_arrived e.incoming _).not.mpr (not_answered_append_status 200 hsent)

/-- A request that waits for its body is answered at the end of it. -/
theorem ForService.awaited (h : ForService srv e) {service : WebService A H}
    (hservice : srv.getWebserviceFromPath e.incoming.path = some service) {length : Nat}
    (hlength : bodyLength e.incoming = .awaited length)
    (hcompleted : (srv.exchange lws s e).isCompleted = true) :
    Answered (srv.exchange lws s e).events ↔ srv.ServiceAnswers lws e service := by
  have hcheck := checkWebservices_eq lws e.atLine hservice
    (s := withHeader s e.incoming) rfl
  rw [hlength] at hcheck
  have hline := h.onHttpRequest lws s
  rw [hcheck] at hline
  have hopen := exchange_of_open h.path hline rfl
  rw [hopen] at hcompleted ⊢
  rw [ServiceAnswers, hlength]
  dsimp only
  cases hchunks : e.chunks with
  | none =>
    rw [Transaction.body_of_none hchunks] at hcompleted
    have hopen' : ∀ t : Transaction A H, t.isCompleted = false →
        t.events.any ServerEvent.isFile = false → t.writable = false →
        (t.rest srv lws e).isCompleted = false := by
      intro t hdone hfile hwritable
      have hrest : t.rest srv lws e = t := by
        rw [Transaction.rest, hdone, hfile]
        cases e.writeables with
        | zero => rfl
        | succ n =>
          simp only [Bool.false_eq_true, if_false]
          rw [Transaction.drain, hwritable]
          rfl
      rw [hrest, hdone]
    rw [hopen' _ rfl rfl rfl] at hcompleted
    cases hcompleted
  | some chunks =>
    rw [Option.getD_some]
    set s' : HttpSession := { withHeader s e.incoming with
      contentSize := 0
      content := some (List.replicate length 0)
      request := some (.ofLine e.incoming.path e.incoming.uriArgs e.incoming.requestType)
      shouldCompleteTransaction := false } with hs'
    have hfold := foldl_onHttpBody chunks s' (List.replicate length 0) 0
    have hcontent : (chunks.foldl onHttpBody s').content =
        some (receivedContent length chunks) := congrArg HttpSession.content hfold
    have hheader : (chunks.foldl onHttpBody s').cachedAuthHeader =
        e.incoming.header .authorization := congrArg HttpSession.cachedAuthHeader hfold
    have hend := onHttpBodyEnd_of_some srv lws e.atEnd e.incoming
      (request_foldl_onHttpBody chunks s') hcontent hservice
    obtain ⟨asked, hasked, hserve⟩ := serveWebservice_eq srv lws e.atEnd
      (chunks.foldl onHttpBody s') service e.incoming
      { ServedRequest.ofLine e.incoming.path e.incoming.uriArgs e.incoming.requestType with
        content := receivedContent length chunks }
    rw [hheader] at hserve
    rw [Transaction.body_rest_of_some hchunks rfl, hend]
    refine (answered_arrived e.incoming _).trans ?_
    rw [hserve]
    cases srv.serving lws e.atEnd (e.incoming.header .authorization) service e.incoming
        { ServedRequest.ofLine e.incoming.path e.incoming.uriArgs e.incoming.requestType with
          content := receivedContent length chunks } with
    | refused =>
      dsimp only
      rw [answered_append_silent hasked]
      exact answered_sendHttpHeaders _
    | missing =>
      dsimp only
      rw [← List.append_nil asked, answered_append_silent hasked]
      exact iff_of_false not_answered_nil not_false
    | ran handler request response =>
      dsimp only
      rw [answered_append_silent hasked]
      cases hresponse : response.streamProvider with
      | none =>
        rw [answered_plain service handler request _ e.incoming hresponse]
        exact (and_iff_left (by rintro _ ⟨⟩)).symm
      | some p =>
        rw [answered_givenUp service handler request _ e.incoming hresponse]
        refine and_congr_right fun _ => ⟨fun hempty p' hp' => ?_, fun hall => hall p rfl⟩
        rwa [← Option.some.inj hp']

/-- A web service answers under its condition. -/
theorem ForService.answered_iff (h : ForService srv e) {service : WebService A H}
    (hservice : srv.getWebserviceFromPath e.incoming.path = some service)
    (hcompleted : (srv.exchange lws s e).isCompleted = true) :
    Answered (srv.exchange lws s e).events ↔ srv.ServiceAnswers lws e service := by
  have hcheck := checkWebservices_eq lws e.atLine hservice
    (s := withHeader s e.incoming) rfl
  cases hlength : bodyLength e.incoming with
  | unreadable =>
    rw [hlength] at hcheck
    have hline := h.onHttpRequest lws s
    rw [hcheck] at hline
    rw [ServiceAnswers, hlength, exchange_of_complete h.path hline rfl, answered_arrived]
    exact iff_of_false not_answered_nil not_false
  | unserved =>
    rw [hlength] at hcheck
    rw [ServiceAnswers, hlength, h.notFound rfl hcheck (by rintro _ ⟨⟩)]
  | awaited length => exact h.awaited hservice hlength hcompleted
  | served =>
    rw [hlength] at hcheck
    obtain ⟨asked, hasked, hserve⟩ := serveWebservice_eq srv lws e.atLine
      (withHeader s e.incoming) service e.incoming
      (.ofLine e.incoming.path e.incoming.uriArgs e.incoming.requestType)
    dsimp only at hcheck
    rw [hserve] at hcheck
    have hheader : (withHeader s e.incoming).cachedAuthHeader =
        e.incoming.header .authorization := rfl
    rw [hheader] at hcheck
    rw [ServiceAnswers, hlength]
    dsimp only
    cases hserving : srv.serving lws e.atLine (e.incoming.header .authorization) service e.incoming
        (.ofLine e.incoming.path e.incoming.uriArgs e.incoming.requestType) with
    | refused =>
      rw [hserving] at hcheck
      rw [h.answered rfl hcheck, answered_append_silent hasked]
      exact answered_sendHttpHeaders _
    | missing =>
      rw [hserving] at hcheck
      exact h.notFound rfl hcheck hasked
    | ran handler request response =>
      rw [hserving] at hcheck
      cases hresponse : response.streamProvider with
      | none =>
        have hcomplete : (sendResponse lws (withHeader s e.incoming) e.incoming response :
            HttpSession × List (ServerEvent A H)).1.shouldCompleteTransaction = true := by
          rw [sendResponse, hresponse]
          rfl
        rw [h.answered hcomplete hcheck, answered_append_silent hasked,
          answered_plain service handler request _ e.incoming hresponse]
        refine (and_iff_left fun hsome => ?_).symm
        rw [hresponse] at hsome
        cases hsome
      | some p =>
        have hsend : (sendResponse lws (withHeader s e.incoming) e.incoming response :
            HttpSession × List (ServerEvent A H)) =
          ({ withHeader s e.incoming with
              streamProvider := some p
              shouldCompleteTransaction := false },
            sendHttpHeaders lws (responseHead e.incoming response) ++ [.callbackOnWritable]) := by
          rw [sendResponse, hresponse]
        dsimp only at hcheck
        rw [hsend] at hcheck
        rw [h.streamed rfl rfl rfl hasked hresponse hcheck hcompleted]
        have hsome : response.streamProvider.isSome = true := by
          rw [hresponse]
          rfl
        exact and_congr_right fun _ => (imp_iff_right hsome).symm

/-- A request is answered under its condition. -/
theorem answered_iff_answerable (hcompleted : (srv.exchange lws s e).isCompleted = true) :
    Answered (srv.exchange lws s e).events ↔ srv.Answerable lws e := by
  rw [Answerable]
  split
  · rename_i hpath
    rw [exchange_of_empty hpath, answered_arrived]
    exact iff_of_true (answered_singleton rfl rfl) trivial
  rename_i hpath
  split
  · rename_i hpreflight
    have hline : srv.onHttpRequest lws e.atLine (atLine s e.incoming) e.incoming =
        (0, atLine s e.incoming, sendHttpHeaders lws srv.preflightResponse) := if_pos hpreflight
    rw [exchange_of_complete hpath hline rfl, answered_arrived]
    exact answered_sendHttpHeaders _
  rename_i hpreflight
  cases hfile : srv.getResourcePath e.atLine e.incoming.path with
  | some path => exact answered_file hpath hpreflight hfile
  | none =>
    have h : ForService srv e := ⟨hpath, hpreflight, hfile⟩
    rw [Option.isSome_none, if_neg Bool.false_ne_true]
    cases hservice : srv.getWebserviceFromPath e.incoming.path with
    | some service => exact h.answered_iff hservice hcompleted
    | none =>
      have hcheck : srv.checkWebservices lws e.atLine (withHeader s e.incoming) e.incoming =
          (some false, withHeader s e.incoming, []) := by
        rw [checkWebservices, hservice]
      exact h.notFound rfl hcheck (by rintro _ ⟨⟩)

variable (srv lws) in
theorem mem_exchanges (s : HttpSession) (es : List (Exchange A H)) :
    ∀ p ∈ srv.exchanges lws s es, ∃ s', p.2 = srv.exchange lws s' p.1 := by
  induction es generalizing s with
  | nil =>
    rw [exchanges]
    exact List.forall_mem_nil _
  | cons e es ih =>
    rw [exchanges, List.forall_mem_cons]
    refine ⟨⟨s, rfl⟩, ?_⟩
    split
    · exact ih _
    · exact List.forall_mem_nil _

variable (srv lws) in
/-- The requests of a session that complete are answered exactly when their condition holds. -/
theorem exchanges_answered_iff (s : HttpSession) (es : List (Exchange A H)) :
    (∀ p ∈ srv.exchanges lws s es, p.2.isCompleted = true → Answered p.2.events) ↔
      ∀ p ∈ srv.exchanges lws s es, p.2.isCompleted = true → srv.Answerable lws p.1 := by
  refine forall₂_congr fun p hp => forall_congr' fun hcompleted => ?_
  obtain ⟨s', hs'⟩ := mem_exchanges srv lws s es p hp
  rw [hs'] at hcompleted ⊢
  exact answered_iff_answerable hcompleted

end Line

/-- A server of one web service without routes. -/
def unroutedServer : HttpServer Unit Unit where
  rootDir := []
  resourcesPath := []
  webservice _ := some ⟨none, ⟨fun _ => none⟩⟩
  httpAuthenticator := none
  mimeTypes := .empty
  encoding := []
  defaultServerName := []
  defaultCorsOrigin := []
  page404Path := []

/-- `POST /a/b` with a body of one byte. -/
def unroutedPost : Exchange Unit Unit where
  incoming :=
    { uriLength := fun method => if method = .post then 4 else 0
      path := [47, 97, 47, 98]
      header := fun token => if token = .contentLength then some [49] else none
      uriArgs := []
      clientIp := []
      closes := false }
  chunks := some [[120]]
  atLine := ⟨fun _ => false, fun _ => false, fun _ _ => false, fun _ _ response => response⟩
  atEnd := ⟨fun _ => false, fun _ => false, fun _ _ => false, fun _ _ response => response⟩
  writeables := 0

/-- Nothing is sent for a body that no handler gets. -/
theorem not_answered_unroutedPost :
    ¬ ∀ (srv : HttpServer Unit Unit) (lws : Lws) (s : HttpSession) (es : List (Exchange Unit Unit)),
      ∀ p ∈ srv.exchanges lws s es, p.2.isCompleted = true → Answered p.2.events := by
  intro h
  have hanswered := h unroutedServer ⟨fun _ => true, id⟩ .zero [unroutedPost] _
    List.mem_cons_self rfl
  obtain ⟨head, rest, hsent, -⟩ := hanswered
  have hnone : ((unroutedServer.exchange ⟨fun _ => true, id⟩ .zero unroutedPost).events.filter
      ServerEvent.isSent) = [] := rfl
  rw [hnone] at hsent
  cases hsent

end HttpServer

end Sihd.Http
