import Mathlib.Data.UInt
import Sihd.Lib.Lifecycle
import Sihd.Lib.Transition
import Sihd.Lib.UnorderedMap

/-!
# The sessions of the server

The server is one thread. It accepts sessions, and libssh calls it back for what the clients ask;
it hands all of this to its handler, which keeps a state for every session and channel and runs
what a channel is for. Sessions, channels and subsystem handlers are objects at addresses: an
address is given to a new object when no object has it.
-/

namespace Sihd.Ssh

structure WinSize where
  row : UInt16
  col : UInt16
  xpixel : UInt16
  ypixel : UInt16
  deriving DecidableEq

def WinSize.zero : WinSize := ⟨0, 0, 0, 0⟩

/-- What a channel is asked to run. -/
inductive ChannelRequest where
  | shell
  | exec (command : List UInt8)
  | subsystem (name : List UInt8)
  deriving DecidableEq

/-- What the server does with a channel of its own accord. -/
inductive ChannelUse where
  | isEof
  | exitStatus (code : Int)
  | sendEof
  | close
  deriving DecidableEq

/-- What happens to sessions `S`, channels `C` and subsystem handlers `H`. -/
inductive SshEvent (S C H : Type) where
  | sessionOpened (s : S)
  | sessionClosed (s : S)
  | channelCreated (c : C)
  | channelOpened (s : S) (c : C)
  | channelUsed (c : C) (use : ChannelUse)
  | channelDeleted (c : C)
  | started (h : H) (request : ChannelRequest) (accepted : Bool)
  | data (h : H) (bytes : List UInt8)
  | resized (h : H) (size : WinSize)
  | forwarded (h : H)
  | eof (h : H)
  | closed (h : H)
  | destroyed (h : H)

/-! ## The handler -/

structure ChannelState (H : Type) where
  handler : Option H
  hasPty : Bool
  winsize : WinSize

structure SessionState (C H : Type) where
  channels : UnorderedMap C (ChannelState H)

/-- `channelIndex` has for a channel the session in whose state its own is. -/
structure BasicSshServerHandler (S C H : Type) where
  sessions : UnorderedMap S (SessionState C H)
  channelIndex : UnorderedMap C S

/-- The answers of the subsystem handlers and of the channels to `on_poll`. -/
structure PollAnswers (C H : Type) where
  isRunning : H → Bool
  exitCode : H → Int
  isEof : C → Bool

/-- The handler after a callback, and what happened. -/
abbrev Handled (S C H : Type) := BasicSshServerHandler S C H × List (SshEvent S C H)

namespace BasicSshServerHandler

variable {S C H : Type} [DecidableEq S] [DecidableEq C] (b : BasicSshServerHandler S C H)

/-- A handler without sessions. -/
def create : BasicSshServerHandler S C H := ⟨.empty, .empty⟩

/-- The destructor of a channel state. -/
def destroy (ch : ChannelState H) : List (SshEvent S C H) := ch.handler.toList.map .destroyed

/-- The destructor of a session state. -/
def destroyAll (st : SessionState C H) : List (SshEvent S C H) :=
  st.channels.entries.flatMap fun e => destroy e.2

def onSessionOpened (s : S) : Handled S C H :=
  ({ b with sessions := b.sessions.assign s ⟨.empty⟩ },
    (b.sessions.find s).toList.flatMap destroyAll ++ [.sessionOpened s])

/-- The states of the session go with the subsystem handlers that they own. -/
def onSessionClosed (s : S) : Handled S C H :=
  match b.sessions.find s with
  | some st =>
    (⟨b.sessions.erase s, st.channels.keys.foldl .erase b.channelIndex⟩,
      destroyAll st ++ [.sessionClosed s])
  | none => (b, [.sessionClosed s])

def onChannelOpen (s : S) (c : C) : Bool × Handled S C H :=
  match b.sessions.find s with
  | none => (false, b, [])
  | some st =>
    (true,
      ⟨b.sessions.assign s ⟨st.channels.assign c ⟨none, false, .zero⟩⟩, b.channelIndex.assign c s⟩,
      (st.channels.find c).toList.flatMap destroy ++ [.channelOpened s c])

def getChannelState (s : S) (c : C) : Option (ChannelState H) :=
  (b.sessions.find s).bind fun st => st.channels.find c

/-- The state behind a pointer of `get_channel_state` is changed. -/
def setChannelState (s : S) (c : C) (ch : ChannelState H) : BasicSshServerHandler S C H :=
  match b.sessions.find s with
  | none => b
  | some st => { b with sessions := b.sessions.assign s ⟨st.channels.assign c ch⟩ }

def onChannelRequestPty (s : S) (c : C) (size : WinSize) : Bool × BasicSshServerHandler S C H :=
  match b.getChannelState s c with
  | none => (false, b)
  | some ch => (true, b.setChannelState s c { ch with hasPty := true, winsize := size })

/-- A callback makes a subsystem handler for the request, or none. It is started; one that the
channel had is destroyed. -/
def startHandler (s : S) (c : C) (request : ChannelRequest) (made : Option H) (starts : Bool) :
    Bool × Handled S C H :=
  match b.getChannelState s c with
  | none => (false, b, [])
  | some ch =>
    match made with
    | none => (false, b, [])
    | some h =>
      let events := destroy ch ++ [.started h request starts]
      if starts then (true, b.setChannelState s c { ch with handler := some h }, events)
      else (false, b.setChannelState s c { ch with handler := none }, events ++ [.destroyed h])

def onChannelRequestShell (s : S) (c : C) (made : Option H) (starts : Bool) :
    Bool × Handled S C H :=
  b.startHandler s c .shell made starts

def onChannelRequestExec (s : S) (c : C) (command : List UInt8) (made : Option H)
    (starts : Bool) : Bool × Handled S C H :=
  b.startHandler s c (.exec command) made starts

def onChannelRequestSubsystem (s : S) (c : C) (subsystem : List UInt8) (made : Option H)
    (starts : Bool) : Bool × Handled S C H :=
  b.startHandler s c (.subsystem subsystem) made starts

def onChannelData (s : S) (c : C) (bytes : List UInt8) : List (SshEvent S C H) :=
  match (b.getChannelState s c).bind ChannelState.handler with
  | none => []
  | some h => [.data h bytes]

def onChannelPtyResize (s : S) (c : C) (size : WinSize) : Handled S C H :=
  match b.getChannelState s c with
  | none => (b, [])
  | some ch =>
    (b.setChannelState s c { ch with winsize := size },
      ch.handler.toList.map fun h => .resized h size)

/-- `none` where the pointer of the index leads to no state. -/
def channelBypassesDataCallback (managesChannelIo : H → Bool) (b : BasicSshServerHandler S C H)
    (c : C) : Option Bool :=
  match b.channelIndex.find c with
  | none => some false
  | some s => (b.getChannelState s c).map fun ch => (ch.handler.map managesChannelIo).getD false

/-- What `on_poll` does with a channel that has a subsystem handler. -/
def pollChannel (managesChannelIo : H → Bool) (answers : PollAnswers C H) (c : C) (h : H) :
    List (SshEvent S C H) :=
  if answers.isRunning h then
    .channelUsed c .isEof :: .forwarded h :: if answers.isEof c then [.eof h] else []
  else
    .closed h :: if managesChannelIo h then [] else
      (if 0 ≤ answers.exitCode h then [.channelUsed c (.exitStatus (answers.exitCode h))]
        else []) ++ [.channelUsed c .sendEof, .channelUsed c .close]

/-- A channel whose subsystem handler does not run any more. -/
def isFinished (answers : PollAnswers C H) (ch : ChannelState H) : Bool :=
  ch.handler.any fun h => !answers.isRunning h

/-- The state of a channel that has finished goes. -/
def cleanupChannel (s : S) (c : C) : Handled S C H :=
  match b.sessions.find s with
  | none => (b, [])
  | some st =>
    (⟨b.sessions.assign s ⟨st.channels.erase c⟩, b.channelIndex.erase c⟩,
      (st.channels.find c).toList.flatMap destroy)

def cleanupChannels (s : S) : List C → BasicSshServerHandler S C H → Handled S C H
  | [], b => (b, [])
  | c :: cs, b =>
    let (b, events) := b.cleanupChannel s c
    let (b, events') := cleanupChannels s cs b
    (b, events ++ events')

def pollSession (managesChannelIo : H → Bool) (answers : PollAnswers C H)
    (b : BasicSshServerHandler S C H) (s : S) : Handled S C H :=
  match b.sessions.find s with
  | none => (b, [])
  | some st =>
    let polled := st.channels.entries.flatMap fun e =>
      (e.2.handler.map (pollChannel managesChannelIo answers e.1)).getD []
    let finished := st.channels.entries.filter fun e => isFinished answers e.2
    let (b, events) := cleanupChannels s (finished.map Prod.fst) b
    (b, polled ++ events)

def pollSessions (managesChannelIo : H → Bool) (answers : PollAnswers C H) :
    List S → BasicSshServerHandler S C H → Handled S C H
  | [], b => (b, [])
  | s :: l, b =>
    let (b, events) := b.pollSession managesChannelIo answers s
    let (b, events') := pollSessions managesChannelIo answers l b
    (b, events ++ events')

/-- A channel owns the subsystem handler. -/
def owns [DecidableEq H] (b : BasicSshServerHandler S C H) (h : H) : Bool :=
  b.sessions.entries.any fun e => e.2.channels.entries.any fun e => e.2.handler == some h

def onPoll (managesChannelIo : H → Bool) (answers : PollAnswers C H)
    (b : BasicSshServerHandler S C H) : Handled S C H :=
  pollSessions managesChannelIo answers b.sessions.keys b

end BasicSshServerHandler

/-! ## The server -/

namespace SshServer

structure ChannelData where
  hasPty : Bool
  winsize : WinSize

/-- The channels are in a vector; each has an address of its own. -/
structure SessionData (C : Type) where
  channels : UnorderedMap C ChannelData

/-- `invalid` says that a pointer without an object behind it was followed. -/
structure World (S C H : Type) where
  running : Bool
  sessionData : UnorderedMap S (SessionData C)
  sessions : List S
  handler : BasicSshServerHandler S C H
  invalid : Bool
  events : List (SshEvent S C H)

/-- What libssh calls back for, and the answers of what is outside of the server. -/
inductive Action (S C H : Type) where
  | accept (s : S) (keyExchange : Bool)
  | channelOpen (s : S) (c : C)
  | ptyRequest (s : S) (c : C) (size : WinSize)
  | ptyResize (s : S) (c : C) (size : WinSize)
  | request (s : S) (c : C) (request : ChannelRequest) (made : Option H) (starts : Bool)
  | data (s : S) (c : C) (bytes : List UInt8)
  | poll (answers : PollAnswers C H)
  | cleanupClosedSessions (closed : S → Bool)
  | stop

namespace World

variable {S C H : Type} [DecidableEq S] [DecidableEq C] (w : World S C H)

/-- A server that is about to run, with a handler that has no sessions. -/
def create : World S C H := ⟨true, .empty, [], .create, false, []⟩

def withHandler (r : Handled S C H) : World S C H :=
  { w with handler := r.1, events := w.events ++ r.2 }

def setData (s : S) (d : SessionData C) : World S C H :=
  { w with sessionData := w.sessionData.assign s d }

/-- `accept_session`, once a connection is there. -/
def acceptSession (s : S) (keyExchange : Bool) : World S C H :=
  let w := w.setData s ⟨.empty⟩
  if keyExchange then
    { w.withHandler (w.handler.onSessionOpened s) with sessions := w.sessions ++ [s] }
  else { w with sessionData := w.sessionData.erase s }

/-- A channel that the handler refuses is deleted again. -/
def callbackChannelOpen (s : S) (d : SessionData C) (c : C) : World S C H :=
  let w := { w with events := w.events ++ [SshEvent.channelCreated c] }
  let (allowed, r) := w.handler.onChannelOpen s c
  let w := w.withHandler r
  if allowed then w.setData s ⟨d.channels.emplace c ⟨false, .zero⟩⟩
  else { w with events := w.events ++ [SshEvent.channelDeleted c] }

def callbackChannelPtyRequest (s : S) (d : SessionData C) (c : C) (size : WinSize) :
    Bool × World S C H :=
  match d.channels.find c with
  | none => (false, w)
  | some _ =>
    let w := w.setData s ⟨d.channels.assign c ⟨true, size⟩⟩
    let (allowed, handler) := w.handler.onChannelRequestPty s c size
    (allowed, { w with handler })

def callbackChannelPtyResize (s : S) (d : SessionData C) (c : C) (size : WinSize) :
    Bool × World S C H :=
  match d.channels.find c with
  | none => (false, w)
  | some ch =>
    let w := w.setData s ⟨d.channels.assign c { ch with winsize := size }⟩
    (true, w.withHandler (w.handler.onChannelPtyResize s c size))

/-- The three callbacks for a shell, a command and a subsystem. -/
def callbackChannelRequest (s : S) (d : SessionData C) (c : C) (request : ChannelRequest)
    (made : Option H) (starts : Bool) : Bool × World S C H :=
  match d.channels.find c with
  | none => (false, w)
  | some _ =>
    let (allowed, r) := match request with
      | .shell => w.handler.onChannelRequestShell s c made starts
      | .exec command => w.handler.onChannelRequestExec s c command made starts
      | .subsystem name => w.handler.onChannelRequestSubsystem s c name made starts
    (allowed, w.withHandler r)

/-- How many bytes are consumed. -/
def callbackChannelData (managesChannelIo : H → Bool) (w : World S C H) (s : S) (d : SessionData C)
    (c : C) (bytes : List UInt8) : Nat × World S C H :=
  match d.channels.find c with
  | none => (bytes.length, w)
  | some _ =>
    match w.handler.channelBypassesDataCallback managesChannelIo c with
    | none => (0, { w with invalid := true })
    | some true => (0, w)
    | some false => (bytes.length, w.withHandler (w.handler, w.handler.onChannelData s c bytes))

/-- The handler is told of each session that is closed. -/
def notifyClosed : List S → World S C H → World S C H
  | [], w => w
  | s :: l, w => notifyClosed l (w.withHandler (w.handler.onSessionClosed s))

def deleteChannels (d : SessionData C) : World S C H :=
  { w with events := w.events ++ d.channels.keys.map .channelDeleted }

def cleanupSession (s : S) : World S C H :=
  let w := match w.sessionData.find s with
    | none => w
    | some d => { w.deleteChannels d with sessionData := w.sessionData.erase s }
  { w with sessions := w.sessions.filter fun s' => s' ≠ s }

def cleanupClosedSessions (closed : S → Bool) : World S C H :=
  let toRemove := w.sessions.filter closed
  toRemove.foldl cleanupSession (notifyClosed toRemove w)

/-- When the loop ends. -/
def cleanup : World S C H :=
  { w with
    running := false
    sessionData := .empty
    sessions := []
    events := w.events ++
      w.sessionData.entries.flatMap fun e => e.2.channels.keys.map .channelDeleted }

/-- What the server does. Sessions that are closed call nobody back. -/
def step (managesChannelIo : H → Bool) (w : World S C H) : Action S C H → Option (World S C H)
  | .accept s keyExchange => if w.running then some (w.acceptSession s keyExchange) else none
  | .channelOpen s c => (w.sessionData.find s).map fun d => w.callbackChannelOpen s d c
  | .ptyRequest s c size =>
      (w.sessionData.find s).map fun d => (w.callbackChannelPtyRequest s d c size).2
  | .ptyResize s c size =>
      (w.sessionData.find s).map fun d => (w.callbackChannelPtyResize s d c size).2
  | .request s c request made starts =>
      (w.sessionData.find s).map fun d => (w.callbackChannelRequest s d c request made starts).2
  | .data s c bytes =>
      (w.sessionData.find s).map fun d => (w.callbackChannelData managesChannelIo s d c bytes).2
  | .poll answers =>
      if w.running then some (w.withHandler (w.handler.onPoll managesChannelIo answers)) else none
  | .cleanupClosedSessions closed =>
      if w.running then some (w.cleanupClosedSessions closed) else none
  | .stop => if w.running then some w.cleanup else none

/-- A session has the channel. -/
def hasChannel (c : C) : Bool :=
  w.sessionData.entries.any fun e => decide (c ∈ e.2.channels.keys)

/-- A new object is at an address where none is. -/
def Allowed [DecidableEq H] (w : World S C H) : Action S C H → Prop
  | .accept s _ => s ∉ w.sessionData.keys
  | .channelOpen _ c => w.hasChannel c = false
  | .request _ _ _ (some h) _ => w.handler.owns h = false
  | _ => True

def Reachable [DecidableEq H] (managesChannelIo : H → Bool) (w : World S C H) : Prop :=
  Transition.Reaches (step managesChannelIo) Allowed (· = create) w

end World

/-! ## Authentication

The callbacks for it touch nothing but two fields of the data of their session. Only the first two
attempts of a session are shown to the handler, whatever becomes of them.
-/

/-- The users with their passwords, and with their keys in Base64. -/
structure AuthLists where
  allowedUsers : UnorderedMap (List UInt8) (List UInt8)
  allowedPubkeys : UnorderedMap (List UInt8) (List (List UInt8))

namespace AuthLists

/-- `callback` is the answer of the callback of the user, `false` when none is set. -/
def onAuthPassword (a : AuthLists) (user password : List UInt8) (callback : Bool) : Bool :=
  a.allowedUsers.find user == some password || callback

def onAuthPubkey (a : AuthLists) (user keyBase64 : List UInt8) (callback : Bool) : Bool :=
  ((a.allowedPubkeys.find user).getD []).contains keyBase64 || callback

end AuthLists

structure AuthData where
  authAttempts : Nat
  authenticated : Bool

/-- What libssh says of a signature. -/
inductive SignatureState where
  | none
  | valid
  | wrong
  deriving DecidableEq

/-- An attempt, with the handler of the server at that time. A key has to be duplicated. -/
inductive Attempt where
  | password (handler : Option AuthLists) (user password : List UInt8) (callback : Bool)
  | pubkey (handler : Option AuthLists) (user keyBase64 : List UInt8) (state : SignatureState)
      (duplicated callback : Bool)

namespace AuthData

def callbackAuthPassword (d : AuthData) (handler : Option AuthLists) (user password : List UInt8)
    (callback : Bool) : Bool × AuthData :=
  match handler with
  | none => (false, d)
  | some a =>
    let d := { d with authAttempts := d.authAttempts + 1 }
    if 3 ≤ d.authAttempts then (false, d)
    else if a.onAuthPassword user password callback then (true, { d with authenticated := true })
    else (false, d)

/-- A key that is shown without a signature is only asked about: libssh asks for the signature. -/
def callbackAuthPubkey (d : AuthData) (handler : Option AuthLists) (user keyBase64 : List UInt8)
    (state : SignatureState) (duplicated callback : Bool) : Bool × AuthData :=
  match state, handler with
  | .none, _ => (true, d)
  | .wrong, _ => (false, d)
  | .valid, none => (false, d)
  | .valid, some a =>
    let d := { d with authAttempts := d.authAttempts + 1 }
    if 3 ≤ d.authAttempts then (false, d)
    else if duplicated = false then (false, d)
    else if a.onAuthPubkey user keyBase64 callback then (true, { d with authenticated := true })
    else (false, d)

def attempt (d : AuthData) : Attempt → AuthData
  | .password handler user password callback =>
      (d.callbackAuthPassword handler user password callback).2
  | .pubkey handler user keyBase64 state duplicated callback =>
      (d.callbackAuthPubkey handler user keyBase64 state duplicated callback).2

end AuthData

namespace Attempt

/-- There is a handler, and a key has a signature that is right. -/
def counts : Attempt → Bool
  | .password handler _ _ _ => handler.isSome
  | .pubkey handler _ _ state _ _ => handler.isSome && state == .valid

/-- The lists or the callback accept what is shown. -/
def accepted : Attempt → Bool
  | .password handler user shown callback =>
      handler.any fun a => a.onAuthPassword user shown callback
  | .pubkey handler user keyBase64 _ duplicated callback =>
      duplicated && handler.any fun a => a.onAuthPubkey user keyBase64 callback

end Attempt

end SshServer

end Sihd.Ssh
