import Sihd.Lib.OrderedMap
import Sihd.Sys.PollInterests

/-!
# The clients of a TCP server

A `TcpServer` polls its socket and those of its clients. The events of a poll are handled
one after the other: a new client is accepted, or a client is read or written. Calls from
other threads come in between; each of them, and each event, holds the handler's mutex.
-/

namespace Sihd.Net

open Sys

/-- A client object, `id` telling it from the others. `sent` are the bytes that are on its
socket; `accepted`, the arrays that `send_to_client` returned true for, and `failed`, that a
`send_all` has failed, are its history. -/
structure Client where
  id : Nat
  readArray : List UInt8
  writeArray : List UInt8
  error : Bool
  disconnected : Bool
  sent : List UInt8
  accepted : List UInt8
  failed : Bool
  deriving DecidableEq

def Client.create (id : Nat) : Client := ⟨id, [], [], false, false, [], [], false⟩

/-- A server and its handler. `created` counts the client objects, `server` is whether the
handler knows its server, `handling` are the events of a poll that are left, and `crashed`
that a null pointer was used. -/
structure World where
  poll : Poll
  socket : Int
  maxClients : Nat
  tlsCtx : Bool
  clientMap : OrderedMap Int Client
  created : Nat
  server : Bool
  running : Bool
  handling : Option (List PollEvent)
  readEventLst : List Nat
  writeEventLst : List Nat
  connectEventLst : List Nat
  crashed : Bool

/-- What the calls of an event are answered: the descriptor of `accept` or a negative
number, the result of `tls_accept`, the bytes received (none of them at the end of the
stream) or an error, and where a failing `send_all` stopped. -/
structure Answer where
  socket : Int
  tlsAccept : Bool
  received : Option (List UInt8)
  stopped : Option Nat

namespace World

/-- `_setup_poll`, on a listening socket. -/
def start (limit maxClients : Nat) (tlsCtx : Bool) (socket : Nat) : World where
  poll := ((Poll.create limit).setReadFd socket).1
  socket := socket
  maxClients := maxClients
  tlsCtx := tlsCtx
  clientMap := .empty
  created := 0
  server := false
  running := true
  handling := none
  readEventLst := []
  writeEventLst := []
  connectEventLst := []
  crashed := false

def setClient (w : World) (socket : Int) (client : Client) : World :=
  { w with clientMap := w.clientMap.set socket client }

/-- `send_to_client` of a client object. An array without bytes is not copied, and the
server is a null pointer until the first events were handled. -/
def sendToClient (w : World) (socket : Int) (id : Nat) (arr : List UInt8) : World × Bool :=
  match w.clientMap.find socket with
  | none => (w, false)
  | some client =>
      if client.id ≠ id then (w, false)
      else if arr = [] then (w.setClient socket { client with writeArray := [] }, false)
      else if w.server = false then
        ({ w.setClient socket { client with writeArray := arr } with crashed := true }, false)
      else
        let (poll, ret) := w.poll.setWriteFd socket
        let accepted := if ret then client.accepted ++ arr else client.accepted
        ({ w.setClient socket { client with writeArray := arr, accepted := accepted } with
          poll := poll }, ret)

/-- `send_to_client` of a socket. -/
def sendToSocket (w : World) (socket : Int) (arr : List UInt8) : World × Bool :=
  match w.clientMap.find socket with
  | none => (w, false)
  | some client => w.sendToClient socket client.id arr

/-- `remove_client` of a client object. -/
def removeClient (w : World) (socket : Int) (id : Nat) : World × Bool :=
  match w.clientMap.find socket with
  | none => (w, false)
  | some client =>
      if client.id ≠ id then (w, false)
      else if w.server = false then ({ w with crashed := true }, false)
      else
        ({ w with
          poll := ((w.poll.rmReadFd socket).1.rmWriteFd socket).1
          clientMap := w.clientMap.erase socket }, true)

/-- `remove_client` of a socket. -/
def removeSocket (w : World) (socket : Int) : World × Bool :=
  match w.clientMap.find socket with
  | none => (w, false)
  | some client => w.removeClient socket client.id

/-- The result of `add_client_read` is not looked at. -/
def handleNewClient (w : World) (socket : Int) (tlsAccept : Bool) : World :=
  if socket < 0 then w
  else if w.maxClients ≤ w.clientMap.size then w
  else if w.tlsCtx ∧ tlsAccept = false then { w with created := w.created + 1 }
  else
    { w with
      poll := (w.poll.setReadFd socket).1
      clientMap := w.clientMap.set socket (.create w.created)
      created := w.created + 1
      connectEventLst := w.connectEventLst ++ [w.created] }

def handleClientRead (w : World) (socket : Int) (received : Option (List UInt8)) : World :=
  match w.clientMap.find socket with
  | none => w
  | some client =>
      let client := { client with
        readArray := received.getD client.readArray
        error := received.isNone
        disconnected := received = some [] }
      { w.setClient socket client with
        poll := if received.getD [] = [] then (w.poll.rmReadFd socket).1 else w.poll
        readEventLst := w.readEventLst ++ [client.id] }

/-- The client after `send_all`, which makes no call when there are no bytes. -/
def writtenClient (client : Client) (stopped : Option Nat) : Client :=
  if client.writeArray = [] ∨ stopped = none then
    { client with sent := client.sent ++ client.writeArray, error := false }
  else
    { client with
      sent := client.sent ++ client.writeArray.take (stopped.getD 0)
      error := true
      failed := true }

def handleClientWrite (w : World) (socket : Int) (stopped : Option Nat) : World :=
  match w.clientMap.find socket with
  | none => w
  | some client =>
      { w.setClient socket (writtenClient client stopped) with
        poll := (w.poll.rmWriteFd socket).1
        writeEventLst := w.writeEventLst ++ [client.id] }

/-- `stop` inside the loop over the events, which it ends. -/
def stop (w : World) : World :=
  { w with poll := w.poll.clearFds, running := false, handling := some [] }

/-- An event in the loop of `TcpServer::handle`. -/
def handleEvent (w : World) (answer : Answer) (event : PollEvent) : World :=
  if event.fd = w.socket then
    if event.readable then w.handleNewClient answer.socket answer.tlsAccept
    else if event.closed ∨ event.error then w.stop
    else w
  else if event.readable then w.handleClientRead event.fd answer.received
  else if event.writable then w.handleClientWrite event.fd answer.stopped
  else w

inductive Action where
  | poll (revents : List (BitVec 16))
  | handle (answer : Answer)
  | afterActivity
  | sendToClient (socket : Int) (id : Nat) (arr : List UInt8)
  | sendToSocket (socket : Int) (arr : List UInt8)
  | removeClient (socket : Int) (id : Nat)
  | removeSocket (socket : Int)

/-- A poll returns, its next event is handled or its events are over; or a call is made.
The kernel accepts on a descriptor that is not in use. -/
def step (w : World) (a : Action) : Option World :=
  if w.crashed then none
  else
    match a with
    | .poll revents =>
        if w.running ∧ w.handling = none ∧ w.poll.IsAnswer revents then
          some { w with
            handling := some (w.poll.processPollResults revents)
            readEventLst := []
            writeEventLst := []
            connectEventLst := [] }
        else none
    | .handle answer =>
        match w.handling with
        | some (event :: events) =>
            if answer.socket ≠ w.socket ∧ w.clientMap.find answer.socket = none then
              some ({ w with handling := some events }.handleEvent answer event)
            else none
        | _ => none
    | .afterActivity =>
        if w.handling = some [] then some { w with server := true, handling := none } else none
    | .sendToClient socket id arr => some (w.sendToClient socket id arr).1
    | .sendToSocket socket arr => some (w.sendToSocket socket arr).1
    | .removeClient socket id => some (w.removeClient socket id).1
    | .removeSocket socket => some (w.removeSocket socket).1

/-- The events that are left. -/
def pending (w : World) : List PollEvent := w.handling.getD []

/-! ### What a step touches -/

/-- A step that changes what is known of one descriptor only. -/
structure Touches (w : World) (fd : Int) (w' : World) : Prop where
  socket : w'.socket = w.socket
  maxClients : w'.maxClients = w.maxClients
  poll : ∃ i, w.poll.Changes fd i w'.poll
  others : ∀ g, g ≠ fd → w'.clientMap.find g = w.clientMap.find g

/-- The table is that of the interests of the clients and of the listening socket, and the
events that are left tell of them: of each descriptor once, of its read interest, and of its
write interest unless a new client has no bytes yet. -/
structure Sound (w : World) : Prop where
  isTable : w.poll.IsTable
  keys : ∀ fd c, w.clientMap.find fd = some c → 0 ≤ fd ∧ fd ≠ w.socket
  owned : ∀ fd, 0 ≤ fd → (w.poll.interest fd).any = true →
    fd = w.socket ∨ (w.clientMap.find fd).isSome
  once : (w.pending.map PollEvent.fd).Nodup
  slots : ∀ e ∈ w.pending, 0 ≤ e.fd ∧ w.poll.HasSlot e.fd
  readable : ∀ e ∈ w.pending, e.readable = true → ∀ c, w.clientMap.find e.fd = some c →
    (w.poll.interest e.fd).read = true
  writable : ∀ e ∈ w.pending, e.writable = true → ∀ c, w.clientMap.find e.fd = some c →
    (w.poll.interest e.fd).write = true ∨ c.writeArray = []

/-- A property of every client and of what is asked of its descriptor. -/
def Everyone (P : Poll.Interest → Client → Prop) (w : World) : Prop :=
  ∀ fd c, w.clientMap.find fd = some c → P (w.poll.interest fd) c

section Touches

variable {w w' : World} {fd : Int}

theorem Sound.changes_refl (h : w.Sound) (fd : Int) :
    w.poll.Changes fd (w.poll.interest fd) w.poll :=
  ⟨h.isTable, rfl, fun _ _ _ => rfl, fun _ _ hslot => hslot, rfl⟩

/-- A step on a descriptor of a client keeps soundness when the events of the descriptor
that are left still tell of its interests. -/
theorem Sound.of_touches (h : w.Sound) (htouches : w.Touches fd w') (hfd : 0 ≤ fd)
    (hne : fd ≠ w.socket) (hpending : w'.pending.Sublist w.pending)
    (howned : (w'.poll.interest fd).any = true → (w'.clientMap.find fd).isSome)
    (htold : ∀ e ∈ w'.pending, e.fd = fd → ∀ c, w'.clientMap.find fd = some c →
      (e.readable = true → (w'.poll.interest fd).read = true) ∧
        (e.writable = true → (w'.poll.interest fd).write = true ∨ c.writeArray = [])) :
    w'.Sound := by
  obtain ⟨i, hchanges⟩ := htouches.poll
  have hsub := hpending.subset
  refine ⟨hchanges.isTable, fun g c hc => ?_, fun g hg hany => ?_,
    h.once.sublist (hpending.map _), fun e he => ?_, fun e he hreadable c hc => ?_,
    fun e he hwritable c hc => ?_⟩
  · rw [htouches.socket]
    by_cases hgfd : g = fd
    · exact hgfd ▸ ⟨hfd, hne⟩
    · rw [htouches.others g hgfd] at hc
      exact h.keys g c hc
  · rw [htouches.socket]
    by_cases hgfd : g = fd
    · rw [hgfd] at hany ⊢
      exact .inr (howned hany)
    · rw [hchanges.others g hg hgfd] at hany
      rw [htouches.others g hgfd]
      exact h.owned g hg hany
  · obtain ⟨hpos, hslot⟩ := h.slots e (hsub he)
    exact ⟨hpos, hchanges.slots e.fd hpos hslot⟩
  · by_cases hefd : e.fd = fd
    · rw [hefd] at hc ⊢
      exact (htold e he hefd c hc).1 hreadable
    · rw [htouches.others _ hefd] at hc
      rw [hchanges.others _ (h.slots e (hsub he)).1 hefd]
      exact h.readable e (hsub he) hreadable c hc
  · by_cases hefd : e.fd = fd
    · rw [hefd] at hc ⊢
      exact (htold e he hefd c hc).2 hwritable
    · rw [htouches.others _ hefd] at hc
      rw [hchanges.others _ (h.slots e (hsub he)).1 hefd]
      exact h.writable e (hsub he) hwritable c hc

end Touches

/-! ### What each step does -/

section Steps

variable {w w' : World} {socket : Int} {id : Nat} {arr : List UInt8} {client : Client}

/-- What `send_to_client` can do. -/
inductive Sends (w : World) (socket : Int) (id : Nat) (arr : List UInt8) : World × Bool → Prop
  | unknown (h : ∀ c, w.clientMap.find socket = some c → c.id ≠ id) :
      Sends w socket id arr (w, false)
  | empty {c : Client} (hc : w.clientMap.find socket = some c) (hid : c.id = id)
      (harr : arr = []) :
      Sends w socket id arr (w.setClient socket { c with writeArray := [] }, false)
  | crashed {c : Client} (hc : w.clientMap.find socket = some c) (hid : c.id = id)
      (harr : arr ≠ []) (hserver : w.server = false) :
      Sends w socket id arr
        ({ w.setClient socket { c with writeArray := arr } with crashed := true }, false)
  | refused {c : Client} (hc : w.clientMap.find socket = some c) (hid : c.id = id)
      (harr : arr ≠ []) (hserver : w.server = true)
      (hret : (w.poll.setWriteFd socket).2 = false) :
      Sends w socket id arr (w.setClient socket { c with writeArray := arr }, false)
  | accepted {c : Client} (hc : w.clientMap.find socket = some c) (hid : c.id = id)
      (harr : arr ≠ []) (hserver : w.server = true)
      (hret : (w.poll.setWriteFd socket).2 = true) :
      Sends w socket id arr
        ({ w.setClient socket { c with writeArray := arr, accepted := c.accepted ++ arr } with
          poll := (w.poll.setWriteFd socket).1 }, true)

theorem Sound.sends (h : w.Sound) (socket : Int) (id : Nat) (arr : List UInt8) :
    w.Sends socket id arr (w.sendToClient socket id arr) := by
  rw [sendToClient]
  split
  · rename_i hnone
    exact .unknown fun c hc => absurd (hnone.symm.trans hc) (by simp)
  · rename_i c hc
    split
    · rename_i hid
      exact .unknown fun c' hc' => Option.some.inj (hc.symm.trans hc') ▸ hid
    · rename_i hid
      rw [not_not] at hid
      split
      · rename_i harr
        exact .empty hc hid harr
      · rename_i harr
        split
        · rename_i hserver
          exact .crashed hc hid harr hserver
        · rename_i hserver
          rw [Bool.not_eq_false] at hserver
          have hset := h.isTable.setWriteFd (h.keys socket c hc).1
          dsimp only
          cases hret : (w.poll.setWriteFd socket).2 with
          | true => exact .accepted hc hid harr hserver hret
          | false =>
            rw [hret, if_neg Bool.false_ne_true] at hset
            rw [hset]
            exact .refused hc hid harr hserver hret

theorem Sound.touches_setClient (h : w.Sound) (socket : Int) (c : Client) :
    w.Touches socket (w.setClient socket c) :=
  ⟨rfl, rfl, ⟨_, h.changes_refl socket⟩, fun _ hg => w.clientMap.find_set_of_ne hg c⟩

theorem touches_setClient_poll {i : Poll.Interest} {poll : Poll}
    (h : w.poll.Changes socket i poll) (c : Client) :
    w.Touches socket { w.setClient socket c with poll := poll } :=
  ⟨rfl, rfl, ⟨_, h⟩, fun _ hg => w.clientMap.find_set_of_ne hg c⟩

/-- The clients that are kept their interests and the arrays of. -/
theorem Sound.setClient (h : w.Sound) {c c' : Client} (hc : w.clientMap.find socket = some c)
    (hwrite : (w.poll.interest socket).write = true ∨ c.writeArray = [] →
      (w.poll.interest socket).write = true ∨ c'.writeArray = []) :
    (w.setClient socket c').Sound := by
  obtain ⟨hfd, hne⟩ := h.keys socket c hc
  refine h.of_touches (h.touches_setClient socket c') hfd hne (List.Sublist.refl _)
    (fun _ => by rw [World.setClient, OrderedMap.find_set_self]; rfl) fun e he hefd c'' hc'' => ?_
  rw [World.setClient, OrderedMap.find_set_self] at hc''
  obtain rfl := Option.some.inj hc''
  exact ⟨fun hreadable => hefd ▸ h.readable e he hreadable c (hefd ▸ hc),
    fun hwritable => hwrite (hefd ▸ h.writable e he hwritable c (hefd ▸ hc))⟩

theorem Sound.sendToClient (h : w.Sound)
    (hdefined : (w.sendToClient socket id arr).1.crashed = false) :
    (w.sendToClient socket id arr).1.Sound := by
  have hsends := h.sends socket id arr
  revert hsends hdefined
  generalize w.sendToClient socket id arr = r
  intro hdefined hsends
  cases hsends with
  | unknown => exact h
  | empty hc => exact h.setClient hc fun _ => .inr rfl
  | crashed => cases hdefined
  | @refused c hc hid harr hserver hret =>
    -- A descriptor with an event has a slot, and is not refused.
    obtain ⟨hfd, hne⟩ := h.keys socket c hc
    have hnoslot : ¬ w.poll.HasSlot socket := fun hslot => Bool.false_ne_true
      (hret.symm.trans ((h.isTable.setWriteFd_accepted hfd).mpr hslot.hasRoom))
    refine h.of_touches (h.touches_setClient socket _) hfd hne (List.Sublist.refl _)
      (fun _ => by rw [World.setClient, OrderedMap.find_set_self]; rfl) fun e he hefd => ?_
    exact absurd (hefd ▸ (h.slots e he).2) hnoslot
  | @accepted c hc hid harr hserver hret =>
    obtain ⟨hfd, hne⟩ := h.keys socket c hc
    have hset := h.isTable.setWriteFd hfd
    rw [if_pos hret] at hset
    refine h.of_touches (touches_setClient_poll hset _) hfd hne (List.Sublist.refl _)
      (fun _ => by rw [World.setClient, OrderedMap.find_set_self]; rfl)
      fun e he hefd c' hc' => ?_
    dsimp only
    rw [hset.self]
    exact ⟨fun hreadable => hefd ▸ h.readable e he hreadable c (hefd ▸ hc), fun _ => .inl rfl⟩

/-- Removing both interests of a descriptor. -/
theorem Sound.changes_remove (h : w.Sound) (hfd : 0 ≤ socket) :
    w.poll.Changes socket .nothing ((w.poll.rmReadFd socket).1.rmWriteFd socket).1 := by
  have hread := h.isTable.rmReadFd hfd
  have hwrite := hread.isTable.rmWriteFd hfd
  rw [hread.self] at hwrite
  exact ⟨hwrite.isTable, hwrite.self,
    fun g hg hne => (hwrite.others g hg hne).trans (hread.others g hg hne),
    fun g hg hslot => hwrite.slots g hg (hread.slots g hg hslot),
    hwrite.maxFds.trans hread.maxFds⟩

/-- What `remove_client` can do. -/
inductive Removes (w : World) (socket : Int) (id : Nat) : World × Bool → Prop
  | unknown (h : ∀ c, w.clientMap.find socket = some c → c.id ≠ id) :
      Removes w socket id (w, false)
  | crashed {c : Client} (hc : w.clientMap.find socket = some c) (hid : c.id = id)
      (hserver : w.server = false) : Removes w socket id ({ w with crashed := true }, false)
  | removed {c : Client} (hc : w.clientMap.find socket = some c) (hid : c.id = id)
      (hserver : w.server = true) :
      Removes w socket id
        ({ w with
          poll := ((w.poll.rmReadFd socket).1.rmWriteFd socket).1
          clientMap := w.clientMap.erase socket }, true)

theorem removes (w : World) (socket : Int) (id : Nat) :
    w.Removes socket id (w.removeClient socket id) := by
  rw [removeClient]
  split
  · rename_i hnone
    exact .unknown fun c hc => absurd (hnone.symm.trans hc) (by simp)
  · rename_i c hc
    split
    · rename_i hid
      exact .unknown fun c' hc' => Option.some.inj (hc.symm.trans hc') ▸ hid
    · rename_i hid
      rw [not_not] at hid
      split
      · rename_i hserver
        exact .crashed hc hid hserver
      · rename_i hserver
        rw [Bool.not_eq_false] at hserver
        exact .removed hc hid hserver

theorem Sound.touches_removed (h : w.Sound) (hfd : 0 ≤ socket) :
    w.Touches socket { w with
      poll := ((w.poll.rmReadFd socket).1.rmWriteFd socket).1
      clientMap := w.clientMap.erase socket } :=
  ⟨rfl, rfl, ⟨_, h.changes_remove hfd⟩, fun _ hg => w.clientMap.find_erase_of_ne hg⟩

theorem Sound.removeClient (h : w.Sound) (hdefined : (w.removeClient socket id).1.crashed = false) :
    (w.removeClient socket id).1.Sound := by
  have hremoves := w.removes socket id
  revert hremoves hdefined
  generalize w.removeClient socket id = r
  intro hdefined hremoves
  cases hremoves with
  | unknown => exact h
  | crashed => cases hdefined
  | removed hc =>
    obtain ⟨hfd, hne⟩ := h.keys socket _ hc
    refine h.of_touches (h.touches_removed hfd) hfd hne (List.Sublist.refl _) (fun hany => ?_)
      fun e he hefd c' hc' => ?_
    · rw [(h.changes_remove hfd).self] at hany
      cases hany
    · rw [OrderedMap.find_erase_self] at hc'
      cases hc'

/-- What `handle_new_client` can do. -/
inductive Accepts (w : World) (socket : Int) (tlsAccept : Bool) : World → Prop
  | closed (h : socket < 0 ∨ w.maxClients ≤ w.clientMap.size ∨ w.tlsCtx = true ∧ tlsAccept = false)
      (created : Nat) : Accepts w socket tlsAccept { w with created := created }
  | accepted (hpos : 0 ≤ socket) (hsize : w.clientMap.size < w.maxClients)
      (htls : ¬ (w.tlsCtx = true ∧ tlsAccept = false)) :
      Accepts w socket tlsAccept { w with
        poll := (w.poll.setReadFd socket).1
        clientMap := w.clientMap.set socket (.create w.created)
        created := w.created + 1
        connectEventLst := w.connectEventLst ++ [w.created] }

theorem accepts (w : World) (socket : Int) (tlsAccept : Bool) :
    w.Accepts socket tlsAccept (w.handleNewClient socket tlsAccept) := by
  rw [handleNewClient]
  split
  · rename_i hneg
    exact .closed (.inl hneg) w.created
  · rename_i hpos
    split
    · rename_i hfull
      exact .closed (.inr (.inl hfull)) w.created
    · rename_i hsize
      split
      · rename_i htls
        exact .closed (.inr (.inr htls)) _
      · rename_i htls
        exact .accepted (not_lt.mp hpos) (not_le.mp hsize) htls

/-- The table after `add_client_read`. -/
theorem Sound.changes_setReadFd (h : w.Sound) (hfd : 0 ≤ socket) :
    w.poll.Changes socket
      (if (w.poll.setReadFd socket).2 = true then { w.poll.interest socket with read := true }
        else w.poll.interest socket)
      (w.poll.setReadFd socket).1 := by
  have hset := h.isTable.setReadFd hfd
  split at hset
  · rename_i hret
    rwa [if_pos hret]
  · rename_i hret
    rw [if_neg hret, hset]
    exact h.changes_refl socket

theorem Sound.touches_accepted (h : w.Sound) (hfd : 0 ≤ socket) (created : Nat)
    (connectEventLst : List Nat) :
    w.Touches socket { w with
      poll := (w.poll.setReadFd socket).1
      clientMap := w.clientMap.set socket (.create w.created)
      created := created
      connectEventLst := connectEventLst } :=
  ⟨rfl, rfl, ⟨_, h.changes_setReadFd hfd⟩, fun _ hg => w.clientMap.find_set_of_ne hg _⟩

theorem Sound.handleNewClient (h : w.Sound) (hne : socket ≠ w.socket) (tlsAccept : Bool) :
    (w.handleNewClient socket tlsAccept).Sound := by
  have haccepts := w.accepts socket tlsAccept
  revert haccepts
  generalize w.handleNewClient socket tlsAccept = w'
  intro haccepts
  cases haccepts with
  | closed _ created => exact ⟨h.isTable, h.keys, h.owned, h.once, h.slots, h.readable, h.writable⟩
  | accepted hpos hsize htls =>
    refine h.of_touches (h.touches_accepted hpos _ _) hpos hne (List.Sublist.refl _)
      (fun _ => by rw [OrderedMap.find_set_self]; rfl) fun e he hefd c' hc' => ?_
    rw [OrderedMap.find_set_self] at hc'
    obtain rfl := Option.some.inj hc'
    refine ⟨fun _ => ?_, fun _ => .inr rfl⟩
    have hslot := hefd ▸ (h.slots e he).2
    dsimp only
    rw [(h.changes_setReadFd hpos).self,
      if_pos ((h.isTable.setReadFd_accepted hpos).mpr hslot.hasRoom)]

/-- The table after a client was read. -/
theorem Sound.changes_read (h : w.Sound) (hfd : 0 ≤ socket) (received : Option (List UInt8)) :
    w.poll.Changes socket
      (if received.getD [] = [] then { w.poll.interest socket with read := false }
        else w.poll.interest socket)
      (if received.getD [] = [] then (w.poll.rmReadFd socket).1 else w.poll) := by
  split
  · exact h.isTable.rmReadFd hfd
  · exact h.changes_refl socket

theorem handleClientRead_of_none (hc : w.clientMap.find socket = none)
    (received : Option (List UInt8)) : w.handleClientRead socket received = w := by
  rw [handleClientRead, hc]

theorem handleClientRead_of_some (hc : w.clientMap.find socket = some client)
    (received : Option (List UInt8)) :
    w.handleClientRead socket received =
      { w.setClient socket { client with
          readArray := received.getD client.readArray
          error := received.isNone
          disconnected := received = some [] } with
        poll := if received.getD [] = [] then (w.poll.rmReadFd socket).1 else w.poll
        readEventLst := w.readEventLst ++ [client.id] } := by
  rw [handleClientRead, hc]

theorem handleClientWrite_of_none (hc : w.clientMap.find socket = none)
    (stopped : Option Nat) : w.handleClientWrite socket stopped = w := by
  rw [handleClientWrite, hc]

theorem handleClientWrite_of_some (hc : w.clientMap.find socket = some client)
    (stopped : Option Nat) :
    w.handleClientWrite socket stopped =
      { w.setClient socket (writtenClient client stopped) with
        poll := (w.poll.rmWriteFd socket).1
        writeEventLst := w.writeEventLst ++ [client.id] } := by
  rw [handleClientWrite, hc]

theorem Sound.touches_read (h : w.Sound) (hfd : 0 ≤ socket) (received : Option (List UInt8)) :
    w.Touches socket (w.handleClientRead socket received) := by
  cases hc : w.clientMap.find socket with
  | none =>
    rw [handleClientRead_of_none hc]
    exact ⟨rfl, rfl, ⟨_, h.changes_refl socket⟩, fun _ _ => rfl⟩
  | some client =>
    rw [handleClientRead_of_some hc]
    exact ⟨rfl, rfl, ⟨_, h.changes_read hfd received⟩,
      fun _ hg => w.clientMap.find_set_of_ne hg _⟩

theorem Sound.touches_write (h : w.Sound) (hfd : 0 ≤ socket) (stopped : Option Nat) :
    w.Touches socket (w.handleClientWrite socket stopped) := by
  cases hc : w.clientMap.find socket with
  | none =>
    rw [handleClientWrite_of_none hc]
    exact ⟨rfl, rfl, ⟨_, h.changes_refl socket⟩, fun _ _ => rfl⟩
  | some client =>
    rw [handleClientWrite_of_some hc]
    exact ⟨rfl, rfl, ⟨_, h.isTable.rmWriteFd hfd⟩, fun _ hg => w.clientMap.find_set_of_ne hg _⟩

/-- A client's event keeps soundness when none is left for its descriptor. -/
theorem Sound.of_handled (h : w.Sound) (htouches : w.Touches socket w') (hfd : 0 ≤ socket)
    (hne : socket ≠ w.socket) (hpending : w'.pending = w.pending)
    (hfind : (w.clientMap.find socket).isSome → (w'.clientMap.find socket).isSome)
    (hany : (w'.poll.interest socket).any = true → (w.poll.interest socket).any = true)
    (hnone : ∀ e ∈ w.pending, e.fd ≠ socket) : w'.Sound := by
  refine h.of_touches htouches hfd hne (hpending ▸ List.Sublist.refl _) (fun hany' => ?_)
    fun e he hefd => ?_
  · exact hfind ((h.owned socket hfd (hany hany')).resolve_left hne)
  · exact absurd hefd (hnone e (hpending ▸ he))

theorem Sound.handleClientRead (h : w.Sound) (hfd : 0 ≤ socket) (hne : socket ≠ w.socket)
    (hnone : ∀ e ∈ w.pending, e.fd ≠ socket) (received : Option (List UInt8)) :
    (w.handleClientRead socket received).Sound := by
  have htouches := h.touches_read hfd received
  cases hc : w.clientMap.find socket with
  | none =>
    rw [handleClientRead_of_none hc]
    exact h
  | some client =>
    rw [handleClientRead_of_some hc] at htouches ⊢
    refine h.of_handled htouches hfd hne rfl (fun _ => ?_) (fun hany => ?_) hnone
    · rw [World.setClient, OrderedMap.find_set_self]
      rfl
    · dsimp only at hany
      rw [(h.changes_read hfd received).self] at hany
      split at hany
      · rw [Poll.Interest.any, Bool.false_or] at hany
        rw [Poll.Interest.any, hany, Bool.or_true]
      · exact hany

theorem Sound.handleClientWrite (h : w.Sound) (hfd : 0 ≤ socket) (hne : socket ≠ w.socket)
    (hnone : ∀ e ∈ w.pending, e.fd ≠ socket) (stopped : Option Nat) :
    (w.handleClientWrite socket stopped).Sound := by
  have htouches := h.touches_write hfd stopped
  cases hc : w.clientMap.find socket with
  | none =>
    rw [handleClientWrite_of_none hc]
    exact h
  | some client =>
    rw [handleClientWrite_of_some hc] at htouches ⊢
    refine h.of_handled htouches hfd hne rfl (fun _ => ?_) (fun hany => ?_) hnone
    · rw [World.setClient, OrderedMap.find_set_self]
      rfl
    · dsimp only at hany
      rw [(h.isTable.rmWriteFd hfd).self, Poll.Interest.any, Bool.or_false] at hany
      rw [Poll.Interest.any, hany, Bool.true_or]

theorem Sound.stop (h : w.Sound) : w.stop.Sound where
  isTable := w.poll.isTable_clearFds
  keys := h.keys
  owned _ _ hany := by cases hany
  once := List.nodup_nil
  slots _ he := by cases he
  readable _ he := by cases he
  writable _ he := by cases he

/-- The events that are left after the first. -/
theorem Sound.next {event : PollEvent} {events : List PollEvent} (h : w.Sound)
    (hhandling : w.handling = some (event :: events)) :
    { w with handling := some events }.Sound ∧ 0 ≤ event.fd ∧
      ∀ e ∈ events, e.fd ≠ event.fd := by
  have hpending : w.pending = event :: events := by rw [pending, hhandling, Option.getD_some]
  have hmem : ∀ e ∈ events, e ∈ w.pending := fun e he => hpending ▸ List.mem_cons_of_mem _ he
  have honce := h.once
  rw [hpending, List.map_cons, List.nodup_cons] at honce
  refine ⟨⟨h.isTable, h.keys, h.owned, honce.2, fun e he => h.slots e (hmem e he),
    fun e he => h.readable e (hmem e he), fun e he => h.writable e (hmem e he)⟩,
    (h.slots event (hpending ▸ List.mem_cons_self)).1, fun e he heq => honce.1 ?_⟩
  exact heq ▸ List.mem_map_of_mem he

theorem Sound.handleEvent (h : w.Sound) {answer : Answer} (hsocket : answer.socket ≠ w.socket)
    {event : PollEvent} (hfd : 0 ≤ event.fd) (hnone : ∀ e ∈ w.pending, e.fd ≠ event.fd) :
    (w.handleEvent answer event).Sound := by
  rw [World.handleEvent]
  split
  · split
    · exact h.handleNewClient hsocket answer.tlsAccept
    · split
      · exact h.stop
      · exact h
  · rename_i hne
    split
    · exact h.handleClientRead hfd hne hnone answer.received
    · split
      · exact h.handleClientWrite hfd hne hnone answer.stopped
      · exact h

/-- A poll that returns tells of the interests of the table. -/
theorem Sound.polled (h : w.Sound) {revents : List (BitVec 16)}
    (hanswer : w.poll.IsAnswer revents = true) (hw' : w'.poll = w.poll)
    (hsocket : w'.socket = w.socket) (hmap : w'.clientMap = w.clientMap)
    (hhandling : w'.handling = some (w.poll.processPollResults revents)) : w'.Sound := by
  have hpending : w'.pending = w.poll.processPollResults revents := by
    rw [pending, hhandling, Option.getD_some]
  refine ⟨hw' ▸ h.isTable, ?_, ?_, ?_, ?_, ?_, ?_⟩
  · rw [hmap, hsocket]
    exact h.keys
  · rw [hw', hmap, hsocket]
    exact h.owned
  · rw [hpending]
    exact h.isTable.events_nodup hanswer
  · rw [hpending, hw']
    exact fun e he => ⟨(h.isTable.event hanswer he).1, (h.isTable.event hanswer he).2.1⟩
  · rw [hpending, hw']
    exact fun e he hreadable _ _ => (h.isTable.event hanswer he).2.2.1 hreadable
  · rw [hpending, hw']
    exact fun e he hwritable _ _ => .inl ((h.isTable.event hanswer he).2.2.2 hwritable)

theorem Sound.step (h : w.Sound) {a : Action} (hstep : w.step a = some w')
    (hdefined : w'.crashed = false) : w'.Sound := by
  unfold World.step at hstep
  split at hstep
  · cases hstep
  · cases a with
    | poll revents =>
      dsimp only at hstep
      split at hstep
      · rename_i hpoll
        obtain rfl := Option.some.inj hstep
        exact h.polled hpoll.2.2 rfl rfl rfl rfl
      · cases hstep
    | handle answer =>
      dsimp only at hstep
      split at hstep
      · rename_i event events hhandling
        split at hstep
        · rename_i hanswer
          obtain rfl := Option.some.inj hstep
          obtain ⟨hnext, hfd, hnone⟩ := h.next hhandling
          exact hnext.handleEvent hanswer.1 hfd hnone
        · cases hstep
      · cases hstep
    | afterActivity =>
      dsimp only at hstep
      split at hstep
      · obtain rfl := Option.some.inj hstep
        exact ⟨h.isTable, h.keys, h.owned, List.nodup_nil, fun _ he => (by cases he),
          fun _ he => (by cases he), fun _ he => (by cases he)⟩
      · cases hstep
    | sendToClient socket id arr =>
      obtain rfl := Option.some.inj hstep
      exact h.sendToClient hdefined
    | sendToSocket socket arr =>
      obtain rfl := Option.some.inj hstep
      rw [World.sendToSocket] at hdefined ⊢
      split
      · exact h
      · rename_i client hc
        rw [hc] at hdefined
        exact h.sendToClient hdefined
    | removeClient socket id =>
      obtain rfl := Option.some.inj hstep
      exact h.removeClient hdefined
    | removeSocket socket =>
      obtain rfl := Option.some.inj hstep
      rw [World.removeSocket] at hdefined ⊢
      split
      · exact h
      · rename_i client hc
        rw [hc] at hdefined
        exact h.removeClient hdefined

end Steps

end World

end Sihd.Net
