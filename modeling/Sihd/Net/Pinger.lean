import Mathlib.Data.List.Range
import Mathlib.Tactic.Linarith
import Sihd.Lib.Transition
import Sihd.Net.IcmpSender

/-!
# Counting the replies to pings

A pinger sends one echo request after the other and polls for its reply in
between. A poll gives one ICMP message, from whoever sent it; the wait for a ping
is over with the first message that carries the id and the number of the ping,
with a poll that finds nothing, or when the pinger is stopped.
-/

namespace Sihd.Net

open IcmpSender Transition

namespace Pinger

/-! ## Messages -/

/-- An echo, an echo reply or an exceeded time, received as a whole over IPv4. -/
structure Datagram where
  buf : Nat → UInt8
  byteSize : UInt64
  protocol : buf 9 = 1
  taken : IsTaken buf icmpTypes (headerLength buf 0)
  complete : CompleteIpv4 buf byteSize

namespace Datagram

variable (d : Datagram)

/-- The offset of the message. -/
def header : Nat := headerLength d.buf 0

/-- The offset of the message that the response is about: the one quoted by an
exceeded time. -/
def described : Nat :=
  if IsExceeded d.buf icmpTypes d.header then
    d.header + 8 + headerLength d.buf (d.header + 8)
  else d.header

def idAt (offset : Nat) : UInt16 :=
  (d.buf (offset + 4)).toUInt16 <<< 8 ||| (d.buf (offset + 5)).toUInt16

def seqAt (offset : Nat) : UInt16 :=
  (d.buf (offset + 6)).toUInt16 <<< 8 ||| (d.buf (offset + 7)).toUInt16

/-- The message carries or quotes an id and the number of a ping. -/
def Carries (id : UInt16) (number : Nat) : Prop :=
  d.idAt d.described = id ∧ (d.seqAt d.described).toNat = number

/-- A message with the room for a timestamp behind the header that it carries or
quotes. -/
def HasTimestamp : Prop := d.described + 16 ≤ d.byteSize.toNat

/-- An echo reply to a ping, with at least a timestamp of payload. -/
def IsReply (id : UInt16) (number : Nat) : Prop :=
  d.buf d.header = icmpTypes.echoReply ∧ d.idAt d.header = id ∧
    (d.seqAt d.header).toNat = number % 65536 ∧ d.header + 16 ≤ d.byteSize.toNat

instance (id : UInt16) (number : Nat) : Decidable (d.Carries id number) :=
  inferInstanceAs (Decidable (_ ∧ _))

instance : Decidable d.HasTimestamp := inferInstanceAs (Decidable (_ ≤ _))

instance (id : UInt16) (number : Nat) : Decidable (d.IsReply id number) :=
  inferInstanceAs (Decidable (_ ∧ _))

variable {d} {id : UInt16} {number : Nat}

theorem exists_response (d : Datagram) :
    d.described + 8 ≤ d.byteSize.toNat ∧
      ∃ ttl, (readSocket d.buf d.byteSize .ipv4Raw []).1 =
        some (responseAt d.buf d.byteSize d.described ttl) := by
  have hsize : 0 < d.byteSize := by
    rw [UInt64.lt_iff_toNat_lt]
    exact lt_of_lt_of_le (by decide) d.complete.protocol
  unfold readSocket described header
  rw [if_pos hsize]
  by_cases hexceeded : IsExceeded d.buf icmpTypes (headerLength d.buf 0)
  · obtain ⟨window, hreads, -⟩ :=
      @reads_processIpv4_exceeded d.buf d.byteSize d.protocol hexceeded
    rw [if_pos hexceeded]
    exact ⟨(d.complete.quoted hexceeded).2, _, hreads.value_eq []⟩
  · obtain ⟨window, hreads, -⟩ :=
      @reads_processIpv4_echo d.buf d.byteSize d.protocol d.taken hexceeded
    rw [if_neg hexceeded]
    exact ⟨d.complete.header, _, hreads.value_eq []⟩

theorem IsReply.described_eq (h : d.IsReply id number) : d.described = d.header := by
  refine if_neg fun hexceeded => ?_
  have htype := h.1.symm.trans hexceeded.1
  exact absurd htype (by decide)

theorem IsReply.carries (h : d.IsReply id number) (hnumber : number < 65536) :
    d.Carries id number := by
  unfold Carries
  rw [h.described_eq, h.2.1, h.2.2.1, Nat.mod_eq_of_lt hnumber]
  exact ⟨rfl, rfl⟩

theorem IsReply.hasTimestamp (h : d.IsReply id number) : d.HasTimestamp := by
  unfold HasTimestamp
  rw [h.described_eq]
  exact h.2.2.2

theorem Carries.lt (h : d.Carries id number) : number < 65536 := h.2 ▸ UInt16.toNat_lt _

end Datagram

/-! ## The loop of `on_start` -/

inductive Pc
  | head
  | awaiting
  | done
  deriving DecidableEq

/-- `i` counts the pings whose wait is over; `timeouts` are the numbers of those that
`_notify_timeout` was called for. -/
structure State where
  kind : SocketKind
  pingCount : Nat
  expectedId : UInt16
  i : Nat := 0
  currentSeq : Int := 0
  receivedIcmpResponse : Bool := false
  stop : Bool := false
  transmitted : Int := 0
  received : Int := 0
  timeouts : List Nat := []
  pc : Pc := .head

/-- What happens next: `leave` and `finish` are the ends of the two loops, and a poll
without a message has handled something else. -/
inductive Event
  | send (ok : Bool)
  | poll (message : Option Datagram)
  | silence
  | leave
  | finish
  | stop

/-- An `int`. -/
@[irreducible] def toInt (x : Int) : Int := Int.bmod x (2 ^ 32)

def handle (s : State) (response : IcmpResponse) : State :=
  if s.currentSeq ≠ response.seq.toNat then s
  else
    -- the first response over IPv6: its id is the kernel's
    let s := if s.kind ≠ .ipv4Raw ∧ response.seq = 1 then { s with expectedId := response.id } else s
    if s.expectedId ≠ response.id then s
    else
      let s := { s with receivedIcmpResponse := true }
      if response.size < 8 then s else { s with received := toInt (s.received + 1) }

/-- What follows the inner loop. -/
def endWait (s : State) : State :=
  { s with
    timeouts := if s.receivedIcmpResponse then s.timeouts else s.timeouts ++ [s.i + 1]
    i := s.i + 1
    pc := .head }

/-- The condition of the inner loop, behind a poll. -/
def afterPoll (s : State) : State :=
  if s.stop = false ∧ s.receivedIcmpResponse = false then s else endWait s

/-- The condition of the outer loop. -/
def goesOn (s : State) : Bool := !s.stop && (s.pingCount == 0 || s.i < s.pingCount)

def step (s : State) : Event → Option State
  | .send ok =>
      if s.pc = .head ∧ goesOn s = true then
        let s := { s with currentSeq := toInt ((s.i : Int) + 1) }
        if ok then
          some { s with
            transmitted := toInt (s.transmitted + 1)
            receivedIcmpResponse := false
            pc := .awaiting }
        else some { s with pc := .done }
      else none
  | .poll message =>
      if s.pc = .awaiting then
        match message.bind fun d => (readSocket d.buf d.byteSize s.kind []).1 with
        | some response => some (afterPoll (handle s response))
        | none => some (afterPoll s)
      else none
  | .silence => if s.pc = .awaiting then some (endWait s) else none
  | .leave => if s.pc = .awaiting ∧ s.stop = true then some (endWait s) else none
  | .finish => if s.pc = .head ∧ goesOn s = false then some { s with pc := .done } else none
  | .stop => some { s with stop := true }

def start (kind : SocketKind) (id : UInt16) (pingCount : Nat) : State where
  kind := kind
  pingCount := pingCount
  expectedId := id

/-! ## What a run should count -/

def isSent : Event → Bool
  | .send ok => ok
  | _ => false

def delivered : Event → List Datagram
  | .poll (some d) => [d]
  | _ => []

/-- The number of pings. -/
def sent (events : List Event) : Nat := events.countP isSent

/-- What is delivered when a ping is the last one that was sent, behind other pings. -/
def windowFrom (number : Nat) : Nat → List Event → List Datagram
  | _, [] => []
  | k, e :: events =>
      (if k = number then delivered e else []) ++
        windowFrom number (k + if isSent e then 1 else 0) events

/-- What is delivered while a ping is awaited. -/
def window (events : List Event) (number : Nat) : List Datagram := windowFrom number 0 events

def Answered (id : UInt16) (events : List Event) (number : Nat) : Prop :=
  ∃ d ∈ window events number, d.IsReply id number

instance (id : UInt16) (events : List Event) (number : Nat) :
    Decidable (Answered id events number) :=
  inferInstanceAs (Decidable (∃ d ∈ _, _))

/-- The pings whose wait is over. -/
def ended (events : List Event) (s : State) : List Nat :=
  List.range' 1 (if s.pc = .awaiting then sent events - 1 else sent events)

structure CountsReplies (id : UInt16) (events : List Event) (s : State) : Prop where
  received : s.received = (ended events s).countP fun number => decide (Answered id events number)
  timeouts : s.timeouts = (ended events s).filter fun number => decide (¬ Answered id events number)
  received_le : s.received ≤ s.transmitted

/-- The number of a ping fits the wire, and a message that carries it with the id is a
reply; or the number does not fit, and there is no reply. -/
def Settled (id : UInt16) (number : Nat) (window : List Datagram) : Prop :=
  if number < 65536 then ∀ d ∈ window, d.Carries id number → d.IsReply id number
  else ∀ d ∈ window, ¬ d.IsReply id number

variable {id : UInt16} {pingCount number : Nat} {events : List Event} {e : Event} {s s' : State}

theorem sent_concat (events : List Event) (e : Event) :
    sent (events ++ [e]) = sent events + if isSent e then 1 else 0 := by
  simp [sent, List.countP_cons]

theorem windowFrom_append (number k : Nat) (events events' : List Event) :
    windowFrom number k (events ++ events') =
      windowFrom number k events ++ windowFrom number (k + sent events) events' := by
  induction events generalizing k with
  | nil => simp [windowFrom, sent]
  | cons e events ih =>
    have hsent : k + (if isSent e then 1 else 0) + sent events = k + sent (e :: events) := by
      simp only [sent, List.countP_cons]
      omega
    rw [List.cons_append, windowFrom, ih, windowFrom, hsent, List.append_assoc]

theorem window_concat (events : List Event) (e : Event) (number : Nat) :
    window (events ++ [e]) number =
      window events number ++ if sent events = number then delivered e else [] := by
  simp [window, windowFrom_append, windowFrom]

/-! ## What a run counts -/

/-- A message that carries the number of a ping, with a timestamp behind it. -/
def Counted (id : UInt16) (events : List Event) (number : Nat) : Prop :=
  ∃ d ∈ window events number, d.Carries id number ∧ d.HasTimestamp

def Matched (id : UInt16) (events : List Event) (number : Nat) : Prop :=
  ∃ d ∈ window events number, d.Carries id number

instance (id : UInt16) (events : List Event) (number : Nat) :
    Decidable (Counted id events number) :=
  inferInstanceAs (Decidable (∃ d ∈ _, _))

instance (id : UInt16) (events : List Event) (number : Nat) :
    Decidable (Matched id events number) :=
  inferInstanceAs (Decidable (∃ d ∈ _, _))

theorem counted_congr {events' : List Event} {number : Nat}
    (h : window events' number = window events number) :
    Counted id events' number ↔ Counted id events number := by
  unfold Counted
  rw [h]

theorem matched_congr {events' : List Event} {number : Nat}
    (h : window events' number = window events number) :
    Matched id events' number ↔ Matched id events number := by
  unfold Matched
  rw [h]

theorem countP_counted_congr {events' : List Event} {numbers : List Nat}
    (h : ∀ number ∈ numbers, window events' number = window events number) :
    numbers.countP (fun number => decide (Counted id events' number)) =
      numbers.countP fun number => decide (Counted id events number) :=
  List.countP_congr fun number hnumber => by
    rw [decide_eq_true_iff, decide_eq_true_iff, counted_congr (h number hnumber)]

theorem filter_matched_congr {events' : List Event} {numbers : List Nat}
    (h : ∀ number ∈ numbers, window events' number = window events number) :
    numbers.filter (fun number => decide (¬ Matched id events' number)) =
      numbers.filter fun number => decide (¬ Matched id events number) :=
  List.filter_congr fun number hnumber =>
    decide_eq_decide.mpr (not_congr (matched_congr (h number hnumber)))

structure Inv (id : UInt16) (events : List Event) (s : State) : Prop where
  kind : s.kind = .ipv4Raw
  expectedId : s.expectedId = id
  i_add : s.i + (if s.pc = .awaiting then 1 else 0) = sent events
  transmitted : s.transmitted = sent events
  received : s.received =
    (List.range' 1 s.i).countP fun number => decide (Counted id events number)
  timeouts : s.timeouts =
    (List.range' 1 s.i).filter fun number => decide (¬ Matched id events number)
  awaiting : s.pc = .awaiting →
    s.currentSeq = sent events ∧ s.receivedIcmpResponse = false ∧
      ¬ Matched id events (sent events)
  single : ∀ number w d w', window events number = w ++ d :: w' → d.Carries id number → w' = []
  empty : ∀ number, sent events < number → window events number = []

theorem toInt_natCast {n : Nat} (h : n < 2 ^ 31) : toInt n = n := by
  unfold toInt
  exact Int.bmod_eq_of_le (by omega) (by omega)

theorem Inv.i_le (h : Inv id events s) : s.i ≤ sent events := by
  rw [← h.i_add]
  exact Nat.le_add_right _ _

/-- The ping that is awaited. -/
theorem Inv.i_succ (h : Inv id events s) (hpc : s.pc = .awaiting) : s.i + 1 = sent events := by
  rw [← h.i_add, if_pos hpc]

theorem Inv.i_eq (h : Inv id events s) (hpc : s.pc = .head) : s.i = sent events := by
  rw [← h.i_add, if_neg (by simp [hpc]), Nat.add_zero]

theorem Inv.range'_succ (h : Inv id events s) (hpc : s.pc = .awaiting) :
    List.range' 1 (s.i + 1) = List.range' 1 s.i ++ [sent events] := by
  rw [List.range'_1_concat, Nat.add_comm 1, h.i_succ hpc]

theorem Inv.ended_eq (h : Inv id events s) : ended events s = List.range' 1 s.i := by
  have hi := h.i_add
  unfold ended
  split at hi
  · rename_i hpc
    rw [if_pos hpc, ← hi, Nat.add_sub_cancel]
  · rename_i hpc
    rw [if_neg hpc, ← hi, Nat.add_zero]

theorem countP_counted_le (id : UInt16) (events : List Event) (i : Nat) :
    (List.range' 1 i).countP (fun number => decide (Counted id events number)) ≤ i := by
  calc (List.range' 1 i).countP (fun number => decide (Counted id events number))
      ≤ (List.range' 1 i).length := List.countP_le_length
    _ = i := List.length_range'

theorem inv_start (id : UInt16) (pingCount : Nat) :
    Inv id [] (start .ipv4Raw id pingCount) where
  kind := rfl
  expectedId := rfl
  i_add := rfl
  transmitted := rfl
  received := rfl
  timeouts := rfl
  awaiting hpc := by cases hpc
  single number w d w' hwindow := by simp [window, windowFrom] at hwindow
  empty _ _ := rfl

/-- The wait for a ping that no message carried. -/
theorem Inv.endWait (h : Inv id events s) (hpc : s.pc = .awaiting) :
    Inv id events (endWait s) := by
  obtain ⟨hseq, hflag, hmatched⟩ := h.awaiting hpc
  have hcounted : ¬ Counted id events (sent events) :=
    fun ⟨d, hd, hcarries, _⟩ => hmatched ⟨d, hd, hcarries⟩
  refine ⟨h.kind, h.expectedId, h.i_succ hpc, h.transmitted, ?_, ?_,
    fun hhead => (by cases hhead), h.single, h.empty⟩
  · change s.received = _
    rw [h.received]
    change _ = ((List.countP _ (List.range' 1 (s.i + 1)) : Nat) : Int)
    rw [h.range'_succ hpc, List.countP_append]
    simp [hcounted]
  · change (if s.receivedIcmpResponse then s.timeouts else s.timeouts ++ [s.i + 1]) =
      List.filter _ (List.range' 1 (s.i + 1))
    rw [hflag, if_neg Bool.false_ne_true, h.range'_succ hpc, List.filter_append, h.timeouts,
      h.i_succ hpc]
    simp [hmatched]

theorem Inv.congr {events' : List Event} (h : Inv id events s) (hsent : sent events' = sent events)
    (hwindow : window events' = window events) : Inv id events' s := by
  refine ⟨h.kind, h.expectedId, hsent ▸ h.i_add, hsent ▸ h.transmitted, ?_, ?_, ?_, ?_, ?_⟩
  · rw [h.received, countP_counted_congr fun number _ => by rw [hwindow]]
  · rw [h.timeouts, filter_matched_congr fun number _ => by rw [hwindow]]
  · rw [hsent, matched_congr (congrFun hwindow _)]
    exact h.awaiting
  · rw [hwindow]
    exact h.single
  · rw [hsent, hwindow]
    exact h.empty

/-- An event that sends no ping and delivers no message. -/
theorem Inv.quiet (h : Inv id events s) (hsent : isSent e = false) (hdelivered : delivered e = []) :
    Inv id (events ++ [e]) s := by
  refine h.congr (by simp [sent_concat, hsent]) ?_
  ext number
  simp [window_concat, hdelivered]

section Poll

variable {d : Datagram} {ttl : UInt8}

theorem response_size_lt_iff (d : Datagram) (ttl : UInt8) :
    (responseAt d.buf d.byteSize d.described ttl).size < 8 ↔ ¬ d.HasTimestamp := by
  have hle := d.exists_response.1
  have hlt := d.byteSize.toNat_lt
  have hoffset : (UInt64.ofNat (d.described + 8)).toNat = d.described + 8 :=
    UInt64.toNat_ofNat_of_lt' (lt_of_le_of_lt hle hlt)
  have hsize : (responseAt d.buf d.byteSize d.described ttl).size.toNat =
      d.byteSize.toNat - (d.described + 8) := by
    change (d.byteSize - UInt64.ofNat (d.described + 8)).toNat = _
    rw [UInt64.toNat_sub_of_le _ _ (by rw [UInt64.le_iff_toNat_le, hoffset]; exact hle), hoffset]
  have height : (8 : UInt64).toNat = 8 := rfl
  rw [UInt64.lt_iff_toNat_lt, hsize, height, Datagram.HasTimestamp]
  omega

theorem handle_of_not_carries (hkind : s.kind = .ipv4Raw) {number : Nat}
    (hseq : s.currentSeq = number) (h : ¬ d.Carries s.expectedId number) :
    handle s (responseAt d.buf d.byteSize d.described ttl) = s := by
  unfold handle
  split
  · rfl
  · rename_i hnumber
    have hid : s.expectedId ≠ (responseAt d.buf d.byteSize d.described ttl).id := by
      intro hid
      rw [hseq, ne_eq, not_not, Nat.cast_inj] at hnumber
      exact h ⟨hid.symm, hnumber.symm⟩
    simp [hkind, hid]

theorem handle_of_carries (hkind : s.kind = .ipv4Raw) {number : Nat}
    (hseq : s.currentSeq = number) (h : d.Carries s.expectedId number) :
    handle s (responseAt d.buf d.byteSize d.described ttl) =
      { s with
        receivedIcmpResponse := true
        received := if d.HasTimestamp then toInt (s.received + 1) else s.received } := by
  have hnumber : s.currentSeq = (responseAt d.buf d.byteSize d.described ttl).seq.toNat := by
    rw [hseq, Nat.cast_inj]
    exact h.2.symm
  have hid : s.expectedId = (responseAt d.buf d.byteSize d.described ttl).id := h.1.symm
  unfold handle
  rw [if_neg (by simpa using hnumber)]
  simp only [hkind, ne_eq, not_true_eq_false, false_and, if_false, ← hid, response_size_lt_iff]
  by_cases htimestamp : d.HasTimestamp
  · simp [htimestamp]
  · simp [htimestamp]

theorem Inv.window_poll (h : Inv id events s) (hpc : s.pc = .awaiting) {number : Nat}
    (hnumber : number ∈ List.range' 1 s.i) :
    window (events ++ [.poll (some d)]) number = window events number := by
  have hi := h.i_succ hpc
  rw [List.mem_range'_1] at hnumber
  rw [window_concat, if_neg (by omega), List.append_nil]

theorem Inv.single_poll (h : Inv id events s) (hmatched : ¬ Matched id events (sent events)) :
    ∀ number w d' w', window (events ++ [.poll (some d)]) number = w ++ d' :: w' →
      d'.Carries id number → w' = [] := by
  intro number w d' w' hwindow hcarries
  rw [window_concat] at hwindow
  split at hwindow
  · rename_i hnumber
    subst hnumber
    rcases List.eq_nil_or_concat w' with rfl | ⟨u, x, rfl⟩
    · rfl
    · have hsplit : window events (sent events) ++ [d] = (w ++ d' :: u) ++ [x] := by
        simpa [delivered] using hwindow
      obtain ⟨hevents, -⟩ := List.append_inj' hsplit rfl
      exact absurd ⟨d', by simp [hevents], hcarries⟩ hmatched
  · rw [List.append_nil] at hwindow
    exact h.single number w d' w' hwindow hcarries

theorem Inv.poll_of_not_carries (h : Inv id events s) (hpc : s.pc = .awaiting)
    (hcarries : ¬ d.Carries id (sent events)) : Inv id (events ++ [.poll (some d)]) s := by
  obtain ⟨hseq, hflag, hmatched⟩ := h.awaiting hpc
  have hsent : sent (events ++ [.poll (some d)]) = sent events := by simp [sent_concat, isSent]
  refine ⟨h.kind, h.expectedId, hsent ▸ h.i_add, hsent ▸ h.transmitted, ?_, ?_, fun _ => ?_,
    h.single_poll hmatched, fun number hnumber => ?_⟩
  · rw [h.received, countP_counted_congr fun number hnumber => h.window_poll hpc hnumber]
  · rw [h.timeouts, filter_matched_congr fun number hnumber => h.window_poll hpc hnumber]
  · rw [hsent]
    refine ⟨hseq, hflag, ?_⟩
    rintro ⟨d', hd', hcarries'⟩
    rw [window_concat, if_pos rfl, List.mem_append] at hd'
    rcases hd' with hd' | hd'
    · exact hmatched ⟨d', hd', hcarries'⟩
    · obtain rfl := List.mem_singleton.mp hd'
      exact hcarries hcarries'
  · rw [hsent] at hnumber
    rw [window_concat, if_neg (by omega), List.append_nil, h.empty number hnumber]

theorem Inv.poll_of_carries (h : Inv id events s) (hpc : s.pc = .awaiting)
    (hlt : sent events < 2 ^ 31) (hcarries : d.Carries id (sent events)) :
    Inv id (events ++ [.poll (some d)])
      (Pinger.endWait { s with
        receivedIcmpResponse := true
        received := if d.HasTimestamp then toInt (s.received + 1) else s.received }) := by
  obtain ⟨hseq, hflag, hmatched⟩ := h.awaiting hpc
  have hsent : sent (events ++ [.poll (some d)]) = sent events := by simp [sent_concat, isSent]
  have hwindow : window (events ++ [.poll (some d)]) (sent events) =
      window events (sent events) ++ [d] := by
    rw [window_concat, if_pos rfl]
    rfl
  have hmatched' : Matched id (events ++ [.poll (some d)]) (sent events) :=
    ⟨d, by simp [hwindow], hcarries⟩
  have hcounted : Counted id (events ++ [.poll (some d)]) (sent events) ↔ d.HasTimestamp := by
    constructor
    · rintro ⟨d', hd', hcarries', htimestamp⟩
      rw [hwindow, List.mem_append] at hd'
      rcases hd' with hd' | hd'
      · exact absurd ⟨d', hd', hcarries'⟩ hmatched
      · obtain rfl := List.mem_singleton.mp hd'
        exact htimestamp
    · exact fun htimestamp => ⟨d, by simp [hwindow], hcarries, htimestamp⟩
  refine ⟨h.kind, h.expectedId, hsent ▸ h.i_succ hpc, hsent ▸ h.transmitted, ?_, ?_,
    fun hhead => (by cases hhead), h.single_poll hmatched, fun number hnumber => ?_⟩
  · have hle := countP_counted_le id events s.i
    have hi := h.i_succ hpc
    change (if d.HasTimestamp then toInt (s.received + 1) else s.received) =
      ((List.countP _ (List.range' 1 (s.i + 1)) : Nat) : Int)
    rw [h.range'_succ hpc, List.countP_append,
      countP_counted_congr fun number hnumber => h.window_poll hpc hnumber, h.received]
    by_cases htimestamp : d.HasTimestamp
    · rw [if_pos htimestamp, ← Nat.cast_succ, toInt_natCast (by omega)]
      simp [hcounted, htimestamp]
    · simp [hcounted, htimestamp]
  · change s.timeouts = List.filter _ (List.range' 1 (s.i + 1))
    rw [h.range'_succ hpc, List.filter_append,
      filter_matched_congr fun number hnumber => h.window_poll hpc hnumber, h.timeouts]
    simp [hmatched']
  · rw [hsent] at hnumber
    rw [window_concat, if_neg (by omega), List.append_nil, h.empty number hnumber]

end Poll

theorem Inv.stop (h : Inv id events s) : Inv id events { s with stop := true } :=
  ⟨h.kind, h.expectedId, h.i_add, h.transmitted, h.received, h.timeouts, h.awaiting, h.single,
    h.empty⟩

theorem Inv.finish (h : Inv id events s) (hpc : s.pc = .head) (currentSeq : Int) :
    Inv id events { s with currentSeq := currentSeq, pc := .done } := by
  refine ⟨h.kind, h.expectedId, ?_, h.transmitted, h.received, h.timeouts,
    fun hdone => (by cases hdone), h.single, h.empty⟩
  exact h.i_eq hpc

theorem Inv.send (h : Inv id events s) (hpc : s.pc = .head) (hlt : sent events + 1 < 2 ^ 31) :
    Inv id (events ++ [.send true]) { s with
      currentSeq := toInt ((s.i : Int) + 1)
      transmitted := toInt (s.transmitted + 1)
      receivedIcmpResponse := false
      pc := .awaiting } := by
  have hsent : sent (events ++ [.send true]) = sent events + 1 := by simp [sent_concat, isSent]
  have hwindow : window (events ++ [.send true]) = window events := by
    ext number
    simp [window_concat, delivered]
  have hi := h.i_eq hpc
  refine ⟨h.kind, h.expectedId, ?_, ?_, ?_, ?_, fun _ => ⟨?_, rfl, ?_⟩, ?_, fun number hnumber => ?_⟩
  · rw [hsent, ← hi]
    rfl
  · change toInt (s.transmitted + 1) = _
    rw [h.transmitted, hsent, ← Nat.cast_succ, toInt_natCast hlt]
  · rw [h.received, countP_counted_congr fun number _ => by rw [hwindow]]
  · rw [h.timeouts, filter_matched_congr fun number _ => by rw [hwindow]]
  · change toInt ((s.i : Int) + 1) = _
    rw [hsent, hi, ← Nat.cast_succ, toInt_natCast hlt]
  · rintro ⟨d, hd, -⟩
    rw [hsent, hwindow, h.empty _ (Nat.lt_succ_self _)] at hd
    cases hd
  · rw [hwindow]
    exact h.single
  · rw [hsent] at hnumber
    rw [hwindow, h.empty number (by omega)]

theorem afterPoll_of_received (h : s.receivedIcmpResponse = true) : afterPoll s = endWait s :=
  if_neg (by simp [h])

theorem Inv.afterPoll (h : Inv id events s) (hpc : s.pc = .awaiting) :
    Inv id events (afterPoll s) := by
  unfold Pinger.afterPoll
  split
  · exact h
  · exact h.endWait hpc

theorem inv_step (h : Inv id events s) (hstep : step s e = some s')
    (hlt : sent (events ++ [e]) < 2 ^ 31) : Inv id (events ++ [e]) s' := by
  cases e with
  | send ok =>
    obtain ⟨⟨hpc, -⟩, hs⟩ := Option.ite_none_right_eq_some.mp hstep
    cases ok with
    | true =>
      rw [sent_concat] at hlt
      cases hs
      exact h.send hpc hlt
    | false =>
      cases hs
      exact (h.finish hpc _).quiet rfl rfl
  | poll message =>
    obtain ⟨hpc, hs⟩ := Option.ite_none_right_eq_some.mp hstep
    cases message with
    | none =>
      cases hs
      exact (h.afterPoll hpc).quiet rfl rfl
    | some d =>
      obtain ⟨hseq, hflag, -⟩ := h.awaiting hpc
      obtain ⟨-, ttl, hresponse⟩ := d.exists_response
      rw [Option.bind_some, h.kind, hresponse] at hs
      dsimp only at hs
      rw [Option.some.injEq] at hs
      subst hs
      by_cases hcarries : d.Carries id (sent events)
      · rw [handle_of_carries h.kind hseq (by rwa [h.expectedId])]
        rw [afterPoll_of_received rfl]
        rw [sent_concat] at hlt
        exact h.poll_of_carries hpc (by omega) hcarries
      · rw [handle_of_not_carries h.kind hseq (by rwa [h.expectedId])]
        exact (h.poll_of_not_carries hpc hcarries).afterPoll hpc
  | silence =>
    obtain ⟨hpc, hs⟩ := Option.ite_none_right_eq_some.mp hstep
    cases hs
    exact (h.endWait hpc).quiet rfl rfl
  | leave =>
    obtain ⟨⟨hpc, -⟩, hs⟩ := Option.ite_none_right_eq_some.mp hstep
    cases hs
    exact (h.endWait hpc).quiet rfl rfl
  | finish =>
    obtain ⟨⟨hpc, -⟩, hs⟩ := Option.ite_none_right_eq_some.mp hstep
    cases hs
    exact (h.finish hpc _).quiet rfl rfl
  | stop =>
    cases hstep
    exact h.stop.quiet rfl rfl

/-! ## Runs -/

theorem handle_i (s : State) (response : IcmpResponse) : (handle s response).i = s.i := by
  unfold handle
  dsimp only
  split_ifs <;> rfl

theorem le_afterPoll_i (s : State) : s.i ≤ (afterPoll s).i := by
  unfold afterPoll
  split
  · exact le_rfl
  · exact Nat.le_succ _

theorem le_step_i (hstep : step s e = some s') : s.i ≤ s'.i := by
  cases e with
  | send ok =>
    obtain ⟨-, hs⟩ := Option.ite_none_right_eq_some.mp hstep
    cases ok with
    | true =>
      cases hs
      exact le_rfl
    | false =>
      cases hs
      exact le_rfl
  | poll message =>
    obtain ⟨-, hs⟩ := Option.ite_none_right_eq_some.mp hstep
    split at hs
    · cases hs
      calc s.i = (handle s _).i := (handle_i s _).symm
        _ ≤ _ := le_afterPoll_i _
    · cases hs
      exact le_afterPoll_i s
  | silence =>
    obtain ⟨-, hs⟩ := Option.ite_none_right_eq_some.mp hstep
    cases hs
    exact Nat.le_succ _
  | leave =>
    obtain ⟨-, hs⟩ := Option.ite_none_right_eq_some.mp hstep
    cases hs
    exact Nat.le_succ _
  | finish =>
    obtain ⟨-, hs⟩ := Option.ite_none_right_eq_some.mp hstep
    cases hs
    exact le_rfl
  | stop =>
    cases hstep
    exact le_rfl

/-- The windows of pings whose wait is over stay as they are. -/
theorem window_step (h : Inv id events s) (hstep : step s e = some s')
    (hnumber : number ∈ List.range' 1 s.i) :
    window (events ++ [e]) number = window events number := by
  cases e with
  | poll message =>
    obtain ⟨hpc, -⟩ := Option.ite_none_right_eq_some.mp hstep
    cases message with
    | none => simp [window_concat, delivered]
    | some d => exact h.window_poll hpc hnumber
  | _ => simp [window_concat, delivered]

theorem inv_runs {rest : List Event} (h : Inv id events s) (hruns : runs step s rest = some s')
    (hlt : sent (events ++ rest) < 2 ^ 31) :
    Inv id (events ++ rest) s' ∧ s.i ≤ s'.i ∧
      ∀ number ∈ List.range' 1 s.i, window (events ++ rest) number = window events number := by
  induction rest generalizing events s with
  | nil =>
    rw [runs_nil, Option.some.injEq] at hruns
    subst hruns
    simp [h]
  | cons e rest ih =>
    rw [runs_cons, Option.bind_eq_some_iff] at hruns
    obtain ⟨m, hstep, hrest⟩ := hruns
    rw [List.append_cons] at hlt ⊢
    have hprefix : sent (events ++ [e]) ≤ sent (events ++ [e] ++ rest) :=
      List.Sublist.countP_le (List.sublist_append_left _ _)
    obtain ⟨hinv, hle, hwindow⟩ := ih (inv_step h hstep (lt_of_le_of_lt hprefix hlt)) hrest hlt
    have hi := le_step_i hstep
    refine ⟨hinv, hi.trans hle, fun number hnumber => ?_⟩
    have hnumber' : number ∈ List.range' 1 m.i := by
      rw [List.mem_range'_1] at hnumber ⊢
      omega
    rw [hwindow number hnumber', window_step h hstep hnumber]

theorem Inv.eq_of_carries (h : Inv id events s) {d d' : Datagram}
    (hd : d ∈ window events number) (hcarries : d.Carries id number)
    (hd' : d' ∈ window events number) (hcarries' : d'.Carries id number) : d = d' := by
  obtain ⟨w, u, hw⟩ := List.append_of_mem hd
  obtain ⟨w', u', hw'⟩ := List.append_of_mem hd'
  obtain rfl := h.single number w d u hw hcarries
  obtain rfl := h.single number w' d' u' hw' hcarries'
  obtain ⟨-, heq⟩ := List.append_inj' (hw.symm.trans hw') rfl
  exact List.head_eq_of_cons_eq heq

/-- A ping is settled iff it times out exactly when it should. -/
theorem Inv.settled_iff (h : Inv id events s) (number : Nat) :
    Settled id number (window events number) ↔
      (Matched id events number ↔ Answered id events number) := by
  unfold Settled
  split
  · rename_i hnumber
    constructor
    · intro hsettled
      constructor
      · rintro ⟨d, hd, hcarries⟩
        exact ⟨d, hd, hsettled d hd hcarries⟩
      · rintro ⟨d, hd, hreply⟩
        exact ⟨d, hd, hreply.carries hnumber⟩
    · intro hiff d hd hcarries
      obtain ⟨d', hd', hreply⟩ := hiff.mp ⟨d, hd, hcarries⟩
      rwa [h.eq_of_carries hd hcarries hd' (hreply.carries hnumber)]
  · rename_i hnumber
    have hmatched : ¬ Matched id events number := fun ⟨d, _, hcarries⟩ => hnumber hcarries.lt
    simp only [hmatched, false_iff, Answered, not_exists, not_and]

theorem Settled.counted_iff (h : Settled id number (window events number)) :
    Counted id events number ↔ Answered id events number := by
  unfold Settled at h
  split at h
  · rename_i hnumber
    constructor
    · rintro ⟨d, hd, hcarries, -⟩
      exact ⟨d, hd, h d hd hcarries⟩
    · rintro ⟨d, hd, hreply⟩
      exact ⟨d, hd, hreply.carries hnumber, hreply.hasTimestamp⟩
  · rename_i hnumber
    constructor
    · rintro ⟨d, -, hcarries, -⟩
      exact absurd hcarries.lt hnumber
    · rintro ⟨d, hd, hreply⟩
      exact absurd hreply (h d hd)

theorem Inv.countsReplies_iff_ended (h : Inv id events s) :
    CountsReplies id events s ↔
      ∀ number ∈ ended events s, Settled id number (window events number) := by
  rw [h.ended_eq]
  constructor
  · intro hcounts number hnumber
    have htimeouts := hcounts.timeouts
    rw [h.timeouts, h.ended_eq] at htimeouts
    rw [h.settled_iff]
    have hmem := congrArg (number ∈ ·) htimeouts
    simp only [List.mem_filter, hnumber, true_and, decide_eq_true_iff, eq_iff_iff] at hmem
    exact not_iff_not.mp hmem
  · intro hsettled
    refine ⟨?_, ?_, ?_⟩
    · rw [h.received, h.ended_eq, Nat.cast_inj]
      exact List.countP_congr fun number hnumber => by
        rw [decide_eq_true_iff, decide_eq_true_iff, (hsettled number hnumber).counted_iff]
    · rw [h.timeouts, h.ended_eq]
      exact List.filter_congr fun number hnumber =>
        decide_eq_decide.mpr (not_congr ((h.settled_iff number).mp (hsettled number hnumber)))
    · rw [h.received, h.transmitted]
      exact_mod_cast (countP_counted_le id events s.i).trans h.i_le

theorem exists_send {k : Nat} (hlt : k < sent events) :
    ∃ events' rest, events = events' ++ .send true :: rest ∧ sent events' = k := by
  induction events generalizing k with
  | nil => cases hlt
  | cons e events ih =>
    by_cases he : isSent e = true
    · cases k with
      | zero =>
        refine ⟨[], events, ?_, rfl⟩
        cases e with
        | send ok => rw [show ok = true from he, List.nil_append]
        | _ => cases he
      | succ k =>
        have hevents : k < sent events := by
          rw [sent, List.countP_cons_of_pos he] at hlt
          exact Nat.lt_of_succ_lt_succ hlt
        obtain ⟨events', rest, rfl, hk⟩ := ih hevents
        exact ⟨e :: events', rest, rfl, by rw [sent, List.countP_cons_of_pos he, ← hk, sent]⟩
    · have hevents : k < sent events := by
        rwa [sent, List.countP_cons_of_neg he] at hlt
      obtain ⟨events', rest, rfl, hk⟩ := ih hevents
      exact ⟨e :: events', rest, rfl, by rw [sent, List.countP_cons_of_neg he, ← hk, sent]⟩

theorem inv_of_runs (hruns : runs step (start .ipv4Raw id pingCount) events = some s)
    (hlt : sent events < 2 ^ 31) : Inv id events s :=
  (inv_runs (inv_start id pingCount) hruns hlt).1

/-- The counter of an `int` overflows. -/
theorem not_received_le {m : State} (h : Inv id events s) (hsent : sent events + 1 = 2 ^ 31)
    (hstep : step s (.send true) = some m) : ¬ m.received ≤ m.transmitted := by
  obtain ⟨-, hm⟩ := Option.ite_none_right_eq_some.mp hstep
  cases hm
  change ¬ s.received ≤ toInt (s.transmitted + 1)
  have hoverflow : toInt (s.transmitted + 1) = -2147483648 := by
    rw [h.transmitted, ← Nat.cast_succ, Nat.succ_eq_add_one, hsent]
    unfold toInt
    decide
  rw [hoverflow, h.received]
  omega

/-- A run counts the replies at any time iff every ping whose wait is over is settled. -/
theorem countsReplies_iff (hruns : runs step (start .ipv4Raw id pingCount) events = some s) :
    (∀ events' s', events' <+: events →
        runs step (start .ipv4Raw id pingCount) events' = some s' → CountsReplies id events' s') ↔
      sent events < 2 ^ 31 ∧
        ∀ number ∈ ended events s, Settled id number (window events number) := by
  constructor
  · intro hcounts
    have hlt : sent events < 2 ^ 31 := by
      by_contra hnot
      obtain ⟨events', rest, rfl, hsent⟩ := exists_send
        (lt_of_lt_of_le (by decide : 2 ^ 31 - 1 < 2 ^ 31) (not_lt.mp hnot))
      obtain ⟨m, m', hm, hstep, -⟩ := runs_append_cons_eq_some_iff.mp hruns
      have hinv := inv_of_runs hm (by rw [hsent]; decide)
      refine not_received_le hinv (by rw [hsent]; decide) hstep ?_
      refine (hcounts (events' ++ [.send true]) m' ⟨rest, by simp⟩ ?_).received_le
      rw [runs_append_cons_eq_some_iff]
      exact ⟨m, m', hm, hstep, runs_nil _ _⟩
    exact ⟨hlt, (inv_of_runs hruns hlt).countsReplies_iff_ended.mp
      (hcounts events s List.prefix_rfl hruns)⟩
  · rintro ⟨hlt, hsettled⟩ events' s' ⟨rest, rfl⟩ hruns'
    rw [runs_append, hruns', Option.bind_some] at hruns
    have hle : sent events' ≤ sent (events' ++ rest) :=
      List.Sublist.countP_le (List.sublist_append_left _ _)
    have hinv := inv_of_runs hruns' (lt_of_le_of_lt hle hlt)
    obtain ⟨hlast, hi, hwindow⟩ := inv_runs hinv hruns hlt
    rw [hinv.countsReplies_iff_ended, hinv.ended_eq]
    rw [hlast.ended_eq] at hsettled
    intro number hnumber
    rw [← hwindow number hnumber]
    refine hsettled number ?_
    rw [List.mem_range'_1] at hnumber ⊢
    omega

/-- A message of 36 bytes with the sequence number 1, of the process 0. -/
def pingBuffer (type : UInt8) (i : Nat) : UInt8 :=
  if i = 0 then 0x45 else if i = 9 then 1 else if i = 20 then type else if i = 27 then 1 else 0

def firstReply : Datagram where
  buf := pingBuffer 0
  byteSize := 36
  protocol := rfl
  taken := by decide
  complete := ⟨by decide, by decide, by decide⟩

def firstRequest : Datagram where
  buf := pingBuffer 8
  byteSize := 36
  protocol := rfl
  taken := by decide
  complete := ⟨by decide, by decide, by decide⟩

/-- One ping with its reply. -/
theorem countsReplies_reply :
    (runs step (start .ipv4Raw 0 1) [.send true, .poll (some firstReply)]).isSome ∧
      ∀ events' s', events' <+: [.send true, .poll (some firstReply)] →
        runs step (start .ipv4Raw 0 1) events' = some s' → CountsReplies 0 events' s' := by
  obtain ⟨s, hs⟩ : ∃ s, runs step (start .ipv4Raw 0 1)
      [.send true, .poll (some firstReply)] = some s := ⟨_, rfl⟩
  refine ⟨by rw [hs]; rfl, (countsReplies_iff hs).mpr ⟨by decide, fun number hnumber => ?_⟩⟩
  have hreply : Settled 0 1 [firstReply] := by
    simp only [Settled, List.mem_singleton, forall_eq]
    decide
  have hover : number ∈ List.range' 1 1 := by
    rw [(inv_of_runs hs (by decide)).ended_eq, List.mem_range'_1] at hnumber
    have hi := (inv_of_runs hs (by decide)).i_le
    rw [List.mem_range'_1]
    exact ⟨hnumber.1, lt_of_lt_of_le hnumber.2 (Nat.add_le_add_left hi 1)⟩
  obtain rfl := List.mem_singleton.mp hover
  exact hreply

/-- One ping that an echo request with its number is taken for the reply of. -/
theorem not_countsReplies_request :
    ∃ s, runs step (start .ipv4Raw 0 1) [.send true, .poll (some firstRequest)] = some s ∧
      ¬ CountsReplies 0 [.send true, .poll (some firstRequest)] s := by
  refine ⟨_, rfl, fun hcounts => ?_⟩
  have htimeouts := hcounts.timeouts
  exact absurd htimeouts (by decide +kernel)

end Pinger

end Sihd.Net
