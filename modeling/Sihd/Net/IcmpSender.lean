import Mathlib.Data.Set.Insert
import Mathlib.Tactic.Common

/-!
# What is read of an ICMP datagram

`_read_socket` receives a datagram into a buffer; `_process_ipv4` and
`_process_ipv6` take offsets from the datagram itself and read the headers that
they find there. What stands in the buffer behind the received bytes is left from
before, and is read as well when the datagram is cut short.
-/

namespace Sihd.Net

namespace IcmpSender

inductive SocketKind
  | ipv4Raw
  | ipv6Raw
  | ipv6Datagram
  deriving DecidableEq

/-- `IcmpResponse`, with its data as an offset in the buffer. -/
structure IcmpResponse where
  data : Nat
  size : UInt64
  type : UInt8
  code : UInt8
  ttl : UInt8
  id : UInt16
  seq : UInt16

/-- Code that reads the buffer, with the offsets that it has read. -/
abbrev Reading := StateM (List Nat)

/-- The message types that are taken; `timeExceeded` only with the code 0. -/
structure MessageTypes where
  echoReply : UInt8
  echo : UInt8
  timeExceeded : UInt8

def icmpTypes : MessageTypes := ⟨0, 8, 11⟩

def icmp6Types : MessageTypes := ⟨129, 128, 3⟩

section Source

variable (buf : Nat → UInt8) (byteSize : UInt64)

def readByte (offset : Nat) : Reading UInt8 := fun offsets => (buf offset, offsets ++ [offset])

/-- `ntohs` of two bytes. -/
def readShort (offset : Nat) : Reading UInt16 := do
  let high ← readByte buf offset
  let low ← readByte buf (offset + 1)
  return high.toUInt16 <<< 8 ||| low.toUInt16

/-- `ip_hl << 2`. -/
def readHeaderLength (iphdr : Nat) : Reading Nat := do
  let byte ← readByte buf iphdr
  return (byte &&& 0x0f).toNat * 4

def isTimeExceeded (types : MessageTypes) (icmphdr : Nat) : Reading Bool := do
  if (← readByte buf icmphdr) = types.timeExceeded then
    return (← readByte buf (icmphdr + 1)) == 0
  else return false

/-- The message is an echo or the time of one is exceeded. -/
def isTaken (types : MessageTypes) (icmphdr : Nat) : Reading Bool := do
  if (← readByte buf icmphdr) = types.echoReply then return true
  else if (← readByte buf icmphdr) = types.echo then return true
  else isTimeExceeded buf types icmphdr

/-- The response is filled from a header of 8 bytes, with the data behind it. -/
def respond (icmphdr : Nat) (ttl : UInt8) : Reading IcmpResponse := do
  let type ← readByte buf icmphdr
  let code ← readByte buf (icmphdr + 1)
  let id ← readShort buf (icmphdr + 4)
  let seq ← readShort buf (icmphdr + 6)
  return {
    data := icmphdr + 8
    size := byteSize - UInt64.ofNat (icmphdr + 8)
    type, code, ttl, id, seq }

/-- The response that observers are notified of. The header of IPv4 is at the offset
0: its protocol at 9, its time to live at 8. -/
def processIpv4 : Reading (Option IcmpResponse) := do
  let icmphdr ← readHeaderLength buf 0
  if (← readByte buf 9) = 1 then
    if ← isTaken buf icmpTypes icmphdr then
      if ← isTimeExceeded buf icmpTypes icmphdr then
        -- the original packet
        let iphdr := icmphdr + 8
        let iphdrLen ← readHeaderLength buf iphdr
        let ttl ← readByte buf (iphdr + 8)
        let response ← respond buf byteSize (iphdr + iphdrLen) ttl
        return some response
      else
        let ttl ← readByte buf 8
        let response ← respond buf byteSize icmphdr ttl
        return some response
    else return none
  else return none

/-- The time to live and the offset of the message: the header of IPv6 may stand in
front of it. -/
def skipIpv6Header (kind : SocketKind) : Reading (UInt8 × Nat) := do
  match kind with
  | .ipv6Raw =>
      if 40 ≤ byteSize then
        if (← readByte buf 0) >>> 4 &&& 0x0f = 6 then return (← readByte buf 7, 40)
        else return (0, 0)
      else return (0, 0)
  | _ => return (0, 0)

def processIpv6 (kind : SocketKind) : Reading (Option IcmpResponse) := do
  let (ttl, icmp6hdr) ← skipIpv6Header buf byteSize kind
  if ← isTaken buf icmp6Types icmp6hdr then
    if ← isTimeExceeded buf icmp6Types icmp6hdr then
      -- the original packet
      let response ← respond buf byteSize (icmp6hdr + 8 + 40) ttl
      return some response
    else
      let response ← respond buf byteSize icmp6hdr ttl
      return some response
  else return none

/-- `_read_socket`, for a datagram of `byteSize` bytes. -/
def readSocket (kind : SocketKind) : Reading (Option IcmpResponse) :=
  if 0 < byteSize then
    match kind with
    | .ipv4Raw => processIpv4 buf byteSize
    | _ => processIpv6 buf byteSize kind
  else return none

end Source

/-- With an observer notified, all that was read was received, and so was the data of
the response. -/
def DescribesReceived (reading : Reading (Option IcmpResponse)) (byteSize : UInt64) : Prop :=
  ∀ response, (reading []).1 = some response →
    (∀ offset ∈ (reading []).2, offset < byteSize.toNat) ∧
      response.data ≤ byteSize.toNat ∧
      response.size.toNat = byteSize.toNat - response.data

/-! ## Where the headers are -/

section Layout

variable (buf : Nat → UInt8) (byteSize : UInt64)

def headerLength (iphdr : Nat) : Nat := (buf iphdr &&& 0x0f).toNat * 4

def IsExceeded (types : MessageTypes) (icmphdr : Nat) : Prop :=
  buf icmphdr = types.timeExceeded ∧ buf (icmphdr + 1) = 0

def IsTaken (types : MessageTypes) (icmphdr : Nat) : Prop :=
  buf icmphdr = types.echoReply ∨ buf icmphdr = types.echo ∨ IsExceeded buf types icmphdr

/-- The offset of the message of IPv6. -/
def icmp6Offset : SocketKind → Nat
  | .ipv6Raw => if 40 ≤ byteSize ∧ buf 0 >>> 4 &&& 0x0f = 6 then 40 else 0
  | _ => 0

/-- Both headers are there, and those of a quoted message. -/
structure CompleteIpv4 (byteSize : UInt64) : Prop where
  protocol : 10 ≤ byteSize.toNat
  header : headerLength buf 0 + 8 ≤ byteSize.toNat
  quoted : IsExceeded buf icmpTypes (headerLength buf 0) →
    headerLength buf 0 + 17 ≤ byteSize.toNat ∧
      headerLength buf 0 + 8 + headerLength buf (headerLength buf 0 + 8) + 8 ≤ byteSize.toNat

structure CompleteIpv6 (byteSize : UInt64) (icmp6hdr : Nat) : Prop where
  header : icmp6hdr + 8 ≤ byteSize.toNat
  quoted : IsExceeded buf icmp6Types icmp6hdr → icmp6hdr + 56 ≤ byteSize.toNat

/-- A datagram that is taken for an ICMP message is complete. -/
def Complete : SocketKind → Prop
  | .ipv4Raw => buf 9 = 1 → IsTaken buf icmpTypes (headerLength buf 0) → CompleteIpv4 buf byteSize
  | kind => IsTaken buf icmp6Types (icmp6Offset buf byteSize kind) →
      CompleteIpv6 buf byteSize (icmp6Offset buf byteSize kind)

end Layout

variable {buf : Nat → UInt8} {byteSize : UInt64}

/-! ## What is read -/

/-- The value that some code comes to, and the offsets that it reads for it. -/
structure Reads {α : Type} (reading : Reading α) (value : α) (window : Set Nat) : Prop where
  value_eq : ∀ offsets, (reading offsets).1 = value
  mem_iff : ∀ offsets i, i ∈ (reading offsets).2 ↔ i ∈ offsets ∨ i ∈ window

section Rules

variable {α β : Type} {reading : Reading α} {next : α → Reading β} {a : α} {b : β}
  {window window' : Set Nat}

theorem reads_pure (a : α) : Reads (pure a) a ∅ :=
  ⟨fun _ => rfl, fun _ _ => (or_iff_left (Set.notMem_empty _)).symm⟩

theorem reads_readByte (buf : Nat → UInt8) (i : Nat) : Reads (readByte buf i) (buf i) {i} :=
  ⟨fun _ => rfl, fun offsets j => by simp [readByte]⟩

theorem Reads.bind (h : Reads reading a window) (hnext : Reads (next a) b window') :
    Reads (reading >>= next) b (window ∪ window') := by
  have hrun : ∀ offsets, (reading >>= next) offsets = next a (reading offsets).2 := by
    intro offsets
    rw [← h.value_eq offsets]
    rfl
  constructor
  · intro offsets
    rw [hrun, hnext.value_eq]
  · intro offsets i
    rw [hrun, hnext.mem_iff, h.mem_iff, Set.mem_union, or_assoc]

theorem Reads.bindTo {all : Set Nat} (h : Reads reading a window)
    (hnext : Reads (next a) b window') (hall : window ∪ window' = all) :
    Reads (reading >>= next) b all := hall ▸ h.bind hnext

theorem Reads.ifTrue {c : Prop} [Decidable c] {other : Reading α} (hc : c)
    (h : Reads reading a window) : Reads (if c then reading else other) a window := by
  rwa [if_pos hc]

theorem Reads.ifFalse {c : Prop} [Decidable c] {other : Reading α} (hc : ¬ c)
    (h : Reads reading a window) : Reads (if c then other else reading) a window := by
  rwa [if_neg hc]

end Rules

theorem reads_readShort (i : Nat) :
    Reads (readShort buf i) ((buf i).toUInt16 <<< 8 ||| (buf (i + 1)).toUInt16) {i, i + 1} := by
  unfold readShort
  refine (reads_readByte buf i).bindTo
    ((reads_readByte buf (i + 1)).bindTo (reads_pure _) rfl) ?_
  ext j
  simp [or_comm]

theorem reads_readHeaderLength (iphdr : Nat) :
    Reads (readHeaderLength buf iphdr) (headerLength buf iphdr) {iphdr} := by
  unfold readHeaderLength
  refine (reads_readByte buf iphdr).bindTo (reads_pure _) ?_
  simp

instance (types : MessageTypes) (icmphdr : Nat) : Decidable (IsExceeded buf types icmphdr) :=
  inferInstanceAs (Decidable (_ ∧ _))

instance (types : MessageTypes) (icmphdr : Nat) : Decidable (IsTaken buf types icmphdr) :=
  inferInstanceAs (Decidable (_ ∨ _ ∨ _))

/-- The code is read only with the type of a time that is exceeded. -/
theorem reads_isTimeExceeded (types : MessageTypes) (icmphdr : Nat) :
    Reads (isTimeExceeded buf types icmphdr) (decide (IsExceeded buf types icmphdr))
      {i | i = icmphdr ∨ i = icmphdr + 1 ∧ buf icmphdr = types.timeExceeded} := by
  unfold isTimeExceeded
  by_cases htype : buf icmphdr = types.timeExceeded
  · have hcode : decide (IsExceeded buf types icmphdr) = (buf (icmphdr + 1) == 0) := by
      simp [IsExceeded, htype]
      rfl
    rw [hcode]
    refine (reads_readByte buf icmphdr).bindTo (.ifTrue htype
      ((reads_readByte buf (icmphdr + 1)).bindTo (reads_pure _) rfl)) ?_
    ext i
    simp [htype, or_comm]
  · have hcode : decide (IsExceeded buf types icmphdr) = false := by
      simp [IsExceeded, htype]
    rw [hcode]
    refine (reads_readByte buf icmphdr).bindTo (.ifFalse htype (reads_pure _)) ?_
    ext i
    simp [htype]

theorem reads_isTaken (types : MessageTypes) (icmphdr : Nat) :
    ∃ window, Reads (isTaken buf types icmphdr) (decide (IsTaken buf types icmphdr)) window ∧
      icmphdr ∈ window ∧ ∀ i ∈ window, i = icmphdr ∨ i = icmphdr + 1 := by
  unfold isTaken
  by_cases hreply : buf icmphdr = types.echoReply
  · have htaken : decide (IsTaken buf types icmphdr) = true := by simp [IsTaken, hreply]
    rw [htaken]
    refine ⟨_, (reads_readByte buf icmphdr).bind (.ifTrue hreply (reads_pure _)), ?_⟩
    simp
  · by_cases hecho : buf icmphdr = types.echo
    · have htaken : decide (IsTaken buf types icmphdr) = true := by simp [IsTaken, hecho]
      rw [htaken]
      refine ⟨_, (reads_readByte buf icmphdr).bind (.ifFalse hreply
        ((reads_readByte buf icmphdr).bind (.ifTrue hecho (reads_pure _)))), ?_⟩
      simp
    · have htaken : decide (IsTaken buf types icmphdr) =
          decide (IsExceeded buf types icmphdr) := by simp [IsTaken, hreply, hecho]
      rw [htaken]
      refine ⟨_, (reads_readByte buf icmphdr).bind (.ifFalse hreply
        ((reads_readByte buf icmphdr).bind (.ifFalse hecho
          (reads_isTimeExceeded types icmphdr)))), ?_⟩
      simp

/-- The response that is filled from a header. -/
def responseAt (buf : Nat → UInt8) (byteSize : UInt64) (icmphdr : Nat) (ttl : UInt8) :
    IcmpResponse where
  data := icmphdr + 8
  size := byteSize - UInt64.ofNat (icmphdr + 8)
  type := buf icmphdr
  code := buf (icmphdr + 1)
  ttl := ttl
  id := (buf (icmphdr + 4)).toUInt16 <<< 8 ||| (buf (icmphdr + 5)).toUInt16
  seq := (buf (icmphdr + 6)).toUInt16 <<< 8 ||| (buf (icmphdr + 7)).toUInt16

theorem reads_respond (icmphdr : Nat) (ttl : UInt8) :
    Reads (respond buf byteSize icmphdr ttl) (responseAt buf byteSize icmphdr ttl)
      {i | icmphdr ≤ i ∧ i < icmphdr + 8 ∧ i ≠ icmphdr + 2 ∧ i ≠ icmphdr + 3} := by
  unfold respond
  refine (reads_readByte buf icmphdr).bindTo ((reads_readByte buf (icmphdr + 1)).bindTo
    ((reads_readShort (icmphdr + 4)).bindTo ((reads_readShort (icmphdr + 6)).bindTo
      (reads_pure _) rfl) rfl) rfl) ?_
  ext i
  simp
  omega

/-! ## Complete datagrams -/

theorem describesReceived_of_reads_none {reading : Reading (Option IcmpResponse)}
    {window : Set Nat} (h : Reads reading none window) : DescribesReceived reading byteSize := by
  intro response hresponse
  simp [h.value_eq] at hresponse

theorem describesReceived_iff_of_reads {reading : Reading (Option IcmpResponse)}
    {window : Set Nat} {icmphdr : Nat} {ttl : UInt8}
    (h : Reads reading (some (responseAt buf byteSize icmphdr ttl)) window) :
    DescribesReceived reading byteSize ↔
      (∀ i ∈ window, i < byteSize.toNat) ∧ icmphdr + 8 ≤ byteSize.toNat := by
  have hread : ∀ i, i ∈ (reading []).2 ↔ i ∈ window := by
    intro i
    simp [h.mem_iff]
  constructor
  · intro hdescribes
    obtain ⟨hwindow, hdata, -⟩ := hdescribes _ (h.value_eq [])
    exact ⟨fun i hi => hwindow i ((hread i).mpr hi), hdata⟩
  · rintro ⟨hwindow, hdata⟩ response hresponse
    rw [h.value_eq, Option.some.injEq] at hresponse
    subst hresponse
    have hlt := byteSize.toNat_lt
    have hoffset : (UInt64.ofNat (icmphdr + 8)).toNat = icmphdr + 8 :=
      UInt64.toNat_ofNat_of_lt' (lt_of_le_of_lt hdata hlt)
    refine ⟨fun i hi => hwindow i ((hread i).mp hi), hdata, ?_⟩
    change (byteSize - UInt64.ofNat (icmphdr + 8)).toNat = byteSize.toNat - (icmphdr + 8)
    rw [UInt64.toNat_sub_of_le _ _ (by rw [UInt64.le_iff_toNat_le, hoffset]; exact hdata), hoffset]

theorem reads_processIpv4_none
    (hnot : ¬ (buf 9 = 1 ∧ IsTaken buf icmpTypes (headerLength buf 0))) :
    ∃ window, Reads (processIpv4 buf byteSize) none window := by
  unfold processIpv4
  by_cases hprotocol : buf 9 = 1
  · have htaken : ¬ IsTaken buf icmpTypes (headerLength buf 0) := fun h => hnot ⟨hprotocol, h⟩
    obtain ⟨window, hreads, -⟩ := @reads_isTaken buf icmpTypes (headerLength buf 0)
    rw [decide_eq_false htaken] at hreads
    exact ⟨_, (reads_readHeaderLength 0).bind ((reads_readByte buf 9).bind
      (.ifTrue hprotocol (hreads.bind (.ifFalse Bool.false_ne_true (reads_pure _)))))⟩
  · exact ⟨_, (reads_readHeaderLength 0).bind ((reads_readByte buf 9).bind
      (.ifFalse hprotocol (reads_pure _)))⟩

theorem reads_processIpv4_echo (hprotocol : buf 9 = 1)
    (htaken : IsTaken buf icmpTypes (headerLength buf 0))
    (hexceeded : ¬ IsExceeded buf icmpTypes (headerLength buf 0)) :
    ∃ window, Reads (processIpv4 buf byteSize)
        (some (responseAt buf byteSize (headerLength buf 0) (buf 8))) window ∧
      ∀ n, (∀ i ∈ window, i < n) ↔ 10 ≤ n ∧ headerLength buf 0 + 8 ≤ n := by
  obtain ⟨window, hreads, -, hwindow⟩ := @reads_isTaken buf icmpTypes (headerLength buf 0)
  have hreads' := @reads_isTimeExceeded buf icmpTypes (headerLength buf 0)
  rw [decide_eq_true htaken] at hreads
  rw [decide_eq_false hexceeded] at hreads'
  unfold processIpv4
  refine ⟨_, (reads_readHeaderLength 0).bind ((reads_readByte buf 9).bind
    (.ifTrue hprotocol (hreads.bind (.ifTrue rfl (hreads'.bind (.ifFalse Bool.false_ne_true
      ((reads_readByte buf 8).bind ((reads_respond _ _).bind (reads_pure _))))))))), ?_⟩
  intro n
  constructor
  · intro h
    exact ⟨h 9 (by simp), h (headerLength buf 0 + 7) (by simp)⟩
  · rintro ⟨hprotocol, hheader⟩ i hi
    simp only [Set.mem_union, Set.mem_singleton_iff, Set.mem_ofPred_eq, Set.mem_empty_iff_false,
      or_false] at hi
    rcases hi with hi | hi | hi | hi | hi | hi
    · omega
    · omega
    · have hle := hwindow i hi
      omega
    · omega
    · omega
    · omega

/-- With the headers of a quoted packet. -/
theorem reads_processIpv4_exceeded (hprotocol : buf 9 = 1)
    (hexceeded : IsExceeded buf icmpTypes (headerLength buf 0)) :
    ∃ window, Reads (processIpv4 buf byteSize)
        (some (responseAt buf byteSize
          (headerLength buf 0 + 8 + headerLength buf (headerLength buf 0 + 8))
          (buf (headerLength buf 0 + 8 + 8)))) window ∧
      ∀ n, (∀ i ∈ window, i < n) ↔ 10 ≤ n ∧ headerLength buf 0 + 17 ≤ n ∧
        headerLength buf 0 + 8 + headerLength buf (headerLength buf 0 + 8) + 8 ≤ n := by
  have htaken : IsTaken buf icmpTypes (headerLength buf 0) := .inr (.inr hexceeded)
  obtain ⟨window, hreads, -, hwindow⟩ := @reads_isTaken buf icmpTypes (headerLength buf 0)
  have hreads' := @reads_isTimeExceeded buf icmpTypes (headerLength buf 0)
  rw [decide_eq_true htaken] at hreads
  rw [decide_eq_true hexceeded] at hreads'
  unfold processIpv4
  refine ⟨_, (reads_readHeaderLength 0).bind ((reads_readByte buf 9).bind
    (.ifTrue hprotocol (hreads.bind (.ifTrue rfl (hreads'.bind (.ifTrue rfl
      ((reads_readHeaderLength _).bind ((reads_readByte buf _).bind
        ((reads_respond _ _).bind (reads_pure _)))))))))), ?_⟩
  intro n
  constructor
  · intro h
    exact ⟨h 9 (by simp), h (headerLength buf 0 + 8 + 8) (by simp),
      h (headerLength buf 0 + 8 + headerLength buf (headerLength buf 0 + 8) + 7) (by simp)⟩
  · rintro ⟨hprotocol, httl, hheader⟩ i hi
    simp only [Set.mem_union, Set.mem_singleton_iff, Set.mem_ofPred_eq, Set.mem_empty_iff_false,
      or_false] at hi
    rcases hi with hi | hi | hi | hi | hi | hi | hi
    · omega
    · omega
    · have hle := hwindow i hi
      omega
    · omega
    · omega
    · omega
    · omega

theorem describesReceived_processIpv4_iff :
    DescribesReceived (processIpv4 buf byteSize) byteSize ↔ Complete buf byteSize .ipv4Raw := by
  by_cases htaken : buf 9 = 1 ∧ IsTaken buf icmpTypes (headerLength buf 0)
  · by_cases hexceeded : IsExceeded buf icmpTypes (headerLength buf 0)
    · obtain ⟨window, hreads, hwindow⟩ :=
        @reads_processIpv4_exceeded buf byteSize htaken.1 hexceeded
      rw [describesReceived_iff_of_reads hreads, hwindow]
      constructor
      · rintro ⟨⟨hprotocol, httl, hheader⟩, -⟩ - -
        exact ⟨hprotocol, by omega, fun _ => ⟨httl, hheader⟩⟩
      · intro hcomplete
        obtain ⟨hprotocol, -, hquoted⟩ := hcomplete htaken.1 htaken.2
        obtain ⟨httl, hheader⟩ := hquoted hexceeded
        exact ⟨⟨hprotocol, httl, hheader⟩, hheader⟩
    · obtain ⟨window, hreads, hwindow⟩ :=
        @reads_processIpv4_echo buf byteSize htaken.1 htaken.2 hexceeded
      rw [describesReceived_iff_of_reads hreads, hwindow]
      constructor
      · rintro ⟨⟨hprotocol, hheader⟩, -⟩ - -
        exact ⟨hprotocol, hheader, fun h => absurd h hexceeded⟩
      · intro hcomplete
        obtain ⟨hprotocol, hheader, -⟩ := hcomplete htaken.1 htaken.2
        exact ⟨⟨hprotocol, hheader⟩, hheader⟩
  · obtain ⟨window, hreads⟩ := @reads_processIpv4_none buf byteSize htaken
    refine iff_of_true (describesReceived_of_reads_none hreads) ?_
    exact fun hprotocol h => absurd ⟨hprotocol, h⟩ htaken

/-- The header of IPv6 is read when the datagram has room for it. -/
theorem reads_skipIpv6Header (kind : SocketKind) :
    ∃ ttl window, Reads (skipIpv6Header buf byteSize kind)
        (ttl, icmp6Offset buf byteSize kind) window ∧
      ∀ i ∈ window, i < 8 ∧ 40 ≤ byteSize.toNat := by
  unfold skipIpv6Header
  cases kind with
  | ipv6Raw =>
    dsimp only
    by_cases hsize : 40 ≤ byteSize
    · have hle : 40 ≤ byteSize.toNat := UInt64.le_iff_toNat_le.mp hsize
      by_cases hversion : buf 0 >>> 4 &&& 0x0f = 6
      · have hoffset : icmp6Offset buf byteSize .ipv6Raw = 40 := if_pos ⟨hsize, hversion⟩
        rw [hoffset]
        refine ⟨_, _, .ifTrue hsize ((reads_readByte buf 0).bind (.ifTrue hversion
          ((reads_readByte buf 7).bind (reads_pure _)))), ?_⟩
        simpa using hle
      · have hoffset : icmp6Offset buf byteSize .ipv6Raw = 0 := if_neg fun h => hversion h.2
        rw [hoffset]
        refine ⟨_, _, .ifTrue hsize ((reads_readByte buf 0).bind (.ifFalse hversion
          (reads_pure _))), ?_⟩
        simpa using hle
    · have hoffset : icmp6Offset buf byteSize .ipv6Raw = 0 := if_neg fun h => hsize h.1
      rw [hoffset]
      refine ⟨_, _, .ifFalse hsize (reads_pure _), ?_⟩
      simp
  | ipv4Raw => exact ⟨_, _, reads_pure _, by simp⟩
  | ipv6Datagram => exact ⟨_, _, reads_pure _, by simp⟩

theorem reads_processIpv6 (kind : SocketKind)
    (htaken : IsTaken buf icmp6Types (icmp6Offset buf byteSize kind)) :
    ∃ icmp6hdr ttl window, Reads (processIpv6 buf byteSize kind)
        (some (responseAt buf byteSize icmp6hdr ttl)) window ∧
      ((∀ i ∈ window, i < byteSize.toNat) ∧ icmp6hdr + 8 ≤ byteSize.toNat ↔
        CompleteIpv6 buf byteSize (icmp6Offset buf byteSize kind)) := by
  obtain ⟨ttl, skipped, hskip, hskipped⟩ := @reads_skipIpv6Header buf byteSize kind
  generalize icmp6Offset buf byteSize kind = icmp6hdr at htaken hskip ⊢
  obtain ⟨window, hreads, -, hwindow⟩ := @reads_isTaken buf icmp6Types icmp6hdr
  have hreads' := @reads_isTimeExceeded buf icmp6Types icmp6hdr
  rw [decide_eq_true htaken] at hreads
  unfold processIpv6
  by_cases hexceeded : IsExceeded buf icmp6Types icmp6hdr
  · rw [decide_eq_true hexceeded] at hreads'
    refine ⟨_, _, _, hskip.bind (hreads.bind (.ifTrue rfl (hreads'.bind (.ifTrue rfl
      ((reads_respond _ _).bind (reads_pure _)))))), ?_⟩
    constructor
    · rintro ⟨-, hheader⟩
      exact ⟨by omega, fun _ => by omega⟩
    · rintro ⟨hheader, hquoted⟩
      have hend := hquoted hexceeded
      refine ⟨fun i hi => ?_, by omega⟩
      simp only [Set.mem_union, Set.mem_ofPred_eq, Set.mem_empty_iff_false, or_false] at hi
      rcases hi with hi | hi | hi | hi
      · have hlt := hskipped i hi
        omega
      · have hle := hwindow i hi
        omega
      · omega
      · omega
  · rw [decide_eq_false hexceeded] at hreads'
    refine ⟨_, _, _, hskip.bind (hreads.bind (.ifTrue rfl (hreads'.bind
      (.ifFalse Bool.false_ne_true ((reads_respond _ _).bind (reads_pure _)))))), ?_⟩
    constructor
    · rintro ⟨-, hheader⟩
      exact ⟨hheader, fun h => absurd h hexceeded⟩
    · rintro ⟨hheader, -⟩
      refine ⟨fun i hi => ?_, hheader⟩
      simp only [Set.mem_union, Set.mem_ofPred_eq, Set.mem_empty_iff_false, or_false] at hi
      rcases hi with hi | hi | hi | hi
      · have hlt := hskipped i hi
        omega
      · have hle := hwindow i hi
        omega
      · omega
      · omega

theorem reads_processIpv6_none (kind : SocketKind)
    (htaken : ¬ IsTaken buf icmp6Types (icmp6Offset buf byteSize kind)) :
    ∃ window, Reads (processIpv6 buf byteSize kind) none window := by
  obtain ⟨ttl, skipped, hskip, -⟩ := @reads_skipIpv6Header buf byteSize kind
  obtain ⟨window, hreads, -⟩ :=
    @reads_isTaken buf icmp6Types (icmp6Offset buf byteSize kind)
  rw [decide_eq_false htaken] at hreads
  unfold processIpv6
  exact ⟨_, hskip.bind (hreads.bind (.ifFalse Bool.false_ne_true (reads_pure _)))⟩

theorem describesReceived_processIpv6_iff (kind : SocketKind) :
    DescribesReceived (processIpv6 buf byteSize kind) byteSize ↔
      (IsTaken buf icmp6Types (icmp6Offset buf byteSize kind) →
        CompleteIpv6 buf byteSize (icmp6Offset buf byteSize kind)) := by
  by_cases htaken : IsTaken buf icmp6Types (icmp6Offset buf byteSize kind)
  · obtain ⟨icmp6hdr, ttl, window, hreads, hwindow⟩ := reads_processIpv6 kind htaken
    rw [describesReceived_iff_of_reads hreads, hwindow]
    simp [htaken]
  · obtain ⟨window, hreads⟩ := reads_processIpv6_none kind htaken
    exact iff_of_true (describesReceived_of_reads_none hreads) fun h => absurd h htaken

/-- What is read of a datagram was received iff the datagram is complete, or not taken
for a message. -/
theorem describesReceived_iff (kind : SocketKind) (buf : Nat → UInt8) {byteSize : UInt64}
    (h : 0 < byteSize) :
    DescribesReceived (readSocket buf byteSize kind) byteSize ↔ Complete buf byteSize kind := by
  unfold readSocket
  rw [if_pos h]
  cases kind with
  | ipv4Raw => exact describesReceived_processIpv4_iff
  | ipv6Raw => exact describesReceived_processIpv6_iff .ipv6Raw
  | ipv6Datagram => exact describesReceived_processIpv6_iff .ipv6Datagram

/-- A buffer of zeros but for an IPv4 header of 20 bytes and the type of a message. -/
def messageBuffer (type : UInt8) (i : Nat) : UInt8 :=
  if i = 0 then 0x45 else if i = 9 then 1 else if i = 20 then type else 0

/-- An echo request of 36 bytes. -/
theorem describesReceived_echo :
    DescribesReceived (readSocket (messageBuffer 8) 36 .ipv4Raw) 36 :=
  (describesReceived_iff .ipv4Raw (messageBuffer 8) (by decide)).mpr fun _ _ =>
    ⟨by decide, by decide, by decide⟩

/-- A time-exceeded message of 28 bytes quotes nothing. -/
theorem not_describesReceived_exceeded :
    ¬ DescribesReceived (readSocket (messageBuffer 11) 28 .ipv4Raw) 28 := by
  intro h
  have hcomplete := (describesReceived_processIpv4_iff.mp h) (by decide) (by decide)
  exact absurd (hcomplete.quoted (by decide)) (by decide)

end IcmpSender

end Sihd.Net
