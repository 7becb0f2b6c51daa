import Mathlib.Data.BitVec
import Mathlib.Order.Interval.Finset.Nat
import Sihd.Lib.Bytes
import Sihd.Util.Str
import Sihd.Util.Str.Convert

/-!
# Addresses with a subnet mask

An address of IPv4 is kept as a word in network order, whose value depends on
the order of the bytes of the host. The arithmetic of a subnet is exact for the
masks of 1 to 31 bits; the comparison of subnets is exact for every mask of IPv4,
and for those of IPv6 that have no more bits than the address.
-/

namespace Sihd.Net

open Util.Str

/-! ### Netmasks -/

/-- The order of the bytes of the host. -/
inductive ByteOrder
  | little
  | big

/-- `htonl`. -/
def htonl (order : ByteOrder) (x : BitVec 32) : BitVec 32 :=
  match order with
  | .little => byteSwap x
  | .big => x

/-- `ntohl`, which is the same. -/
def ntohl (order : ByteOrder) (x : BitVec 32) : BitVec 32 := htonl order x

def toNetmask (order : ByteOrder) (value : BitVec 32) : BitVec 32 :=
  if value = 0 then 0
  else if 32 ≤ value then ntohl order 0xffffffff
  else ntohl order ((0xffffffff : BitVec 32) <<< (32 - value))

def isValidNetmask (mask : BitVec 32) : Bool :=
  if mask = 0 then false
  else
    let y := ~~~mask
    let z := y + 1
    z &&& y == 0

/-- `is_number`, in base 10. -/
def isNumber (s : List UInt8) : Bool :=
  s.all fun c => c == 32 || (9 ≤ c && c ≤ 13) || c == minus || c == 43 || Radix.isDigit 10 c

/-- `netmask_value_from_str`, which gives all ones for what is no number. -/
def netmaskValueFromStr (s : List UInt8) : BitVec 32 :=
  if isNumber s then
    match convertFromString .uint32 s 10 with
    | some value => BitVec.ofInt 32 value
    | none => -1
  else -1

/-! ### Addresses -/

/-- `SockAddr`: the address of IPv4 stands where IPv6 has its flow information. -/
inductive SockAddr
  | unspec
  | inet (sAddr : BitVec 32)
  | inet6 (flowinfo : BitVec 32) (s6Addr : Fin 16 → BitVec 8)

structure IpAddr where
  addr : SockAddr
  netmaskValue : BitVec 32

/-- `inet_pton` of both families. -/
structure Pton where
  inet : List UInt8 → Option (BitVec 32)
  inet6 : List UInt8 → Option (Fin 16 → BitVec 8)

structure Subnet where
  hosts : BitVec 32
  netid : BitVec 32
  netmask : BitVec 32
  hostmin : BitVec 32
  hostmax : BitVec 32
  broadcast : BitVec 32
  wildcard : BitVec 32

namespace SockAddr

/-- `sockaddr_in.sin_addr.s_addr`. -/
def sinAddr : SockAddr → BitVec 32
  | unspec => 0
  | inet sAddr => sAddr
  | inet6 flowinfo _ => flowinfo

end SockAddr

namespace IpAddr

/-- The constructor from a host, with its mask behind a slash. -/
def ofHost (pton : Pton) (host : List UInt8) : IpAddr :=
  let (ip, netmaskValue) :=
    match host.idxOf? slash with
    | some i => (host.take i, netmaskValueFromStr (host.drop (i + 1)))
    | none => (host, 0)
  match pton.inet ip with
  | some sAddr => ⟨.inet sAddr, netmaskValue⟩
  | none =>
      match pton.inet6 ip with
      | some s6Addr => ⟨.inet6 0 s6Addr, netmaskValue⟩
      | none => ⟨.unspec, netmaskValue⟩

/-- `set_subnet_mask` with the number of bits. -/
def setSubnetMask (order : ByteOrder) (ip : IpAddr) (maskValue : BitVec 32) : Bool × IpAddr :=
  if maskValue = 0 then (true, { ip with netmaskValue := 0 })
  else if isValidNetmask (htonl order (toNetmask order maskValue)) then
    (true, { ip with netmaskValue := maskValue })
  else (false, ip)

/-- `set_subnet_mask` with the text of a mask, whose bits are counted. -/
def setSubnetMaskText (order : ByteOrder) (pton : Pton) (ip : IpAddr) (mask : List UInt8) :
    Bool × IpAddr :=
  match pton.inet mask with
  | none => (false, ip)
  | some sAddr =>
      if isValidNetmask (htonl order sAddr) then
        (true, { ip with
          netmaskValue := BitVec.ofNat 32 ((List.range 32).countP fun i => sAddr.getLsbD i) })
      else (false, ip)

def hasSubnet (ip : IpAddr) : Bool := 0 < ip.netmaskValue

def subnet (order : ByteOrder) (ip : IpAddr) : Subnet :=
  if ip.hasSubnet then
    let netmask := toNetmask order ip.netmaskValue
    let netid := ip.addr.sinAddr &&& netmask
    let wildcard := ~~~netmask
    let broadcast := netid ||| wildcard
    { netmask, netid, wildcard, broadcast
      hostmin := ntohl order (htonl order netid + 1)
      hostmax := ntohl order (htonl order broadcast - 1)
      hosts := htonl order wildcard - 1 }
  else ⟨0, 0, 0, 0, 0, 0, 0⟩

/-- The mask of IPv6 with a byte written, if it is one of its 16. -/
def writeByte (mask : Fin 16 → BitVec 8) (i : Nat) (b : BitVec 8) : Option (Fin 16 → BitVec 8) :=
  if h : i < 16 then some (Function.update mask ⟨i, h⟩ b) else none

/-- The mask of IPv6, if no byte is written outside. -/
def in6Mask (netmaskValue : Nat) : Option (Fin 16 → BitVec 8) :=
  ((List.range (netmaskValue / 8)).foldlM (fun mask i => writeByte mask i 0xFF) 0).bind fun mask =>
    if netmaskValue % 8 ≠ 0 then
      writeByte mask (netmaskValue / 8) (0xFF <<< (8 - netmaskValue % 8))
    else some mask

def isSameSubnetIn (order : ByteOrder) (netmaskValue sAddr other : BitVec 32) : Bool :=
  let netmask := toNetmask order netmaskValue
  let netid := sAddr &&& netmask
  other &&& netmask == netid &&& netmask

/-- No result stands for a write outside of the mask. -/
def isSameSubnetIn6 (netmaskValue : BitVec 32) (s6Addr other : Fin 16 → BitVec 8) : Option Bool :=
  (in6Mask netmaskValue.toNat).map fun mask =>
    decide (∀ i, s6Addr i &&& mask i = other i &&& mask i)

/-- `is_same_subnet`. -/
def isSameSubnet (order : ByteOrder) (ip : IpAddr) (other : SockAddr) : Option Bool :=
  match ip.addr, other with
  | .inet sAddr, .inet other => some (isSameSubnetIn order ip.netmaskValue sAddr other)
  | .inet6 _ s6Addr, .inet6 _ other => isSameSubnetIn6 ip.netmaskValue s6Addr other
  | _, _ => some false

end IpAddr

/-! ### Host order -/

variable {order : ByteOrder}

theorem htonl_htonl (x : BitVec 32) : htonl order (htonl order x) = x := by
  cases order with
  | little => exact byteSwap_byteSwap x
  | big => rfl

theorem htonl_and (x y : BitVec 32) : htonl order (x &&& y) = htonl order x &&& htonl order y := by
  cases order with
  | little => exact byteSwap_and x y
  | big => rfl

theorem htonl_or (x y : BitVec 32) : htonl order (x ||| y) = htonl order x ||| htonl order y := by
  cases order with
  | little => exact byteSwap_or x y
  | big => rfl

theorem htonl_not (x : BitVec 32) : htonl order (~~~x) = ~~~htonl order x := by
  cases order with
  | little => exact byteSwap_not x
  | big => rfl

theorem htonl_injective : Function.Injective (htonl order) :=
  Function.LeftInverse.injective htonl_htonl

/-- The mask of some bits, in host order. -/
theorem htonl_toNetmask (value : BitVec 32) :
    htonl order (toNetmask order value) = highMask 32 value.toNat := by
  rw [toNetmask]
  split_ifs with hzero hle
  · rw [hzero]
    cases order <;> decide
  · have hle' : 32 ≤ value.toNat := by simpa [BitVec.le_def] using hle
    rw [ntohl, htonl_htonl, highMask, Nat.sub_eq_zero_of_le hle']
    decide
  · have hlt : value.toNat < 32 := by simpa [BitVec.le_def] using hle
    have hsub : (32 - value : BitVec 32).toNat = 32 - value.toNat := by
      rw [BitVec.toNat_sub_of_le (by simpa [BitVec.le_def] using hlt.le)]
      rfl
    rw [ntohl, htonl_htonl, highMask, BitVec.shiftLeft_eq', hsub]
    rfl

/-- The value of a word in host order. -/
def hostValue (order : ByteOrder) (x : BitVec 32) : Nat := (ntohl order x).toNat

theorem hostValue_lt (x : BitVec 32) : hostValue order x < 2 ^ 32 := BitVec.isLt _

/-! ### Lengths that are let in -/

theorem isValidNetmask_highMask {n : Nat} (h : 0 < n) : isValidNetmask (highMask 32 n) = true := by
  have hlow : (~~~highMask 32 n).toNat = 2 ^ (32 - n) - 1 := toNat_not_highMask 32 n
  have hpow : 2 ^ (32 - n) ≤ 2 ^ 31 := Nat.pow_le_pow_right (by decide) (by omega)
  have hpos := Nat.two_pow_pos (32 - n)
  have hzero : highMask 32 n ≠ 0 := by
    intro hzero
    rw [hzero] at hlow
    change 2 ^ 32 - 1 = _ at hlow
    omega
  have hnext : (~~~highMask 32 n + 1).toNat = 2 ^ (32 - n) := by
    rw [BitVec.toNat_add, hlow]
    change (2 ^ (32 - n) - 1 + 1) % 2 ^ 32 = _
    rw [Nat.sub_add_cancel hpos, Nat.mod_eq_of_lt (by omega)]
  rw [isValidNetmask, if_neg hzero, beq_iff_eq]
  refine BitVec.eq_of_toNat_eq ?_
  rw [BitVec.toNat_and, hnext, hlow, Nat.and_two_pow_sub_one_eq_mod, Nat.mod_self]
  rfl

/-- No number of bits is refused. -/
theorem IpAddr.setSubnetMask_eq (order : ByteOrder) (ip : IpAddr) (maskValue : BitVec 32) :
    ip.setSubnetMask order maskValue = (true, { ip with netmaskValue := maskValue }) := by
  rw [setSubnetMask]
  split_ifs with hzero hvalid
  · rw [hzero]
  · rfl
  · refine absurd ?_ hvalid
    rw [htonl_toNetmask]
    refine isValidNetmask_highMask (Nat.pos_of_ne_zero fun hnil => hzero ?_)
    exact BitVec.eq_of_toNat_eq hnil

/-- A mask that is taken from a text has no more bits than an address of IPv4. -/
theorem IpAddr.toNat_netmaskValue_setSubnetMaskText {pton : Pton} {ip ip' : IpAddr}
    {mask : List UInt8} (h : ip.setSubnetMaskText order pton mask = (true, ip')) :
    ip'.netmaskValue.toNat ≤ 32 := by
  rw [setSubnetMaskText] at h
  split at h
  · cases h
  · rename_i sAddr _
    split_ifs at h with hvalid
    · cases h
      have hcount : (List.range 32).countP (fun i => sAddr.getLsbD i) ≤ 32 :=
        List.countP_le_length.trans_eq List.length_range
      exact (Nat.mod_le _ _).trans hcount
    · cases h

/-! ### The arithmetic of a subnet -/

/-- What a subnet is, in host order. -/
structure SubnetExact (order : ByteOrder) (ip : IpAddr) : Prop where
  netid_eq : hostValue order (ip.subnet order).netid =
    hostValue order ip.addr.sinAddr / 2 ^ (32 - ip.netmaskValue.toNat) *
      2 ^ (32 - ip.netmaskValue.toNat)
  broadcast_eq : hostValue order (ip.subnet order).broadcast =
    hostValue order (ip.subnet order).netid + (2 ^ (32 - ip.netmaskValue.toNat) - 1)
  netid_le_hostmin : hostValue order (ip.subnet order).netid ≤
    hostValue order (ip.subnet order).hostmin
  hostmax_le_broadcast : hostValue order (ip.subnet order).hostmax ≤
    hostValue order (ip.subnet order).broadcast
  hostmin_le_hostmax : 0 < (ip.subnet order).hosts.toNat →
    hostValue order (ip.subnet order).hostmin ≤ hostValue order (ip.subnet order).hostmax
  hosts_eq : (ip.subnet order).hosts.toNat =
    (Finset.Ioo (hostValue order (ip.subnet order).netid)
      (hostValue order (ip.subnet order).broadcast)).card

section

variable (order) {ip : IpAddr}

theorem hasSubnet_of_pos (h : 0 < ip.netmaskValue.toNat) : ip.hasSubnet = true := by
  rw [IpAddr.hasSubnet, decide_eq_true_iff, BitVec.lt_def]
  exact h

theorem hostValue_netid (h : 0 < ip.netmaskValue.toNat) :
    hostValue order (ip.subnet order).netid =
      hostValue order ip.addr.sinAddr / 2 ^ (32 - ip.netmaskValue.toNat) *
        2 ^ (32 - ip.netmaskValue.toNat) := by
  rw [IpAddr.subnet, if_pos (hasSubnet_of_pos h), hostValue, hostValue, ntohl, ntohl, htonl_and,
    htonl_toNetmask, toNat_and_highMask]

theorem toNat_wildcard (h : 0 < ip.netmaskValue.toNat) :
    (htonl order (ip.subnet order).wildcard).toNat = 2 ^ (32 - ip.netmaskValue.toNat) - 1 := by
  rw [IpAddr.subnet, if_pos (hasSubnet_of_pos h), htonl_not, htonl_toNetmask, toNat_not_highMask]

theorem hostValue_broadcast (h : 0 < ip.netmaskValue.toNat) :
    hostValue order (ip.subnet order).broadcast =
      hostValue order (ip.subnet order).netid + (2 ^ (32 - ip.netmaskValue.toNat) - 1) := by
  have hor : (ip.subnet order).broadcast =
      (ip.subnet order).netid ||| (ip.subnet order).wildcard := by
    rw [IpAddr.subnet, if_pos (hasSubnet_of_pos h)]
  have hpos := Nat.two_pow_pos (32 - ip.netmaskValue.toNat)
  rw [hor, hostValue, ntohl, htonl_or, BitVec.toNat_or, toNat_wildcard order h]
  change hostValue order (ip.subnet order).netid ||| _ = _
  rw [hostValue_netid order h, Nat.mul_comm, Nat.two_pow_add_eq_or_of_lt (by omega)]

theorem hostValue_hostmin (h : 0 < ip.netmaskValue.toNat) :
    hostValue order (ip.subnet order).hostmin =
      (hostValue order (ip.subnet order).netid + 1) % 2 ^ 32 := by
  have hmin : (ip.subnet order).hostmin =
      ntohl order (htonl order (ip.subnet order).netid + 1) := by
    rw [IpAddr.subnet, if_pos (hasSubnet_of_pos h)]
  rw [hmin, hostValue, ntohl, ntohl, htonl_htonl, BitVec.toNat_add]
  rfl

theorem hostValue_hostmax (h : 0 < ip.netmaskValue.toNat) :
    hostValue order (ip.subnet order).hostmax =
      (2 ^ 32 - 1 + hostValue order (ip.subnet order).broadcast) % 2 ^ 32 := by
  have hmax : (ip.subnet order).hostmax =
      ntohl order (htonl order (ip.subnet order).broadcast - 1) := by
    rw [IpAddr.subnet, if_pos (hasSubnet_of_pos h)]
  rw [hmax, hostValue, ntohl, ntohl, htonl_htonl, BitVec.toNat_sub]
  rfl

theorem toNat_hosts (h : 0 < ip.netmaskValue.toNat) : (ip.subnet order).hosts.toNat =
    (2 ^ 32 - 1 + (2 ^ (32 - ip.netmaskValue.toNat) - 1)) % 2 ^ 32 := by
  have hhosts : (ip.subnet order).hosts = htonl order (ip.subnet order).wildcard - 1 := by
    rw [IpAddr.subnet, if_pos (hasSubnet_of_pos h)]
  rw [hhosts, BitVec.toNat_sub, toNat_wildcard order h]
  rfl

/-- The addresses of a subnet end before 2^32. -/
theorem hostValue_netid_add_le (h : 0 < ip.netmaskValue.toNat)
    (hle : ip.netmaskValue.toNat ≤ 32) :
    hostValue order (ip.subnet order).netid + 2 ^ (32 - ip.netmaskValue.toNat) ≤ 2 ^ 32 := by
  have hlt : hostValue order ip.addr.sinAddr < 2 ^ 32 := hostValue_lt _
  rw [hostValue_netid order h, ← Nat.succ_mul]
  have hpow : 2 ^ 32 = 2 ^ ip.netmaskValue.toNat * 2 ^ (32 - ip.netmaskValue.toNat) := by
    rw [← Nat.pow_add, Nat.add_sub_cancel' hle]
  rw [hpow] at hlt ⊢
  exact Nat.mul_le_mul_right _ (Nat.div_lt_of_lt_mul (by rwa [Nat.mul_comm] at hlt))

/-- The arithmetic of a subnet is exact unless its mask has all 32 bits. -/
theorem subnetExact_iff (ip : IpAddr) (hpos : 1 ≤ ip.netmaskValue.toNat)
    (hle : ip.netmaskValue.toNat ≤ 32) :
    SubnetExact order ip ↔ ip.netmaskValue.toNat ≠ 32 := by
  have hbroadcast := hostValue_broadcast order hpos
  have hhosts := toNat_hosts order hpos
  constructor
  · intro hexact hfull
    have heq := hexact.hosts_eq
    rw [hhosts, hbroadcast, hfull, Nat.card_Ioo] at heq
    simp at heq
  · intro hne
    have hend := hostValue_netid_add_le order hpos hle
    have htwo : 2 ^ 1 ≤ 2 ^ (32 - ip.netmaskValue.toNat) :=
      Nat.pow_le_pow_right (by decide) (by omega)
    have hmin := hostValue_hostmin order hpos
    have hmax := hostValue_hostmax order hpos
    refine ⟨hostValue_netid order hpos, hbroadcast, ?_, ?_, ?_, ?_⟩
    · omega
    · omega
    · omega
    · rw [Nat.card_Ioo]
      omega

end

/-- A subnet of 24 bits is exact. -/
theorem subnetExact_24 :
    SubnetExact .little ⟨.inet 0x0a0aa8c0, 24⟩ :=
  (subnetExact_iff .little ⟨.inet 0x0a0aa8c0, 24⟩ (by decide) (by decide)).mpr (by decide)

/-- `1.2.3.4/32` has 2^32 - 1 hosts. -/
theorem not_subnetExact_32 : ¬ SubnetExact .little ⟨.inet 0x04030201, 32⟩ := by
  intro h
  have hhosts := h.hosts_eq
  rw [Nat.card_Ioo] at hhosts
  revert hhosts
  decide

/-! ### The comparison of subnets -/

namespace SockAddr

/-- How many bits an address has. -/
def width : SockAddr → Nat
  | unspec => 0
  | inet _ => 32
  | inet6 _ _ => 128

/-- A bit of an address, the highest one of its first byte first. -/
def bit (order : ByteOrder) : SockAddr → Nat → Bool
  | unspec, _ => false
  | inet sAddr, i => (ntohl order sAddr).getMsbD i
  | inet6 _ s6Addr, i => if h : i / 8 < 16 then (s6Addr ⟨i / 8, h⟩).getMsbD (i % 8) else false

/-- Two addresses of IPv4, or two of IPv6. -/
def SameFamily : SockAddr → SockAddr → Prop
  | inet _, inet _ => True
  | inet6 _ _, inet6 _ _ => True
  | _, _ => False

def IsInet6 : SockAddr → Prop
  | inet6 _ _ => True
  | _ => False

end SockAddr

/-- The subnets are the same when the first bits are, as many as the mask and the address have, and
no byte is written outside of the mask. -/
structure ComparesPrefix (order : ByteOrder) (ip : IpAddr) (other : SockAddr) : Prop where
  eq_some : ip.isSameSubnet order other = some (decide
    (∀ i < min ip.netmaskValue.toNat ip.addr.width, ip.addr.bit order i = other.bit order i))
  symm : IpAddr.isSameSubnet order ⟨other, ip.netmaskValue⟩ ip.addr = ip.isSameSubnet order other

theorem isSameSubnetIn_eq (netmaskValue sAddr other : BitVec 32) :
    IpAddr.isSameSubnetIn order netmaskValue sAddr other = decide
      (∀ i < min netmaskValue.toNat 32,
        (ntohl order sAddr).getMsbD i = (ntohl order other).getMsbD i) := by
  rw [Bool.eq_iff_iff, decide_eq_true_iff, IpAddr.isSameSubnetIn, beq_iff_eq]
  rw [BitVec.and_assoc, BitVec.and_self,
    ← (htonl_injective : Function.Injective (htonl order)).eq_iff, htonl_and, htonl_and,
    htonl_toNetmask, and_highMask_eq_iff]
  exact forall₂_congr fun i _ => eq_comm

/-- A mask of whole bytes. -/
theorem foldlM_writeByte {n : Nat} :
    (List.range n).foldlM (fun mask i => IpAddr.writeByte mask i 0xFF) (0 : Fin 16 → BitVec 8) =
      if n ≤ 16 then some fun i : Fin 16 => if i.val < n then 0xFF else 0 else none := by
  induction n with
  | zero => rfl
  | succ n ih =>
    rw [List.range_succ, List.foldlM_append, ih]
    rcases lt_trichotomy n 16 with hlt | rfl | hgt
    · have hwrite : IpAddr.writeByte (fun i : Fin 16 => if i.val < n then 0xFF else 0) n 0xFF =
          some fun i : Fin 16 => if i.val < n + 1 then 0xFF else 0 := by
        rw [IpAddr.writeByte, dif_pos hlt, Option.some_inj]
        funext i
        by_cases hi : i = ⟨n, hlt⟩
        · rw [hi, Function.update_self, if_pos (Nat.lt_succ_self n)]
        · have hne : i.val ≠ n := fun heq => hi (Fin.ext heq)
          rw [Function.update_of_ne hi]
          exact if_congr (by omega) rfl rfl
      rw [if_pos hlt.le, if_pos (Nat.succ_le_of_lt hlt), Option.bind_eq_bind, Option.bind_some,
        List.foldlM_cons, hwrite]
      rfl
    · rfl
    · rw [if_neg (by omega), if_neg (by omega)]
      rfl

theorem in6Mask_eq (netmaskValue : Nat) : IpAddr.in6Mask netmaskValue =
    if netmaskValue ≤ 128 then some fun i : Fin 16 => highMask 8 (netmaskValue - 8 * i.val)
    else none := by
  rw [IpAddr.in6Mask, foldlM_writeByte]
  by_cases hle : netmaskValue ≤ 128
  · have hbyte : ∀ i : Fin 16, i.val ≠ netmaskValue / 8 ∨ netmaskValue % 8 = 0 →
        (if i.val < netmaskValue / 8 then (0xFF : BitVec 8) else 0) =
          highMask 8 (netmaskValue - 8 * i.val) := by
      intro i hi
      split
      · rw [highMask_of_le (by omega)]
        rfl
      · rw [Nat.sub_eq_zero_of_le (by omega), highMask_zero]
    rw [if_pos (by omega), if_pos hle, Option.bind_some]
    split
    · have hlt : netmaskValue / 8 < 16 := by omega
      rw [IpAddr.writeByte, dif_pos hlt, Option.some_inj]
      funext i
      by_cases hi : i = ⟨netmaskValue / 8, hlt⟩
      · rw [hi, Function.update_self]
        have hbits : netmaskValue - 8 * (netmaskValue / 8) = netmaskValue % 8 := by omega
        rw [hbits]
        rfl
      · rw [Function.update_of_ne hi]
        exact hbyte i (.inl fun heq => hi (Fin.ext heq))
    · rename_i hzero
      rw [Option.some_inj]
      funext i
      exact hbyte i (.inr (not_not.mp hzero))
  · rw [if_neg hle]
    by_cases hbytes : netmaskValue / 8 ≤ 16
    · rw [if_pos hbytes, Option.bind_some, if_pos (by omega), IpAddr.writeByte,
        dif_neg (by omega)]
    · rw [if_neg hbytes, Option.bind_none]

theorem isSameSubnetIn6_eq (order : ByteOrder) {netmaskValue : BitVec 32}
    (h : netmaskValue.toNat ≤ 128) (flowinfo flowinfo' : BitVec 32)
    (s6Addr other : Fin 16 → BitVec 8) :
    IpAddr.isSameSubnetIn6 netmaskValue s6Addr other = some (decide
      (∀ i < min netmaskValue.toNat 128, (SockAddr.inet6 flowinfo s6Addr).bit order i =
        (SockAddr.inet6 flowinfo' other).bit order i)) := by
  rw [IpAddr.isSameSubnetIn6, in6Mask_eq, if_pos h, Option.map_some, Option.some_inj]
  refine decide_eq_decide.mpr ?_
  simp only [and_highMask_eq_iff]
  constructor
  · intro hbytes i hi
    have hbyte : i / 8 < 16 := by omega
    rw [SockAddr.bit, SockAddr.bit, dif_pos hbyte, dif_pos hbyte]
    exact hbytes ⟨i / 8, hbyte⟩ (i % 8) (by dsimp only; omega)
  · intro hbits i r hr
    have hbit := hbits (8 * i.val + r) (by omega)
    have hdiv : (8 * i.val + r) / 8 = i.val := by omega
    have hmod : (8 * i.val + r) % 8 = r := by omega
    rw [SockAddr.bit, SockAddr.bit, dif_pos (by omega), dif_pos (by omega)] at hbit
    simpa only [hdiv, hmod] using hbit

theorem isSameSubnet_inet6 (netmaskValue flowinfo flowinfo' : BitVec 32)
    (s6Addr other : Fin 16 → BitVec 8) :
    IpAddr.isSameSubnet order ⟨.inet6 flowinfo s6Addr, netmaskValue⟩ (.inet6 flowinfo' other) =
      IpAddr.isSameSubnetIn6 netmaskValue s6Addr other := rfl

/-- Subnets are compared by their prefixes, unless the mask of an address of IPv6 is longer than
the address. -/
theorem comparesPrefix_iff (order : ByteOrder) (ip : IpAddr) (other : SockAddr)
    (hfamily : ip.addr.SameFamily other) : ComparesPrefix order ip other ↔
      (ip.addr.IsInet6 → ip.netmaskValue.toNat ≤ 128) := by
  obtain ⟨addr, netmaskValue⟩ := ip
  cases addr with
  | unspec => cases hfamily
  | inet sAddr =>
    cases other with
    | unspec => cases hfamily
    | inet6 flowinfo s6Addr => cases hfamily
    | inet other =>
      refine iff_of_true ⟨?_, ?_⟩ fun hinet6 => hinet6.elim
      · exact congrArg some (isSameSubnetIn_eq netmaskValue sAddr other)
      · refine congrArg some ?_
        rw [isSameSubnetIn_eq, isSameSubnetIn_eq]
        exact decide_eq_decide.mpr (forall₂_congr fun i _ => eq_comm)
  | inet6 flowinfo s6Addr =>
    cases other with
    | unspec => cases hfamily
    | inet other => cases hfamily
    | inet6 flowinfo' other =>
      constructor
      · intro hcompares _
        by_contra hlong
        have hsome := hcompares.eq_some
        rw [isSameSubnet_inet6, IpAddr.isSameSubnetIn6, in6Mask_eq, if_neg hlong] at hsome
        cases hsome
      · intro hle
        have hle := hle trivial
        refine ⟨isSameSubnetIn6_eq order hle flowinfo flowinfo' s6Addr other, ?_⟩
        rw [isSameSubnet_inet6, isSameSubnet_inet6,
          isSameSubnetIn6_eq order hle flowinfo' flowinfo,
          isSameSubnetIn6_eq order hle flowinfo flowinfo']
        exact congrArg some (decide_eq_decide.mpr (forall₂_congr fun i _ => eq_comm))

/-- Addresses with masks of 24 and of 64 bits. -/
theorem comparesPrefix_24_64 :
    ComparesPrefix .little ⟨.inet 0x0a0aa8c0, 24⟩ (.inet 0x0b0aa8c0) ∧
      ComparesPrefix .little ⟨.inet6 0 0, 64⟩ (.inet6 0 0) :=
  ⟨(comparesPrefix_iff .little ⟨.inet 0x0a0aa8c0, 24⟩ (.inet 0x0b0aa8c0) trivial).mpr
      fun hinet6 => hinet6.elim,
    (comparesPrefix_iff .little ⟨.inet6 0 0, 64⟩ (.inet6 0 0) trivial).mpr fun _ => by decide⟩

/-- An `inet_pton` that knows `::`. -/
def ptonAny : Pton where
  inet _ := none
  inet6 ip := if ip = [58, 58] then some 0 else none

/-- The mask of `::/129` is written outside of its bytes. -/
theorem not_comparesPrefix_129 : ¬ ComparesPrefix .little
    (IpAddr.ofHost ptonAny [58, 58, 47, 49, 50, 57]) (.inet6 0 0) := by
  intro h
  have hmask : netmaskValueFromStr [49, 50, 57] = 129 := by decide
  have haddr : IpAddr.ofHost ptonAny [58, 58, 47, 49, 50, 57] = ⟨.inet6 0 0, 129⟩ :=
    congrArg (IpAddr.mk (.inet6 0 0)) hmask
  have hsome := h.eq_some
  rw [haddr, isSameSubnet_inet6, IpAddr.isSameSubnetIn6, in6Mask_eq] at hsome
  cases hsome

end Sihd.Net
