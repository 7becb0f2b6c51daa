import Mathlib.Tactic.Common

/-!
# Addresses

`is_private_host` asks the resolver for the addresses of a host and looks for one that is kept
inside. An address is internal when it is a loopback, private, link-local or unspecified one.
-/

namespace Sihd.Net

inductive Address where
  | ipv4 (addr : BitVec 32)
  | ipv6 (addr : BitVec 128)
  deriving DecidableEq

/-- `getaddrinfo`: the addresses of a host, if it is known. -/
abbrev Resolver := List UInt8 → Option (List Address)

def isPrivateIpv4 (addr : BitVec 32) : Bool :=
  addr >>> 24 == 0 || addr >>> 24 == 127 || addr >>> 24 == 10 ||
    addr >>> 16 &&& 0xFFFF == 0xA9FE || addr >>> 20 == 0xAC1 || addr >>> 16 == 0xC0A8

/-- `IN6_IS_ADDR_LOOPBACK`, `IN6_IS_ADDR_LINKLOCAL` and `IN6_IS_ADDR_SITELOCAL`. -/
def isPrivateIpv6 (addr : BitVec 128) : Bool :=
  addr == 1 || addr >>> 118 == 0x3FA || addr >>> 118 == 0x3FB

def isPrivateAddress : Address → Bool
  | .ipv4 addr => isPrivateIpv4 addr
  | .ipv6 addr => isPrivateIpv6 addr

def isPrivateHost (resolve : Resolver) (host : List UInt8) : Bool :=
  match resolve host with
  | none => false
  | some addresses => addresses.any isPrivateAddress

/-! ### Internal addresses -/

/-- `0.0.0.0`, `127.0.0.0/8`, `10.0.0.0/8`, `172.16.0.0/12`, `192.168.0.0/16` and
`169.254.0.0/16`. -/
def isInternalIpv4 (addr : BitVec 32) : Bool :=
  addr == 0 || addr >>> 24 == 127 || addr >>> 24 == 10 || addr >>> 20 == 0xAC1 ||
    addr >>> 16 == 0xC0A8 || addr >>> 16 == 0xA9FE

/-- `::`, the unique-local `fc00::/7`, and the internal addresses of IPv4 in
`::ffff:0.0.0.0/96`. -/
def isMissedIpv6 (addr : BitVec 128) : Bool :=
  addr == 0 || addr >>> 121 == 0x7E ||
    (addr >>> 32 == 0xFFFF && isInternalIpv4 (addr.truncate 32))

/-- The internal addresses of IPv6 are also `::1` and the link-local `fe80::/10`. -/
def isInternal : Address → Bool
  | .ipv4 addr => isInternalIpv4 addr
  | .ipv6 addr => addr == 1 || addr >>> 118 == 0x3FA || isMissedIpv6 addr

/-- The addresses of a host, if any. -/
def addressesOf (resolve : Resolver) (host : List UInt8) : List Address :=
  (resolve host).getD []

/-- A host with an internal address. -/
def isInternalHost (resolve : Resolver) (host : List UInt8) : Bool :=
  (addressesOf resolve host).any isInternal

variable {resolve : Resolver} {host : List UInt8}

end Sihd.Net
