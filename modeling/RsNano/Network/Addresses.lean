import RsNano.Lib.Table
import RsNano.Types.Basic

/-!
# Peer addresses and connection attempts

The groups of addresses that the limits of a node are about, the addresses that no peer has, and
the container of outgoing connection attempts. An address is a 128-bit word, so that a prefix is
what is left when the lower bits are cleared.
-/

namespace RsNano

namespace Ipv6Addr

variable (input : Ipv6Addr)

/-- Clear the bits behind a prefix. -/
def firstIpv6SubnetAddress (prefixBits : ℕ) : Ipv6Addr :=
  (input >>> (128 - prefixBits)) <<< (128 - prefixBits)

def isIpv4Mapped : Bool := input >>> 32 = 0xffff

/-- The first address of the `/24` of an IPv4 address or of the `/32` of an IPv6 address. -/
def mapAddressToSubnetwork : Ipv6Addr :=
  if input.isIpv4Mapped then firstIpv6SubnetAddress input ((128 - 32) + 24)
  else firstIpv6SubnetAddress input 32

/-- An IPv4 address itself, or the first address of the `/48` of an IPv6 address. -/
def ipv4AddressOrIpv6Subnet : Ipv6Addr :=
  if input.isIpv4Mapped then input else firstIpv6SubnetAddress input 48

/-- The IPv6 address of an IPv4 address. -/
def ofIpv4 (a b c d : BitVec 8) : Ipv6Addr := (0xffff : BitVec 96) ++ a ++ b ++ c ++ d

/-- Address ranges that are never contacted. -/
def reservedRanges : List (Ipv6Addr × Ipv6Addr) :=
  [(ofIpv4 0 0 0 0, ofIpv4 0 0xff 0xff 0xff),
    (ofIpv4 0xc0 0x00 0x02 0x00, ofIpv4 0xc0 0x00 0x02 0xff),
    (ofIpv4 0xc6 0x33 0x64 0x00, ofIpv4 0xc6 0x33 0x64 0xff),
    (ofIpv4 0xcb 0x00 0x71 0x00, ofIpv4 0xcb 0x00 0x71 0xff),
    (ofIpv4 0xe0 0x00 0x00 0x00, ofIpv4 0xef 0xff 0xff 0xff),
    (ofIpv4 0xf0 0x00 0x00 0x00, ofIpv4 0xff 0xff 0xff 0xff),
    (0x01000000000000000000000000000000, 0x0100000000000000ffffffffffffffff),
    (0x20010db8000000000000000000000000, 0x20010db8ffffffffffffffffffffffff),
    (0xff000000000000000000000000000000, 0xff00ffffffffffffffffffffffffffff)]

/-- Address ranges of local networks. -/
def localRanges : List (Ipv6Addr × Ipv6Addr) :=
  [(ofIpv4 0x0a 0 0 0, ofIpv4 0x0a 0xff 0xff 0xff),
    (ofIpv4 0xac 0x10 0x00 0x00, ofIpv4 0xac 0x1f 0xff 0xff),
    (ofIpv4 0xc0 0xa8 0x00 0x00, ofIpv4 0xc0 0xa8 0xff 0xff),
    (ofIpv4 0x64 0x40 0x00 0x00, ofIpv4 0x64 0x7f 0xff 0xff),
    (0xfc000000000000000000000000000000, 0xfd00ffffffffffffffffffffffffffff)]

def localhost : Ipv6Addr := 1

end Ipv6Addr

def reservedAddress (endpoint : SocketAddrV6) (allowLocalPeers : Bool) : Bool :=
  if endpoint.port = 0 then true
  else if Ipv6Addr.reservedRanges.any fun r => r.1 ≤ endpoint.ip ∧ endpoint.ip ≤ r.2 then true
  else if ¬ allowLocalPeers then
    Ipv6Addr.localRanges.any fun r => r.1 ≤ endpoint.ip ∧ endpoint.ip ≤ r.2
  else false

inductive ChannelDirection
  | inbound
  | outbound
  deriving DecidableEq, Repr

/-- The panics of the network: an index of the attempts that lacks an entry, or a panic of the
list of excluded peers. -/
inductive NetworkPanic
  | missingAttempt
  | excludedPeers
  deriving DecidableEq, Repr

/-! ### Connection attempts -/

structure AttemptEntry where
  endpoint : SocketAddrV6
  address : Ipv6Addr
  subnetwork : Ipv6Addr
  start : Timestamp
  direction : ChannelDirection
  deriving DecidableEq

def AttemptEntry.new (endpoint : SocketAddrV6) (direction : ChannelDirection) (start : Timestamp) :
    AttemptEntry where
  endpoint := endpoint
  address := endpoint.ip.ipv4AddressOrIpv6Subnet
  subnetwork := endpoint.ip.mapAddressToSubnetwork
  start := start
  direction := direction

structure AttemptContainer where
  byEndpoint : Table SocketAddrV6 AttemptEntry
  byAddress : Table Ipv6Addr (List SocketAddrV6)
  bySubnetwork : Table Ipv6Addr (List SocketAddrV6)

namespace AttemptContainer

def empty : AttemptContainer := ⟨∅, ∅, ∅⟩

/-- Append an endpoint to the list of a key. -/
def pushTo (index : Table Ipv6Addr (List SocketAddrV6)) (key : Ipv6Addr) (endpoint : SocketAddrV6) :
    Table Ipv6Addr (List SocketAddrV6) :=
  index.put key ((index.get key).getD [] ++ [endpoint])

/-- Take an endpoint from the list of a key, and the last one with its list. -/
def dropFrom (index : Table Ipv6Addr (List SocketAddrV6)) (key : Ipv6Addr)
    (endpoint : SocketAddrV6) : Except NetworkPanic (Table Ipv6Addr (List SocketAddrV6)) :=
  match index.get key with
  | none => .error .missingAttempt
  | some endpoints =>
    .ok (if 1 < endpoints.length then index.put key (endpoints.filter (· ≠ endpoint))
      else index.del key)

variable (c : AttemptContainer)

def insert (endpoint : SocketAddrV6) (direction : ChannelDirection)
    (start : Timestamp) : AttemptContainer :=
  if c.byEndpoint.contains endpoint then c
  else
    let attempt := AttemptEntry.new endpoint direction start
    { byAddress := pushTo c.byAddress attempt.address endpoint
      bySubnetwork := pushTo c.bySubnetwork attempt.subnetwork endpoint
      byEndpoint := c.byEndpoint.put endpoint attempt }

def remove (endpoint : SocketAddrV6) :
    Except NetworkPanic AttemptContainer :=
  match c.byEndpoint.get endpoint with
  | none => .ok c
  | some attempt => do
    let byAddress ← dropFrom c.byAddress attempt.address endpoint
    let bySubnetwork ← dropFrom c.bySubnetwork attempt.subnetwork endpoint
    return ⟨c.byEndpoint.del endpoint, byAddress, bySubnetwork⟩

def countBySubnetwork (subnet : Ipv6Addr) : ℕ :=
  match c.bySubnetwork.get subnet with
  | some entries => entries.length
  | none => 0

def countByAddress (address : Ipv6Addr) : ℕ :=
  match c.byAddress.get address with
  | some entries => entries.length
  | none => 0

/-- The oldest outgoing attempt; of equally old ones the first in the order of the iteration. -/
def getOldest (order : List SocketAddrV6) :
    Option (Timestamp × SocketAddrV6) :=
  let attempts := (order.filterMap c.byEndpoint.get).filter (·.direction = .outbound)
  let oldest := attempts.foldl (fun oldest attempt =>
    match oldest with
    | none => some attempt
    | some first => if attempt.start < first.start then some attempt else some first) none
  oldest.map fun attempt => (attempt.start, attempt.endpoint)

/-- Remove old attempts one by one; there are no more rounds than attempts. -/
def purgeLoop (now : Timestamp) (timeout : ℕ) (order : List SocketAddrV6) :
    ℕ → AttemptContainer → Except NetworkPanic AttemptContainer
  | 0, c => .ok c
  | n + 1, c =>
    match c.getOldest order with
    | none => .ok c
    | some (time, endpoint) =>
      if now.sub time < timeout then .ok c
      else do
        let c ← c.remove endpoint
        purgeLoop now timeout order n c

def purge (now : Timestamp) (timeout : ℕ) (order : List SocketAddrV6) :
    Except NetworkPanic AttemptContainer :=
  purgeLoop now timeout order c.byEndpoint.size c

end AttemptContainer

end RsNano
