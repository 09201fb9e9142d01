import RsNano.Network.Addresses

/-!
# Excluded peers

A peer that misbehaves is remembered by its address, and is excluded for a while after the second
time. Permanent bans are by endpoint. The list keeps an index by the end of the exclusion; an index
that lacks an entry is a panic.
-/

namespace RsNano

namespace PeerExclusion

structure Peer where
  excludeUntil : Timestamp
  address : SocketAddrV6
  score : BitVec 64
  deriving DecidableEq

namespace Peer

def scoreLimit : BitVec 64 := 2

def excludeTime : Timestamp := 60 * 60 * 1000000000

def excludeRemove : Timestamp := 60 * 60 * 24 * 1000000000

def new (address : SocketAddrV6) (now : Timestamp) : Peer where
  address := address
  excludeUntil := now + excludeTime
  score := 1

/-- The factor is computed with 32 bits. -/
def exclusionDurationFactor (newScore : BitVec 64) : ℕ :=
  if newScore ≤ scoreLimit then 1 else (newScore.setWidth 32 * 2).toNat

def exclusionEnd (newScore : BitVec 64) (now : Timestamp) : Timestamp :=
  now + excludeTime * exclusionDurationFactor newScore

def misbehaved (p : Peer) (now : Timestamp) : Peer :=
  let score := p.score + 1
  { p with score := score, excludeUntil := exclusionEnd score now }

def isExcluded (p : Peer) (now : Timestamp) : Bool := scoreLimit ≤ p.score ∧ now < p.excludeUntil

def hasExpired (p : Peer) (now : Timestamp) : Bool :=
  p.excludeUntil + excludeRemove * (p.score.setWidth 32).toNat < now

end Peer

/-! ### The index by date -/

abbrev PeersOrderedByExclusionDate := Table Timestamp (List Ipv6Addr)

namespace PeersOrderedByExclusionDate

variable (d : PeersOrderedByExclusionDate)

/-- Take the last address of the earliest date. -/
def pop :
    Except NetworkPanic (Option (Ipv6Addr × PeersOrderedByExclusionDate)) :=
  match Table.sortedKeys d (· ≤ ·) with
  | [] => .ok none
  | instant :: _ =>
    let ips := (d.get instant).getD []
    match ips.getLast? with
    | none => .error .excludedPeers
    | some ip =>
      .ok (some (ip, if ips.dropLast = [] then d.del instant else d.put instant ips.dropLast))

def insert (ip : Ipv6Addr) (excludeUntil : Timestamp) :
    PeersOrderedByExclusionDate :=
  d.put excludeUntil ((d.get excludeUntil).getD [] ++ [ip])

def remove (ip : Ipv6Addr) (excludeUntil : Timestamp) :
    Except NetworkPanic PeersOrderedByExclusionDate :=
  match d.get excludeUntil with
  | none => .error .excludedPeers
  | some ips =>
    let entries := ips.filter (· ≠ ip)
    .ok (if entries = [] then d.del excludeUntil else d.put excludeUntil entries)

def updateExclusionEnd (oldDate : Timestamp) (peer : Peer) :
    Except NetworkPanic PeersOrderedByExclusionDate := do
  let d ← d.remove peer.address.ip oldDate
  return d.insert peer.address.ip peer.excludeUntil

end PeersOrderedByExclusionDate

end PeerExclusion

open PeerExclusion in
structure PeerExclusion where
  orderedByDate : PeersOrderedByExclusionDate
  byIp : Table Ipv6Addr Peer
  maxSize : ℕ
  permaBans : Finset SocketAddrV6

namespace PeerExclusion

def withMaxSize (maxSize : ℕ) : PeerExclusion := ⟨∅, ∅, maxSize, ∅⟩

def new : PeerExclusion := withMaxSize 5000

variable (x : PeerExclusion)

def remove (endpoint : SocketAddrV6) : Except NetworkPanic PeerExclusion :=
  match x.byIp.get endpoint.ip with
  | none => .ok x
  | some item => do
    let orderedByDate ← x.orderedByDate.remove item.address.ip item.excludeUntil
    return { x with byIp := x.byIp.del endpoint.ip, orderedByDate := orderedByDate }

def insert (peer : Peer) : PeerExclusion :=
  { x with
    orderedByDate := x.orderedByDate.insert peer.address.ip peer.excludeUntil
    byIp := x.byIp.put peer.address.ip peer }

/-- Forget peers until there is room for one more; there are no more rounds than peers. -/
def cleanOldPeers : ℕ → PeerExclusion → Except NetworkPanic PeerExclusion
  | 0, x => .ok x
  | n + 1, x =>
    if 1 < x.byIp.size ∧ x.maxSize ≤ x.byIp.size then do
      match ← x.orderedByDate.pop with
      | none => .error .excludedPeers
      | some (ip, orderedByDate) =>
        cleanOldPeers n { x with byIp := x.byIp.del ip, orderedByDate := orderedByDate }
    else .ok x

def peerMisbehaved (endpoint : SocketAddrV6) (now : Timestamp) :
    Except NetworkPanic PeerExclusion :=
  match x.byIp.get endpoint.ip with
  | some old => do
    let peer := old.misbehaved now
    let x := { x with byIp := x.byIp.put endpoint.ip peer }
    if peer.excludeUntil ≠ old.excludeUntil then
      let orderedByDate ← x.orderedByDate.updateExclusionEnd old.excludeUntil peer
      return { x with orderedByDate := orderedByDate }
    else return x
  | none => do
    let x ← cleanOldPeers x.byIp.size x
    return x.insert (Peer.new endpoint now)

def permaBan (peerAddr : SocketAddrV6) : PeerExclusion :=
  { x with permaBans := Insert.insert peerAddr x.permaBans }

/-- Whether an endpoint is excluded; an expired entry is forgotten. -/
def isExcluded (peerAddr : SocketAddrV6) (now : Timestamp) :
    Except NetworkPanic (Bool × PeerExclusion) :=
  if peerAddr ∈ x.permaBans then .ok (true, x)
  else
    match x.byIp.get peerAddr.ip with
    | none => .ok (false, x)
    | some peer => do
      let x ← if peer.hasExpired now then x.remove peer.address else pure x
      return (peer.isExcluded now, x)

end PeerExclusion

end RsNano
