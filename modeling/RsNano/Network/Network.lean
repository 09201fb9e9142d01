import RsNano.Lib.Machine
import RsNano.Messages.Header
import RsNano.Network.PeerExclusion

/-!
# The channels of a node

A node keeps a table of channels, checks each new connection against its limits, and removes
channels that are closed. A closed channel stays in the table until it is purged. Channels have the
fields that the modelled functions read; the id of a channel is its key in the table.
-/

namespace RsNano

structure NetworkConfig where
  maxInboundConnections : ℕ
  maxOutboundConnections : ℕ
  maxPeersPerIp : ℕ
  maxPeersPerSubnetwork : ℕ
  allowLocalPeers : Bool
  protocolInfo : ProtocolInfo
  listeningPort : BitVec 16
  deriving DecidableEq

def NetworkConfig.defaultFor (network : Networks) : NetworkConfig where
  maxInboundConnections := if network = .nanoDevNetwork then 128 else 2048
  maxOutboundConnections := if network = .nanoDevNetwork then 128 else 2048
  allowLocalPeers := true
  maxPeersPerIp :=
    match network with
    | .nanoDevNetwork | .nanoBetaNetwork => 256
    | _ => 4
  maxPeersPerSubnetwork :=
    match network with
    | .nanoDevNetwork | .nanoBetaNetwork => 256
    | _ => 16
  protocolInfo := { (default : ProtocolInfo) with network := network }
  listeningPort :=
    match network with
    | .nanoDevNetwork => 44000
    | .nanoBetaNetwork => 54000
    | .nanoTestNetwork => 17076
    | _ => 7075

inductive NetworkError
  | maxConnections
  | maxConnectionsPerSubnetwork
  | maxConnectionsPerIp
  | peerExcluded
  | invalidIp
  | duplicateConnection
  deriving DecidableEq, Repr

abbrev ChannelId := BitVec 64

structure Channel where
  peerAddr : SocketAddrV6
  peeringAddr : Option SocketAddrV6
  protocolVersion : BitVec 8
  direction : ChannelDirection
  lastActivityMillis : ℤ
  closed : Bool
  deriving DecidableEq

namespace Channel

def new (peerAddr : SocketAddrV6) (direction : ChannelDirection) (protocolVersion : BitVec 8)
    (now : Timestamp) : Channel where
  peerAddr := peerAddr
  peeringAddr := if direction = .outbound then some peerAddr else none
  protocolVersion := protocolVersion
  direction := direction
  lastActivityMillis := now.millis
  closed := false

variable (c : Channel)

def isAlive : Bool := ¬ c.closed

def close : Channel := { c with closed := true }

def lastActivity : Timestamp := c.lastActivityMillis * 1000000

def setLastActivity (now : Timestamp) : Channel :=
  { c with lastActivityMillis := now.millis }

def setPeeringAddr (peeringAddr : SocketAddrV6) : Channel :=
  { c with peeringAddr := some peeringAddr }

def setProtocolVersion (version : BitVec 8) : Channel :=
  { c with protocolVersion := version }

def ipv4AddressOrIpv6Subnet : Ipv6Addr := c.peerAddr.ip.ipv4AddressOrIpv6Subnet

def subnetwork : Ipv6Addr := c.peerAddr.ip.mapAddressToSubnetwork

end Channel

structure Network where
  nextChannelId : ChannelId
  channels : Table ChannelId Channel
  attempts : AttemptContainer
  config : NetworkConfig
  excludedPeers : PeerExclusion
  stopped : Bool

namespace Network

def new (config : NetworkConfig) : Network := ⟨1, ∅, .empty, config, .new, false⟩

variable (n : Network)

def countByIp (ip : Ipv6Addr) : ℕ :=
  n.channels.count fun c => c.isAlive ∧ c.ipv4AddressOrIpv6Subnet = ip

def countBySubnet (subnet : Ipv6Addr) : ℕ :=
  n.channels.count fun c => c.isAlive ∧ c.subnetwork = subnet

def countByDirection (direction : ChannelDirection) : ℕ :=
  n.channels.count fun c => c.isAlive ∧ c.direction = direction

def maxIpConnections (endpoint : SocketAddrV6) : Bool :=
  n.config.maxPeersPerIp ≤ n.countByIp endpoint.ip + n.attempts.countByAddress endpoint.ip

def maxSubnetworkConnections (peer : SocketAddrV6) : Bool :=
  if peer.ip.isIpv4Mapped then false
  else
    let subnet := peer.ip.mapAddressToSubnetwork
    n.config.maxPeersPerSubnetwork ≤ n.countBySubnet subnet + n.attempts.countBySubnetwork subnet

def notAPeer (endpoint : SocketAddrV6) (allowLocalPeers : Bool) : Bool :=
  endpoint.ip = 0 ∨ reservedAddress endpoint allowLocalPeers ∨
    endpoint = ⟨Ipv6Addr.localhost, n.config.listeningPort, 0, 0⟩

def maxConnections : ChannelDirection → ℕ
  | .inbound => n.config.maxInboundConnections
  | .outbound => n.config.maxOutboundConnections

/-- The error of a new connection, if it is refused. The list of excluded peers is asked after the
first check only. -/
def validateNewConnection (peer : SocketAddrV6) (direction : ChannelDirection)
    (now : Timestamp) : Except NetworkPanic (Option NetworkError × Network) :=
  if n.maxConnections direction ≤ n.countByDirection direction then
    .ok (some .maxConnections, n)
  else do
    let (excluded, excludedPeers) ← n.excludedPeers.isExcluded peer now
    let n := { n with excludedPeers := excludedPeers }
    return (
      if excluded then some .peerExcluded
      else if n.config.maxPeersPerIp ≤ n.countByIp peer.ip then some .maxConnectionsPerIp
      else if n.maxIpConnections peer then some .maxConnectionsPerIp
      else if n.maxSubnetworkConnections peer then some .maxConnectionsPerSubnetwork
      else if n.notAPeer peer n.config.allowLocalPeers then some .invalidIp
      else if direction = .outbound ∧ 0 < n.channels.count (fun c => c.isAlive ∧ c.peerAddr = peer)
        then some .duplicateConnection
      else if direction = .outbound ∧
          0 < n.channels.count (fun c => c.isAlive ∧ c.peeringAddr = some peer)
        then some .duplicateConnection
      else none, n)

def permaBan (peerAddr : SocketAddrV6) : Network :=
  { n with excludedPeers := n.excludedPeers.permaBan peerAddr }

def isExcluded (peerAddr : SocketAddrV6) (now : Timestamp) :
    Except NetworkPanic (Bool × Network) := do
  let (excluded, excludedPeers) ← n.excludedPeers.isExcluded peerAddr now
  return (excluded, { n with excludedPeers := excludedPeers })

def removeAttempt (remote : SocketAddrV6) : Except NetworkPanic Network := do
  let attempts ← n.attempts.remove remote
  return { n with attempts := attempts }

def addOutboundAttempt (peer : SocketAddrV6) (now : Timestamp) :
    Except NetworkPanic (Option NetworkError × Network) := do
  let n := { n with attempts := n.attempts.insert peer .outbound now }
  let (error, n) ← n.validateNewConnection peer .outbound now
  match error with
  | some e =>
    let n ← n.removeAttempt peer
    return (some e, n)
  | none => return (none, n)

/-- Insert a channel under the next id. -/
def insertChannel (peerAddr : SocketAddrV6) (direction : ChannelDirection)
    (now : Timestamp) : Network :=
  let channel := Channel.new peerAddr direction n.config.protocolInfo.versionMin now
  { n with
    nextChannelId := n.nextChannelId + 1
    channels := n.channels.put n.nextChannelId channel }

def add (peerAddr : SocketAddrV6) (direction : ChannelDirection) (now : Timestamp) :
    Except NetworkPanic (Option NetworkError × Network) := do
  let (error, n) ← n.validateNewConnection peerAddr direction now
  match error with
  | some e => return (some e, n)
  | none => return (none, n.insertChannel peerAddr direction now)

def remove (channelId : ChannelId) : Network :=
  { n with channels := n.channels.del channelId }

/-- Change a channel that is in the table. -/
def modifyChannel (channelId : ChannelId) (f : Channel → Channel) : Network :=
  match n.channels.get channelId with
  | some c => { n with channels := n.channels.put channelId (f c) }
  | none => n

def closeIdleChannels (now : Timestamp) (cutoffPeriod : ℕ) : Network :=
  { n with channels := n.channels.mapValues fun _ c =>
      if cutoffPeriod ≤ now.sub c.lastActivity then c.close else c }

def closeOldProtocolVersions (minVersion : BitVec 8) : Network :=
  { n with channels := n.channels.mapValues fun _ c =>
      if c.protocolVersion < minVersion then c.close else c }

def removeDeadChannels : Network :=
  { n with channels := n.channels.retain fun _ c => c.isAlive }

def purge (now : Timestamp) (cutoffPeriod : ℕ) (order : List SocketAddrV6) :
    Except NetworkPanic Network := do
  let n := n.closeIdleChannels now cutoffPeriod
  let n := n.closeOldProtocolVersions n.config.protocolInfo.versionMin
  let n := n.removeDeadChannels
  let attempts ← n.attempts.purge now cutoffPeriod order
  return { n with attempts := attempts }

def peerMisbehaved (channelId : ChannelId) (now : Timestamp) :
    Except NetworkPanic Network :=
  match n.channels.get channelId with
  | none => .ok n
  | some channel => do
    let excludedPeers ← n.excludedPeers.peerMisbehaved channel.peerAddr now
    return { n with excludedPeers := excludedPeers }.modifyChannel channelId Channel.close

def stop (n : Network) : Network :=
  if n.stopped then n else { n with channels := ∅, stopped := true }

/-- What happens to a network: its own calls, and what its users do to its channels. -/
inductive Operation
  | add (peerAddr : SocketAddrV6) (direction : ChannelDirection) (now : Timestamp)
  | addOutboundAttempt (peer : SocketAddrV6) (now : Timestamp)
  | removeAttempt (remote : SocketAddrV6)
  | remove (channelId : ChannelId)
  | purge (now : Timestamp) (cutoffPeriod : ℕ) (order : List SocketAddrV6)
  | close (channelId : ChannelId)
  | peerMisbehaved (channelId : ChannelId) (now : Timestamp)
  | setPeeringAddr (channelId : ChannelId) (peeringAddr : SocketAddrV6)
  | setProtocolVersion (channelId : ChannelId) (version : BitVec 8)
  | setLastActivity (channelId : ChannelId) (now : Timestamp)
  | permaBan (peerAddr : SocketAddrV6)
  | isExcluded (peerAddr : SocketAddrV6) (now : Timestamp)
  | setListeningPort (port : BitVec 16)
  | stop

def apply : Operation → Except NetworkPanic Network
  | .add peerAddr direction now => (n.add peerAddr direction now).map Prod.snd
  | .addOutboundAttempt peer now => (n.addOutboundAttempt peer now).map Prod.snd
  | .removeAttempt remote => n.removeAttempt remote
  | .remove channelId => .ok (n.remove channelId)
  | .purge now cutoffPeriod order => n.purge now cutoffPeriod order
  | .close channelId => .ok (n.modifyChannel channelId Channel.close)
  | .peerMisbehaved channelId now => n.peerMisbehaved channelId now
  | .setPeeringAddr channelId addr =>
    .ok (n.modifyChannel channelId (·.setPeeringAddr addr))
  | .setProtocolVersion channelId version =>
    .ok (n.modifyChannel channelId (·.setProtocolVersion version))
  | .setLastActivity channelId now =>
    .ok (n.modifyChannel channelId (·.setLastActivity now))
  | .permaBan peerAddr => .ok (n.permaBan peerAddr)
  | .isExcluded peerAddr now => (n.isExcluded peerAddr now).map Prod.snd
  | .setListeningPort port => .ok { n with config := { n.config with listeningPort := port } }
  | .stop => .ok n.stop

end Network

end RsNano
