import RsNano.Messages.AscPull
import RsNano.Messages.Telemetry

/-!
# Messages

The sum of all message types, how long the payload behind a header is, which headers a node
accepts, and how a message is written and read. The payload that a message writes has the length
that its header announces, and it is read back.
-/

namespace RsNano

open Reader PayloadError

inductive Message
  | keepalive (m : Keepalive)
  | publish (m : Publish)
  | ascPullAck (m : AscPullAck)
  | ascPullReq (m : AscPullReq)
  | bulkPull (m : BulkPull)
  | bulkPullAccount (m : BulkPullAccount)
  | bulkPush
  | confirmAck (m : ConfirmAck)
  | confirmReq (m : ConfirmReq)
  | frontierReq (m : FrontierReq)
  | nodeIdHandshake (m : NodeIdHandshake)
  | telemetryAck (m : TelemetryAck)
  | telemetryReq

inductive ParseMessageError
  | invalidHeader
  | invalidMessage (t : MessageType)
  | invalidNetwork
  | outdatedVersion
  | messageSizeTooBig
  deriving DecidableEq, Repr

structure DeserializedMessage where
  message : Message
  protocol : ProtocolInfo

namespace MessageHeader

def payloadLength (h : MessageHeader) : ℕ :=
  match h.messageType with
  | .keepalive => Keepalive.serializedSize
  | .publish => Publish.serializedSize h.extensions
  | .confirmReq => ConfirmReq.serializedSize h.extensions
  | .confirmAck => ConfirmAck.serializedSize h.extensions
  | .bulkPull => BulkPull.serializedSize h.extensions
  | .bulkPush => 0
  | .telemetryReq => 0
  | .frontierReq => FrontierReq.serializedSize
  | .nodeIdHandshake => NodeIdHandshake.serializedSize h.extensions
  | .bulkPullAccount => BulkPullAccount.serializedSize
  | .telemetryAck => TelemetryAck.serializedSize h.extensions
  | .ascPullReq => AscPullReq.serializedSize h.extensions
  | .ascPullAck => AscPullAck.serializedSize h.extensions
  | .invalid => 0
  | .notAType => 0

end MessageHeader

namespace Message

def maxMessageSize : ℕ := 1024 * 65

def messageType : Message → MessageType
  | keepalive _ => .keepalive
  | publish _ => .publish
  | ascPullAck _ => .ascPullAck
  | ascPullReq _ => .ascPullReq
  | bulkPull _ => .bulkPull
  | bulkPullAccount _ => .bulkPullAccount
  | bulkPush => .bulkPush
  | confirmAck _ => .confirmAck
  | confirmReq _ => .confirmReq
  | frontierReq _ => .frontierReq
  | nodeIdHandshake _ => .nodeIdHandshake
  | telemetryAck _ => .telemetryAck
  | telemetryReq => .telemetryReq

def headerExtensions (payloadLen : BitVec 16) : Message → Extensions
  | keepalive _ => 0
  | publish m => m.headerExtensions
  | ascPullAck _ => AscPullAck.headerExtensions payloadLen
  | ascPullReq _ => AscPullReq.headerExtensions payloadLen
  | bulkPull m => m.headerExtensions
  | bulkPullAccount _ => 0
  | bulkPush => 0
  | confirmAck m => m.headerExtensions
  | confirmReq m => m.headerExtensions
  | frontierReq m => m.headerExtensions
  | nodeIdHandshake m => m.headerExtensions
  | telemetryAck m => m.headerExtensions
  | telemetryReq => 0

def serialize : Message → List Byte
  | keepalive m => m.serialize
  | publish m => m.serialize
  | ascPullAck m => m.serialize
  | ascPullReq m => m.serialize
  | bulkPull m => m.serialize
  | bulkPullAccount m => m.serialize
  | confirmAck m => m.serialize
  | confirmReq m => m.serialize
  | frontierReq m => m.serialize
  | nodeIdHandshake m => m.serialize
  | telemetryAck m => m.serialize
  | bulkPush => []
  | telemetryReq => []

def deserialize (H : Blake2b) (header : MessageHeader) (digest : BitVec 128) :
    PayloadReader Message :=
  match header.messageType with
  | .keepalive => do return keepalive (← Keepalive.deserialize)
  | .publish => do return publish (← Publish.deserialize H header.extensions digest)
  | .ascPullAck => do return ascPullAck (← AscPullAck.deserialize H)
  | .ascPullReq => do return ascPullReq (← AscPullReq.deserialize)
  | .bulkPull => do return bulkPull (← BulkPull.deserialize header.extensions)
  | .bulkPullAccount => do return bulkPullAccount (← BulkPullAccount.deserialize)
  | .bulkPush => return bulkPush
  | .confirmAck => do return confirmAck (← ConfirmAck.deserialize header.extensions digest)
  | .confirmReq => do return confirmReq (← ConfirmReq.deserialize header.extensions)
  | .frontierReq => do return frontierReq (← FrontierReq.deserialize header.extensions)
  | .nodeIdHandshake => do return nodeIdHandshake (← NodeIdHandshake.deserialize header.extensions)
  | .telemetryAck => do return telemetryAck (← TelemetryAck.deserialize header.extensions)
  | .telemetryReq => return telemetryReq
  | .invalid => fail (.invalid .invalidData)
  | .notAType => fail (.invalid .invalidData)

def isObsolete (m : Message) : Bool :=
  m.messageType = .bulkPull ∨ m.messageType = .bulkPullAccount ∨ m.messageType = .bulkPush ∨
    m.messageType = .telemetryReq

end Message

def validateHeader (header : MessageHeader) (expectedProtocol : ProtocolInfo) :
    Except ParseMessageError Unit :=
  if header.protocol.network ≠ expectedProtocol.network then .error .invalidNetwork
  else if header.protocol.versionUsing < expectedProtocol.versionMin then .error .outdatedVersion
  else if ¬ header.isValidMessageType then .error .invalidHeader
  else if Message.maxMessageSize < header.payloadLength then .error .messageSizeTooBig
  else .ok ()

namespace MessageSerializer

/-- The header that announces a message. -/
def header (protocol : ProtocolInfo) (m : Message) : MessageHeader where
  messageType := m.messageType
  protocol := protocol
  extensions := m.headerExtensions (BitVec.ofNat 16 m.serialize.length)

def serialize (protocol : ProtocolInfo) (m : Message) : List Byte :=
  (header protocol m).serialize ++ m.serialize

end MessageSerializer

namespace Message

/-- The messages that the node builds: blocks carry their own hashes, digests are not set yet, and
lists keep the limits of their message types. -/
def Built (H : Blake2b) : Message → Prop
  | publish m => m.block.Hashed H ∧ m.digest = 0
  | ascPullAck m => m.pullType.Sendable H
  | confirmAck m => m.vote.hashes.length ≤ ConfirmAck.hashesMax ∧ m.digest = 0
  | confirmReq m => m.rootsHashes ≠ [] ∧ m.rootsHashes.length ≤ 255 ∧
      ∀ p ∈ m.rootsHashes, p.1 ≠ 0 ∨ p.2 ≠ 0
  | nodeIdHandshake m => m.Flagged
  | telemetryAck m => m.Fits
  | _ => True

/-- The bytes of a message have room for all of it: the endpoints of a keepalive message have
neither flow information nor a scope. -/
def Plain : Message → Prop
  | keepalive m => ∀ peer ∈ m.peers.toList, peer.flowinfo = 0 ∧ peer.scopeId = 0
  | _ => True

variable {H : Blake2b} {m : Message}

/-- The header announces the length of the payload. -/
theorem payloadLength_header (protocol : ProtocolInfo) (hbuilt : m.Built H)
    (hobs : m.isObsolete = false) :
    (MessageSerializer.header protocol m).payloadLength = m.serialize.length := by
  cases m with
  | keepalive m => exact m.length_serialize.symm
  | publish m => exact m.serializedSize_headerExtensions
  | ascPullAck m => exact AscPullAck.serializedSize_headerExtensions hbuilt
  | ascPullReq m => exact m.serializedSize_headerExtensions
  | confirmAck m => exact ConfirmAck.serializedSize_headerExtensions hbuilt.1
  | confirmReq m => exact ConfirmReq.serializedSize_headerExtensions hbuilt.2.1
  | frontierReq m => exact m.length_serialize.symm
  | nodeIdHandshake m => exact NodeIdHandshake.serializedSize_headerExtensions hbuilt
  | telemetryAck m => exact TelemetryAck.serializedSize_headerExtensions hbuilt
  | bulkPull m | bulkPullAccount m | bulkPush | telemetryReq => cases hobs

theorem keepalive_onWire {k : Keepalive} (h : (keepalive k).Plain) :
    k.peers.map SocketAddrV6.onWire = k.peers := by
  apply List.Vector.eq
  refine (List.map_congr_left fun peer hpeer => ?_).trans (List.map_id _)
  obtain ⟨hflow, hscope⟩ := h peer hpeer
  obtain ⟨ip, port, flowinfo, scopeId⟩ := peer
  cases hflow
  cases hscope
  rfl

/-- The payload is read back with all flags. -/
theorem decodes (protocol : ProtocolInfo) (hbuilt : m.Built H) (hplain : m.Plain)
    (hobs : m.isObsolete = false) :
    Decodes (deserialize H (MessageSerializer.header protocol m) 0) m.serialize m := by
  cases m with
  | keepalive m =>
    have hread : Reads Keepalive.deserialize m.serialize m := by
      have hpeers := Keepalive.reads_peers m.peers
      rw [keepalive_onWire hplain] at hpeers
      exact hpeers.bind_pure
    exact (reads_liftM hread).decodes.bind_pure
  | publish m =>
    have hread := Publish.reads hbuilt.1
    rw [hbuilt.2] at hread
    exact (reads_liftM hread).decodes.bind_pure
  | ascPullAck m => exact (AscPullAck.decodes hbuilt).bind_pure
  | ascPullReq m => exact (reads_liftM m.reads).decodes.bind_pure
  | confirmAck m =>
    have hdec := ConfirmAck.decodes hbuilt.1
    rw [hbuilt.2] at hdec
    exact hdec.bind_pure
  | confirmReq m => exact (ConfirmReq.reads hbuilt.1 hbuilt.2.1 hbuilt.2.2).decodes.bind_pure
  | frontierReq m => exact (reads_liftM m.reads).decodes.bind_pure
  | nodeIdHandshake m => exact (reads_liftM (NodeIdHandshake.reads hbuilt)).decodes.bind_pure
  | telemetryAck m => exact (TelemetryAck.reads hbuilt).decodes.bind_pure
  | bulkPull m | bulkPullAccount m | bulkPush | telemetryReq => cases hobs

/-- No payload makes the reader panic. -/
theorem ensures_deserialize (header : MessageHeader) (digest : BitVec 128) :
    Ensures (deserialize H header digest) (fun _ => True) Returned := by
  have hlift : ∀ {α : Type} (r : BlockReader α) (f : α → Message),
      Ensures (do return f (← r) : PayloadReader Message) (fun _ => True) Returned :=
    fun r f => (ensures_liftM (.trivial r)).bind fun _ _ => .pure True.intro
  have hlast : ∀ {α : Type} {r : PayloadReader α} (f : α → Message),
      Ensures r (fun _ => True) Returned → Ensures (do return f (← r)) (fun _ => True) Returned :=
    fun f h => h.bind fun _ _ => .pure True.intro
  rw [deserialize]
  cases header.messageType with
  | ascPullAck => exact hlast _ (AscPullAck.ensures_deserialize H)
  | confirmAck => exact hlast _ (ConfirmAck.ensures_deserialize _ _)
  | confirmReq => exact hlast _ (ConfirmReq.ensures_deserialize _)
  | telemetryAck => exact hlast _ (TelemetryAck.ensures_deserialize _)
  | bulkPush | telemetryReq => exact .pure True.intro
  | invalid | notAType => exact fun bytes => .inr ⟨_, rfl, _, rfl⟩
  | keepalive | publish | ascPullReq | bulkPull | bulkPullAccount | frontierReq
  | nodeIdHandshake => exact hlift _ _

end Message

end RsNano
