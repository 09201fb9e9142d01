import RsNano.Types.BlockCodec

/-!
# Message headers

The eight bytes in front of every message: the network, the protocol versions, the message type
and sixteen extension bits whose meaning depends on the type. The types of the optional ledger
snapshots are left out; without that feature their numbers are unknown message types.
-/

namespace RsNano

open Reader

inductive Networks
  | invalid
  | nanoDevNetwork
  | nanoBetaNetwork
  | nanoLiveNetwork
  | nanoTestNetwork
  deriving DecidableEq, Repr

namespace Networks

def toU16 : Networks → BitVec 16
  | invalid => 0x0
  | nanoDevNetwork => 0x5241
  | nanoBetaNetwork => 0x5242
  | nanoLiveNetwork => 0x5243
  | nanoTestNetwork => 0x5258

def fromU16 (id : BitVec 16) : Option Networks :=
  [invalid, nanoDevNetwork, nanoBetaNetwork, nanoLiveNetwork, nanoTestNetwork].find? (·.toU16 = id)

theorem fromU16_toU16 (n : Networks) : fromU16 n.toU16 = some n := by
  cases n <;> rfl

end Networks

structure ProtocolInfo where
  versionUsing : Byte
  versionMax : Byte
  versionMin : Byte
  network : Networks
  deriving DecidableEq, Repr

instance : Inhabited ProtocolInfo := ⟨⟨0x15, 0x15, 0x14, .nanoLiveNetwork⟩⟩

inductive MessageType
  | invalid
  | notAType
  | keepalive
  | publish
  | confirmReq
  | confirmAck
  | bulkPull
  | bulkPush
  | frontierReq
  | nodeIdHandshake
  | bulkPullAccount
  | telemetryReq
  | telemetryAck
  | ascPullReq
  | ascPullAck
  deriving DecidableEq, Repr

namespace MessageType

def toU8 : MessageType → Byte
  | invalid => 0x0
  | notAType => 0x1
  | keepalive => 0x2
  | publish => 0x3
  | confirmReq => 0x4
  | confirmAck => 0x5
  | bulkPull => 0x6
  | bulkPush => 0x7
  | frontierReq => 0x8
  | nodeIdHandshake => 0x0a
  | bulkPullAccount => 0x0b
  | telemetryReq => 0x0c
  | telemetryAck => 0x0d
  | ascPullReq => 0x0e
  | ascPullAck => 0x0f

def fromU8 (id : Byte) : Option MessageType :=
  [invalid, notAType, keepalive, publish, confirmReq, confirmAck, bulkPull, bulkPush, frontierReq,
    nodeIdHandshake, bulkPullAccount, telemetryReq, telemetryAck, ascPullReq, ascPullAck].find?
      (·.toU8 = id)

theorem fromU8_toU8 (t : MessageType) : fromU8 t.toU8 = some t := by
  cases t <;> rfl

end MessageType

/-- The message-specific bits of a header. -/
abbrev Extensions := BitVec 16

def Extensions.set (extensions : Extensions) (position : ℕ) (value : Bool) : Extensions :=
  if value then extensions ||| BitVec.twoPow 16 position
  else extensions &&& ~~~(BitVec.twoPow 16 position)

/-- The type of block that the extensions name; `BlockType.ofId` has none for the numbers that
stand for an invalid or for no block. -/
def Extensions.blockTypeId (extensions : Extensions) : Byte :=
  ((extensions &&& 0x0f00) >>> 8).setWidth 8

/-- The number that stands for "not a block". -/
def notABlockId : Byte := 1

structure MessageHeader where
  messageType : MessageType
  protocol : ProtocolInfo
  extensions : Extensions
  deriving DecidableEq, Repr

namespace MessageHeader

def serializedSize : ℕ := 8

variable (h : MessageHeader)

def serialize : List Byte :=
  Bytes.be 2 h.protocol.network.toU16 ++ ([h.protocol.versionMax] ++ ([h.protocol.versionUsing] ++
    ([h.protocol.versionMin] ++ ([h.messageType.toU8] ++ Bytes.le 2 h.extensions))))

def deserialize : BlockReader MessageHeader := do
  let network ← okOr .invalidData (Networks.fromU16 (← readBe .ioError 2))
  let versionMax ← readU8
  let versionUsing ← readU8
  let versionMin ← readU8
  let messageType ← okOr .invalidData (MessageType.fromU8 (← readU8))
  let extensions ← readLe .ioError 2
  return ⟨messageType, ⟨versionUsing, versionMax, versionMin, network⟩, extensions⟩

def isValidMessageType : Bool := ¬ (h.messageType = .invalid ∨ h.messageType = .notAType)

@[simp] theorem length_serialize : h.serialize.length = serializedSize := by
  simp [serialize, serializedSize]

/-- A header is read back from its bytes. -/
theorem reads : Reads deserialize h.serialize h := by
  refine Reads.bind (Reads.readBe (by decide) _) ?_
  rw [Networks.fromU16_toU16]
  refine (Reads.pure _).bind ((reads_u8 _).bind ((reads_u8 _).bind ((reads_u8 _).bind
    ((reads_u8 _).bind ?_))))
  rw [MessageType.fromU8_toU8]
  exact (Reads.pure _).bind (Reads.readLe (by decide) _).bind_pure

end MessageHeader

end RsNano
