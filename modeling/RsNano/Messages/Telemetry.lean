import RsNano.Messages.Payloads

/-!
# Telemetry

A telemetry message carries data about a node, and bytes at its end that later versions added.
The header tells its size. Points in time are nanoseconds since the Unix epoch; on the wire there
are milliseconds. Seconds are a signed 64-bit number in the standard library of the platforms
with a Unix clock, and a sum beyond that range panics.
-/

namespace RsNano

open Reader Bytes PayloadError

/-- Nanoseconds since the Unix epoch. -/
abbrev SystemTime := ℕ

namespace SystemTime

/-- The whole milliseconds since the Unix epoch. -/
def asMillis (t : SystemTime) : ℕ := t / 10 ^ 6

/-- The point in time that many milliseconds after the Unix epoch. -/
def fromMillis (millis : BitVec 64) : SystemTime := millis.toNat * 10 ^ 6

/-- The sum of the Unix epoch and a duration in milliseconds. -/
def addMillis (millis : BitVec 64) : Except PayloadError SystemTime :=
  if millis.toNat / 1000 < 2 ^ 63 then .ok (fromMillis millis) else .error .timeOverflow

theorem addMillis_eq_ok (millis : BitVec 64) : addMillis millis = .ok (fromMillis millis) := by
  rw [addMillis, if_pos (by omega)]

end SystemTime

open SystemTime

structure TelemetryData where
  signature : Signature
  nodeId : NodeId
  blockCount : BitVec 64
  cementedCount : BitVec 64
  uncheckedCount : BitVec 64
  accountCount : BitVec 64
  bandwidthCap : BitVec 64
  uptime : BitVec 64
  peerCount : BitVec 32
  protocolVersion : Byte
  genesisBlock : BlockHash
  majorVersion : Byte
  minorVersion : Byte
  patchVersion : Byte
  preReleaseVersion : Byte
  maker : Byte
  timestamp : SystemTime
  activeDifficulty : BitVec 64
  unknownData : List Byte
  deriving DecidableEq

namespace TelemetryData

def sizeMask : Extensions := 0x3ff

/-- The size without the data of later versions. -/
def serializedSizeOfKnownData : ℕ :=
  64 + 32 + 8 + 8 + 8 + 8 + 8 + 4 + 1 + 8 + 32 + 1 + 1 + 1 + 1 + 1 + 8 + 8

def serializeWithoutSignature (d : TelemetryData) : List Byte :=
  d.nodeId.serialize ++ (be 8 d.blockCount ++ (be 8 d.cementedCount ++
    (be 8 d.uncheckedCount ++ (be 8 d.accountCount ++ (be 8 d.bandwidthCap ++
      (be 4 d.peerCount ++ ([d.protocolVersion] ++ (be 8 d.uptime ++
        (d.genesisBlock.serialize ++ ([d.majorVersion] ++ ([d.minorVersion] ++
          ([d.patchVersion] ++ ([d.preReleaseVersion] ++ ([d.maker] ++
            (ofNatBe 8 d.timestamp.asMillis ++ (be 8 d.activeDifficulty ++
              d.unknownData))))))))))))))))

def deserializeUnknownData (payloadLen : ℕ) : BlockReader (List Byte) :=
  if serializedSizeOfKnownData < payloadLen then
    readExact .ioError (payloadLen - serializedSizeOfKnownData)
  else return []

def deserialize (payloadLen : ℕ) : PayloadReader TelemetryData := do
  let signature ← Signature.deserialize
  let nodeId ← U256.deserialize
  let blockCount ← readU64Be
  let cementedCount ← readU64Be
  let uncheckedCount ← readU64Be
  let accountCount ← readU64Be
  let bandwidthCap ← readU64Be
  let peerCount ← (readBe .ioError 4 : BlockReader (BitVec 32))
  let protocolVersion ← readU8
  let uptime ← readU64Be
  let genesisBlock ← U256.deserialize
  let majorVersion ← readU8
  let minorVersion ← readU8
  let patchVersion ← readU8
  let preReleaseVersion ← readU8
  let maker ← readU8
  let timestampMs ← readU64Be
  let activeDifficulty ← readU64Be
  let unknownData ← deserializeUnknownData payloadLen
  let timestamp ← addMillis timestampMs
  return { signature, nodeId, blockCount, cementedCount, uncheckedCount, accountCount,
           bandwidthCap, uptime, peerCount, protocolVersion, genesisBlock, majorVersion,
           minorVersion, patchVersion, preReleaseVersion, maker, timestamp, activeDifficulty,
           unknownData }

theorem reads_unknownData (bytes : List Byte) :
    Reads (deserializeUnknownData (serializedSizeOfKnownData + bytes.length)) bytes bytes := by
  rw [deserializeUnknownData]
  split
  · exact Reads.readExact (by omega)
  · next h =>
    obtain rfl := List.length_eq_zero_iff.mp (by omega : bytes.length = 0)
    exact .pure []

theorem reads_u64Be (x : BitVec 64) : Reads readU64Be (be 8 x) x := Reads.readBe (by decide) x

theorem reads {d : TelemetryData} {millis : BitVec 64} (h : d.timestamp = .fromMillis millis) :
    Reads (deserialize (serializedSizeOfKnownData + d.unknownData.length))
      (Signature.serialize d.signature ++ d.serializeWithoutSignature) d := by
  have hmillis : ofNatBe 8 d.timestamp.asMillis = be 8 millis := by
    rw [h, asMillis, fromMillis, Nat.mul_div_cancel _ (by decide), be]
  have hlast : Reads (do
      let unknownData ← deserializeUnknownData (serializedSizeOfKnownData + d.unknownData.length)
      let timestamp ← addMillis millis
      return { d with timestamp := timestamp, unknownData := unknownData } :
        PayloadReader TelemetryData) d.unknownData d := by
    refine (reads_liftM (reads_unknownData d.unknownData)).bind_nil ?_
    rw [addMillis_eq_ok, ← h]
    exact .pure d
  rw [serializeWithoutSignature, hmillis]
  exact (reads_liftM (Signature.reads _)).bind <| (reads_liftM (U256.reads _)).bind <|
    (reads_liftM (reads_u64Be _)).bind <| (reads_liftM (reads_u64Be _)).bind <|
    (reads_liftM (reads_u64Be _)).bind <| (reads_liftM (reads_u64Be _)).bind <|
    (reads_liftM (reads_u64Be _)).bind <| (reads_liftM (Reads.readBe (by decide) _)).bind <|
    (reads_liftM (reads_u8 _)).bind <| (reads_liftM (reads_u64Be _)).bind <|
    (reads_liftM (U256.reads _)).bind <| (reads_liftM (reads_u8 _)).bind <|
    (reads_liftM (reads_u8 _)).bind <| (reads_liftM (reads_u8 _)).bind <|
    (reads_liftM (reads_u8 _)).bind <| (reads_liftM (reads_u8 _)).bind <|
    (reads_liftM (reads_u64Be _)).bind <| (reads_liftM (reads_u64Be _)).bind hlast

theorem ensures_deserialize (payloadLen : ℕ) :
    Ensures (deserialize payloadLen) (fun _ => True) Returned := by
  have hfield : ∀ {α : Type} (r : BlockReader α) {f : α → PayloadReader TelemetryData},
      (∀ x, Ensures (f x) (fun _ => True) Returned) →
        Ensures ((liftM r : PayloadReader α) >>= f) (fun _ => True) Returned :=
    fun r f h => (ensures_liftM (.trivial r)).bind fun x _ => h x
  rw [deserialize]
  iterate 19 refine hfield _ fun _ => ?_
  rw [addMillis_eq_ok]
  exact .pure True.intro

end TelemetryData

open TelemetryData

structure TelemetryAck where
  data : Option TelemetryData
  deriving DecidableEq

namespace TelemetryAck

def serializedSize (extensions : Extensions) : ℕ := (extensions &&& sizeMask).toNat

def serialize (m : TelemetryAck) : List Byte :=
  match m.data with
  | some data => Signature.serialize data.signature ++ data.serializeWithoutSignature
  | none => []

def deserialize (extensions : Extensions) : PayloadReader TelemetryAck :=
  if serializedSize extensions = 0 then return ⟨none⟩
  else do return ⟨some (← TelemetryData.deserialize (serializedSize extensions))⟩

def headerExtensions (m : TelemetryAck) : Extensions :=
  match m.data with
  | some data => BitVec.ofNat 16 serializedSizeOfKnownData +
      BitVec.ofNat 16 data.unknownData.length
  | none => 0

/-- The data fits the size field of the header, and its timestamp is one that can be written. -/
def Fits (m : TelemetryAck) : Prop :=
  ∀ d, m.data = some d → d.unknownData.length ≤ 821 ∧ ∃ millis, d.timestamp = .fromMillis millis

theorem serializedSize_of_data {d : TelemetryData} (h : d.unknownData.length ≤ 821) :
    serializedSize (headerExtensions ⟨some d⟩) =
      serializedSizeOfKnownData + d.unknownData.length := by
  have hmask : sizeMask.toNat = 2 ^ 10 - 1 := rfl
  rw [serializedSize, BitVec.toNat_and, hmask, Nat.and_two_pow_sub_one_eq_mod, headerExtensions,
    BitVec.toNat_add, BitVec.toNat_ofNat, BitVec.toNat_ofNat,
    serializedSizeOfKnownData]
  omega

theorem serializedSize_headerExtensions {m : TelemetryAck} (h : m.Fits) :
    serializedSize m.headerExtensions = m.serialize.length := by
  obtain ⟨data⟩ := m
  cases data with
  | none => rfl
  | some d =>
    rw [serializedSize_of_data (h d rfl).1, serialize]
    simp [serializeWithoutSignature, serializedSizeOfKnownData]
    omega

theorem reads {m : TelemetryAck} (h : m.Fits) :
    Reads (deserialize m.headerExtensions) m.serialize m := by
  obtain ⟨data⟩ := m
  cases data with
  | none => exact .pure _
  | some d =>
    obtain ⟨hlen, millis, hmillis⟩ := h d rfl
    rw [deserialize, serializedSize_of_data hlen, if_neg]
    · exact (TelemetryData.reads hmillis).bind_pure
    · rw [TelemetryData.serializedSizeOfKnownData]
      omega

theorem ensures_deserialize (extensions : Extensions) :
    Ensures (deserialize extensions) (fun _ => True) Returned := by
  rw [deserialize]
  split
  · exact .pure True.intro
  · exact (TelemetryData.ensures_deserialize _).bind fun _ _ => .pure True.intro

end TelemetryAck

end RsNano
