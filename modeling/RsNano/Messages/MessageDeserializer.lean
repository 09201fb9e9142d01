import RsNano.Lib.Loop
import RsNano.Lib.Stream
import RsNano.Messages.Message

/-!
# Messages in a stream of bytes

The deserializer gets the bytes of a connection in chunks and keeps what is not a whole message
yet: the header once it is read, and the bytes behind it. It refines a decoder that reads either
a header or a payload in one step. So the messages that come out do not depend on how the bytes
are split into chunks, no bytes make it panic, and a stream of messages that a node built comes
out as it went in, up to what the format of keepalive messages has no room for.

The deserializer is the one without a filter for duplicates; the digest of its messages is zero.
-/

namespace RsNano

open Reader MessageHeader

/-- What a deserializer returns for a message. -/
abbrev ParseResult := Except ParseMessageError DeserializedMessage

structure MessageDeserializer where
  buffer : List Byte
  currentHeader : Option MessageHeader
  protocol : ProtocolInfo

/-- The panics of a deserializer, and a loop that is not given enough iterations. -/
inductive DeserializerPanic
  | bufferNotBigEnough
  | drainOutOfRange
  | payload (e : PayloadError)
  | exhausted
  deriving DecidableEq, Repr

namespace MessageDeserializer

def new (protocol : ProtocolInfo) : MessageDeserializer := ⟨[], none, protocol⟩

def push (d : MessageDeserializer) (data : List Byte) : MessageDeserializer :=
  { d with buffer := d.buffer ++ data }

def readHeaderBytes (d : MessageDeserializer) :
    Except DeserializerPanic (Option (List Byte) × MessageDeserializer) :=
  if d.buffer.length < serializedSize then .ok (none, d)
  else
    match readExact () serializedSize d.buffer with
    | .ok (bytes, rest) => .ok (some bytes, { d with buffer := rest })
    | .error _ => .error .bufferNotBigEnough

def deserializePayloadFor (H : Blake2b) (d : MessageDeserializer) (header : MessageHeader) :
    Except DeserializerPanic (ParseResult × MessageDeserializer) :=
  if d.buffer.length < header.payloadLength then .error .drainOutOfRange
  else
    let payload := d.buffer.take header.payloadLength
    let d := { d with buffer := d.buffer.drop header.payloadLength }
    match Message.deserialize H header 0 payload with
    | .ok (message, _) => .ok (.ok ⟨message, header.protocol⟩, d)
    | .error (.invalid _) => .ok (.error (.invalidMessage header.messageType), d)
    | .error e => .error (.payload e)

def tryDeserializePayloadFor (H : Blake2b) (d : MessageDeserializer) (header : MessageHeader) :
    Except DeserializerPanic (Option ParseResult × MessageDeserializer) :=
  if 0 < header.payloadLength ∧ d.buffer.length < header.payloadLength then .ok (none, d)
  else do
    let (result, d) ← deserializePayloadFor H { d with currentHeader := none } header
    return (some result, d)

def deserializeHeaderAndPayload (H : Blake2b) (d : MessageDeserializer) :
    Except DeserializerPanic (Option ParseResult × MessageDeserializer) := do
  let (headerBytes, d) ← d.readHeaderBytes
  match headerBytes with
  | none => return (none, d)
  | some bytes =>
    match deserialize bytes with
    | .error _ => return (some (.error .invalidHeader), d)
    | .ok (header, _) =>
      match validateHeader header d.protocol with
      | .error e => return (some (.error e), d)
      | .ok () => tryDeserializePayloadFor H { d with currentHeader := some header } header

def tryDeserialize (H : Blake2b) (d : MessageDeserializer) :
    Except DeserializerPanic (Option ParseResult × MessageDeserializer) :=
  match d.currentHeader with
  | some header => tryDeserializePayloadFor H d header
  | none => deserializeHeaderAndPayload H d

/-- One iteration of the loop that takes messages out until there is none. -/
def drainBody (H : Blake2b) (s : MessageDeserializer × List ParseResult) :
    Except DeserializerPanic ((MessageDeserializer × List ParseResult) ⊕
      (MessageDeserializer × List ParseResult)) := do
  let (result, d) ← tryDeserialize H s.1
  match result with
  | some r => return .inl (d, s.2 ++ [r])
  | none => return .inr (d, s.2)

/-- Take messages out until there is none. -/
def drain (H : Blake2b) (fuel : ℕ) (s : MessageDeserializer × List ParseResult) :
    Except DeserializerPanic (MessageDeserializer × List ParseResult) :=
  Loop.run .exhausted (fun _ => drainBody H) fuel 0 s

/-- Push chunk after chunk, and take out the messages after each. -/
def receive (H : Blake2b) (fuel : ℕ) :
    MessageDeserializer × List ParseResult → List (List Byte) →
      Except DeserializerPanic (MessageDeserializer × List ParseResult)
  | s, [] => .ok s
  | s, data :: chunks => do
    let s ← drain H fuel (s.1.push data, s.2)
    receive H fuel s chunks

end MessageDeserializer

/-! ### The decoder of headers and payloads -/

/-- The header in the first bytes of a message, if a node with this protocol accepts it. -/
def acceptHeader (protocol : ProtocolInfo) (bytes : List Byte) :
    Except ParseMessageError MessageHeader :=
  match deserialize bytes with
  | .error _ => .error .invalidHeader
  | .ok (header, _) =>
    match validateHeader header protocol with
    | .error e => .error e
    | .ok () => .ok header

/-- The message in a payload. -/
def readPayload (H : Blake2b) (header : MessageHeader) (payload : List Byte) : ParseResult :=
  match Message.deserialize H header 0 payload with
  | .ok (message, _) => .ok ⟨message, header.protocol⟩
  | .error _ => .error (.invalidMessage header.messageType)

/-- Read a header, or the payload of the header that was read last. -/
def frameStep (H : Blake2b) (protocol : ProtocolInfo) (current : Option MessageHeader)
    (bytes : List Byte) : Option (Option ParseResult × Option MessageHeader × List Byte) :=
  match current with
  | none =>
    if bytes.length < serializedSize then none
    else
      let rest := bytes.drop serializedSize
      match acceptHeader protocol (bytes.take serializedSize) with
      | .error e => some (some (.error e), none, rest)
      | .ok header => some (none, some header, rest)
  | some header =>
    if bytes.length < header.payloadLength then none
    else some (some (readPayload H header (bytes.take header.payloadLength)), none,
      bytes.drop header.payloadLength)

section

variable {H : Blake2b} {protocol : ProtocolInfo} {current : Option MessageHeader}
  {bytes : List Byte} {o : Option ParseResult} {next : Option MessageHeader} {rest : List Byte}
  (h : frameStep H protocol current bytes = some (o, next, rest))

include h

theorem frameStep_append (more : List Byte) :
    frameStep H protocol current (bytes ++ more) = some (o, next, rest ++ more) := by
  have hspl : ∀ n, ¬ bytes.length < n → ¬ (bytes ++ more).length < n ∧
      (bytes ++ more).take n = bytes.take n ∧ (bytes ++ more).drop n = bytes.drop n ++ more := by
    intro n hn
    refine ⟨by rw [List.length_append]; omega, List.take_append_of_le_length (by omega),
      List.drop_append_of_le_length (by omega)⟩
  cases current with
  | none =>
    simp only [frameStep] at h ⊢
    split at h
    · cases h
    · next hlen =>
      obtain ⟨hlen', htake, hdrop⟩ := hspl _ hlen
      rw [if_neg hlen', htake, hdrop]
      cases hheader : acceptHeader protocol (bytes.take serializedSize) with
      | error e | ok header =>
        rw [hheader] at h
        cases h
        rfl
  | some header =>
    simp only [frameStep] at h ⊢
    split at h
    · cases h
    · next hlen =>
      obtain ⟨hlen', htake, hdrop⟩ := hspl _ hlen
      rw [if_neg hlen', htake, hdrop]
      cases h
      rfl

/-- The bytes that are left, and whether a header has been read. -/
def frameRank (current : Option MessageHeader) (bytes : List Byte) : ℕ :=
  2 * bytes.length + if current.isSome then 1 else 0

theorem frameStep_rank : frameRank next rest < frameRank current bytes := by
  cases current with
  | none =>
    simp only [frameStep] at h
    split at h
    · cases h
    · next hlen =>
      have hdrop : (bytes.drop serializedSize).length + 8 = bytes.length := by
        rw [List.length_drop]
        exact Nat.sub_add_cancel (Nat.le_of_not_lt hlen)
      split at h
      · cases h
        change 2 * (bytes.drop _).length + 0 < 2 * bytes.length + 0
        omega
      · cases h
        change 2 * (bytes.drop _).length + 1 < 2 * bytes.length + 0
        omega
  | some header =>
    simp only [frameStep] at h
    split at h
    · cases h
    · cases h
      have hdrop : (bytes.drop header.payloadLength).length ≤ bytes.length := by
        rw [List.length_drop]
        exact Nat.sub_le _ _
      change 2 * (bytes.drop _).length + 0 < 2 * bytes.length + 1
      omega

end

/-- The stream of a connection as a decoder. -/
def frames (H : Blake2b) (protocol : ProtocolInfo) :
    Decoder (Option MessageHeader) Byte ParseResult where
  step := frameStep H protocol
  rank := frameRank
  step_append := frameStep_append
  step_rank := frameStep_rank

end RsNano
