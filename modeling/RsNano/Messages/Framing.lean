import RsNano.Messages.MessageDeserializer

/-!
# Framing

The deserializer refines the decoder of headers and payloads, call by call, chunk by chunk and
over a whole connection. The decoder in turn reads back a stream of messages: a header is
accepted and announces the length of its payload, and the payload is read back.
-/

namespace RsNano

namespace MessageDeserializer

open MessageHeader

variable {H : Blake2b} {d : MessageDeserializer} {header : MessageHeader}

/-- The decoder goes from one state of the deserializer to another. -/
def Decodes (H : Blake2b) (d : MessageDeserializer) (results : List ParseResult)
    (d' : MessageDeserializer) : Prop :=
  d'.protocol = d.protocol ∧ (frames H d.protocol).Runs d.currentHeader d.buffer results
    d'.currentHeader d'.buffer

/-- The payload is there, so its message is taken out of the buffer. -/
theorem deserializePayloadFor_eq (h : ¬ d.buffer.length < header.payloadLength) :
    deserializePayloadFor H d header =
      .ok (readPayload H header (d.buffer.take header.payloadLength),
        { d with buffer := d.buffer.drop header.payloadLength }) := by
  rw [deserializePayloadFor, if_neg h, readPayload]
  rcases Message.ensures_deserialize (H := H) header 0 (d.buffer.take header.payloadLength) with
    ⟨m, rest, hm, -⟩ | ⟨e, he, e', rfl⟩
  · simp only [hm]
  · simp only [he]

theorem tryDeserializePayloadFor_eq (h : ¬ d.buffer.length < header.payloadLength) :
    tryDeserializePayloadFor H d header =
      .ok (some (readPayload H header (d.buffer.take header.payloadLength)),
        { d with currentHeader := none, buffer := d.buffer.drop header.payloadLength }) := by
  have hpayload := deserializePayloadFor_eq (H := H) (d := { d with currentHeader := none }) h
  rw [tryDeserializePayloadFor, if_neg fun hwait => h hwait.2, hpayload]
  rfl

theorem readHeaderBytes_eq (h : ¬ d.buffer.length < serializedSize) :
    d.readHeaderBytes = .ok (some (d.buffer.take serializedSize),
      { d with buffer := d.buffer.drop serializedSize }) := by
  rw [readHeaderBytes, if_neg h, Reader.readExact, if_pos (Nat.le_of_not_lt h)]

/-- With enough bytes, the header is taken out of the buffer and either refused or kept. -/
theorem deserializeHeaderAndPayload_eq (h : ¬ d.buffer.length < serializedSize) :
    deserializeHeaderAndPayload H d = let rest := d.buffer.drop serializedSize
      match acceptHeader d.protocol (d.buffer.take serializedSize) with
      | .error e => .ok (some (.error e), { d with buffer := rest })
      | .ok header => tryDeserializePayloadFor H
          { d with currentHeader := some header, buffer := rest } header := by
  rw [deserializeHeaderAndPayload, readHeaderBytes_eq h, acceptHeader]
  simp only [bind, Except.bind]
  cases deserialize (d.buffer.take serializedSize) with
  | error e => rfl
  | ok p =>
    cases hval : validateHeader p.1 d.protocol with
    | error e => simp only [hval]; rfl
    | ok u => simp only [hval]

/-! ### One call -/

/-- The bytes that are left, and whether a header has been read. -/
def rank (d : MessageDeserializer) : ℕ := frameRank d.currentHeader d.buffer

/-- A call waits for more bytes where the decoder does, or it takes out the next result. -/
def Refines (H : Blake2b) (d : MessageDeserializer)
    (call : Except DeserializerPanic (Option ParseResult × MessageDeserializer)) : Prop :=
  (∃ d', call = .ok (none, d') ∧ Decodes H d [] d') ∨
    ∃ r d', call = .ok (some r, d') ∧ d'.rank < d.rank ∧
      ∀ results e, Decodes H d' results e → Decodes H d (r :: results) e

/-- A step of the decoder between two states of the deserializer. -/
theorem Decodes.step {d' e : MessageDeserializer} {results : List ParseResult}
    (h : Decodes H d' results e) (o : Option ParseResult)
    (hstep : frameStep H d.protocol d.currentHeader d.buffer = some (o, d'.currentHeader, d'.buffer))
    (hproto : d'.protocol = d.protocol) : Decodes H d (o.toList ++ results) e := by
  obtain ⟨heq, hruns⟩ := h
  rw [hproto] at heq hruns
  exact ⟨heq, .step hstep hruns⟩

theorem refines_tryDeserializePayloadFor (hcur : d.currentHeader = some header) :
    Refines H d (tryDeserializePayloadFor H d header) := by
  by_cases hlen : d.buffer.length < header.payloadLength
  · refine .inl ⟨d, if_pos ⟨Nat.zero_lt_of_lt hlen, hlen⟩, rfl, .wait ?_⟩
    rw [hcur]
    exact if_pos hlen
  · have hstep : frameStep H d.protocol d.currentHeader d.buffer =
        some (some (readPayload H header (d.buffer.take header.payloadLength)), none,
          d.buffer.drop header.payloadLength) := by
      rw [hcur]
      exact if_neg hlen
    exact .inr ⟨_, _, tryDeserializePayloadFor_eq hlen, frameStep_rank hstep,
      fun results e h => h.step (some _) hstep rfl⟩

theorem refines_deserializeHeaderAndPayload (hcur : d.currentHeader = none) :
    Refines H d (deserializeHeaderAndPayload H d) := by
  by_cases hlen : d.buffer.length < serializedSize
  · refine .inl ⟨d, ?_, rfl, .wait ?_⟩
    · rw [deserializeHeaderAndPayload, readHeaderBytes, if_pos hlen]
      rfl
    · rw [hcur]
      exact if_pos hlen
  rw [deserializeHeaderAndPayload_eq hlen]
  cases haccept : acceptHeader d.protocol (d.buffer.take serializedSize) with
  | error e =>
    have hstep : frameStep H d.protocol d.currentHeader d.buffer =
        some (some (.error e), none, d.buffer.drop serializedSize) := by
      rw [hcur, frameStep, if_neg hlen, haccept]
    refine .inr ⟨.error e, { d with buffer := d.buffer.drop _ }, rfl, ?_, ?_⟩
    · rw [rank, rank, hcur]
      exact frameStep_rank (hcur ▸ hstep)
    · intro results e' h
      refine h.step (some (.error e)) ?_ rfl
      rw [hstep, hcur]
  | ok header =>
    have hstep : frameStep H d.protocol d.currentHeader d.buffer =
        some (none, some header, d.buffer.drop serializedSize) := by
      rw [hcur, frameStep, if_neg hlen, haccept]
    have hcur' : ({ d with
        currentHeader := some header
        buffer := d.buffer.drop serializedSize } : MessageDeserializer).currentHeader =
          some header := rfl
    rcases refines_tryDeserializePayloadFor hcur' with
      ⟨d', hcall, hdec⟩ | ⟨r, d', hcall, hrank, hdec⟩
    · exact .inl ⟨d', hcall, hdec.step none hstep rfl⟩
    · exact .inr ⟨r, d', hcall, hrank.trans (frameStep_rank hstep),
        fun results e h => (hdec results e h).step none hstep rfl⟩

/-- Every call returns, and does what the decoder does. -/
theorem refines_tryDeserialize (H : Blake2b) (d : MessageDeserializer) :
    Refines H d (tryDeserialize H d) := by
  rw [tryDeserialize]
  cases hcur : d.currentHeader with
  | none => exact refines_deserializeHeaderAndPayload hcur
  | some header => exact refines_tryDeserializePayloadFor hcur

/-! ### Whole connections -/

/-- Taking out messages ends, with the results of the decoder. -/
theorem drain_spec (H : Blake2b) (d : MessageDeserializer) (before : List ParseResult) :
    ∃ d' results, Decodes H d results d' ∧
      ∃ n, ∀ fuel, n ≤ fuel → drain H fuel (d, before) = .ok (d', before ++ results) := by
  have hrchs : ∀ i, ∃ d' results, Decodes H d results d' ∧ ∃ j s,
      Loop.Reaches (fun _ => drainBody H) i (d, before) j s ∧
        drainBody H s = .ok (.inr (d', before ++ results)) := by
    induction hn : d.rank using Nat.strongRecOn generalizing d before with
    | ind n ih =>
      intro i
      rcases refines_tryDeserialize H d with ⟨d', hcall, hdec⟩ | ⟨r, d1, hcall, hrank, hdec⟩
      · refine ⟨d', [], hdec, i, (d, before), .refl _ _, ?_⟩
        rw [drainBody, hcall, List.append_nil]
        rfl
      · obtain ⟨d', results, hrest, j, s, hreach, hdone⟩ :=
          ih d1.rank (hn ▸ hrank) d1 (before ++ [r]) rfl (i + 1)
        refine ⟨d', r :: results, hdec _ _ hrest, j, s, .step ?_ hreach, ?_⟩
        · rw [drainBody, hcall]
          rfl
        · rw [hdone, List.append_assoc, List.singleton_append]
  obtain ⟨d', results, hdec, j, s, hreach, hdone⟩ := hrchs 0
  exact ⟨d', results, hdec, Loop.run_of_reaches hreach hdone⟩

/-- Receiving chunks ends, with the results of the decoder that is fed with them. -/
theorem receive_spec (H : Blake2b) (d : MessageDeserializer) (before : List ParseResult)
    (chunks : List (List Byte)) :
    ∃ d' results, d'.protocol = d.protocol ∧ (frames H d.protocol).Feeds d.currentHeader d.buffer
        chunks results d'.currentHeader d'.buffer ∧
      ∃ n, ∀ fuel, n ≤ fuel → receive H fuel (d, before) chunks = .ok (d', before ++ results) := by
  induction chunks generalizing d before with
  | nil =>
    refine ⟨d, [], rfl, .nil, 0, fun fuel _ => ?_⟩
    rw [receive, List.append_nil]
  | cons data chunks ih =>
    obtain ⟨d1, results1, ⟨hproto1, hruns⟩, n1, hdrain⟩ := drain_spec H (d.push data) before
    obtain ⟨d', results, hproto, hfeeds, n, hrecv⟩ := ih d1 (before ++ results1)
    rw [hproto1] at hfeeds
    refine ⟨d', results1 ++ results, hproto.trans hproto1, .cons hruns hfeeds,
      max n1 n, fun fuel hfuel => ?_⟩
    rw [receive, hdrain fuel (le_trans (le_max_left _ _) hfuel), ← List.append_assoc]
    exact hrecv fuel (le_trans (le_max_right _ _) hfuel)

/-- A new deserializer receives what the decoder makes of all bytes at once. -/
theorem receive_of_runs {protocol : ProtocolInfo} {bytes rest : List Byte}
    {results : List ParseResult} {current : Option MessageHeader}
    (h : (frames H protocol).Runs none bytes results current rest) {chunks : List (List Byte)}
    (hchunks : chunks.flatten = bytes) : ∃ n, ∀ fuel, n ≤ fuel →
      receive H fuel (new protocol, []) chunks = .ok (⟨rest, current, protocol⟩, results) := by
  obtain ⟨d', results', hproto, hfeeds, n, hrecv⟩ := receive_spec H (new protocol) [] chunks
  have hwait : (frames H protocol).step none [] = none := rfl
  have hruns := (Decoder.feeds_iff_runs hwait).mp hfeeds
  rw [hchunks] at hruns
  obtain ⟨rfl, rfl, rfl⟩ := h.unique hruns
  refine ⟨n, fun fuel hfuel => ?_⟩
  rw [hrecv fuel hfuel]
  obtain ⟨buffer, currentHeader, protocol'⟩ := d'
  cases hproto
  rfl

end MessageDeserializer

/-! ### Streams of messages -/

namespace MessageHeader

theorem serializedBlockSize_le (t : BlockType) : serializedBlockSize t ≤ 216 := by
  cases t <;> decide

/-- No header announces more than the limit, so no message is refused for its size. -/
theorem payloadLength_le (h : MessageHeader) : h.payloadLength ≤ Message.maxMessageSize := by
  have hmax : Message.maxMessageSize = 66560 := rfl
  rw [payloadLength]
  cases h.messageType with
  | publish =>
    simp only [Publish.serializedSize]
    split
    · next t _ => exact (serializedBlockSize_le t).trans (by decide)
    · exact Nat.zero_le _
  | confirmReq =>
    simp only [ConfirmReq.serializedSize]
    split
    · next t _ => exact (serializedBlockSize_le t).trans (by decide)
    · split <;> omega
  | confirmAck =>
    simp only [ConfirmAck.serializedSize, Vote.serializedSize]
    omega
  | bulkPull =>
    simp only [BulkPull.serializedSize, BulkPull.extendedParametersSize]
    split <;> omega
  | nodeIdHandshake =>
    have hresp : NodeIdHandshakeResponse.serializedSize h.extensions ≤ 160 := by
      rw [NodeIdHandshakeResponse.serializedSize]
      split <;> decide
    simp only [NodeIdHandshake.serializedSize]
    split <;> split <;> omega
  | telemetryAck =>
    simp only [TelemetryAck.serializedSize]
    omega
  | ascPullReq =>
    simp only [AscPullReq.serializedSize, ascPullSize]
    omega
  | ascPullAck =>
    simp only [AscPullAck.serializedSize, ascPullSize]
    omega
  | keepalive => exact (by decide : Keepalive.serializedSize ≤ 66560)
  | frontierReq => exact (by decide : FrontierReq.serializedSize ≤ 66560)
  | bulkPullAccount => exact (by decide : BulkPullAccount.serializedSize ≤ 66560)
  | bulkPush | telemetryReq | invalid | notAType => exact Nat.zero_le _

end MessageHeader

section

variable {H : Blake2b} {protocol : ProtocolInfo} {m : Message}

theorem Message.isValidMessageType_header (m : Message) :
    (MessageSerializer.header protocol m).isValidMessageType = true := by
  cases m <;> rfl

theorem frameStep_payload (hbuilt : m.Built H) (hplain : m.Plain) (hobs : m.isObsolete = false)
    (rest : List Byte) :
    frameStep H protocol (some (MessageSerializer.header protocol m)) (m.serialize ++ rest) =
      some (some (.ok ⟨m, protocol⟩), none, rest) := by
  have hlen := Message.payloadLength_header protocol hbuilt hobs
  obtain ⟨rest', hdec⟩ := Message.decodes protocol hbuilt hplain hobs
  simp only [frameStep]
  rw [hlen, if_neg (by rw [List.length_append]; omega), List.take_left, List.drop_left, readPayload,
    hdec]
  rfl

variable (hversion : protocol.versionMin ≤ protocol.versionUsing)

include hversion

/-- A node accepts the headers of nodes with its own protocol. -/
theorem acceptHeader_header :
    acceptHeader protocol (MessageSerializer.header protocol m).serialize =
      .ok (MessageSerializer.header protocol m) := by
  have hread := (MessageSerializer.header protocol m).reads []
  have hval : validateHeader (MessageSerializer.header protocol m) protocol = .ok () := by
    have hnetwork : ¬ (MessageSerializer.header protocol m).protocol.network ≠ protocol.network :=
      not_not.mpr rfl
    have hcur : ¬ (MessageSerializer.header protocol m).protocol.versionUsing <
        protocol.versionMin := BitVec.not_lt.mpr hversion
    rw [validateHeader, if_neg hnetwork, if_neg hcur,
      if_neg (not_not.mpr m.isValidMessageType_header),
      if_neg (Nat.not_lt.mpr (MessageHeader.payloadLength_le _))]
  rw [List.append_nil] at hread
  rw [acceptHeader, hread]
  simp only [hval]

theorem frameStep_header (rest : List Byte) :
    frameStep H protocol none ((MessageSerializer.header protocol m).serialize ++ rest) =
      some (none, some (MessageSerializer.header protocol m), rest) := by
  have hlen := (MessageSerializer.header protocol m).length_serialize
  rw [frameStep, if_neg (by rw [List.length_append]; omega), ← hlen, List.take_left,
    List.drop_left, acceptHeader_header hversion]

/-- The decoder reads back a stream of messages and waits with nothing left. -/
theorem runs_messages {messages : List Message}
    (h : ∀ m ∈ messages, m.Built H ∧ m.Plain ∧ m.isObsolete = false) :
    (frames H protocol).Runs none (messages.flatMap (MessageSerializer.serialize protocol))
      (messages.map fun m => .ok ⟨m, protocol⟩) none [] := by
  induction messages with
  | nil => exact .wait rfl
  | cons m messages ih =>
    obtain ⟨hbuilt, hplain, hobs⟩ := h m List.mem_cons_self
    have hrest := ih fun m' hm' => h m' (List.mem_cons_of_mem _ hm')
    have hpayload : (frames H protocol).step (some (MessageSerializer.header protocol m)) _ = _ :=
      frameStep_payload hbuilt hplain hobs
        (messages.flatMap (MessageSerializer.serialize protocol))
    exact .step (o := none) (frameStep_header (H := H) hversion _) (.step hpayload hrest)

end

namespace MessageDeserializer

/-- However the bytes of a connection are split, a deserializer gets the messages that a node with
the same protocol built and wrote, in their order and with nothing left, as long as their
endpoints have no scope. Whatever the bytes are, it does not panic, and neither its results nor
the bytes that it keeps depend on the splitting. -/
theorem receive_framed (H : Blake2b) (protocol : ProtocolInfo) :
    (protocol.versionMin ≤ protocol.versionUsing → ∀ messages : List Message,
      (∀ m ∈ messages, m.Built H ∧ m.Plain ∧ m.isObsolete = false) →
      ∀ chunks : List (List Byte),
        chunks.flatten = messages.flatMap (MessageSerializer.serialize protocol) →
        ∃ n, ∀ fuel, n ≤ fuel → receive H fuel (new protocol, []) chunks =
          .ok (new protocol, messages.map fun m => .ok ⟨m, protocol⟩)) ∧
    ∀ bytes : List Byte, ∃ d results, ∀ chunks : List (List Byte), chunks.flatten = bytes →
      ∃ n, ∀ fuel, n ≤ fuel → receive H fuel (new protocol, []) chunks = .ok (d, results) := by
  constructor
  · intro hversion messages hmessages chunks hchunks
    exact receive_of_runs (runs_messages hversion hmessages) hchunks
  · intro bytes
    obtain ⟨results, current, rest, hruns⟩ := (frames H protocol).exists_runs none bytes
    exact ⟨⟨rest, current, protocol⟩, results, fun chunks => receive_of_runs hruns⟩

/-- A hash function for streams without blocks. -/
def exampleBlake2b : Blake2b := ⟨fun _ => 1, fun _ => by decide⟩

/-- A query for a node id and a request for a vote. -/
def exampleMessages : List Message :=
  [.nodeIdHandshake ⟨some 42, none, true⟩, .confirmReq ⟨[(1, 2)]⟩]

/-- The example messages arrive when their bytes are cut in the middle of a payload. -/
theorem receive_exampleMessages :
    ∃ n, ∀ fuel, n ≤ fuel → receive exampleBlake2b fuel (new default, [])
        [(exampleMessages.flatMap (MessageSerializer.serialize default)).take 20,
          (exampleMessages.flatMap (MessageSerializer.serialize default)).drop 20] =
      .ok (new default, exampleMessages.map fun m => .ok ⟨m, default⟩) := by
  refine (receive_framed exampleBlake2b default).1 (by decide) exampleMessages ?_ _ ?_
  · intro m hm
    rcases List.mem_pair.mp hm with rfl | rfl
    · exact ⟨fun r hr => (nomatch hr), trivial, rfl⟩
    · refine ⟨⟨List.cons_ne_nil _ _, by decide, ?_⟩, trivial, rfl⟩
      intro p hp
      obtain rfl := List.mem_singleton.mp hp
      exact .inl (by decide)
  · rw [List.flatten_cons, List.flatten_singleton, List.take_append_drop]

/-- A keepalive message with one peer on the local link of an interface. -/
def linkLocalKeepalive (scopeId : BitVec 32) : Keepalive :=
  ⟨⟨0xfe800000000000000000000000000001, 7075, 0, scopeId⟩ ::ᵥ List.Vector.replicate 7 ⟨0, 0, 0, 0⟩⟩

/-- The scope of a peer is lost on the way. -/
theorem exists_receive_other : ∃ (m other : Message), m.Built exampleBlake2b ∧
    m.isObsolete = false ∧ other ≠ m ∧
    ∃ n, ∀ fuel, n ≤ fuel →
      receive exampleBlake2b fuel (new default, []) [MessageSerializer.serialize default m] =
        .ok (new default, [.ok ⟨other, default⟩]) := by
  refine ⟨.keepalive (linkLocalKeepalive 2), .keepalive (linkLocalKeepalive 0), trivial, rfl, ?_, ?_⟩
  · intro h
    have hpeers := congrArg (fun k : Keepalive => k.peers.head.scopeId) (Message.keepalive.inj h)
    exact absurd hpeers (by decide)
  · have hplain : ∀ m ∈ [Message.keepalive (linkLocalKeepalive 0)],
        m.Built exampleBlake2b ∧ m.Plain ∧ m.isObsolete = false := by
      intro m hm
      obtain rfl := List.mem_singleton.mp hm
      have hpeers : ∀ peer ∈ (linkLocalKeepalive 0).peers.toList,
          peer.flowinfo = 0 ∧ peer.scopeId = 0 := by decide
      exact ⟨trivial, hpeers, rfl⟩
    have hversion : (default : ProtocolInfo).versionMin ≤ (default : ProtocolInfo).versionUsing := by
      decide
    refine receive_of_runs (runs_messages hversion hplain) ?_
    rfl

/-- Whatever a peer sends, the deserializer returns, and it keeps less than the largest message. -/
theorem receive_bounded (H : Blake2b) (protocol : ProtocolInfo) (chunks : List (List Byte)) :
    ∃ d results, d.buffer.length < Message.maxMessageSize ∧ ∃ n, ∀ fuel, n ≤ fuel →
      receive H fuel (new protocol, []) chunks = .ok (d, results) := by
  obtain ⟨d, results, -, hfeeds, hrecv⟩ := receive_spec H (new protocol) [] chunks
  refine ⟨d, results, ?_, hrecv⟩
  have hwait : frameStep H protocol d.currentHeader d.buffer = none :=
    ((Decoder.feeds_iff_runs rfl).mp hfeeds).waits
  by_contra hlen
  have hle := not_lt.mp hlen
  cases hcur : d.currentHeader with
  | none =>
    rw [hcur, frameStep, if_neg (le_trans (by decide) hle).not_gt] at hwait
    split at hwait <;> cases hwait
  | some header =>
    rw [hcur, frameStep, if_neg (header.payloadLength_le.trans hle).not_gt] at hwait
    cases hwait

end MessageDeserializer

end RsNano
