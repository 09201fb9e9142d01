import RsNano.Ledger.DevNetwork
import RsNano.Ledger.Store
import RsNano.Lib.Numbering
import RsNano.Messages.Message

/-!
# Preproposals of ledger snapshots

A preproposal carries the confirmed frontiers of the whole ledger. The length of its payload is
written into the sixteen extension bits of the header, where it does not fit if there are too many
accounts.

The message type belongs to an optional feature and is not among those of `MessageType`, so the
header is written and read here for this type only. The deserializer is given all bytes at once.
-/

namespace RsNano

open Reader List MessageHeader

structure Preproposal where
  snapshotNumber : BitVec 32
  frontiers : List (Account × BlockHash)
  signer : PublicKey
  signature : Signature
  deriving DecidableEq

/-- Frontiers are compared by the bytes of the account and then of the hash. -/
def frontierLe (x y : Account × BlockHash) : Bool := x.1.pair x.2 ≤ y.1.pair y.2

def sortFrontiers (frontiers : List (Account × BlockHash)) : List (Account × BlockHash) :=
  frontiers.mergeSort frontierLe

theorem sortFrontiers_sortFrontiers (frontiers : List (Account × BlockHash)) :
    sortFrontiers (sortFrontiers frontiers) = sortFrontiers frontiers := by
  refine mergeSort_of_pairwise (pairwise_mergeSort ?_ ?_ _)
  · simp only [frontierLe, decide_eq_true_eq]
    exact fun _ _ _ => Nat.le_trans
  · simp [frontierLe, Nat.le_total]

def serializeFrontier (frontier : Account × BlockHash) : List Byte :=
  frontier.1.serialize ++ frontier.2.serialize

namespace Preproposal

/-- A new preproposal of the given signer, whose private key signs the rest of it. -/
def new (frontiers : List (Account × BlockHash)) (signer : PublicKey)
    (sign : Preproposal → Signature) (snapshotNumber : BitVec 32) : Preproposal :=
  let m : Preproposal := ⟨snapshotNumber, sortFrontiers frontiers, signer, 0⟩
  { m with signature := sign m }

def serialize (m : Preproposal) : List Byte :=
  Bytes.be 4 m.snapshotNumber ++ (m.signer.serialize ++ (Signature.serialize m.signature ++
    m.frontiers.flatMap serializeFrontier))

/-- Frontiers are read while there are bytes. -/
def deserializeFrontiers : ℕ → BlockReader (List (Account × BlockHash))
  | 0 => return []
  | fuel + 1 => do
    if (← remaining).isEmpty then return []
    else
      let account ← U256.deserialize
      let hash ← U256.deserialize
      return (account, hash) :: (← deserializeFrontiers fuel)

def deserialize : BlockReader Preproposal := do
  let snapshotNumber ← readBe .ioError 4
  let signer ← U256.deserialize
  let signature ← Signature.deserialize
  let frontiers ← deserializeFrontiers (← remaining).length
  return ⟨snapshotNumber, sortFrontiers frontiers, signer, signature⟩

def messageType : Byte := 0x10

def serializeHeader (protocol : ProtocolInfo) (extensions : Extensions) : List Byte :=
  Bytes.be 2 protocol.network.toU16 ++ ([protocol.versionMax] ++ ([protocol.versionUsing] ++
    ([protocol.versionMin] ++ ([messageType] ++ Bytes.le 2 extensions))))

def deserializeHeader : BlockReader (ProtocolInfo × Extensions) := do
  let network ← okOr .invalidData (Networks.fromU16 (← readBe .ioError 2))
  let versionMax ← readU8
  let versionUsing ← readU8
  let versionMin ← readU8
  let _ ← okOr .invalidData (if (← readU8) = messageType then some () else none)
  let extensions ← readLe .ioError 2
  return (⟨versionUsing, versionMax, versionMin, network⟩, extensions)

/-- What `MessageSerializer::serialize` writes. -/
def serializeMessage (protocol : ProtocolInfo) (m : Preproposal) : List Byte :=
  serializeHeader protocol (BitVec.ofNat 16 m.serialize.length) ++ m.serialize

inductive ParseError
  | header (e : ParseMessageError)
  | invalidMessage
  deriving DecidableEq

def validateHeader (protocol expected : ProtocolInfo) (payloadLength : ℕ) :
    Except ParseError Unit :=
  if protocol.network ≠ expected.network then .error (.header .invalidNetwork)
  else if protocol.versionUsing < expected.versionMin then .error (.header .outdatedVersion)
  else if Message.maxMessageSize < payloadLength then .error (.header .messageSizeTooBig)
  else .ok ()

def deserializePayload (payload : List Byte) : Except ParseError Preproposal :=
  match deserialize payload with
  | .ok (m, _) => .ok m
  | .error _ => .error .invalidMessage

/-- What a deserializer without a header returns for the bytes in its buffer, and the bytes that it
leaves; `none` where it waits for more. -/
def tryDeserialize (expected : ProtocolInfo) (buffer : List Byte) :
    Option (Except ParseError Preproposal × List Byte) :=
  if buffer.length < serializedSize then none
  else
    let rest := buffer.drop serializedSize
    match deserializeHeader (buffer.take serializedSize) with
    | .error _ => some (.error (.header .invalidHeader), rest)
    | .ok ((protocol, extensions), _) =>
      match validateHeader protocol expected extensions.toNat with
      | .error e => some (.error e, rest)
      | .ok () =>
        if 0 < extensions.toNat ∧ rest.length < extensions.toNat then none
        else some (deserializePayload (rest.take extensions.toNat), rest.drop extensions.toNat)

theorem length_serialize (m : Preproposal) :
    m.serialize.length = 100 + m.frontiers.length * 64 := by
  have hfrontier : ∀ f, (serializeFrontier f).length = 64 := fun f => by simp [serializeFrontier]
  simp [serialize, Bytes.length_flatMap hfrontier]
  omega

theorem decodes_frontiers {fuel : ℕ} {frontiers : List (Account × BlockHash)}
    (h : frontiers.length ≤ fuel) :
    Decodes (deserializeFrontiers fuel) (frontiers.flatMap serializeFrontier) frontiers := by
  induction frontiers generalizing fuel with
  | nil => cases fuel <;> exact ⟨[], rfl⟩
  | cons frontier frontiers ih =>
    obtain ⟨fuel, rfl⟩ : ∃ n, fuel = n + 1 := ⟨fuel - 1, by simp at h; omega⟩
    have hne : (frontier :: frontiers).flatMap serializeFrontier ≠ [] :=
      ne_nil_of_length_pos (by simp [serializeFrontier])
    refine Decodes.remaining ?_ hne
    rw [flatMap_cons, serializeFrontier, append_assoc]
    exact Decodes.bind (U256.reads _)
      (.bind (U256.reads _) (ih (Nat.le_of_succ_le_succ h)).bind_pure)

theorem decodes {m : Preproposal} (h : sortFrontiers m.frontiers = m.frontiers) :
    Decodes deserialize m.serialize m := by
  refine .bind (Reads.readBe (by decide) _) (.bind (U256.reads _) (.bind (Signature.reads _) ?_))
  have hlen : m.frontiers.length ≤ (m.frontiers.flatMap serializeFrontier).length := by
    have hsize := m.length_serialize
    simp only [serialize, length_append, Bytes.length_be, U256.length_serialize,
      Signature.length_serialize] at hsize
    omega
  have hread := (decodes_frontiers hlen).bind_pure
    (f := fun frontiers => Preproposal.mk m.snapshotNumber (sortFrontiers frontiers) m.signer
      m.signature)
  rwa [h] at hread

theorem reads_header (protocol : ProtocolInfo) (extensions : Extensions) :
    Reads deserializeHeader (serializeHeader protocol extensions) (protocol, extensions) := by
  refine Reads.bind (Reads.readBe (by decide) _) ?_
  rw [Networks.fromU16_toU16]
  exact (Reads.pure _).bind ((reads_u8 _).bind ((reads_u8 _).bind ((reads_u8 _).bind
    ((reads_u8 _).bind ((Reads.pure ()).bind (Reads.readLe (by decide) _).bind_pure)))))

/-- A header is validated, and as many bytes are taken as it announces. -/
theorem tryDeserialize_serializeMessage (protocol : ProtocolInfo) (m : Preproposal)
    (rest : List Byte) : tryDeserialize protocol (serializeMessage protocol m ++ rest) =
      if protocol.versionUsing < protocol.versionMin then
        some (.error (.header .outdatedVersion), m.serialize ++ rest)
      else
        some (deserializePayload ((m.serialize ++ rest).take (m.serialize.length % 2 ^ 16)),
          (m.serialize ++ rest).drop (m.serialize.length % 2 ^ 16)) := by
  have hheader : (serializeHeader protocol (BitVec.ofNat 16 m.serialize.length)).length =
    serializedSize := by simp [serializeHeader, serializedSize]
  have hread := reads_header protocol (BitVec.ofNat 16 m.serialize.length) []
  rw [append_nil] at hread
  rw [tryDeserialize, serializeMessage, append_assoc, take_left' hheader,
    drop_left' hheader, hread, if_neg (by simp [hheader])]
  simp only [validateHeader, Message.maxMessageSize, BitVec.toNat_ofNat]
  rw [if_neg (by simp)]
  by_cases hver : protocol.versionUsing < protocol.versionMin
  · rw [if_pos hver, if_pos hver]
  · rw [if_neg hver, if_neg hver, if_neg (by omega)]
    exact if_neg (by simp; omega)

end Preproposal

/-- The confirmed accounts in the order of the store. -/
def Ledger.confirmedFrontiers (l : Ledger) : List (Account × BlockHash) :=
  (l.confirmationHeight.sortedKeys U256.byteLe).map fun account =>
    (account, ((l.confirmationHeight.get account).getD default).frontier)

def Ledger.createPreproposal (signer : PublicKey) (sign : Preproposal → Signature)
    (l : Ledger) (snapshotNumber : BitVec 32) : Preproposal :=
  .new l.confirmedFrontiers signer sign snapshotNumber

namespace Preproposal

variable (signer : PublicKey) (sign : Preproposal → Signature) (l : Ledger)
  (snapshotNumber : BitVec 32) (protocol : ProtocolInfo)

theorem length_createPreproposal :
    (l.createPreproposal signer sign snapshotNumber).serialize.length =
      100 + l.confirmationHeight.size * 64 := by
  rw [length_serialize]
  simp [Ledger.createPreproposal, new, sortFrontiers, Ledger.confirmedFrontiers,
    Table.length_sortedKeys]

/-- The preproposal of a ledger is returned unchanged, whatever follows it on the stream, exactly
if the protocol accepts its own version and at most 1022 accounts are confirmed. -/
theorem tryDeserialize_createPreproposal_iff :
    (∀ rest, tryDeserialize protocol
      (serializeMessage protocol (l.createPreproposal signer sign snapshotNumber) ++ rest) =
        some (.ok (l.createPreproposal signer sign snapshotNumber), rest)) ↔
      ¬ protocol.versionUsing < protocol.versionMin ∧ l.confirmationHeight.size ≤ 1022 := by
  have hlen := length_createPreproposal signer sign l snapshotNumber
  by_cases hversion : protocol.versionUsing < protocol.versionMin
  · simp only [hversion, not_true_eq_false, false_and, iff_false, not_forall]
    refine ⟨[], ?_⟩
    rw [tryDeserialize_serializeMessage, if_pos hversion]
    nofun
  simp only [tryDeserialize_serializeMessage, hlen, hversion, if_false, not_false_eq_true, true_and]
  constructor
  · intro h
    have hdrop := congrArg List.length (congrArg Prod.snd (Option.some.inj (h [])))
    simp [hlen] at hdrop
    omega
  · intro hsize rest
    have hmod : (100 + l.confirmationHeight.size * 64) % 2 ^ 16 =
        (l.createPreproposal signer sign snapshotNumber).serialize.length := by omega
    obtain ⟨left, hdecode⟩ := decodes (m := l.createPreproposal signer sign snapshotNumber)
      (sortFrontiers_sortFrontiers _)
    rw [hmod, List.take_left, List.drop_left, deserializePayload, hdecode]

/-- A thousand and twenty-three confirmed accounts. -/
def devConfirmed : Table Account ConfirmationHeightInfo where
  entries := Multiset.ofList ((List.range 1023).map fun i => ⟨⟨BitVec.ofNat 256 i⟩, default⟩)
  nodupKeys := by
    rw [Multiset.coe_nodupKeys, List.NodupKeys, List.keys, List.map_map]
    refine List.nodup_range.map_on fun i hi j hj heq => ?_
    have hnum := congrArg (fun a : Account => a.number.toNat) heq
    simp at hi hj hnum
    omega

/-- With one account more, the preproposal is not returned. -/
theorem tryDeserialize_devTooMany : ∃ l : Ledger, l.confirmationHeight.size = 1023 ∧
    ¬ ∀ rest, tryDeserialize default
      (serializeMessage default (l.createPreproposal 1 (fun _ => 0) 0) ++ rest) =
        some (.ok (l.createPreproposal 1 (fun _ => 0) 0), rest) := by
  have hsize : devConfirmed.size = 1023 := by simp [Table.size, devConfirmed]
  refine ⟨{ Ledger.genesis devConstants 0 with confirmationHeight := devConfirmed }, hsize,
    fun h => ?_⟩
  have hdrop := h []
  rw [tryDeserialize_serializeMessage] at hdrop
  have hlength := congrArg List.length (congrArg Prod.snd (Option.some.inj hdrop))
  simp [length_createPreproposal, hsize] at hlength

end Preproposal

end RsNano
