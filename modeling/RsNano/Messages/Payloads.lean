import Mathlib.Data.Vector.Basic
import RsNano.Messages.Header

/-!
# Payloads of the realtime messages

What each message writes after its header, which extension bits it sets, how long its payload is
according to these bits, and how it is read back. A `serializedSize` looks at the extension bits
only, since the receiver has nothing else when it waits for the payload.
-/

namespace RsNano

open Reader Bytes BlockType Ensures

/-- Reading a payload returns an error, or it panics. -/
inductive PayloadError
  | invalid (e : DeserializationError)
  | rootsHashesTooBig
  | tooManyHashes
  | tooManyBlocks
  | timeOverflow
  deriving DecidableEq, Repr

/-- Failures that are returned to the caller. -/
def PayloadError.Returned (e : PayloadError) : Prop := ∃ e', e = invalid e'

abbrev PayloadReader := Reader PayloadError

instance : MonadLift BlockReader PayloadReader := ⟨mapError .invalid⟩

/-- A reader without panics returns all its errors. -/
theorem ensures_liftM {α : Type} {Q : α → Prop} {r : BlockReader α}
    (h : Ensures r Q fun _ => True) : Ensures (liftM r : PayloadReader α) Q PayloadError.Returned :=
  mapError fun bytes => (h bytes).imp_right fun ⟨e, he, _⟩ => ⟨e, he, e, rfl⟩

theorem reads_liftM {α : Type} {r : BlockReader α} {bytes : List Byte} {x : α}
    (h : Reads r bytes x) : Reads (liftM r : PayloadReader α) bytes x := h.mapError

/-- The last part of a payload is a value that is built without a panic. -/
theorem reads_build {α β : Type} {r : BlockReader α} {f : α → Except PayloadError β}
    {bytes : List Byte} {x : α} {y : β} (h : Reads r bytes x) (hf : f x = .ok y) :
    Reads (do f (← r) : PayloadReader β) bytes y := by
  refine (reads_liftM h).bind_nil ?_
  rw [hf]
  exact .pure y

/-! ### Keepalive -/

structure Keepalive where
  peers : List.Vector SocketAddrV6 8
  deriving DecidableEq

/-- The part of an endpoint that a keepalive message carries. -/
def SocketAddrV6.onWire (a : SocketAddrV6) : SocketAddrV6 := ⟨a.ip, a.port, 0, 0⟩

namespace Keepalive

def serializedSize : ℕ := 8 * (16 + 2)

def serializePeer (peer : SocketAddrV6) : List Byte := be 16 peer.ip ++ le 2 peer.port

def serialize (m : Keepalive) : List Byte := m.peers.toList.flatMap serializePeer

def deserializePeers : (n : ℕ) → BlockReader (List.Vector SocketAddrV6 n)
  | 0 => return .nil
  | n + 1 => do
    let ip ← readBe .ioError 16
    let port ← readLe .ioError 2
    let peers ← deserializePeers n
    return ⟨ip, port, 0, 0⟩ ::ᵥ peers

def deserialize : BlockReader Keepalive := do
  return ⟨← deserializePeers 8⟩

theorem reads_peers {n : ℕ} (peers : List.Vector SocketAddrV6 n) :
    Reads (deserializePeers n) (peers.toList.flatMap serializePeer)
      (peers.map SocketAddrV6.onWire) := by
  induction n with
  | zero =>
    obtain rfl := peers.eq_nil
    exact .pure _
  | succ n ih =>
    obtain ⟨-, rest, rfl⟩ := peers.exists_eq_cons
    exact (Reads.readBe (by decide) _).bind ((Reads.readLe (by decide) _).bind (ih rest).bind_pure)

theorem length_serialize (m : Keepalive) : m.serialize.length = serializedSize := by
  have hpeer : ∀ peer, (serializePeer peer).length = 18 := fun peer => by simp [serializePeer]
  rw [serialize, length_flatMap hpeer, m.peers.toList_length, serializedSize]

end Keepalive

/-! ### Publish -/

structure Publish where
  block : Block
  digest : BitVec 128
  isOriginator : Bool

namespace Publish

def originatorFlag : Extensions := 1 <<< 2

def serializedSize (extensions : Extensions) : ℕ :=
  match ofId extensions.blockTypeId with
  | some blockType => serializedBlockSize blockType
  | none => 0

variable (m : Publish)

def serialize : List Byte := m.block.serializeWithoutBlockType

def deserialize (H : Blake2b) (extensions : Extensions) (digest : BitVec 128) :
    BlockReader Publish := do
  let blockType ← okOr .invalidData (ofId extensions.blockTypeId)
  let block ← Block.deserializeBlockType H blockType
  return ⟨block, digest, extensions &&& originatorFlag ≠ 0⟩

def headerExtensions : Extensions :=
  let flags : Extensions := m.block.blockType.toId.setWidth 16 <<< 8
  if m.isOriginator then flags ||| originatorFlag else flags

theorem blockTypeId_headerExtensions :
    m.headerExtensions.blockTypeId = m.block.blockType.toId := by
  rw [headerExtensions]
  cases m.isOriginator <;> cases m.block.blockType <;> decide

theorem originator_headerExtensions :
    decide (m.headerExtensions &&& originatorFlag ≠ 0) = m.isOriginator := by
  rw [headerExtensions]
  cases m.isOriginator <;> cases m.block.blockType <;> decide

theorem serializedSize_headerExtensions :
    serializedSize m.headerExtensions = m.serialize.length := by
  rw [serializedSize, blockTypeId_headerExtensions, ofId_toId, serialize,
    Block.length_serializeWithoutBlockType]

theorem reads {H : Blake2b} {m : Publish} (h : m.block.Hashed H) :
    Reads (deserialize H m.headerExtensions m.digest) m.serialize m := by
  have hblk := Block.reads_withoutBlockType H m.block
  rw [h] at hblk
  rw [deserialize, blockTypeId_headerExtensions, ofId_toId, originator_headerExtensions]
  exact (Reads.pure _).bind hblk.bind_pure

end Publish

/-! ### Confirm request -/

structure ConfirmReq where
  rootsHashes : List (BlockHash × Root)
  deriving DecidableEq

namespace ConfirmReq

def countHighMask : Extensions := 0xf000

def countLowMask : Extensions := 0x00f0

def v2Flag : Extensions := 1

def new (rootsHashes : List (BlockHash × Root)) : Except PayloadError ConfirmReq :=
  if 255 < rootsHashes.length then .error .rootsHashesTooBig else .ok ⟨rootsHashes⟩

def hasV2Flag (bits : Extensions) : Bool := bits &&& v2Flag = v2Flag

def v1Count (bits : Extensions) : Byte := ((bits &&& countHighMask) >>> 12).setWidth 8

def v2Count (bits : Extensions) : Byte :=
  let left := (bits &&& countHighMask) >>> 12
  let right := (bits &&& countLowMask) >>> 4
  ((left <<< 4) ||| right).setWidth 8

def count (extensions : Extensions) : Byte :=
  if hasV2Flag extensions then v2Count extensions else v1Count extensions

/-- Small counts are written as earlier protocol versions did, in four bits. -/
def countBits (count : Byte) : Extensions :=
  if count < 16 then count.setWidth 16 <<< 12
  else
    let left := (count >>> 4) &&& 0xf
    let right := count &&& 0xf
    v2Flag ||| left.setWidth 16 <<< 12 ||| right.setWidth 16 <<< 4

def serializedSize (extensions : Extensions) : ℕ :=
  match ofId extensions.blockTypeId with
  | some blockType => serializedBlockSize blockType
  | none => if extensions.blockTypeId = notABlockId then (count extensions).toNat * (32 + 32) else 0

def serializePair (pair : BlockHash × Root) : List Byte := pair.1.serialize ++ pair.2.serialize

def serialize (m : ConfirmReq) : List Byte := m.rootsHashes.flatMap serializePair

/-- Pairs of zeros are skipped. -/
def deserializePairs : ℕ → BlockReader (List (BlockHash × Root))
  | 0 => return []
  | n + 1 => do
    let hash ← U256.deserialize
    let root ← U256.deserialize
    let rest ← deserializePairs n
    return if hash ≠ 0 ∨ root ≠ 0 then (hash, root) :: rest else rest

def deserializeRoots (extensions : Extensions) : BlockReader (List (BlockHash × Root)) := do
  let roots ← deserializePairs (count extensions).toNat
  if roots.isEmpty ∨ roots.length ≠ (count extensions).toNat then fail .invalidData
  else return roots

def deserialize (extensions : Extensions) : PayloadReader ConfirmReq := do
  let roots ← deserializeRoots extensions
  new roots

def headerExtensions (m : ConfirmReq) : Extensions :=
  countBits (BitVec.ofNat 8 m.rootsHashes.length) ||| notABlockId.setWidth 16 <<< 8

/-- The count survives its split into the extension bits, whatever the flag bits between say. -/
theorem count_countBits (n : Byte) : count (countBits n ||| notABlockId.setWidth 16 <<< 8) = n ∧
    count ((countBits n).set 2 true) = n ∧ count ((countBits n).set 2 false) = n ∧
    (countBits n ||| notABlockId.setWidth 16 <<< 8).blockTypeId = notABlockId := by
  revert n
  decide +kernel

theorem length_serialize (m : ConfirmReq) : m.serialize.length = m.rootsHashes.length * 64 := by
  have hpair : ∀ pair, (serializePair pair).length = 64 := fun pair => by simp [serializePair]
  exact length_flatMap hpair m.rootsHashes

theorem toNat_count {m : ConfirmReq} (h : m.rootsHashes.length ≤ 255) :
    (count m.headerExtensions).toNat = m.rootsHashes.length := by
  rw [headerExtensions, (count_countBits _).1, BitVec.toNat_ofNat]
  omega

theorem serializedSize_headerExtensions {m : ConfirmReq} (h : m.rootsHashes.length ≤ 255) :
    serializedSize m.headerExtensions = m.serialize.length := by
  have hid : m.headerExtensions.blockTypeId = notABlockId := (count_countBits _).2.2.2
  have hof : ofId notABlockId = none := rfl
  rw [serializedSize, hid, hof, length_serialize, toNat_count h]
  rfl

theorem reads_pairs {pairs : List (BlockHash × Root)} (h : ∀ p ∈ pairs, p.1 ≠ 0 ∨ p.2 ≠ 0) :
    Reads (deserializePairs pairs.length) (pairs.flatMap serializePair) pairs := by
  induction pairs with
  | nil => exact .pure _
  | cons pair pairs ih =>
    have hrest := ih fun p hp => h p (List.mem_cons_of_mem _ hp)
    refine (U256.reads _).bind ((U256.reads _).bind ?_)
    have hpair := hrest.bind_pure
      (f := fun rest => if pair.1 ≠ 0 ∨ pair.2 ≠ 0 then (pair.1, pair.2) :: rest else rest)
    rwa [if_pos (h pair List.mem_cons_self)] at hpair

theorem reads {m : ConfirmReq} (hne : m.rootsHashes ≠ []) (hlen : m.rootsHashes.length ≤ 255)
    (h : ∀ p ∈ m.rootsHashes, p.1 ≠ 0 ∨ p.2 ≠ 0) :
    Reads (deserialize m.headerExtensions) m.serialize m := by
  have hroots : Reads (deserializeRoots m.headerExtensions) m.serialize m.rootsHashes := by
    rw [deserializeRoots, toNat_count hlen]
    refine (reads_pairs h).bind_nil ?_
    rw [if_neg (by simp [hne])]
    exact .pure _
  have hnew : new m.rootsHashes = .ok m := by rw [new, if_neg (by omega)]
  exact reads_build hroots hnew

theorem ensures_deserialize (extensions : Extensions) :
    Ensures (deserialize extensions) (fun _ => True) PayloadError.Returned := by
  have hroots : Ensures (deserializeRoots extensions) (fun roots => roots.length ≤ 255)
      fun _ => True := by
    refine (trivial _).bind fun roots _ => ?_
    have hcnt := (count extensions).isLt
    split
    · exact fun bytes => Or.inr ⟨_, rfl, True.intro⟩
    · next h => exact .pure (by omega)
  refine (ensures_liftM hroots).bind fun roots h => ?_
  rw [new, if_neg (by omega)]
  exact .pure True.intro

end ConfirmReq

open ConfirmReq

/-! ### Confirm ack -/

structure Vote where
  timestamp : BitVec 64
  voter : PublicKey
  signature : Signature
  hashes : List BlockHash
  deriving DecidableEq

namespace Vote

def maxHashes : ℕ := 255

def serializedSize (count : ℕ) : ℕ := 32 + 64 + 8 + 32 * count

def serialize (v : Vote) : List Byte :=
  v.voter.serialize ++ (Signature.serialize v.signature ++ (le 8 v.timestamp ++
    v.hashes.flatMap U256.serialize))

/-- Hashes are read until the bytes are used up, but no more than there is room for. -/
def deserializeHashes : ℕ → BlockReader (List BlockHash)
  | 0 => return []
  | room + 1 => do
    if (← remaining).isEmpty then return []
    else
      let hash ← U256.deserialize
      return hash :: (← deserializeHashes room)

def deserialize : BlockReader Vote := do
  let voter ← U256.deserialize
  let signature ← Signature.deserialize
  let timestamp ← readLe .ioError 8
  let hashes ← deserializeHashes maxHashes
  return { timestamp, voter, signature, hashes }

theorem length_serialize (v : Vote) : v.serialize.length = serializedSize v.hashes.length := by
  have hhs := length_flatMap (fun h : BlockHash => h.length_serialize) v.hashes
  rw [serialize, List.length_append, List.length_append, List.length_append, hhs]
  simp only [U256.length_serialize, Signature.length_serialize, length_le, serializedSize]
  omega

theorem decodes_hashes {room : ℕ} {hashes : List BlockHash} (h : hashes.length ≤ room) :
    Decodes (deserializeHashes room) (hashes.flatMap U256.serialize) hashes := by
  induction hashes generalizing room with
  | nil => cases room <;> exact ⟨[], rfl⟩
  | cons hash hashes ih =>
    obtain ⟨room, rfl⟩ : ∃ n, room = n + 1 := ⟨room - 1, by simp at h; omega⟩
    have hne : (hash :: hashes).flatMap U256.serialize ≠ [] := by
      intro hnil
      have hlen := congrArg List.length hnil
      simp at hlen
    refine Decodes.remaining ?_ hne
    exact Decodes.bind (U256.reads hash) (ih (Nat.le_of_succ_le_succ h)).bind_pure

theorem decodes {v : Vote} (h : v.hashes.length ≤ maxHashes) : Decodes deserialize v.serialize v :=
  .bind (U256.reads _) (.bind (Signature.reads _) (.bind (Reads.readLe (by decide) _)
    (decodes_hashes h).bind_pure))

theorem ensures_deserializeHashes (room : ℕ) :
    Ensures (deserializeHashes room) (fun hashes => hashes.length ≤ room) fun _ => True := by
  induction room with
  | zero => exact .pure (Nat.zero_le _)
  | succ room ih =>
    refine (trivial _).bind fun bytes _ => ?_
    split
    · exact .pure (Nat.zero_le _)
    · exact (trivial _).bind fun hash _ => ih.bind fun hashes h =>
        .pure (Nat.succ_le_succ h)

theorem ensures_deserialize :
    Ensures deserialize (fun v => v.hashes.length ≤ maxHashes) fun _ => True :=
  (trivial _).bind fun _ _ => (trivial _).bind fun _ _ =>
    (trivial _).bind fun _ _ => (ensures_deserializeHashes _).bind fun _ h => .pure h

end Vote

structure ConfirmAck where
  vote : Vote
  isRebroadcasted : Bool
  digest : BitVec 128
  deriving DecidableEq

namespace ConfirmAck

def hashesMax : ℕ := 255

def rebroadcastedFlag : ℕ := 2

def newWithOwnVote (vote : Vote) : Except PayloadError ConfirmAck :=
  if vote.hashes.length ≤ hashesMax then .ok ⟨vote, false, 0⟩ else .error .tooManyHashes

def newWithRebroadcastedVote (vote : Vote) : Except PayloadError ConfirmAck :=
  if vote.hashes.length ≤ hashesMax then .ok ⟨vote, true, 0⟩ else .error .tooManyHashes

def serializedSize (extensions : Extensions) : ℕ := Vote.serializedSize (count extensions).toNat

def serialize (m : ConfirmAck) : List Byte := m.vote.serialize

def deserialize (extensions : Extensions) (digest : BitVec 128) : PayloadReader ConfirmAck := do
  let vote ← Vote.deserialize
  let ack ← (if extensions.getLsbD rebroadcastedFlag then newWithRebroadcastedVote vote
    else newWithOwnVote vote)
  return { ack with digest := digest }

def headerExtensions (m : ConfirmAck) : Extensions :=
  (countBits (BitVec.ofNat 8 m.vote.hashes.length)).set rebroadcastedFlag m.isRebroadcasted

theorem getLsbD_rebroadcastedFlag (n : Byte) (b : Bool) :
    ((countBits n).set rebroadcastedFlag b).getLsbD rebroadcastedFlag = b := by
  revert n b
  decide +kernel

theorem serializedSize_headerExtensions {m : ConfirmAck} (h : m.vote.hashes.length ≤ hashesMax) :
    serializedSize m.headerExtensions = m.serialize.length := by
  have hcnt : count m.headerExtensions = BitVec.ofNat 8 m.vote.hashes.length := by
    rw [headerExtensions]
    cases m.isRebroadcasted with
    | true => exact (count_countBits _).2.1
    | false => exact (count_countBits _).2.2.1
  have hlt : m.vote.hashes.length < 2 ^ 8 := Nat.lt_succ_of_le h
  rw [serializedSize, hcnt, serialize, Vote.length_serialize, BitVec.toNat_ofNat,
    Nat.mod_eq_of_lt hlt]

theorem decodes {m : ConfirmAck} (h : m.vote.hashes.length ≤ hashesMax) :
    Decodes (deserialize m.headerExtensions m.digest) m.serialize m := by
  have hvote : Decodes (liftM Vote.deserialize : PayloadReader Vote) m.serialize m.vote :=
    (Vote.decodes h).mapError
  refine hvote.bind_reads ?_
  rw [headerExtensions, getLsbD_rebroadcastedFlag]
  obtain ⟨vote, isRebroadcasted, digest⟩ := m
  cases isRebroadcasted with
  | true =>
    rw [if_pos rfl, newWithRebroadcastedVote, if_pos h]
    exact .pure _
  | false =>
    rw [if_neg Bool.false_ne_true, newWithOwnVote, if_pos h]
    exact .pure _

theorem ensures_deserialize (extensions : Extensions) (digest : BitVec 128) :
    Ensures (deserialize extensions digest) (fun _ => True) PayloadError.Returned := by
  refine (ensures_liftM Vote.ensures_deserialize).bind fun vote h => ?_
  have hmax : vote.hashes.length ≤ hashesMax := h
  rw [newWithRebroadcastedVote, newWithOwnVote, if_pos hmax, if_pos hmax]
  split
  · exact .pure True.intro
  · exact .pure True.intro

end ConfirmAck

/-! ### Frontier request -/

structure FrontierReq where
  start : Account
  age : BitVec 32
  count : BitVec 32
  onlyConfirmed : Bool
  deriving DecidableEq

namespace FrontierReq

def serializedSize : ℕ := 32 + 4 + 4

def onlyConfirmedFlag : ℕ := 1

variable (m : FrontierReq)

def serialize : List Byte := m.start.serialize ++ (le 4 m.age ++ le 4 m.count)

def deserialize (extensions : Extensions) : BlockReader FrontierReq := do
  let start ← U256.deserialize
  let age ← readLe .ioError 4
  let count ← readLe .ioError 4
  return ⟨start, age, count, extensions.getLsbD onlyConfirmedFlag⟩

def headerExtensions : Extensions := Extensions.set 0 onlyConfirmedFlag m.onlyConfirmed

theorem length_serialize : m.serialize.length = serializedSize := by
  simp [serialize, serializedSize]

theorem getLsbD_headerExtensions :
    m.headerExtensions.getLsbD onlyConfirmedFlag = m.onlyConfirmed := by
  rw [headerExtensions]
  cases m.onlyConfirmed <;> decide

theorem reads : Reads (deserialize m.headerExtensions) m.serialize m := by
  rw [deserialize, getLsbD_headerExtensions]
  exact (U256.reads _).bind ((Reads.readLe (by decide) _).bind
    (Reads.readLe (by decide) _).bind_pure)

end FrontierReq

/-! ### Bulk pulls -/

structure BulkPull where
  start : HashOrAccount
  finish : BlockHash
  count : BitVec 32
  ascending : Bool
  deriving DecidableEq

namespace BulkPull

def countPresentFlag : ℕ := 0

def ascendingFlag : ℕ := 1

def extendedParametersSize : ℕ := 8

def serializedSize (extensions : Extensions) : ℕ :=
  32 + 32 + if extensions.getLsbD countPresentFlag then extendedParametersSize else 0

def serialize (m : BulkPull) : List Byte :=
  m.start.serialize ++ (m.finish.serialize ++
    if 0 < m.count then [0] ++ (le 4 m.count ++ [0, 0, 0]) else [])

/-- The count is in the second to fifth byte of the extended parameters. -/
def deserializeCount : BlockReader (BitVec 32) := do
  let buffer ← readExact .ioError extendedParametersSize
  if buffer.headD 0 ≠ 0 then fail .invalidData
  else return BitVec.ofNat 32 (toNatLe ((buffer.drop 1).take 4))

def deserialize (extensions : Extensions) : BlockReader BulkPull := do
  let start ← U256.deserialize
  let finish ← U256.deserialize
  let count ← (if extensions.getLsbD countPresentFlag then deserializeCount else pure 0)
  return ⟨start, finish, count, extensions.getLsbD ascendingFlag⟩

def headerExtensions (m : BulkPull) : Extensions :=
  (Extensions.set 0 countPresentFlag (0 < m.count)).set ascendingFlag m.ascending

end BulkPull

inductive BulkPullAccountFlags
  | pendingHashAndAmount
  | pendingAddressOnly
  | pendingHashAmountAndAddress
  deriving DecidableEq, Repr

namespace BulkPullAccountFlags

def toU8 : BulkPullAccountFlags → Byte
  | pendingHashAndAmount => 0x0
  | pendingAddressOnly => 0x1
  | pendingHashAmountAndAddress => 0x2

def fromU8 (id : Byte) : Option BulkPullAccountFlags :=
  [pendingHashAndAmount, pendingAddressOnly, pendingHashAmountAndAddress].find? (·.toU8 = id)

end BulkPullAccountFlags

structure BulkPullAccount where
  account : Account
  minimumAmount : Amount
  flags : BulkPullAccountFlags
  deriving DecidableEq

namespace BulkPullAccount

def serializedSize : ℕ := 32 + 16 + 1

def serialize (m : BulkPullAccount) : List Byte :=
  m.account.serialize ++ (Amount.serialize m.minimumAmount ++ [m.flags.toU8])

def deserialize : BlockReader BulkPullAccount := do
  let account ← U256.deserialize
  let minimumAmount ← Amount.deserialize
  let flags ← okOr .invalidData (BulkPullAccountFlags.fromU8 (← readU8))
  return ⟨account, minimumAmount, flags⟩

end BulkPullAccount

/-! ### Node id handshake -/

/-- Thirty-two random bytes. -/
abbrev Cookie := BitVec 256

structure V2Payload where
  salt : BitVec 256
  genesis : BlockHash
  deriving DecidableEq

structure NodeIdHandshakeResponse where
  nodeId : NodeId
  signature : Signature
  v2 : Option V2Payload
  deriving DecidableEq

structure NodeIdHandshake where
  query : Option Cookie
  response : Option NodeIdHandshakeResponse
  isV2 : Bool
  deriving DecidableEq

namespace NodeIdHandshake

def queryFlag : ℕ := 0

def responseFlag : ℕ := 1

def v2Flag : ℕ := 2

def isQuery (extensions : Extensions) : Bool := extensions.getLsbD queryFlag

def isResponse (extensions : Extensions) : Bool := extensions.getLsbD responseFlag

def hasV2Flag (extensions : Extensions) : Bool := extensions.getLsbD v2Flag

end NodeIdHandshake

namespace NodeIdHandshakeResponse

def serializedSize (extensions : Extensions) : ℕ :=
  if NodeIdHandshake.hasV2Flag extensions then 32 + 32 + 32 + 64 else 32 + 64

def serialize (r : NodeIdHandshakeResponse) : List Byte :=
  match r.v2 with
  | some v2 => r.nodeId.serialize ++ (be 32 v2.salt ++ (v2.genesis.serialize ++
      Signature.serialize r.signature))
  | none => r.nodeId.serialize ++ Signature.serialize r.signature

def deserialize (extensions : Extensions) : BlockReader NodeIdHandshakeResponse :=
  if NodeIdHandshake.hasV2Flag extensions then do
    let nodeId ← U256.deserialize
    let salt ← readBe .ioError 32
    let genesis ← U256.deserialize
    let signature ← Signature.deserialize
    return ⟨nodeId, signature, some ⟨salt, genesis⟩⟩
  else do
    let nodeId ← U256.deserialize
    let signature ← Signature.deserialize
    return ⟨nodeId, signature, none⟩

theorem reads {r : NodeIdHandshakeResponse} {extensions : Extensions}
    (h : NodeIdHandshake.hasV2Flag extensions = r.v2.isSome) :
    Reads (deserialize extensions) r.serialize r := by
  obtain ⟨nodeId, signature, v2⟩ := r
  rw [deserialize, h]
  cases v2 with
  | some v2 =>
    exact (U256.reads _).bind ((Reads.readBe (by decide) _).bind
      ((U256.reads _).bind (Signature.reads _).bind_pure))
  | none => exact (U256.reads _).bind (Signature.reads _).bind_pure

end NodeIdHandshakeResponse

namespace NodeIdHandshake

def serializedSize (extensions : Extensions) : ℕ :=
  (if isQuery extensions then 32 else 0) +
    if isResponse extensions then NodeIdHandshakeResponse.serializedSize extensions else 0

variable (m : NodeIdHandshake)

def serialize : List Byte :=
  (match m.query with
    | some cookie => be 32 cookie
    | none => []) ++
  match m.response with
  | some response => response.serialize
  | none => []

def deserialize (extensions : Extensions) : BlockReader NodeIdHandshake := do
  let query ← (if isQuery extensions then do return some (← readBe .ioError 32) else pure none)
  let response ← (if isResponse extensions then
    do return some (← NodeIdHandshakeResponse.deserialize extensions) else pure none)
  return ⟨query, response, hasV2Flag extensions⟩

def headerExtensions : Extensions :=
  ((Extensions.set 0 queryFlag m.query.isSome).set responseFlag m.response.isSome).set v2Flag m.isV2

/-- The receiver learns from the flag whether a response has its second part. -/
def Flagged : Prop := ∀ r, m.response = some r → m.isV2 = r.v2.isSome

theorem flags_headerExtensions :
    isQuery m.headerExtensions = m.query.isSome ∧
      isResponse m.headerExtensions = m.response.isSome ∧
      hasV2Flag m.headerExtensions = m.isV2 := by
  rw [headerExtensions]
  generalize m.query.isSome = query, m.response.isSome = response, m.isV2 = isV2
  revert query response isV2
  decide

theorem serializedSize_headerExtensions {m : NodeIdHandshake} (h : m.Flagged) :
    serializedSize m.headerExtensions = m.serialize.length := by
  obtain ⟨hquery, hresp, hv2⟩ := m.flags_headerExtensions
  rw [serializedSize, hquery, hresp, serialize, List.length_append]
  congr 1
  · cases m.query <;> simp
  · cases hr : m.response with
    | none => rfl
    | some r =>
      simp only [NodeIdHandshakeResponse.serializedSize, hv2.trans (h r hr),
        NodeIdHandshakeResponse.serialize]
      cases r.v2 <;> simp

theorem reads {m : NodeIdHandshake} (h : m.Flagged) :
    Reads (deserialize m.headerExtensions) m.serialize m := by
  obtain ⟨hquery, hresp, hv2⟩ := m.flags_headerExtensions
  rw [deserialize, hquery, hresp, hv2]
  obtain ⟨query, response, isV2⟩ := m
  refine Reads.bind (x := query) ?_ (Reads.bind_pure (x := response) ?_)
  · cases query with
    | none => exact .pure none
    | some cookie => exact (Reads.readBe (by decide) cookie).bind_pure
  · cases response with
    | none => exact .pure none
    | some r =>
      exact (NodeIdHandshakeResponse.reads (hv2.trans (h r rfl))).bind_pure

end NodeIdHandshake

end RsNano
