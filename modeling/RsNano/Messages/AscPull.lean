import RsNano.Messages.Payloads

/-!
# Ascending pulls

Requests for blocks, for the state of an account or for account frontiers, and the answers to
them. The extension bits hold the length of what follows the type and the id. Blocks end with a
byte that is not a block type and frontiers end with a pair of zeros; the reader takes a full
list of frontiers without looking at the terminator behind it.
-/

namespace RsNano

open Reader List Bytes PayloadError

inductive AscPullPayloadId
  | blocks
  | accountInfo
  | frontiers
  deriving DecidableEq, Repr

namespace AscPullPayloadId

def toU8 : AscPullPayloadId → Byte
  | blocks => 0x1
  | accountInfo => 0x2
  | frontiers => 0x3

def fromU8 (id : Byte) : Option AscPullPayloadId :=
  [blocks, accountInfo, frontiers].find? (·.toU8 = id)

theorem fromU8_toU8 (t : AscPullPayloadId) : fromU8 t.toU8 = some t := by
  cases t <;> rfl

def deserialize : BlockReader AscPullPayloadId := do
  okOr .invalidData (fromU8 (← readU8))

theorem reads (t : AscPullPayloadId) : Reads deserialize [t.toU8] t :=
  (reads_u8 t.toU8).code (fromU8_toU8 t)

end AscPullPayloadId

/-- The length behind the type and the id of a pull. -/
def ascPullExtensions (payloadLen : BitVec 16) : Extensions := payloadLen - 1 - 8

/-- The size of a pull according to its extension bits. -/
def ascPullSize (extensions : Extensions) : ℕ := 1 + 8 + extensions.toNat

theorem ascPullSize_ascPullExtensions {n : ℕ} (hmin : 9 ≤ n) (hmax : n < 2 ^ 16) :
    ascPullSize (ascPullExtensions (BitVec.ofNat 16 n)) = n := by
  rw [ascPullSize, ascPullExtensions, BitVec.toNat_sub, BitVec.toNat_sub, BitVec.toNat_ofNat]
  have hone : (1 : BitVec 16).toNat = 1 := rfl
  have height : (8 : BitVec 16).toNat = 8 := rfl
  omega

/-! ### Requests -/

inductive HashType
  | account
  | block
  deriving DecidableEq, Repr

namespace HashType

def toU8 : HashType → Byte
  | account => 0
  | block => 1

def fromU8 (id : Byte) : Option HashType := [account, block].find? (·.toU8 = id)

theorem fromU8_toU8 (t : HashType) : fromU8 t.toU8 = some t := by
  cases t <;> rfl

def deserialize : BlockReader HashType := do
  okOr .invalidData (fromU8 (← readU8))

theorem reads (t : HashType) : Reads deserialize [t.toU8] t :=
  (reads_u8 t.toU8).code (fromU8_toU8 t)

end HashType

structure BlocksReqPayload where
  startType : HashType
  start : HashOrAccount
  count : Byte
  deriving DecidableEq

structure AccountInfoReqPayload where
  target : HashOrAccount
  targetType : HashType
  deriving DecidableEq

structure FrontiersReqPayload where
  start : Account
  count : BitVec 16
  deriving DecidableEq

inductive AscPullReqType
  | blocks (p : BlocksReqPayload)
  | accountInfo (p : AccountInfoReqPayload)
  | frontiers (p : FrontiersReqPayload)
  deriving DecidableEq

namespace AscPullReqType

def payloadType : AscPullReqType → AscPullPayloadId
  | blocks _ => .blocks
  | accountInfo _ => .accountInfo
  | frontiers _ => .frontiers

def serialize : AscPullReqType → List Byte
  | blocks p => p.start.serialize ++ ([p.count] ++ [p.startType.toU8])
  | accountInfo p => p.target.serialize ++ [p.targetType.toU8]
  | frontiers p => p.start.serialize ++ be 2 p.count

def deserialize : AscPullPayloadId → BlockReader AscPullReqType
  | .blocks => do
    let start ← U256.deserialize
    let count ← readU8
    let startType ← HashType.deserialize
    return blocks ⟨startType, start, count⟩
  | .accountInfo => do
    let target ← U256.deserialize
    let targetType ← HashType.deserialize
    return accountInfo ⟨target, targetType⟩
  | .frontiers => do
    let start ← U256.deserialize
    let count ← readBe .ioError 2
    return frontiers ⟨start, count⟩

theorem reads (t : AscPullReqType) : Reads (deserialize t.payloadType) t.serialize t := by
  cases t with
  | blocks p => exact (U256.reads _).bind ((reads_u8 _).bind (HashType.reads _).bind_pure)
  | accountInfo p => exact (U256.reads _).bind (HashType.reads _).bind_pure
  | frontiers p => exact (U256.reads _).bind (Reads.readBe (by decide) _).bind_pure

theorem length_serialize_le (t : AscPullReqType) : t.serialize.length ≤ 34 := by
  cases t <;> simp [serialize]

end AscPullReqType

structure AscPullReq where
  id : BitVec 64
  reqType : AscPullReqType
  deriving DecidableEq

namespace AscPullReq

def serializedSize (extensions : Extensions) : ℕ := ascPullSize extensions

def serialize (m : AscPullReq) : List Byte :=
  [m.reqType.payloadType.toU8] ++ (be 8 m.id ++ m.reqType.serialize)

def deserialize : BlockReader AscPullReq := do
  let pullType ← AscPullPayloadId.deserialize
  let id ← readBe .ioError 8
  let reqType ← AscPullReqType.deserialize pullType
  return ⟨id, reqType⟩

def headerExtensions (payloadLen : BitVec 16) : Extensions := ascPullExtensions payloadLen

theorem serializedSize_headerExtensions (m : AscPullReq) :
    serializedSize (headerExtensions (BitVec.ofNat 16 m.serialize.length)) =
      m.serialize.length := by
  have hle := m.reqType.length_serialize_le
  have hlen : m.serialize.length = 1 + (8 + m.reqType.serialize.length) := by
    rw [serialize, length_append, length_append, length_be, length_singleton]
  exact ascPullSize_ascPullExtensions (by omega) (by omega)

theorem reads (m : AscPullReq) : Reads deserialize m.serialize m :=
  (AscPullPayloadId.reads _).bind ((Reads.readBe (by decide) _).bind
    (AscPullReqType.reads _).bind_pure)

end AscPullReq

/-! ### Answers -/

structure Frontier where
  account : Account
  hash : BlockHash
  deriving DecidableEq

namespace Frontier

instance : Inhabited Frontier := ⟨⟨0, 0⟩⟩

def serialize (f : Frontier) : List Byte := f.account.serialize ++ f.hash.serialize

def deserialize : BlockReader Frontier := do
  let account ← U256.deserialize
  let hash ← U256.deserialize
  return ⟨account, hash⟩

theorem reads (f : Frontier) : Reads deserialize f.serialize f :=
  (U256.reads _).bind (U256.reads _).bind_pure

theorem length_serialize (f : Frontier) : f.serialize.length = 64 := by
  simp [serialize]

/-- Frontiers are read up to a pair of zeros, but no more than there is room for. -/
def deserializeList : ℕ → BlockReader (List Frontier)
  | 0 => return []
  | room + 1 => do
    let current ← deserialize
    if current = default then return []
    else return current :: (← deserializeList room)

theorem decodes_list {room : ℕ} {frontiers : List Frontier} (hlen : frontiers.length ≤ room)
    (hne : ∀ f ∈ frontiers, f ≠ default) :
    Decodes (deserializeList room) (frontiers.flatMap serialize ++ serialize default)
      frontiers := by
  induction frontiers generalizing room with
  | nil =>
    cases room with
    | zero => exact ⟨_, rfl⟩
    | succ room => exact ((reads default).bind_nil (.pure [])).decodes
  | cons f frontiers ih =>
    obtain ⟨room, rfl⟩ : ∃ n, room = n + 1 := ⟨room - 1, by simp at hlen; omega⟩
    rw [flatMap_cons, append_assoc]
    refine Decodes.bind (reads f) ?_
    rw [if_neg (hne f mem_cons_self)]
    exact (ih (Nat.le_of_succ_le_succ hlen) fun g hg =>
      hne g (mem_cons_of_mem _ hg)).bind_pure

end Frontier

/-- The blocks of an answer; there is no way to build one with more. -/
structure BlocksAckPayload where
  blocks : List Block
  length_le : blocks.length ≤ 128

variable {H : Blake2b}

namespace BlocksAckPayload

def maxBlocks : ℕ := 128

def new (blocks : List Block) : Except PayloadError BlocksAckPayload :=
  if h : blocks.length ≤ maxBlocks then .ok ⟨blocks, h⟩ else .error .tooManyBlocks

def serialize (p : BlocksAckPayload) : List Byte :=
  p.blocks.flatMap Block.serialize ++ [notABlockId]

/-- The next block, unless the bytes or the blocks end here. -/
def deserializeNext (H : Blake2b) : BlockReader (Option Block) := do
  if (← remaining).isEmpty then return none
  else
    let typeId ← readU8
    if typeId = notABlockId then return none
    else
      let blockType ← okOr .invalidData (BlockType.ofId typeId)
      return some (← Block.deserializeBlockType H blockType)

def deserializeBlocks (H : Blake2b) : ℕ → BlockReader (List Block)
  | 0 => do
    match ← deserializeNext H with
    | none => return []
    | some _ => fail .tooMuchData
  | room + 1 => do
    match ← deserializeNext H with
    | none => return []
    | some block => return block :: (← deserializeBlocks H room)

def deserialize (H : Blake2b) : PayloadReader BlocksAckPayload := do
  let blocks ← deserializeBlocks H maxBlocks
  new blocks

theorem reads_next_end (H : Blake2b) : Reads (deserializeNext H) [notABlockId] none := fun _ => rfl

theorem reads_next {b : Block} (h : b.Hashed H) :
    Reads (deserializeNext H) b.serialize (some b) := by
  have hblk := Block.reads_withoutBlockType H b
  rw [h] at hblk
  have hid : b.blockType.toId ≠ notABlockId := by
    cases b.blockType <;> decide
  intro rest
  have hread := ((reads_u8 b.blockType.toId).bind (f := fun typeId =>
    if typeId = notABlockId then pure none
    else do
      let blockType ← okOr .invalidData (BlockType.ofId typeId)
      return some (← Block.deserializeBlockType H blockType)) (by
        rw [if_neg hid, BlockType.ofId_toId]
        exact (Reads.pure _).bind hblk.bind_pure)) rest
  exact hread

theorem reads_blocks {room : ℕ} {blocks : List Block} (hlen : blocks.length ≤ room)
    (h : ∀ b ∈ blocks, b.Hashed H) :
    Reads (deserializeBlocks H room) (blocks.flatMap Block.serialize ++ [notABlockId]) blocks := by
  induction blocks generalizing room with
  | nil =>
    cases room with
    | zero | succ room => exact (reads_next_end H).bind_nil (.pure [])
  | cons b blocks ih =>
    obtain ⟨room, rfl⟩ : ∃ n, room = n + 1 := ⟨room - 1, by simp at hlen; omega⟩
    rw [flatMap_cons, append_assoc]
    exact (reads_next (h b mem_cons_self)).bind (ih (Nat.le_of_succ_le_succ hlen)
      fun c hc => h c (mem_cons_of_mem _ hc)).bind_pure

theorem reads {p : BlocksAckPayload} (h : ∀ b ∈ p.blocks, b.Hashed H) :
    Reads (deserialize H) p.serialize p :=
  reads_build (reads_blocks p.length_le h) (dif_pos p.length_le)

theorem ensures_deserializeBlocks (H : Blake2b) (room : ℕ) :
    Ensures (deserializeBlocks H room) (fun blocks => blocks.length ≤ room) fun _ => True := by
  induction room with
  | zero =>
    refine (Ensures.trivial _).bind fun next _ => ?_
    cases next with
    | none => exact .pure le_rfl
    | some b => exact fun bytes => Or.inr ⟨_, rfl, True.intro⟩
  | succ room ih =>
    refine (Ensures.trivial _).bind fun next _ => ?_
    cases next with
    | none => exact .pure (Nat.zero_le _)
    | some b => exact ih.bind fun blocks h => .pure (Nat.succ_le_succ h)

theorem ensures_deserialize (H : Blake2b) :
    Ensures (deserialize H) (fun _ => True) Returned := by
  refine (ensures_liftM (ensures_deserializeBlocks H _)).bind fun blocks h => ?_
  rw [new, dif_pos h]
  exact .pure True.intro

theorem length_serialize_le (p : BlocksAckPayload) : p.serialize.length ≤ 128 * 217 + 1 := by
  have hblk : ∀ b : Block, b.serialize.length ≤ 217 := by
    intro b
    rw [Block.serialize, length_cons, Block.length_serializeWithoutBlockType]
    cases b.blockType <;> decide
  have hbs : ∀ blocks : List Block,
      (blocks.flatMap Block.serialize).length ≤ blocks.length * 217 := by
    intro blocks
    induction blocks with
    | nil => exact le_rfl
    | cons b blocks ih =>
      have hb := hblk b
      rw [flatMap_cons, length_append, length_cons]
      omega
  have hp := hbs p.blocks
  have hlen := p.length_le
  rw [serialize, length_append, length_singleton]
  omega

end BlocksAckPayload

structure AccountInfoAckPayload where
  account : Account
  accountOpen : BlockHash
  accountHead : BlockHash
  accountBlockCount : BitVec 64
  accountConfFrontier : BlockHash
  accountConfHeight : BitVec 64
  deriving DecidableEq

namespace AccountInfoAckPayload

def serialize (p : AccountInfoAckPayload) : List Byte :=
  p.account.serialize ++ (p.accountOpen.serialize ++ (p.accountHead.serialize ++
    (be 8 p.accountBlockCount ++ (p.accountConfFrontier.serialize ++ be 8 p.accountConfHeight))))

def deserialize : BlockReader AccountInfoAckPayload := do
  let account ← U256.deserialize
  let accountOpen ← U256.deserialize
  let accountHead ← U256.deserialize
  let accountBlockCount ← readBe .ioError 8
  let accountConfFrontier ← U256.deserialize
  let accountConfHeight ← readBe .ioError 8
  return ⟨account, accountOpen, accountHead, accountBlockCount, accountConfFrontier,
    accountConfHeight⟩

theorem reads (p : AccountInfoAckPayload) : Reads deserialize p.serialize p :=
  (U256.reads _).bind ((U256.reads _).bind ((U256.reads _).bind
    ((Reads.readBe (by decide) _).bind ((U256.reads _).bind
      (Reads.readBe (by decide) _).bind_pure))))

end AccountInfoAckPayload

inductive AscPullAckType
  | blocks (p : BlocksAckPayload)
  | accountInfo (p : AccountInfoAckPayload)
  | frontiers (frontiers : List Frontier)

structure AscPullAck where
  id : BitVec 64
  pullType : AscPullAckType

namespace AscPullAckType

def maxFrontiers : ℕ := 1000

def payloadType : AscPullAckType → AscPullPayloadId
  | blocks _ => .blocks
  | accountInfo _ => .accountInfo
  | frontiers _ => .frontiers

def serialize : AscPullAckType → List Byte
  | blocks p => p.serialize
  | accountInfo p => p.serialize
  | frontiers fs => fs.flatMap Frontier.serialize ++ Frontier.serialize default

def deserialize (H : Blake2b) : AscPullPayloadId → PayloadReader AscPullAckType
  | .blocks => do return blocks (← BlocksAckPayload.deserialize H)
  | .accountInfo => do return accountInfo (← AccountInfoAckPayload.deserialize)
  | .frontiers => do return frontiers (← Frontier.deserializeList maxFrontiers)

/-- The blocks carry their own hashes, and the frontiers fit and are not terminators. -/
def Sendable (H : Blake2b) : AscPullAckType → Prop
  | blocks p => ∀ b ∈ p.blocks, b.Hashed H
  | accountInfo _ => True
  | frontiers fs => fs.length ≤ maxFrontiers ∧ ∀ f ∈ fs, f ≠ default

theorem decodes {t : AscPullAckType} (h : t.Sendable H) :
    Decodes (deserialize H t.payloadType) t.serialize t := by
  cases t with
  | blocks p => exact (BlocksAckPayload.reads h).decodes.bind_pure
  | accountInfo p => exact (reads_liftM p.reads).decodes.bind_pure
  | frontiers fs =>
    have hlist := (Frontier.decodes_list h.1 h.2).mapError (f := PayloadError.invalid)
    exact hlist.bind_pure

theorem ensures_deserialize (H : Blake2b) (id : AscPullPayloadId) :
    Ensures (deserialize H id) (fun _ => True) Returned := by
  cases id with
  | blocks => exact (BlocksAckPayload.ensures_deserialize H).bind fun _ _ => .pure True.intro
  | accountInfo | frontiers => exact (ensures_liftM (.trivial _)).bind fun _ _ => .pure True.intro

theorem length_serialize_lt {t : AscPullAckType} (h : t.Sendable H) :
    t.serialize.length < 2 ^ 16 - 9 := by
  cases t with
  | blocks p =>
    have hle := p.length_serialize_le
    change p.serialize.length < _
    omega
  | accountInfo p => simp [serialize, AccountInfoAckPayload.serialize]
  | frontiers fs =>
    have hlen : fs.length ≤ 1000 := h.1
    rw [serialize, length_append, length_flatMap Frontier.length_serialize,
      Frontier.length_serialize]
    omega

end AscPullAckType

namespace AscPullAck

def serializedSize (extensions : Extensions) : ℕ := ascPullSize extensions

def serialize (m : AscPullAck) : List Byte :=
  [m.pullType.payloadType.toU8] ++ (be 8 m.id ++ m.pullType.serialize)

def deserialize (H : Blake2b) : PayloadReader AscPullAck := do
  let pullTypeCode ← AscPullPayloadId.deserialize
  let id ← (readBe .ioError 8 : BlockReader (BitVec 64))
  let pullType ← AscPullAckType.deserialize H pullTypeCode
  return ⟨id, pullType⟩

def headerExtensions (payloadLen : BitVec 16) : Extensions := ascPullExtensions payloadLen

theorem serializedSize_headerExtensions {m : AscPullAck} (h : m.pullType.Sendable H) :
    serializedSize (headerExtensions (BitVec.ofNat 16 m.serialize.length)) =
      m.serialize.length := by
  have hlt := AscPullAckType.length_serialize_lt h
  have hlen : m.serialize.length = 1 + (8 + m.pullType.serialize.length) := by
    rw [serialize, length_append, length_append, length_be, length_singleton]
  exact ascPullSize_ascPullExtensions (by omega) (by omega)

theorem decodes {m : AscPullAck} (h : m.pullType.Sendable H) :
    Decodes (deserialize H) m.serialize m :=
  .bind (reads_liftM (AscPullPayloadId.reads _)) (.bind (reads_liftM (Reads.readBe (by decide) _))
    (AscPullAckType.decodes h).bind_pure)

theorem ensures_deserialize (H : Blake2b) :
    Ensures (deserialize H) (fun _ => True) Returned :=
  (ensures_liftM (.trivial _)).bind fun _ _ => (ensures_liftM (.trivial _)).bind fun _ _ =>
    (AscPullAckType.ensures_deserialize H _).bind fun _ _ => .pure True.intro

end AscPullAck

end RsNano
