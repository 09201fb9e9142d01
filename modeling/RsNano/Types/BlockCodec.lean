import RsNano.Types.Block
import RsNano.Lib.Bytes

/-!
# The bytes of blocks

How blocks and their sidebands are written to and read from bytes. A block does not write its
hash: the reader computes it again from the fields that are hashed, with Blake2b, which is a
parameter here. The sideband leaves out what the block type implies, and the reader of a saved
block fills it in; `SavedBlock.stored` is what comes back.

Heights and timestamps are 64-bit words in the node and natural numbers in the model, so they
come back modulo `2 ^ 64`.
-/

namespace RsNano

open U256 Bytes BlockType

inductive DeserializationError
  | invalidData
  | tooMuchData
  | ioError
  deriving DecidableEq, Repr

/-- The hash function of the node. It is assumed never to return the hash that stands for "no
block". -/
structure Blake2b where
  hash : List Byte → BlockHash
  hash_ne_zero : ∀ bytes, hash bytes ≠ 0

abbrev BlockReader := Reader DeserializationError

open Reader

section

variable {a : U256Kind}

def U256.serialize (x : U256 a) : List Byte := be 32 x.number

def U256.deserialize : BlockReader (U256 a) := do
  return ⟨← readBe .ioError 32⟩

def Amount.serialize (x : Amount) : List Byte := be 16 x

def Amount.deserialize : BlockReader Amount := readBe .ioError 16

def Signature.serialize (x : Signature) : List Byte := be 64 x

def Signature.deserialize : BlockReader Signature := readBe .ioError 64

def readU64Le : BlockReader WorkNonce := readLe .ioError 8

def readU64Be : BlockReader WorkNonce := readBe .ioError 8

def readU8 : BlockReader Byte := readBe .ioError 1

@[simp] theorem U256.length_serialize (x : U256 a) : x.serialize.length = 32 := length_be _ _

@[simp] theorem Amount.length_serialize (x : Amount) : (Amount.serialize x).length = 16 :=
  length_be _ _

@[simp] theorem Signature.length_serialize (x : Signature) :
    (Signature.serialize x).length = 64 := length_be _ _

theorem U256.reads (x : U256 a) : Reads deserialize x.serialize x :=
  (Reads.readBe (by decide) x.number).bind_pure

theorem Amount.reads (x : Amount) : Reads Amount.deserialize (Amount.serialize x) x :=
  Reads.readBe (by decide) x

theorem Signature.reads (x : Signature) : Reads Signature.deserialize (Signature.serialize x) x :=
  Reads.readBe (by decide) x

theorem reads_u8 (x : Byte) : Reads readU8 [x] x := by
  have hbytes : be 1 x = [x] := by
    rw [be, ofNatBe, ofNatLe, ofNatLe, BitVec.ofNat_toNat, BitVec.setWidth_eq]
    rfl
  rw [← hbytes]
  exact Reads.readBe (by decide) x

end

/-! ### Blocks -/

/-- Build a block from its fields; the hash covers those that are hashed. -/
def SendBlock.new (H : Blake2b) (previous : BlockHash) (destination : Account) (balance : Amount)
    (signature : Signature) (work : WorkNonce) : SendBlock where
  previous := previous
  destination := destination
  balance := balance
  signature := signature
  work := work
  hash := H.hash (previous.serialize ++ destination.serialize ++ Amount.serialize balance)
  hash_ne_zero := H.hash_ne_zero _

def ReceiveBlock.new (H : Blake2b) (previous source : BlockHash) (signature : Signature)
    (work : WorkNonce) : ReceiveBlock where
  previous := previous
  source := source
  signature := signature
  work := work
  hash := H.hash (previous.serialize ++ source.serialize)
  hash_ne_zero := H.hash_ne_zero _

def OpenBlock.new (H : Blake2b) (source : BlockHash) (representative : PublicKey)
    (account : Account) (signature : Signature) (work : WorkNonce) : OpenBlock where
  source := source
  representative := representative
  account := account
  signature := signature
  work := work
  hash := H.hash (source.serialize ++ representative.serialize ++ account.serialize)
  hash_ne_zero := H.hash_ne_zero _

def ChangeBlock.new (H : Blake2b) (previous : BlockHash) (representative : PublicKey)
    (signature : Signature) (work : WorkNonce) : ChangeBlock where
  previous := previous
  representative := representative
  signature := signature
  work := work
  hash := H.hash (previous.serialize ++ representative.serialize)
  hash_ne_zero := H.hash_ne_zero _

/-- The hash of a state block starts with a preamble that no legacy block has. -/
def StateBlock.new (H : Blake2b) (account : Account) (previous : BlockHash)
    (representative : PublicKey) (balance : Amount) (link : Link) (signature : Signature)
    (work : WorkNonce) : StateBlock where
  account := account
  previous := previous
  representative := representative
  balance := balance
  link := link
  signature := signature
  work := work
  hash := H.hash (ofNatBe 32 6 ++ account.serialize ++ previous.serialize ++
    representative.serialize ++ Amount.serialize balance ++ link.serialize)
  hash_ne_zero := H.hash_ne_zero _

def BlockType.toId : BlockType → Byte
  | .legacySend => 2
  | .legacyReceive => 3
  | .legacyOpen => 4
  | .legacyChange => 5
  | .state => 6

def BlockType.ofId (id : Byte) : Option BlockType :=
  [.legacySend, .legacyReceive, .legacyOpen, .legacyChange, .state].find? (·.toId = id)

theorem BlockType.ofId_toId (t : BlockType) : ofId t.toId = some t := by
  cases t <;> rfl

def serializedBlockSize : BlockType → ℕ
  | .legacySend => 32 + 32 + 16 + 64 + 8
  | .legacyReceive => 32 + 32 + 64 + 8
  | .legacyOpen => 32 + 32 + 32 + 64 + 8
  | .legacyChange => 32 + 32 + 64 + 8
  | .state => 32 + 32 + 32 + 16 + 32 + 64 + 8

namespace Block

def serializeWithoutBlockType : Block → List Byte
  | legacySend b => b.previous.serialize ++ (b.destination.serialize ++
      (Amount.serialize b.balance ++ (Signature.serialize b.signature ++ le 8 b.work)))
  | legacyReceive b => b.previous.serialize ++ (b.source.serialize ++
      (Signature.serialize b.signature ++ le 8 b.work))
  | legacyOpen b => b.source.serialize ++ (b.representative.serialize ++ (b.account.serialize ++
      (Signature.serialize b.signature ++ le 8 b.work)))
  | legacyChange b => b.previous.serialize ++ (b.representative.serialize ++
      (Signature.serialize b.signature ++ le 8 b.work))
  | state b => b.account.serialize ++ (b.previous.serialize ++ (b.representative.serialize ++
      (Amount.serialize b.balance ++ (b.link.serialize ++
        (Signature.serialize b.signature ++ be 8 b.work)))))

def serialize (b : Block) : List Byte := b.blockType.toId :: b.serializeWithoutBlockType

def deserializeBlockType (H : Blake2b) : BlockType → BlockReader Block
  | .legacySend => do
    let previous ← deserialize
    let destination ← deserialize
    let balance ← Amount.deserialize
    let signature ← Signature.deserialize
    let work ← readU64Le
    return legacySend (SendBlock.new H previous destination balance signature work)
  | .legacyReceive => do
    let previous ← deserialize
    let source ← deserialize
    let signature ← Signature.deserialize
    let work ← readU64Le
    return legacyReceive (ReceiveBlock.new H previous source signature work)
  | .legacyOpen => do
    let source ← deserialize
    let representative ← deserialize
    let account ← deserialize
    let signature ← Signature.deserialize
    let work ← readU64Le
    return legacyOpen (OpenBlock.new H source representative account signature work)
  | .legacyChange => do
    let previous ← deserialize
    let representative ← deserialize
    let signature ← Signature.deserialize
    let work ← readU64Le
    return legacyChange (ChangeBlock.new H previous representative signature work)
  | .state => do
    let account ← deserialize
    let previous ← deserialize
    let representative ← deserialize
    let balance ← Amount.deserialize
    let link ← deserialize
    let signature ← Signature.deserialize
    let work ← readU64Be
    return state (StateBlock.new H account previous representative balance link signature work)

def deserialize (H : Blake2b) : BlockReader Block := do
  let blockType ← okOr .invalidData (ofId (← readU8))
  deserializeBlockType H blockType

/-- The block with the hash that its fields have. -/
def rehash (H : Blake2b) : Block → Block
  | legacySend b =>
    legacySend (SendBlock.new H b.previous b.destination b.balance b.signature b.work)
  | legacyReceive b => legacyReceive (ReceiveBlock.new H b.previous b.source b.signature b.work)
  | legacyOpen b =>
    legacyOpen (OpenBlock.new H b.source b.representative b.account b.signature b.work)
  | legacyChange b =>
    legacyChange (ChangeBlock.new H b.previous b.representative b.signature b.work)
  | state b => state (StateBlock.new H b.account b.previous b.representative b.balance b.link
      b.signature b.work)

/-- The block carries the hash of its fields, as every block that the node builds does. -/
def Hashed (H : Blake2b) (b : Block) : Prop := b.rehash H = b

/-- A block is read back from its bytes with the hash of its fields. -/
theorem reads_withoutBlockType (H : Blake2b) (b : Block) :
    Reads (deserializeBlockType H b.blockType) b.serializeWithoutBlockType (b.rehash H) := by
  cases b with
  | legacySend b =>
    exact (reads _).bind ((reads _).bind ((Amount.reads _).bind
      ((Signature.reads _).bind (Reads.readLe (by decide) _).bind_pure)))
  | legacyReceive b =>
    exact (reads _).bind ((reads _).bind
      ((Signature.reads _).bind (Reads.readLe (by decide) _).bind_pure))
  | legacyOpen b =>
    exact (reads _).bind ((reads _).bind ((reads _).bind
      ((Signature.reads _).bind (Reads.readLe (by decide) _).bind_pure)))
  | legacyChange b =>
    exact (reads _).bind ((reads _).bind
      ((Signature.reads _).bind (Reads.readLe (by decide) _).bind_pure))
  | state b =>
    exact (reads _).bind ((reads _).bind ((reads _).bind ((Amount.reads _).bind
      ((reads _).bind ((Signature.reads _).bind
        (Reads.readBe (by decide) _).bind_pure)))))

/-- A block is read back from its bytes with its type in front. -/
theorem reads (H : Blake2b) (b : Block) : Reads (deserialize H) b.serialize (b.rehash H) := by
  refine (reads_u8 b.blockType.toId).bind ?_
  rw [ofId_toId]
  exact (Reads.pure b.blockType).bind (reads_withoutBlockType H b)

theorem length_serializeWithoutBlockType (b : Block) :
    b.serializeWithoutBlockType.length = serializedBlockSize b.blockType := by
  cases b <;> simp [serializeWithoutBlockType, serializedBlockSize, blockType]

end Block

/-! ### Sidebands -/

def Epoch.toByte (e : Epoch) : Byte := BitVec.ofNat 8 e.toNat

def Epoch.ofByte (b : Byte) : Option Epoch :=
  [.invalid, .unspecified, .epoch0, .epoch1, .epoch2].find? (·.toByte = b)

theorem Epoch.ofByte_toByte (e : Epoch) : Epoch.ofByte e.toByte = some e := by
  cases e <;> rfl

namespace BlockDetails

def packed (d : BlockDetails) : Byte :=
  d.epoch.toByte ||| (if d.isSend then 0b1000_0000 else 0) |||
    (if d.isReceive then 0b0100_0000 else 0) ||| (if d.isEpoch then 0b0010_0000 else 0)

def unpack (value : Byte) : Option BlockDetails := do
  let epoch ← Epoch.ofByte (value &&& 0b0001_1111)
  return {
    epoch := epoch
    isSend := 0b1000_0000 &&& value ≠ 0
    isReceive := 0b0100_0000 &&& value ≠ 0
    isEpoch := 0b0010_0000 &&& value ≠ 0 }

def deserialize : BlockReader BlockDetails := do
  okOr .invalidData (unpack (← readU8))

/-- The five bits of the epoch and the three flags do not overlap. -/
theorem unpack_packed (d : BlockDetails) : unpack d.packed = some d := by
  obtain ⟨epoch, isSend, isReceive, isEpoch⟩ := d
  cases epoch <;> cases isSend <;> cases isReceive <;> cases isEpoch <;> rfl

theorem reads (d : BlockDetails) : Reads deserialize [d.packed] d :=
  (reads_u8 d.packed).code (unpack_packed d)

end BlockDetails

def Epoch.deserialize : BlockReader Epoch := do
  okOr .invalidData (Epoch.ofByte (← readU8))

theorem Epoch.reads (e : Epoch) : Reads Epoch.deserialize [e.toByte] e :=
  (reads_u8 e.toByte).code (Epoch.ofByte_toByte e)

/-- The block types whose sideband has an account. -/
def BlockType.writesAccount (t : BlockType) : Prop := t ≠ .state ∧ t ≠ .legacyOpen

/-- The block types whose sideband has a balance. -/
def BlockType.writesBalance (t : BlockType) : Prop :=
  t = .legacyReceive ∨ t = .legacyChange ∨ t = .legacyOpen

instance (t : BlockType) : Decidable t.writesAccount := inferInstanceAs (Decidable (_ ∧ _))

instance (t : BlockType) : Decidable t.writesBalance := inferInstanceAs (Decidable (_ ∨ _))

namespace BlockSideband

def serializedSize (t : BlockType) : ℕ :=
  (if t.writesAccount then 32 else 0) + (if t ≠ .legacyOpen then 8 else 0) +
    (if t.writesBalance then 16 else 0) + 8 + (if t = .state then 1 + 1 else 0)

def serialize (t : BlockType) (s : BlockSideband) : List Byte :=
  (if t.writesAccount then s.account.serialize else []) ++
    ((if t ≠ .legacyOpen then ofNatBe 8 s.height else []) ++
      ((if t.writesBalance then Amount.serialize s.balance else []) ++
        (ofNatBe 8 s.timestamp ++ ((if t = .state then [s.details.packed] else []) ++
          if t = .state then [s.sourceEpoch.toByte] else []))))

def deserialize (t : BlockType) : BlockReader BlockSideband := do
  let account ← (if t.writesAccount then U256.deserialize else pure 0)
  let height ← (if t ≠ .legacyOpen then readNatBe .ioError 8 else pure 1)
  let balance ← (if t.writesBalance then Amount.deserialize else pure 0)
  let timestamp ← readNatBe .ioError 8
  let details ← (if t = .state then BlockDetails.deserialize
    else pure ⟨.epoch0, false, false, false⟩)
  let sourceEpoch ← (if t = .state then Epoch.deserialize else pure .epoch0)
  return { height, timestamp, account, balance, details, sourceEpoch }

/-- What is left of a sideband in the bytes for a block type. -/
def written (t : BlockType) (s : BlockSideband) : BlockSideband where
  height := if t ≠ .legacyOpen then s.height % 256 ^ 8 else 1
  timestamp := s.timestamp % 256 ^ 8
  account := if t.writesAccount then s.account else 0
  balance := if t.writesBalance then s.balance else 0
  details := if t = .state then s.details else ⟨.epoch0, false, false, false⟩
  sourceEpoch := if t = .state then s.sourceEpoch else .epoch0

theorem reads (t : BlockType) (s : BlockSideband) :
    Reads (deserialize t) (s.serialize t) (s.written t) := by
  rw [deserialize, serialize, written]
  refine (Reads.ite (p := t.writesAccount) 0 (U256.reads s.account)).bind ?_
  refine (Reads.ite (p := t ≠ .legacyOpen) 1 (Reads.readNatBe 8 s.height)).bind ?_
  refine (Reads.ite (p := t.writesBalance) 0 (Amount.reads s.balance)).bind ?_
  refine (Reads.readNatBe 8 s.timestamp).bind ?_
  refine (Reads.ite (p := t = .state) _ (BlockDetails.reads s.details)).bind ?_
  exact (Reads.ite (p := t = .state) _ (Epoch.reads s.sourceEpoch)).bind_pure

theorem length_serialize (t : BlockType) (s : BlockSideband) :
    (s.serialize t).length = serializedSize t := by
  cases t <;> simp [serialize, serializedSize, writesAccount, writesBalance]

end BlockSideband

namespace SavedBlock

def serializeWithSideband (sb : SavedBlock) : List Byte :=
  sb.block.serialize ++ sb.sideband.serialize sb.block.blockType

/-- The sideband does not hold all data for every block type; the rest comes from the block. -/
def fillIn (block : Block) (sideband : BlockSideband) : BlockSideband :=
  match block with
  | .legacySend b =>
    { sideband with balance := b.balance, details := ⟨.epoch0, true, false, false⟩ }
  | .legacyOpen b =>
    { sideband with account := b.account, details := ⟨.epoch0, false, true, false⟩ }
  | .legacyReceive _ => { sideband with details := ⟨.epoch0, false, true, false⟩ }
  | .legacyChange _ => { sideband with details := ⟨.epoch0, false, false, false⟩ }
  | .state b => { sideband with account := b.account, balance := b.balance }

def deserialize (H : Blake2b) : BlockReader SavedBlock := do
  let block ← Block.deserialize H
  let sideband ← BlockSideband.deserialize block.blockType
  return ⟨block, fillIn block sideband⟩

/-- The height and the timestamp as 64-bit words. -/
def asU64 (sb : SavedBlock) : SavedBlock :=
  { sb with sideband := { sb.sideband with
      height := sb.sideband.height % 2 ^ 64
      timestamp := sb.sideband.timestamp % 2 ^ 64 } }

theorem asU64_eq_self {sb : SavedBlock} (hht : sb.sideband.height < 2 ^ 64)
    (htimestamp : sb.sideband.timestamp < 2 ^ 64) : sb.asU64 = sb := by
  rw [asU64, Nat.mod_eq_of_lt hht, Nat.mod_eq_of_lt htimestamp]

/-- What is read back from the bytes of a saved block. -/
theorem reads {H : Blake2b} {sb : SavedBlock} (hhash : sb.block.Hashed H) :
    Reads (deserialize H) sb.serializeWithSideband sb.stored.asU64 := by
  have hblk := Block.reads H sb.block
  rw [hhash] at hblk
  have hread := hblk.bind (BlockSideband.reads sb.block.blockType sb.sideband).bind_pure
    (f := fun block => do
      return (⟨block, fillIn block (← BlockSideband.deserialize block.blockType)⟩ : SavedBlock))
  have hfill : fillIn sb.block (sb.sideband.written sb.block.blockType) =
      sb.stored.asU64.sideband := by
    obtain ⟨block, sideband⟩ := sb
    cases block <;> rfl
  rw [hfill] at hread
  exact hread

theorem length_serializeWithSideband (sb : SavedBlock) : sb.serializeWithSideband.length =
    1 + serializedBlockSize sb.block.blockType +
      BlockSideband.serializedSize sb.block.blockType := by
  rw [serializeWithSideband, List.length_append, Block.serialize, List.length_cons,
    Block.length_serializeWithoutBlockType, BlockSideband.length_serialize, Nat.add_comm 1]

end SavedBlock

end RsNano
