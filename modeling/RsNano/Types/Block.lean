import RsNano.Types.Basic

/-!
# Blocks

The five block types and the accessors that all of them share. A block carries its hash,
as the node's block structs do: the hash is computed once, when the block is built or
deserialized, and never recomputed. The hash function is Blake2b, from a library outside the
repository. The node reserves the zero hash for "no block", so a block type holds only
values whose hash is not zero; nothing else is assumed about how hashes are computed, and
where collisions matter their absence is a named hypothesis.

A saved block is a block with its sideband. The block table does not store every sideband
field for every block type; `SavedBlock.stored` is the value that is read back.
-/

namespace RsNano

inductive BlockType
  | legacySend
  | legacyReceive
  | legacyOpen
  | legacyChange
  | state
  deriving DecidableEq, Repr

inductive BlockSubType
  | send
  | receive
  | open
  | change
  | epoch
  deriving DecidableEq, Repr

structure SendBlock where
  previous : BlockHash
  destination : Account
  balance : Amount
  signature : Signature
  work : WorkNonce
  hash : BlockHash
  hash_ne_zero : hash ≠ 0
  deriving DecidableEq

structure ReceiveBlock where
  previous : BlockHash
  source : BlockHash
  signature : Signature
  work : WorkNonce
  hash : BlockHash
  hash_ne_zero : hash ≠ 0
  deriving DecidableEq

structure OpenBlock where
  source : BlockHash
  representative : PublicKey
  account : Account
  signature : Signature
  work : WorkNonce
  hash : BlockHash
  hash_ne_zero : hash ≠ 0
  deriving DecidableEq

structure ChangeBlock where
  previous : BlockHash
  representative : PublicKey
  signature : Signature
  work : WorkNonce
  hash : BlockHash
  hash_ne_zero : hash ≠ 0
  deriving DecidableEq

structure StateBlock where
  account : Account
  previous : BlockHash
  representative : PublicKey
  balance : Amount
  link : Link
  signature : Signature
  work : WorkNonce
  hash : BlockHash
  hash_ne_zero : hash ≠ 0
  deriving DecidableEq

inductive Block
  | legacySend (b : SendBlock)
  | legacyReceive (b : ReceiveBlock)
  | legacyOpen (b : OpenBlock)
  | legacyChange (b : ChangeBlock)
  | state (b : StateBlock)
  deriving DecidableEq

/-- A root together with the previous hash: the slot that competing blocks fight for. -/
structure QualifiedRoot where
  root : Root
  previous : BlockHash
  deriving DecidableEq

namespace Block

def blockType : Block → BlockType
  | legacySend _ => .legacySend
  | legacyReceive _ => .legacyReceive
  | legacyOpen _ => .legacyOpen
  | legacyChange _ => .legacyChange
  | state _ => .state

def accountField : Block → Option Account
  | legacyOpen b => some b.account
  | state b => some b.account
  | _ => none

def hash : Block → BlockHash
  | legacySend b => b.hash
  | legacyReceive b => b.hash
  | legacyOpen b => b.hash
  | legacyChange b => b.hash
  | state b => b.hash

/-- The zero hash is not the hash of a block. -/
theorem hash_ne_zero : ∀ b : Block, b.hash ≠ 0
  | legacySend b => b.hash_ne_zero
  | legacyReceive b => b.hash_ne_zero
  | legacyOpen b => b.hash_ne_zero
  | legacyChange b => b.hash_ne_zero
  | state b => b.hash_ne_zero

def linkField : Block → Option Link
  | state b => some b.link
  | _ => none

def signature : Block → Signature
  | legacySend b => b.signature
  | legacyReceive b => b.signature
  | legacyOpen b => b.signature
  | legacyChange b => b.signature
  | state b => b.signature

def work : Block → WorkNonce
  | legacySend b => b.work
  | legacyReceive b => b.work
  | legacyOpen b => b.work
  | legacyChange b => b.work
  | state b => b.work

def setWork (work : WorkNonce) : Block → Block
  | .legacySend b => .legacySend { b with work }
  | .legacyReceive b => .legacyReceive { b with work }
  | .legacyOpen b => .legacyOpen { b with work }
  | .legacyChange b => .legacyChange { b with work }
  | .state b => .state { b with work }

def previous : Block → BlockHash
  | legacySend b => b.previous
  | legacyReceive b => b.previous
  | legacyOpen _ => 0
  | legacyChange b => b.previous
  | state b => b.previous

def root : Block → Root
  | legacySend b => b.previous.into .root
  | legacyReceive b => b.previous.into .root
  | legacyOpen b => b.account.into .root
  | legacyChange b => b.previous.into .root
  | state b => if b.previous ≠ 0 then b.previous.into .root else b.account.into .root

def balanceField : Block → Option Amount
  | legacySend b => some b.balance
  | state b => some b.balance
  | _ => none

def sourceField : Block → Option BlockHash
  | legacyReceive b => some b.source
  | legacyOpen b => some b.source
  | _ => none

def representativeField : Block → Option PublicKey
  | legacyOpen b => some b.representative
  | legacyChange b => some b.representative
  | state b => some b.representative
  | _ => none

def destinationField : Block → Option Account
  | legacySend b => some b.destination
  | _ => none

def qualifiedRoot (b : Block) : QualifiedRoot := ⟨b.root, b.previous⟩

/-- Whether a block of the given type may come directly before this block. -/
def validPredecessor : Block → BlockType → Bool
  | legacyOpen _, _ => false
  | state _, _ => true
  | _, .state => false
  | _, _ => true

def isOpen : Block → Bool
  | legacyOpen _ => true
  | state b => b.previous = 0
  | _ => false

/-- An open block has a representative. -/
theorem representativeField_of_isOpen {b : Block} (h : b.isOpen = true) :
    b.representativeField.isSome = true := by
  cases b <;> first | rfl | cases h

def isLegacy : Block → Bool
  | state _ => false
  | _ => true

def sourceOrLink (b : Block) : BlockHash :=
  b.sourceField.getD ((b.linkField.getD 0).into .blockHash)

def destinationOrLink (b : Block) : Account :=
  b.destinationField.getD ((b.linkField.getD 0).into .account)

end Block

structure BlockDetails where
  epoch : Epoch
  isSend : Bool
  isReceive : Bool
  isEpoch : Bool
  deriving DecidableEq

@[ext] structure BlockSideband where
  height : ℕ
  timestamp : ℕ
  account : Account
  balance : Amount
  details : BlockDetails
  sourceEpoch : Epoch
  deriving DecidableEq

/-- A block with the data that is only known once the block is saved. -/
structure SavedBlock where
  block : Block
  sideband : BlockSideband
  deriving DecidableEq

/-- The at most two dependencies of a block, zero where there is none. -/
structure DependentBlocks where
  previous : BlockHash
  link : BlockHash
  deriving DecidableEq

/-- The dependencies that exist, previous first. -/
def DependentBlocks.iter (d : DependentBlocks) : List BlockHash :=
  [d.previous, d.link].filter (· ≠ 0)

/-- A dependency is one of the two fields that is not zero. -/
theorem DependentBlocks.mem_iter {x : DependentBlocks} {d : BlockHash} :
    d ∈ x.iter ↔ d ≠ 0 ∧ (d = x.previous ∨ d = x.link) := by
  simp [DependentBlocks.iter, and_comm]

namespace SavedBlock

variable (sb : SavedBlock)

abbrev hash : BlockHash := sb.block.hash

abbrev previous : BlockHash := sb.block.previous

def account : Account := sb.block.accountField.getD sb.sideband.account

def height : ℕ := sb.sideband.height

def epoch : Epoch := sb.sideband.details.epoch

def isReceive : Bool := sb.sideband.details.isReceive

def isSend : Bool :=
  match sb.block with
  | .legacySend _ => true
  | .state _ => sb.sideband.details.isSend
  | _ => false

/-- The send that this block receives. -/
def source : Option BlockHash :=
  match sb.block with
  | .legacyOpen b => some b.source
  | .legacyReceive b => some b.source
  | .state b => if sb.sideband.details.isReceive then some (b.link.into .blockHash) else none
  | _ => none

def sourceEpoch : Epoch := sb.sideband.sourceEpoch

/-- The account that this block sends to. -/
def destination : Option Account :=
  match sb.block with
  | .legacySend b => some b.destination
  | .state b => if sb.sideband.details.isSend then some (b.link.into .account) else none
  | _ => none

def balance : Amount :=
  match sb.block with
  | .legacySend b => b.balance
  | .state b => b.balance
  | _ => sb.sideband.balance

/-- What `deserialize` returns for the bytes that `serialize_with_sideband` wrote.

The sideband of a legacy block omits its details and its source epoch, an open block its
height and account, and a block with a balance field its balance. -/
def stored : SavedBlock where
  block := sb.block
  sideband :=
    match sb.block with
    | .legacySend b =>
      { sb.sideband with
        balance := b.balance
        details := ⟨.epoch0, true, false, false⟩
        sourceEpoch := .epoch0 }
    | .legacyReceive _ =>
      { sb.sideband with
        details := ⟨.epoch0, false, true, false⟩
        sourceEpoch := .epoch0 }
    | .legacyOpen b =>
      { sb.sideband with
        height := 1
        account := b.account
        details := ⟨.epoch0, false, true, false⟩
        sourceEpoch := .epoch0 }
    | .legacyChange _ =>
      { sb.sideband with
        details := ⟨.epoch0, false, false, false⟩
        sourceEpoch := .epoch0 }
    | .state b => { sb.sideband with account := b.account, balance := b.balance }

/-- The block itself is stored unchanged. -/
@[simp] theorem stored_block : sb.stored.block = sb.block := rfl

end SavedBlock

end RsNano
