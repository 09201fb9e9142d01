import RsNano.Lib.Table
import RsNano.Lib.Loop
import RsNano.Ledger.Constants

/-!
# The ledger tables

The ledger is the product of its database tables and the counters and weights that are
cached in memory. A write transaction is state passing over this record; a committed
snapshot is a value of it. Operations that the database reports as an error, and every
`expect` of the ledger code, abort the computation: `Abort` lists these sites.

`AnySet` in the node is the read interface over one transaction; its methods are the
functions on `Ledger` below.
-/

namespace RsNano

/-- Where a ledger operation panics, or fails to terminate. -/
inductive Abort
  /-- A database record to delete is missing. -/
  | keyNotFound
  /-- A database record to add without overwriting exists. -/
  | keyExists
  /-- `expect("account not found")`. -/
  | accountNotFound
  /-- `expect("no latest block for destination")`. -/
  | noLatestBlockForDestination
  /-- `expect("Could not load representative block!")`. -/
  | representativeBlockMissing
  /-- A block to cement is missing. -/
  | blockMissing
  /-- The loop did not end within the steps it was given. -/
  | outOfFuel
  deriving DecidableEq, Repr

/-- Latest information about an account. -/
structure AccountInfo where
  head : BlockHash
  representative : PublicKey
  openBlock : BlockHash
  balance : Amount
  modified : ℕ
  blockCount : ℕ
  epoch : Epoch
  deriving DecidableEq

/-- `AccountInfo::default()`. -/
instance : Inhabited AccountInfo := ⟨⟨0, 0, 0, 0, 0, 0, .unspecified⟩⟩

/-- The receiving account and the hash of the send block. -/
structure PendingKey where
  receivingAccount : Account
  sendBlockHash : BlockHash
  deriving DecidableEq

/-- Information on an uncollected send. -/
structure PendingInfo where
  source : Account
  amount : Amount
  epoch : Epoch
  deriving DecidableEq

structure ConfirmationHeightInfo where
  height : ℕ
  frontier : BlockHash
  deriving DecidableEq

/-- `ConfirmationHeightInfo::default()`. -/
instance : Inhabited ConfirmationHeightInfo := ⟨⟨0, 0⟩⟩

/-- The database tables together with the in-memory caches. -/
structure Ledger where
  block : Table BlockHash SavedBlock
  successors : Table BlockHash BlockHash
  account : Table Account AccountInfo
  pending : Table PendingKey PendingInfo
  confirmationHeight : Table Account ConfirmationHeightInfo
  repWeight : Table PublicKey Amount
  finalVote : Table QualifiedRoot BlockHash
  blockCount : ℕ
  accountCount : ℕ
  confirmedCount : ℕ
  repWeightCache : Table PublicKey Amount
  minWeight : Amount
  deriving DecidableEq

/-- Delete a database record; a missing key is an error, on which the stores panic. -/
def Table.delete {K V : Type} [DecidableEq K] (t : Table K V) (k : K) :
    Except Abort (Table K V) :=
  if t.contains k then .ok (t.del k) else .error .keyNotFound

/-- Add a database record without overwriting. -/
def Table.putNew {K V : Type} [DecidableEq K] (t : Table K V) (k : K) (v : V) :
    Except Abort (Table K V) :=
  if t.contains k then .error .keyExists else .ok (t.put k v)

/-- A deletion succeeds exactly on a stored key. -/
theorem Table.delete_eq_ok {K V : Type} [DecidableEq K] {t t' : Table K V} {k : K} :
    t.delete k = .ok t' ↔ (∃ v, t.get k = some v) ∧ t' = t.del k := by
  rw [delete, contains]
  cases h : t.get k <;> simp [eq_comm]

/-- An addition without overwriting succeeds exactly on a free key. -/
theorem Table.putNew_eq_ok {K V : Type} [DecidableEq K] {t t' : Table K V} {k : K} {v : V} :
    t.putNew k v = .ok t' ↔ t.get k = none ∧ t' = t.put k v := by
  rw [putNew, contains]
  cases h : t.get k <;> simp [eq_comm]

namespace Ledger

/-- The ledger after `Ledger::new` has added the genesis block to an empty database and
filled its caches. -/
def genesis (c : LedgerConstants) (minWeight : Amount) : Ledger where
  block := (∅ : Table _ _).put c.genesisBlock.hash c.savedGenesis.stored
  successors := ∅
  account := (∅ : Table _ _).put c.genesisAccount
    { head := c.genesisBlock.hash
      representative := c.genesisAccount.into .publicKey
      openBlock := c.genesisBlock.hash
      balance := Amount.max
      modified := 0
      blockCount := 1
      epoch := .epoch0 }
  pending := ∅
  confirmationHeight := (∅ : Table _ _).put c.genesisAccount ⟨1, c.genesisBlock.hash⟩
  repWeight := (∅ : Table _ _).put (c.genesisAccount.into .publicKey) Amount.max
  finalVote := ∅
  blockCount := 1
  accountCount := 1
  confirmedCount := 1
  repWeightCache :=
    if Amount.max < minWeight ∨ Amount.max = 0 then ∅
    else (∅ : Table _ _).put (c.genesisAccount.into .publicKey) Amount.max
  minWeight := minWeight

section

variable (l : Ledger)

def getBlock (hash : BlockHash) : Option SavedBlock := if hash = 0 then none else l.block.get hash

def blockExists (hash : BlockHash) : Bool := hash ≠ 0 ∧ l.block.contains hash

def getAccount (account : Account) : Option AccountInfo := l.account.get account

def getPending (key : PendingKey) : Option PendingInfo := l.pending.get key

/-- Whether the account has an entry in the pending table. The search starts at hash one. -/
def receivableExists (account : Account) : Bool :=
  l.pending.any fun key _ => key.receivingAccount = account ∧ key.sendBlockHash ≠ 0

def accountHead (account : Account) : Option BlockHash :=
  (l.getAccount account).map AccountInfo.head

/-- The balance of the head block of an account. -/
def accountBalance (account : Account) : Amount :=
  match l.accountHead account with
  | none => 0
  | some head => ((l.getBlock head).map SavedBlock.balance).getD 0

def latestRoot (account : Account) : Root :=
  match l.getAccount account with
  | some info => info.head.into .root
  | none => account.into .root

def blockAccount (hash : BlockHash) : Option Account := (l.getBlock hash).map SavedBlock.account

def previousBlock (sb : SavedBlock) : Option SavedBlock :=
  if sb.previous = 0 then none else l.getBlock sb.previous

/-- `block_successor_by_qualified_root`. -/
def blockSuccessorByQualifiedRoot (l : Ledger) (root : QualifiedRoot) : Option BlockHash :=
  if root.previous ≠ 0 then l.successors.get root.previous
  else (l.account.get (root.root.into .account)).map AccountInfo.openBlock

/-- `block_successor`. -/
def blockSuccessor (l : Ledger) (hash : BlockHash) : Option BlockHash :=
  l.blockSuccessorByQualifiedRoot ⟨hash.into .root, hash⟩

/-- The accounts from the given one on, in the order of their numbers. -/
def accountsRange (start : Account) : List (Account × AccountInfo) :=
  ((l.account.sortedKeys U256.byteLe).filter (U256.byteLe start ·)).filterMap fun account =>
    (l.account.get account).map fun info => (account, info)

/-- One step back in the search for a block with a representative. -/
def findRepStep (blocks : Table BlockHash SavedBlock) (current : BlockHash) :
    Except Abort (BlockHash ⊕ BlockHash) :=
  match blocks.get current with
  | none => .ok (.inr 0)
  | some sb =>
    match sb.block with
    | .legacySend b => .ok (.inl b.previous)
    | .legacyReceive b => .ok (.inl b.previous)
    | _ => .ok (.inr sb.hash)

/-- Go back in the block history until a block with a representative is found. -/
def findRepBlock (blocks : Table BlockHash SavedBlock) (fuel : ℕ) (hash : BlockHash) :
    Except Abort BlockHash :=
  Loop.run .outOfFuel (fun _ => findRepStep blocks) fuel 0 hash

/-- The latest block with representative information.

The search visits each block at most once, so the number of blocks bounds its steps. -/
def representativeBlockHash (hash : BlockHash) : Except Abort BlockHash :=
  findRepBlock l.block (l.block.size + 1) hash

end

variable (l : Ledger)

/-- A block that is at or below the confirmation height of its account. -/
def getConfirmedBlock (hash : BlockHash) : Option SavedBlock := do
  if hash = 0 then none
  let block ← l.block.get hash
  let confInfo ← l.confirmationHeight.get block.account
  if block.height ≤ confInfo.height then some block else none

/-- `confirmed().block_exists(hash)`. -/
def isConfirmed (hash : BlockHash) : Bool := (l.getConfirmedBlock hash).isSome

end Ledger

end RsNano
