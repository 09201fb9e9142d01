import RsNano.Ledger.Inserter

/-!
# Block roll-back

The planner decides how to take the head block of an account back, from the balances before
and after it, and the executor follows the plan. The performer keeps a stack of targets,
each with the head of an account that has to go first; a send that has been received asks for
the roll-back of the receiving account. An error stops the performer but not the transaction:
what was rolled back before the error is committed.

The loop of the performer is run with a number of steps. `clock` gives the time that each
planner reads, so nothing is assumed about the clock.
-/

namespace RsNano

inductive RollbackError
  | blockNotFound
  | blockConfirmed
  | previousBlockMissing
  | representativeBlockMissing
  | rejected
  deriving DecidableEq, Repr

/-- Describes how to roll back a block. -/
structure RollbackInstructions where
  blockHash : BlockHash
  blockSubType : BlockSubType
  account : Account
  removePending : Option PendingKey
  addPending : Option (PendingKey × PendingInfo)
  setAccountInfo : AccountInfo
  oldAccountInfo : AccountInfo
  clearSuccessor : Option BlockHash
  newBalance : Amount
  newRepresentative : Option PublicKey
  deriving DecidableEq

inductive RollbackStep
  | rollBackBlock (instructions : RollbackInstructions)
  /-- The given dependent block has to be rolled back first. -/
  | requestDependencyRollback (hash : BlockHash)
  deriving DecidableEq

/-- The head block with the ledger data that decides how to roll it back. -/
structure RollbackPlanner where
  epochs : Epochs
  headBlock : SavedBlock
  account : Account
  currentAccountInfo : AccountInfo
  previousRepresentative : Option PublicKey
  previous : Option SavedBlock
  linkedAccount : Account
  pendingReceive : Option PendingInfo
  latestBlockForDestination : Option BlockHash
  confirmationHeight : ConfirmationHeightInfo
  now : ℕ
  deriving DecidableEq

namespace RollbackPlanner

variable (p : RollbackPlanner)

def previousBalance : Amount := (p.previous.map SavedBlock.balance).getD 0

def previousEpoch : Epoch := (p.previous.map SavedBlock.epoch).getD .epoch0

/-- The sub type is derived from the balances, not from the stored details. -/
def blockSubType : BlockSubType :=
  if p.currentAccountInfo.balance < p.previousBalance then .send
  else if p.previousBalance < p.currentAccountInfo.balance then
    if p.headBlock.block.isOpen then .open else .receive
  else if p.epochs.isEpochLink (p.headBlock.block.linkField.getD 0) then .epoch
  else .change

def addPending : Option (PendingKey × PendingInfo) :=
  match p.blockSubType with
  | .open | .receive =>
    some (⟨p.account, p.headBlock.block.sourceOrLink⟩,
      ⟨p.linkedAccount, p.currentAccountInfo.balance - p.previousBalance, p.headBlock.sourceEpoch⟩)
  | _ => none

def removePending : Option PendingKey :=
  if p.blockSubType = .send then some ⟨p.headBlock.block.destinationOrLink, p.headBlock.hash⟩
  else none

def previousAccountInfo : AccountInfo :=
  if p.headBlock.previous = 0 then default
  else
    { head := p.headBlock.previous
      representative := p.previousRepresentative.getD p.currentAccountInfo.representative
      openBlock := p.currentAccountInfo.openBlock
      balance := p.previousBalance
      modified := p.now
      blockCount := p.currentAccountInfo.blockCount - 1
      epoch := p.previousEpoch }

def instructions : RollbackInstructions where
  blockHash := p.headBlock.hash
  blockSubType := p.blockSubType
  account := p.account
  removePending := p.removePending
  addPending := p.addPending
  setAccountInfo := p.previousAccountInfo
  oldAccountInfo := p.currentAccountInfo
  clearSuccessor := p.previous.map SavedBlock.hash
  newBalance := p.previousBalance
  newRepresentative := p.previousRepresentative

/-- A block of a type that always has a representative before it, but where none was found. -/
def representativeMissing : Bool :=
  p.previousRepresentative.isNone ∧
    (p.headBlock.block.blockType = .legacyChange ∨ p.headBlock.block.blockType = .state) ∧
    p.headBlock.block.isOpen = false

def rollBackHeadBlock : Except Abort (Except RollbackError RollbackStep) :=
  if p.headBlock.height ≤ p.confirmationHeight.height then .ok (.error .blockConfirmed)
  else if p.blockSubType = .send ∧ p.pendingReceive = none then
    match p.latestBlockForDestination with
    | some hash => .ok (.ok (.requestDependencyRollback hash))
    | none => .error .noLatestBlockForDestination
  else if p.representativeMissing then .ok (.error .representativeBlockMissing)
  else .ok (.ok (.rollBackBlock p.instructions))

end RollbackPlanner

namespace Ledger

variable (l : Ledger)

/-- The representative of an account before a block, by the search for its latest block with a
representative. -/
def previousRepresentative (head : SavedBlock) :
    Except Abort (Option PublicKey) := do
  let repBlockHash ←
    if head.previous ≠ 0 then l.representativeBlockHash head.previous else pure 0
  if repBlockHash ≠ 0 then
    match l.getBlock repBlockHash with
    | some repBlock => return some (repBlock.block.representativeField.getD 0)
    | none => .error .representativeBlockMissing
  else return none

def createPlanner (c : LedgerConstants) (l : Ledger) (head : SavedBlock) (now : ℕ) :
    Except Abort (Except RollbackError RollbackPlanner) :=
  match l.blockAccount head.hash with
  | none => .error .accountNotFound
  | some account => do
    let previousRepresentative ← l.previousRepresentative head
    if head.previous ≠ 0 ∧ (l.getBlock head.previous).isNone then
      return .error .previousBlockMissing
    return .ok
      { epochs := c.epochs
        headBlock := head
        account := account
        currentAccountInfo := (l.getAccount account).getD default
        previousRepresentative := previousRepresentative
        previous := l.previousBlock head
        linkedAccount := (l.blockAccount head.block.sourceOrLink).getD 0
        pendingReceive := l.getPending ⟨head.block.destinationOrLink, head.hash⟩
        latestBlockForDestination := l.accountHead head.block.destinationOrLink
        confirmationHeight := (l.confirmationHeight.get head.account).getD default
        now := now }

/-- Plan the roll-back of a head block on the current ledger. -/
def rollBackHeadBlock (c : LedgerConstants) (l : Ledger) (head : SavedBlock) (now : ℕ) :
    Except Abort (Except RollbackError RollbackStep) := do
  match ← l.createPlanner c head now with
  | .error e => return .error e
  | .ok planner => planner.rollBackHeadBlock

/-- Take the weight of the account back to its representative and balance before the block. -/
def rollBackRepresentativeCache (i : RollbackInstructions) : Except Abort Ledger :=
  match i.newRepresentative with
  | some previousRep =>
    l.representationAddDual i.oldAccountInfo.representative (0 - i.oldAccountInfo.balance)
      previousRep i.newBalance
  | none =>
    l.representationAdd i.oldAccountInfo.representative (0 - i.oldAccountInfo.balance)

/-- Delete a block, which may be missing, and the successor record of its predecessor. -/
def deleteBlock (hash : BlockHash) (clearSuccessor : Option BlockHash) :
    Except Abort Ledger := do
  let successors ←
    match clearSuccessor with
    | some previous => l.successors.delete previous
    | none => pure l.successors
  return { l with block := l.block.del hash, successors }

/-- Update the ledger according to the roll-back instructions. -/
def executeRollback (i : RollbackInstructions) : Except Abort Ledger := do
  let l ← l.deletePending i.removePending
  let l := l.insertPending i.addPending
  let l ← l.updateAccount i.account i.oldAccountInfo i.setAccountInfo
  let l ← l.deleteBlock i.blockHash i.clearSuccessor
  let l ← l.rollBackRepresentativeCache i
  return { l with blockCount := l.blockCount - 1 }

def loadBlock (hash : BlockHash) : Except RollbackError SavedBlock :=
  match l.getBlock hash with
  | some sb => .ok sb
  | none => .error .blockNotFound

def loadAccountHead (sb : SavedBlock) :
    Except Abort (Except RollbackError SavedBlock) :=
  match l.getAccount sb.account with
  | some info => .ok (l.loadBlock info.head)
  | none => .error .accountNotFound

end Ledger

namespace Ledger

variable {l l' : Ledger}

/-- The weights are rolled back without failing. -/
theorem rollBackRepresentativeCache_ok (i : RollbackInstructions) :
    ∃ weights cache, l.rollBackRepresentativeCache i =
      .ok { l with repWeight := weights, repWeightCache := cache } := by
  rw [rollBackRepresentativeCache]
  split
  · exact representationAddDual_ok _ _ _ _
  · exact representationAdd_ok _ _

/-- The account table and its cached count after a roll-back. -/
def accountsAfterRollback (l : Ledger) (i : RollbackInstructions) :
    Table Account AccountInfo × ℕ :=
  if i.setAccountInfo.head ≠ 0 then
    (l.account.put i.account i.setAccountInfo,
      if i.oldAccountInfo.head = 0 ∧ i.setAccountInfo.openBlock = i.setAccountInfo.head then
        l.accountCount + 1
      else l.accountCount)
  else (l.account.del i.account, l.accountCount - 1)

/-- The ledger after a roll-back, up to the weights. -/
def afterRollback (l : Ledger) (i : RollbackInstructions)
    (weights cache : Table PublicKey Amount) : Ledger where
  block := l.block.del i.blockHash
  successors := (i.clearSuccessor.map l.successors.del).getD l.successors
  account := (l.accountsAfterRollback i).1
  pending := pendingWith (l.pendingWithout i.removePending) i.addPending
  confirmationHeight := l.confirmationHeight
  repWeight := weights
  finalVote := l.finalVote
  blockCount := l.blockCount - 1
  accountCount := (l.accountsAfterRollback i).2
  confirmedCount := l.confirmedCount
  repWeightCache := cache
  minWeight := l.minWeight

/-- The executor does not panic on the instructions. -/
structure Revertible (l : Ledger) (i : RollbackInstructions) : Prop where
  pending : ∀ key, i.removePending = some key → ∃ info, l.pending.get key = some info
  account : (i.setAccountInfo.head = 0 ∨
      i.oldAccountInfo.head ≠ 0 ∧ i.oldAccountInfo.epoch ≠ i.setAccountInfo.epoch) →
    ∃ info, l.account.get i.account = some info
  successor : ∀ hash, i.clearSuccessor = some hash → ∃ s, l.successors.get hash = some s

/-- Writing or deleting the account record of a roll-back. -/
theorem updateAccount_rollback {i : RollbackInstructions} :
    l.updateAccount i.account i.oldAccountInfo i.setAccountInfo = .ok l' ↔
      ((i.setAccountInfo.head = 0 ∨
          i.oldAccountInfo.head ≠ 0 ∧ i.oldAccountInfo.epoch ≠ i.setAccountInfo.epoch) →
        ∃ info, l.account.get i.account = some info) ∧
      l' = { l with
        account := (l.accountsAfterRollback i).1
        accountCount := (l.accountsAfterRollback i).2 } := by
  by_cases hhead : i.setAccountInfo.head = 0
  · rw [updateAccount_del hhead]
    simp [accountsAfterRollback, hhead]
  · rw [updateAccount_put hhead]
    simp [accountsAfterRollback, hhead]

/-- Deleting a block needs the successor record that is to be cleared. -/
theorem deleteBlock_eq_ok {hash : BlockHash} {clear : Option BlockHash} :
    l.deleteBlock hash clear = .ok l' ↔ (∀ h, clear = some h → ∃ s, l.successors.get h = some s) ∧
      l' = { l with
        block := l.block.del hash
        successors := (clear.map l.successors.del).getD l.successors } := by
  cases clear with
  | none =>
    simp only [deleteBlock, pure_bind, pure_eq_ok, Option.map_none, Option.getD_none,
      reduceCtorEq, false_implies, implies_true, true_and]
    exact eq_comm
  | some previous =>
    simp only [deleteBlock, bind_eq_ok, Table.delete_eq_ok, pure_eq_ok, Option.some.injEq]
    constructor
    · rintro ⟨t, ⟨hget, rfl⟩, rfl⟩
      exact ⟨by rintro _ rfl; exact hget, rfl⟩
    · rintro ⟨hget, rfl⟩
      exact ⟨_, ⟨hget previous rfl, rfl⟩, rfl⟩

/-- What the executor does: it succeeds exactly on revertible instructions, with one result. -/
theorem executeRollback_eq_ok (i : RollbackInstructions) :
    ∃ weights cache, ∀ l', l.executeRollback i = .ok l' ↔
      l.Revertible i ∧ l' = l.afterRollback i weights cache := by
  obtain ⟨weights, cache, hws⟩ := rollBackRepresentativeCache_ok (l := { l with
      block := l.block.del i.blockHash
      successors := (i.clearSuccessor.map l.successors.del).getD l.successors
      account := (l.accountsAfterRollback i).1
      accountCount := (l.accountsAfterRollback i).2
      pending := pendingWith (l.pendingWithout i.removePending) i.addPending }) i
  refine ⟨weights, cache, fun l' => ?_⟩
  simp only [executeRollback, bind_eq_ok, pure_eq_ok, deletePending_eq_ok,
    updateAccount_rollback, deleteBlock_eq_ok]
  constructor
  · rintro ⟨_, ⟨hpend, rfl⟩, _, ⟨hacc, rfl⟩, _, ⟨hsucc, rfl⟩, l4, hl4, rfl⟩
    simp only [insertPending_eq] at hl4 hacc hsucc
    cases hws.symm.trans hl4
    exact ⟨⟨hpend, hacc, hsucc⟩, rfl⟩
  · rintro ⟨⟨hpend, hacc, hsucc⟩, rfl⟩
    refine ⟨_, ⟨hpend, rfl⟩, _, ⟨?_, rfl⟩, _, ⟨?_, rfl⟩, ?_⟩
    · simpa only [insertPending_eq] using hacc
    · simpa only [insertPending_eq] using hsucc
    · simp only [insertPending_eq]
      exact ⟨_, hws, rfl⟩

end Ledger

/-- The performer: the ledger inside the transaction, the stack of target and head blocks with
the top first, and the blocks rolled back so far, latest first. -/
structure BlockRollbackPerformer where
  ledger : Ledger
  targets : List (SavedBlock × SavedBlock)
  rolledBack : List SavedBlock
  deriving DecidableEq

namespace BlockRollbackPerformer

/-- Roll back the head block on top of the stack, by one step of its plan. -/
def performStep (p : BlockRollbackPerformer) (target head : SavedBlock)
    (rest : List (SavedBlock × SavedBlock)) :
    RollbackStep → Except Abort (BlockRollbackPerformer × Option RollbackError)
  | .rollBackBlock instructions => do
    let ledger ← p.ledger.executeRollback instructions
    let p : BlockRollbackPerformer := { p with ledger, rolledBack := head :: p.rolledBack }
    if head.hash ≠ target.hash then
      match ← ledger.loadAccountHead target with
      | .ok head => return ({ p with targets := (target, head) :: rest }, none)
      | .error e => return (p, some e)
    else return (p, none)
  | .requestDependencyRollback hash =>
    match p.ledger.loadBlock hash with
    | .error e => return (p, some e)
    | .ok depBlock => do
      -- the head is that of the target's account, not of the dependency's
      match ← p.ledger.loadAccountHead target with
      | .ok depHead => return ({ p with targets := (depBlock, depHead) :: p.targets }, none)
      | .error e => return (p, some e)

/-- One iteration of the loop, for a stack with the given top. -/
def iterate (c : LedgerConstants) (now : ℕ) (p : BlockRollbackPerformer)
    (target head : SavedBlock) (rest : List (SavedBlock × SavedBlock)) :
    Except Abort (BlockRollbackPerformer × Option RollbackError) :=
  if p.ledger.blockExists target.hash then do
    match ← p.ledger.rollBackHeadBlock c head now with
    | .ok step => p.performStep target head rest step
    | .error e => return (p, some e)
  else return ({ p with targets := rest }, none)

/-- The body of the loop over the targets. -/
def loopBody (c : LedgerConstants) (clock : ℕ → ℕ) (i : ℕ) (p : BlockRollbackPerformer) :
    Except Abort
      (BlockRollbackPerformer ⊕ (BlockRollbackPerformer × Option RollbackError)) :=
  match p.targets with
  | [] => .ok (.inr (p, none))
  | (target, head) :: rest => do
    match ← p.iterate c (clock i) target head rest with
    | (p, some e) => return .inr (p, some e)
    | (p, none) => return .inl p

def rollBackImpl (c : LedgerConstants) (fuel : ℕ) (clock : ℕ → ℕ) (p : BlockRollbackPerformer) :
    Except Abort (BlockRollbackPerformer × Option RollbackError) :=
  Loop.run .outOfFuel (loopBody c clock) fuel 0 p

/-- Roll back the given block and all blocks that depend on it. -/
def rollBack (c : LedgerConstants) (fuel : ℕ) (clock : ℕ → ℕ) (l : Ledger) (hash : BlockHash) :
    Except Abort (BlockRollbackPerformer × Option RollbackError) :=
  match l.loadBlock hash with
  | .error e => .ok (⟨l, [], []⟩, some e)
  | .ok target => do
    match ← l.loadAccountHead target with
    | .error e => return (⟨l, [], []⟩, some e)
    | .ok head => rollBackImpl c fuel clock ⟨l, [(target, head)], []⟩

end BlockRollbackPerformer

/-- The outcome of one target of a batch. -/
structure RollbackResult where
  targetHash : BlockHash
  targetRoot : QualifiedRoot
  rolledBack : List SavedBlock
  error : Option RollbackError
  deriving DecidableEq

namespace Ledger

/-- Roll back targets in one write transaction, until `maxRollbacks` blocks are gone.

Every target gets the same number of loop steps. -/
def rollBackBatch (c : LedgerConstants) (fuel : ℕ) (canRollBack : BlockHash → Bool)
    (maxRollbacks : ℕ) :
    (ℕ → ℕ) → ℕ → List BlockHash → Ledger → Except Abort (Ledger × List RollbackResult)
  | _, _, [], l => .ok (l, [])
  | clock, count, hash :: targets, l =>
    let continueWith (l : Ledger) (count : ℕ) (r : RollbackResult) := do
      let (l, results) ← rollBackBatch c fuel canRollBack maxRollbacks
        (fun n => clock (n + fuel)) count targets l
      return (l, r :: results)
    if canRollBack hash = false then
      continueWith l count ⟨hash, ⟨0, 0⟩, [], some .rejected⟩
    else
      match l.block.get hash with
      | none => continueWith l (count + 1) ⟨hash, ⟨0, 0⟩, [], some .blockNotFound⟩
      | some block => do
        let (p, error) ← BlockRollbackPerformer.rollBack c fuel clock l block.hash
        let result : RollbackResult :=
          ⟨hash, block.block.qualifiedRoot, p.rolledBack.reverse, error⟩
        if maxRollbacks ≤ count + p.rolledBack.length then return (p.ledger, [result])
        else continueWith p.ledger (count + p.rolledBack.length) result

/-- Roll back blocks until the given block does not exist, or a block is confirmed.

The limit of the batch is `usize::MAX`. -/
def rollBack (c : LedgerConstants) (fuel : ℕ) (clock : ℕ → ℕ) (l : Ledger) (hash : BlockHash) :
    Except Abort (Ledger × List RollbackResult) :=
  rollBackBatch c fuel (fun _ => true) (2 ^ 64 - 1) clock 0 [hash] l

end Ledger

end RsNano
