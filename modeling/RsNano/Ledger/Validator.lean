import RsNano.Ledger.Store

/-!
# Block validation

`createValidator` loads what the validator needs from one snapshot, and `validate` runs
the rule list in the order of the source. Every rule is a test with the error it reports,
so `validate` accepts a block exactly when no test fires. The instructions for the
inserter are computed from the same snapshot.

`newBalance` and `amount` use machine arithmetic. `ArithmeticOk` says that none of the
additions and subtractions the validator performs leaves the range of a 128-bit word.
-/

namespace RsNano

inductive BlockError
  | badSignature
  | old
  | negativeSpend
  | fork
  | unreceivable
  | gapPrevious
  | gapSource
  | gapEpochOpenPending
  | openedBurnAccount
  | balanceMismatch
  | representativeMismatch
  | blockPosition
  | insufficientWork
  | conflict
  deriving DecidableEq, Repr

/-- What the inserter has to write for an accepted block. -/
structure BlockInsertInstructions where
  account : Account
  oldAccountInfo : AccountInfo
  setAccountInfo : AccountInfo
  deletePending : Option PendingKey
  insertPending : Option (PendingKey × PendingInfo)
  setSideband : BlockSideband
  isEpochBlock : Bool
  deriving DecidableEq

/-- A block with the ledger data that decides whether it is valid. -/
structure BlockValidator where
  block : Block
  constants : LedgerConstants
  blockExists : Bool
  account : Account
  previousBlock : Option SavedBlock
  oldAccountInfo : Option AccountInfo
  pendingReceiveInfo : Option PendingInfo
  anyPendingExists : Bool
  sourceBlockExists : Bool
  now : ℕ

/-- Load the data for validating a block from one snapshot of the ledger. -/
def Ledger.createValidator (c : LedgerConstants) (l : Ledger) (b : Block) (now : ℕ) :
    BlockValidator :=
  let previousBlock := if b.previous ≠ 0 then l.getBlock b.previous else none
  let account :=
    match b.accountField with
    | some account => account
    | none => (previousBlock.map SavedBlock.account).getD 0
  let sourceBlock := b.sourceOrLink
  { block := b
    constants := c
    blockExists := l.blockExists b.hash
    account := account
    previousBlock := previousBlock
    oldAccountInfo := l.getAccount account
    pendingReceiveInfo := if sourceBlock = 0 then none else l.getPending ⟨account, sourceBlock⟩
    anyPendingExists := l.receivableExists account
    sourceBlockExists := sourceBlock ≠ 0 ∧ l.blockExists sourceBlock
    now := now }

namespace BlockValidator

variable (v : BlockValidator)

def accountExists : Bool := v.oldAccountInfo.isSome

def isNewAccount : Bool := v.oldAccountInfo.isNone

def previousBalance : Amount := (v.previousBlock.map SavedBlock.balance).getD 0

def isSend : Bool :=
  match v.block with
  | .legacySend _ => true
  | .state state =>
    match v.oldAccountInfo with
    | some info => state.balance < info.balance
    | none => false
  | _ => false

def hasEpochLink (state : StateBlock) : Bool := v.constants.epochs.isEpochLink state.link

def isReceive : Bool :=
  match v.block with
  | .legacyReceive _ => true
  | .legacyOpen _ => true
  | .state state =>
    if v.hasEpochLink state then false
    else
      match v.oldAccountInfo with
      | some info => info.balance ≤ state.balance ∧ state.link ≠ 0
      | none => true
  | _ => false

def sourceEpoch : Epoch := (v.pendingReceiveInfo.map PendingInfo.epoch).getD .epoch0

def pendingAmount : Amount := (v.pendingReceiveInfo.map PendingInfo.amount).getD 0

def amountReceived : Amount :=
  match v.block with
  | .legacyReceive _ => v.pendingAmount
  | .legacyOpen _ => v.pendingAmount
  | .state state =>
    if v.previousBalance < state.balance then state.balance - v.previousBalance else 0
  | _ => 0

def amountSent : Amount :=
  match v.oldAccountInfo, v.block.balanceField with
  | some info, some balance => if balance < info.balance then info.balance - balance else 0
  | _, _ => 0

def oldBalance : Amount := (v.oldAccountInfo.map AccountInfo.balance).getD 0

def newBalance : Amount := v.oldBalance + v.amountReceived - v.amountSent

/-- An epoch link alone does not make an epoch block: the balance must not change. -/
def isEpochBlock : Bool :=
  match v.block with
  | .state state => v.hasEpochLink state ∧ v.previousBalance = state.balance
  | _ => false

def blockEpochVersion : Epoch :=
  match v.block with
  | .state state => (v.constants.epochs.epoch state.link).getD .invalid
  | _ => .epoch0

def oldEpochVersion : Epoch := (v.oldAccountInfo.map AccountInfo.epoch).getD .epoch0

def epoch : Epoch :=
  if v.isEpochBlock then v.blockEpochVersion else Epoch.max v.oldEpochVersion v.sourceEpoch

def openBlock : BlockHash :=
  match v.oldAccountInfo with
  | some info => info.openBlock
  | none => v.block.hash

def oldRepresentative : PublicKey := (v.oldAccountInfo.map AccountInfo.representative).getD 0

def newRepresentative : PublicKey := v.block.representativeField.getD v.oldRepresentative

/-- The absolute difference between the old and the new balance. -/
def amount : Amount :=
  if v.newBalance < v.oldBalance then v.oldBalance - v.newBalance
  else v.newBalance - v.oldBalance

def deleteReceivedPendingInfo : Option PendingKey :=
  if v.isReceive then some ⟨v.account, v.block.sourceOrLink⟩ else none

def newPendingInfo : Option (PendingKey × PendingInfo) :=
  match v.block with
  | .state state =>
    if v.isSend then
      some (⟨state.link.into .account, state.hash⟩, ⟨v.account, v.amount, v.epoch⟩)
    else none
  | .legacySend send =>
    some (⟨send.destination, send.hash⟩, ⟨v.account, v.amountSent, .epoch0⟩)
  | _ => none

def newBlockCount : ℕ := (v.oldAccountInfo.map AccountInfo.blockCount).getD 0 + 1

def blockDetails : BlockDetails where
  epoch := v.epoch
  isSend := v.isSend
  isReceive := v.isReceive
  isEpoch := v.isEpochBlock

def newSideband : BlockSideband where
  height := v.newBlockCount
  timestamp := v.now
  account := v.account
  balance := v.newBalance
  details := v.blockDetails
  sourceEpoch := v.sourceEpoch

/-- The timestamp of an account is in seconds, the clock in milliseconds. -/
def newAccountInfo : AccountInfo where
  head := v.block.hash
  representative := v.newRepresentative
  openBlock := v.openBlock
  balance := v.newBalance
  modified := v.now / 1000
  blockCount := v.newBlockCount
  epoch := v.epoch

def balanceChanged : Bool :=
  match v.oldAccountInfo with
  | some info => v.newBalance ≠ info.balance
  | none => false

/-- A validation rule: fail with an error if a test fires. -/
def rejectIf (test : Bool) (e : BlockError) : Except BlockError Unit :=
  if test then .error e else .ok ()

/-- A rule passes exactly when its test does not fire. -/
@[simp] theorem rejectIf_eq_ok {test : Bool} {e : BlockError} {u : Unit} :
    rejectIf test e = .ok u ↔ test = false := by
  cases test <;> simp [rejectIf]

def ensureEpochBlockCandidateIsSignedByOwnerOrEpochAccount : Except BlockError Unit :=
  match v.block with
  | .state state =>
    rejectIf (v.hasEpochLink state
      ∧ v.constants.verify (state.account.into .publicKey) state.hash state.signature = false
      ∧ v.constants.validateEpochSignature v.block = false) .badSignature
  | _ => .ok ()

def ensurePreviousBlockExistsForEpochBlockCandidate : Except BlockError Unit :=
  match v.block with
  | .state state =>
    rejectIf (v.hasEpochLink state ∧ state.previous ≠ 0 ∧ v.previousBlock.isNone) .gapPrevious
  | _ => .ok ()

def epochBlockPreChecks : Except BlockError Unit := do
  v.ensureEpochBlockCandidateIsSignedByOwnerOrEpochAccount
  v.ensurePreviousBlockExistsForEpochBlockCandidate

def ensureBlockDoesNotExistYet : Except BlockError Unit := rejectIf v.blockExists .old

def ensureValidPredecessor : Except BlockError Unit :=
  if v.block.previous = 0 then .ok ()
  else
    match v.previousBlock with
    | none => .error .gapPrevious
    | some previous =>
      rejectIf (v.block.validPredecessor previous.block.blockType = false) .blockPosition

def ensureValidSignature : Except BlockError Unit :=
  if v.isEpochBlock then
    rejectIf (v.constants.validateEpochSignature v.block = false) .badSignature
  else
    rejectIf (v.constants.verify (v.account.into .publicKey) v.block.hash v.block.signature
      = false) .badSignature

def ensureBlockIsNotForBurnAccount : Except BlockError Unit :=
  rejectIf (v.account = 0) .openedBurnAccount

def ensureAccountExistsForNoneOpenBlock : Except BlockError Unit :=
  rejectIf (v.block.isOpen = false ∧ v.isNewAccount) .gapPrevious

def ensureNoDoubleAccountOpen : Except BlockError Unit :=
  rejectIf (v.accountExists ∧ v.block.isOpen) .fork

def ensurePreviousBlockExists : Except BlockError Unit := do
  rejectIf (v.accountExists ∧ v.previousBlock.isNone) .gapPrevious
  rejectIf (v.isNewAccount ∧ v.block.previous ≠ 0) .gapPrevious

def ensurePreviousBlockIsAccountHead : Except BlockError Unit :=
  match v.oldAccountInfo with
  | some info => rejectIf (v.block.previous ≠ info.head) .fork
  | none => .ok ()

def ensurePreviousBlockIsCorrect : Except BlockError Unit := do
  v.ensurePreviousBlockExists
  v.ensurePreviousBlockIsAccountHead

def ensureOpenBlockHasLink : Except BlockError Unit :=
  match v.block with
  | .state state => rejectIf (v.block.isOpen ∧ state.link = 0) .gapSource
  | _ => .ok ()

def ensureNoReceiveBalanceChangeWithoutLink : Except BlockError Unit :=
  match v.block with
  | .state state => rejectIf (state.link = 0 ∧ v.amountReceived ≠ 0) .balanceMismatch
  | _ => .ok ()

def ensureSourceBlockExists : Except BlockError Unit :=
  rejectIf (v.isReceive ∧ v.sourceBlockExists = false) .gapSource

def ensureReceiveBlockReceivesPendingAmount : Except BlockError Unit :=
  if v.isReceive then
    match v.pendingReceiveInfo with
    | some pending => rejectIf (v.amountReceived ≠ pending.amount) .balanceMismatch
    | none => .error .unreceivable
  else .ok ()

def isLegacyReceive : Bool :=
  match v.block with
  | .legacyReceive _ => true
  | .legacyOpen _ => true
  | _ => false

/-- A missing pending entry has the default epoch, which is not epoch zero. -/
def ensureLegacySourceIsEpoch0 : Except BlockError Unit :=
  rejectIf (v.isLegacyReceive
    ∧ (v.pendingReceiveInfo.map PendingInfo.epoch).getD .unspecified ≠ .epoch0) .unreceivable

def ensurePendingReceiveIsCorrect : Except BlockError Unit := do
  v.ensureSourceBlockExists
  v.ensureReceiveBlockReceivesPendingAmount
  v.ensureLegacySourceIsEpoch0

def ensureSufficientWork : Except BlockError Unit :=
  rejectIf (v.constants.work.isValidPow v.block v.blockDetails = false) .insufficientWork

def ensureNoNegativeAmountSend : Except BlockError Unit :=
  match v.block with
  | .legacySend send => rejectIf (v.previousBalance < send.balance) .negativeSpend
  | _ => .ok ()

def ensureEpochBlockDoesNotChangeRepresentative : Except BlockError Unit :=
  match v.block, v.oldAccountInfo with
  | .state state, some info =>
    rejectIf (v.isEpochBlock ∧ state.representative ≠ info.representative)
      .representativeMismatch
  | _, _ => .ok ()

def ensureEpochOpenHasBurnAccountAsRep : Except BlockError Unit :=
  match v.block with
  | .state state =>
    rejectIf (v.isEpochBlock ∧ v.block.isOpen ∧ state.representative ≠ 0)
      .representativeMismatch
  | _ => .ok ()

def ensureEpochOpenHasPendingEntry : Except BlockError Unit :=
  rejectIf (v.block.isOpen ∧ v.isEpochBlock ∧ v.anyPendingExists = false) .gapEpochOpenPending

def ensureValidEpochForUnopenedAccount : Except BlockError Unit :=
  rejectIf (v.block.isOpen ∧ v.isEpochBlock ∧ v.blockEpochVersion = .invalid) .blockPosition

def ensureEpochUpgradeIsSequentialForExistingAccount : Except BlockError Unit :=
  match v.oldAccountInfo with
  | some info =>
    rejectIf (v.isEpochBlock ∧ Epochs.isSequential info.epoch v.blockEpochVersion = false)
      .blockPosition
  | none => .ok ()

def ensureEpochBlockDoesNotChangeBalance : Except BlockError Unit :=
  rejectIf (v.isEpochBlock ∧ v.balanceChanged) .balanceMismatch

def ensureValidEpochBlock : Except BlockError Unit := do
  v.ensureEpochBlockDoesNotChangeRepresentative
  v.ensureEpochOpenHasBurnAccountAsRep
  v.ensureEpochOpenHasPendingEntry
  v.ensureValidEpochForUnopenedAccount
  v.ensureEpochUpgradeIsSequentialForExistingAccount
  v.ensureEpochBlockDoesNotChangeBalance

def createInstructions : BlockInsertInstructions where
  account := v.account
  oldAccountInfo := v.oldAccountInfo.getD default
  setAccountInfo := v.newAccountInfo
  deletePending := v.deleteReceivedPendingInfo
  insertPending := v.newPendingInfo
  setSideband := v.newSideband
  isEpochBlock := v.isEpochBlock

/-- Check all rules for a new block. -/
def validate : Except BlockError BlockInsertInstructions := do
  v.epochBlockPreChecks
  v.ensureBlockDoesNotExistYet
  v.ensureValidPredecessor
  v.ensureValidSignature
  v.ensureBlockIsNotForBurnAccount
  v.ensureAccountExistsForNoneOpenBlock
  v.ensureNoDoubleAccountOpen
  v.ensurePreviousBlockIsCorrect
  v.ensureOpenBlockHasLink
  v.ensureNoReceiveBalanceChangeWithoutLink
  v.ensurePendingReceiveIsCorrect
  v.ensureSufficientWork
  v.ensureNoNegativeAmountSend
  v.ensureValidEpochBlock
  return v.createInstructions

/-- No addition or subtraction of the validator leaves the 128-bit range.

The subtractions inside `amountReceived` and `amountSent` and in `amount` are guarded by
their own comparisons; what is left are the two operations of `newBalance`. -/
def ArithmeticOk : Prop :=
  v.oldBalance.toNat + v.amountReceived.toNat < 2 ^ 128 ∧
    v.amountSent.toNat ≤ v.oldBalance.toNat + v.amountReceived.toNat

end BlockValidator

end RsNano
