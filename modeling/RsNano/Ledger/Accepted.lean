import RsNano.Ledger.Validator

/-!
# What an accepted block satisfies

The rule list of the validator, read backwards. `Passes` has one field for each rule, and a
block is accepted exactly when it passes. From the rules follow the two facts that the rest
of the development uses: where the block sits in its account chain (`Passes.position`) and
what it does to the money (`Passes.effect`). The second needs that the balance of the
previous block is the balance of the account; the chain invariant provides it.
-/

namespace RsNano.BlockValidator

/-- All validation rules hold. -/
structure Passes (v : BlockValidator) : Prop where
  epochPreChecks : v.epochBlockPreChecks = .ok ()
  notOld : v.blockExists = false
  predecessor : v.ensureValidPredecessor = .ok ()
  signature : v.ensureValidSignature = .ok ()
  notBurnAccount : v.account ≠ 0
  accountExists : v.ensureAccountExistsForNoneOpenBlock = .ok ()
  noDoubleOpen : v.ensureNoDoubleAccountOpen = .ok ()
  previousCorrect : v.ensurePreviousBlockIsCorrect = .ok ()
  openHasLink : v.ensureOpenBlockHasLink = .ok ()
  noChangeWithoutLink : v.ensureNoReceiveBalanceChangeWithoutLink = .ok ()
  pendingCorrect : v.ensurePendingReceiveIsCorrect = .ok ()
  work : v.ensureSufficientWork = .ok ()
  noNegativeSend : v.ensureNoNegativeAmountSend = .ok ()
  epochCorrect : v.ensureValidEpochBlock = .ok ()

/-- A block is accepted exactly when it passes all rules. -/
theorem validate_eq_ok {v : BlockValidator} {i : BlockInsertInstructions} :
    v.validate = .ok i ↔ v.Passes ∧ v.createInstructions = i := by
  simp only [validate, seq_eq_ok, pure_eq_ok, ensureBlockDoesNotExistYet,
    ensureBlockIsNotForBurnAccount, rejectIf_eq_ok, decide_eq_false_iff_not]
  constructor
  · rintro ⟨h1, h2, h3, h4, h5, h6, h7, h8, h9, h10, h11, h12, h13, h14, rfl⟩
    exact ⟨⟨h1, h2, h3, h4, h5, h6, h7, h8, h9, h10, h11, h12, h13, h14⟩, rfl⟩
  · rintro ⟨⟨h1, h2, h3, h4, h5, h6, h7, h8, h9, h10, h11, h12, h13, h14⟩, rfl⟩
    exact ⟨h1, h2, h3, h4, h5, h6, h7, h8, h9, h10, h11, h12, h13, h14, rfl⟩

variable {v : BlockValidator}

/-- An accepted block opens a new account, or follows the head of an existing one. -/
theorem Passes.position (h : v.Passes) :
    (v.oldAccountInfo = none ∧ v.block.isOpen = true ∧ v.block.previous = 0) ∨
      ∃ info p, v.oldAccountInfo = some info ∧ v.previousBlock = some p ∧
        v.block.isOpen = false ∧ v.block.previous = info.head := by
  have hex := h.accountExists
  have hdouble := h.noDoubleOpen
  have hprevious := h.previousCorrect
  simp only [ensureAccountExistsForNoneOpenBlock, ensureNoDoubleAccountOpen,
    ensurePreviousBlockIsCorrect, ensurePreviousBlockExists, ensurePreviousBlockIsAccountHead,
    BlockValidator.accountExists, isNewAccount, rejectIf_eq_ok, seq_eq_ok]
    at hex hdouble hprevious
  cases hold : v.oldAccountInfo with
  | none => simp_all
  | some info =>
    cases hprev : v.previousBlock with
    | none | some p => simp_all

/-- A block with a predecessor may follow a block of that type. -/
theorem Passes.validPredecessor (h : v.Passes) {p : SavedBlock} (hp : v.previousBlock = some p)
    (hne : v.block.previous ≠ 0) : v.block.validPredecessor p.block.blockType = true := by
  have hpred := h.predecessor
  simp only [ensureValidPredecessor, hne, hp, if_false, rejectIf_eq_ok] at hpred
  simpa using hpred

/-- A receive consumes a pending entry of its account, whose send is in the ledger. -/
theorem Passes.receive (h : v.Passes) (hrecv : v.isReceive = true) :
    v.sourceBlockExists = true ∧
      ∃ pending, v.pendingReceiveInfo = some pending ∧ v.amountReceived = pending.amount := by
  have hp := h.pendingCorrect
  simp only [ensurePendingReceiveIsCorrect, ensureSourceBlockExists,
    ensureReceiveBlockReceivesPendingAmount, hrecv, seq_eq_ok, rejectIf_eq_ok,
    if_true] at hp
  obtain ⟨hsrc, hamt, -⟩ := hp
  refine ⟨by simpa using hsrc, ?_⟩
  cases hpend : v.pendingReceiveInfo with
  | none => simp [hpend] at hamt
  | some pending => exact ⟨pending, rfl, by simpa [hpend] using hamt⟩

/-- A legacy receive or open consumes an entry of epoch zero. -/
theorem Passes.legacy_source (h : v.Passes) (hleg : v.isLegacyReceive = true) :
    v.sourceEpoch = .epoch0 := by
  have hp := h.pendingCorrect
  simp only [ensurePendingReceiveIsCorrect, ensureLegacySourceIsEpoch0, seq_eq_ok,
    rejectIf_eq_ok, hleg] at hp
  obtain ⟨-, -, hep⟩ := hp
  cases hpend : v.pendingReceiveInfo <;> simp_all [sourceEpoch]

section

variable (v)

/-- The record of the block table for an accepted block. -/
def saved : SavedBlock := (SavedBlock.mk v.block v.newSideband).stored

/-- A state block with an epoch link whose balance is above the previous balance.

The validator takes such a block neither for a receive nor for an epoch block. -/
def raisesUnderEpochLink : Bool :=
  match v.block with
  | .state state => v.hasEpochLink state ∧ v.previousBalance < state.balance
  | _ => false

/-- What an accepted block does to the balance of its account and to the pending table. -/
inductive Effect : Prop
  | send (destination : Account)
      (hdest : v.saved.destination = some destination)
      (hsrc : v.saved.source = none)
      (hins : v.newPendingInfo = some (⟨destination, v.block.hash⟩,
        ⟨v.account, v.oldBalance - v.newBalance, v.saved.epoch⟩))
      (hdel : v.deleteReceivedPendingInfo = none)
      (hbal : v.newBalance ≤ v.oldBalance)
  | receive (pending : PendingInfo)
      (hdest : v.saved.destination = none)
      (hsrc : v.saved.source = some v.block.sourceOrLink)
      (hins : v.newPendingInfo = none)
      (hdel : v.deleteReceivedPendingInfo = some ⟨v.account, v.block.sourceOrLink⟩)
      (hex : v.sourceBlockExists = true)
      (hpend : v.pendingReceiveInfo = some pending)
      (hbal : v.newBalance = v.oldBalance + pending.amount)
  | keep
      (hdest : v.saved.destination = none)
      (hsrc : v.saved.source = none)
      (hins : v.newPendingInfo = none)
      (hdel : v.deleteReceivedPendingInfo = none)
      (hbal : v.newBalance = v.oldBalance)
  | raise
      (hdest : v.saved.destination = none)
      (hsrc : v.saved.source = none)
      (hins : v.newPendingInfo = none)
      (hdel : v.deleteReceivedPendingInfo = none)
      (hraise : v.raisesUnderEpochLink = true)

end

/-- The new balance of a state block is its balance field. -/
theorem newBalance_state {state : StateBlock} (hblk : v.block = .state state)
    (hcoh : v.previousBalance = v.oldBalance) : v.newBalance = state.balance := by
  have hrecv : v.amountReceived =
      if v.oldBalance < state.balance then state.balance - v.oldBalance else 0 := by
    rw [amountReceived, hblk, ← hcoh]
  have hsent : v.amountSent =
      if state.balance < v.oldBalance then v.oldBalance - state.balance else 0 := by
    cases hold : v.oldAccountInfo with
    | none => simp [amountSent, oldBalance, hold]
    | some info => simp [amountSent, oldBalance, hold, hblk, Block.balanceField]
  rw [newBalance, hrecv, hsent]
  split <;> split <;> bv_omega

/-- The new balance of a legacy send is its balance field. -/
theorem newBalance_legacySend {send : SendBlock} (h : v.Passes)
    (hblk : v.block = .legacySend send) (hcoh : v.previousBalance = v.oldBalance) :
    send.balance ≤ v.oldBalance ∧ v.newBalance = send.balance := by
  have hle : send.balance ≤ v.oldBalance := by
    have hnegative := h.noNegativeSend
    simp only [ensureNoNegativeAmountSend, hblk, rejectIf_eq_ok, decide_eq_false_iff_not,
      hcoh] at hnegative
    exact BitVec.not_lt.mp hnegative
  have hsent : v.amountSent = v.oldBalance - send.balance := by
    cases hold : v.oldAccountInfo with
    | none =>
      have hex := h.accountExists
      simp [ensureAccountExistsForNoneOpenBlock, isNewAccount, hold, hblk, Block.isOpen]
        at hex
    | some info =>
      have hinfo : v.oldBalance = info.balance := by simp [oldBalance, hold]
      simp only [amountSent, hold, hblk, Block.balanceField, ← hinfo]
      split
      · rfl
      · bv_omega
  refine ⟨hle, ?_⟩
  rw [newBalance, amountReceived, hblk]
  bv_omega

/-- A state block that is no send takes nothing from the account. -/
theorem amountSent_of_not_isSend {state : StateBlock} (hblk : v.block = .state state)
    (hsend : v.isSend = false) : v.amountSent = 0 := by
  cases hold : v.oldAccountInfo with
  | none => simp [amountSent, hold]
  | some info =>
    simp only [isSend, hblk, hold, decide_eq_false_iff_not] at hsend
    simp [amountSent, hold, hblk, Block.balanceField, hsend]

/-- The effect of an accepted state block. -/
theorem Passes.effect_state (h : v.Passes) {state : StateBlock} (hblk : v.block = .state state)
    (hcoh : v.previousBalance = v.oldBalance) : v.Effect := by
  have hnew := newBalance_state hblk hcoh
  have hdet : v.saved.sideband.details = v.blockDetails := by
    simp only [saved, SavedBlock.stored, hblk, newSideband]
  have hsaved : v.saved.block = .state state := hblk
  have hsentEq : v.newBalance = v.oldBalance + v.amountReceived - v.amountSent := rfl
  cases hsend : v.isSend with
  | true =>
    obtain ⟨info, hold⟩ : ∃ info, v.oldAccountInfo = some info := by
      cases hold : v.oldAccountInfo with
      | none => simp [isSend, hblk, hold] at hsend
      | some info => exact ⟨info, rfl⟩
    have hlt : state.balance < v.oldBalance := by
      simpa [isSend, hblk, hold, oldBalance] using hsend
    have hrcv : v.isReceive = false := by
      have hinfo : v.oldBalance = info.balance := by simp [oldBalance, hold]
      simp only [isReceive, hblk, hold]
      split
      · rfl
      · rw [hinfo] at hlt
        simp [BitVec.not_le.mpr hlt]
    refine .send (state.link.into .account) ?_ ?_ ?_ ?_ ?_
    · simp [SavedBlock.destination, hsaved, hdet, blockDetails, hsend]
    · simp [SavedBlock.source, hsaved, hdet, blockDetails, hrcv]
    · rw [← hnew] at hlt
      simp [newPendingInfo, hblk, hsend, amount, hlt, Block.hash, SavedBlock.epoch, hdet,
        blockDetails]
    · simp [deleteReceivedPendingInfo, hrcv]
    · rw [hnew]
      exact BitVec.le_of_lt hlt
  | false =>
    have hsent := amountSent_of_not_isSend hblk hsend
    have hdest : v.saved.destination = none := by
      simp [SavedBlock.destination, hsaved, hdet, blockDetails, hsend]
    have hins : v.newPendingInfo = none := by simp [newPendingInfo, hblk, hsend]
    have hsrc : v.saved.source =
        if v.isReceive then some (state.link.into .blockHash) else none := by
      simp [SavedBlock.source, hsaved, hdet, blockDetails]
    cases hrcv : v.isReceive with
    | true =>
      obtain ⟨hex, pending, hpend, hamt⟩ := h.receive hrcv
      refine .receive pending hdest ?_ hins ?_ hex hpend ?_
      · simp [hsrc, hrcv, hblk, Block.sourceOrLink, Block.sourceField, Block.linkField]
      · simp [deleteReceivedPendingInfo, hrcv]
      · rw [hsentEq, hsent, hamt, sub_zero]
    | false =>
      have hdel : v.deleteReceivedPendingInfo = none := by
        simp [deleteReceivedPendingInfo, hrcv]
      have hnosrc : v.saved.source = none := by simp [hsrc, hrcv]
      by_cases hlt : v.oldBalance < state.balance
      · -- only an epoch link lets the balance rise without a receive
        refine .raise hdest hnosrc hins hdel ?_
        have hlink : v.hasEpochLink state = true := by
          by_contra hnot
          cases hold : v.oldAccountInfo with
          | none => simp [isReceive, hblk, hnot, hold] at hrcv
          | some info =>
            have hinfo : v.oldBalance = info.balance := by simp [oldBalance, hold]
            have hle : info.balance ≤ state.balance := hinfo ▸ BitVec.le_of_lt hlt
            have hzero : state.link = 0 := by
              simpa [isReceive, hblk, hnot, hold, hle] using hrcv
            have hno := h.noChangeWithoutLink
            simp only [ensureNoReceiveBalanceChangeWithoutLink, hblk, rejectIf_eq_ok, hzero,
              amountReceived, hcoh, hlt, if_true] at hno
            have hdiff : state.balance - v.oldBalance = 0 := by simpa using hno
            bv_omega
        simp [raisesUnderEpochLink, hblk, hlink, hcoh, hlt]
      · refine .keep hdest hnosrc hins hdel ?_
        have hrecv : v.amountReceived = 0 := by
          simp [amountReceived, hblk, hcoh, hlt]
        rw [hsentEq, hsent, hrecv, add_zero, sub_zero]

/-- The effect of an accepted legacy receive or open. -/
theorem Passes.effect_legacyReceive (h : v.Passes) (hleg : v.isLegacyReceive = true) :
    v.Effect := by
  have hrecv : v.isReceive = true := by
    cases hblk : v.block <;> simp_all [isLegacyReceive, isReceive]
  obtain ⟨hex, pending, hpend, hamt⟩ := h.receive hrecv
  have hsent : v.amountSent = 0 := by
    cases hblk : v.block <;> cases hold : v.oldAccountInfo <;>
      simp_all [isLegacyReceive, amountSent, Block.balanceField]
  have hsentEq : v.newBalance = v.oldBalance + v.amountReceived - v.amountSent := rfl
  refine .receive pending ?_ ?_ ?_ ?_ hex hpend ?_
  · cases hblk : v.block <;>
      simp_all [isLegacyReceive, saved, SavedBlock.destination]
  · cases hblk : v.block <;>
      simp_all [isLegacyReceive, saved, SavedBlock.source, Block.sourceOrLink, Block.sourceField]
  · cases hblk : v.block <;> simp_all [isLegacyReceive, newPendingInfo]
  · simp [deleteReceivedPendingInfo, hrecv]
  · rw [hsentEq, hsent, hamt, sub_zero]

/-- An accepted block is a send, a receive, a block that moves nothing, or a block that raises
the balance under an epoch link. -/
theorem Passes.effect (h : v.Passes) (hcoh : v.previousBalance = v.oldBalance) : v.Effect := by
  cases hblk : v.block with
  | legacySend send =>
    obtain ⟨hle, hnew⟩ := newBalance_legacySend h hblk hcoh
    have hsent : v.amountSent = v.oldBalance - v.newBalance := by
      have hrecv : v.amountReceived = 0 := by simp [amountReceived, hblk]
      rw [newBalance]
      bv_omega
    refine .send send.destination ?_ ?_ ?_ ?_ (hnew ▸ hle)
    · simp [saved, SavedBlock.destination, hblk]
    · simp [saved, SavedBlock.source, hblk]
    · simp [newPendingInfo, hblk, hsent, Block.hash, SavedBlock.epoch, saved, SavedBlock.stored]
    · simp [deleteReceivedPendingInfo, isReceive, hblk]
  | legacyReceive receive
  | legacyOpen open_ => exact h.effect_legacyReceive (by simp [isLegacyReceive, hblk])
  | legacyChange change =>
    refine .keep ?_ ?_ ?_ ?_ ?_
    · simp [saved, SavedBlock.destination, hblk]
    · simp [saved, SavedBlock.source, hblk]
    · simp [newPendingInfo, hblk]
    · simp [deleteReceivedPendingInfo, isReceive, hblk]
    · cases hold : v.oldAccountInfo <;>
        simp [newBalance, amountReceived, amountSent, hblk, Block.balanceField, hold]
  | state state => exact h.effect_state hblk hcoh

end RsNano.BlockValidator
