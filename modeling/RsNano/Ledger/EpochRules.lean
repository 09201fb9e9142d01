import RsNano.Ledger.Run

/-!
# Epochs of accounts

The epoch of an account never goes back while blocks are inserted. It changes through an epoch
block, by one for an account that exists, or through a receive, to the epoch of the pending entry.
There is a third way: the validator looks up the link of every block in the pending table, so that
a send to the account whose number is the hash of a send to the sender inherits the epoch of that
send without receiving it.
-/

namespace RsNano

open BlockValidator

namespace Epoch

variable {a b : Epoch}

theorem max_eq_left (h : b ≤ a) : max a b = a := by
  revert h
  cases a <;> cases b <;> decide

theorem max_eq_right (h : ¬ b ≤ a) : max a b = b := if_pos (Nat.le_of_not_le h)

end Epoch

namespace BlockValidator

/-- A block that is neither a receive nor an epoch block, but has a link that is the hash of a send
to its own account in a later epoch. -/
def inheritsEpoch (v : BlockValidator) : Bool :=
  v.isReceive = false ∧ v.isEpochBlock = false ∧ ¬ v.sourceEpoch ≤ v.oldEpochVersion

variable {v : BlockValidator}

/-- An epoch block is a state block with an epoch link that is signed for the epoch. -/
theorem Passes.epochBlock (h : v.Passes) (hep : v.isEpochBlock = true) :
    ∃ state, v.block = .state state ∧ v.constants.epochs.isEpochLink state.link = true ∧
      v.previousBalance = state.balance ∧ v.constants.validateEpochSignature v.block = true := by
  have hsig := h.signature
  rw [ensureValidSignature, if_pos hep, rejectIf_eq_ok, decide_eq_false_iff_not,
    Bool.not_eq_false] at hsig
  cases hblk : v.block with
  | state state =>
    rw [isEpochBlock, hblk, decide_eq_true_iff] at hep
    rw [hblk] at hsig
    exact ⟨state, rfl, hep.1, hep.2, hsig⟩
  | _ =>
    rw [isEpochBlock, hblk] at hep
    cases hep

/-- The epoch of an epoch block is the one of its link, and follows the epoch of the account. -/
theorem Passes.epoch_epochBlock (h : v.Passes) (hep : v.isEpochBlock = true)
    {state : StateBlock} (hblk : v.block = .state state) :
    v.constants.epochs.epoch state.link = some v.epoch ∧
      ∀ info, v.oldAccountInfo = some info → v.epoch.toNat = info.epoch.toNat + 1 := by
  have hver : v.epoch = v.blockEpochVersion := if_pos hep
  obtain ⟨state', hblk', hlink, -, -⟩ := h.epochBlock hep
  rw [hblk] at hblk'
  cases hblk'
  constructor
  · rw [hver, blockEpochVersion, hblk]
    dsimp only
    rcases v.constants.epoch_of_isEpochLink _ hlink with hone | htwo
    · rw [hone]
      rfl
    · rw [htwo]
      rfl
  · intro info hinfo
    have hrules := h.epochCorrect
    simp only [ensureValidEpochBlock, seq_eq_ok] at hrules
    have hseq := hrules.2.2.2.2.1
    rw [ensureEpochUpgradeIsSequentialForExistingAccount, hinfo] at hseq
    simp only [hep, true_and, rejectIf_eq_ok, decide_eq_false_iff_not, Epochs.isSequential,
      not_not] at hseq
    rw [hver]
    exact hseq.2

/-- A receive deletes the entry whose epoch it takes. -/
theorem Passes.receive_pending (h : v.Passes) (hcoh : v.previousBalance = v.oldBalance)
    (hrecv : v.isReceive = true) :
    ∃ pending, v.pendingReceiveInfo = some pending ∧ v.sourceEpoch = pending.epoch ∧
      v.deleteReceivedPendingInfo = some ⟨v.account, v.block.sourceOrLink⟩ ∧
      v.newPendingInfo = none := by
  have hdel' : v.deleteReceivedPendingInfo = some ⟨v.account, v.block.sourceOrLink⟩ := if_pos hrecv
  rcases h.effect hcoh with ⟨_, -, -, -, hdel, -⟩ |
    ⟨pending, -, -, hins, -, -, hpend, -⟩ | ⟨-, -, -, hdel, -⟩ | ⟨-, -, -, hdel, -⟩
  · rw [hdel'] at hdel
    cases hdel
  · refine ⟨pending, hpend, ?_, hdel', hins⟩
    rw [sourceEpoch, hpend]
    rfl
  · rw [hdel'] at hdel
    cases hdel
  · rw [hdel'] at hdel
    cases hdel

/-- The epoch of an account does not go back. -/
theorem Passes.oldEpochVersion_le (h : v.Passes) : v.oldEpochVersion ≤ v.epoch := by
  cases hep : v.isEpochBlock with
  | true =>
    obtain ⟨state, hblk, hlink, -, -⟩ := h.epochBlock hep
    obtain ⟨hver, hnext⟩ := h.epoch_epochBlock hep hblk
    rw [oldEpochVersion]
    cases hold : v.oldAccountInfo with
    | none =>
      rcases v.constants.epoch_of_isEpochLink _ hlink with hone | htwo
      · rw [Option.some.inj (hver.symm.trans hone)]
        decide
      · rw [Option.some.inj (hver.symm.trans htwo)]
        decide
    | some info =>
      have := hnext info hold
      change info.epoch.toNat ≤ v.epoch.toNat
      omega
  | false =>
    rw [epoch, hep, if_neg Bool.false_ne_true, Epoch.max]
    split
    · next hle => exact hle
    · exact Nat.le_refl _

end BlockValidator

namespace Ledger

variable {c : LedgerConstants} {minWeight : Amount} {l l' l'' : Ledger} {b : Block} {a : Account}

/-- The epoch of an account, as the validator sees it: an account that is not open is in epoch
zero. -/
def epochOf (l : Ledger) (a : Account) : Epoch :=
  ((l.account.get a).map AccountInfo.epoch).getD .epoch0

/-- Why a block changes the epoch of an account. -/
inductive EpochCause (c : LedgerConstants) (l : Ledger) (b : Block) (l' : Ledger) (a : Account) :
    Prop
  | epochBlock (state : StateBlock) (hblock : b = .state state)
      (hlink : c.epochs.isEpochLink state.link = true)
      (hbal : state.balance = ((l.account.get a).map AccountInfo.balance).getD 0)
      (hsigned : c.validateEpochSignature b = true)
      (hepoch : c.epochs.epoch state.link = some (l'.epochOf a))
      (hnext : ∀ info, l.account.get a = some info →
        (l'.epochOf a).toNat = info.epoch.toNat + 1)
  | received (key : PendingKey) (pending : PendingInfo) (hreceiver : key.receivingAccount = a)
      (hpending : l.pending.get key = some pending) (hdeleted : l'.pending.get key = none)
      (hepoch : pending.epoch = l'.epochOf a)

/-- The block does not inherit an epoch without receiving. -/
def KeepsEpoch (c : LedgerConstants) (l : Ledger) (b : Block) : Prop :=
  (l.createValidator c b 0).inheritsEpoch = false

instance (c : LedgerConstants) (l : Ledger) (b : Block) : Decidable (l.KeepsEpoch c b) :=
  inferInstanceAs (Decidable (_ = false))

theorem epochOf_afterAccepted (c : LedgerConstants) (l : Ledger) (b : Block) (now : ℕ)
    (weights cache : Table PublicKey Amount) (a : Account) :
    (l.afterAccepted c b now weights cache).epochOf a =
      if a = (l.createValidator c b now).account then (l.createValidator c b now).epoch
      else l.epochOf a := by
  rw [epochOf, afterAccepted_account, Table.get_put]
  split
  · rfl
  · rfl

/-- No accepted block takes an account back to an earlier epoch. -/
theorem Inserts.epochOf_le (h : l.Inserts c b l') (a : Account) : l.epochOf a ≤ l'.epochOf a := by
  obtain ⟨now, -, -, hpass, -, rfl⟩ := h.spec
  rw [epochOf_afterAccepted]
  split
  · next ha =>
    rw [ha]
    exact hpass.oldEpochVersion_le
  · exact Nat.le_refl _

/-- No sequence of accepted blocks takes an account back to an earlier epoch. -/
theorem InsertRun.epochOf_le {allowed : Ledger → Block → Prop} (h : InsertRun c allowed l l')
    (a : Account) : l.epochOf a ≤ l'.epochOf a := by
  induction h with
  | refl => exact Nat.le_refl _
  | tail _ hstep ih =>
    obtain ⟨b, -, hb⟩ := hstep
    exact Nat.le_trans ih (hb.epochOf_le a)

/-- The epoch of an account changes for one of the two causes. -/
theorem Inserts.epochCause (hl : l.Chained) (hkeep : l.KeepsEpoch c b) (h : l.Inserts c b l')
    (hchg : l'.epochOf a ≠ l.epochOf a) : EpochCause c l b l' a := by
  obtain ⟨now, weights, cache, hpass, -, rfl⟩ := h.spec
  have hcoh := hl.coherent hpass
  have hep' := epochOf_afterAccepted c l b now weights cache a
  by_cases ha : a = (l.createValidator c b now).account
  swap
  · exact absurd (hep'.trans (if_neg ha)) hchg
  rw [if_pos ha] at hep'
  have hold : l.epochOf a = (l.createValidator c b now).oldEpochVersion := by
    rw [ha]
    rfl
  cases hep : (l.createValidator c b now).isEpochBlock with
  | true =>
    obtain ⟨state, hblk, hlink, hbal, hsigned⟩ := hpass.epochBlock hep
    obtain ⟨hver, hnext⟩ := hpass.epoch_epochBlock hep hblk
    refine .epochBlock state hblk hlink ?_ hsigned (hep' ▸ hver) ?_
    · rw [← hbal, hcoh, ha]
      rfl
    · rw [hep', ha]
      exact hnext
  | false =>
    have hmax : (l.createValidator c b now).epoch = Epoch.max
        (l.createValidator c b now).oldEpochVersion (l.createValidator c b now).sourceEpoch := by
      rw [epoch, hep]
      rfl
    have hlater : ¬ (l.createValidator c b now).sourceEpoch ≤
        (l.createValidator c b now).oldEpochVersion := by
      intro hle
      rw [hep', hmax, Epoch.max_eq_left hle] at hchg
      exact hchg hold.symm
    have hrecv : (l.createValidator c b now).isReceive = true := by
      by_contra hno
      rw [Bool.not_eq_true] at hno
      have hkeep' : (l.createValidator c b now).inheritsEpoch = false := hkeep
      rw [inheritsEpoch, decide_eq_false_iff_not] at hkeep'
      exact hkeep' ⟨hno, hep, hlater⟩
    obtain ⟨pending, hpend, hsrc, hdel, hins⟩ := hpass.receive_pending hcoh hrecv
    refine .received ⟨a, b.sourceOrLink⟩ pending rfl ?_ ?_ ?_
    · rw [createValidator_pendingReceiveInfo] at hpend
      split at hpend
      · cases hpend
      · rw [ha]
        exact hpend
    · rw [ha]
      change (pendingWith (l.pendingWithout _) _).get _ = none
      rw [show (l.createValidator c b now).createInstructions.deletePending = _ from hdel,
        show (l.createValidator c b now).createInstructions.insertPending = none from hins]
      exact Table.get_del_self _ _
    · rw [hep', hmax, Epoch.max_eq_right hlater, hsrc]

/-- Along every sequence of accepted blocks, no account goes back to an earlier epoch. A block that
does not inherit an epoch changes the epoch of an account only if it is a signed epoch block, by one
if the account exists, or if it deletes a pending entry of the new epoch. -/
theorem insertRun_epochs {allowed : Ledger → Block → Prop}
    (hrun : InsertRun c allowed (genesis c minWeight) l) (hrest : InsertRun c allowed l l') :
    (∀ a, l.epochOf a ≤ l'.epochOf a) ∧
      ∀ b l'', l'.KeepsEpoch c b → l'.Inserts c b l'' → ∀ a, l''.epochOf a ≠ l'.epochOf a →
        EpochCause c l' b l'' a := by
  have hchained : l'.Chained := Chained.genesis.run (hrun.run.trans hrest.run)
  exact ⟨hrest.epochOf_le, fun b l'' hkeeps h a => h.epochCause hchained hkeeps⟩

/-- The filter on the work of a block, which only sees the type of the block, lets pass every block
that the ledger accepts: a legacy block stays in epoch zero. -/
theorem reachable_validateEntryBlock {minWeight : Amount} {now : ℕ} {i : BlockInsertInstructions}
    (hwork : c.work.epoch1 < 2 ^ 64) (h : Reachable c minWeight l)
    (hvalid : (l.createValidator c b now).validate = .ok i) :
    c.work.validateEntryBlock b = true := by
  obtain ⟨hv, -⟩ := validate_eq_ok.1 hvalid
  have hpow : c.work.threshold (l.createValidator c b now).blockDetails ≤
      c.work.difficultyBlock b := by
    have hwork := hv.work
    rw [ensureSufficientWork, rejectIf_eq_ok, decide_eq_false_iff_not, Bool.not_eq_false] at hwork
    exact of_decide_eq_true hwork
  refine decide_eq_true (le_trans ?_ hpow)
  by_cases hlegacy : b.isLegacy = true
  · have hepoch := Chained.legacy_epoch h.chained hv hlegacy
    cases b with
    | state _ => cases hlegacy
    | _ =>
      rw [WorkThresholds.threshold, blockDetails, hepoch]
      exact le_rfl
  · cases b with
    | state _ => exact WorkThresholds.entry_le_threshold hwork _
    | _ => exact absurd rfl hlegacy

theorem reachable_validateEntryBlock_devUpgrade : ∃ i,
    (devReceived.createValidator devConstants (.state devUpgrade) 0).validate = .ok i ∧
      devConstants.work.validateEntryBlock (.state devUpgrade) = true := by
  obtain ⟨i, hvalid, -⟩ := exists_eq_ok (p := fun _ => true)
    (x := (devReceived.createValidator devConstants (.state devUpgrade) 0).validate)
    (by decide +kernel)
  exact ⟨i, hvalid, reachable_validateEntryBlock (by decide) reachable_devReceived hvalid⟩

/-! ### The dev network in two epochs -/

/-- The genesis account is moved to the first epoch. -/
def devUpgraded : Ledger := devReceived.processed devConstants (.state devUpgrade)

/-- It sends one raw to the account of key one. -/
def devEpochSent : Ledger := devUpgraded.processed devConstants (.state devEpochSend)

/-- The account of key one uses the hash of that send as the destination of a send. -/
def devInherited : Ledger := devEpochSent.processed devConstants (.state devLinkedSend)

theorem insertRun_epochs_devUpgraded :
    devReceived.epochOf ⟨devGenesisKey⟩ = .epoch0 ∧ devUpgraded.epochOf ⟨devGenesisKey⟩ = .epoch1 ∧
      EpochCause devConstants devReceived (.state devUpgrade) devUpgraded ⟨devGenesisKey⟩ := by
  have hrun : InsertRun devConstants (fun _ _ => True) (genesis devConstants 0) devReceived :=
    insertRun_devReceived trivial trivial
  have hbefore : devReceived.epochOf ⟨devGenesisKey⟩ = .epoch0 := by decide +kernel
  have hafter : devUpgraded.epochOf ⟨devGenesisKey⟩ = .epoch1 := by decide +kernel
  refine ⟨hbefore, hafter, ?_⟩
  refine (insertRun_epochs hrun .refl).2 _ _ (by decide +kernel)
    (inserts_processed (by decide +kernel)) _ ?_
  change devUpgraded.epochOf _ ≠ _
  rw [hbefore, hafter]
  decide

/-- A send whose destination is the number of a pending send takes over its epoch, although it is
no epoch block and deletes no pending entry. -/
theorem exists_inherited_epoch :
    InsertRun devConstants (fun _ _ => True) (genesis devConstants 0) devEpochSent ∧
      devEpochSent.Inserts devConstants (.state devLinkedSend) devInherited ∧
      devEpochSent.epochOf ⟨devKeyOne⟩ = .epoch0 ∧ devInherited.epochOf ⟨devKeyOne⟩ = .epoch1 ∧
      ¬ EpochCause devConstants devEpochSent (.state devLinkedSend) devInherited ⟨devKeyOne⟩ := by
  have hreceived : InsertRun devConstants (fun _ _ => True) (genesis devConstants 0) devReceived :=
    insertRun_devReceived trivial trivial
  have hupgraded := hreceived.processed (b := .state devUpgrade) trivial (by decide +kernel)
  have hsent := InsertRun.processed (b := .state devEpochSend) hupgraded trivial
    (by decide +kernel)
  refine ⟨hsent, inserts_processed (by decide +kernel), by decide +kernel, by decide +kernel, ?_⟩
  rintro (⟨state, hblock, hlink, -, -, -, -⟩ | ⟨key, pending, -, hpending, hdeleted, -⟩)
  · cases hblock
    revert hlink
    decide +kernel
  · have hput : devInherited.pending = devEpochSent.pending.put
        ⟨devEpochSend.hash.into .account, devLinkedSend.hash⟩ ⟨⟨devKeyOne⟩, 1, .epoch1⟩ := by
      decide +kernel
    rw [hput, Table.get_put] at hdeleted
    split at hdeleted
    · cases hdeleted
    · rw [hpending] at hdeleted
      cases hdeleted

end Ledger

end RsNano
