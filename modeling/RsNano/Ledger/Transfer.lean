import RsNano.Ledger.Chain

/-!
# Insertions as transfers

An accepted block is a send, a receive, a block that moves nothing, or a state block that
raises its balance under an epoch link. `Ledger.Transfer` says this about the ledgers before and
after the insertion, in terms of the record that is stored for the block; the invariants about
pending entries and about the supply are derived from it alone.

The genesis block names a source like any legacy open block, but it receives nothing;
`SavedBlock.receivedSend` leaves it out, as `dependentBlocks` does.
-/

namespace RsNano

open BlockValidator

/-- The send that a block receives. The genesis block receives none. -/
def SavedBlock.receivedSend (c : LedgerConstants) (sb : SavedBlock) : Option BlockHash :=
  match sb.block with
  | .legacyOpen b => if b.account = c.genesisAccount then none else sb.source
  | _ => sb.source

/-- The balance after the block with a given hash, or zero where there is no such block. -/
def balanceAfter (t : Table BlockHash SavedBlock) (hash : BlockHash) : Amount :=
  ((if hash ≠ 0 then t.get hash else none).map SavedBlock.balance).getD 0

/-- The balance of the previous block, or zero for a first block. -/
def previousBalanceIn (t : Table BlockHash SavedBlock) (sb : SavedBlock) : Amount :=
  balanceAfter t sb.previous

/-- A block that sends to an account: a legacy send, or a state block that lowers the balance
and has the account as its link. -/
def sendsTo (t : Table BlockHash SavedBlock) (sb : SavedBlock) (destination : Account) : Prop :=
  match sb.block with
  | .legacySend b => b.destination = destination
  | .state b => b.balance < previousBalanceIn t sb ∧ b.link.into .account = destination
  | _ => False

/-- The pending entry of a send: its sender, the decrease of the balance, and the epoch of the
sender's account after it. -/
def sendInfo (t : Table BlockHash SavedBlock) (sb : SavedBlock) : PendingInfo where
  source := sb.account
  amount := previousBalanceIn t sb - sb.balance
  epoch := sb.epoch

section

variable {t : Table BlockHash SavedBlock} {h : BlockHash} {sb : SavedBlock} {x : BlockHash}
  (ht : Linked t) (hget : t.get h = some sb) (hfresh : t.get x = none) (nb : SavedBlock)

include ht hget hfresh nb

/-- A larger table gives the same previous balance to the blocks already there. -/
theorem Linked.previousBalanceIn_put :
    previousBalanceIn (t.put x nb) sb = previousBalanceIn t sb := by
  by_cases hprev : sb.previous = 0
  · simp [previousBalanceIn, balanceAfter, hprev]
  · obtain ⟨p, hp, -⟩ := ht.previous hget hprev
    simp [previousBalanceIn, balanceAfter, hprev, hp, Table.get_put_of_get nb hfresh hp]

end

namespace Ledger

/-- A state block that raises its balance under an epoch link. -/
def raisesUnderEpochLink (c : LedgerConstants) (l : Ledger) (b : Block) : Prop :=
  match b with
  | .state state =>
    c.epochs.isEpochLink state.link = true ∧ balanceAfter l.block state.previous < state.balance
  | _ => False

instance (c : LedgerConstants) (l : Ledger) (b : Block) :
    Decidable (raisesUnderEpochLink c l b) :=
  match b with
  | .state _ => inferInstanceAs (Decidable (_ ∧ _))
  | .legacySend _ | .legacyReceive _ | .legacyOpen _ | .legacyChange _ =>
    inferInstanceAs (Decidable False)

/-- The stored record of a new block, and what it does to accounts and pending entries. -/
inductive Transfer (c : LedgerConstants) (l : Ledger) (nb : SavedBlock) (l' : Ledger) : Prop
  | send (destination : Account)
      (hdest : nb.destination = some destination)
      (hrecv : nb.receivedSend c = none)
      (hpend : l'.pending = l.pending.put ⟨destination, nb.hash⟩ (sendInfo l'.block nb))
      (hbal : nb.balance ≤ previousBalanceIn l'.block nb)
  | receive (source : BlockHash) (info : PendingInfo)
      (hdest : nb.destination = none)
      (hrecv : nb.receivedSend c = some source)
      (hentry : l.pending.get ⟨nb.account, source⟩ = some info)
      (hsrc : ∃ sb, l.block.get source = some sb)
      (hpend : l'.pending = l.pending.del ⟨nb.account, source⟩)
      (hbal : nb.balance = previousBalanceIn l'.block nb + info.amount)
      (hepoch : nb.sourceEpoch = info.epoch)
  | keep
      (hdest : nb.destination = none)
      (hrecv : nb.receivedSend c = none)
      (hpend : l'.pending = l.pending)
      (hbal : nb.balance = previousBalanceIn l'.block nb)
  | raise
      (hdest : nb.destination = none)
      (hrecv : nb.receivedSend c = none)
      (hpend : l'.pending = l.pending)
      (hraise : raisesUnderEpochLink c l nb.block)

/-- The tables before and after the insertion of a block, and the money it moves. -/
structure Extends (c : LedgerConstants) (l : Ledger) (nb : SavedBlock) (l' : Ledger) : Prop where
  fresh : l.block.get nb.hash = none
  block_eq : l'.block = l.block.put nb.hash nb
  account_eq : ∃ info, l'.account = l.account.put nb.account info ∧ info.balance = nb.balance
  oldBalance : ((l.account.get nb.account).map AccountInfo.balance).getD 0 =
    previousBalanceIn l'.block nb
  opened : nb.block.isOpen = true → l.account.get nb.account = none
  stored : nb.previous = 0 ∨ ∃ p, l.block.get nb.previous = some p
  above : ∀ {h sb}, l.block.get h = some sb → sb.account = nb.account → sb.height < nb.height
  dependents : ∀ d, d ∈ (nb.dependentBlocks c).iter ↔
    d ≠ 0 ∧ (d = nb.previous ∨ nb.receivedSend c = some d)
  sends : ∀ destination, nb.destination = some destination ↔ sendsTo l'.block nb destination
  confirmation_eq : l'.confirmationHeight = l.confirmationHeight ∧
    l'.confirmedCount = l.confirmedCount ∧ l'.finalVote = l.finalVote
  transfer : Transfer c l nb l'

section

variable {c : LedgerConstants} {l : Ledger} {b : Block} {now : ℕ}

/-- The validator takes a state block for a send exactly when it lowers the balance. -/
theorem isSend_state {state : StateBlock} :
    (l.createValidator c (.state state) now).isSend = true ↔
      state.balance < (l.createValidator c (.state state) now).oldBalance := by
  rw [isSend, oldBalance]
  cases (l.createValidator c (.state state) now).oldAccountInfo with
  | none | some info => simp

/-- The validator takes a state block with a link for a receive, unless it is a send or the
link is an epoch link. -/
theorem isReceive_state {state : StateBlock} (hlink : state.link ≠ 0) :
    (l.createValidator c (.state state) now).isReceive =
      (!(l.createValidator c (.state state) now).isSend && !c.epochs.isEpochLink state.link) := by
  simp only [isReceive, isSend, createValidator_block, hasEpochLink]
  change (if c.epochs.isEpochLink state.link = true then _ else _) = _
  cases c.epochs.isEpochLink state.link with
  | true => simp
  | false =>
    cases (l.createValidator c (.state state) now).oldAccountInfo with
    | none => rfl
    | some info =>
      simp only [ne_eq, hlink, not_false_eq_true, and_true, Bool.not_false, Bool.and_true]
      rw [← decide_not]
      exact decide_eq_decide.mpr BitVec.not_lt.symm

/-- The dependencies of an accepted block are the previous block and the send it receives. -/
theorem dependents_saved (d : BlockHash) :
    d ∈ ((l.createValidator c b now).saved.dependentBlocks c).iter ↔
      d ≠ 0 ∧ (d = (l.createValidator c b now).saved.previous ∨
        (l.createValidator c b now).saved.receivedSend c = some d) := by
  have hblk : (l.createValidator c b now).saved.block = b := rfl
  rw [DependentBlocks.mem_iter]
  refine and_congr_right fun hd => ?_
  simp only [SavedBlock.dependentBlocks, SavedBlock.receivedSend, SavedBlock.source, hblk,
    SavedBlock.previous]
  cases b with
  | legacySend send => simp [Block.previous, hd]
  | legacyReceive receive => simp [Block.previous, eq_comm]
  | legacyOpen open_ =>
    dsimp only
    split <;> simp [Block.previous, hd, eq_comm]
  | legacyChange change => simp [Block.previous, hd]
  | state state =>
    refine or_congr_right ?_
    by_cases hlink : state.link = 0
    · have hzero : state.link.into .blockHash = (0 : BlockHash) := by rw [hlink]; rfl
      simp [hzero, hd, Ne.symm hd]
    · have hrecv : (l.createValidator c (.state state) now).saved.sideband.details.isReceive =
          (l.createValidator c (.state state) now).isReceive := rfl
      have hsend : (l.createValidator c (.state state) now).saved.isSend =
          (l.createValidator c (.state state) now).isSend := rfl
      rw [hrecv, isReceive_state hlink, hsend]
      dsimp only
      split <;> simp [hd, eq_comm]

variable (hl : l.Chained) (hgen : ∃ info, l.account.get c.genesisAccount = some info)

section

variable (hv : (l.createValidator c b now).Passes)

include hv

/-- The stored source epoch of an accepted block is the one the validator found. -/
theorem sourceEpoch_saved :
    (l.createValidator c b now).saved.sourceEpoch = (l.createValidator c b now).sourceEpoch := by
  cases b with
  | state _ => rfl
  | _ => exact (Chained.legacy_sourceEpoch hv rfl).symm

include hl

/-- The previous balance of the stored record is the one the validator read. -/
theorem Chained.previousBalanceIn_saved (hfresh : l.block.get b.hash = none) :
    previousBalanceIn (l.block.put b.hash (l.createValidator c b now).saved)
      (l.createValidator c b now).saved = (l.createValidator c b now).previousBalance := by
  have hprev : (l.createValidator c b now).saved.previous = b.previous := rfl
  rw [previousBalanceIn, balanceAfter, previousBalance, createValidator_previousBlock, hprev]
  rcases hl.position hv with ⟨-, -, hzero⟩ | ⟨-, p, -, hp, -, -, -, hne, -⟩
  · simp [hzero]
  · simp [hne, hp, Table.get_put_of_get _ hfresh hp]

/-- The destination of the stored record is where the block sends to. -/
theorem Chained.sends_saved (hfresh : l.block.get b.hash = none) (destination : Account) :
    (l.createValidator c b now).saved.destination = some destination ↔
      sendsTo (l.block.put b.hash (l.createValidator c b now).saved)
        (l.createValidator c b now).saved destination := by
  have hblk : (l.createValidator c b now).saved.block = b := rfl
  rw [SavedBlock.destination, sendsTo, hl.previousBalanceIn_saved hv hfresh, hl.coherent hv, hblk]
  cases b with
  | state state =>
    change (if (l.createValidator c (.state state) now).isSend = true then
      some (state.link.into .account) else none) = some destination ↔
        state.balance < (l.createValidator c (.state state) now).oldBalance ∧
          state.link.into .account = destination
    rw [← isSend_state]
    split <;> simp_all
  | legacySend send | legacyReceive _ | legacyOpen _ | legacyChange _ => simp

include hgen

/-- A new block is not the genesis block, so it receives what it names as its source. -/
theorem Chained.receivedSend_saved :
    (l.createValidator c b now).saved.receivedSend c =
      (l.createValidator c b now).saved.source := by
  cases b with
  | legacyOpen open_ =>
    have hne : open_.account ≠ c.genesisAccount := by
      intro heq
      obtain ⟨info, hinfo⟩ := hgen
      rcases hl.position hv with ⟨hnew, -⟩ | ⟨_, _, -, -, -, hopen, -⟩
      · have hacc : (l.createValidator c (.legacyOpen open_) now).account = open_.account := rfl
        rw [hacc, heq, hinfo] at hnew
        cases hnew
      · cases hopen
    exact if_neg hne
  | _ => rfl

/-- What an accepted block does, told by its stored record. -/
theorem Chained.transfer_saved (hi : l.Insertable b (l.createValidator c b now).createInstructions)
    {weights cache : Table PublicKey Amount} :
    Transfer c l (l.createValidator c b now).saved (l.afterAccepted c b now weights cache) := by
  have hsrc := hl.receivedSend_saved hgen hv
  have hnew := hl.saved_balance hv
  have hold : previousBalanceIn (l.afterAccepted c b now weights cache).block
      (l.createValidator c b now).saved = (l.createValidator c b now).oldBalance :=
    (hl.previousBalanceIn_saved hv hi.fresh).trans (hl.coherent hv)
  have hpend : (l.afterAccepted c b now weights cache).pending =
      pendingWith (l.pendingWithout (l.createValidator c b now).deleteReceivedPendingInfo)
        (l.createValidator c b now).newPendingInfo := rfl
  cases hv.effect (hl.coherent hv) with
  | send destination hdest hnosrc hins hdel hbal =>
    refine .send destination hdest (hsrc.trans hnosrc) ?_ ?_
    · rw [hpend, hins, hdel, sendInfo, hold, hnew, createValidator_saved_account]
      rfl
    · rw [hold, hnew]
      exact hbal
  | receive pending hdest hrecv hins hdel hex hpinfo hbal =>
    rw [createValidator_pendingReceiveInfo] at hpinfo
    split at hpinfo
    · cases hpinfo
    · refine .receive b.sourceOrLink pending hdest (hsrc.trans hrecv) ?_ ?_ ?_ ?_ ?_
      · rw [createValidator_saved_account]
        exact hpinfo
      · have hst : b.sourceOrLink ≠ 0 ∧ l.blockExists b.sourceOrLink = true := by
          simpa [createValidator] using hex
        exact Option.isSome_iff_exists.mp (of_decide_eq_true hst.2).2
      · rw [hpend, hins, hdel, createValidator_saved_account]
        rfl
      · rw [hold, hnew]
        exact hbal
      · rw [sourceEpoch_saved hv, sourceEpoch, createValidator_pendingReceiveInfo]
        simp_all
  | keep hdest hnosrc hins hdel hbal =>
    refine .keep hdest (hsrc.trans hnosrc) ?_ ?_
    · rw [hpend, hins, hdel]
      rfl
    · rw [hold, hnew]
      exact hbal
  | raise hdest hnosrc hins hdel hraise =>
    refine .raise hdest (hsrc.trans hnosrc) ?_ ?_
    · rw [hpend, hins, hdel]
      rfl
    · cases b with
      | state state =>
        have hraise' : c.epochs.isEpochLink state.link = true ∧
            (l.createValidator c (.state state) now).previousBalance < state.balance :=
          of_decide_eq_true hraise
        refine ⟨hraise'.1, ?_⟩
        rw [previousBalance, createValidator_previousBlock] at hraise'
        exact hraise'.2
      | _ => cases hraise

end

include hl hgen

/-- The insertion of an accepted block, told by its stored record. -/
theorem Inserts.extends_ledger {l' : Ledger} (h : l.Inserts c b l') :
    ∃ nb, nb.block = b ∧ Extends c l nb l' := by
  obtain ⟨now, -, -, hv, hi, rfl⟩ := h.spec
  refine ⟨(l.createValidator c b now).saved, rfl, ?_⟩
  exact
    { fresh := hi.fresh
      block_eq := rfl
      account_eq := ⟨(l.createValidator c b now).newAccountInfo,
        by rw [createValidator_saved_account]; rfl, (hl.saved_balance hv).symm⟩
      oldBalance := by
        rw [createValidator_saved_account]
        exact ((hl.previousBalanceIn_saved hv hi.fresh).trans (hl.coherent hv)).symm
      opened := by
        intro hopen
        rw [createValidator_saved_account]
        rcases hl.position hv with ⟨hnew, -⟩ | ⟨_, _, -, -, -, hnot, -⟩
        · exact hnew
        · exact absurd (hopen.symm.trans hnot) (by decide)
      stored := by
        rcases hl.position hv with ⟨-, -, hzero⟩ | ⟨_, p, -, hp, -⟩
        · exact .inl hzero
        · exact .inr ⟨p, hp⟩
      above := by
        intro h sb hget hacc
        rw [createValidator_saved_account] at hacc
        rw [hl.saved_height hv]
        exact hl.height_lt_newBlockCount hget hacc
      dependents := dependents_saved
      sends := hl.sends_saved hv hi.fresh
      confirmation_eq := ⟨rfl, rfl, rfl⟩
      transfer := hl.transfer_saved hgen hv hi }

end

/-- The genesis block receives no send. -/
theorem genesis_receivedSend {c : LedgerConstants} {minWeight : Amount} {h : BlockHash}
    {sb : SavedBlock} (hget : (genesis c minWeight).block.get h = some sb) :
    sb.receivedSend c = none := by
  obtain ⟨-, rfl⟩ := genesis_block_get.mp hget
  exact if_pos rfl

namespace Extends

variable {c : LedgerConstants} {l l' : Ledger} {nb : SavedBlock} {h : BlockHash} {sb : SavedBlock}
  (he : Extends c l nb l')

include he

/-- The blocks already there stay. -/
theorem get_of_get (hget : l.block.get h = some sb) : l'.block.get h = some sb := by
  rw [he.block_eq]
  exact Table.get_put_of_get nb he.fresh hget

/-- A block is the new one or was there before. -/
theorem eq_or_get (hget : l'.block.get h = some sb) :
    (h = nb.hash ∧ sb = nb) ∨ l.block.get h = some sb := by
  rw [he.block_eq] at hget
  exact (Table.eq_or_of_get_put hget).imp_right And.right

/-- The new block is stored. -/
theorem get_new : l'.block.get nb.hash = some nb := by
  rw [he.block_eq, Table.get_put_self]

/-- What a new block does that receives a send. -/
theorem received {source : BlockHash} (hrecv : nb.receivedSend c = some source) :
    nb.destination = none ∧ (∃ sb, l.block.get source = some sb) ∧ ∃ info,
      l.pending.get ⟨nb.account, source⟩ = some info ∧
      nb.balance = previousBalanceIn l'.block nb + info.amount ∧ nb.sourceEpoch = info.epoch := by
  cases he.transfer with
  | receive source info hdest hsrc hent hst _ hbal hep =>
    cases hsrc.symm.trans hrecv
    exact ⟨hdest, hst, info, hent, hbal, hep⟩
  | send _ _ hnone _ _ | keep _ hnone _ _ | raise _ hnone _ _ => cases hnone.symm.trans hrecv

/-- A new send does not raise the balance. -/
theorem balance_le {destination : Account} (hdest : nb.destination = some destination) :
    nb.balance ≤ previousBalanceIn l'.block nb := by
  cases he.transfer with
  | send _ _ _ _ hbal => exact hbal
  | receive _ _ hnone _ _ _ _ _ _ | keep hnone _ _ _
  | raise hnone _ _ _ => cases hnone.symm.trans hdest

/-- The previous balances of the blocks already there are the same. -/
theorem previousBalanceIn_eq (hl : l.Chained) (hget : l.block.get h = some sb) :
    previousBalanceIn l'.block sb = previousBalanceIn l.block sb := by
  rw [he.block_eq]
  exact hl.linked.previousBalanceIn_put hget he.fresh nb

/-- The pending entries of the sends already there are the same. -/
theorem sendInfo_eq (hl : l.Chained) (hget : l.block.get h = some sb) :
    sendInfo l'.block sb = sendInfo l.block sb := by
  rw [sendInfo, sendInfo, he.previousBalanceIn_eq hl hget]

/-- Where a destination tells a send among the old blocks, it does so for the new block as well. -/
theorem destination_iff (hl : l.Chained) {destination : Account}
    (hold : ∀ {h sb}, l.block.get h = some sb → (sb.destination = some destination ↔ sendsTo l.block
    sb destination)) (hget : l'.block.get h = some sb) :
    sb.destination = some destination ↔ sendsTo l'.block sb destination := by
  rcases he.eq_or_get hget with ⟨-, rfl⟩ | hget
  · exact he.sends destination
  · rw [sendsTo, he.previousBalanceIn_eq hl hget]
    exact hold hget

/-- The previous balance of the new block is read from the blocks already there. -/
theorem previousBalanceIn_new :
    previousBalanceIn l'.block nb = balanceAfter l.block nb.previous := by
  rw [previousBalanceIn, he.block_eq, balanceAfter, balanceAfter]
  rcases he.stored with hzero | ⟨p, hp⟩
  · simp [hzero]
  · rw [Table.get_put_of_get nb he.fresh hp, hp]

end Extends

end Ledger

end RsNano
