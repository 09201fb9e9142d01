import RsNano.Ledger.Supply
import RsNano.Ledger.Cemented

/-!
# Ledgers that can be rolled back

The planner derives what a head block did from the balances before and after it. This is right
as long as every send lowers the balance and every receive raises it: `Ledger.Balanced`. A
legacy send of zero raw breaks it, because the validator takes every legacy send for a send
whatever its amount; so does a balance that was raised under an epoch link and then overflows.
Without such blocks, rolling back a head block undoes what its insertion did to the pending
table.
-/

namespace RsNano.Ledger

open RollbackPlanner Table Option

/-- A legacy send that leaves the balance as it was. -/
def sendsNothing (l : Ledger) (b : Block) : Prop :=
  match b with
  | .legacySend send => send.balance = balanceAfter l.block send.previous
  | _ => False

instance (l : Ledger) (b : Block) : Decidable (sendsNothing l b) :=
  match b with
  | .legacySend _ => inferInstanceAs (Decidable (_ = _))
  | .legacyReceive _ | .legacyOpen _ | .legacyChange _ | .state _ =>
    inferInstanceAs (Decidable False)

/-- Sends lower the balance, receives raise it, and other blocks leave it alone. -/
structure Balanced (c : LedgerConstants) (l : Ledger) : Prop where
  send : ∀ {h sb destination}, l.block.get h = some sb → sb.destination = some destination →
    sb.balance < previousBalanceIn l.block sb
  receive : ∀ {h sb source}, l.block.get h = some sb → sb.receivedSend c = some source →
    previousBalanceIn l.block sb < sb.balance
  keep : ∀ {h sb}, l.block.get h = some sb → h ≠ c.genesisBlock.hash → sb.destination = none →
    sb.receivedSend c = none → sb.balance = previousBalanceIn l.block sb

variable {c : LedgerConstants} {minWeight : Amount} {l l' : Ledger} {nb head : SavedBlock}
variable {destination : Account} {sb : SavedBlock}

namespace Balanced

/-- The genesis ledger has no sends and no receives. -/
theorem genesis_ledger : (Ledger.genesis c minWeight).Balanced c := by
  refine ⟨?_, ?_, ?_⟩
  · intro h sb destination hget hdest
    obtain ⟨-, rfl⟩ := genesis_block_get.mp hget
    cases hdest
  · intro h sb source hget hrecv
    cases (genesis_receivedSend hget).symm.trans hrecv
  · intro h sb hget hne
    exact absurd (genesis_block_get.mp hget).1 hne

/-- A new send lowers the balance, unless it sends nothing. -/
theorem send_extends (he : Extends c l nb l') (hno : ¬ sendsNothing l nb.block)
    (hdest : nb.destination = some destination) :
    nb.balance < previousBalanceIn l'.block nb := by
  have hsends := (he.sends destination).mp hdest
  rw [sendsTo] at hsends
  cases hblk : nb.block with
  | state state =>
    have hbal : nb.balance = state.balance := by rw [SavedBlock.balance, hblk]
    rw [hblk] at hsends
    rw [hbal]
    exact hsends.1
  | legacySend send =>
    refine BitVec.lt_of_le_ne (he.balance_le hdest) fun heq => hno ?_
    have hbal : nb.balance = send.balance := by rw [SavedBlock.balance, hblk]
    have hprev : nb.previous = send.previous := by rw [SavedBlock.previous, hblk]; rfl
    rw [hblk]
    change send.balance = balanceAfter l.block send.previous
    rw [← hbal, ← hprev, heq, he.previousBalanceIn_new]
  | legacyReceive _ | legacyOpen _ | legacyChange _ => rw [hblk] at hsends; cases hsends

/-- A new receive raises the balance while the supply is bounded. -/
theorem receive_extends (hb : l.Balanced c) (hr : l.Receivables c) (hbound : l.supply < 2 ^ 128)
    (he : Extends c l nb l') {source : BlockHash} (hrecv : nb.receivedSend c = some source) :
    previousBalanceIn l'.block nb < nb.balance := by
  obtain ⟨-, -, entry, hentry, hbal, -⟩ := he.received hrecv
  have hnew := he.toNat_receive hbound hentry hbal
  obtain ⟨sb, hsb, hdest, hentry⟩ := hr.entry hentry
  have hlt : sb.balance.toNat < (previousBalanceIn l.block sb).toNat := hb.send hsb hdest
  have hamt : entry.amount.toNat = (previousBalanceIn l.block sb).toNat - sb.balance.toNat := by
    rw [hentry]
    exact BitVec.toNat_sub_of_le (BitVec.le_of_lt hlt)
  rw [BitVec.lt_def]
  omega

/-- A new block that moves nothing leaves the balance alone. -/
theorem keep_extends (he : Extends c l nb l') (hno : ¬ raisesUnderEpochLink c l nb.block)
    (hdest : nb.destination = none) (hrecv : nb.receivedSend c = none) :
    nb.balance = previousBalanceIn l'.block nb := by
  cases he.transfer with
  | send _ hsome _ _ _ => cases hdest.symm.trans hsome
  | receive _ _ _ hsome _ _ _ _ _ => cases hrecv.symm.trans hsome
  | keep _ _ _ hbal => exact hbal
  | raise _ _ _ hraise => exact absurd hraise hno

/-- Insertions keep the balances telling, if they neither send nothing nor raise a balance under
an epoch link. -/
theorem extends_ledger (hb : l.Balanced c) (hl : l.Chained) (hr : l.Receivables c)
    (hbound : l.supply < 2 ^ 128) (he : Extends c l nb l')
    (hraise : ¬ raisesUnderEpochLink c l nb.block) (hsend : ¬ sendsNothing l nb.block) :
    l'.Balanced c := by
  refine ⟨?_, ?_, ?_⟩
  · intro h sb destination hget hdest
    rcases he.eq_or_get hget with ⟨-, rfl⟩ | hold
    · exact send_extends he hsend hdest
    · rw [he.previousBalanceIn_eq hl hold]
      exact hb.send hold hdest
  · intro h sb source hget hrecv
    rcases he.eq_or_get hget with ⟨-, rfl⟩ | hold
    · exact hb.receive_extends hr hbound he hrecv
    · rw [he.previousBalanceIn_eq hl hold]
      exact hb.receive hold hrecv
  · intro h sb hget hne hdest hrecv
    rcases he.eq_or_get hget with ⟨-, rfl⟩ | hold
    · exact keep_extends he hraise hdest hrecv
    · rw [he.previousBalanceIn_eq hl hold]
      exact hb.keep hold hne hdest hrecv

end Balanced

/-! ### The plan for a head block -/

/-- The destination of a send is what the planner looks up. -/
theorem destinationOrLink_of_destination (h : sb.destination = some destination) :
    sb.block.destinationOrLink = destination := by
  rw [SavedBlock.destination] at h
  cases hblk : sb.block with
  | legacySend send =>
    rw [hblk] at h
    exact some.inj h
  | state state =>
    rw [hblk] at h
    dsimp only at h
    split at h
    · exact some.inj h
    · cases h
  | legacyReceive _ | legacyOpen _ | legacyChange _ => rw [hblk] at h; cases h

/-- The source of a receive is what the planner looks up. -/
theorem sourceOrLink_of_receivedSend {source : BlockHash} (h : sb.receivedSend c = some source) :
    sb.block.sourceOrLink = source := by
  rw [SavedBlock.receivedSend, SavedBlock.source] at h
  cases hblk : sb.block with
  | legacyReceive receive =>
    rw [hblk] at h
    exact some.inj h
  | legacyOpen open_ =>
    rw [hblk] at h
    dsimp only at h
    split at h
    · cases h
    · exact some.inj h
  | state state =>
    rw [hblk] at h
    dsimp only at h
    split at h
    · exact some.inj h
    · cases h
  | legacySend _ | legacyChange _ => rw [hblk] at h; cases h

/-- What the roll-back of a head block does to the pending table: it undoes the transfer of
the block. -/
inductive Retracts (c : LedgerConstants) (l : Ledger) (head : SavedBlock)
    (pending : Table PendingKey PendingInfo) : Prop
  | send (destination : Account)
      (hdest : head.destination = some destination)
      (hpend : pending = l.pending.del ⟨destination, head.hash⟩)
  | receive (source : BlockHash) (sb : SavedBlock)
      (hdest : head.destination = none)
      (hrecv : head.receivedSend c = some source)
      (hsrc : l.block.get source = some sb)
      (hpend : pending = l.pending.put ⟨head.account, source⟩ (sendInfo l.block sb))
  | keep
      (hdest : head.destination = none)
      (hrecv : head.receivedSend c = none)
      (hpend : pending = l.pending)

section

variable {info : AccountInfo} (rep : Option PublicKey) (now : ℕ)

/-- The planner reads the previous balance from the block table. -/
theorem planner_previousBalance :
    (l.planner c head info rep now).previousBalance = previousBalanceIn l.block head := by
  rw [previousBalanceIn, balanceAfter]
  change ((l.previousBlock head).map SavedBlock.balance).getD 0 = _
  rw [Ledger.previousBlock, getBlock]
  by_cases hprev : head.previous = 0
  · simp [hprev]
  · simp [hprev]

variable (hh : l.IsHead head info) (hl : l.Chained)
  {weights cache : Table PublicKey Amount}

include hh hl

namespace IsHead

/-- A head block that lowers the balance is planned as a send. -/
theorem blockSubType_send (hlt : head.balance < previousBalanceIn l.block head) :
    (l.planner c head info rep now).blockSubType = .send := by
  rw [hh.balance_eq hl] at hlt
  rw [blockSubType, planner_previousBalance]
  exact if_pos hlt

/-- A head block that raises the balance is planned as a receive. -/
theorem blockSubType_receive (hlt : previousBalanceIn l.block head < head.balance) :
    (l.planner c head info rep now).blockSubType = .open ∨
      (l.planner c head info rep now).blockSubType = .receive := by
  rw [hh.balance_eq hl] at hlt
  have hnot : ¬ info.balance < previousBalanceIn l.block head :=
    BitVec.not_lt.mpr (BitVec.le_of_lt hlt)
  have htype : (l.planner c head info rep now).blockSubType =
      if head.block.isOpen then .open else .receive := by
    rw [blockSubType, planner_previousBalance]
    exact (if_neg hnot).trans (if_pos hlt)
  rw [htype]
  cases head.block.isOpen with
  | true => exact .inl rfl
  | false => exact .inr rfl

/-- A head block that leaves the balance alone is planned as neither. -/
theorem blockSubType_keep (heq : head.balance = previousBalanceIn l.block head) :
    (l.planner c head info rep now).blockSubType = .epoch ∨
      (l.planner c head info rep now).blockSubType = .change := by
  rw [hh.balance_eq hl] at heq
  have hnot : ¬ info.balance < previousBalanceIn l.block head := by rw [heq]; exact BitVec.lt_irrefl _
  have hnot' : ¬ previousBalanceIn l.block head < info.balance := by
    rw [heq]; exact BitVec.lt_irrefl _
  rw [blockSubType, planner_previousBalance]
  rw [if_neg (show ¬ (l.planner c head info rep now).currentAccountInfo.balance < _ from hnot),
    if_neg (show ¬ _ < (l.planner c head info rep now).currentAccountInfo.balance from hnot')]
  split
  · exact .inl rfl
  · exact .inr rfl

/-- The pending table after the roll-back of a head block that lowered the balance. -/
theorem pending_lowered (hlt : head.balance < previousBalanceIn l.block head) :
    (l.afterHead c head info rep now weights cache).pending =
      l.pending.del ⟨head.block.destinationOrLink, head.hash⟩ := by
  change pendingWith (l.pendingWithout (l.planner c head info rep now).removePending)
    (l.planner c head info rep now).addPending = _
  rw [removePending, addPending, hh.blockSubType_send rep now hl hlt, if_pos rfl]
  rfl

/-- The pending table after the roll-back of a head block that raised the balance. -/
theorem pending_raised (hlt : previousBalanceIn l.block head < head.balance) :
    (l.afterHead c head info rep now weights cache).pending =
      l.pending.put ⟨head.account, head.block.sourceOrLink⟩
        ⟨(l.blockAccount head.block.sourceOrLink).getD 0,
          head.balance - previousBalanceIn l.block head, head.sourceEpoch⟩ := by
  change pendingWith (l.pendingWithout (l.planner c head info rep now).removePending)
    (l.planner c head info rep now).addPending = _
  have hplanned : pendingWith (l.pendingWithout (l.planner c head info rep now).removePending)
      (l.planner c head info rep now).addPending =
      l.pending.put ⟨head.account, head.block.sourceOrLink⟩
        ⟨(l.blockAccount head.block.sourceOrLink).getD 0,
          info.balance - (l.planner c head info rep now).previousBalance, head.sourceEpoch⟩ := by
    rw [removePending, addPending]
    rcases hh.blockSubType_receive rep now hl hlt with htype | htype
    · rw [htype]; rfl
    · rw [htype]; rfl
  rw [hplanned, planner_previousBalance, hh.balance_eq hl]

/-- The pending table after the roll-back of a head block that left the balance alone. -/
theorem pending_kept (heq : head.balance = previousBalanceIn l.block head) :
    (l.afterHead c head info rep now weights cache).pending = l.pending := by
  change pendingWith (l.pendingWithout (l.planner c head info rep now).removePending)
    (l.planner c head info rep now).addPending = _
  rw [removePending, addPending]
  rcases hh.blockSubType_keep rep now hl heq with htype | htype
  · rw [htype]; rfl
  · rw [htype]; rfl

/-- The plan for an unconfirmed head block undoes its transfer. -/
theorem retracts_plan (hr : l.Receivables c) (hb : l.Balanced c)
    (hgen : head.hash ≠ c.genesisBlock.hash) :
    l.Retracts c head (l.afterHead c head info rep now weights cache).pending := by
  cases hdest : head.destination with
  | some destination =>
    refine .send destination hdest ?_
    rw [hh.pending_lowered rep now hl (hb.send hh.stored hdest),
      destinationOrLink_of_destination hdest]
  | none =>
    cases hrecv : head.receivedSend c with
    | some source =>
      obtain ⟨sb, hsb, -, hbal, hep⟩ := hr.received hh.stored hrecv
      refine .receive source sb hdest hrecv hsb ?_
      have hne := hl.linked.hash_ne_zero hsb
      have hamt : head.balance - previousBalanceIn l.block head = (sendInfo l.block sb).amount := by
        rw [hbal, add_sub_cancel_left]
      rw [hh.pending_raised rep now hl (hb.receive hh.stored hrecv),
        sourceOrLink_of_receivedSend hrecv, hamt, hep]
      simp [blockAccount, getBlock, hne, hsb, sendInfo]
    | none =>
      refine .keep hdest hrecv ?_
      exact hh.pending_kept rep now hl (hb.keep hh.stored hgen hdest hrecv)

/-- What is planned as a send has lowered the balance. -/
theorem lowered_of_blockSubType (htype : (l.planner c head info rep now).blockSubType = .send) :
    head.balance < previousBalanceIn l.block head := by
  rw [hh.balance_eq hl]
  by_contra hnot
  rw [blockSubType, planner_previousBalance] at htype
  rw [if_neg (show ¬ (l.planner c head info rep now).currentAccountInfo.balance < _ from hnot)]
    at htype
  split at htype
  · split at htype <;> cases htype
  · split at htype <;> cases htype

variable (hentry : head.balance < previousBalanceIn l.block head →
    ∃ entry, l.pending.get ⟨head.block.destinationOrLink, head.hash⟩ = some entry)

include hentry

/-- The instructions for a head block can be executed, if it has not lowered the balance or its
entry is there. -/
theorem revertible : l.Revertible (l.planner c head info rep now).instructions := by
  refine ⟨?_, fun _ => ⟨info, hh.account⟩, ?_⟩
  · intro key hkey
    change (l.planner c head info rep now).removePending = some key at hkey
    rw [removePending] at hkey
    split at hkey
    · next htype =>
      obtain rfl := some.inj hkey
      exact hentry (hh.lowered_of_blockSubType rep now hl htype)
    · cases hkey
  · intro hash hclear
    change (l.previousBlock head).map SavedBlock.hash = some hash at hclear
    rcases hh.previousBlock hl with ⟨-, hnone⟩ | ⟨p, -, hsome, hp, -⟩
    · rw [hnone] at hclear
      cases hclear
    · rw [hsome] at hclear
      obtain rfl := some.inj hclear
      refine ⟨head.hash, hl.successor.mpr ⟨p.block.hash_ne_zero, head, hh.stored, ?_⟩⟩
      exact (hl.linked.hash_eq hp).symm

/-- An unconfirmed head block is rolled back, if it has not lowered the balance or its entry is
there. -/
theorem plan_rollBack
    (hhigh : ¬ head.height ≤ ((l.confirmationHeight.get head.account).getD default).height) :
    ∃ rep weights cache, l.rollBackHeadBlock c head now =
        .ok (.ok (.rollBackBlock (l.planner c head info rep now).instructions)) ∧
      l.executeRollback (l.planner c head info rep now).instructions =
        .ok (l.afterHead c head info rep now weights cache) ∧
      l.RollsBackHead c head (l.afterHead c head info rep now weights cache) := by
  obtain ⟨rep, -, hplan⟩ := hh.rollBackHeadBlock_eq hl now
  have hsend : ¬ ((l.planner c head info rep now).blockSubType = .send ∧
      l.getPending ⟨head.block.destinationOrLink, head.hash⟩ = none) := by
    rintro ⟨htype, hnone⟩
    obtain ⟨entry, hget⟩ := hentry (hh.lowered_of_blockSubType rep now hl htype)
    cases hnone.symm.trans hget
  rw [if_neg hhigh, if_neg hsend] at hplan
  obtain ⟨weights, cache, hexec⟩ := executeRollback_eq_ok
    (l.planner c head info rep now).instructions
  have hdone := (hexec _).mpr ⟨hh.revertible rep now hl hentry, rfl⟩
  exact ⟨rep, weights, cache, hplan, hdone, now, info, _, hh, hplan, hdone⟩

end IsHead

end

/-! ### The pending table after a roll-back -/

section

variable {x : BlockHash} {sb : SavedBlock} (hl : l.Chained) (h : l.RollsBackHead c head l')

include h

/-- The head block is in the ledger before its roll-back. -/
theorem RollsBackHead.stored : l.block.get head.hash = some head := by
  obtain ⟨-, info, i, hh, -⟩ := h
  exact hh.stored

include hl

/-- The blocks that stay were there before, and are not the head block. -/
theorem RollsBackHead.get_iff :
    l'.block.get x = some sb ↔ x ≠ head.hash ∧ l.block.get x = some sb := by
  rw [h.block_eq hl, get_del]
  split
  · next heq => simp [heq]
  · next hne => simp [hne]

/-- The head block is gone after its roll-back. -/
theorem RollsBackHead.gone : l'.block.get head.hash = none := by
  rw [h.block_eq hl, get_del_self]

/-- The previous balances of the blocks that stay are the same. -/
theorem RollsBackHead.previousBalanceIn_eq (hget : l.block.get x = some sb) :
    previousBalanceIn l'.block sb = previousBalanceIn l.block sb := by
  have hne : sb.previous ≠ head.hash := by
    obtain ⟨-, info, i, hh, -⟩ := h
    rw [← hh.head_eq]
    exact hl.previous_ne_head hh.account hget
  rw [previousBalanceIn, previousBalanceIn, balanceAfter, balanceAfter, h.block_eq hl,
    get_del_of_ne _ hne]

/-- The entries of the sends that stay are the same. -/
theorem RollsBackHead.sendInfo_eq (hget : l.block.get x = some sb) :
    sendInfo l'.block sb = sendInfo l.block sb := by
  rw [sendInfo, sendInfo, h.previousBalanceIn_eq hl hget]

/-- Rolling back a head block keeps the balances telling. -/
theorem Balanced.rollsBackHead (hb : l.Balanced c) : l'.Balanced c := by
  refine ⟨?_, ?_, ?_⟩
  · intro x sb destination hget hdest
    have hold := ((h.get_iff hl).mp hget).2
    rw [h.previousBalanceIn_eq hl hold]
    exact hb.send hold hdest
  · intro x sb source hget hrecv
    have hold := ((h.get_iff hl).mp hget).2
    rw [h.previousBalanceIn_eq hl hold]
    exact hb.receive hold hrecv
  · intro x sb hget hne hdest hrecv
    have hold := ((h.get_iff hl).mp hget).2
    rw [h.previousBalanceIn_eq hl hold]
    exact hb.keep hold hne hdest hrecv

end

/-- The previous balances of the blocks that stay are the same after many roll-backs. -/
theorem HeadSteps.previousBalanceIn_eq (hl : l.Chained) (h : HeadSteps c l l')
    (hget : l'.block.get x = some sb) :
    previousBalanceIn l'.block sb = previousBalanceIn l.block sb := by
  revert hget
  refine h.invariant hl (fun _ => rfl) fun hl1 ih hroll hget => ?_
  have hold := ((hroll.get_iff hl1).mp hget).2
  rw [hroll.previousBalanceIn_eq hl1 hold]
  exact ih hold

/-- The ledgers in which every roll-back can be planned: the account chains, the pending table,
the cemented set and the balances are in order. -/
structure Reversible (c : LedgerConstants) (l : Ledger) : Prop where
  chained : l.Chained
  receivables : l.Receivables c
  cemented : l.Cemented c
  balanced : l.Balanced c
  genesis : l.Confirmed c.genesisBlock.hash

namespace Reversible

/-- A receive is no send. -/
theorem destination_of_receivedSend (hb : l.Balanced c) {x source : BlockHash}
    (hget : l.block.get x = some sb) (hrecv : sb.receivedSend c = some source) :
    sb.destination = none := by
  by_contra hsome
  obtain ⟨destination, hdest⟩ := ne_none_iff_exists'.mp hsome
  exact BitVec.lt_asymm (hb.send hget hdest) (hb.receive hget hrecv)

section

variable (hrev : l.Reversible c) (h : l.RollsBackHead c head l')

include hrev h

/-- What is rolled back is not the genesis block. -/
theorem hash_ne_genesis : head.hash ≠ c.genesisBlock.hash := by
  intro heq
  obtain ⟨sb, hsb, hle⟩ := hrev.genesis
  rw [← heq, h.stored] at hsb
  cases hsb
  have hlt : l.confirmedHeight head.account < head.height := h.not_confirmed hrev.chained
  omega

/-- A roll-back undoes the transfer of the head block. -/
theorem retracts : l.Retracts c head l'.pending := by
  have hne := hrev.hash_ne_genesis h
  obtain ⟨now, info, rep, -, -, hh, -, -, -, -, rfl⟩ := h.spec hrev.chained
  exact hh.retracts_plan rep now hrev.chained hrev.receivables hrev.balanced hne

/-- A send that is rolled back has not been received. -/
theorem entry_of_send (hdest : head.destination = some destination) :
    ∃ info, l.pending.get ⟨destination, head.hash⟩ = some info := by
  obtain ⟨now, info, rep, -, -, hh, -, -, hsend, -⟩ := h.spec hrev.chained
  rw [destinationOrLink_of_destination hdest] at hsend
  exact hsend (hh.blockSubType_send rep now hrev.chained (hrev.balanced.send hh.stored hdest))

variable {destination : Account} {x : BlockHash}

/-- Every entry that is left belongs to a send that is left. -/
theorem entry_rollsBackHead {info : PendingInfo}
    (hentry : l'.pending.get ⟨destination, x⟩ = some info) :
    ∃ sb, l'.block.get x = some sb ∧ sb.destination = some destination ∧
      info = sendInfo l'.block sb := by
  have hl := hrev.chained
  have hold : head.destination ≠ some destination ∨ x ≠ head.hash →
      l.pending.get ⟨destination, x⟩ = some info →
      ∃ sb, l'.block.get x = some sb ∧ sb.destination = some destination ∧
        info = sendInfo l'.block sb := by
    intro hne hold
    obtain ⟨sb, hsb, hdest, hinfo⟩ := hrev.receivables.entry hold
    refine ⟨sb, (h.get_iff hl).mpr ⟨?_, hsb⟩, hdest, hinfo.trans (h.sendInfo_eq hl hsb).symm⟩
    rintro rfl
    cases hsb.symm.trans h.stored
    exact hne.elim (fun hne => hne hdest) (fun hne => hne rfl)
  cases hrev.retracts h with
  | send d hd hpend =>
    rw [hpend] at hentry
    obtain ⟨hkey, hentry⟩ := get_of_get_del hentry
    refine hold ?_ hentry
    by_contra hboth
    simp only [not_or, not_not] at hboth
    obtain ⟨hd', rfl⟩ := hboth
    cases hd.symm.trans hd'
    exact hkey rfl
  | receive source sb hd hrecv hsrc hpend =>
    rw [hpend] at hentry
    rcases eq_or_of_get_put hentry with ⟨hkey, rfl⟩ | ⟨-, hentry⟩
    · cases hkey
      obtain ⟨sb', hsb', hdest, -⟩ := hrev.receivables.received h.stored hrecv
      cases hsrc.symm.trans hsb'
      refine ⟨sb, (h.get_iff hl).mpr ⟨?_, hsrc⟩, hdest, (h.sendInfo_eq hl hsrc).symm⟩
      rintro rfl
      cases hsrc.symm.trans h.stored
      cases hd.symm.trans hdest
    · exact hold (.inl (by simp [hd])) hentry
  | keep hd _ hpend => exact hold (.inl (by simp [hd])) (hpend ▸ hentry)

/-- No block that is left has received the send of an entry. -/
theorem unreceived_rollsBackHead {y : BlockHash} {info : PendingInfo} {rb : SavedBlock}
    (hentry : l'.pending.get ⟨destination, x⟩ = some info) (hget : l'.block.get y = some rb) :
    rb.receivedSend c ≠ some x := by
  obtain ⟨hne, hrb⟩ := (h.get_iff hrev.chained).mp hget
  cases hrev.retracts h with
  | send d _ hpend =>
    rw [hpend] at hentry
    exact hrev.receivables.unreceived (get_of_get_del hentry).2 hrb
  | receive source sb _ hrecv _ hpend =>
    rw [hpend] at hentry
    rcases eq_or_of_get_put hentry with ⟨hkey, -⟩ | ⟨-, hentry⟩
    · cases hkey
      intro hsame
      exact hne (hrev.receivables.once hrb h.stored hsame hrecv)
    · exact hrev.receivables.unreceived hentry hrb
  | keep _ _ hpend => exact hrev.receivables.unreceived (hpend ▸ hentry) hrb

/-- Every send that is left has an entry or a receive. -/
theorem complete_rollsBackHead (hget : l'.block.get x = some sb)
    (hdest : sb.destination = some destination) :
    (∃ info, l'.pending.get ⟨destination, x⟩ = some info) ∨
      ∃ y rb, l'.block.get y = some rb ∧ rb.receivedSend c = some x := by
  obtain ⟨hne, hsb⟩ := (h.get_iff hrev.chained).mp hget
  have hrcv : head.receivedSend c ≠ some x →
      (∃ y rb, l.block.get y = some rb ∧ rb.receivedSend c = some x) →
      ∃ y rb, l'.block.get y = some rb ∧ rb.receivedSend c = some x := by
    rintro hnot ⟨y, rb, hrb, hsame⟩
    refine ⟨y, rb, (h.get_iff hrev.chained).mpr ⟨?_, hrb⟩, hsame⟩
    rintro rfl
    cases hrb.symm.trans h.stored
    exact hnot hsame
  have hcomplete := hrev.receivables.complete hsb hdest
  cases hrev.retracts h with
  | send d hd hpend =>
    have hnot : head.receivedSend c ≠ some x := by
      intro hsame
      cases (destination_of_receivedSend hrev.balanced h.stored hsame).symm.trans hd
    rw [hpend, get_del_of_ne]
    · exact hcomplete.imp_right (hrcv hnot)
    · intro hkey
      exact hne (congrArg PendingKey.sendBlockHash hkey)
  | receive source sb' hd hrecv hsrc hpend =>
    rw [hpend]
    by_cases hsame : source = x
    · -- the receive that is rolled back gives the entry back
      subst hsame
      obtain ⟨sb'', hsb'', hdest', -⟩ := hrev.receivables.received h.stored hrecv
      cases hsb.symm.trans hsb''
      cases hdest.symm.trans hdest'
      exact .inl ⟨_, get_put_self _ _ _⟩
    · refine hcomplete.imp ?_ (hrcv (by simp [hrecv, hsame]))
      rintro ⟨info, hinfo⟩
      rw [get_put]
      split
      · exact ⟨_, rfl⟩
      · exact ⟨info, hinfo⟩
  | keep hd hrecv hpend =>
    rw [hpend]
    exact hcomplete.imp_right (hrcv (by simp [hrecv]))

/-- The send of a receive that is left is left. -/
theorem received_rollsBackHead {y : BlockHash} {rb : SavedBlock} (hget : l'.block.get y = some rb)
    (hrecv : rb.receivedSend c = some x) :
    ∃ sb, l'.block.get x = some sb ∧ sb.destination = some rb.account ∧
      rb.balance = previousBalanceIn l'.block rb + (sendInfo l'.block sb).amount ∧
      rb.sourceEpoch = sb.epoch := by
  have hl := hrev.chained
  have hrb := ((h.get_iff hl).mp hget).2
  obtain ⟨sb, hsb, hdest, hbal, hep⟩ := hrev.receivables.received hrb hrecv
  refine ⟨sb, (h.get_iff hl).mpr ⟨?_, hsb⟩, hdest, ?_, hep⟩
  · rintro rfl
    cases hsb.symm.trans h.stored
    obtain ⟨info, hinfo⟩ := hrev.entry_of_send h hdest
    exact hrev.receivables.unreceived hinfo hrb hrecv
  · rw [h.sendInfo_eq hl hsb, h.previousBalanceIn_eq hl hrb]
    exact hbal

/-- Rolling back a head block keeps the pending table exact. -/
theorem receivables_rollsBackHead : l'.Receivables c := by
  have hl := hrev.chained
  refine ⟨?_, hrev.entry_rollsBackHead h, hrev.unreceived_rollsBackHead h,
    hrev.complete_rollsBackHead h, hrev.received_rollsBackHead h, ?_, ?_, ?_⟩
  · exact (hrev.cemented.rollsBackHead hl h).genesis_account (hl.rollsBackHead h)
  · intro y y' rb rb' x hget hget'
    exact hrev.receivables.once ((h.get_iff hl).mp hget).2 ((h.get_iff hl).mp hget').2
  · intro x sb destination hget
    have hsb := ((h.get_iff hl).mp hget).2
    rw [sendsTo, h.previousBalanceIn_eq hl hsb]
    exact hrev.receivables.sends hsb
  · intro x sb destination hget hdest
    have hsb := ((h.get_iff hl).mp hget).2
    rw [h.previousBalanceIn_eq hl hsb]
    exact hrev.receivables.decreases hsb hdest

/-- Rolling back a head block keeps the ledger in order. -/
theorem rollsBackHead : l'.Reversible c :=
  ⟨hrev.chained.rollsBackHead h, hrev.receivables_rollsBackHead h,
    hrev.cemented.rollsBackHead hrev.chained h, hrev.balanced.rollsBackHead hrev.chained h,
    (h.keepsConfirmed hrev.chained).confirmed hrev.genesis⟩

end

/-- A sequence of head roll-backs keeps the ledger in order. -/
theorem headSteps (hrev : l.Reversible c) (h : HeadSteps c l l') : l'.Reversible c :=
  h.invariant hrev.chained hrev fun _ ih hhead => ih.rollsBackHead hhead

/-- Insertions that neither send nothing nor raise a balance under an epoch link keep the ledger
in order. -/
theorem inserts (hrev : l.Reversible c) (hbound : l.supply < 2 ^ 128) {b : Block}
    (hraise : ¬ raisesUnderEpochLink c l b) (hsend : ¬ sendsNothing l b) (h : l.Inserts c b l') :
    l'.Reversible c ∧ l'.supply = l.supply := by
  obtain ⟨nb, rfl, he⟩ := h.extends_ledger hrev.chained hrev.receivables.genesis
  exact ⟨⟨hrev.chained.insert h, hrev.receivables.extends_ledger hrev.chained he,
    hrev.cemented.extends_ledger (hrev.chained.insert h) he,
    hrev.balanced.extends_ledger hrev.chained hrev.receivables hbound he hraise hsend,
    he.keepsConfirmed.confirmed hrev.genesis⟩, supply_extends hrev.receivables he hraise hbound⟩

/-- The genesis ledger is in order. -/
theorem genesis_ledger : (Ledger.genesis c minWeight).Reversible c := by
  refine ⟨Chained.genesis, Receivables.genesis_ledger, Cemented.genesis_ledger,
    Balanced.genesis_ledger, c.savedGenesis.stored, genesis_block_get.mpr ⟨rfl, rfl⟩, ?_⟩
  have hconf : (Ledger.genesis c minWeight).confirmationHeight.get c.genesisAccount =
      some ⟨1, c.genesisBlock.hash⟩ := get_put_self _ _ _
  exact (confirmedHeight_of_get hconf).ge

end Reversible

end RsNano.Ledger
