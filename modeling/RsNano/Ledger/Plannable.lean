import RsNano.Ledger.Dependents

/-!
# Ledgers on which the planner does not fail

The planner takes a head block that lowers the balance for a send. It needs the pending entry
of the send, or else an account at its destination. `Ledger.Plannable` is what guarantees this
and survives roll-backs. It is weaker than `Ledger.Reversible`: nothing is said about blocks
that leave the balance alone, so sends of nothing and their receives are allowed, although a
roll-back can separate them.
-/

namespace RsNano.Ledger

/-- Blocks that lower the balance are sends, and they have their entry or their receive. -/
structure Plannable (c : LedgerConstants) (l : Ledger) : Prop where
  chained : l.Chained
  cemented : l.Cemented c
  genesis : l.Confirmed c.genesisBlock.hash
  sends : ∀ {x sb}, l.block.get x = some sb → x ≠ c.genesisBlock.hash →
    sb.balance < previousBalanceIn l.block sb → ∃ destination, sb.destination = some destination ∧
      ((∃ info, l.pending.get ⟨destination, x⟩ = some info) ∨
        ∃ y rb, l.block.get y = some rb ∧ rb.receivedSend c = some x)
  receives : ∀ {x y sb rb}, l.block.get x = some sb → l.block.get y = some rb →
    rb.receivedSend c = some x → sb.balance < previousBalanceIn l.block sb →
      sb.destination = some rb.account ∧ previousBalanceIn l.block rb < rb.balance

variable {c : LedgerConstants} {l l' : Ledger} {head : SavedBlock} {sb : SavedBlock}

/-- A block that lowers the balance of a reversible ledger is a send. -/
theorem Reversible.destination_of_lowered (hrev : l.Reversible c) {x : BlockHash}
    (hget : l.block.get x = some sb) (hgen : x ≠ c.genesisBlock.hash)
    (hlt : sb.balance < previousBalanceIn l.block sb) :
    ∃ destination, sb.destination = some destination := by
  rw [← Option.ne_none_iff_exists']
  intro hdest
  cases hrecv : sb.receivedSend c with
  | some source => exact BitVec.lt_asymm hlt (hrev.balanced.receive hget hrecv)
  | none =>
    rw [← hrev.balanced.keep hget hgen hdest hrecv] at hlt
    exact BitVec.lt_irrefl _ hlt

/-- The planner does not fail on reversible ledgers. -/
theorem Reversible.plannable (hrev : l.Reversible c) : l.Plannable c := by
  refine ⟨hrev.chained, hrev.cemented, hrev.genesis, ?_, ?_⟩
  · intro x sb hget hgen hlt
    obtain ⟨destination, hdest⟩ := hrev.destination_of_lowered hget hgen hlt
    exact ⟨destination, hdest, hrev.receivables.complete hget hdest⟩
  · intro x y sb rb hget hrb hrecv _
    obtain ⟨sb', hsb', hdest, -⟩ := hrev.receivables.received hrb hrecv
    cases hget.symm.trans hsb'
    exact ⟨hdest, hrev.balanced.receive hrb hrecv⟩

/-- A roll-back removes no entry but that of the head block. -/
theorem RollsBackHead.entry_of_entry (hl : l.Chained) (h : l.RollsBackHead c head l')
    {destination : Account} {x : BlockHash} {info : PendingInfo} (hne : x ≠ head.hash)
    (hent : l.pending.get ⟨destination, x⟩ = some info) :
    ∃ info', l'.pending.get ⟨destination, x⟩ = some info' := by
  obtain ⟨now, info', rep, -, -, hh, -, -, -, -, rfl⟩ := h.spec hl
  by_cases hlowered : head.balance < previousBalanceIn l.block head
  · rw [hh.pending_lowered rep now hl hlowered, Table.get_del_of_ne]
    · exact ⟨info, hent⟩
    · intro hkey
      exact hne (congrArg PendingKey.sendBlockHash hkey)
  · by_cases hraised : previousBalanceIn l.block head < head.balance
    · rw [hh.pending_raised rep now hl hraised, Table.get_put]
      split
      · exact ⟨_, rfl⟩
      · exact ⟨info, hent⟩
    · rw [hh.pending_kept rep now hl
        (BitVec.le_antisymm (BitVec.not_lt.mp hraised) (BitVec.not_lt.mp hlowered))]
      exact ⟨info, hent⟩

namespace Plannable

variable (hp : l.Plannable c)

include hp

variable {x : BlockHash}

/-- The receive that is rolled back gives the entry of its send back. -/
theorem entry_of_receive (h : l.RollsBackHead c head l') (hget : l.block.get x = some sb)
    (hlt : sb.balance < previousBalanceIn l.block sb) (hrecv : head.receivedSend c = some x) :
    ∃ info, l'.pending.get ⟨head.account, x⟩ = some info := by
  have hraised := (hp.receives hget h.stored hrecv hlt).2
  obtain ⟨now, info, rep, -, -, hh, -, -, -, -, rfl⟩ := h.spec hp.chained
  rw [hh.pending_raised rep now hp.chained hraised, sourceOrLink_of_receivedSend hrecv,
    Table.get_put_self]
  exact ⟨_, rfl⟩

/-- A send that is left keeps its entry or its receive. -/
theorem sends_rollsBackHead (h : l.RollsBackHead c head l') (hget : l'.block.get x = some sb)
    (hgen : x ≠ c.genesisBlock.hash) (hlt : sb.balance < previousBalanceIn l'.block sb) :
    ∃ destination, sb.destination = some destination ∧
      ((∃ info, l'.pending.get ⟨destination, x⟩ = some info) ∨
        ∃ y rb, l'.block.get y = some rb ∧ rb.receivedSend c = some x) := by
  have hl := hp.chained
  obtain ⟨hne, hold⟩ := (h.get_iff hl).mp hget
  rw [h.previousBalanceIn_eq hl hold] at hlt
  obtain ⟨destination, hdest, ⟨info, hent⟩ | ⟨y, rb, hrb, hrecv⟩⟩ := hp.sends hold hgen hlt
  · exact ⟨destination, hdest, .inl (h.entry_of_entry hl hne hent)⟩
  · refine ⟨destination, hdest, ?_⟩
    by_cases hy : y = head.hash
    · subst hy
      cases hrb.symm.trans h.stored
      obtain ⟨hsame, -⟩ := hp.receives hold hrb hrecv hlt
      cases hdest.symm.trans hsame
      exact .inl (hp.entry_of_receive h hold hlt hrecv)
    · exact .inr ⟨y, rb, (h.get_iff hl).mpr ⟨hy, hrb⟩, hrecv⟩

/-- Rolling back a head block keeps the ledger plannable. -/
theorem rollsBackHead (h : l.RollsBackHead c head l') : l'.Plannable c := by
  have hl := hp.chained
  refine ⟨hl.rollsBackHead h, hp.cemented.rollsBackHead hl h,
    (h.keepsConfirmed hl).confirmed hp.genesis, hp.sends_rollsBackHead h, ?_⟩
  intro x y sb rb hget hrb hrecv hlt
  have hsb := ((h.get_iff hl).mp hget).2
  have hrb := ((h.get_iff hl).mp hrb).2
  rw [h.previousBalanceIn_eq hl hsb] at hlt
  rw [h.previousBalanceIn_eq hl hrb]
  exact hp.receives hsb hrb hrecv hlt

/-- A sequence of head roll-backs keeps the ledger plannable. -/
theorem headSteps (h : HeadSteps c l l') : l'.Plannable c :=
  h.invariant hp.chained hp fun _ ih hhead => ih.rollsBackHead hhead

/-- The planner asks for the roll-back of the destination of a send that has been received. -/
theorem plan_request {info : AccountInfo} (hh : l.IsHead head info)
    (hconf : ¬ l.Confirmed head.hash) (hlt : head.balance < previousBalanceIn l.block head)
    (hnone : l.pending.get ⟨head.block.destinationOrLink, head.hash⟩ = none) :
    ∃ y rb info', l.block.get y = some rb ∧ rb.receivedSend c = some head.hash ∧
      l.account.get rb.account = some info' ∧
      ∀ now, l.rollBackHeadBlock c head now =
        .ok (.ok (.requestDependencyRollback info'.head)) := by
  obtain ⟨destination, hdest, ⟨info', hinfo'⟩ | ⟨y, rb, hrb, hrecv⟩⟩ :=
    hp.sends hh.stored (fun heq => hconf (heq ▸ hp.genesis)) hlt
  · rw [destinationOrLink_of_destination hdest] at hnone
    cases hnone.symm.trans hinfo'
  · obtain ⟨hsame, -⟩ := hp.receives hh.stored hrb hrecv hlt
    obtain ⟨info', hinfo', -⟩ := hp.chained.owner hrb
    refine ⟨y, rb, info', hrb, hrecv, hinfo', fun now => ?_⟩
    obtain ⟨rep, -, hplan⟩ := hh.rollBackHeadBlock_eq hp.chained now
    have hhigh : ¬ head.height ≤ ((l.confirmationHeight.get head.account).getD default).height :=
      fun hle => hconf ⟨head, hh.stored, hle⟩
    rw [hplan, if_neg hhigh, if_pos ⟨hh.blockSubType_send rep now hp.chained hlt, hnone⟩,
      destinationOrLink_of_destination hsame, accountHead, getAccount, hinfo']
    rfl

end Plannable

end RsNano.Ledger
