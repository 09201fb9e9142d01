import RsNano.Ledger.Transfer
import RsNano.Ledger.Run

/-!
# The receivable table

`Ledger.Receivables` ties the pending table to the block table. An entry stands for a send in
the ledger that no block has received; every other send has exactly one receive, in the account
it was sent to, that took over its amount and its epoch. Amounts are 128-bit words here, so
nothing is said about overflow.
-/

namespace RsNano.Ledger

open Table

/-- The pending table lists the sends that have not been received. -/
structure Receivables (c : LedgerConstants) (l : Ledger) : Prop where
  genesis : ∃ info, l.account.get c.genesisAccount = some info
  entry : ∀ {destination h info}, l.pending.get ⟨destination, h⟩ = some info →
    ∃ sb, l.block.get h = some sb ∧ sb.destination = some destination ∧
      info = sendInfo l.block sb
  unreceived : ∀ {destination h info h' rb}, l.pending.get ⟨destination, h⟩ = some info →
    l.block.get h' = some rb → rb.receivedSend c ≠ some h
  complete : ∀ {h sb destination}, l.block.get h = some sb → sb.destination = some destination →
    (∃ info, l.pending.get ⟨destination, h⟩ = some info) ∨
      ∃ h' rb, l.block.get h' = some rb ∧ rb.receivedSend c = some h
  received : ∀ {h' rb h}, l.block.get h' = some rb → rb.receivedSend c = some h →
    ∃ sb, l.block.get h = some sb ∧ sb.destination = some rb.account ∧
      rb.balance = previousBalanceIn l.block rb + (sendInfo l.block sb).amount ∧
      rb.sourceEpoch = sb.epoch
  once : ∀ {h' h'' rb rb' h}, l.block.get h' = some rb → l.block.get h'' = some rb' →
    rb.receivedSend c = some h → rb'.receivedSend c = some h → h' = h''
  sends : ∀ {h sb destination}, l.block.get h = some sb →
    (sb.destination = some destination ↔ sendsTo l.block sb destination)
  decreases : ∀ {h sb destination}, l.block.get h = some sb → sb.destination = some destination →
    sb.balance ≤ previousBalanceIn l.block sb

namespace Receivables

variable {c : LedgerConstants} {l l' : Ledger} {nb : SavedBlock}

section

variable (hr : l.Receivables c) (hl : l.Chained) (he : Extends c l nb l')

include hr he

variable {destination : Account} {h h' : BlockHash} {rb : SavedBlock}

/-- No block has received the send of an entry. -/
theorem unreceived_extends {info : PendingInfo}
    (hent : l'.pending.get ⟨destination, h⟩ = some info) (hget : l'.block.get h' = some rb) :
    rb.receivedSend c ≠ some h := by
  have hold : nb.receivedSend c ≠ some h → l.pending.get ⟨destination, h⟩ = some info →
      rb.receivedSend c ≠ some h := by
    intro hnb hold
    rcases he.eq_or_get hget with ⟨-, rfl⟩ | hget
    · exact hnb
    · exact hr.unreceived hold hget
  cases he.transfer with
  | send d _ hrecv hpend _ =>
    rw [hpend] at hent
    rcases eq_or_of_get_put hent with ⟨hkey, -⟩ | ⟨-, hent⟩
    · cases hkey
      rcases he.eq_or_get hget with ⟨-, rfl⟩ | hget
      · simp [hrecv]
      · intro hsame
        obtain ⟨sb, hsb, -⟩ := hr.received hget hsame
        cases he.fresh.symm.trans hsb
    · exact hold (by simp [hrecv]) hent
  | receive source info' _ hrecv hconsumed _ hpend _ _ =>
    rw [hpend] at hent
    obtain ⟨hne, hoth⟩ := get_of_get_del hent
    refine hold ?_ hoth
    intro hsame
    obtain rfl : source = h := Option.some.inj (hrecv.symm.trans hsame)
    -- a send has one destination, so the entry would be the one that was consumed
    obtain ⟨sb, hsb, hd, -⟩ := hr.entry hoth
    obtain ⟨sb', hsb', hd', -⟩ := hr.entry hconsumed
    cases hsb.symm.trans hsb'
    exact hne (by rw [Option.some.inj (hd.symm.trans hd')])
  | keep _ hrecv hpend _
  | raise _ hrecv hpend _ => exact hold (by simp [hrecv]) (hpend ▸ hent)

/-- Every send has an entry or a receive. -/
theorem complete_extends {sb : SavedBlock} (hget : l'.block.get h = some sb)
    (hdest : sb.destination = some destination) :
    (∃ info, l'.pending.get ⟨destination, h⟩ = some info) ∨
      ∃ h' rb, l'.block.get h' = some rb ∧ rb.receivedSend c = some h := by
  have hrcv : (∃ h' rb, l.block.get h' = some rb ∧ rb.receivedSend c = some h) →
      ∃ h' rb, l'.block.get h' = some rb ∧ rb.receivedSend c = some h := by
    rintro ⟨h', rb, hrb, hsame⟩
    exact ⟨h', rb, he.get_of_get hrb, hsame⟩
  have hunchanged : nb.destination = none → l'.pending = l.pending →
      (∃ info, l'.pending.get ⟨destination, h⟩ = some info) ∨
        ∃ h' rb, l'.block.get h' = some rb ∧ rb.receivedSend c = some h := by
    intro hnone hpend
    rcases he.eq_or_get hget with ⟨-, rfl⟩ | hget
    · cases hnone.symm.trans hdest
    · rw [hpend]
      exact (hr.complete hget hdest).imp_right hrcv
  cases he.transfer with
  | send d hd _ hpend _ =>
    rw [hpend]
    rcases he.eq_or_get hget with ⟨rfl, rfl⟩ | hget
    · cases hd.symm.trans hdest
      exact .inl ⟨_, get_put_self _ _ _⟩
    · refine (hr.complete hget hdest).imp ?_ hrcv
      rintro ⟨info, hinfo⟩
      rw [get_put]
      split
      · exact ⟨_, rfl⟩
      · exact ⟨info, hinfo⟩
  | receive source info' hnone hrecv _ _ hpend _ _ =>
    rw [hpend]
    rcases he.eq_or_get hget with ⟨-, rfl⟩ | hget
    · cases hnone.symm.trans hdest
    · by_cases hkey : (⟨destination, h⟩ : PendingKey) = ⟨nb.account, source⟩
      · cases hkey
        exact .inr ⟨nb.hash, nb, he.get_new, hrecv⟩
      · rw [get_del_of_ne _ hkey]
        exact (hr.complete hget hdest).imp_right hrcv
  | keep hnone _ hpend _ | raise hnone _ hpend _ => exact hunchanged hnone hpend

/-- A new block does not receive a send that has been received. -/
theorem new_receives_once (hget : l.block.get h' = some rb) (hnew : nb.receivedSend c = some h) :
    rb.receivedSend c ≠ some h := by
  obtain ⟨-, -, info, hent, -⟩ := he.received hnew
  exact hr.unreceived hent hget

include hl

/-- Every new entry belongs to the new block. -/
theorem entry_extends {info : PendingInfo} (hent : l'.pending.get ⟨destination, h⟩ = some info) :
    ∃ sb, l'.block.get h = some sb ∧ sb.destination = some destination ∧
      info = sendInfo l'.block sb := by
  have hold : l.pending.get ⟨destination, h⟩ = some info →
      ∃ sb, l'.block.get h = some sb ∧ sb.destination = some destination ∧
        info = sendInfo l'.block sb := by
    intro hold
    obtain ⟨sb, hget, hdest, hinfo⟩ := hr.entry hold
    exact ⟨sb, he.get_of_get hget, hdest, hinfo.trans (he.sendInfo_eq hl hget).symm⟩
  cases he.transfer with
  | send d hdest _ hpend _ =>
    rw [hpend] at hent
    rcases eq_or_of_get_put hent with ⟨hkey, rfl⟩ | ⟨-, hent⟩
    · cases hkey
      exact ⟨nb, he.get_new, hdest, rfl⟩
    · exact hold hent
  | receive source _ _ _ _ _ hpend _ _ =>
    rw [hpend] at hent
    exact hold (get_of_get_del hent).2
  | keep _ _ hpend _ | raise _ _ hpend _ => exact hold (hpend ▸ hent)

/-- Every receive took over a send to its account. -/
theorem received_extends (hget : l'.block.get h' = some rb) (hrecv : rb.receivedSend c = some h) :
    ∃ sb, l'.block.get h = some sb ∧ sb.destination = some rb.account ∧
      rb.balance = previousBalanceIn l'.block rb + (sendInfo l'.block sb).amount ∧
      rb.sourceEpoch = sb.epoch := by
  rcases he.eq_or_get hget with ⟨-, rfl⟩ | hget
  · obtain ⟨-, -, info, hent, hbal, hep⟩ := he.received hrecv
    obtain ⟨sb, hsb, hdest, hinfo⟩ := hr.entry hent
    refine ⟨sb, he.get_of_get hsb, hdest, ?_, ?_⟩
    · rw [he.sendInfo_eq hl hsb, ← hinfo]
      exact hbal
    · rw [hep, hinfo]
      rfl
  · obtain ⟨sb, hsb, hdest, hbal, hep⟩ := hr.received hget hrecv
    refine ⟨sb, he.get_of_get hsb, hdest, ?_, hep⟩
    rw [he.sendInfo_eq hl hsb, he.previousBalanceIn_eq hl hget]
    exact hbal

/-- A new block keeps the pending table exact. -/
theorem extends_ledger : l'.Receivables c := by
  refine ⟨?_, hr.entry_extends hl he, hr.unreceived_extends he, hr.complete_extends he,
    hr.received_extends hl he, ?_, ?_, ?_⟩
  · obtain ⟨info, hacc, -⟩ := he.account_eq
    rw [hacc, get_put]
    split
    · exact ⟨info, rfl⟩
    · exact hr.genesis
  · intro h1 h2 rb1 rb2 h hget1 hget2 hsame1 hsame2
    rcases he.eq_or_get hget1 with ⟨rfl, rfl⟩ | hold1 <;>
      rcases he.eq_or_get hget2 with ⟨rfl, rfl⟩ | hold2
    · rfl
    · exact absurd hsame2 (hr.new_receives_once he hold2 hsame1)
    · exact absurd hsame1 (hr.new_receives_once he hold1 hsame2)
    · exact hr.once hold1 hold2 hsame1 hsame2
  · intro h sb destination hget
    exact he.destination_iff hl hr.sends hget
  · intro h sb destination hget hdest
    rcases he.eq_or_get hget with ⟨-, rfl⟩ | hold
    · exact he.balance_le hdest
    · rw [he.previousBalanceIn_eq hl hold]
      exact hr.decreases hold hdest

end

/-- In the genesis ledger nothing has been sent. -/
theorem genesis_ledger {minWeight : Amount} : (Ledger.genesis c minWeight).Receivables c := by
  refine ⟨⟨_, get_put_self _ _ _⟩, ?_, ?_, ?_, ?_, ?_, ?_, ?_⟩
  · intro destination h info hent
    cases hent
  · intro destination h info h' rb hent
    cases hent
  · intro h sb destination hget hdest
    obtain ⟨-, rfl⟩ := genesis_block_get.mp hget
    cases hdest
  · intro h' rb h hget hrecv
    cases (genesis_receivedSend hget).symm.trans hrecv
  · intro h1 h2 rb1 rb2 h hget1 hget2 _ _
    rw [(genesis_block_get.mp hget1).1, (genesis_block_get.mp hget2).1]
  · intro h sb destination hget
    obtain ⟨-, rfl⟩ := genesis_block_get.mp hget
    constructor
    · intro hdest
      cases hdest
    · intro hfalse
      cases hfalse
  · intro h sb destination hget hdest
    obtain ⟨-, rfl⟩ := genesis_block_get.mp hget
    cases hdest

/-- Insertions keep the pending table exact. -/
theorem insertRun (hr : l.Receivables c) (hl : l.Chained) {allowed : Ledger → Block → Prop}
    (h : InsertRun c allowed l l') : l'.Receivables c := by
  induction h with
  | refl => exact hr
  | tail hrun hstep ih =>
    obtain ⟨b, -, hb⟩ := hstep
    have hchained := hl.run (InsertRun.run hrun)
    obtain ⟨nb, -, he⟩ := hb.extends_ledger hchained ih.genesis
    exact ih.extends_ledger hchained he

end Receivables

/-- The pending table holds exactly the sends that nothing has received, each with its sender,
its amount and its epoch, and no send is received twice. -/
structure PendingExact (c : LedgerConstants) (l : Ledger) : Prop where
  iff : ∀ destination h, (∃ info, l.pending.get ⟨destination, h⟩ = some info) ↔
    ∃ sb, l.block.get h = some sb ∧ sendsTo l.block sb destination ∧
      ∀ h' rb, l.block.get h' = some rb → rb.account = destination → rb.receivedSend c ≠ some h
  content : ∀ destination h info, l.pending.get ⟨destination, h⟩ = some info →
    ∃ sb, l.block.get h = some sb ∧ info.source = sb.account ∧
      info.amount.toNat + sb.balance.toNat = (previousBalanceIn l.block sb).toNat ∧
      info.epoch = sb.epoch
  once : ∀ h h' h'' rb rb', l.block.get h' = some rb → l.block.get h'' = some rb' →
    rb.receivedSend c = some h → rb'.receivedSend c = some h → h' = h''

/-- The invariant in the terms of the pending table. -/
theorem Receivables.pendingExact {c : LedgerConstants} {l : Ledger} (hr : l.Receivables c) :
    l.PendingExact c := by
  refine ⟨?_, ?_, fun h h' h'' rb rb' => hr.once⟩
  · intro destination h
    constructor
    · rintro ⟨info, hinfo⟩
      obtain ⟨sb, hsb, hdest, -⟩ := hr.entry hinfo
      exact ⟨sb, hsb, (hr.sends hsb).mp hdest, fun h' rb hrb _ => hr.unreceived hinfo hrb⟩
    · rintro ⟨sb, hsb, hsends, hnone⟩
      have hdest := (hr.sends hsb).mpr hsends
      refine (hr.complete hsb hdest).resolve_right ?_
      rintro ⟨h', rb, hrb, hrecv⟩
      obtain ⟨sb', hsb', hdest', -⟩ := hr.received hrb hrecv
      cases hsb.symm.trans hsb'
      exact hnone h' rb hrb (Option.some.inj (hdest'.symm.trans hdest)) hrecv
  · intro destination h info hinfo
    obtain ⟨sb, hsb, hdest, rfl⟩ := hr.entry hinfo
    refine ⟨sb, hsb, rfl, ?_, rfl⟩
    have hle := hr.decreases hsb hdest
    simp only [sendInfo]
    rw [BitVec.toNat_sub_of_le hle]
    exact Nat.sub_add_cancel hle

/-- In every ledger that insertions of accepted blocks reach from genesis, the pending table is
exact. -/
theorem insertRun_pendingExact {c : LedgerConstants} {minWeight : Amount} {l : Ledger}
    (h : InsertRun c (fun _ _ => True) (genesis c minWeight) l) : l.PendingExact c :=
  (Receivables.genesis_ledger.insertRun Chained.genesis h).pendingExact

/-- The pending table of the dev network after its first send. -/
theorem pendingExact_devSent : devSent.PendingExact devConstants :=
  insertRun_pendingExact (insertRun_devSent trivial)

end RsNano.Ledger
