import RsNano.Ledger.Receivable

/-!
# The supply

The sum of all balances and all pending amounts, taken in `ℕ` so that nothing can wrap. Sends,
receives and blocks that move nothing conserve it. The validator also accepts state blocks that
raise their balance under an epoch link: it takes an epoch link for no receive, and a changed
balance for no epoch block, so no rule compares the raise with a pending entry. Runs without
such blocks conserve the genesis supply, and there no arithmetic of the validator overflows.
-/

namespace RsNano.Ledger

open BlockValidator

/-- All balances and all pending amounts. -/
def supply (l : Ledger) : ℕ :=
  l.account.sumBy (fun _ info => info.balance.toNat) +
    l.pending.sumBy (fun _ info => info.amount.toNat)

variable {c : LedgerConstants} {l l' : Ledger} {nb : SavedBlock}

/-- Changing the balance of an account exchanges its share of the sum. -/
theorem sumBy_balance_put (t : Table Account AccountInfo) (a : Account) (info : AccountInfo) :
    (t.put a info).sumBy (fun _ i => i.balance.toNat) +
        (((t.get a).map AccountInfo.balance).getD 0).toNat =
      info.balance.toNat + t.sumBy (fun _ i => i.balance.toNat) := by
  cases hget : t.get a with
  | none =>
    rw [Table.sumBy_put_of_none _ _ hget]
    simp
  | some old => exact Table.sumBy_put_of_some info _ hget

/-- A balance and a pending amount together stay below the supply. -/
theorem balance_add_amount_le (l : Ledger) (a : Account) {key : PendingKey} {info : PendingInfo}
    (hent : l.pending.get key = some info) :
    (((l.account.get a).map AccountInfo.balance).getD 0).toNat + info.amount.toNat ≤ l.supply := by
  have hamt := Table.le_sumBy (fun _ (i : PendingInfo) => i.amount.toNat) hent
  have hbal : (((l.account.get a).map AccountInfo.balance).getD 0).toNat ≤
      l.account.sumBy (fun _ i => i.balance.toNat) := by
    cases hget : l.account.get a with
    | none => simp
    | some old => exact Table.le_sumBy (fun _ (i : AccountInfo) => i.balance.toNat) hget
  rw [supply]
  omega

/-- A receive adds its amount to the balance without overflow while the supply is bounded. -/
theorem Extends.toNat_receive (he : Extends c l nb l') (hbound : l.supply < 2 ^ 128)
    {source : BlockHash} {entry : PendingInfo}
    (hent : l.pending.get ⟨nb.account, source⟩ = some entry)
    (hbal : nb.balance = previousBalanceIn l'.block nb + entry.amount) :
    nb.balance.toNat = (previousBalanceIn l'.block nb).toNat + entry.amount.toNat := by
  have hle := l.balance_add_amount_le nb.account hent
  rw [he.oldBalance] at hle
  rw [hbal, BitVec.toNat_add_of_lt (by omega)]

/-- A new block conserves the supply, unless it raises its balance under an epoch link. -/
theorem supply_extends (hr : l.Receivables c) (he : Extends c l nb l')
    (hno : ¬ raisesUnderEpochLink c l nb.block) (hbound : l.supply < 2 ^ 128) :
    l'.supply = l.supply := by
  obtain ⟨info, hacc, hinfo⟩ := he.account_eq
  have hsum := sumBy_balance_put l.account nb.account info
  rw [← hacc, hinfo, he.oldBalance] at hsum
  cases he.transfer with
  | send destination hdest _ hpend hbal =>
    have hfree : l.pending.get ⟨destination, nb.hash⟩ = none := by
      by_contra hsome
      obtain ⟨old, hold⟩ := Option.ne_none_iff_exists'.mp hsome
      obtain ⟨sb, hsb, -⟩ := hr.entry hold
      cases he.fresh.symm.trans hsb
    have hamt : (sendInfo l'.block nb).amount.toNat =
        (previousBalanceIn l'.block nb).toNat - nb.balance.toNat := BitVec.toNat_sub_of_le hbal
    have hle : nb.balance.toNat ≤ (previousBalanceIn l'.block nb).toNat := hbal
    rw [supply, supply, hpend, Table.sumBy_put_of_none _ _ hfree]
    omega
  | receive source entry _ _ hent _ hpend hbal _ =>
    have hdel := Table.sumBy_del_of_some (fun _ (i : PendingInfo) => i.amount.toNat) hent
    have hnew := he.toNat_receive hbound hent hbal
    rw [supply, supply, hpend]
    omega
  | keep _ _ hpend hbal =>
    rw [← hbal] at hsum
    rw [supply, supply, hpend]
    omega
  | raise _ _ _ hraise => exact absurd hraise hno

/-- The supply of the genesis ledger. -/
theorem supply_genesis {minWeight : Amount} : (genesis c minWeight).supply = 2 ^ 128 - 1 := by
  rfl

/-- Runs without balance raises under an epoch link conserve the supply. -/
theorem InsertRun.supply_eq (hl : l.Chained) (hr : l.Receivables c) (hbound : l.supply < 2 ^ 128)
    (h : InsertRun c (fun l b => ¬ raisesUnderEpochLink c l b) l l') : l'.supply = l.supply := by
  induction h with
  | refl => rfl
  | tail hrun hstep ih =>
    obtain ⟨b, hno, hb⟩ := hstep
    have hchained := hl.run (InsertRun.run hrun)
    have hreceivables := hr.insertRun hl hrun
    obtain ⟨nb, rfl, he⟩ := hb.extends_ledger hchained hreceivables.genesis
    rw [← ih]
    exact supply_extends hreceivables he hno (ih ▸ hbound)

section

variable {v : BlockValidator}

/-- What is sent is part of the old balance. -/
theorem amountSent_le (v : BlockValidator) : v.amountSent.toNat ≤ v.oldBalance.toNat := by
  cases hold : v.oldAccountInfo with
  | none => simp [amountSent, hold]
  | some info =>
    cases hbal : v.block.balanceField with
    | none => simp [amountSent, hold, hbal]
    | some balance =>
      simp only [amountSent, oldBalance, hold, hbal, Option.map_some, Option.getD_some]
      split
      · next hlt =>
        rw [BitVec.toNat_sub_of_le (BitVec.le_of_lt hlt)]
        exact Nat.sub_le _ _
      · simp

/-- The arithmetic on an epoch block cannot overflow: its balance is the previous one. -/
theorem arithmeticOk_of_isEpochBlock (h : v.isEpochBlock = true) : v.ArithmeticOk := by
  have hrecv : v.amountReceived = 0 := by
    cases hblk : v.block with
    | state state =>
      rw [isEpochBlock, hblk] at h
      have hbal := (of_decide_eq_true h).2
      simp [amountReceived, hblk, hbal]
    | _ => simp [isEpochBlock, hblk] at h
  have hsent := amountSent_le v
  have hlt := v.oldBalance.isLt
  rw [BlockValidator.ArithmeticOk, hrecv]
  exact ⟨by simpa using hlt, by simpa using hsent⟩

/-- The arithmetic on an accepted block does not overflow while the supply is bounded. -/
theorem arithmeticOk_of_passes (hl : l.Chained) (hbound : l.supply < 2 ^ 128) {b : Block} {now : ℕ}
    (hv : (l.createValidator c b now).Passes) : (l.createValidator c b now).ArithmeticOk := by
  refine ⟨?_, (amountSent_le _).trans (Nat.le_add_right _ _)⟩
  have hlt := (l.createValidator c b now).oldBalance.isLt
  have hpend : (l.createValidator c b now).oldBalance.toNat +
      (l.createValidator c b now).pendingAmount.toNat < 2 ^ 128 := by
    rw [pendingAmount]
    cases hinfo : (l.createValidator c b now).pendingReceiveInfo with
    | none => simpa using hlt
    | some pending =>
      rw [createValidator_pendingReceiveInfo] at hinfo
      split at hinfo
      · cases hinfo
      · exact (l.balance_add_amount_le _ hinfo).trans_lt hbound
  cases b with
  | legacyReceive _ | legacyOpen _ => exact hpend
  | state state =>
    rw [amountReceived, hl.coherent hv]
    simp only [createValidator_block]
    split
    · next hraise =>
      have hle : (l.createValidator c (.state state) now).oldBalance.toNat ≤ state.balance.toNat :=
        (BitVec.le_of_lt hraise)
      rw [BitVec.toNat_sub_of_le hle, Nat.add_sub_cancel' hle]
      exact state.balance.isLt
    · simpa using hlt
  | legacySend _ | legacyChange _ => exact hlt

end

/-- Without balance raises under an epoch link, every run of insertions conserves the genesis
supply. The validator computes the new balance of accepted blocks and of epoch blocks, and on
both its arithmetic does not overflow. -/
theorem insertRun_supply {minWeight : Amount}
    (h : InsertRun c (fun l b => ¬ raisesUnderEpochLink c l b) (genesis c minWeight) l) :
    l.supply = 2 ^ 128 - 1 ∧
      ∀ b now, ((∃ i, (l.createValidator c b now).validate = .ok i) ∨
        (l.createValidator c b now).isEpochBlock = true) →
        (l.createValidator c b now).ArithmeticOk := by
  have hsupply : l.supply = 2 ^ 128 - 1 :=
    (InsertRun.supply_eq Chained.genesis Receivables.genesis_ledger
      (by rw [supply_genesis]; omega) h).trans supply_genesis
  refine ⟨hsupply, ?_⟩
  rintro b now (⟨i, hvalid⟩ | hepoch)
  · refine arithmeticOk_of_passes (Chained.genesis.run (InsertRun.run h)) ?_
      (BlockValidator.validate_eq_ok.mp hvalid).1
    omega
  · exact arithmeticOk_of_isEpochBlock hepoch

/-- The first send of the dev network conserves the supply. -/
theorem supply_devSent :
    devSent.supply = 2 ^ 128 - 1 ∧
      ∀ b now, ((∃ i, (devSent.createValidator devConstants b now).validate = .ok i) ∨
        (devSent.createValidator devConstants b now).isEpochBlock = true) →
        (devSent.createValidator devConstants b now).ArithmeticOk :=
  insertRun_supply (insertRun_devSent (by decide +kernel))

/-- After a send of one raw, a state block with an epoch link that restores the old balance is
accepted. The raw it adds is also still pending. -/
theorem supply_devRaise :
    ∃ l, InsertRun devConstants (fun _ _ => True) (genesis devConstants 0) l ∧
      l.supply ≠ 2 ^ 128 - 1 :=
  ⟨devSent.processed devConstants (.state devRaise),
    (insertRun_devSent trivial).processed trivial (by decide +kernel), by decide +kernel⟩

end RsNano.Ledger
