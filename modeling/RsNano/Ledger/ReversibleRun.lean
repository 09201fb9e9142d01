import RsNano.Ledger.Dependents

/-!
# Runs that stay reversible

Roll-backs of a reversible ledger conserve the supply, and they keep it reversible. So the
conditions on insertions that are known for runs of insertions work for all runs:
`Ledger.AllowedRun` restricts the insertions only, and `Ledger.Orderly` is what holds in every
ledger that such a run reaches.
-/

namespace RsNano.Ledger

variable {c : LedgerConstants} {minWeight : Amount} {l l' : Ledger} {head : SavedBlock}

/-! ### The supply after a roll-back -/

/-- The balance of the account of a head block goes back to the previous one. -/
theorem RollsBackHead.sumBy_balance (hl : l.Chained) (h : l.RollsBackHead c head l') :
    l'.account.sumBy (fun _ info => info.balance.toNat) + head.balance.toNat =
      l.account.sumBy (fun _ info => info.balance.toNat) +
        (previousBalanceIn l.block head).toNat := by
  obtain ⟨now, info, rep, weights, cache, hh, hrep, -, -, -, rfl⟩ := h.spec hl
  have hbal := hh.balance_eq hl
  by_cases hprev : head.previous = 0
  · obtain ⟨hacc, -, -⟩ := @afterHead_account_first c l head info now rep weights cache hprev
    have hsum := Table.sumBy_del_of_some (fun _ (i : AccountInfo) => i.balance.toNat) hh.account
    have hzero : (previousBalanceIn l.block head).toNat = 0 := by
      simp [previousBalanceIn, balanceAfter, hprev]
    rw [hacc, hbal]
    omega
  · obtain ⟨p, key, hp, -, hacc, -, -⟩ :=
      @IsHead.afterHead_account_previous c l head info now rep weights cache hh hl hrep hprev
    have hsum := Table.sumBy_put_of_some (previousInfo info p key now)
      (fun _ (i : AccountInfo) => i.balance.toNat) hh.account
    have hold : previousBalanceIn l.block head = (previousInfo info p key now).balance := by
      rw [previousBalanceIn, balanceAfter, if_pos hprev, hp]
      rfl
    rw [hacc, hold, hbal]
    omega

/-- Rolling back a head block of a reversible ledger conserves the supply. -/
theorem Reversible.supply_rollsBackHead (hrev : l.Reversible c) (h : l.RollsBackHead c head l') :
    l'.supply = l.supply := by
  have hsum := h.sumBy_balance hrev.chained
  cases hrev.retracts h with
  | send destination hdest hpend =>
    obtain ⟨info, hinfo⟩ := hrev.entry_of_send h hdest
    obtain ⟨sb, hsb, -, hamt⟩ := hrev.receivables.entry hinfo
    cases hsb.symm.trans h.stored
    have hlt : head.balance.toNat < (previousBalanceIn l.block head).toNat :=
      hrev.balanced.send h.stored hdest
    have hsent : info.amount.toNat =
        (previousBalanceIn l.block head).toNat - head.balance.toNat := by
      rw [hamt]
      exact BitVec.toNat_sub_of_le hlt.le
    have hdel := Table.sumBy_del_of_some (fun _ (i : PendingInfo) => i.amount.toNat) hinfo
    rw [supply, supply, hpend]
    omega
  | receive source sb hdest hrecv hsrc hpend =>
    have hfree : l.pending.get ⟨head.account, source⟩ = none := by
      by_contra hsome
      obtain ⟨info, hinfo⟩ := Option.ne_none_iff_exists'.mp hsome
      exact hrev.receivables.unreceived hinfo h.stored hrecv
    obtain ⟨sb', hsb', -, hbal, -⟩ := hrev.receivables.received h.stored hrecv
    cases hsrc.symm.trans hsb'
    have hlt : (previousBalanceIn l.block head).toNat < head.balance.toNat :=
      hrev.balanced.receive h.stored hrecv
    have hamt : (sendInfo l.block sb).amount.toNat =
        head.balance.toNat - (previousBalanceIn l.block head).toNat := by
      rw [← BitVec.toNat_sub_of_le hlt.le, hbal, add_sub_cancel_left]
    rw [supply, supply, hpend, Table.sumBy_put_of_none _ _ hfree]
    omega
  | keep hdest hrecv hpend =>
    rw [hrev.balanced.keep h.stored (hrev.hash_ne_genesis h) hdest hrecv] at hsum
    rw [supply, supply, hpend]
    omega

/-- Roll-backs of a reversible ledger conserve the supply. -/
theorem Reversible.supply_headSteps (hrev : l.Reversible c) (h : HeadSteps c l l') :
    l'.supply = l.supply :=
  (h.invariant (P := fun l1 => l1.Reversible c ∧ l1.supply = l.supply) hrev.chained ⟨hrev, rfl⟩
    fun _ ih hhead => ⟨ih.1.rollsBackHead hhead, (ih.1.supply_rollsBackHead hhead).trans ih.2⟩).2

/-! ### Restricted runs -/

/-- One change of the ledger: the insertion of an allowed block, or a change that adds no block. -/
inductive AllowedStep (c : LedgerConstants) (allowed : Ledger → Block → Prop) (l l' : Ledger) :
    Prop
  | insert (b : Block) (hallow : allowed l b) (h : l.Inserts c b l')
  | other (h : Step c l l')
      (hblock : ∀ {x sb}, l'.block.get x = some sb → l.block.get x = some sb)

/-- A finite sequence of changes in which every insertion is allowed. -/
def AllowedRun (c : LedgerConstants) (allowed : Ledger → Block → Prop) : Ledger → Ledger → Prop :=
  Relation.ReflTransGen (AllowedStep c allowed)

variable {allowed : Ledger → Block → Prop}

/-- A sequence of allowed insertions is a restricted run. -/
theorem InsertRun.allowedRun (h : InsertRun c allowed l l') : AllowedRun c allowed l l' := by
  refine Relation.ReflTransGen.mono ?_ l l' h
  rintro l l' ⟨b, hallow, hb⟩
  exact .insert b hallow hb

/-- A restricted run is a run. -/
theorem AllowedRun.run (h : AllowedRun c allowed l l') : Run c l l' := by
  refine Relation.ReflTransGen.mono ?_ l l' h
  rintro l l' (⟨b, -, hb⟩ | ⟨hstep, -⟩)
  · exact .insert b hb
  · exact hstep

/-- What holds in the ledgers that runs of reversible insertions reach. -/
structure Orderly (c : LedgerConstants) (l : Ledger) : Prop where
  reversible : l.Reversible c
  supply_eq : l.supply = 2 ^ 128 - 1
  ranked : ∃ rank, Ranked c l.block rank
  genesis : l.block.get c.genesisBlock.hash = some c.savedGenesis.stored

namespace Orderly

/-- The genesis ledger is orderly. -/
theorem genesis_ledger : (Ledger.genesis c minWeight).Orderly c :=
  ⟨.genesis_ledger, supply_genesis, ⟨_, ranked_genesis⟩, genesis_block_get.mpr ⟨rfl, rfl⟩⟩

variable (h : l.Orderly c)

include h

/-- An insertion that keeps the ledger reversible keeps it orderly. -/
theorem inserts {b : Block} (hallow : KeepsReversible c l b) (hb : l.Inserts c b l') :
    l'.Orderly c := by
  have hrev := h.reversible
  have hsup := h.supply_eq
  obtain ⟨rank, hrank⟩ := h.ranked
  obtain ⟨nb, -, he⟩ := hb.extends_ledger hrev.chained hrev.receivables.genesis
  obtain ⟨hrev', hsame⟩ := hrev.inserts (by rw [hsup]; omega) hallow.1 hallow.2 hb
  exact ⟨hrev', hsame.trans hsup, hrev.receivables.ranked_extends hrev.chained he hrank,
    he.get_of_get h.genesis⟩

/-- Roll-backs keep the ledger orderly. -/
theorem headSteps (hsteps : HeadSteps c l l') : l'.Orderly c := by
  have hl := h.reversible.chained
  obtain ⟨rank, hrank⟩ := h.ranked
  exact ⟨h.reversible.headSteps hsteps, (h.reversible.supply_headSteps hsteps).trans h.supply_eq,
    ⟨rank, hrank.mono (hsteps.get_of_get hl)⟩,
    (h.reversible.cemented.headSteps hl hsteps).2.block h.genesis h.reversible.genesis⟩

/-- The cementer keeps the ledger orderly. -/
theorem cement {maxBlocks : ℕ} {s s' : BlockCementer} {hash : BlockHash}
    (hok : BlockCementer.iterate c maxBlocks l s hash = .ok (l', s')) : l'.Orderly c := by
  have hrev := h.reversible
  have hr := hrev.receivables
  have hb := hrev.balanced
  have hl' := hrev.chained.cement hok
  obtain ⟨hc', hkeep⟩ := hrev.cemented.iterate hrev.chained hok
  have hgen := hkeep.confirmed hrev.genesis
  rcases cement_cases hok with rfl | ⟨block, -, -, -, rfl⟩
  · exact h
  · exact ⟨⟨hl', ⟨hr.genesis, hr.entry, hr.unreceived, hr.complete, hr.received, hr.once, hr.sends,
      hr.decreases⟩, hc', ⟨hb.send, hb.receive, hb.keep⟩, hgen⟩, h.supply_eq, h.ranked,
      h.genesis⟩

/-- Final votes keep the ledger orderly. -/
theorem vote (candidates : List (Root × BlockHash)) :
    (l.verifyFinalVotes c candidates).1.Orderly c := by
  have hrev := h.reversible
  have hr := hrev.receivables
  have hb := hrev.balanced
  obtain ⟨hc', hkeep⟩ := hrev.cemented.vote candidates
  have hgen := hkeep.confirmed hrev.genesis
  obtain ⟨votes, heq⟩ := verifyFinalVotes_frame c l candidates
  rw [heq] at hc' hgen ⊢
  exact ⟨⟨hrev.chained.withFinality _ _ votes, ⟨hr.genesis, hr.entry, hr.unreceived, hr.complete,
    hr.received, hr.once, hr.sends, hr.decreases⟩, hc', ⟨hb.send, hb.receive, hb.keep⟩, hgen⟩,
    h.supply_eq, h.ranked, h.genesis⟩

/-- A change that adds no block keeps the ledger orderly. -/
theorem step (hstep : Step c l l')
    (hblk : ∀ {x sb}, l'.block.get x = some sb → l.block.get x = some sb) : l'.Orderly c := by
  have hl := h.reversible.chained
  cases hstep with
  | insert b hb =>
    obtain ⟨nb, -, he⟩ := hb.extends_ledger hl h.reversible.receivables.genesis
    cases he.fresh.symm.trans (hblk he.get_new)
  | rollBack fuel maxRollbacks canRollBack clock targets results hroll =>
    exact h.headSteps (headSteps_of_rollBackBatch hl hroll)
  | cement maxBlocks s s' hash hok => exact h.cement hok
  | vote candidates heq => exact heq ▸ h.vote candidates

/-- Runs of insertions that keep the ledger reversible keep it orderly. -/
theorem run (hallow : ∀ l b, allowed l b → KeepsReversible c l b)
    (hrun : AllowedRun c allowed l l') : l'.Orderly c := by
  induction hrun with
  | refl => exact h
  | tail _ hstep ih =>
    rcases hstep with ⟨b, hb, hins⟩ | ⟨hstep, hblk⟩
    · exact ih.inserts (hallow _ b hb) hins
    · exact ih.step hstep hblk

end Orderly

end RsNano.Ledger
