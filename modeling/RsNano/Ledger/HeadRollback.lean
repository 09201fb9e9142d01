import RsNano.Ledger.Chain
import RsNano.Ledger.Rollback

/-!
# Rolling back a head block

On a ledger with account chains the planner always finds the data of a head block: its
previous block and the representative before it. `Ledger.RollsBackHead` is the roll-back of
one head block, the only way in which the performer changes the ledger. It takes the account
back to the previous block, or deletes the account with its only block, and so keeps the
account chains.
-/

namespace RsNano.Ledger

open RollbackPlanner Table

/-- The planner for the head block of an account with the given record. -/
def planner (c : LedgerConstants) (l : Ledger) (head : SavedBlock) (info : AccountInfo)
    (previousRepresentative : Option PublicKey) (now : ℕ) : RollbackPlanner where
  epochs := c.epochs
  headBlock := head
  account := head.account
  currentAccountInfo := info
  previousRepresentative := previousRepresentative
  previous := l.previousBlock head
  linkedAccount := (l.blockAccount head.block.sourceOrLink).getD 0
  pendingReceive := l.getPending ⟨head.block.destinationOrLink, head.hash⟩
  latestBlockForDestination := l.accountHead head.block.destinationOrLink
  confirmationHeight := (l.confirmationHeight.get head.account).getD default
  now := now

/-- The block is in the ledger and is the head of its account. -/
structure IsHead (l : Ledger) (head : SavedBlock) (info : AccountInfo) : Prop where
  stored : l.block.get head.hash = some head
  account : l.account.get head.account = some info
  head_eq : info.head = head.hash

variable {c : LedgerConstants} {l l' : Ledger} {head : SavedBlock} {info : AccountInfo} {now : ℕ}
  {rep : Option PublicKey} {weights cache : Table PublicKey Amount}

/-- What the search for the representative before a head block returns. -/
def PreviousRep (l : Ledger) (head : SavedBlock) (rep : Option PublicKey) : Prop :=
  (head.previous = 0 ∧ rep = none) ∨
    ∃ r rb key, head.previous ≠ 0 ∧ l.representativeBlockHash head.previous = .ok r ∧
      l.block.get r = some rb ∧ rb.block.representativeField = some key ∧ rep = some key

/-- A head block is planned and rolled back. -/
def RollsBackHead (c : LedgerConstants) (l : Ledger) (head : SavedBlock) (l' : Ledger) : Prop :=
  ∃ now info i, l.IsHead head info ∧
    l.rollBackHeadBlock c head now = .ok (.ok (.rollBackBlock i)) ∧ l.executeRollback i = .ok l'

/-- The ledger after the roll-back of a head block. -/
abbrev afterHead (l : Ledger) (c : LedgerConstants) (head : SavedBlock) (info : AccountInfo)
    (rep : Option PublicKey) (now : ℕ) (weights cache : Table PublicKey Amount) : Ledger :=
  l.afterRollback (l.planner c head info rep now).instructions weights cache

/-- The account record after the roll-back of a head block with a predecessor. -/
def previousInfo (info : AccountInfo) (p : SavedBlock) (rep : PublicKey) (now : ℕ) :
    AccountInfo where
  head := p.hash
  representative := rep
  openBlock := info.openBlock
  balance := p.balance
  modified := now
  blockCount := info.blockCount - 1
  epoch := p.epoch

theorem afterHead_block :
    (l.afterHead c head info rep now weights cache).block = l.block.del head.hash := rfl

/-- The account of a block without predecessor is deleted. -/
theorem afterHead_account_first (hprev : head.previous = 0) :
    (l.afterHead c head info rep now weights cache).account = l.account.del head.account ∧
      (l.afterHead c head info rep now weights cache).accountCount = l.accountCount - 1 ∧
      (l.afterHead c head info rep now weights cache).successors = l.successors := by
  have hinfo : (l.planner c head info rep now).previousAccountInfo = default := by
    exact if_pos hprev
  have haccs : l.accountsAfterRollback (l.planner c head info rep now).instructions =
      (l.account.del head.account, l.accountCount - 1) := by
    simp only [accountsAfterRollback, instructions, hinfo]
    exact if_neg (not_not.mpr rfl)
  refine ⟨congrArg Prod.fst haccs, congrArg Prod.snd haccs, ?_⟩
  simp [afterRollback, instructions, planner, Ledger.previousBlock, hprev]

/-- The search for a representative is not changed by the removal of a block above. -/
theorem Chained.findRepBlock_del (hl : l.Chained) {x : BlockHash} {xb : SavedBlock}
    (hx : l.block.get x = some xb) (hlinked : Linked (l.block.del x)) {h r : BlockHash}
    {sb rb : SavedBlock} (hget : (l.block.del x).get h = some sb)
    (hrun : l.representativeBlockHash h = .ok r) (hr : l.block.get r = some rb) :
    findRepBlock (l.block.del x) ((l.block.del x).size + 1) h = .ok r ∧
      (l.block.del x).get r = some rb := by
  have hsize := size_del_of_some hx
  have hsub : ∀ h sb, (l.block.del x).get h = some sb → l.block.get h = some sb :=
    fun _ _ h => (get_of_get_del h).2
  have hht := hl.height_le_size (hsub h sb hget)
  have hfuel : sb.height ≤ (l.block.del x).size + 1 := by omega
  obtain ⟨r', rb', hrun', hr', -⟩ := hlinked.findRepBlock_ok hget hfuel
  have hsame : l.representativeBlockHash h = .ok r' :=
    findRepBlock_of_subset hsub (by omega) (hlinked.hash_ne_zero hr') hrun'
  cases hrun.symm.trans hsame
  cases hr.symm.trans (hsub r rb' hr')
  exact ⟨hrun', hr'⟩

section

variable (hh : l.IsHead head info) (hl : l.Chained)

namespace IsHead

include hh

/-- The head of another account is not the head block that is rolled back. -/
theorem get_other_head {a : Account} (hne : a ≠ head.account) {h : BlockHash}
    {sb : SavedBlock} (hget : l.block.get h = some sb) (hacc : sb.account = a) :
    (l.block.del head.hash).get h = some sb := by
  rw [get_del_of_ne]
  · exact hget
  · rintro rfl
    rw [hh.stored] at hget
    cases hget
    exact hne hacc.symm

include hl

/-- The head of an account is as high as the account. -/
theorem height_eq : head.height = info.blockCount := by
  obtain ⟨sb, hsb, -, hht, -⟩ := hl.head hh.account
  rw [hh.head_eq, hh.stored] at hsb
  cases hsb
  exact hht

/-- The balance of an account is that of its head. -/
theorem balance_eq : head.balance = info.balance := by
  obtain ⟨sb, hsb, -, -, hbal, -⟩ := hl.head hh.account
  rw [hh.head_eq, hh.stored] at hsb
  cases hsb
  exact hbal

/-- The previous block of a head block, where there is one. -/
theorem previousBlock :
    (head.previous = 0 ∧ l.previousBlock head = none) ∨
      ∃ p, head.previous ≠ 0 ∧ l.previousBlock head = some p ∧
        l.block.get head.previous = some p ∧ p.account = head.account ∧
        head.height = p.height + 1 := by
  by_cases hprev : head.previous = 0
  · exact .inl ⟨hprev, by rw [Ledger.previousBlock, if_pos hprev]⟩
  · obtain ⟨p, hp, hfacts⟩ := hl.linked.previous hh.stored hprev
    refine .inr ⟨p, hprev, ?_, hp, hfacts⟩
    rw [Ledger.previousBlock, if_neg hprev, getBlock, if_neg hprev, hp]

/-- The search for the representative before a head block succeeds. -/
theorem previousRepresentative_ok :
    ∃ rep, l.previousRepresentative head = .ok rep ∧ l.PreviousRep head rep := by
  by_cases hprev : head.previous = 0
  · refine ⟨none, ?_, .inl ⟨hprev, rfl⟩⟩
    simp [previousRepresentative, hprev, pure, Except.pure]
  · obtain ⟨p, hp, -⟩ := hl.linked.previous hh.stored hprev
    obtain ⟨r, rb, hrun, hr, hrep⟩ := hl.linked.findRepBlock_ok hp
      ((hl.height_le_size hp).trans (Nat.le_succ _))
    obtain ⟨key, hkey⟩ := Option.isSome_iff_exists.mp hrep
    have hne := hl.linked.hash_ne_zero hr
    refine ⟨some key, ?_, .inr ⟨r, rb, key, hprev, hrun, hr, hkey, rfl⟩⟩
    simp only [previousRepresentative, ne_eq, hprev, not_false_eq_true, if_true, bind_eq_ok]
    exact ⟨r, hrun, by simp [hne, getBlock, hr, hkey, pure, Except.pure]⟩

/-- On account chains the planner of a head block can always be created. -/
theorem createPlanner_ok (now : ℕ) :
    ∃ rep, l.PreviousRep head rep ∧
      l.createPlanner c head now = .ok (.ok (l.planner c head info rep now)) := by
  obtain ⟨rep, hrep, hspec⟩ := hh.previousRepresentative_ok hl
  refine ⟨rep, hspec, ?_⟩
  have hne := hl.linked.hash_ne_zero hh.stored
  have hacc : l.blockAccount head.hash = some head.account := by
    rw [blockAccount, getBlock, if_neg hne, hh.stored]
    rfl
  have hpresent : ¬ (head.previous ≠ 0 ∧ (l.getBlock head.previous).isNone = true) := by
    rintro ⟨hprev, hnone⟩
    obtain ⟨p, hp, -⟩ := hl.linked.previous hh.stored hprev
    simp [getBlock, hprev, hp] at hnone
  rw [createPlanner, hacc]
  simp only [bind_eq_ok]
  refine ⟨rep, hrep, ?_⟩
  rw [if_neg hpresent]
  simp only [planner, getAccount, hh.account, Option.getD_some]
  rfl

/-- A block with a type that needs a representative before it has one, unless it is open. -/
theorem representativeMissing (hrep : l.PreviousRep head rep) :
    (l.planner c head info rep now).representativeMissing = false := by
  rcases hrep with ⟨hprev, -⟩ | ⟨r, -, -, -, -, -, -, rfl⟩
  · have hopen := (hl.linked.first hh.stored hprev).2
    simp [RollbackPlanner.representativeMissing, planner, hopen]
  · simp [RollbackPlanner.representativeMissing, planner]

/-- What the planner answers for a head block: it is confirmed, its send has been received, or
it can be rolled back. -/
theorem rollBackHeadBlock_eq (now : ℕ) :
    ∃ rep, l.PreviousRep head rep ∧ l.rollBackHeadBlock c head now =
      if head.height ≤ ((l.confirmationHeight.get head.account).getD default).height then
        .ok (.error .blockConfirmed)
      else if (l.planner c head info rep now).blockSubType = .send ∧
          l.getPending ⟨head.block.destinationOrLink, head.hash⟩ = none then
        match l.accountHead head.block.destinationOrLink with
        | some hash => .ok (.ok (.requestDependencyRollback hash))
        | none => .error .noLatestBlockForDestination
      else .ok (.ok (.rollBackBlock (l.planner c head info rep now).instructions)) := by
  obtain ⟨rep, hrep, hplanner⟩ := hh.createPlanner_ok hl now
  refine ⟨rep, hrep, ?_⟩
  have hmissing : (l.planner c head info rep now).representativeMissing = false :=
    hh.representativeMissing hl hrep
  rw [rollBackHeadBlock, hplanner]
  change (l.planner c head info rep now).rollBackHeadBlock = _
  rw [RollbackPlanner.rollBackHeadBlock, hmissing]
  rfl

/-! ### The account chains after a roll-back -/

/-- The account of a block with a predecessor goes back to it. -/
theorem afterHead_account_previous (hrep : l.PreviousRep head rep) (hprev : head.previous ≠ 0) :
    ∃ p key, l.block.get head.previous = some p ∧ rep = some key ∧
      (l.afterHead c head info rep now weights cache).account =
        l.account.put head.account (previousInfo info p key now) ∧
      (l.afterHead c head info rep now weights cache).accountCount = l.accountCount ∧
      (l.afterHead c head info rep now weights cache).successors =
        l.successors.del head.previous := by
  rcases hh.previousBlock hl with ⟨hzero, -⟩ | ⟨p, -, hprevious, hp, -⟩
  · exact absurd hzero hprev
  rcases hrep with ⟨hzero, -⟩ | ⟨r, -, key, -, -, -, -, rfl⟩
  · exact absurd hzero hprev
  have hhash : p.hash = head.previous := hl.linked.hash_eq hp
  have hinfo : (l.planner c head info (some key) now).previousAccountInfo =
      previousInfo info p key now := by
    refine (if_neg hprev).trans ?_
    simp [previousInfo, planner, previousBalance, previousEpoch, hprevious, hhash]
  have haccs : l.accountsAfterRollback (l.planner c head info (some key) now).instructions =
      (l.account.put head.account (previousInfo info p key now), l.accountCount) := by
    have hhead : (previousInfo info p key now).head ≠ 0 := p.block.hash_ne_zero
    have hold : info.head ≠ 0 := hl.head_ne_zero hh.account
    simp only [accountsAfterRollback, instructions, hinfo, if_pos hhead]
    simp [planner, hold]
  refine ⟨p, key, hp, rfl, congrArg Prod.fst haccs, congrArg Prod.snd haccs, ?_⟩
  simp [afterRollback, instructions, planner, hprevious, hhash]

/-- The block table stays linked without a head block. -/
theorem linked_del : Linked (l.block.del head.hash) := by
  refine hl.linked.del fun h sb hget => ?_
  rw [← hh.head_eq]
  exact hl.previous_ne_head hh.account hget

/-- The other blocks of the account are below its head. -/
theorem height_lt {h : BlockHash} {sb : SavedBlock}
    (hget : (l.block.del head.hash).get h = some sb) (hacc : sb.account = head.account) :
    sb.height < info.blockCount := by
  obtain ⟨hne, hold⟩ := get_of_get_del hget
  by_contra hge
  exact hne ((hl.eq_head_of_height hold (hacc ▸ hh.account) (by omega)).trans hh.head_eq)

/-- The cached count of blocks follows the block table. -/
theorem blockCount_del : l.blockCount - 1 = (l.block.del head.hash).size := by
  have hsize := size_del_of_some hh.stored
  have hcnt := hl.blockCount_eq
  omega

end IsHead

include hh hl

/-- The account chains after the roll-back of the only block of an account. -/
theorem Chained.afterHead_first (hprev : head.previous = 0) :
    (l.afterHead c head info rep now weights cache).Chained := by
  obtain ⟨hacc, hcnt, hsuccs⟩ := @afterHead_account_first c l head info now rep weights cache hprev
  have hlinked := hh.linked_del hl
  have hone : info.blockCount = 1 := by
    rw [← hh.height_eq hl]
    exact (hl.linked.first hh.stored hprev).1
  have hoth : ∀ {h sb}, (l.block.del head.hash).get h = some sb → sb.account ≠ head.account := by
    intro h sb hget heq
    have := hh.height_lt hl hget heq
    have := hlinked.height_pos hget
    omega
  refine ⟨hlinked, ?_, ?_, ?_, ?_, ?_, ?_, ?_, ?_⟩
  · intro h sb hget
    rw [hacc, get_del_of_ne _ (hoth hget)]
    exact hl.owner (get_of_get_del hget).2
  · intro h sb info' hget hzero hinfo'
    rw [hacc, get_del_of_ne _ (hoth hget)] at hinfo'
    exact hl.opened (get_of_get_del hget).2 hzero hinfo'
  · intro a info' hinfo'
    rw [hacc] at hinfo'
    obtain ⟨hne, hold⟩ := get_of_get_del hinfo'
    obtain ⟨sb, hsb, hfacts⟩ := hl.head hold
    exact ⟨sb, hh.get_other_head hne hsb hfacts.1, hfacts⟩
  · intro h s
    rw [hsuccs, hl.successor, afterHead_block]
    constructor
    · rintro ⟨hne, sb, hsb, rfl⟩
      refine ⟨hne, sb, ?_, rfl⟩
      rw [get_del_of_ne]
      · exact hsb
      · rintro rfl
        cases hh.stored.symm.trans hsb
        exact hne hprev
    · rintro ⟨hne, sb, hsb, rfl⟩
      exact ⟨hne, sb, (get_of_get_del hsb).2, rfl⟩
  · intro a info' hinfo'
    rw [hacc] at hinfo'
    obtain ⟨hne, hold⟩ := get_of_get_del hinfo'
    obtain ⟨sb, hsb, hsba, -⟩ := hl.head hold
    obtain ⟨r, rb, hrun, hr, hfield⟩ := hl.representative hold
    obtain ⟨hrun', hr'⟩ := hl.findRepBlock_del hh.stored hlinked
      (hh.get_other_head hne hsb hsba) hrun hr
    exact ⟨r, rb, hrun', hr', hfield⟩
  · exact hh.blockCount_del hl
  · have := size_del_of_some hh.account
    have := hl.accountCount_eq
    rw [hacc]
    omega
  · have hsum := sumBy_del_of_some (fun _ info => info.blockCount) hh.account
    have := size_del_of_some hh.stored
    have := hl.total
    rw [hacc, afterHead_block]
    omega

/-- The account chains after the roll-back of a head block with a predecessor. -/
theorem Chained.afterHead_previous (hrep : l.PreviousRep head rep) (hprev : head.previous ≠ 0) :
    (l.afterHead c head info rep now weights cache).Chained := by
  obtain ⟨p, key, hp, hkey, hacc, hcnt, hsuccs⟩ :=
    @IsHead.afterHead_account_previous c l head info now rep weights cache hh hl hrep hprev
  have hlinked := hh.linked_del hl
  have hht := hh.height_eq hl
  obtain ⟨p', hp', hpacc, hpht⟩ := hl.linked.previous hh.stored hprev
  cases hp.symm.trans hp'
  have hphash : p.hash = head.previous := hl.linked.hash_eq hp
  have hpget : (l.block.del head.hash).get p.hash = some p := by
    rw [hphash, get_del_of_ne]
    · exact hp
    · rw [← hh.head_eq]
      exact hl.previous_ne_head hh.account hh.stored
  refine ⟨hlinked, ?_, ?_, ?_, ?_, ?_, ?_, ?_, ?_⟩
  · intro h sb hget
    rw [hacc]
    by_cases heq : sb.account = head.account
    · have := hh.height_lt hl hget heq
      refine ⟨_, by rw [heq, get_put_self], ?_⟩
      simp only [previousInfo]
      omega
    · rw [get_put_of_ne _ _ heq]
      exact hl.owner (get_of_get_del hget).2
  · intro h sb info' hget hzero hinfo'
    rw [hacc] at hinfo'
    have hold := (get_of_get_del hget).2
    rcases eq_or_of_get_put hinfo' with ⟨heq, rfl⟩ | ⟨-, hinfo'⟩
    · have hopen : info.openBlock = h := hl.opened hold hzero (heq ▸ hh.account)
      exact hopen
    · exact hl.opened hold hzero hinfo'
  · intro a info' hinfo'
    rw [hacc] at hinfo'
    rcases eq_or_of_get_put hinfo' with ⟨rfl, rfl⟩ | ⟨hne, hold⟩
    · refine ⟨p, hpget, hpacc, ?_, rfl, rfl⟩
      simp only [previousInfo]
      omega
    · obtain ⟨sb, hsb, hfacts⟩ := hl.head hold
      exact ⟨sb, hh.get_other_head hne hsb hfacts.1, hfacts⟩
  · intro h s
    rw [hsuccs, afterHead_block]
    constructor
    · intro hs
      obtain ⟨hne, hold⟩ := get_of_get_del hs
      obtain ⟨hne', sb, hsb, rfl⟩ := hl.successor.mp hold
      refine ⟨hne', sb, ?_, rfl⟩
      rw [get_del_of_ne]
      · exact hsb
      · rintro rfl
        cases hh.stored.symm.trans hsb
        exact hne rfl
    · rintro ⟨hne', sb, hsb, rfl⟩
      obtain ⟨hne, hold⟩ := get_of_get_del hsb
      rw [get_del_of_ne]
      · exact hl.successor.mpr ⟨hne', sb, hold, rfl⟩
      · intro heq
        exact hne (hl.linked.eq_of_previous_eq hold hh.stored hne' heq)
  · intro a info' hinfo'
    rw [hacc] at hinfo'
    rcases eq_or_of_get_put hinfo' with ⟨rfl, rfl⟩ | ⟨hne, hold⟩
    · rcases hrep with ⟨hzero, -⟩ | ⟨r, rb, key', -, hrun, hr, hfield, rfl⟩
      · exact absurd hzero hprev
      · cases hkey
        rw [← hphash] at hrun
        obtain ⟨hrun', hr'⟩ := hl.findRepBlock_del hh.stored hlinked hpget hrun hr
        exact ⟨r, rb, hrun', hr', hfield⟩
    · obtain ⟨sb, hsb, hsba, -⟩ := hl.head hold
      obtain ⟨r, rb, hrun, hr, hfield⟩ := hl.representative hold
      obtain ⟨hrun', hr'⟩ := hl.findRepBlock_del hh.stored hlinked
        (hh.get_other_head hne hsb hsba) hrun hr
      exact ⟨r, rb, hrun', hr', hfield⟩
  · exact hh.blockCount_del hl
  · rw [hcnt, hacc, size_put_of_some _ hh.account]
    exact hl.accountCount_eq
  · have hsum := sumBy_put_of_some (previousInfo info p key now)
      (fun _ info => info.blockCount) hh.account
    have := size_del_of_some hh.stored
    have := hl.total
    rw [hacc, afterHead_block]
    simp only [previousInfo] at hsum ⊢
    omega

end

namespace RollsBackHead

variable (hl : l.Chained) (h : l.RollsBackHead c head l')

include hl h

/-- What is executed when a head block is rolled back. -/
theorem executes :
    ∃ now info rep, l.IsHead head info ∧ l.PreviousRep head rep ∧
      ((l.confirmationHeight.get head.account).getD default).height < head.height ∧
      ((l.planner c head info rep now).blockSubType = .send →
        ∃ pending, l.pending.get ⟨head.block.destinationOrLink, head.hash⟩ = some pending) ∧
      l.executeRollback (l.planner c head info rep now).instructions = .ok l' := by
  obtain ⟨now, info, i, hh, hplan, hexec⟩ := h
  obtain ⟨rep, hrep, heq⟩ := hh.rollBackHeadBlock_eq hl now
  rw [heq] at hplan
  split at hplan
  · cases hplan
  · next hconf =>
    split at hplan
    · split at hplan <;> cases hplan
    · next hsend =>
      cases hplan
      refine ⟨now, info, rep, hh, hrep, by omega, ?_, hexec⟩
      intro hsub
      exact Option.ne_none_iff_exists'.mp fun hnone => hsend ⟨hsub, hnone⟩

/-- What the roll-back of a head block does, up to the weights. -/
theorem spec :
    ∃ now info rep weights cache, l.IsHead head info ∧ l.PreviousRep head rep ∧
      ((l.confirmationHeight.get head.account).getD default).height < head.height ∧
      ((l.planner c head info rep now).blockSubType = .send →
        ∃ pending, l.pending.get ⟨head.block.destinationOrLink, head.hash⟩ = some pending) ∧
      l.Revertible (l.planner c head info rep now).instructions ∧
      l' = l.afterRollback (l.planner c head info rep now).instructions weights cache := by
  obtain ⟨now, info, rep, hh, hrep, hconf, hsend, hexec⟩ := h.executes hl
  obtain ⟨weights, cache, hspec⟩ := executeRollback_eq_ok
    (l.planner c head info rep now).instructions
  obtain ⟨hrevertible, rfl⟩ := (hspec l').mp hexec
  exact ⟨now, info, rep, weights, cache, hh, hrep, hconf, hsend, hrevertible, rfl⟩

/-- The roll-back of a head block removes that block only. -/
theorem block_eq : l'.block = l.block.del head.hash := by
  obtain ⟨-, -, -, -, -, -, -, -, -, -, rfl⟩ := h.spec hl
  rfl

/-- The roll-back of a head block leaves the other accounts alone. -/
theorem account_of_ne {a : Account} (hne : a ≠ head.account) :
    l'.account.get a = l.account.get a := by
  obtain ⟨now, info, rep, weights, cache, hh, hrep, -, -, -, rfl⟩ := h.spec hl
  by_cases hprev : head.previous = 0
  · rw [(afterHead_account_first hprev).1, get_del_of_ne _ hne]
  · obtain ⟨p, key, -, -, hacc, -⟩ :=
      @IsHead.afterHead_account_previous c l head info now rep weights cache hh hl hrep hprev
    rw [hacc, get_put_of_ne _ _ hne]

/-- The roll-back of a head block touches neither confirmation heights nor final votes. -/
theorem frame :
    l'.confirmationHeight = l.confirmationHeight ∧ l'.confirmedCount = l.confirmedCount ∧
      l'.finalVote = l.finalVote := by
  obtain ⟨-, -, -, -, -, -, -, -, -, -, rfl⟩ := h.spec hl
  exact ⟨rfl, rfl, rfl⟩

/-- Only a block above the confirmation height of its account is rolled back. -/
theorem not_confirmed :
    ((l.confirmationHeight.get head.account).getD default).height < head.height := by
  obtain ⟨-, -, -, -, -, -, -, hconf, -⟩ := h.spec hl
  exact hconf

end RollsBackHead

/-- Rolling back a head block keeps the account chains. -/
theorem Chained.rollsBackHead (hl : l.Chained) (h : l.RollsBackHead c head l') : l'.Chained := by
  obtain ⟨-, info, rep, -, -, hh, hrep, -, -, -, rfl⟩ := h.spec hl
  by_cases hprev : head.previous = 0
  · exact hl.afterHead_first hh hprev
  · exact hl.afterHead_previous hh hrep hprev

end RsNano.Ledger
