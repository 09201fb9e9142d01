import RsNano.Ledger.RollbackExact

/-!
# Roll-backs return

The performer has no visible measure, and it panics where the planner finds no account to
continue with. On a plannable ledger it does neither: an unconfirmed target is removed, and for a
confirmed one the head blocks of its account go until the planner meets a confirmed block.

Insertions and cementing keep a ledger plannable, with one exception. The balance after a legacy
receive is computed modulo `2 ^ 128`. If it wraps, the receive lowers the balance, is planned as
a send, and there is no account that it has sent to. This takes money that was created by a
raise under an epoch link.
-/

namespace RsNano

open Ledger BlockRollbackPerformer

namespace Ledger

variable {c : LedgerConstants} {clock : ℕ → ℕ} {minWeight : Amount} {l l' : Ledger}
  {target head : SavedBlock}

/-! ### Confirmed targets -/

/-- The performer stops at a confirmed block, after some head roll-backs. -/
def Stops (c : LedgerConstants) (clock : ℕ → ℕ) (l : Ledger) (target head : SavedBlock) : Prop :=
  ∀ i rest done, ∃ j p p', Loop.Reaches (loopBody c clock) i
      ⟨l, (target, head) :: rest, done⟩ j p ∧
    loopBody c clock j p = .ok (.inr (p', some .blockConfirmed)) ∧
    HeadSteps c l p'.ledger

/-- The performer returns the error of the planner. -/
theorem loopBody_error {i : ℕ} (rest : List (SavedBlock × SavedBlock)) (done : List SavedBlock)
    {e : RollbackError} (hget : l.block.get target.hash = some target)
    (hplan : l.rollBackHeadBlock c head (clock i) = .ok (.error e)) :
    loopBody c clock i ⟨l, (target, head) :: rest, done⟩ =
      .ok (.inr (⟨l, (target, head) :: rest, done⟩, some e)) := by
  have hex := blockExists_of_get target.block.hash_ne_zero hget
  simp [loopBody, iterate, hex, hplan, pure, Except.pure, bind, Except.bind]

/-- The performer stops at once when the head of the account is confirmed. -/
theorem Stops.of_confirmed (hl : l.Chained) {info : AccountInfo} (hh : l.IsHead head info)
    (hget : l.block.get target.hash = some target) (hconf : l.Confirmed head.hash) :
    Stops c clock l target head := by
  intro i rest done
  obtain ⟨sb, hsb, hle⟩ := hconf
  cases hsb.symm.trans hh.stored
  obtain ⟨rep, -, hplan⟩ := hh.rollBackHeadBlock_eq hl (clock i)
  exact ⟨i, _, _, .refl _ _, loopBody_error rest done hget (hplan.trans (if_pos hle)), .refl⟩

/-- The performer stops at a confirmed block when its target is confirmed. The induction is on
the number of blocks: every head block above the confirmed ones goes, and so do the blocks that
depend on it. -/
theorem Plannable.stops (clock : ℕ → ℕ) {rank : BlockHash → ℕ} (n : ℕ) :
    ∀ {l : Ledger} {target head : SavedBlock} {info : AccountInfo}, l.Plannable c →
      Ranked c l.block rank → l.block.size ≤ n → l.block.get target.hash = some target →
      l.Confirmed target.hash → l.IsHead head info → head.account = target.account →
      Stops c clock l target head := by
  induction n with
  | zero =>
    intro l target head info _ _ hsize hget _ _ _
    have := Table.size_pos_of_get hget
    omega
  | succ n ih =>
    intro l target head info hp hrank hsize hget htgt hh hacc
    have hl := hp.chained
    have hstays : ∀ {l1}, HeadSteps c l l1 →
        l1.block.get target.hash = some target ∧ l1.Confirmed target.hash := by
      intro l1 hsteps
      have hkeep := (hp.cemented.headSteps hl hsteps).2
      exact ⟨hkeep.block hget htgt, hkeep.confirmed htgt⟩
    have hsmaller : ∀ {l1 newHead info1}, HeadSteps c l l1 → l1.block.size < l.block.size →
        l1.IsHead newHead info1 → newHead.account = target.account →
        Stops c clock l1 target newHead := by
      intro l1 newHead info1 hsteps hlt hh1 hacc1
      exact ih (hp.headSteps hsteps) (hrank.mono fun hx => hsteps.get_of_get hl hx) (by omega)
        (hstays hsteps).1 (hstays hsteps).2 hh1 hacc1
    by_cases hconf : l.Confirmed head.hash
    · exact Stops.of_confirmed hl hh hget hconf
    intro i rest done
    by_cases hent : head.balance < previousBalanceIn l.block head →
        ∃ entry, l.pending.get ⟨head.block.destinationOrLink, head.hash⟩ = some entry
    · obtain ⟨rep, weights, cache, hplan, hexec, hroll⟩ := hh.plan_rollBack (clock i) hl
        hent fun hle => hconf ⟨head, hh.stored, hle⟩
      have hstep : HeadStep c l _ := ⟨head, hroll⟩
      have hne : head.hash ≠ target.hash := fun heq => hconf (heq ▸ htgt)
      obtain ⟨newHead, info1, hload, hacc1, hh1⟩ :=
        (hl.rollsBackHead hroll).loadAccountHead_ok (hstays (.single hstep)).1
      obtain ⟨k, p, p', hrest, hdone, hsteps⟩ := hsmaller (.single hstep) (hstep.size_lt hl) hh1
        hacc1 (i + 1) rest (head :: done)
      exact ⟨k, p, p', .step (loopBody_above rest done hget hplan hexec
        hne hload) hrest, hdone, .head hstep hsteps⟩
    · obtain ⟨hlt, hnone⟩ := Classical.not_imp.mp hent
      have hnone := not_not.mp (mt Option.ne_none_iff_exists'.mp hnone)
      obtain ⟨bound, hbound⟩ := l.block.exists_bound rank
      obtain ⟨j, l1, done1, dep, hrchs, hret, -, -, hlt1, info1, hh1⟩ :=
        hp.clears_request hrank hh hget hacc hconf hlt hnone (fun dep _ htdep =>
          Plannable.clears clock l.block.size bound hp hrank hbound le_rfl (by omega) htdep)
          i rest done
      obtain ⟨k, p, p', hrest, hdone, hsteps⟩ := hsmaller hret.steps hlt1 hh1 hacc j rest done1
      exact ⟨k, p, p', hrchs.trans hrest, hdone, hret.steps.trans hsteps⟩

/-- With enough steps the performer reports that the target is confirmed, and leaves it. -/
theorem Plannable.performer_confirmed (hp : l.Plannable c) {rank : BlockHash → ℕ}
    (hrank : Ranked c l.block rank) {hash : BlockHash} {sb : SavedBlock}
    (hget : l.block.get hash = some sb) (hconf : l.Confirmed hash) (clock : ℕ → ℕ) :
    ∃ p n, p.ledger.block.get hash = some sb ∧ ∀ fuel, n ≤ fuel →
      BlockRollbackPerformer.rollBack c fuel clock l hash = .ok (p, some .blockConfirmed) := by
  have hl := hp.chained
  obtain rfl := hl.linked.hash_eq hget
  obtain ⟨head, info, hload, hacc, hh⟩ := hl.loadAccountHead_ok hget
  obtain ⟨j, p, p', hrchs, hdone, hsteps⟩ :=
    Plannable.stops clock l.block.size hp hrank le_rfl hget hconf hh hacc 0 [] []
  obtain ⟨n, hn⟩ := Loop.run_of_reaches hrchs hdone
  refine ⟨p', n, (hp.cemented.headSteps hl hsteps).2.block hget hconf, fun fuel hfuel => ?_⟩
  have hloadblock : l.loadBlock sb.hash = .ok sb := by
    simp [loadBlock, getBlock, sb.block.hash_ne_zero, hget]
  simp only [BlockRollbackPerformer.rollBack, hloadblock, bind_eq_ok]
  exact ⟨_, hload, hn fuel hfuel⟩

/-! ### Insertions and cementing -/

/-- A legacy receive whose amount does not fit on top of the balance of its account. -/
def receiveWraps (l : Ledger) (b : Block) : Prop :=
  match b with
  | .legacyReceive receive => ∃ p info, l.block.get receive.previous = some p ∧
      l.pending.get ⟨p.account, receive.source⟩ = some info ∧
      2 ^ 128 ≤ p.balance.toNat + info.amount.toNat
  | _ => False

/-- A finite sequence of insertions of accepted blocks, each allowed on the ledger it meets, and
of iterations of the cementer. -/
def GrowthRun (c : LedgerConstants) (allowed : Ledger → Block → Prop) : Ledger → Ledger → Prop :=
  Relation.ReflTransGen fun l l' => (∃ b, allowed l b ∧ l.Inserts c b l') ∨
    ∃ maxBlocks s s' hash, BlockCementer.iterate c maxBlocks l s hash = .ok (l', s')

/-- What insertions and cementing keep: the pending table is exact, the dependencies are ranked,
and only sends lower the balance. -/
structure Growing (c : LedgerConstants) (l : Ledger) : Prop where
  chained : l.Chained
  receivables : l.Receivables c
  cemented : l.Cemented c
  genesis : l.Confirmed c.genesisBlock.hash
  ranked : ∃ rank, Ranked c l.block rank
  receive : ∀ {x sb source}, l.block.get x = some sb → sb.receivedSend c = some source →
    sb.destination = none
  rises : ∀ {x sb}, l.block.get x = some sb → sb.destination = none →
    previousBalanceIn l.block sb ≤ sb.balance

/-- The first block of an account does not lower its balance. -/
theorem previousBalanceIn_le_of_first {t : Table BlockHash SavedBlock} {sb : SavedBlock}
    (hprev : sb.previous = 0) : previousBalanceIn t sb ≤ sb.balance := by
  have hzero : previousBalanceIn t sb = 0 := by
    rw [previousBalanceIn, hprev]
    rfl
  rw [hzero]
  exact BitVec.le_def.mpr (Nat.zero_le _)

namespace Growing

/-- The planner does not fail on a growing ledger. -/
theorem plannable (hg : l.Growing c) : l.Plannable c := by
  refine ⟨hg.chained, hg.cemented, hg.genesis, ?_, ?_⟩
  · intro x sb hget _ hlt
    cases hdest : sb.destination with
    | none => exact absurd hlt (BitVec.not_lt.mpr (hg.rises hget hdest))
    | some destination =>
      exact ⟨destination, rfl, hg.receivables.complete hget hdest⟩
  · intro x y sb rb hget hrb hrecv hlt
    obtain ⟨sb', hsb', hdest, hbal, -⟩ := hg.receivables.received hrb hrecv
    cases hget.symm.trans hsb'
    refine ⟨hdest, BitVec.lt_of_le_ne (hg.rises hrb (hg.receive hrb hrecv)) ?_⟩
    intro heq
    -- a receive that leaves the balance alone has received nothing
    rw [← heq] at hbal
    have hzero : previousBalanceIn l.block sb - sb.balance = 0 := left_eq_add.mp hbal
    rw [sub_eq_zero.mp hzero] at hlt
    exact BitVec.lt_irrefl _ hlt

/-- A new block that is no send does not lower the balance, unless it is a receive that wraps. -/
theorem rises_extends {nb : SavedBlock} (he : Extends c l nb l') (hl' : l'.Chained)
    (hno : ¬ receiveWraps l nb.block) (hdest : nb.destination = none) :
    previousBalanceIn l'.block nb ≤ nb.balance := by
  cases hblk : nb.block with
  | legacySend send => simp [SavedBlock.destination, hblk] at hdest
  | state state =>
    by_contra hlt
    have hbal : nb.balance = state.balance := by rw [SavedBlock.balance, hblk]
    have hsends : sendsTo l'.block nb (state.link.into .account) := by
      rw [sendsTo, hblk]
      exact ⟨hbal ▸ BitVec.not_le.mp hlt, rfl⟩
    cases hdest.symm.trans ((he.sends _).mpr hsends)
  | legacyOpen open_ =>
    have hprev : nb.previous = 0 := by rw [SavedBlock.previous, hblk]; rfl
    exact previousBalanceIn_le_of_first hprev
  | legacyChange change =>
    cases he.transfer with
    | send _ hsome _ _ _ => cases hdest.symm.trans hsome
    | receive source _ _ hrecv _ _ _ _ _ =>
      simp [SavedBlock.receivedSend, SavedBlock.source, hblk] at hrecv
    | keep _ _ _ hbal => exact BitVec.le_of_eq hbal.symm
    | raise _ _ _ hraise => rw [hblk] at hraise; cases hraise
  | legacyReceive receive =>
    have hsrc : nb.receivedSend c = some receive.source := by
      rw [SavedBlock.receivedSend, SavedBlock.source, hblk]
    have hprev : nb.previous = receive.previous := by rw [SavedBlock.previous, hblk]; rfl
    obtain ⟨-, -, entry, hent, hbal, -⟩ := he.received hsrc
    rcases he.stored with hzero | ⟨p, hp⟩
    · exact previousBalanceIn_le_of_first hzero
    · have hne := hl'.linked.hash_ne_zero (he.get_of_get hp)
      obtain ⟨p', hp', hacc, -⟩ := hl'.linked.previous he.get_new hne
      cases hp'.symm.trans (he.get_of_get hp)
      have hold : previousBalanceIn l'.block nb = p.balance := by
        rw [previousBalanceIn, balanceAfter, if_pos hne, hp']
        rfl
      have hfits : p.balance.toNat + entry.amount.toNat < 2 ^ 128 := by
        by_contra hge
        rw [hblk] at hno
        exact hno ⟨p, entry, hprev ▸ hp, hacc.symm ▸ hent, not_lt.mp hge⟩
      rw [hbal, hold, BitVec.le_def, BitVec.toNat_add_of_lt hfits]
      exact Nat.le_add_right _ _

/-- An insertion keeps a ledger growing, unless it is a receive that wraps. -/
theorem inserts (hg : l.Growing c) {b : Block} (hno : ¬ receiveWraps l b)
    (h : l.Inserts c b l') : l'.Growing c := by
  have hl := hg.chained
  have hl' := hl.insert h
  obtain ⟨nb, rfl, he⟩ := h.extends_ledger hl hg.receivables.genesis
  obtain ⟨rank, hrank⟩ := hg.ranked
  refine ⟨hl', hg.receivables.extends_ledger hl he, hg.cemented.extends_ledger hl' he,
    he.keepsConfirmed.confirmed hg.genesis, hg.receivables.ranked_extends hl he hrank, ?_, ?_⟩
  · intro x sb source hget hrecv
    rcases he.eq_or_get hget with ⟨-, rfl⟩ | hold
    · exact (he.received hrecv).1
    · exact hg.receive hold hrecv
  · intro x sb hget hdest
    rcases he.eq_or_get hget with ⟨-, rfl⟩ | hold
    · exact rises_extends he hl' hno hdest
    · rw [he.previousBalanceIn_eq hl hold]
      exact hg.rises hold hdest

/-- The cementer keeps a ledger growing. -/
theorem cement (hg : l.Growing c) {maxBlocks : ℕ} {s s' : BlockCementer} {hash : BlockHash}
    (h : BlockCementer.iterate c maxBlocks l s hash = .ok (l', s')) : l'.Growing c := by
  have hl' := hg.chained.cement h
  obtain ⟨hc', hkeep⟩ := hg.cemented.iterate hg.chained h
  have hgen := hkeep.confirmed hg.genesis
  have hr := hg.receivables
  rcases cement_cases h with rfl | ⟨block, -, -, -, rfl⟩
  · exact hg
  · exact ⟨hl', ⟨hr.genesis, hr.entry, hr.unreceived, hr.complete, hr.received, hr.once, hr.sends,
      hr.decreases⟩, hc', hgen, hg.ranked, hg.receive, hg.rises⟩

/-- The genesis ledger is growing. -/
theorem genesis_ledger : (Ledger.genesis c minWeight).Growing c := by
  refine ⟨Chained.genesis, Receivables.genesis_ledger, Cemented.genesis_ledger,
    Reversible.genesis_ledger.genesis, ⟨_, ranked_genesis⟩, ?_, ?_⟩
  · intro x sb source hget _
    obtain ⟨-, rfl⟩ := genesis_block_get.mp hget
    rfl
  · intro x sb hget _
    obtain ⟨-, rfl⟩ := genesis_block_get.mp hget
    exact previousBalanceIn_le_of_first rfl

/-- Every run of insertions and cementing without receives that wrap keeps a ledger growing. -/
theorem run (hg : l.Growing c) (h : GrowthRun c (fun l b => ¬ receiveWraps l b) l l') :
    l'.Growing c := by
  induction h with
  | refl => exact hg
  | tail _ hstep ih =>
    rcases hstep with ⟨b, hno, hb⟩ | ⟨maxBlocks, s, s', hash, h⟩
    · exact ih.inserts hno hb
    · exact ih.cement h

end Growing

/-- Roll-backs return in every ledger that insertions and cementing reach from genesis without
receives that wrap. With enough steps the roll-back of a block ends without a panic; it reports
no error if the block is not confirmed, and that it is confirmed otherwise. The block is gone
afterwards exactly when it was not confirmed. -/
theorem growthRun_rollBack_returns
    (h : GrowthRun c (fun l b => ¬ receiveWraps l b) (genesis c minWeight) l) {hash : BlockHash}
    (hexists : l.blockExists hash = true) (clock : ℕ → ℕ) :
    ∃ l' n, (∀ fuel, n ≤ fuel → ∃ r, l.rollBack c fuel clock hash = .ok (l', [r]) ∧
        r.error = if l.isConfirmed hash then some .blockConfirmed else none) ∧
      l'.blockExists hash = l.isConfirmed hash := by
  have hg : l.Growing c := Growing.genesis_ledger.run h
  have hl := hg.chained
  obtain ⟨rank, hrank⟩ := hg.ranked
  obtain ⟨hne, hsome⟩ := of_decide_eq_true hexists
  obtain ⟨sb, hget⟩ := Option.isSome_iff_exists.mp hsome
  cases hconf : l.isConfirmed hash with
  | false =>
    have hunconfirmed : ¬ l.Confirmed hash := by
      intro hx
      cases hconf.symm.trans (hl.isConfirmed_of_confirmed hx)
    obtain ⟨l', done, n, hret, hrun⟩ := hg.plannable.performer hrank hget hunconfirmed clock
    refine ⟨l', n, fun fuel hfuel => ⟨_, rollBack_eq hl hget (hrun fuel hfuel), rfl⟩, ?_⟩
    simp [blockExists, Table.contains, hret.gone]
  | true =>
    obtain ⟨p, n, hstays, hrun⟩ := hg.plannable.performer_confirmed hrank hget
      (confirmed_of_isConfirmed hconf) clock
    exact ⟨p.ledger, n, fun fuel hfuel => ⟨_, rollBack_eq hl hget (hrun fuel hfuel), rfl⟩,
      BlockRollbackPerformer.blockExists_of_get hne hstays⟩

/-- On the dev network the genesis block is confirmed, and its roll-back says so. -/
theorem rollBack_returns_devReceived :
    ∃ l' n, (∀ fuel, n ≤ fuel → ∃ r,
        devReceived.rollBack devConstants fuel (fun _ => 0) devGenesisBlock.hash = .ok (l', [r]) ∧
        r.error = if devReceived.isConfirmed devGenesisBlock.hash then some .blockConfirmed
          else none) ∧
      l'.blockExists devGenesisBlock.hash = devReceived.isConfirmed devGenesisBlock.hash :=
  growthRun_rollBack_returns
    (.tail (.single (.inl ⟨.state devSend, id, inserts_processed (by decide +kernel)⟩))
      (.inl ⟨.state devOpen, id, inserts_processed (by decide +kernel)⟩))
    (by decide +kernel) fun _ => 0

/-- The dev network after everything was sent away, one raw was created under an epoch link and
sent after it, and a legacy receive has wrapped the balance. -/
def devWrapped : Ledger :=
  ((((((genesis devConstants 0).processed devConstants (.legacySend devSendAll)).processed
    devConstants (.legacyOpen devOpenAll)).processed devConstants (.state devRaiseEmpty)).processed
    devConstants (.state devSendRaised)).processed devConstants (.legacyReceive devReceiveRaised))

/-- The receive that has wrapped the balance cannot be rolled back: the performer panics. -/
theorem rollBack_devWrapped_panics :
    ∃ l, GrowthRun devConstants (fun _ _ => True) (genesis devConstants 0) l ∧
      l.blockExists devReceiveRaised.hash = true ∧ l.isConfirmed devReceiveRaised.hash = false ∧
      l.rollBack devConstants 1 (fun _ => 0) devReceiveRaised.hash =
        .error .noLatestBlockForDestination := by
  have hrun : InsertRun devConstants (fun _ _ => True) (genesis devConstants 0) devWrapped :=
    .processed (.processed (.processed (.processed (.processed .refl trivial (by decide +kernel))
      trivial (by decide +kernel)) trivial (by decide +kernel)) trivial (by decide +kernel))
      trivial (by decide +kernel)
  refine ⟨devWrapped, ?_, by decide +kernel, by decide +kernel, by decide +kernel⟩
  exact Relation.ReflTransGen.mono (fun _ _ hstep => .inl hstep) _ _ hrun

end Ledger

end RsNano
