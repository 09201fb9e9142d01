import RsNano.Ledger.RepWeights
import RsNano.Ledger.RollbackExact

/-!
# Undoing an insertion

Most of the ledger is determined by its blocks: the successors, the account records up to their
time of modification, the weights and the counts. A roll-back that removes the block it was
asked for and nothing else restores all of these. What it does to the pending table follows
from the change of the balance alone, while the insertion goes by the type and the link of the
block. `Ledger.Undoable` says when the two cancel out.
-/

namespace RsNano

open BlockValidator Table

/-- An account record without its time of modification. -/
def AccountInfo.untimed (info : AccountInfo) : AccountInfo := { info with modified := 0 }

/-- The share of an account in the weights does not depend on the time of modification. -/
theorem delegatedWeight_untimed (accounts : Table Account AccountInfo) (r : PublicKey) :
    delegatedWeight (accounts.mapValues fun _ info => info.untimed) r =
      delegatedWeight accounts r := by
  rw [delegatedWeight, sumBy_mapValues]
  rfl

namespace Ledger

variable {c : LedgerConstants} {minWeight : Amount} {l l' : Ledger}

/-- The account table without the times of modification. -/
def untimedAccounts (l : Ledger) : Table Account AccountInfo :=
  l.account.mapValues fun _ info => info.untimed

/-- The tables and caches of a ledger are those of another one, up to the times of modification
of the accounts. -/
structure Restores (l l' : Ledger) : Prop where
  block : l'.block = l.block
  successors : l'.successors = l.successors
  accounts : l'.untimedAccounts = l.untimedAccounts
  pending : l'.pending = l.pending
  repWeight : l'.repWeight = l.repWeight
  confirmationHeight : l'.confirmationHeight = l.confirmationHeight
  blockCount : l'.blockCount = l.blockCount
  accountCount : l'.accountCount = l.accountCount
  repWeightCache : l'.repWeightCache = l.repWeightCache

/-! ### What the blocks determine -/

section

variable {a : Account} {info info' : AccountInfo}

/-- The open block of an account is the first block of its chain. -/
theorem Chained.get_openBlock (hl : l.Chained) (hinfo : l.account.get a = some info) :
    ∃ sb, l.block.get info.openBlock = some sb ∧ sb.account = a ∧ sb.height = 1 := by
  obtain ⟨head, hhead, rfl, -⟩ := hl.head hinfo
  obtain ⟨x, first, hfst, hacc, hht⟩ :=
    hl.linked.exists_at_height le_rfl hhead (hl.linked.height_pos hhead)
  have hprev : first.previous = 0 := by
    by_contra hne
    obtain ⟨p, hp, -, hsucc⟩ := hl.linked.previous hfst hne
    have hpos := hl.linked.height_pos hp
    omega
  rw [hl.opened hfst hprev (hacc ▸ hinfo)]
  exact ⟨first, hfst, hacc, hht⟩

section

variable (hl : l.Chained) (hl' : l'.Chained) (hblock : l'.block = l.block)

include hl hl' hblock

/-- Ledgers with the same blocks have the same chains of the same length. -/
theorem Chained.blockCount_le (hinfo : l.account.get a = some info)
    (hinfo' : l'.account.get a = some info') : info.blockCount ≤ info'.blockCount := by
  obtain ⟨head, hhead, rfl, hht, -⟩ := hl.head hinfo
  rw [← hblock] at hhead
  obtain ⟨info'', hinfo'', hle⟩ := hl'.owner hhead
  cases hinfo'.symm.trans hinfo''
  omega

/-- Ledgers with the same blocks have the same account records, up to their time. -/
theorem Chained.untimed_eq (hinfo : l.account.get a = some info)
    (hinfo' : l'.account.get a = some info') : info'.untimed = info.untimed := by
  have hcnt : info'.blockCount = info.blockCount :=
    Nat.le_antisymm (hl'.blockCount_le hl hblock.symm hinfo' hinfo)
      (hl.blockCount_le hl' hblock hinfo hinfo')
  obtain ⟨head, hhead, hacc, hht, hbal, hep⟩ := hl.head hinfo
  obtain ⟨head', hhead', hacc', hht', hbal', hep'⟩ := hl'.head hinfo'
  rw [hblock] at hhead'
  have hsame : info'.head = info.head :=
    hl.linked.unique hhead' hhead (hacc'.trans hacc.symm) (by omega)
  rw [hsame, hhead] at hhead'
  cases hhead'
  obtain ⟨first, hfst, hfaccount, hfheight⟩ := hl.get_openBlock hinfo
  obtain ⟨first', hfst', hfaccount', hfheight'⟩ := hl'.get_openBlock hinfo'
  rw [hblock] at hfst'
  have hopen : info'.openBlock = info.openBlock :=
    hl.linked.unique hfst' hfst (hfaccount'.trans hfaccount.symm) (by omega)
  obtain ⟨r, rb, hrun, hr, hrep⟩ := hl.representative hinfo
  obtain ⟨r', rb', hrun', hr', hrep'⟩ := hl'.representative hinfo'
  rw [representativeBlockHash, hblock, hsame] at hrun'
  cases hrun.symm.trans hrun'
  rw [hblock, hr] at hr'
  cases hr'
  have hrepresentative : info'.representative = info.representative :=
    Option.some.inj (hrep'.symm.trans hrep)
  simp only [AccountInfo.untimed, hsame, hopen, hcnt, hrepresentative, ← hbal, ← hbal',
    ← hep, ← hep']

/-- An account is there when it has a block. -/
theorem Chained.exists_account (hinfo : l.account.get a = some info) :
    ∃ info', l'.account.get a = some info' := by
  obtain ⟨head, hhead, rfl, -⟩ := hl.head hinfo
  rw [← hblock] at hhead
  obtain ⟨info', hinfo', -⟩ := hl'.owner hhead
  exact ⟨info', hinfo'⟩

/-- Ledgers with the same blocks have the same accounts. -/
theorem Chained.untimedAccounts_eq : l'.untimedAccounts = l.untimedAccounts := by
  refine ext_get fun a => ?_
  rw [untimedAccounts, untimedAccounts, get_mapValues, get_mapValues]
  cases hinfo : l.account.get a with
  | none =>
    cases hinfo' : l'.account.get a with
    | none => rfl
    | some info' =>
      obtain ⟨info, hsome⟩ := hl'.exists_account hl hblock.symm hinfo'
      cases hinfo.symm.trans hsome
  | some info =>
    obtain ⟨info', hinfo'⟩ := hl.exists_account hl' hblock hinfo
    rw [hinfo']
    exact congrArg some (hl.untimed_eq hl' hblock hinfo hinfo')

/-- Ledgers with the same blocks have the same successors. -/
theorem Chained.successors_eq : l'.successors = l.successors := by
  refine ext_get fun x => Option.ext fun s => ?_
  rw [hl'.successor, hl.successor, hblock]

end

/-- Ledgers with the same accounts have the same weights. -/
theorem Weighted.weights_eq (hw : l.Weighted) (hw' : l'.Weighted)
    (haccs : l'.untimedAccounts = l.untimedAccounts) (hmin : l'.minWeight = l.minWeight) :
    l'.repWeight = l.repWeight ∧ l'.repWeightCache = l.repWeightCache := by
  have hwt : delegatedWeight l'.account = delegatedWeight l.account := by
    funext r
    rw [← delegatedWeight_untimed l'.account r, ← delegatedWeight_untimed l.account r]
    exact congrArg (delegatedWeight · r) haccs
  constructor
  · refine ext_get fun r => ?_
    rw [hw'.stored, hw.stored, hwt]
  · refine ext_get fun r => ?_
    rw [hw'.cached, hw.cached, hwt, hmin]

/-- A ledger with the blocks, the pending entries and the confirmation heights of another one is
the same ledger. -/
theorem Restores.of_block (hl : l.Chained) (hl' : l'.Chained) (hw : l.Weighted)
    (hw' : l'.Weighted) (hblock : l'.block = l.block) (hpend : l'.pending = l.pending)
    (hconf : l'.confirmationHeight = l.confirmationHeight)
    (hmin : l'.minWeight = l.minWeight) : Restores l l' := by
  have haccs := hl.untimedAccounts_eq hl' hblock
  have hsize : l'.account.size = l.account.size := by
    have huntimed := congrArg size haccs
    rwa [untimedAccounts, untimedAccounts, size_mapValues, size_mapValues] at huntimed
  obtain ⟨hrepWeight, hcache⟩ := hw.weights_eq hw' haccs hmin
  exact
    { block := hblock
      successors := hl.successors_eq hl' hblock
      accounts := haccs
      pending := hpend
      repWeight := hrepWeight
      confirmationHeight := hconf
      blockCount := by rw [hl'.blockCount_eq, hl.blockCount_eq, hblock]
      accountCount := by rw [hl'.accountCount_eq, hl.accountCount_eq, hsize]
      repWeightCache := hcache }

end

/-! ### The pending table -/

/-- The entry that a roll-back writes for a new block that has raised the balance. -/
def returnedEntry (c : LedgerConstants) (l : Ledger) (b : Block) : PendingInfo where
  source :=
    if b.sourceOrLink = b.hash then (l.createValidator c b 0).account
    else (l.blockAccount b.sourceOrLink).getD 0
  amount := (l.createValidator c b 0).newBalance - (l.createValidator c b 0).oldBalance
  epoch := (l.createValidator c b 0).sourceEpoch

/-- The change of the balance tells what the insertion of a block does to the pending table. A
block that lowers the balance is a send, and its entry is a new one. For a block that raises it
the ledger holds the entry that a roll-back writes. Any other block is no receive, and if it is
a send, its entry is there already. -/
def Undoable (c : LedgerConstants) (l : Ledger) (b : Block) : Prop :=
  if (l.createValidator c b 0).newBalance < (l.createValidator c b 0).oldBalance then
    (l.createValidator c b 0).isSend = true ∧ l.pending.get ⟨b.destinationOrLink, b.hash⟩ = none
  else if (l.createValidator c b 0).oldBalance < (l.createValidator c b 0).newBalance then
    l.pending.get ⟨(l.createValidator c b 0).account, b.sourceOrLink⟩ = some (l.returnedEntry c b)
  else
    (l.createValidator c b 0).isReceive = false ∧
      ((l.createValidator c b 0).isSend = true →
        l.pending.get ⟨b.destinationOrLink, b.hash⟩ =
          some ⟨(l.createValidator c b 0).account, 0, .epoch0⟩)

instance (c : LedgerConstants) (l : Ledger) (b : Block) : Decidable (l.Undoable c b) :=
  by delta Undoable; infer_instance

section

variable {b : Block} {now : ℕ} {weights cache : Table PublicKey Amount}

/-- Sends are the blocks that write an entry. -/
theorem isSend_eq_isSome (v : BlockValidator) : v.isSend = v.newPendingInfo.isSome := by
  cases hblock : v.block with
  | state state => cases hsend : v.isSend <;> simp [newPendingInfo, hblock, hsend]
  | _ => simp [isSend, newPendingInfo, hblock]

/-- Receives are the blocks that delete an entry. -/
theorem isReceive_eq_isSome (v : BlockValidator) :
    v.isReceive = v.deleteReceivedPendingInfo.isSome := by
  cases hrecv : v.isReceive <;> simp [deleteReceivedPendingInfo, hrecv]

/-- The destination of a new send is what the planner looks up. -/
theorem destinationOrLink_of_saved {destination : Account}
    (h : (l.createValidator c b now).saved.destination = some destination) :
    b.destinationOrLink = destination := by
  exact destinationOrLink_of_destination h

variable (c l b now weights cache) in
/-- A new block is the head of its account. -/
theorem isHead_saved :
    (l.afterAccepted c b now weights cache).IsHead (l.createValidator c b now).saved
      (l.createValidator c b now).newAccountInfo := by
  refine ⟨get_put_self _ _ _, ?_, rfl⟩
  rw [createValidator_saved_account]
  exact get_put_self _ _ _

/-- The account that the planner finds for the source of a new block. -/
theorem blockAccount_afterAccepted (hash : BlockHash) :
    ((l.afterAccepted c b now weights cache).blockAccount hash).getD 0 =
      if hash = b.hash then (l.createValidator c b now).account
      else (l.blockAccount hash).getD 0 := by
  by_cases hnew : hash = b.hash
  · rw [if_pos hnew, hnew, blockAccount, getBlock, if_neg b.hash_ne_zero, afterAccepted_block,
      get_put_self]
    exact createValidator_saved_account
  · rw [if_neg hnew, blockAccount, getBlock, afterAccepted_block, get_put_of_ne _ _ hnew]
    rfl

variable (hl : l.Chained) (hv : (l.createValidator c b now).Passes)
  (hi : l.Insertable b (l.createValidator c b now).createInstructions)
  (hlt : (l.createValidator c b now).newBalance < (l.createValidator c b now).oldBalance)

include hl hv

namespace Chained

/-- A state block that raises its balance under an epoch link raises the balance. -/
theorem lt_newBalance_of_raise (hraise : (l.createValidator c b now).raisesUnderEpochLink = true) :
    (l.createValidator c b now).oldBalance < (l.createValidator c b now).newBalance := by
  have hcoh := hl.coherent hv
  cases b with
  | state state =>
    rw [newBalance_state createValidator_block hcoh, ← hcoh]
    exact (of_decide_eq_true hraise).2
  | _ => cases hraise

/-- A block that raises the balance is undone if the entry that is written was there. -/
theorem undone_raised
    (hlt : (l.createValidator c b now).oldBalance < (l.createValidator c b now).newBalance)
    (entry : PendingInfo) :
    (l.afterAccepted c b now weights cache).pending.put
        ⟨(l.createValidator c b now).account, b.sourceOrLink⟩ entry = l.pending ↔
      l.pending.get ⟨(l.createValidator c b now).account, b.sourceOrLink⟩ = some entry := by
  change (pendingWith (l.pendingWithout (l.createValidator c b now).deleteReceivedPendingInfo)
    (l.createValidator c b now).newPendingInfo).put _ _ = _ ↔ _
  cases hv.effect (hl.coherent hv) with
  | send _ _ _ _ _ hle => exact absurd hlt (BitVec.not_lt.mpr hle)
  | receive _ _ _ hins hdel _ _ _ =>
    rw [hins, hdel]
    change (l.pending.del ⟨(l.createValidator c b now).account, b.sourceOrLink⟩).put _ _ = _ ↔ _
    rw [put_del]
    exact put_eq_self_iff
  | keep _ _ _ _ hbal =>
    rw [hbal] at hlt
    exact absurd hlt (BitVec.lt_irrefl _)
  | raise _ _ hins hdel _ =>
    rw [hins, hdel]
    exact put_eq_self_iff

/-- The planner finds the balance before a new block. -/
theorem previousBalanceIn_afterAccepted (hnew : l.block.get b.hash = none) :
    previousBalanceIn (l.afterAccepted c b now weights cache).block
      (l.createValidator c b now).saved = (l.createValidator c b now).oldBalance :=
  (hl.previousBalanceIn_saved hv hnew).trans (hl.coherent hv)

include hlt in
/-- A new block that lowers the balance and has no entry is a legacy receive, for which the
planner looks up account zero. -/
theorem destinationOrLink_eq_zero (hnone : (l.afterAccepted c b now weights
    cache).pending.get ⟨b.destinationOrLink, b.hash⟩ = none) :
    b.destinationOrLink = 0 ∧ (l.createValidator c b now).isSend = false := by
  have hsend : (l.createValidator c b now).isSend = false := by
    by_contra hsend
    rw [Bool.not_eq_false, isSend_eq_isSome] at hsend
    cases hv.effect (hl.coherent hv) with
    | send destination hdest _ hins _ _ =>
      have hsame := destinationOrLink_of_saved hdest
      change (pendingWith _ (l.createValidator c b now).newPendingInfo).get _ = none at hnone
      rw [hins, hsame] at hnone
      cases (get_put_self _ _ _).symm.trans hnone
    | receive _ _ _ hins _ _ _ _ | keep _ _ hins _ _
    | raise _ _ hins _ _ => rw [hins] at hsend; cases hsend
  refine ⟨?_, hsend⟩
  cases b with
  | legacySend send => cases hsend
  | state state =>
    rw [newBalance_state createValidator_block (hl.coherent hv)] at hlt
    cases (isSend_state.mpr hlt).symm.trans hsend
  | legacyReceive _ | legacyOpen _ | legacyChange _ => rfl

include hi

/-- A block that leaves the balance alone is undone if it is no receive, and no send with a new
entry. -/
theorem undone_kept
    (heq : (l.createValidator c b now).newBalance = (l.createValidator c b now).oldBalance) :
    (l.afterAccepted c b now weights cache).pending = l.pending ↔
      (l.createValidator c b now).isReceive = false ∧
        ((l.createValidator c b now).isSend = true →
          l.pending.get ⟨b.destinationOrLink, b.hash⟩ =
            some ⟨(l.createValidator c b now).account, 0, .epoch0⟩) := by
  change pendingWith (l.pendingWithout (l.createValidator c b now).deleteReceivedPendingInfo)
    (l.createValidator c b now).newPendingInfo = _ ↔ _
  rw [isSend_eq_isSome, isReceive_eq_isSome]
  cases hv.effect (hl.coherent hv) with
  | send destination hdest _ hins hdel _ =>
    have hsame := destinationOrLink_of_saved hdest
    have hep : (l.createValidator c b now).saved.epoch = .epoch0 := by
      cases b with
      | state state =>
        -- a state block is a send only if it lowers the balance
        have hsend := isSend_state.mp ((isSend_eq_isSome _).trans (congrArg Option.isSome hins))
        rw [← newBalance_state createValidator_block (hl.coherent hv), heq] at hsend
        exact absurd hsend (BitVec.lt_irrefl _)
      | _ => rfl
    rw [hins, hdel, hsame, heq, hep, sub_self]
    refine put_eq_self_iff.trans ⟨fun h => ⟨rfl, fun _ => h⟩, fun h => h.2 rfl⟩
  | receive _ _ _ hins hdel _ _ _ =>
    obtain ⟨entry, hent⟩ := hi.pending _ hdel
    rw [hins, hdel]
    refine iff_of_false (fun hsame => ?_) (fun h => Bool.noConfusion h.1)
    cases (get_del_self _ _).symm.trans (hsame.symm ▸ hent)
  | keep _ _ hins hdel _ =>
    rw [hins, hdel]
    exact iff_of_true rfl ⟨rfl, fun h => Bool.noConfusion h⟩
  | raise _ _ _ _ hraise =>
    have hlt := hl.lt_newBalance_of_raise hv hraise
    rw [heq] at hlt
    exact absurd hlt (BitVec.lt_irrefl _)

include hlt in
/-- A block that lowers the balance is undone if it is a send with a new entry. -/
theorem undone_lowered :
    (l.afterAccepted c b now weights cache).pending.del ⟨b.destinationOrLink, b.hash⟩ = l.pending ↔
      (l.createValidator c b now).isSend = true ∧
        l.pending.get ⟨b.destinationOrLink, b.hash⟩ = none := by
  change (pendingWith (l.pendingWithout (l.createValidator c b now).deleteReceivedPendingInfo)
    (l.createValidator c b now).newPendingInfo).del _ = _ ↔ _
  rw [isSend_eq_isSome]
  cases hv.effect (hl.coherent hv) with
  | send destination hdest _ hins hdel _ =>
    have hsame := destinationOrLink_of_saved hdest
    rw [hins, hdel, hsame]
    exact del_put_eq_self_iff.trans (and_iff_right rfl).symm
  | receive pending _ _ hins hdel _ _ _ =>
    obtain ⟨entry, hent⟩ := hi.pending _ hdel
    rw [hins, hdel]
    refine iff_of_false (fun heq => ?_) (fun h => Bool.noConfusion h.1)
    have hgone := (get_of_get_del (heq.symm ▸ hent)).2
    cases (get_del_self _ _).symm.trans hgone
  | keep _ _ _ _ hbal =>
    rw [hbal] at hlt
    exact absurd hlt (BitVec.lt_irrefl _)
  | raise _ _ _ _ hraise =>
    exact absurd hlt (BitVec.lt_asymm (hl.lt_newBalance_of_raise hv hraise))

/-- The roll-back of a new block restores the pending table exactly when the block is undoable. -/
theorem pending_afterHead_iff (hl' : (l.afterAccepted c b now weights cache).Chained)
    (rep : Option PublicKey) (now' : ℕ) (weights' cache' : Table PublicKey Amount) :
    ((l.afterAccepted c b now weights cache).afterHead c (l.createValidator c b now).saved
        (l.createValidator c b now).newAccountInfo rep now' weights' cache').pending =
      l.pending ↔ l.Undoable c b := by
  have hh := isHead_saved c l b now weights cache
  have hnew := hl.saved_balance hv
  have hold : previousBalanceIn (l.afterAccepted c b now weights cache).block _ = _ :=
    hl.previousBalanceIn_afterAccepted hv hi.fresh
  by_cases hlowered :
      (l.createValidator c b now).newBalance < (l.createValidator c b now).oldBalance
  · rw [hh.pending_lowered rep now' hl' (by rwa [hnew, hold])]
    refine (hl.undone_lowered hv hi hlowered).trans ?_
    exact (if_pos hlowered).to_iff.symm
  · by_cases hraised :
        (l.createValidator c b now).oldBalance < (l.createValidator c b now).newBalance
    · rw [hh.pending_raised rep now' hl' (by rwa [hnew, hold]), hold, hnew,
        createValidator_saved_account, sourceEpoch_saved hv, blockAccount_afterAccepted]
      refine (hl.undone_raised hv hraised _).trans ?_
      exact ((if_neg hlowered).trans (if_pos hraised)).to_iff.symm
    · have heq : (l.createValidator c b now).newBalance = (l.createValidator c b now).oldBalance :=
        BitVec.le_antisymm (BitVec.not_lt.mp hraised) (BitVec.not_lt.mp hlowered)
      rw [hh.pending_kept rep now' hl' (by rw [hnew, hold, heq])]
      refine (hl.undone_kept hv hi heq).trans ?_
      exact ((if_neg hlowered).trans (if_neg hraised)).to_iff.symm

include hlt in
/-- The performer panics on a new block that has lowered the balance without being a send: the
planner looks for the account that the block has sent to, which is account zero. -/
theorem plan_lowered (now' : ℕ) (hl' : (l.afterAccepted c b now weights cache).Chained)
    (hzero : (l.afterAccepted c b now weights cache).account.get 0 = none) (hhigh : ¬
    (l.createValidator c b now).saved.height ≤ (((l.afterAccepted c b now weights
    cache).confirmationHeight.get (l.createValidator c b now).saved.account).getD default).height)
    (hnone : (l.afterAccepted c b now weights cache).pending.get ⟨b.destinationOrLink, b.hash⟩ =
    none) :
    (l.afterAccepted c b now weights cache).rollBackHeadBlock c (l.createValidator c b now).saved
      now' = .error .noLatestBlockForDestination := by
  have hh := isHead_saved c l b now weights cache
  have hlt' : (l.createValidator c b now).saved.balance < previousBalanceIn
      (l.afterAccepted c b now weights cache).block (l.createValidator c b now).saved := by
    rwa [hl.saved_balance hv, hl.previousBalanceIn_afterAccepted hv hi.fresh]
  obtain ⟨rep, -, hplan⟩ := hh.rollBackHeadBlock_eq hl' now'
  rw [hplan, if_neg hhigh, if_pos ⟨hh.blockSubType_send rep now' hl' hlt', hnone⟩]
  have hhead : (l.afterAccepted c b now weights cache).accountHead
      (l.createValidator c b now).saved.block.destinationOrLink = none := by
    change (l.afterAccepted c b now weights cache).accountHead b.destinationOrLink = none
    rw [(hl.destinationOrLink_eq_zero hv hlt hnone).1, accountHead, getAccount, hzero]
    rfl
  rw [hhead]

end Chained

end

/-! ### The roll-back of a new block -/

variable {clock : ℕ → ℕ} {head : SavedBlock} {info : AccountInfo}

/-- The performer is done when it has rolled back a head block that was its target. -/
theorem IsHead.rollBack_eq (hh : l.IsHead head info) (hl : l.Chained) {ins : RollbackInstructions}
    (hplan : l.rollBackHeadBlock c head (clock 0) = .ok (.ok (.rollBackBlock ins)))
    (hexec : l.executeRollback ins = .ok l') (hgone : l'.block.get head.hash = none) :
    ∃ n, ∀ fuel, n ≤ fuel → ∃ r, l.rollBack c fuel clock head.hash = .ok (l', [r]) ∧
      r.error = none := by
  obtain ⟨head', info', hload, hacc, hh'⟩ := hl.loadAccountHead_ok hh.stored
  obtain rfl := hh.eq_of_account hh' hacc
  have hrchs : Loop.Reaches (BlockRollbackPerformer.loopBody c clock) 0
      ⟨l, [(head', head')], []⟩ 2 ⟨l', [], [head']⟩ :=
    .step (BlockRollbackPerformer.loopBody_target _ _ hh.stored hplan hexec rfl)
      (.step (BlockRollbackPerformer.loopBody_pop _ _ hgone) (.refl _ _))
  have hdone : BlockRollbackPerformer.loopBody c clock 2 ⟨l', [], [head']⟩ =
      .ok (.inr (⟨l', [], [head']⟩, none)) := rfl
  obtain ⟨n, hn⟩ := Loop.run_of_reaches hrchs hdone
  refine ⟨n, fun fuel hfuel => ?_⟩
  have hloadblock : l.loadBlock head'.hash = .ok head' := by
    simp [loadBlock, getBlock, head'.block.hash_ne_zero, hh.stored]
  have hrun : BlockRollbackPerformer.rollBack c fuel clock l head'.hash =
      .ok (⟨l', [], [head']⟩, none) := by
    simp only [BlockRollbackPerformer.rollBack, hloadblock, bind_eq_ok]
    exact ⟨_, hload, hn fuel hfuel⟩
  exact ⟨_, Ledger.rollBack_eq hl hh.stored hrun, rfl⟩

/-- The performer panics when the planner does on a head block that is its target. -/
theorem IsHead.rollBack_ne_ok (hh : l.IsHead head info) (hl : l.Chained) {e : Abort}
    (hplan : l.rollBackHeadBlock c head (clock 0) = .error e) (fuel : ℕ)
    (x : Ledger × List RollbackResult) : l.rollBack c fuel clock head.hash ≠ .ok x := by
  intro hx
  obtain ⟨head', info', hload, hacc, hh'⟩ := hl.loadAccountHead_ok hh.stored
  obtain rfl := hh.eq_of_account hh' hacc
  rw [rollBack, rollBackBatch, if_neg (by simp), hh.stored] at hx
  simp only [bind_eq_ok] at hx
  obtain ⟨p, hp, -⟩ := hx
  have hloadblock : l.loadBlock head'.hash = .ok head' := by
    simp [loadBlock, getBlock, head'.block.hash_ne_zero, hh.stored]
  simp only [BlockRollbackPerformer.rollBack, hloadblock, bind_eq_ok] at hp
  obtain ⟨head, hhead, hrun⟩ := hp
  cases hload.symm.trans hhead
  have hex := BlockRollbackPerformer.blockExists_of_get head'.block.hash_ne_zero hh.stored
  have hbody : BlockRollbackPerformer.loopBody c clock 0 ⟨l, [(head', head')], []⟩ = .error e := by
    simp [BlockRollbackPerformer.loopBody, BlockRollbackPerformer.iterate, hex, hplan, bind,
      Except.bind]
  cases fuel with
  | zero => cases hrun
  | succ fuel =>
    rcases Loop.run_succ_eq_ok.mp hrun with hr | ⟨s, hs, -⟩
    · cases hbody.symm.trans hr
    · cases hbody.symm.trans hs

/-- In every ledger that a node can reach, the roll-back of a new block restores the ledger
before its insertion exactly when the change of the balance tells what the insertion did to the
pending table. -/
theorem reachable_rollBack_restores_iff (h : Reachable c minWeight l) {b : Block}
    (hb : l.Inserts c b l') (clock : ℕ → ℕ) :
    (∃ l'' n, (∀ fuel, n ≤ fuel → ∃ r, l'.rollBack c fuel clock b.hash = .ok (l'', [r]) ∧
      r.error = none) ∧ Restores l l'') ↔ l.Undoable c b := by
  have hreach' : Reachable c minWeight l' := h.tail (.insert b hb)
  have hl := h.chained
  have hl' := hreach'.chained
  have hw : l.Weighted := Weighted.genesis.run Chained.genesis h
  have hw' : l'.Weighted := Weighted.genesis.run Chained.genesis hreach'
  obtain ⟨nb, hblock, he⟩ := hb.extends_ledger hl (h.cemented.genesis_account hl)
  have hheight := he.height_gt h.cemented hl'
  have hnb : l'.block.get b.hash = some nb := by
    rw [he.block_eq, ← hblock]
    exact Table.get_put_self _ _ _
  obtain ⟨now, weights, cache, hv, hi, rfl⟩ := hb.spec
  have hh := isHead_saved c l b now weights cache
  obtain rfl : nb = (l.createValidator c b now).saved :=
    Option.some.inj (hnb.symm.trans hh.stored)
  by_cases hentry : (l.createValidator c b now).saved.balance < previousBalanceIn
      (l.afterAccepted c b now weights cache).block (l.createValidator c b now).saved →
      ∃ entry, (l.afterAccepted c b now weights cache).pending.get
        ⟨b.destinationOrLink, b.hash⟩ = some entry
  · obtain ⟨rep, weights', cache', hplan, hexecute, hroll⟩ :=
      hh.plan_rollBack (clock 0) hl' hentry (not_le.mpr hheight)
    have hrestored := Table.del_put_of_get_none (l.createValidator c b now).saved hi.fresh
    obtain ⟨n, hn⟩ := hh.rollBack_eq hl' hplan hexecute (hroll.gone hl')
    refine Iff.trans ?_ (hl.pending_afterHead_iff hv hi hl' rep (clock 0) weights' cache')
    constructor
    · rintro ⟨l'', m, hm, hsame⟩
      obtain ⟨r, hr, -⟩ := hm (n + m) (by omega)
      obtain ⟨r', hr', -⟩ := hn (n + m) (by omega)
      cases hr.symm.trans hr'
      exact hsame.pending
    · intro hpending
      exact ⟨_, n, hn, Restores.of_block hl (hl'.rollsBackHead hroll) hw
        (hw'.rollsBackHead hl' hroll) hrestored hpending rfl rfl⟩
  · have hlt := (Classical.not_imp.mp hentry).1
    have hnone : (l.afterAccepted c b now weights cache).pending.get
        ⟨b.destinationOrLink, b.hash⟩ = none := by
      rw [Option.eq_none_iff_forall_ne_some]
      exact fun entry hsome => (Classical.not_imp.mp hentry).2 ⟨entry, hsome⟩
    rw [hl.saved_balance hv, hl.previousBalanceIn_afterAccepted hv hi.fresh] at hlt
    have hplan := hl.plan_lowered hv hi hlt (clock 0) hl' hreach'.account_zero
      (not_le.mpr hheight) hnone
    refine iff_of_false ?_ ?_
    · rintro ⟨l'', n, hn, -⟩
      obtain ⟨r, hr, -⟩ := hn n le_rfl
      exact hh.rollBack_ne_ok hl' hplan n _ hr
    · intro hundoable
      have hsend := (hl.destinationOrLink_eq_zero hv hlt hnone).2
      have hlowered := (if_pos hlt).to_iff.mp hundoable
      cases hsend.symm.trans hlowered.1

/-- The roll-back of the first receive on the dev network restores the ledger before it. -/
theorem rollBack_restores_devSent :
    ∃ l'' n, (∀ fuel, n ≤ fuel → ∃ r,
      devReceived.rollBack devConstants fuel (fun _ => 0) devOpen.hash = .ok (l'', [r]) ∧
        r.error = none) ∧ Restores devSent l'' := by
  have hsent : InsertRun devConstants (fun _ _ => True) (genesis devConstants 0) devSent :=
    insertRun_devSent trivial
  exact (reachable_rollBack_restores_iff hsent.run
    (inserts_processed (by decide +kernel)) fun _ => 0).mpr (by decide +kernel)

/-- The roll-back of a legacy send of nothing leaves its pending entry in the ledger. -/
theorem exists_entry_left :
    ∃ l b l', Reachable devConstants 0 l ∧ l.Inserts devConstants b l' ∧
      ¬ ∃ l'' n, (∀ fuel, n ≤ fuel → ∃ r,
        l'.rollBack devConstants fuel (fun _ => 0) b.hash = .ok (l'', [r]) ∧ r.error = none) ∧
          Restores l l'' := by
  refine ⟨genesis devConstants 0, .legacySend devZeroSend, _, .refl,
    inserts_processed (by decide +kernel), ?_⟩
  rintro ⟨l'', n, hn, hsame⟩
  obtain ⟨x, hrun, hleft⟩ : ∃ x, ((genesis devConstants 0).processed devConstants
      (.legacySend devZeroSend)).rollBack devConstants 3 (fun _ => 0) devZeroSend.hash = .ok x ∧
        decide (x.1.pending.get ⟨devZeroSend.destination, devZeroSend.hash⟩ ≠ none) = true :=
    exists_eq_ok (by decide +kernel)
  obtain ⟨r, hr, -⟩ := hn (n + 3) (by omega)
  cases (rollBack_mono (by omega : 3 ≤ n + 3) hrun).symm.trans hr
  have hpending : l''.pending = ∅ := hsame.pending
  rw [hpending] at hleft
  exact of_decide_eq_true hleft (Table.get_empty _)

end Ledger

end RsNano
