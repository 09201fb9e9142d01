import RsNano.Ledger.Run

/-!
# Representative weights

The weight of a representative is the sum of the balances of the accounts that name it. The
table of weights and its cache are kept by wrapping deltas, so the sum is taken modulo `2 ^ 128`.
The invariant relates both to the account table: an insertion moves the balance of one account
from the representative it had to the one it gets, and a roll-back moves it to the
representative that the walk down the chain finds.
-/

namespace RsNano

open Table AccountInfo

/-- The balance that an account record adds to the weight of a representative. -/
def AccountInfo.share (info : AccountInfo) (representative : PublicKey) : Amount :=
  if info.representative = representative then info.balance else 0

/-- The weight that the account records give to a representative. -/
def delegatedWeight (accounts : Table Account AccountInfo) (representative : PublicKey) : Amount :=
  BitVec.ofNat 128 (accounts.sumBy fun _ info => (info.share representative).toNat)

section

variable {accounts : Table Account AccountInfo} {a : Account}

/-- A new account adds its balance. -/
theorem delegatedWeight_put_of_none (info : AccountInfo) (h : accounts.get a = none)
    (r : PublicKey) :
    delegatedWeight (accounts.put a info) r = delegatedWeight accounts r + info.share r := by
  rw [delegatedWeight, sumBy_put_of_none _ _ h, BitVec.ofNat_add, BitVec.ofNat_toNat,
    BitVec.setWidth_eq]
  exact add_comm _ _

/-- A changed account takes its old share away. -/
theorem delegatedWeight_put_of_some {old : AccountInfo} (info : AccountInfo)
    (h : accounts.get a = some old) (r : PublicKey) :
    delegatedWeight (accounts.put a info) r =
      delegatedWeight accounts r - old.share r + info.share r := by
  have hsum := congrArg (BitVec.ofNat 128) (sumBy_put_of_some info (fun _ i => (share i r).toNat) h)
  simp only [BitVec.ofNat_add, BitVec.ofNat_toNat, BitVec.setWidth_eq] at hsum
  rw [delegatedWeight, eq_sub_of_add_eq hsum, add_sub_assoc]
  exact add_comm _ _

/-- A deleted account takes its share away. -/
theorem delegatedWeight_del {old : AccountInfo} (h : accounts.get a = some old) (r : PublicKey) :
    delegatedWeight (accounts.del a) r = delegatedWeight accounts r - old.share r := by
  have hsum := congrArg (BitVec.ofNat 128) (sumBy_del_of_some (fun _ i => (share i r).toNat) h)
  simp only [BitVec.ofNat_add, BitVec.ofNat_toNat, BitVec.setWidth_eq] at hsum
  exact eq_sub_of_add_eq ((add_comm _ _).trans hsum)

end

namespace Ledger

/-- The table record of a weight. -/
def weightRecord (weight : Amount) : Option Amount := if weight = 0 then none else some weight

/-- The cache record of a weight. -/
def cachedRecord (minWeight weight : Amount) : Option Amount :=
  if weight < minWeight ∨ weight = 0 then none else some weight

@[simp] theorem weightRecord_zero : weightRecord 0 = none := if_pos rfl

@[simp] theorem cachedRecord_zero {minWeight : Amount} : cachedRecord minWeight 0 = none :=
  if_pos (Or.inr rfl)

/-- The table of weights and its cache hold the records of the given weights. -/
structure HasWeights (l : Ledger) (weight : PublicKey → Amount) : Prop where
  stored : ∀ r, l.repWeight.get r = weightRecord (weight r)
  cached : ∀ r, l.repWeightCache.get r = cachedRecord l.minWeight (weight r)

variable {c : LedgerConstants} {minWeight : Amount} {l l' : Ledger} {weight : PublicKey → Amount}
  {r : PublicKey}

/-- Writing a weight to the table. -/
theorem putStore_get {previous w : Amount} (hr : l.repWeight.get r = weightRecord previous)
    (h : l.putStore r previous w = .ok l') (r' : PublicKey) : l'.repWeight.get r' =
      if r' = r then weightRecord w else l.repWeight.get r' := by
  rw [putStore] at h
  rw [weightRecord] at hr ⊢
  split at h
  · next hzero =>
    rw [if_pos hzero]
    split at h
    · rw [bind_eq_ok] at h
      obtain ⟨t, ht, hl'⟩ := h
      obtain ⟨-, rfl⟩ := delete_eq_ok.mp ht
      cases hl'
      exact get_del _ _ _
    · next hprev =>
      cases h
      split
      · next heq => rw [heq, hr, if_pos (not_not.mp hprev)]
      · rfl
  · next hzero =>
    cases h
    rw [if_neg hzero]
    exact get_put _ _ _ _

/-- Writing a weight to the table leaves the cache alone. -/
theorem putStore_frame {previous w : Amount} (h : l.putStore r previous w = .ok l') :
    l'.repWeightCache = l.repWeightCache ∧ l'.minWeight = l.minWeight := by
  rw [putStore] at h
  split at h
  · split at h
    · rw [bind_eq_ok] at h
      obtain ⟨t, -, hl'⟩ := h
      cases hl'
      exact ⟨rfl, rfl⟩
    · cases h
      exact ⟨rfl, rfl⟩
  · cases h
    exact ⟨rfl, rfl⟩

/-- Writing a weight to the cache. -/
theorem putCache_get (w : Amount) (r r' : PublicKey) :
    (l.putCache r w).repWeightCache.get r' =
      if r' = r then cachedRecord l.minWeight w else l.repWeightCache.get r' := by
  rw [putCache, cachedRecord]
  split
  · exact get_del _ _ _
  · exact get_put _ _ _ _

@[simp] theorem putCache_repWeight (w : Amount) (r : PublicKey) :
    (l.putCache r w).repWeight = l.repWeight := by
  rw [putCache]
  split <;> rfl

@[simp] theorem putCache_minWeight (w : Amount) (r : PublicKey) :
    (l.putCache r w).minWeight = l.minWeight := by
  rw [putCache]
  split <;> rfl

namespace HasWeights

/-- The weights only depend on their table, their cache and the limit. -/
theorem congr {weight' : PublicKey → Amount} (hw : l.HasWeights weight)
    (h : ∀ r, weight r = weight' r) : l.HasWeights weight' := by
  obtain rfl : weight = weight' := funext h
  exact hw

variable (hw : l.HasWeights weight)

include hw

/-- A weight is read back from the table. -/
theorem storedWeight_eq (r : PublicKey) : l.storedWeight r = weight r := by
  rw [storedWeight, hw.stored, weightRecord]
  split
  · next hzero => exact hzero.symm
  · rfl

/-- Adding to the weight of one representative. -/
theorem representationAdd {amount : Amount} (h : l.representationAdd r amount = .ok l') :
    l'.HasWeights fun r' => weight r' + if r' = r then amount else 0 := by
  rw [Ledger.representationAdd, bind_eq_ok] at h
  obtain ⟨l1, hstore, h⟩ := h
  cases h
  rw [hw.storedWeight_eq] at hstore ⊢
  obtain ⟨hcache, hmin⟩ := putStore_frame hstore
  refine ⟨fun r' => ?_, fun r' => ?_⟩
  · rw [putCache_repWeight, putStore_get (hw.stored r) hstore, hw.stored]
    split
    · next heq => rw [heq]
    · rw [add_zero]
  · rw [putCache_get, putCache_minWeight, hcache, hmin, hw.cached]
    split
    · next heq => rw [heq]
    · rw [add_zero]

/-- Adding to the weights of two representatives, which may be the same. -/
theorem representationAddDual {rep1 rep2 : PublicKey} {amount1 amount2 : Amount}
    (h : l.representationAddDual rep1 amount1 rep2 amount2 = .ok l') :
    l'.HasWeights fun r => weight r + ((if r = rep1 then amount1 else 0) +
      if r = rep2 then amount2 else 0) := by
  rw [Ledger.representationAddDual] at h
  split at h
  · next hne =>
    simp only [bind_eq_ok] at h
    obtain ⟨l1, hstore1, l2, hstore2, h⟩ := h
    cases h
    rw [hw.storedWeight_eq] at hstore1 hstore2 ⊢
    rw [hw.storedWeight_eq]
    obtain ⟨hcache1, hmin1⟩ := putStore_frame hstore1
    obtain ⟨hcache2, hmin2⟩ := putStore_frame hstore2
    have hget1 := putStore_get (hw.stored rep1) hstore1
    have hrep2 : l1.repWeight.get rep2 = weightRecord (weight rep2) := by
      rw [hget1, if_neg (Ne.symm hne), hw.stored]
    -- the two writes are to different keys, so each key sees one of the two amounts
    have hnew : ∀ r, weight r + ((if r = rep1 then amount1 else 0) +
        if r = rep2 then amount2 else 0) =
        if r = rep2 then weight rep2 + amount2
        else if r = rep1 then weight rep1 + amount1 else weight r := by
      intro r
      split_ifs with h1 h2
      · exact absurd (h1.symm.trans h2) hne
      · rw [h1, add_zero]
      · rw [‹r = rep2›, zero_add]
      · rw [add_zero, add_zero]
    refine ⟨fun r => ?_, fun r => ?_⟩
    · rw [putCache_repWeight, putCache_repWeight, putStore_get hrep2 hstore2, hget1, hw.stored,
        hnew]
      split_ifs <;> rfl
    · simp only [putCache_get, putCache_minWeight, hcache1, hcache2, hmin1, hmin2, hw.cached, hnew]
      split_ifs <;> rfl
  · next heq =>
    obtain rfl := not_not.mp heq
    have hsum := hw.representationAdd h
    refine ⟨fun r => ?_, fun r => ?_⟩
    · rw [hsum.stored]
      split <;> rfl
    · rw [hsum.cached]
      split <;> rfl

variable {old new : AccountInfo}

/-- Moving a balance takes the old share away and adds the new one. -/
theorem moves
    (h : l.representationAddDual old.representative (0 - old.balance) new.representative new.balance
    = .ok l') : l'.HasWeights fun r => weight r - old.share r + new.share r := by
  refine (hw.representationAddDual h).congr fun r => ?_
  simp only [share, eq_comm, zero_sub, sub_eq_add_neg (weight r), add_assoc]
  split_ifs <;> simp

/-- Taking a balance away. -/
theorem removes (h : l.representationAdd old.representative (0 - old.balance) = .ok l') :
    l'.HasWeights fun r => weight r - old.share r := by
  refine (hw.representationAdd h).congr fun r => ?_
  simp only [share, eq_comm, zero_sub, sub_eq_add_neg (weight r)]
  split_ifs <;> simp

/-- Adding a balance. -/
theorem adds (h : l.representationAdd new.representative new.balance = .ok l') :
    l'.HasWeights fun r => weight r + new.share r := by
  refine (hw.representationAdd h).congr fun r => ?_
  simp only [share, eq_comm]

/-! The other tables are written without touching the weights. -/

theorem putBlock {sb : SavedBlock} (h : l.putBlock sb = .ok l') : l'.HasWeights weight := by
  obtain ⟨-, rfl⟩ := putBlock_eq_ok.mp h
  exact ⟨hw.stored, hw.cached⟩

theorem deleteBlock {hash : BlockHash} {clear : Option BlockHash}
    (h : l.deleteBlock hash clear = .ok l') : l'.HasWeights weight := by
  obtain ⟨-, rfl⟩ := deleteBlock_eq_ok.mp h
  exact ⟨hw.stored, hw.cached⟩

theorem updateAccount {account : Account} (h : l.updateAccount account old new = .ok l') :
    l'.HasWeights weight := by
  by_cases hhead : new.head = 0
  · obtain ⟨-, rfl⟩ := (updateAccount_del hhead).mp h
    exact ⟨hw.stored, hw.cached⟩
  · obtain ⟨-, rfl⟩ := (updateAccount_put hhead).mp h
    exact ⟨hw.stored, hw.cached⟩

theorem deletePending {key : Option PendingKey} (h : l.deletePending key = .ok l') :
    l'.HasWeights weight := by
  obtain ⟨-, rfl⟩ := deletePending_eq_ok.mp h
  exact ⟨hw.stored, hw.cached⟩

theorem insertPending (entry : Option (PendingKey × PendingInfo)) :
    (l.insertPending entry).HasWeights weight := by
  rw [insertPending_eq]
  exact ⟨hw.stored, hw.cached⟩

/-- What an insertion does to the weights. -/
theorem insert {b : Block} {i : BlockInsertInstructions} {sb : SavedBlock}
    (h : l.insert b i = .ok (some (l', sb))) :
    l'.HasWeights fun r => weight r -
      (if i.oldAccountInfo.head ≠ 0 then i.oldAccountInfo.share r else 0) +
        i.setAccountInfo.share r := by
  rw [Ledger.insert] at h
  split at h
  · cases h
  · simp only [bind_eq_ok] at h
    obtain ⟨l1, h1, l2, h2, l3, h3, l4, h4, h⟩ := h
    cases h
    have hw3 := (((hw.putBlock h1).updateAccount h2).deletePending h3).insertPending i.insertPending
    rw [updateRepresentativeCache] at h4
    split at h4
    · next hhead =>
      have hw4 := hw3.moves h4
      refine congr ⟨hw4.stored, hw4.cached⟩ fun r => ?_
      rw [if_pos hhead]
    · next hhead =>
      have hw4 := hw3.adds h4
      refine congr ⟨hw4.stored, hw4.cached⟩ fun r => ?_
      rw [if_neg hhead, sub_zero]

/-- What comes before the weights in a roll-back leaves them alone. -/
theorem executeRollback {i : RollbackInstructions} (h : l.executeRollback i = .ok l') :
    ∃ l1 l2 : Ledger, l1.HasWeights weight ∧ l1.rollBackRepresentativeCache i = .ok l2 ∧
      ∀ weight', l2.HasWeights weight' → l'.HasWeights weight' := by
  simp only [Ledger.executeRollback, bind_eq_ok] at h
  obtain ⟨l1, h1, l2, h2, l3, h3, l4, h4, h⟩ := h
  cases h
  exact ⟨l3, l4, (((hw.deletePending h1).insertPending i.addPending).updateAccount h2).deleteBlock
    h3, h4, fun _ hw4 => ⟨hw4.stored, hw4.cached⟩⟩

end HasWeights

/-- The weights are those that the account records give. -/
def Weighted (l : Ledger) : Prop := l.HasWeights (delegatedWeight l.account)

namespace Weighted

/-- The weights only depend on their tables and on the account records. -/
theorem of_eq (hw : l.Weighted) (hacc : l'.account = l.account)
    (hst : l'.repWeight = l.repWeight) (hcached : l'.repWeightCache = l.repWeightCache)
    (hmin : l'.minWeight = l.minWeight) : l'.Weighted := by
  rw [Weighted, hacc]
  refine ⟨fun r => ?_, fun r => ?_⟩
  · rw [hst, hw.stored]
  · rw [hcached, hmin, hw.cached]

/-- The genesis account holds all the weight. -/
theorem genesis : (genesis c minWeight).Weighted := by
  have hwt : ∀ r, delegatedWeight (Ledger.genesis c minWeight).account r =
      if r = c.genesisAccount.into .publicKey then Amount.max else 0 := by
    intro r
    refine (delegatedWeight_put_of_none _ (get_empty _) r).trans ?_
    simp only [share, eq_comm (b := r)]
    exact zero_add _
  refine ⟨fun r => ?_, fun r => ?_⟩
  · rw [hwt]
    refine (get_put _ _ _ _).trans ?_
    split
    · rfl
    · exact weightRecord_zero.symm
  · rw [hwt]
    change get (if Amount.max < minWeight ∨ Amount.max = 0 then ∅
      else (∅ : Table _ _).put _ _) r = cachedRecord minWeight _
    by_cases hr : r = c.genesisAccount.into .publicKey
    · rw [if_pos hr, hr, cachedRecord]
      split
      · rfl
      · exact get_put_self _ _ _
    · rw [if_neg hr, cachedRecord_zero]
      split
      · rfl
      · exact get_put_of_ne _ _ hr

variable (hw : l.Weighted) (hl : l.Chained)

include hw hl

/-- An accepted block moves the balance of its account. -/
theorem inserts {b : Block} (h : l.Inserts c b l') : l'.Weighted := by
  obtain ⟨now, i, sb, hval, hins⟩ := h
  obtain ⟨-, rfl⟩ := BlockValidator.validate_eq_ok.mp hval
  obtain ⟨weights, cache, hspec⟩ := insert_eq_ok
    (i := (l.createValidator c b now).createInstructions) b.hash_ne_zero
  have hacc : l'.account = l.account.put (l.createValidator c b now).account
      (l.createValidator c b now).newAccountInfo := by
    rw [((hspec l' sb).mp hins).2.2]
    rfl
  refine (HasWeights.insert hw hins).congr fun r => ?_
  rw [hacc]
  cases hget : l.account.get (l.createValidator c b now).account with
  | none =>
    have hold : (l.createValidator c b now).createInstructions.oldAccountInfo = default := by
      change (l.account.get (l.createValidator c b now).account).getD default = default
      rw [hget, Option.getD_none]
    have hhead : ¬ (default : AccountInfo).head ≠ 0 := not_not.mpr rfl
    rw [delegatedWeight_put_of_none _ hget, hold, if_neg hhead, sub_zero]
    rfl
  | some old =>
    have hold : (l.createValidator c b now).createInstructions.oldAccountInfo = old := by
      change (l.account.get (l.createValidator c b now).account).getD default = old
      rw [hget, Option.getD_some]
    rw [delegatedWeight_put_of_some _ hget, hold, if_pos (hl.head_ne_zero hget)]
    rfl

/-- The roll-back of a head block moves the balance of its account back. -/
theorem rollsBackHead {head : SavedBlock} (h : l.RollsBackHead c head l') : l'.Weighted := by
  obtain ⟨now, info, rep, hh, hrep, -, -, hexec⟩ := h.executes hl
  obtain ⟨weights, cache, hspec⟩ := executeRollback_eq_ok
    (l.planner c head info rep now).instructions
  have hl' := ((hspec l').mp hexec).2
  by_cases hprev : head.previous = 0
  · obtain rfl : rep = none := by
      rcases hrep with ⟨-, hnone⟩ | ⟨_, _, _, hne, -⟩
      · exact hnone
      · exact absurd hprev hne
    have hacc : l'.account = l.account.del head.account := by
      rw [hl']
      exact (afterHead_account_first hprev).1
    obtain ⟨l1, l2, hw1, hl2, hws⟩ := HasWeights.executeRollback hw hexec
    refine (hws _ (hw1.removes hl2)).congr fun r => ?_
    rw [hacc, delegatedWeight_del hh.account]
    rfl
  · obtain ⟨p, key, hp, rfl, hafter, -⟩ :=
      @IsHead.afterHead_account_previous c l head info now rep weights cache hh hl hrep hprev
    have hacc : l'.account = l.account.put head.account (previousInfo info p key now) := by
      rw [hl']
      exact hafter
    obtain ⟨l1, l2, hw1, hl2, hws⟩ := HasWeights.executeRollback hw hexec
    have hbal : (l.planner c head info (some key) now).previousBalance = p.balance := by
      rcases hh.previousBlock hl with ⟨hzero, -⟩ | ⟨p', -, hprevious, hp', -⟩
      · exact absurd hzero hprev
      · cases hp.symm.trans hp'
        simp [RollbackPlanner.previousBalance, planner, hprevious]
    change l1.representationAddDual info.representative (0 - info.balance) key
      (l.planner c head info (some key) now).previousBalance = _ at hl2
    rw [hbal] at hl2
    have hmoves : l2.HasWeights fun r => delegatedWeight l.account r - info.share r +
        (previousInfo info p key now).share r := hw1.moves hl2
    refine (hws _ hmoves).congr fun r => ?_
    rw [hacc, delegatedWeight_put_of_some _ hh.account]

/-- Roll-backs keep the weights. -/
theorem headSteps (h : HeadSteps c l l') : l'.Weighted :=
  h.invariant hl hw fun hl1 ih hhead => ih.rollsBackHead hl1 hhead

/-- Every change of the ledger keeps the weights. -/
theorem step (h : Step c l l') : l'.Weighted := by
  rcases h.cases hl with ⟨b, h⟩ | h | ⟨-, -, rfl⟩ | ⟨-, rfl⟩
  · exact hw.inserts hl h
  · exact hw.headSteps hl h
  · exact hw.of_eq rfl rfl rfl rfl
  · exact hw.of_eq rfl rfl rfl rfl

/-- Every run keeps the weights. -/
theorem run (h : Run c l l') : l'.Weighted := by
  induction h with
  | refl => exact hw
  | tail hrun hstep ih => exact ih.step (hl.run hrun) hstep

end Weighted

/-- Roll-backs keep the limit of the cache. -/
theorem HeadSteps.minWeight_eq (hl : l.Chained) (h : HeadSteps c l l') :
    l'.minWeight = l.minWeight := by
  refine h.invariant hl rfl fun hl1 ih hhead => ?_
  obtain ⟨-, -, -, -, -, -, -, -, -, -, rfl⟩ := hhead.spec hl1
  exact ih

/-- The limit of the cache never changes. -/
theorem Step.minWeight_eq (hl : l.Chained) (h : Step c l l') : l'.minWeight = l.minWeight := by
  rcases h.cases hl with ⟨b, h⟩ | h | ⟨-, -, rfl⟩ | ⟨-, rfl⟩
  · obtain ⟨-, -, -, -, -, rfl⟩ := h.spec
    rfl
  · exact HeadSteps.minWeight_eq hl h
  · rfl
  · rfl

/-- The limit of the cache on every reachable ledger. -/
theorem Reachable.minWeight_eq (h : Reachable c minWeight l) : l.minWeight = minWeight := by
  induction h with
  | refl => rfl
  | tail hrun hstep ih => exact (hstep.minWeight_eq (Chained.genesis.run hrun)).trans ih

/-- The records of a weight in the cache and in the table. -/
theorem cachedRecord_eq_some {w weight : Amount} : cachedRecord minWeight weight = some w ↔
    weightRecord weight = some w ∧ minWeight ≤ w ∧ w ≠ 0 := by
  simp only [cachedRecord, weightRecord, ite_eq_iff, reduceCtorEq, and_false, false_or,
    Option.some.injEq, not_or, BitVec.not_lt]
  constructor
  · rintro ⟨⟨hmin, hzero⟩, rfl⟩
    exact ⟨⟨hzero, rfl⟩, hmin, hzero⟩
  · rintro ⟨⟨hzero, rfl⟩, hmin, -⟩
    exact ⟨⟨hmin, hzero⟩, rfl⟩

/-- On every reachable ledger the weight of each representative is the sum, modulo `2 ^ 128`, of
the balances of the accounts that name it, without records of weight zero, and the cache holds
the records that are not below the limit. Updates of the weights delete no missing record,
whatever the ledger is in the middle of their transaction. -/
theorem reachable_repWeights (h : Reachable c minWeight l) :
    (∀ r, l.repWeight.get r = if delegatedWeight l.account r = 0 then none
      else some (delegatedWeight l.account r)) ∧
    (∀ r w, l.repWeightCache.get r = some w ↔
      l.repWeight.get r = some w ∧ minWeight ≤ w ∧ w ≠ 0) ∧
    ∀ m : Ledger, (∀ i, ∃ m', m.updateRepresentativeCache i = .ok m') ∧
      ∀ i, ∃ m', m.rollBackRepresentativeCache i = .ok m' := by
  have hw : l.Weighted := Weighted.genesis.run Chained.genesis h
  refine ⟨hw.stored, fun r w => ?_, fun m => ⟨fun i => ?_, fun i => ?_⟩⟩
  · rw [hw.cached, hw.stored, h.minWeight_eq]
    exact cachedRecord_eq_some
  · obtain ⟨weights, cache, hok⟩ := updateRepresentativeCache_ok i
    exact ⟨_, hok⟩
  · obtain ⟨weights, cache, hok⟩ := rollBackRepresentativeCache_ok i
    exact ⟨_, hok⟩

/-- The weights of the dev network after its first receive. -/
theorem repWeights_devReceived :
    (∀ r, devReceived.repWeight.get r = if delegatedWeight devReceived.account r = 0 then none
      else some (delegatedWeight devReceived.account r)) ∧
    (∀ r w, devReceived.repWeightCache.get r = some w ↔
      devReceived.repWeight.get r = some w ∧ 0 ≤ w ∧ w ≠ 0) ∧
    ∀ m : Ledger, (∀ i, ∃ m', m.updateRepresentativeCache i = .ok m') ∧
      ∀ i, ∃ m', m.rollBackRepresentativeCache i = .ok m' :=
  reachable_repWeights reachable_devReceived

end Ledger

end RsNano
