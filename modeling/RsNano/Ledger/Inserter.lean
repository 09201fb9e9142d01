import RsNano.Ledger.Validator

/-!
# Block insertion

The inserter follows the instructions of the validator inside a write transaction. It
re-checks one thing only: that the head of the account is still the one the validator saw.
The representative weights live in a table and in a cache that leaves out small weights;
both are updated by wrapping deltas.
-/

namespace RsNano.Ledger

open Table

section

variable (l : Ledger)

/-- Weights below the limit, and zero weights, are not cached. -/
def putCache (representative : PublicKey) (newWeight : Amount) : Ledger :=
  if newWeight < l.minWeight ∨ newWeight = 0 then
    { l with repWeightCache := l.repWeightCache.del representative }
  else { l with repWeightCache := l.repWeightCache.put representative newWeight }

/-- A zero weight is not stored. -/
def putStore (representative : PublicKey) (previousWeight newWeight : Amount) :
    Except Abort Ledger :=
  if newWeight = 0 then
    if previousWeight ≠ 0 then do
      let repWeight ← l.repWeight.delete representative
      return { l with repWeight }
    else return l
  else return { l with repWeight := l.repWeight.put representative newWeight }

def storedWeight (representative : PublicKey) : Amount := (l.repWeight.get representative).getD 0

def representationAdd (representative : PublicKey) (amount : Amount) : Except Abort Ledger := do
  let previousWeight := l.storedWeight representative
  let newWeight := previousWeight + amount
  let l ← l.putStore representative previousWeight newWeight
  return l.putCache representative newWeight

def representationAddDual (rep1 : PublicKey) (amount1 : Amount) (rep2 : PublicKey)
    (amount2 : Amount) : Except Abort Ledger :=
  if rep1 ≠ rep2 then do
    let previousWeight1 := l.storedWeight rep1
    let previousWeight2 := l.storedWeight rep2
    let newWeight1 := previousWeight1 + amount1
    let newWeight2 := previousWeight2 + amount2
    let l ← l.putStore rep1 previousWeight1 newWeight1
    let l ← l.putStore rep2 previousWeight2 newWeight2
    return (l.putCache rep1 newWeight1).putCache rep2 newWeight2
  else l.representationAdd rep1 (amount1 + amount2)

end

variable (l : Ledger)

/-- Write an account record, or delete it when the new head is zero. -/
def updateAccount (account : Account) (oldInfo newInfo : AccountInfo) :
    Except Abort Ledger :=
  if newInfo.head ≠ 0 then do
    let accountCount :=
      if oldInfo.head = 0 ∧ newInfo.openBlock = newInfo.head then l.accountCount + 1
      else l.accountCount
    let table ←
      if oldInfo.head ≠ 0 ∧ oldInfo.epoch ≠ newInfo.epoch then l.account.delete account
      else pure l.account
    return { l with account := table.put account newInfo, accountCount }
  else do
    let table ← l.account.delete account
    return { l with account := table, accountCount := l.accountCount - 1 }

/-- Apply an optional deletion to the pending table. -/
def deletePending (key : Option PendingKey) : Except Abort Ledger :=
  match key with
  | some key => do
    let pending ← l.pending.delete key
    return { l with pending }
  | none => return l

/-- Apply an optional write to the pending table. -/
def insertPending (entry : Option (PendingKey × PendingInfo)) : Ledger :=
  match entry with
  | some (key, info) => { l with pending := l.pending.put key info }
  | none => l

def accountChangedSinceValidation (i : BlockInsertInstructions) : Bool :=
  ((l.account.get i.account).getD default).head ≠ i.oldAccountInfo.head

/-- Add the block record and, for a block with a predecessor, its successor record. -/
def putBlock (sb : SavedBlock) : Except Abort Ledger := do
  let block ← l.block.putNew sb.hash sb.stored
  let successors := if sb.previous ≠ 0 then l.successors.put sb.previous sb.hash else l.successors
  return { l with block, successors }

/-- Move the weight of the account to its new representative and balance. -/
def updateRepresentativeCache (i : BlockInsertInstructions) : Except Abort Ledger :=
  if i.oldAccountInfo.head ≠ 0 then
    l.representationAddDual i.oldAccountInfo.representative (0 - i.oldAccountInfo.balance)
      i.setAccountInfo.representative i.setAccountInfo.balance
  else l.representationAdd i.setAccountInfo.representative i.setAccountInfo.balance

/-- Insert a block by following its instructions.

The result is `none` when the account has changed since the block was validated. -/
def insert (b : Block) (i : BlockInsertInstructions) :
    Except Abort (Option (Ledger × SavedBlock)) :=
  if l.accountChangedSinceValidation i then return none
  else do
    let sb : SavedBlock := ⟨b, i.setSideband⟩
    let l ← l.putBlock sb
    let l ← l.updateAccount i.account i.oldAccountInfo i.setAccountInfo
    let l ← l.deletePending i.deletePending
    let l := l.insertPending i.insertPending
    let l ← l.updateRepresentativeCache i
    return some ({ l with blockCount := l.blockCount + 1 }, sb)

/-! ### What the updates compute -/

variable {l l' : Ledger}

/-- Storing a weight succeeds if a weight that is not zero has a record. -/
theorem putStore_ok {representative : PublicKey} {previousWeight : Amount} (newWeight : Amount)
    (h : previousWeight ≠ 0 → ∃ w, l.repWeight.get representative = some w) :
    ∃ weights, l.putStore representative previousWeight newWeight =
      .ok { l with repWeight := weights } ∧
      ∀ rep, rep ≠ representative → weights.get rep = l.repWeight.get rep := by
  rw [putStore]
  split
  · split
    · next hne =>
      refine ⟨l.repWeight.del representative, ?_, fun rep hrep => get_del_of_ne _ hrep⟩
      rw [bind_eq_ok]
      exact ⟨_, delete_eq_ok.mpr ⟨h hne, rfl⟩, rfl⟩
    · exact ⟨l.repWeight, rfl, fun _ _ => rfl⟩
  · exact ⟨_, rfl, fun rep hrep => get_put_of_ne _ _ hrep⟩

/-- A stored weight that is not zero has a record. -/
theorem get_of_storedWeight_ne_zero {representative : PublicKey}
    (h : l.storedWeight representative ≠ 0) : ∃ w, l.repWeight.get representative = some w := by
  cases hget : l.repWeight.get representative with
  | none => simp [storedWeight, hget] at h
  | some w => exact ⟨w, rfl⟩

/-- Caching a weight changes the cache only. -/
theorem putCache_eq (representative : PublicKey) (newWeight : Amount) :
    ∃ cache, l.putCache representative newWeight = { l with repWeightCache := cache } := by
  rw [putCache]
  split <;> exact ⟨_, rfl⟩

/-- Adding to a weight always succeeds and changes the weights only. -/
theorem representationAdd_ok (representative : PublicKey) (amount : Amount) :
    ∃ weights cache, l.representationAdd representative amount =
      .ok { l with repWeight := weights, repWeightCache := cache } := by
  obtain ⟨weights, hstore, -⟩ := putStore_ok
    (l.storedWeight representative + amount) get_of_storedWeight_ne_zero
  obtain ⟨cache, hcache⟩ := putCache_eq representative (l.storedWeight representative + amount)
  refine ⟨weights, cache, ?_⟩
  rw [representationAdd, bind_eq_ok]
  exact ⟨_, hstore, by rw [hcache]; rfl⟩

/-- Moving weight always succeeds and changes the weights only. -/
theorem representationAddDual_ok (rep1 rep2 : PublicKey) (amount1 amount2 : Amount) :
    ∃ weights cache, l.representationAddDual rep1 amount1 rep2 amount2 =
      .ok { l with repWeight := weights, repWeightCache := cache } := by
  rw [representationAddDual]
  split
  · next hne =>
    obtain ⟨weights1, hstore1, hoth⟩ := putStore_ok (l := l)
      (l.storedWeight rep1 + amount1) get_of_storedWeight_ne_zero
    obtain ⟨weights2, hstore2, -⟩ := putStore_ok (l := { l with repWeight := weights1 })
      (l.storedWeight rep2 + amount2)
      (fun h => by rw [hoth rep2 (Ne.symm hne)]; exact get_of_storedWeight_ne_zero h)
    obtain ⟨cache1, hcache1⟩ := putCache_eq rep1 (l.storedWeight rep1 + amount1)
    obtain ⟨cache2, hcache2⟩ := putCache_eq
      rep2
      (l.storedWeight rep2 + amount2)
    refine ⟨weights2, cache2, ?_⟩
    simp only [bind_eq_ok, pure_eq_ok]
    exact ⟨_, hstore1, _, hstore2, by rw [hcache1, hcache2]⟩
  · exact representationAdd_ok rep1 (amount1 + amount2)

/-- Writing an account record, where the old record is only needed to change its epoch. -/
theorem updateAccount_put {account : Account} {oldInfo newInfo : AccountInfo}
    (hhead : newInfo.head ≠ 0) :
    l.updateAccount account oldInfo newInfo = .ok l' ↔
      (oldInfo.head ≠ 0 → oldInfo.epoch ≠ newInfo.epoch → ∃ i, l.account.get account = some i) ∧
      l' = { l with
        account := l.account.put account newInfo
        accountCount :=
          if oldInfo.head = 0 ∧ newInfo.openBlock = newInfo.head then l.accountCount + 1
          else l.accountCount } := by
  rw [updateAccount, if_pos hhead]
  by_cases hep : oldInfo.head ≠ 0 ∧ oldInfo.epoch ≠ newInfo.epoch
  · simp only [if_pos hep, bind_eq_ok, delete_eq_ok, pure_eq_ok]
    constructor
    · rintro ⟨t, ⟨hget, rfl⟩, rfl⟩
      exact ⟨fun _ _ => hget, by rw [put_del]⟩
    · rintro ⟨hget, rfl⟩
      exact ⟨_, ⟨hget hep.1 hep.2, rfl⟩, by rw [put_del]⟩
  · simp only [if_neg hep, bind_eq_ok, pure_eq_ok]
    constructor
    · rintro ⟨t, rfl, rfl⟩
      exact ⟨fun h h' => absurd ⟨h, h'⟩ hep, rfl⟩
    · rintro ⟨-, rfl⟩
      exact ⟨_, rfl, rfl⟩

/-- Deleting an account record. -/
theorem updateAccount_del {account : Account} {oldInfo newInfo : AccountInfo}
    (hhead : newInfo.head = 0) :
    l.updateAccount account oldInfo newInfo = .ok l' ↔ (∃ i, l.account.get account = some i) ∧
      l' = { l with account := l.account.del account, accountCount := l.accountCount - 1 } := by
  rw [updateAccount, if_neg (not_not.mpr hhead)]
  simp only [bind_eq_ok, delete_eq_ok, pure_eq_ok]
  constructor
  · rintro ⟨t, ⟨hget, rfl⟩, rfl⟩
    exact ⟨hget, rfl⟩
  · rintro ⟨hget, rfl⟩
    exact ⟨_, ⟨hget, rfl⟩, rfl⟩

/-- The pending table without an optional record. -/
def pendingWithout : Option PendingKey → Table PendingKey PendingInfo
  | some key => l.pending.del key
  | none => l.pending

/-- Deleting a pending record needs the record. -/
theorem deletePending_eq_ok {key : Option PendingKey} :
    l.deletePending key = .ok l' ↔ (∀ k, key = some k → ∃ info, l.pending.get k = some info) ∧
      l' = { l with pending := l.pendingWithout key } := by
  cases key with
  | none =>
    simp only [deletePending, pendingWithout, pure_eq_ok, reduceCtorEq, false_implies,
      implies_true, true_and]
    exact eq_comm
  | some key =>
    simp only [deletePending, pendingWithout, bind_eq_ok, delete_eq_ok, pure_eq_ok,
      Option.some.injEq]
    constructor
    · rintro ⟨t, ⟨hget, rfl⟩, rfl⟩
      exact ⟨by rintro _ rfl; exact hget, rfl⟩
    · rintro ⟨hget, rfl⟩
      exact ⟨_, ⟨hget key rfl, rfl⟩, rfl⟩

/-- The pending table with an optional record. -/
def pendingWith (t : Table PendingKey PendingInfo) :
    Option (PendingKey × PendingInfo) → Table PendingKey PendingInfo
  | some (key, info) => t.put key info
  | none => t

/-- Adding a pending record changes the pending table only. -/
theorem insertPending_eq (entry : Option (PendingKey × PendingInfo)) :
    l.insertPending entry = { l with pending := pendingWith l.pending entry } := by
  cases entry <;> rfl

/-- Adding a block needs a free hash. -/
theorem putBlock_eq_ok {sb : SavedBlock} :
    l.putBlock sb = .ok l' ↔ l.block.get sb.hash = none ∧
      l' = { l with
        block := l.block.put sb.hash sb.stored
        successors :=
          if sb.previous ≠ 0 then l.successors.put sb.previous sb.hash else l.successors } := by
  simp only [putBlock, bind_eq_ok, putNew_eq_ok, pure_eq_ok]
  constructor
  · rintro ⟨t, ⟨hget, rfl⟩, rfl⟩
    exact ⟨hget, rfl⟩
  · rintro ⟨hget, rfl⟩
    exact ⟨_, ⟨hget, rfl⟩, rfl⟩

/-- The weights are updated without failing. -/
theorem updateRepresentativeCache_ok (i : BlockInsertInstructions) :
    ∃ weights cache, l.updateRepresentativeCache i =
      .ok { l with repWeight := weights, repWeightCache := cache } := by
  rw [updateRepresentativeCache]
  split
  · exact representationAddDual_ok _ _ _ _
  · exact representationAdd_ok _ _

/-- The ledger after an insertion, up to the weights. -/
def afterInsert (b : Block) (i : BlockInsertInstructions)
    (weights cache : Table PublicKey Amount) : Ledger where
  block := l.block.put b.hash (SavedBlock.mk b i.setSideband).stored
  successors := if b.previous ≠ 0 then l.successors.put b.previous b.hash else l.successors
  account := l.account.put i.account i.setAccountInfo
  pending := pendingWith (l.pendingWithout i.deletePending) i.insertPending
  confirmationHeight := l.confirmationHeight
  repWeight := weights
  finalVote := l.finalVote
  blockCount := l.blockCount + 1
  accountCount :=
    if i.oldAccountInfo.head = 0 ∧ i.setAccountInfo.openBlock = i.setAccountInfo.head then
      l.accountCount + 1
    else l.accountCount
  confirmedCount := l.confirmedCount
  repWeightCache := cache
  minWeight := l.minWeight

/-- The inserter neither refuses the instructions nor panics on them. -/
structure Insertable (l : Ledger) (b : Block) (i : BlockInsertInstructions) : Prop where
  unchanged : l.accountChangedSinceValidation i = false
  fresh : l.block.get b.hash = none
  stored : i.oldAccountInfo.head ≠ 0 → i.oldAccountInfo.epoch ≠ i.setAccountInfo.epoch →
    ∃ info, l.account.get i.account = some info
  pending : ∀ key, i.deletePending = some key → ∃ info, l.pending.get key = some info

/-- What an insertion does: it succeeds exactly on insertable instructions, with one result. -/
theorem insert_eq_ok {b : Block} {i : BlockInsertInstructions} (hhead : i.setAccountInfo.head ≠ 0) :
    ∃ weights cache, ∀ l' sb, l.insert b i = .ok (some (l', sb)) ↔
      l.Insertable b i ∧ sb = ⟨b, i.setSideband⟩ ∧ l' = l.afterInsert b i weights cache := by
  obtain ⟨weights, cache, hws⟩ := updateRepresentativeCache_ok (l := { l with
      block := l.block.put b.hash (SavedBlock.mk b i.setSideband).stored
      successors := if b.previous ≠ 0 then l.successors.put b.previous b.hash else l.successors
      account := l.account.put i.account i.setAccountInfo
      accountCount :=
        if i.oldAccountInfo.head = 0 ∧ i.setAccountInfo.openBlock = i.setAccountInfo.head then
          l.accountCount + 1
        else l.accountCount
      pending := pendingWith (l.pendingWithout i.deletePending) i.insertPending }) i
  refine ⟨weights, cache, fun l' sb => ?_⟩
  rw [insert]
  cases hchg : l.accountChangedSinceValidation i with
  | true =>
    simp only [if_true, pure_eq_ok, reduceCtorEq, false_iff, not_and]
    intro h
    exact absurd (hchg.symm.trans h.unchanged) (by decide)
  | false =>
    simp only [Bool.false_eq_true, if_false, bind_eq_ok, pure_eq_ok, Option.some.injEq,
      Prod.mk.injEq, putBlock_eq_ok, updateAccount_put hhead, deletePending_eq_ok]
    constructor
    · rintro ⟨_, ⟨hnew, rfl⟩, _, ⟨hst, rfl⟩, _, ⟨hpend, rfl⟩, l4, hl4, rfl, rfl⟩
      rw [insertPending_eq] at hl4
      cases hws.symm.trans hl4
      exact ⟨⟨hchg, hnew, hst, hpend⟩, rfl, rfl⟩
    · rintro ⟨⟨-, hnew, hst, hpend⟩, rfl, rfl⟩
      refine ⟨_, ⟨hnew, rfl⟩, _, ⟨hst, rfl⟩, _, ⟨hpend, rfl⟩, ?_⟩
      rw [insertPending_eq]
      exact ⟨_, hws, rfl, rfl⟩

end RsNano.Ledger
