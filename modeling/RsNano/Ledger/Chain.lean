import RsNano.Ledger.Links
import RsNano.Ledger.Accepted
import RsNano.Ledger.Inserter

/-!
# Account chains

`Ledger.Chained` says that the block table, the account table, the successor table and the
cached counts describe the same set of account chains: the head of an account is its highest
block, its open block the lowest, and balance, epoch and representative of the account record
are those of the head. The invariant holds in the genesis ledger and is kept by every
insertion of an accepted block.

The sum of the block counts is part of the invariant. It bounds every height by the number of
blocks, which is what the search for a representative needs to end.
-/

namespace RsNano

open BlockValidator Table Ledger Option

namespace Ledger

/-- The tables describe one set of account chains. -/
structure Chained (l : Ledger) : Prop where
  linked : Linked l.block
  owner : ∀ {h sb}, l.block.get h = some sb →
    ∃ info, l.account.get sb.account = some info ∧ sb.height ≤ info.blockCount
  opened : ∀ {h sb info}, l.block.get h = some sb → sb.previous = 0 →
    l.account.get sb.account = some info → info.openBlock = h
  head : ∀ {a info}, l.account.get a = some info →
    ∃ sb, l.block.get info.head = some sb ∧ sb.account = a ∧ sb.height = info.blockCount ∧
      sb.balance = info.balance ∧ sb.epoch = info.epoch
  successor : ∀ {h s}, l.successors.get h = some s ↔
    h ≠ 0 ∧ ∃ sb, l.block.get s = some sb ∧ sb.previous = h
  representative : ∀ {a info}, l.account.get a = some info →
    ∃ r rb, l.representativeBlockHash info.head = .ok r ∧ l.block.get r = some rb ∧
      rb.block.representativeField = some info.representative
  blockCount_eq : l.blockCount = l.block.size
  accountCount_eq : l.accountCount = l.account.size
  total : l.account.sumBy (fun _ info => info.blockCount) = l.block.size

namespace Chained

variable {l : Ledger} {h : BlockHash} {sb : SavedBlock} {a : Account} {info : AccountInfo}
  (hl : l.Chained)

include hl

/-- The number of blocks bounds every height. -/
theorem height_le_size (hget : l.block.get h = some sb) : sb.height ≤ l.block.size := by
  obtain ⟨info, hacc, hle⟩ := hl.owner hget
  have := le_sumBy (fun _ info => info.blockCount) hacc
  rw [hl.total] at this
  omega

/-- The head hash of an account is not zero. -/
theorem head_ne_zero (hacc : l.account.get a = some info) : info.head ≠ 0 := by
  obtain ⟨sb, hsb, -⟩ := hl.head hacc
  exact hl.linked.hash_ne_zero hsb

/-- A block that is as high as its account is the head. -/
theorem eq_head_of_height (hget : l.block.get h = some sb)
    (hacc : l.account.get sb.account = some info) (hle : info.blockCount ≤ sb.height) :
    h = info.head := by
  obtain ⟨hb, hhb, hba, hbheight, -⟩ := hl.head hacc
  obtain ⟨info', hacc', hle'⟩ := hl.owner hget
  cases hacc.symm.trans hacc'
  exact hl.linked.unique hget hhb hba.symm (by omega)

/-- Nothing follows the head of an account. -/
theorem previous_ne_head (hacc : l.account.get a = some info) (hget : l.block.get h = some sb) :
    sb.previous ≠ info.head := by
  intro heq
  obtain ⟨hb, hhb, hba, hbheight, -⟩ := hl.head hacc
  obtain ⟨p, hp, hpacc, hht⟩ := hl.linked.previous hget (heq ▸ hl.head_ne_zero hacc)
  rw [heq, hhb] at hp
  cases hp
  obtain ⟨info', hacc', hle⟩ := hl.owner hget
  rw [← hpacc, hba, hacc] at hacc'
  cases hacc'
  omega

end Chained

end Ledger

variable {sb : SavedBlock} {info : AccountInfo}

section

variable {c : LedgerConstants} {minWeight : Amount}

/-- The only block of the genesis ledger is the genesis block. -/
theorem Ledger.genesis_block_get {h : BlockHash} :
    (genesis c minWeight).block.get h = some sb ↔
      h = c.genesisBlock.hash ∧ sb = c.savedGenesis.stored := by
  rw [genesis, get_put]
  split
  · next heq => simp [heq, eq_comm]
  · next hne => simp [hne]

/-- A ledger with one open block and the account of this block is one chain. -/
theorem Ledger.Chained.single {l : Ledger} (sb : SavedBlock)
    (hblk : l.block = (∅ : Table _ _).put sb.hash sb)
    (hacc : l.account = (∅ : Table _ _).put sb.account info) (hsuccs : l.successors = ∅)
    (hopen : sb.block.isOpen = true) (hprev : sb.previous = 0) (hht : sb.height = 1)
    (hep : sb.epoch = .epoch0)
    (hinfo : info.head = sb.hash ∧ info.openBlock = sb.hash ∧ info.blockCount = 1 ∧ info.balance =
    sb.balance ∧ info.epoch = sb.epoch)
    (hrep : sb.block.representativeField = some info.representative)
    (hcnt : l.blockCount = 1) (haccs : l.accountCount = 1) : l.Chained := by
  have hget : ∀ {h x}, l.block.get h = some x → h = sb.hash ∧ x = sb := by
    intro h x hx
    rw [hblk] at hx
    exact eq_of_get_put_empty hx
  have hself : l.block.get sb.hash = some sb := by rw [hblk, get_put_self]
  have hinfoget : ∀ {a i}, l.account.get a = some i → a = sb.account ∧ i = info := by
    intro a i hi
    rw [hacc] at hi
    exact eq_of_get_put_empty hi
  have hsize : l.block.size = 1 := by
    rw [hblk]
    exact size_put_of_none _ (get_empty _)
  obtain ⟨hhead, hopenBlock, hblockCount, hbal, hinfoEpoch⟩ := hinfo
  refine ⟨⟨?_, ?_, ?_, ?_, ?_⟩, ?_, ?_, ?_, ?_, ?_, ?_, ?_, ?_⟩
  · intro h x hx
    obtain ⟨rfl, rfl⟩ := hget hx
    rfl
  · intro h x hx hne
    obtain ⟨rfl, rfl⟩ := hget hx
    exact absurd hprev hne
  · intro h x hx _
    obtain ⟨rfl, rfl⟩ := hget hx
    exact ⟨hht, hopen⟩
  · intro h h' x x' hx hx' _ _
    rw [(hget hx).1, (hget hx').1]
  · intro h x hx _
    obtain ⟨rfl, rfl⟩ := hget hx
    exact hep
  · intro h x hx
    obtain ⟨rfl, rfl⟩ := hget hx
    refine ⟨info, ?_, by omega⟩
    rw [hacc, get_put_self]
  · intro h x i hx _ hi
    rw [(hget hx).1, (hinfoget hi).2, hopenBlock]
  · intro a i hi
    obtain ⟨rfl, rfl⟩ := hinfoget hi
    exact ⟨sb, hhead ▸ hself, rfl, by omega, hbal.symm, hinfoEpoch.symm⟩
  · intro h s
    constructor
    · intro hs
      rw [hsuccs] at hs
      cases hs
    · rintro ⟨hne, x, hx, rfl⟩
      obtain ⟨-, rfl⟩ := hget hx
      exact absurd hprev hne
  · intro a i hi
    obtain ⟨-, rfl⟩ := hinfoget hi
    refine ⟨sb.hash, sb, ?_, hself, hrep⟩
    rw [hhead]
    exact findRepBlock_self hself (by rw [hrep]; rfl) _
  · rw [hcnt, hsize]
  · rw [haccs, hacc]
    exact (size_put_of_none _ (get_empty _)).symm
  · rw [hsize, hacc, sumBy_put_of_none _ _ (get_empty _), hblockCount]
    rfl

/-- The genesis ledger is one chain with one block. -/
theorem Ledger.Chained.genesis : (genesis c minWeight).Chained :=
  .single c.savedGenesis.stored rfl rfl rfl rfl rfl rfl rfl ⟨rfl, rfl, rfl, rfl, rfl⟩
    (congrArg some c.genesis_representative) rfl rfl

end

section

variable {c : LedgerConstants} {l : Ledger} {b : Block} {now : ℕ}

@[simp] theorem createValidator_block : (l.createValidator c b now).block = b := rfl

/-- The account record is that of the block's account. -/
theorem createValidator_oldAccountInfo : (l.createValidator c b now).oldAccountInfo =
    l.account.get (l.createValidator c b now).account := rfl

/-- The previous block is loaded from the block table. -/
theorem createValidator_previousBlock : (l.createValidator c b now).previousBlock =
    if b.previous ≠ 0 then l.block.get b.previous else none := by
  simp only [createValidator, getBlock]
  split <;> simp_all

/-- The pending entry is the one of the block's account under its source or link. -/
theorem createValidator_pendingReceiveInfo : (l.createValidator c b now).pendingReceiveInfo =
    if b.sourceOrLink = 0 then none
    else l.pending.get ⟨(l.createValidator c b now).account, b.sourceOrLink⟩ := rfl

/-- The record of an accepted block belongs to the account that the validator found. -/
@[simp] theorem createValidator_saved_account :
    (l.createValidator c b now).saved.account = (l.createValidator c b now).account := by
  cases b <;> rfl

end

namespace Ledger.Chained

variable {c : LedgerConstants} {l : Ledger} {b : Block} {now : ℕ} (hl : l.Chained)
  (hv : (l.createValidator c b now).Passes)

include hv

/-- A legacy block has no source of a later epoch. -/
theorem legacy_sourceEpoch (hleg : b.isLegacy = true) :
    (l.createValidator c b now).sourceEpoch = .epoch0 := by
  cases b with
  | legacyReceive _ | legacyOpen _ => exact hv.legacy_source rfl
  | legacySend _ | legacyChange _ => rfl
  | state _ => cases hleg

include hl

/-- An accepted block opens an account that is not there yet, or follows the head block of its
account. -/
theorem position :
    (l.account.get (l.createValidator c b now).account = none ∧ b.isOpen = true ∧ b.previous = 0) ∨
      ∃ info p, l.account.get (l.createValidator c b now).account = some info ∧
        l.block.get b.previous = some p ∧ (l.createValidator c b now).previousBlock = some p ∧
        b.isOpen = false ∧ b.previous = info.head ∧ b.previous ≠ 0 ∧
        p.account = (l.createValidator c b now).account ∧ p.height = info.blockCount ∧
        p.balance = info.balance ∧ p.epoch = info.epoch := by
  rcases hv.position with hnew | ⟨info, p, hinfo, hp, hopen, hprev⟩
  · exact .inl hnew
  · right
    have hhead := hl.head hinfo
    have hne : b.previous ≠ 0 := hprev ▸ hl.head_ne_zero hinfo
    have hget : l.block.get b.previous = some p := by
      rwa [createValidator_previousBlock, if_pos hne] at hp
    obtain ⟨sb, hsb, hfacts⟩ := hhead
    rw [← hprev, createValidator_block, hget] at hsb
    cases hsb
    exact ⟨info, p, hinfo, hget, hp, hopen, hprev, hne, hfacts⟩

/-- The balance of the previous block is the balance of the account. -/
theorem coherent :
    (l.createValidator c b now).previousBalance = (l.createValidator c b now).oldBalance := by
  rcases hl.position hv with ⟨hnew, -, hprev⟩ | ⟨info, p, hinfo, -, hp, -, -, -, -, -, hbal, -⟩
  · simp [previousBalance, oldBalance, createValidator_previousBlock,
      createValidator_oldAccountInfo, hnew, hprev]
  · simp [previousBalance, oldBalance, hp, createValidator_oldAccountInfo, hinfo, hbal]

/-- The stored height of an accepted block is the new block count of its account. -/
theorem saved_height :
    (l.createValidator c b now).saved.height = (l.createValidator c b now).newBlockCount := by
  cases b with
  | legacyOpen open_ =>
    rcases hl.position hv with ⟨hnew, -⟩ | ⟨_, _, -, -, -, hopen, -⟩
    · simp [newBlockCount, createValidator_oldAccountInfo, hnew,
        saved, SavedBlock.stored, SavedBlock.height]
    · cases hopen
  | _ => rfl

/-- The stored balance of an accepted block is the new balance of its account. -/
theorem saved_balance :
    (l.createValidator c b now).saved.balance = (l.createValidator c b now).newBalance := by
  cases b with
  | legacySend send =>
    exact (newBalance_legacySend hv createValidator_block (hl.coherent hv)).2.symm
  | state state =>
    exact (newBalance_state createValidator_block (hl.coherent hv)).symm
  | _ => rfl

/-- A legacy block leaves its account in epoch zero. -/
theorem legacy_epoch (hleg : b.isLegacy = true) :
    (l.createValidator c b now).epoch = .epoch0 := by
  have hold : (l.createValidator c b now).oldEpochVersion = .epoch0 := by
    rcases hl.position hv with ⟨hnew, -⟩ | ⟨info, p, hinfo, hget, hp, -, -, hne, -, -, -, hep⟩
    · simp [oldEpochVersion, createValidator_oldAccountInfo, hnew]
    · have hpred := hv.validPredecessor hp hne
      have hplegacy : p.block.isLegacy = true := by
        cases hb : b <;> cases hpb : p.block <;>
          simp_all [Block.validPredecessor, Block.blockType, Block.isLegacy]
      simp [oldEpochVersion, createValidator_oldAccountInfo, hinfo, ← hep,
        hl.linked.legacy_epoch hget hplegacy]
  have hsrc := legacy_sourceEpoch hv hleg
  have hno : (l.createValidator c b now).isEpochBlock = false := by
    cases b with
    | state _ => cases hleg
    | _ => rfl
  simp [epoch, hno, hold, hsrc]

/-- The stored epoch of an accepted block is the new epoch of its account. -/
theorem saved_epoch :
    (l.createValidator c b now).saved.epoch = (l.createValidator c b now).epoch := by
  cases b with
  | state _ => rfl
  | _ =>
    rw [hl.legacy_epoch hv rfl]
    rfl

end Ledger.Chained

/-- A block is accepted on the current ledger and then inserted. -/
def Ledger.Inserts (c : LedgerConstants) (l : Ledger) (b : Block) (l' : Ledger) : Prop :=
  ∃ now i sb, (l.createValidator c b now).validate = .ok i ∧ l.insert b i = .ok (some (l', sb))

/-- What the insertion of an accepted block does, up to the weights. -/
theorem Ledger.Inserts.spec {c : LedgerConstants} {l l' : Ledger} {b : Block}
    (h : l.Inserts c b l') : ∃ now weights cache, (l.createValidator c b now).Passes ∧
      l.Insertable b (l.createValidator c b now).createInstructions ∧
      l' = l.afterInsert b (l.createValidator c b now).createInstructions weights cache := by
  obtain ⟨now, i, sb, hval, hins⟩ := h
  obtain ⟨hpass, rfl⟩ := validate_eq_ok.mp hval
  obtain ⟨weights, cache, hspec⟩ := insert_eq_ok
    (i := (l.createValidator c b now).createInstructions) b.hash_ne_zero
  obtain ⟨hinsb, -, rfl⟩ := (hspec l' sb).mp hins
  exact ⟨now, weights, cache, hpass, hinsb, rfl⟩

variable {c : LedgerConstants} {l : Ledger} {b : Block} {now : ℕ}
  {weights cache : Table PublicKey Amount}

/-- The ledger after the insertion of an accepted block. -/
abbrev Ledger.afterAccepted (l : Ledger) (c : LedgerConstants) (b : Block) (now : ℕ)
    (weights cache : Table PublicKey Amount) : Ledger :=
  l.afterInsert b (l.createValidator c b now).createInstructions weights cache

@[simp] theorem afterAccepted_block : (l.afterAccepted c b now weights cache).block =
    l.block.put b.hash (l.createValidator c b now).saved := rfl

@[simp] theorem afterAccepted_account : (l.afterAccepted c b now weights cache).account =
    l.account.put (l.createValidator c b now).account
      (l.createValidator c b now).newAccountInfo := rfl

namespace Ledger.Chained

variable (hl : l.Chained)

include hl

variable {h : BlockHash}

/-- All blocks of the account of an accepted block are below it. -/
theorem height_lt_newBlockCount (hget : l.block.get h = some sb)
    (hacc : sb.account = (l.createValidator c b now).account) :
    sb.height < (l.createValidator c b now).newBlockCount := by
  obtain ⟨info, hinfo, hle⟩ := hl.owner hget
  rw [hacc] at hinfo
  simp only [newBlockCount, createValidator_oldAccountInfo, hinfo, map_some, getD_some]
  omega

section

variable (hv : (l.createValidator c b now).Passes)

include hv

/-- Every block still belongs to an account that reaches its height. -/
theorem owner_insert (hget : (l.afterAccepted c b now weights cache).block.get h = some sb) :
    ∃ info, (l.afterAccepted c b now weights cache).account.get sb.account = some info ∧
      sb.height ≤ info.blockCount := by
  rw [afterAccepted_block] at hget
  rw [afterAccepted_account]
  rcases eq_or_of_get_put hget with ⟨rfl, rfl⟩ | ⟨-, hold⟩
  · refine ⟨_, by rw [createValidator_saved_account, get_put_self], ?_⟩
    exact (hl.saved_height hv).le
  · by_cases hacc : sb.account = (l.createValidator c b now).account
    · refine ⟨_, by rw [hacc, get_put_self], ?_⟩
      exact (hl.height_lt_newBlockCount hold hacc).le
    · obtain ⟨info, hinfo, hle⟩ := hl.owner hold
      exact ⟨info, by rw [get_put_of_ne _ _ hacc]; exact hinfo, hle⟩

/-- The open block of every account is still its first block. -/
theorem opened_insert (hget : (l.afterAccepted c b now weights cache).block.get h = some sb)
    (hprev : sb.previous = 0)
    (hinfo : (l.afterAccepted c b now weights cache).account.get sb.account = some info) :
    info.openBlock = h := by
  rw [afterAccepted_block] at hget
  rw [afterAccepted_account] at hinfo
  rcases eq_or_of_get_put hget with ⟨rfl, rfl⟩ | ⟨-, hold⟩
  · rw [createValidator_saved_account, get_put_self] at hinfo
    cases hinfo
    rcases hl.position hv with ⟨hnew, -⟩ | ⟨_, _, -, -, -, -, -, hne, -⟩
    · simp [newAccountInfo, openBlock, createValidator_oldAccountInfo, hnew]
    · exact absurd hprev hne
  · rcases eq_or_of_get_put hinfo with ⟨hacc, rfl⟩ | ⟨-, hinfo⟩
    · obtain ⟨old, hold', -⟩ := hl.owner hold
      have hopen := hl.opened hold hprev hold'
      rw [hacc] at hold'
      simp [newAccountInfo, openBlock, createValidator_oldAccountInfo, hold', hopen]
    · exact hl.opened hold hprev hinfo

/-- The cached count of accounts is still the number of account records. -/
theorem accountCount_insert :
    (l.afterAccepted c b now weights cache).accountCount =
      (l.afterAccepted c b now weights cache).account.size := by
  rw [afterAccepted_account]
  rcases hl.position hv with ⟨hnew, -⟩ | ⟨info, p, hinfo, -⟩
  · rw [size_put_of_none _ hnew, ← hl.accountCount_eq]
    simp only [afterInsert, createInstructions, newAccountInfo,
      openBlock, createValidator_oldAccountInfo, hnew, getD_none,
      createValidator_block, and_true]
    exact if_pos rfl
  · rw [size_put_of_some _ hinfo, ← hl.accountCount_eq]
    simp only [afterInsert, createInstructions, createValidator_oldAccountInfo, hinfo, getD_some]
    exact if_neg fun hzero => hl.head_ne_zero hinfo hzero.1

variable (hfresh : l.block.get b.hash = none)

include hfresh

/-- The block table stays linked. -/
theorem linked_insert : Linked (l.block.put b.hash (l.createValidator c b now).saved) := by
  have hht := hl.saved_height hv
  change Linked (l.block.put (l.createValidator c b now).saved.hash _)
  refine hl.linked.put hfresh ?_ ?_ ?_ ?_
  · intro hprev
    rcases hl.position hv with ⟨-, -, hzero⟩ | ⟨info, p, hinfo, hget, -, -, -, -, hacc, hpht, -⟩
    · exact absurd hzero hprev
    · refine ⟨p, hget, hacc.trans createValidator_saved_account.symm, ?_⟩
      rw [hht, hpht]
      simp [newBlockCount, createValidator_oldAccountInfo, hinfo]
  · intro hprev
    rcases hl.position hv with ⟨hnew, hopen, -⟩ | ⟨_, _, -, -, -, -, -, hne, -⟩
    · refine ⟨?_, hopen⟩
      rw [hht]
      simp [newBlockCount, createValidator_oldAccountInfo, hnew]
    · exact absurd hprev hne
  · intro h sb hget hacc
    rw [hht]
    exact hl.height_lt_newBlockCount hget (hacc.trans createValidator_saved_account)
  · intro hleg
    rw [hl.saved_epoch hv]
    exact hl.legacy_epoch hv hleg

/-- The head of every account is still its highest block. -/
theorem head_insert {a : Account}
    (hinfo : (l.afterAccepted c b now weights cache).account.get a = some info) :
    ∃ sb, (l.afterAccepted c b now weights cache).block.get info.head = some sb ∧
      sb.account = a ∧ sb.height = info.blockCount ∧ sb.balance = info.balance ∧
      sb.epoch = info.epoch := by
  rcases eq_or_of_get_put hinfo with ⟨rfl, rfl⟩ | ⟨-, hold⟩
  · exact ⟨_, get_put_self _ _ _, createValidator_saved_account, hl.saved_height hv,
      hl.saved_balance hv, hl.saved_epoch hv⟩
  · obtain ⟨sb, hsb, hfacts⟩ := hl.head hold
    exact ⟨sb, get_put_of_get _ hfresh hsb, hfacts⟩

/-- The successor table still lists exactly the previous links. -/
theorem successor_insert {s : BlockHash} :
    (l.afterAccepted c b now weights cache).successors.get h = some s ↔
      h ≠ 0 ∧ ∃ sb, (l.afterAccepted c b now weights cache).block.get s = some sb ∧
        sb.previous = h := by
  have hnew : (l.afterAccepted c b now weights cache).successors.get h = some s ↔
      (b.previous ≠ 0 ∧ h = b.previous ∧ s = b.hash) ∨ l.successors.get h = some s := by
    have hfree : b.previous ≠ 0 → l.successors.get b.previous = none := by
      intro hne
      rcases hl.position hv with ⟨-, -, hzero⟩ | ⟨info, p, hinfo, -, -, -, hhead, -⟩
      · exact absurd hzero hne
      · cases hs : l.successors.get b.previous with
        | none => rfl
        | some s =>
          obtain ⟨-, sb, hsb, hprev⟩ := hl.successor.mp hs
          exact absurd (hprev.trans hhead) (hl.previous_ne_head hinfo hsb)
    simp only [afterInsert]
    split
    · next hne =>
      rw [get_put]
      split
      · next heq =>
        subst heq
        simp [hne, hfree hne, eq_comm]
      · next hneq => simp [hneq]
    · next hzero => simp [not_not.mp hzero]
  rw [hnew, hl.successor]
  constructor
  · rintro (⟨hne, rfl, rfl⟩ | ⟨hne, sb, hsb, hprev⟩)
    · exact ⟨hne, _, get_put_self _ _ _, rfl⟩
    · exact ⟨hne, sb, get_put_of_get _ hfresh hsb, hprev⟩
  · rintro ⟨hne, sb, hsb, rfl⟩
    rcases eq_or_of_get_put hsb with ⟨rfl, rfl⟩ | ⟨-, hold⟩
    · exact .inl ⟨hne, rfl, rfl⟩
    · exact .inr ⟨hne, sb, hold, rfl⟩

/-- The representative of every account is still the one that the search finds. -/
theorem representative_insert {a : Account}
    (hinfo : (l.afterAccepted c b now weights cache).account.get a = some info) :
    ∃ r rb, (l.afterAccepted c b now weights cache).representativeBlockHash info.head = .ok r ∧
      (l.afterAccepted c b now weights cache).block.get r = some rb ∧
      rb.block.representativeField = some info.representative := by
  rw [representativeBlockHash, afterAccepted_block, size_put_of_none _ hfresh]
  have hsub : ∀ h sb, l.block.get h = some sb →
      (l.block.put b.hash (l.createValidator c b now).saved).get h = some sb :=
    fun _ _ hget => get_put_of_get _ hfresh hget
  have hold : ∀ {a info}, l.account.get a = some info →
      ∃ r rb, findRepBlock (l.block.put b.hash (l.createValidator c b now).saved)
          (l.block.size + 1) info.head = .ok r ∧
        (l.block.put b.hash (l.createValidator c b now).saved).get r = some rb ∧
        rb.block.representativeField = some info.representative := by
    intro a info hinfo
    obtain ⟨r, rb, hrun, hr, hrep⟩ := hl.representative hinfo
    exact ⟨r, rb, findRepBlock_of_subset hsub le_rfl (hl.linked.hash_ne_zero hr) hrun,
      hsub r rb hr, hrep⟩
  rcases eq_or_of_get_put hinfo with ⟨rfl, rfl⟩ | ⟨-, hinfo⟩
  · have hget : (l.block.put b.hash (l.createValidator c b now).saved).get b.hash =
        some (l.createValidator c b now).saved := get_put_self _ _ _
    cases hrep : b.representativeField with
    | some rep =>
      refine ⟨b.hash, (l.createValidator c b now).saved, ?_, hget, ?_⟩
      · exact findRepBlock_self hget (by change b.representativeField.isSome = true; rw [hrep]; rfl)
          (l.block.size + 1)
      · change b.representativeField = some ((b.representativeField).getD _)
        rw [hrep, getD_some]
    | none =>
      rcases hl.position hv with ⟨-, hopen, -⟩ | ⟨old, p, hinfo, -, -, -, hhead, -⟩
      · have := Block.representativeField_of_isOpen hopen
        simp [hrep] at this
      · obtain ⟨r, rb, hrun, hr, hfield⟩ := hold hinfo
        rw [← hhead] at hrun
        refine ⟨r, rb, findRepBlock_previous hget hrep hrun, hr, ?_⟩
        rw [hfield]
        change some old.representative = some ((b.representativeField).getD _)
        simp [hrep, oldRepresentative, createValidator_oldAccountInfo, hinfo]
  · obtain ⟨r, rb, hrun, hr⟩ := hold hinfo
    exact ⟨r, rb, Loop.run_mono (Nat.le_succ _) hrun, hr⟩

/-- The block counts still add up to the number of blocks. -/
theorem total_insert :
    (l.afterAccepted c b now weights cache).account.sumBy (fun _ info => info.blockCount) =
      (l.afterAccepted c b now weights cache).block.size := by
  rw [afterAccepted_account, afterAccepted_block, size_put_of_none _ hfresh, ← hl.total]
  rcases hl.position hv with ⟨hnew, -⟩ | ⟨info, p, hinfo, -⟩
  · rw [sumBy_put_of_none _ _ hnew]
    simp only [newAccountInfo, newBlockCount,
      createValidator_oldAccountInfo, hnew, map_none, getD_none]
    omega
  · have hsum := sumBy_put_of_some (l.createValidator c b now).newAccountInfo
      (fun _ info => info.blockCount) hinfo
    have hcnt : (l.createValidator c b now).newAccountInfo.blockCount = info.blockCount + 1 := by
      simp [newAccountInfo, newBlockCount, createValidator_oldAccountInfo, hinfo]
    omega

end

/-- Inserting an accepted block keeps the account chains. -/
theorem insert {l' : Ledger} (h : l.Inserts c b l') : l'.Chained := by
  obtain ⟨now, -, -, hv, hi, rfl⟩ := h.spec
  exact
    { linked := hl.linked_insert hv hi.fresh
      owner := hl.owner_insert hv
      opened := hl.opened_insert hv
      head := hl.head_insert hv hi.fresh
      successor := hl.successor_insert hv hi.fresh
      representative := hl.representative_insert hv hi.fresh
      blockCount_eq := by
        rw [afterAccepted_block, size_put_of_none _ hi.fresh, ← hl.blockCount_eq]
        rfl
      accountCount_eq := hl.accountCount_insert hv
      total := hl.total_insert hv hi.fresh }

end Ledger.Chained

end RsNano
