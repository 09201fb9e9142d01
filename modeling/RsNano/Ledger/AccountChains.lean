import RsNano.Ledger.Run

/-!
# The structure of the account chains

The invariant of `RsNano.Ledger.Chain` speaks about single links. Here it is turned into the
statement about whole chains: following the previous links from the head of an account passes
exactly its blocks, from its block count down to its open block, and every block of the ledger
lies on exactly one such chain.
-/

namespace RsNano.Ledger

/-- The blocks of an account, from its head down to its open block. -/
structure AccountChain (l : Ledger) (a : Account) (info : AccountInfo)
    (chain : List SavedBlock) : Prop where
  /-- The previous links from the head pass `info.blockCount` blocks. -/
  follow : followPrevious l.block info.blockCount info.head = some chain
  length_eq : chain.length = info.blockCount
  /-- The last one is the open block, and nothing comes before it. -/
  opened : ∃ first, chain.getLast? = some first ∧ first.hash = info.openBlock ∧ first.previous = 0
  /-- Counted from the open block, the heights are `1, 2, …`. -/
  height_eq : ∀ (i : ℕ) sb, chain.reverse[i]? = some sb → sb.height = i + 1 ∧ sb.account = a

/-- The account chains of a ledger, and what the other tables say about them. -/
structure ChainStructure (l : Ledger) : Prop where
  chain : ∀ a info, l.account.get a = some info → ∃ chain, l.AccountChain a info chain
  covered : ∀ h sb, l.block.get h = some sb →
    ∃! a, ∃ info chain, l.account.get a = some info ∧ l.AccountChain a info chain ∧ sb ∈ chain
  successor : ∀ h s, l.successors.get h = some s ↔
    h ≠ 0 ∧ ∃ sb, l.block.get s = some sb ∧ sb.previous = h
  head : ∀ a info, l.account.get a = some info →
    ∃ sb, l.block.get info.head = some sb ∧ sb.balance = info.balance ∧ sb.epoch = info.epoch
  representative : ∀ a info, l.account.get a = some info →
    ∃ r rb, l.representativeBlockHash info.head = .ok r ∧ l.block.get r = some rb ∧
      rb.block.representativeField = some info.representative
  blockCount_eq : l.blockCount = l.block.size
  accountCount_eq : l.accountCount = l.account.size

namespace Chained

variable {l : Ledger} {a : Account} {info : AccountInfo}

/-- Every account has its chain, and every block of the account is on it. -/
theorem accountChain (hl : l.Chained) (hinfo : l.account.get a = some info) :
    ∃ chain, l.AccountChain a info chain ∧
      ∀ h sb, l.block.get h = some sb → (sb ∈ chain ↔ sb.account = a) := by
  obtain ⟨head, hhead, hacc, hht, -⟩ := hl.head hinfo
  obtain ⟨chain, hfollow, hlen, hall, first, hlast, hfst⟩ := hl.linked.followPrevious_eq hhead
  rw [hht] at hfollow hlen
  have hst : ∀ (i : ℕ) sb, chain[i]? = some sb →
      l.block.get sb.hash = some sb ∧ sb.account = a ∧ sb.height + i = info.blockCount := by
    intro i sb hi
    obtain ⟨hget, hsba, hsbh⟩ := hall i sb hi
    exact ⟨hget, hsba.trans hacc, by omega⟩
  refine ⟨chain, ⟨hfollow, hlen, ⟨first, hlast, ?_, hfst⟩, ?_⟩, ?_⟩
  · have hmem : chain[chain.length - 1]? = some first := by
      rw [← List.getLast?_eq_getElem?]
      exact hlast
    obtain ⟨hget, hfa, -⟩ := hst _ first hmem
    exact (hl.opened hget hfst (hfa ▸ hinfo)).symm
  · intro i sb hi
    obtain ⟨hi', hrev⟩ := List.getElem?_eq_some_iff.mp hi
    rw [List.length_reverse] at hi'
    rw [List.getElem_reverse] at hrev
    obtain ⟨-, hsba, hsbh⟩ := hst (chain.length - 1 - i) sb
      (List.getElem?_eq_some_iff.mpr ⟨by omega, hrev⟩)
    exact ⟨by omega, hsba⟩
  · intro h sb hget
    constructor
    · intro hmem
      obtain ⟨i, hi⟩ := List.getElem?_of_mem hmem
      exact (hst i sb hi).2.1
    · intro hsba
      -- the block of the chain at is
      obtain ⟨info', hinfo', hle⟩ := hl.owner hget
      cases hinfo.symm.trans (hsba ▸ hinfo')
      have hpos := hl.linked.height_pos hget
      obtain ⟨b, hb⟩ : ∃ b, chain[info.blockCount - sb.height]? = some b :=
        ⟨_, List.getElem?_eq_getElem (by omega)⟩
      obtain ⟨hbget, hba, hbh⟩ := hst _ b hb
      have heq := hl.linked.unique hget hbget (hsba.trans hba.symm) (by omega)
      rw [← heq, hget] at hbget
      cases hbget
      exact List.mem_of_getElem? hb

/-- The link invariant gives the structure of the whole chains. -/
theorem chainStructure (hl : l.Chained) : l.ChainStructure := by
  refine ⟨?_, ?_, fun h s => hl.successor, ?_, fun a info => hl.representative,
    hl.blockCount_eq, hl.accountCount_eq⟩
  · intro a info hinfo
    obtain ⟨chain, hchain, -⟩ := hl.accountChain hinfo
    exact ⟨chain, hchain⟩
  · intro h sb hget
    obtain ⟨info, hinfo, -⟩ := hl.owner hget
    obtain ⟨chain, hchain, hmem⟩ := hl.accountChain hinfo
    refine ⟨sb.account, ⟨info, chain, hinfo, hchain, (hmem h sb hget).mpr rfl⟩, ?_⟩
    rintro a ⟨info', chain', hinfo', hchain', hmem'⟩
    obtain ⟨chain'', hchain'', hmem''⟩ := hl.accountChain hinfo'
    have heq := hchain'.follow.symm.trans hchain''.follow
    cases heq
    exact ((hmem'' h sb hget).mp hmem').symm
  · intro a info hinfo
    obtain ⟨sb, hsb, -, -, hbal, hep⟩ := hl.head hinfo
    exact ⟨sb, hsb, hbal, hep⟩

end Chained

variable {c : LedgerConstants} {minWeight : Amount} {l : Ledger}

/-- In every ledger that insertions, roll-backs and cementing reach from genesis, the tables
describe account chains. -/
theorem reachable_chainStructure (h : Reachable c minWeight l) : l.ChainStructure :=
  h.chained.chainStructure

/-- The chains of the dev network after a send and its receive. -/
theorem chainStructure_devReceived : devReceived.ChainStructure :=
  reachable_chainStructure reachable_devReceived

end RsNano.Ledger
