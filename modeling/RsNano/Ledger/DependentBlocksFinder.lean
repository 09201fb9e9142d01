import RsNano.Ledger.Contents
import RsNano.Ledger.RollbackExact

/-!
# The dependencies of an unsaved block

`DependentBlocksFinder` finds the dependencies of a block without its sideband: it tells a send
from the balance of the previous block in the ledger. For a block of the ledger this agrees with
`SavedBlock::dependent_blocks`, which goes by the flag that was stored when the block was inserted,
because the previous block stays as long as the block does.
-/

namespace RsNano

namespace Ledger

/-- `AnySet::block_balance`. -/
def blockBalance (l : Ledger) (hash : BlockHash) : Option Amount :=
  if hash = 0 then none else (l.getBlock hash).map SavedBlock.balance

end Ledger

namespace DependentBlocksFinder

/-- The state block lowers the balance of the previous block. -/
def isSend (l : Ledger) (state : StateBlock) : Bool :=
  if state.previous = 0 then false
  else state.balance < (l.blockBalance state.previous).getD 0

def isReceiveOrChange (c : LedgerConstants) (l : Ledger) (state : StateBlock) : Bool :=
  !c.epochs.isEpochLink state.link && !isSend l state

def findDependentBlocksForUnsavedBlock (c : LedgerConstants) (l : Ledger) :
    Block → DependentBlocks
  | .legacySend b => ⟨b.previous, 0⟩
  | .legacyChange b => ⟨b.previous, 0⟩
  | .legacyReceive b => ⟨b.previous, b.source⟩
  | .legacyOpen b => if b.account = c.genesisAccount then ⟨0, 0⟩ else ⟨b.source, 0⟩
  | .state state =>
    ⟨state.previous, if isReceiveOrChange c l state then state.link.into .blockHash else 0⟩

end DependentBlocksFinder

namespace Ledger

open DependentBlocksFinder

def dependentsConfirmedForUnsavedBlock (c : LedgerConstants) (l : Ledger) (block : Block) : Bool :=
  (findDependentBlocksForUnsavedBlock c l block).iter.all l.isConfirmed

variable {c : LedgerConstants} {minWeight : Amount} {l l' : Ledger} {hash d : BlockHash}
  {sb : SavedBlock}

/-- A block has a destination exactly if it sends in the ledger in which it is now. -/
def Classified (l : Ledger) : Prop :=
  ∀ hash sb destination, l.block.get hash = some sb →
    (sb.destination = some destination ↔ sendsTo l.block sb destination)

theorem Classified.extends_ledger (h : l.Classified) (hl : l.Chained) {nb : SavedBlock}
    (he : Extends c l nb l') : l'.Classified := by
  intro hash sb destination hget
  exact he.destination_iff hl (fun hold => h _ _ destination hold) hget

theorem Classified.headSteps (h : l.Classified) (hl : l.Chained) (hsteps : HeadSteps c l l') :
    l'.Classified := by
  intro hash sb destination hget
  rw [sendsTo, hsteps.previousBalanceIn_eq hl hget]
  exact h hash sb destination (hsteps.get_of_get hl hget)

/-- Every change keeps the blocks classified. -/
theorem Classified.step (h : l.Classified) (hl : l.Chained) (hc : l.Cemented c)
    (hstep : Step c l l') : l'.Classified := by
  rcases hstep.cases hl with ⟨b, hb⟩ | hroll | ⟨-, -, rfl⟩ | ⟨-, rfl⟩
  · obtain ⟨nb, -, he⟩ := hb.extends_ledger hl (hc.genesis_account hl)
    exact h.extends_ledger hl he
  · exact h.headSteps hl hroll
  · exact h
  · exact h

/-- The blocks of every reachable ledger are classified. -/
theorem Reachable.classified (h : Reachable c minWeight l) : l.Classified := by
  induction h with
  | refl => exact fun _ _ _ hget => Receivables.genesis_ledger.sends hget
  | tail hrun hstep ih =>
    exact ih.step (Reachable.chained hrun) (Reachable.cemented hrun) hstep

/-- The finder takes a stored state block for a send exactly if it is one. -/
theorem Classified.isSend_eq (h : l.Classified) (hget : l.block.get hash = some sb)
    {state : StateBlock} (hblk : sb.block = .state state) : isSend l state = sb.isSend := by
  have hprev : sb.previous = state.previous := by rw [SavedBlock.previous, hblk]; rfl
  have hbal : isSend l state = decide (state.balance < previousBalanceIn l.block sb) := by
    rw [isSend, previousBalanceIn, hprev, balanceAfter, blockBalance, getBlock]
    by_cases hzero : state.previous = 0
    · simp [hzero]
    · simp [hzero]
  have hsends := h hash sb (state.link.into .account) hget
  rw [sendsTo, SavedBlock.destination, hblk] at hsends
  rw [hbal, SavedBlock.isSend, hblk]
  cases hsend : sb.sideband.details.isSend with
  | true =>
    rw [hsend] at hsends
    exact decide_eq_true (hsends.mp rfl).1
  | false =>
    rw [hsend] at hsends
    exact decide_eq_false fun hlt => by cases hsends.mpr ⟨hlt, rfl⟩

/-- The finder agrees with the stored block. -/
theorem Classified.findDependentBlocks_eq (h : l.Classified) (hget : l.block.get hash = some sb) :
    findDependentBlocksForUnsavedBlock c l sb.block = sb.dependentBlocks c := by
  cases hblk : sb.block with
  | state state =>
    rw [findDependentBlocksForUnsavedBlock, SavedBlock.dependentBlocks, hblk,
      isReceiveOrChange, h.isSend_eq hget hblk, Bool.and_comm]
  | legacySend b | legacyReceive b | legacyOpen b
  | legacyChange b => rw [findDependentBlocksForUnsavedBlock, SavedBlock.dependentBlocks, hblk]

/-- In every ledger that a run reaches whose insertions keep the ledger reversible, the finder
agrees with the stored blocks, and the dependencies are in the ledger. -/
theorem allowedRun_findDependentBlocks
    (h : AllowedRun c (KeepsReversible c) (genesis c minWeight) l)
    (hget : l.block.get hash = some sb) :
    findDependentBlocksForUnsavedBlock c l sb.block = sb.dependentBlocks c ∧
      ∀ d ∈ (findDependentBlocksForUnsavedBlock c l sb.block).iter,
        ∃ dependency, l.block.get d = some dependency := by
  have hreachable : Reachable c minWeight l := h.run
  have horderly : l.Orderly c := Orderly.genesis_ledger.run (fun _ _ h => h) h
  have heq := hreachable.classified.findDependentBlocks_eq (c := c) hget
  refine ⟨heq, fun d hd => ?_⟩
  rw [heq, hreachable.cemented.dependents hget] at hd
  obtain ⟨hne, hdep⟩ := hd
  exact horderly.reversible.receivables.get_of_dependsOn hreachable.chained
    ⟨hne, sb, hget, hdep.imp_left Eq.symm⟩

/-- The first receive of the dev network depends on the send that it receives. -/
theorem findDependentBlocks_devReceived :
    AllowedRun devConstants (KeepsReversible devConstants) (genesis devConstants 0) devReceived ∧
    ∃ sb, devReceived.block.get devOpen.hash = some sb ∧
      findDependentBlocksForUnsavedBlock devConstants devReceived sb.block =
        sb.dependentBlocks devConstants ∧
      ∀ d ∈ (findDependentBlocksForUnsavedBlock devConstants devReceived sb.block).iter,
        ∃ dependency, devReceived.block.get d = some dependency := by
  have hrun : InsertRun devConstants (KeepsReversible devConstants) (genesis devConstants 0)
      devReceived := insertRun_devReceived (by decide +kernel) (by decide +kernel)
  obtain ⟨sb, hget⟩ := Option.isSome_iff_exists.mp
    (show (devReceived.block.get devOpen.hash).isSome = true by decide +kernel)
  exact ⟨hrun.allowedRun, sb, hget, allowedRun_findDependentBlocks hrun.allowedRun hget⟩

/-- After a legacy send of nothing was rolled back, its receive depends on a block that is not in
the ledger. -/
theorem findDependentBlocks_devZeroOpen : ∃ l sb, Reachable devConstants 0 l ∧
    l.block.get devZeroOpen.hash = some sb ∧
    devZeroSend.hash ∈ (findDependentBlocksForUnsavedBlock devConstants l sb.block).iter ∧
    l.block.get devZeroSend.hash = none := by
  obtain ⟨⟨l, results⟩, hrun, htest⟩ : ∃ x,
      devZeroReceived.rollBack devConstants 3 (fun _ => 0) devZeroSend.hash = .ok x ∧
        decide (x.1.block.get devZeroSend.hash = none ∧
          (x.1.block.get devZeroOpen.hash).any (fun sb => devZeroSend.hash ∈
            (findDependentBlocksForUnsavedBlock devConstants x.1 sb.block).iter) = true) = true :=
    exists_eq_ok (by decide +kernel)
  obtain ⟨hgone, hopen⟩ := of_decide_eq_true htest
  obtain ⟨sb, hget, hdep⟩ := (Option.any_eq_true _ _).mp hopen
  exact ⟨l, sb, insertRun_devZeroReceived.run.tail (.rollBack 3 _ _ _ _ _ hrun), hget,
    of_decide_eq_true hdep, hgone⟩

end Ledger

end RsNano
