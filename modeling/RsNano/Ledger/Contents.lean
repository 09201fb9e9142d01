import RsNano.Ledger.ReversibleRun

/-!
# What the hash of a block determines

A block can be rolled back and come again, with another signature and other work, or on another
ledger. If hashes identify the contents of the accepted blocks, then the block has the same balance
and the same dependencies each time: the contents name the previous block and the source by their
hashes, and the balance before the block and the amount it receives follow from these.

That a hash identifies the contents is an assumption here, `contents`, about the blocks that are
accepted. It is more than that there are no collisions: a legacy receive and a legacy change are
hashed alike.
-/

namespace RsNano

open SavedBlock Block

/-- The block without its signature and its work, which are no part of its hash. -/
def Block.unsigned : Block → Block
  | .legacySend b => .legacySend { b with signature := 0, work := 0 }
  | .legacyReceive b => .legacyReceive { b with signature := 0, work := 0 }
  | .legacyOpen b => .legacyOpen { b with signature := 0, work := 0 }
  | .legacyChange b => .legacyChange { b with signature := 0, work := 0 }
  | .state b => .state { b with signature := 0, work := 0 }

section

variable {c : LedgerConstants} {t t' : Table BlockHash SavedBlock} {sb sb' : SavedBlock}

/-- The contents name the previous block. -/
theorem Block.previous_unsigned (b : Block) : b.unsigned.previous = b.previous := by
  cases b <;> rfl

/-- The contents have the balance field. -/
theorem Block.balanceField_unsigned (b : Block) : b.unsigned.balanceField = b.balanceField := by
  cases b <;> rfl

/-- Blocks with the same contents have the same previous block. -/
theorem SavedBlock.previous_congr (h : sb.block.unsigned = sb'.block.unsigned) :
    sb.previous = sb'.previous := by
  rw [previous, previous, ← previous_unsigned, h, previous_unsigned]

/-- The balance is that of the balance field, if there is one. -/
theorem SavedBlock.balance_of_balanceField {balance : Amount}
    (h : sb.block.balanceField = some balance) : sb.balance = balance := by
  rw [SavedBlock.balance]
  cases hblk : sb.block with
  | legacySend b | state b => rw [hblk] at h; exact Option.some.inj h
  | legacyReceive b | legacyOpen b | legacyChange b => rw [hblk] at h; cases h

/-- Blocks without balance field are no sends. -/
theorem SavedBlock.destination_of_balanceField (h : sb.block.balanceField = none) :
    sb.destination = none := by
  rw [destination]
  cases hblk : sb.block with
  | legacySend b | state b => rw [hblk] at h; cases h
  | legacyReceive b | legacyOpen b | legacyChange b => rfl

/-- A block is a send exactly if it has a destination. -/
theorem SavedBlock.isSend_eq : sb.isSend = sb.destination.isSome := by
  rw [isSend, destination]
  cases hblk : sb.block with
  | state b => cases hsend : sb.sideband.details.isSend <;> rfl
  | legacySend b | legacyReceive b | legacyOpen b | legacyChange b => rfl

variable (h : sb.block.unsigned = sb'.block.unsigned)

include h

/-- Blocks with the same contents and no balance field receive the same send. -/
theorem SavedBlock.receivedSend_congr (hfield : sb.block.balanceField = none) :
    sb.receivedSend c = sb'.receivedSend c := by
  rw [receivedSend, receivedSend, source, source]
  cases hblk : sb.block <;> cases hblk' : sb'.block <;>
    simp_all [unsigned, balanceField]

/-- Blocks with the same contents send to the same account, if the balance before them is the
same. -/
theorem sendsTo_congr (hprev : previousBalanceIn t sb = previousBalanceIn t' sb')
    (destination : Account) : sendsTo t sb destination ↔ sendsTo t' sb' destination := by
  rw [sendsTo, sendsTo]
  cases hblk : sb.block <;> cases hblk' : sb'.block <;> simp_all [unsigned]

/-- Blocks with the same contents have the same dependencies, if both are sends or neither. -/
theorem SavedBlock.dependentBlocks_congr (hsend : sb.isSend = sb'.isSend) :
    sb.dependentBlocks c = sb'.dependentBlocks c := by
  rw [dependentBlocks, dependentBlocks]
  cases hblk : sb.block <;> cases hblk' : sb'.block <;> simp_all [unsigned]

end

namespace Ledger

/-- The stored blocks have the contents that their hashes stand for. -/
def HasContents (c : LedgerConstants) (contents : BlockHash → Block) (l : Ledger) : Prop :=
  ∀ x sb, l.block.get x = some sb → x ≠ c.genesisBlock.hash → sb.block.unsigned = contents x

/-- The blocks that keep the ledger reversible and have the contents that their hashes stand for. -/
def KeepsContents (c : LedgerConstants) (contents : BlockHash → Block) (l : Ledger) (b : Block) :
    Prop :=
  KeepsReversible c l b ∧ b.unsigned = contents b.hash

instance (c : LedgerConstants) (contents : BlockHash → Block) (l : Ledger) (b : Block) :
    Decidable (KeepsContents c contents l b) :=
  inferInstanceAs (Decidable (_ ∧ _))

variable {c : LedgerConstants} {minWeight : Amount} {contents : BlockHash → Block}
  {l l' : Ledger} {x y : BlockHash} {sb sb' : SavedBlock}

/-- The genesis ledger has no other block than the genesis block. -/
theorem HasContents.genesis_ledger : HasContents c contents (Ledger.genesis c minWeight) :=
  fun _ _ hget hne => absurd (genesis_block_get.mp hget).1 hne

/-- Runs whose insertions have the contents of their hashes keep this. -/
theorem HasContents.run (h : HasContents c contents l) (ho : l.Orderly c)
    (hrun : AllowedRun c (KeepsContents c contents) l l') : HasContents c contents l' := by
  induction hrun with
  | refl => exact h
  | @tail l₁ l₂ hrun hstep ih =>
    intro x sb hget hne
    rcases hstep with ⟨b, hb, hins⟩ | ⟨-, hblk⟩
    · have ho₁ : l₁.Orderly c := ho.run (fun _ _ h => h.1) hrun
      obtain ⟨nb, rfl, he⟩ := hins.extends_ledger ho₁.reversible.chained
        ho₁.reversible.receivables.genesis
      rcases he.eq_or_get hget with ⟨rfl, rfl⟩ | hold
      · exact hb.2
      · exact ih x sb hold hne
    · exact ih x sb (hblk hget) hne

section

variable (h : l.Orderly c) (h' : l'.Orderly c) (hcts : HasContents c contents l)
  (hcts' : HasContents c contents l') (hget : l.block.get x = some sb)
  (hget' : l'.block.get x = some sb')

include h h' hcts hcts' hget hget'

/-- A block has the same contents in both ledgers. -/
theorem Orderly.unsigned_eq : sb.block.unsigned = sb'.block.unsigned := by
  by_cases hgen : x = c.genesisBlock.hash
  · subst hgen
    cases h.genesis.symm.trans hget
    cases h'.genesis.symm.trans hget'
    rfl
  · exact (hcts x sb hget hgen).trans (hcts' x sb' hget' hgen).symm

/-- The balance before a block is the same, if the previous block agrees. -/
theorem Orderly.previousBalanceIn_eq
    (hprev : ∀ p p', l.block.get sb.previous = some p → l'.block.get sb.previous = some p' →
      p.balance = p'.balance) :
    previousBalanceIn l.block sb = previousBalanceIn l'.block sb' := by
  have hsame := previous_congr (h.unsigned_eq h' hcts hcts' hget hget')
  rw [previousBalanceIn, previousBalanceIn, ← hsame]
  by_cases hzero : sb.previous = 0
  · simp [balanceAfter, hzero]
  · obtain ⟨p, hp, -⟩ := h.reversible.chained.linked.previous hget hzero
    obtain ⟨p', hp', -⟩ := h'.reversible.chained.linked.previous hget' (hsame ▸ hzero)
    rw [← hsame] at hp'
    simp [balanceAfter, hzero, hp, hp', hprev p p' hp hp']

/-- The dependencies of a block are the same, if the balance before it is. -/
theorem Orderly.dependentBlocks_eq
    (hprev : previousBalanceIn l.block sb = previousBalanceIn l'.block sb') :
    sb.dependentBlocks c = sb'.dependentBlocks c := by
  have hsame := h.unsigned_eq h' hcts hcts' hget hget'
  have hdest : sb.destination = sb'.destination := by
    refine Option.ext fun destination => ?_
    rw [h.reversible.receivables.sends hget, h'.reversible.receivables.sends hget']
    exact sendsTo_congr hsame hprev destination
  refine dependentBlocks_congr hsame ?_
  rw [isSend_eq, isSend_eq, hdest]

/-- The balance of a block is the same, if the balance before it is and the send that it receives
agrees. -/
theorem Orderly.balance_eq (hprev : previousBalanceIn l.block sb = previousBalanceIn l'.block sb')
    (hrecv : ∀ s send send', sb.receivedSend c = some s → l.block.get s = some send →
      l'.block.get s = some send' →
      (sendInfo l.block send).amount = (sendInfo l'.block send').amount) :
    sb.balance = sb'.balance := by
  have hsame := h.unsigned_eq h' hcts hcts' hget hget'
  by_cases hgen : x = c.genesisBlock.hash
  · subst hgen
    cases h.genesis.symm.trans hget
    cases h'.genesis.symm.trans hget'
    rfl
  have hfields : sb.block.balanceField = sb'.block.balanceField := by
    rw [← balanceField_unsigned, hsame, balanceField_unsigned]
  cases hfield : sb.block.balanceField with
  | some balance =>
    rw [balance_of_balanceField hfield, balance_of_balanceField (hfields.symm.trans hfield)]
  | none =>
    have hsends := receivedSend_congr (c := c) hsame hfield
    cases hsend : sb.receivedSend c with
    | none =>
      rw [h.reversible.balanced.keep hget hgen (destination_of_balanceField hfield) hsend,
        h'.reversible.balanced.keep hget' hgen
          (destination_of_balanceField (hfields.symm.trans hfield))
          (hsends.symm.trans hsend), hprev]
    | some s =>
      obtain ⟨send, hs, -, hbal, -⟩ := h.reversible.receivables.received hget hsend
      obtain ⟨send', hs', -, hbal', -⟩ :=
        h'.reversible.receivables.received hget' (hsends.symm.trans hsend)
      rw [hbal, hbal', hprev, hrecv s send send' hsend hs hs']

end

variable (h : l.Orderly c) (h' : l'.Orderly c) (hcts : HasContents c contents l)
  (hcts' : HasContents c contents l')

include h h' hcts hcts'

/-- A block that is in two ledgers has the same balance, the same balance before it and the same
dependencies in both. The induction is along the dependencies. -/
theorem Orderly.agree (hget : l.block.get x = some sb) (hget' : l'.block.get x = some sb') :
    sb.balance = sb'.balance ∧ previousBalanceIn l.block sb = previousBalanceIn l'.block sb' ∧
      sb.dependentBlocks c = sb'.dependentBlocks c := by
  obtain ⟨rank, hrank⟩ := h.ranked
  induction hn : rank x using Nat.strong_induction_on generalizing x sb sb' with
  | _ n ih =>
    have hprev : previousBalanceIn l.block sb = previousBalanceIn l'.block sb' := by
      refine h.previousBalanceIn_eq h' hcts hcts' hget hget' fun p p' hp hp' => ?_
      have hne := h.reversible.chained.linked.hash_ne_zero hp
      exact (ih _ (hn ▸ hrank ⟨hne, sb, hget, .inl rfl⟩) hp hp' rfl).1
    refine ⟨h.balance_eq h' hcts hcts' hget hget' hprev ?_, hprev,
      h.dependentBlocks_eq h' hcts hcts' hget hget' hprev⟩
    intro s send send' hsend hs hs'
    have hne := h.reversible.chained.linked.hash_ne_zero hs
    obtain ⟨hbal, hbef, -⟩ := ih _ (hn ▸ hrank ⟨hne, sb, hget, .inr hsend⟩) hs hs' rfl
    rw [sendInfo, sendInfo, hbal, hbef]

/-- What a block depends on in one ledger it depends on in every other that has the block. -/
theorem Orderly.dependents (hdep : Dependents c l.block y x) (hget' : l'.block.get x = some sb') :
    Dependents c l'.block y x ∧ ∃ yb, l'.block.get y = some yb := by
  induction hdep generalizing sb' with
  | refl => exact ⟨.refl, sb', hget'⟩
  | @tail z w _ hstep ih =>
    obtain ⟨hne, wb, hw, hd⟩ := hstep
    have hmem : z ∈ (wb.dependentBlocks c).iter :=
      (h.reversible.cemented.dependents hw z).mpr ⟨hne, hd.imp_left Eq.symm⟩
    rw [(h.agree h' hcts hcts' hw hget').2.2] at hmem
    have hdep' := ((h'.reversible.cemented.dependents hget' z).mp hmem).2
    have hstep' : DependsOn c l'.block z w := ⟨hne, sb', hget', hdep'.imp_left Eq.symm⟩
    obtain ⟨zb, hz⟩ := h'.reversible.receivables.get_of_dependsOn h'.reversible.chained hstep'
    obtain ⟨hdeps, hy⟩ := ih hz
    exact ⟨hdeps.tail hstep', hy⟩

end Ledger

end RsNano
