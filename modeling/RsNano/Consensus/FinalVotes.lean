import RsNano.Ledger.Atomicity

/-!
# Selection of final votes

Two paths of the node lead to a final vote. `verify_votes` records the vote in the ledger. The
request aggregator answers with a final vote when the recorded vote is for the block, or when
there is no record and the block is confirmed; it decides on a snapshot that may be old, and the
vote generator filters what it found on a newer one.

`Ledger.Settled` is the common reason why no other hash can be selected for a qualified root: the
record names the hash, or there is none yet and the block with the hash is confirmed. It is
never lost again. What happens to a selected vote later (spacing, queues, broadcast) only drops
votes and is not modelled, and neither are the statistics. The optional `ledger_snapshots`
feature does not change the filter for final votes.
-/

namespace RsNano

open List

variable {block : SavedBlock}

namespace RequestAggregatorImpl

/-- Look up a requested block by its hash, or by its root if there is no such block. -/
def searchForBlock (any : Ledger) (hash : BlockHash) (root : Root) : Option SavedBlock :=
  match any.getBlock hash with
  | some block => some block
  | none =>
    if root ≠ 0 then
      match any.blockSuccessor (root.into .blockHash) with
      | some successor => any.getBlock successor
      | none =>
        match any.getAccount (root.into .account) with
        | some info => any.getBlock info.openBlock
        | none => none
    else none

/-- The recorded final vote decides, and without a record the confirmation. -/
def shouldGenerateFinalVote (any : Ledger) (block : Block) : Bool :=
  match any.finalVote.get block.qualifiedRoot with
  | some finalHash => finalHash = block.hash
  | none => any.isConfirmed block.hash

/-- The blocks that `add_votes` selects for final votes. -/
def addVotes (any : Ledger) : List (BlockHash × Root) → List SavedBlock
  | [] => []
  | (hash, root) :: requests =>
    match searchForBlock any hash root with
    | some block =>
      if shouldGenerateFinalVote any block.block then block :: addVotes any requests
      else addVotes any requests
    | none => addVotes any requests

/-- Whatever the search finds is stored. -/
theorem get_of_searchForBlock {any : Ledger} {hash : BlockHash} {root : Root}
    (h : searchForBlock any hash root = some block) : ∃ x, any.block.get x = some block := by
  have hget : ∀ {x}, any.getBlock x = some block → ∃ x, any.block.get x = some block := by
    intro x hx
    rw [Ledger.getBlock] at hx
    split at hx
    · cases hx
    · exact ⟨x, hx⟩
  rw [searchForBlock] at h
  split at h
  · next hx => exact hget (hx.trans h)
  · split at h
    · split at h
      · exact hget h
      · split at h
        · exact hget h
        · cases h
    · cases h

/-- The selected blocks are stored and pass the test. -/
theorem of_mem_addVotes {any : Ledger} {requests : List (BlockHash × Root)}
    (h : block ∈ addVotes any requests) :
    (∃ x, any.block.get x = some block) ∧ shouldGenerateFinalVote any block.block = true := by
  induction requests with
  | nil => cases h
  | cons request requests ih =>
    rw [addVotes] at h
    split at h
    · next found hfound =>
      split at h
      · next hfin =>
        rcases mem_cons.mp h with rfl | h
        · exact ⟨get_of_searchForBlock hfound, hfin⟩
        · exact ih h
      · exact ih h
    · exact ih h

end RequestAggregatorImpl

open RequestAggregatorImpl

/-- The candidates that `VoteGenerator::generate` queues, as roots and hashes. -/
def VoteGenerator.generate (c : LedgerConstants) (any : Ledger) (blocks : List SavedBlock) :
    List (Root × BlockHash) :=
  (blocks.filter (any.dependentsConfirmed c)).map fun block => (block.block.root, block.hash)

namespace Ledger

/-- A hash is selected for final voting somewhere in a history, latest state first: it is
verified by one of the changes, or the aggregator selects it on one state and the generator
keeps it on another. -/
inductive Selects (c : LedgerConstants) (history : List Ledger) (root : QualifiedRoot)
    (hash : BlockHash) : Prop
  | verified {k : ℕ} {l : Ledger} {candidates : List (Root × BlockHash)} {r : Root}
      {block : SavedBlock} (before : history[k + 1]? = some l)
      (after : history[k]? = some (l.verifyFinalVotes c candidates).1)
      (hver : (r, hash) ∈ (l.verifyFinalVotes c candidates).2)
      (hblock : l.block.get hash = some block) (hroot : block.block.qualifiedRoot = root)
  | requested {snapshot newer : Ledger} {requests : List (BlockHash × Root)} {block : SavedBlock}
      (hsnap : snapshot ∈ history) (hnewer : newer ∈ history)
      (hblock : block ∈ addVotes snapshot requests)
      (hgenerated : (block.block.root, hash) ∈
        VoteGenerator.generate c newer (addVotes snapshot requests))
      (hhash : block.hash = hash) (hroot : block.block.qualifiedRoot = root)

/-- No other hash can get a final vote for the qualified root. -/
def Settled (l : Ledger) (root : QualifiedRoot) (hash : BlockHash) : Prop :=
  l.finalVote.get root = some hash ∨
    l.finalVote.get root = none ∧
      ∃ block, l.block.get hash = some block ∧ block.block.qualifiedRoot = root ∧ l.Confirmed hash

variable {c : LedgerConstants} {minWeight : Amount} {l l' : Ledger} {root : QualifiedRoot}
  {hash hash' : BlockHash}

/-- A first block has the account of its qualified root. -/
theorem account_of_isOpen {sb : SavedBlock} (hopen : sb.block.isOpen = true)
    (hzero : sb.previous = 0) : sb.account.into .root = sb.block.root := by
  obtain ⟨block, sideband⟩ := sb
  cases block with
  | legacyOpen b => rfl
  | state b => exact (if_neg (not_not.mpr hzero)).symm
  | legacySend b | legacyReceive b | legacyChange b => cases hopen

/-- A ledger has at most one block for a qualified root. -/
theorem Chained.eq_of_qualifiedRoot_eq (hl : l.Chained) {sb sb' : SavedBlock}
    (hget : l.block.get hash = some sb) (hget' : l.block.get hash' = some sb')
    (heq : sb.block.qualifiedRoot = sb'.block.qualifiedRoot) : hash = hash' := by
  have hroot : sb.block.root = sb'.block.root := congrArg QualifiedRoot.root heq
  have hprev : sb.previous = sb'.previous := congrArg QualifiedRoot.previous heq
  by_cases hzero : sb.previous = 0
  · obtain ⟨hone, hopen⟩ := hl.linked.first hget hzero
    have hzero' : sb'.previous = 0 := hprev ▸ hzero
    obtain ⟨hone', hopen'⟩ := hl.linked.first hget' hzero'
    refine hl.linked.unique hget hget' ?_ (hone.trans hone'.symm)
    rw [← U256.into_inj, account_of_isOpen hopen hzero, account_of_isOpen hopen' hzero', hroot]
  · exact hl.linked.eq_of_previous_eq hget hget' hzero hprev

variable (hl : l.Chained)

include hl in
/-- Roll-backs do not touch final votes. -/
theorem HeadSteps.finalVote_eq (h : HeadSteps c l l') : l'.finalVote = l.finalVote :=
  h.invariant hl rfl fun hl1 ih hhead => (hhead.frame hl1).2.2.trans ih

section

variable (hc : l.Cemented c) (h : l.Settled root hash)

include h

namespace Settled

/-- A settled root stays settled when the records stay and no confirmed block is lost. -/
theorem keepsConfirmed (hkeep : l.KeepsConfirmed l')
    (hvotes : l'.finalVote = l.finalVote) : l'.Settled root hash := by
  rw [Settled, hvotes]
  rcases h with hvote | ⟨hnone, block, hblk, hroot, hconf⟩
  · exact .inl hvote
  · exact .inr ⟨hnone, block, hkeep.block hblk hconf, hroot, hkeep.confirmed hconf⟩

include hl

/-- A qualified root is settled on one hash. -/
theorem unique (h' : l.Settled root hash') : hash = hash' := by
  rcases h with hvote | ⟨hnone, block, hblk, hroot, -⟩
  · rcases h' with hvote' | ⟨hnone', -⟩
    · exact Option.some.inj (hvote.symm.trans hvote')
    · cases hvote.symm.trans hnone'
  · rcases h' with hvote' | ⟨-, block', hblk', hroot', -⟩
    · cases hnone.symm.trans hvote'
    · exact hl.eq_of_qualifiedRoot_eq hblk hblk' (hroot.trans hroot'.symm)

/-- A settled root stays settled when another vote is recorded. -/
theorem shouldVoteFinal (x : BlockHash) : (l.shouldVoteFinal c x).1.Settled root hash := by
  rcases shouldVoteFinal_cases c l x with heq | ⟨block, hblk, hfree, heq⟩
  · rw [heq]
    exact h
  · rw [heq]
    by_cases hroot : root = block.block.qualifiedRoot
    · subst hroot
      refine .inl ?_
      rw [Table.get_put_self]
      rcases h with hvote | ⟨-, block', hblk', hroot', -⟩
      · cases hvote.symm.trans hfree
      · rw [hl.eq_of_qualifiedRoot_eq hblk hblk' hroot'.symm]
    · have hsame : (l.finalVote.put block.block.qualifiedRoot x).get root = l.finalVote.get root :=
        Table.get_put_of_ne _ _ hroot
      rcases h with hvote | ⟨hnone, hconf⟩
      · exact .inl (hsame.trans hvote)
      · exact .inr ⟨hsame.trans hnone, hconf⟩

/-- A settled root stays settled when other votes are verified. -/
theorem verifyFinalVotes (candidates : List (Root × BlockHash)) :
    (l.verifyFinalVotes c candidates).1.Settled root hash := by
  induction candidates generalizing l with
  | nil => exact h
  | cons candidate candidates ih =>
    have hl1 : (l.shouldVoteFinal c candidate.2).1.Chained := by
      obtain ⟨votes, heq⟩ := shouldVoteFinal_frame c l candidate.2
      rw [heq]
      exact hl.withFinality _ _ votes
    exact ih hl1 (h.shouldVoteFinal hl candidate.2)

include hc

/-- Every change leaves a settled root settled. -/
theorem step (hstep : Step c l l') : l'.Settled root hash := by
  have hkeep := (hc.step hl hstep).2
  cases hstep with
  | insert b hb =>
    obtain ⟨nb, -, he⟩ := hb.extends_ledger hl (hc.genesis_account hl)
    exact h.keepsConfirmed hkeep he.confirmation_eq.2.2
  | rollBack fuel maxRollbacks canRollBack clock targets results hroll =>
    exact h.keepsConfirmed hkeep ((headSteps_of_rollBackBatch hl hroll).finalVote_eq hl)
  | cement maxBlocks s s' x hcement =>
    refine h.keepsConfirmed hkeep ?_
    rcases cement_cases hcement with rfl | ⟨-, -, -, -, rfl⟩
    · rfl
    · rfl
  | vote candidates hvote => exact hvote ▸ h.verifyFinalVotes hl candidates

/-- Every run leaves a settled root settled. -/
theorem run (hrun : Run c l l') : l'.Settled root hash := by
  induction hrun with
  | refl => exact h
  | tail hsteps hstep ih => exact ih.step (hl.run hsteps) (hc.run hl hsteps).1 hstep

end Settled

end

include hl in
/-- A verified vote is settled. -/
theorem settled_of_verified {candidates : List (Root × BlockHash)} {r : Root}
    (hver : (r, hash) ∈ (l.verifyFinalVotes c candidates).2)
    (hblk : l.block.get hash = some block) :
    (l.verifyFinalVotes c candidates).1.Settled block.block.qualifiedRoot hash := by
  induction candidates generalizing l with
  | nil => cases hver
  | cons candidate candidates ih =>
    obtain ⟨votes, heq⟩ := shouldVoteFinal_frame c l candidate.2
    have hl1 : (l.shouldVoteFinal c candidate.2).1.Chained := heq ▸ hl.withFinality _ _ votes
    have hblk1 : (l.shouldVoteFinal c candidate.2).1.block.get hash = some block := by
      rw [heq]
      exact hblk
    change (r, hash) ∈ if (l.shouldVoteFinal c candidate.2).2 = true then candidate :: _ else _
      at hver
    split at hver
    · next hvote =>
      rcases mem_cons.mp hver with rfl | hver
      · obtain ⟨block', hblk', hrecord⟩ := finalVote_of_shouldVoteFinal hvote
        cases hblk.symm.trans hblk'
        exact Settled.verifyFinalVotes hl1 (.inl hrecord) candidates
      · exact ih hl1 hver hblk1
    · exact ih hl1 hver hblk1

include hl in
/-- A vote that the aggregator selects is settled. -/
theorem settled_of_mem_addVotes {requests : List (BlockHash × Root)}
    (h : block ∈ addVotes l requests) :
    l.Settled block.block.qualifiedRoot block.hash := by
  obtain ⟨⟨x, hx⟩, hfin⟩ := of_mem_addVotes h
  rw [← hl.linked.hash_eq hx] at hx
  rw [shouldGenerateFinalVote] at hfin
  split at hfin
  · next finalHash hrecord =>
    rw [of_decide_eq_true hfin] at hrecord
    exact .inl hrecord
  · next hnone => exact .inr ⟨hnone, block, hx, rfl, confirmed_of_isConfirmed hfin⟩

/-- The latest state of a history is reached from every earlier one. -/
theorem run_of_isChain {past : List Ledger}
    (h : (l :: past).IsChain fun l' l => Step c l l') {x : Ledger} (hx : x ∈ l :: past) :
    Run c x l := by
  induction past generalizing l with
  | nil =>
    rw [mem_singleton.mp hx]
    exact .refl
  | cons l1 past ih =>
    rw [isChain_cons_cons] at h
    rcases mem_cons.mp hx with rfl | hx
    · exact .refl
    · exact (ih h.2 hx).tail h.1

/-- Whatever is selected in a history is settled in the end. -/
theorem History.settled {past : List Ledger} (h : History c minWeight (l :: past))
    (hsel : Selects c (l :: past) root hash) : l.Settled root hash := by
  obtain ⟨hchain, hreach⟩ := h.isChain
  have hlast : ∀ x ∈ l :: past, x.Settled root hash → l.Settled root hash := fun x hx hsettled =>
    hsettled.run (hreach x hx).chained (hreach x hx).cemented (run_of_isChain hchain hx)
  cases hsel with
  | verified before after hver hblk hroot =>
    have hl := (hreach _ (mem_of_getElem? before)).chained
    exact hlast _ (mem_of_getElem? after) (hroot ▸ settled_of_verified hl hver hblk)
  | requested hsnap _ hblk _ hhash hroot =>
    have hl := (hreach _ hsnap).chained
    exact hlast _ hsnap (hhash ▸ hroot ▸ settled_of_mem_addVotes hl hblk)

/-- No history selects two hashes with the same qualified root for final voting. -/
theorem history_finalVote_unique {history : List Ledger} (h : History c minWeight history)
    (hselects : Selects c history root hash) (hselects' : Selects c history root hash') :
    hash = hash' := by
  cases history with
  | nil => cases h
  | cons l past =>
    have hl := (h.isChain.2 l mem_cons_self).chained
    exact Settled.unique hl (h.settled hselects) (h.settled hselects')

/-- The dev network after the verification of a final vote for its first send. -/
def devVoted : Ledger :=
  (devSent.verifyFinalVotes devConstants [((Block.state devSend).root, devSend.hash)]).1

/-- The states of the dev network up to the first final vote. -/
theorem history_devVoted : History devConstants 0 [devVoted, devSent, genesis devConstants 0] :=
  .step (.step .genesis (.insert (.state devSend) (inserts_processed (by decide +kernel))))
    (.vote _ rfl)

/-- The aggregator selects the first send for a final vote once the vote is recorded, and in the
whole history it can select nothing else for that root. -/
theorem finalVote_unique_devVoted :
    Selects devConstants [devVoted, devSent, genesis devConstants 0]
        (Block.state devSend).qualifiedRoot devSend.hash ∧
      ∀ hash, Selects devConstants [devVoted, devSent, genesis devConstants 0]
        (Block.state devSend).qualifiedRoot hash → hash = devSend.hash := by
  have hselects : Selects devConstants [devVoted, devSent, genesis devConstants 0]
      (Block.state devSend).qualifiedRoot devSend.hash := by
    have hfound : ((addVotes devVoted
        [(devSend.hash, (Block.state devSend).root)]).map SavedBlock.block) = [.state devSend] := by
      decide +kernel
    obtain ⟨block, hblock, heq⟩ := map_eq_singleton_iff.mp hfound
    have hstate : devVoted ∈ [devVoted, devSent, genesis devConstants 0] := mem_cons_self
    refine .requested hstate hstate (hblock ▸ mem_singleton_self block) ?_ ?_ ?_
    · rw [heq]
      decide +kernel
    · rw [SavedBlock.hash, heq]
      rfl
    · rw [heq]
  exact ⟨hselects, fun hash hhash => history_finalVote_unique history_devVoted hhash hselects⟩

end Ledger

end RsNano
