import RsNano.Ledger.Performer
import RsNano.Ledger.Cementer
import RsNano.Ledger.VoteVerifier
import RsNano.Ledger.Process
import RsNano.Ledger.DevNetwork

/-!
# Runs of the ledger

The ledger changes by insertions of accepted blocks, by roll-backs, by cementing and by the
verification of final votes. A roll-back that ends with an error is a step like any other: what
it did is committed. A panic is not a step; the node stops there.

One iteration of the cementer is a step of its own, with whatever stack, because other writers
can get in between two iterations. A whole call is a run of such steps
(`Ledger.Run.of_confirm`), also when its transaction is refreshed.
-/

namespace RsNano.Ledger

/-- One change of the ledger. -/
inductive Step (c : LedgerConstants) (l l' : Ledger) : Prop
  | insert (b : Block) (h : l.Inserts c b l')
  | rollBack (fuel maxRollbacks : ℕ) (canRollBack : BlockHash → Bool) (clock : ℕ → ℕ)
      (targets : List BlockHash) (results : List RollbackResult)
      (h : rollBackBatch c fuel canRollBack maxRollbacks clock 0 targets l = .ok (l', results))
  | cement (maxBlocks : ℕ) (s s' : BlockCementer) (hash : BlockHash)
      (h : BlockCementer.iterate c maxBlocks l s hash = .ok (l', s'))
  | vote (candidates : List (Root × BlockHash)) (h : (l.verifyFinalVotes c candidates).1 = l')

/-- A finite sequence of changes. -/
def Run (c : LedgerConstants) : Ledger → Ledger → Prop := Relation.ReflTransGen (Step c)

/-- The ledgers that a node can reach from genesis. -/
def Reachable (c : LedgerConstants) (minWeight : Amount) (l : Ledger) : Prop :=
  Run c (genesis c minWeight) l

/-- A finite sequence of insertions of accepted blocks, each allowed on the ledger it meets. -/
def InsertRun (c : LedgerConstants) (allowed : Ledger → Block → Prop) : Ledger → Ledger → Prop :=
  Relation.ReflTransGen fun l l' => ∃ b, allowed l b ∧ l.Inserts c b l'

variable {c : LedgerConstants} {minWeight : Amount} {l l' : Ledger} {maxBlocks : ℕ}
  {s s' : BlockCementer} {hash : BlockHash}

/-- What one iteration of the cementer does to the ledger: nothing, or it confirms a stored
block that is not confirmed and whose dependencies are no longer pushed. -/
theorem cement_cases (h : BlockCementer.iterate c maxBlocks l s hash = .ok (l', s')) :
    l' = l ∨ ∃ block, l.block.get hash = some block ∧ BlockCementer.isConfirmed l hash = false ∧
      ((block.dependentBlocks c).iter.foldl (BlockCementer.pushDependent l maxBlocks)
        s.stack).head? = some hash ∧ l' = BlockCementer.cement l block := by
  rw [BlockCementer.iterate] at h
  split at h
  · cases h
  · next block hblk =>
    dsimp only at h
    split at h
    · next hhead =>
      split at h
      · next hconf =>
        cases h
        exact .inr ⟨block, hblk, hconf, hhead, rfl⟩
      · cases h
        exact .inl rfl
    · cases h
      exact .inl rfl

/-- Confirmation heights and final votes are no part of the account chains. -/
theorem Chained.withFinality (hl : l.Chained) (heights : Table Account ConfirmationHeightInfo)
    (count : ℕ) (votes : Table QualifiedRoot BlockHash) :
    { l with
      confirmationHeight := heights, confirmedCount := count, finalVote := votes }.Chained :=
  ⟨hl.linked, hl.owner, hl.opened, hl.head, hl.successor, hl.representative,
    hl.blockCount_eq, hl.accountCount_eq, hl.total⟩

/-- Cementing keeps the account chains. -/
theorem Chained.cement (hl : l.Chained)
    (h : BlockCementer.iterate c maxBlocks l s hash = .ok (l', s')) : l'.Chained := by
  rcases cement_cases h with rfl | ⟨-, -, -, -, rfl⟩
  · exact hl
  · exact hl.withFinality _ _ _

/-- Every change keeps the account chains. -/
theorem Chained.step (hl : l.Chained) (h : Step c l l') : l'.Chained := by
  cases h with
  | insert b h => exact hl.insert h
  | rollBack fuel maxRollbacks canRollBack clock targets results h =>
    exact hl.headSteps (headSteps_of_rollBackBatch hl h)
  | cement maxBlocks s s' hash h => exact hl.cement h
  | vote candidates h =>
    obtain ⟨votes, heq⟩ := verifyFinalVotes_frame c l candidates
    rw [← h, heq]
    exact hl.withFinality _ _ votes

/-- Every run keeps the account chains. -/
theorem Chained.run (hl : l.Chained) (h : Run c l l') : l'.Chained := by
  induction h with
  | refl => exact hl
  | tail _ hstep ih => exact ih.step hstep

/-- Every reachable ledger has account chains. -/
theorem Reachable.chained (h : Reachable c minWeight l) : l.Chained := Chained.genesis.run h

/-- What a change does: it inserts a block, takes heads back, or touches only confirmation heights
or only final votes. -/
theorem Step.cases (hl : l.Chained) (h : Step c l l') : (∃ b, l.Inserts c b l') ∨ HeadSteps c l l' ∨
    (∃ heights count, l' = { l with confirmationHeight := heights, confirmedCount := count }) ∨
    ∃ votes, l' = { l with finalVote := votes } := by
  cases h with
  | insert b h => exact .inl ⟨b, h⟩
  | rollBack fuel maxRollbacks canRollBack clock targets results h =>
    exact .inr (.inl (headSteps_of_rollBackBatch hl h))
  | cement maxBlocks s s' hash h =>
    rcases cement_cases h with rfl | ⟨-, -, -, -, rfl⟩
    · exact .inr (.inl .refl)
    · exact .inr (.inr (.inl ⟨_, _, rfl⟩))
  | vote candidates h =>
    exact .inr (.inr (.inr (h ▸ verifyFinalVotes_frame c l candidates)))

/-- No change stores a block of account zero. -/
theorem Step.account_ne_zero (hl : l.Chained) (h : Step c l l')
    (hne : ∀ x sb, l.block.get x = some sb → sb.account ≠ 0) (x : BlockHash) (sb : SavedBlock)
    (hget : l'.block.get x = some sb) : sb.account ≠ 0 := by
  rcases h.cases hl with ⟨b, h⟩ | h | ⟨heights, count, rfl⟩ | ⟨votes, rfl⟩
  · obtain ⟨now, weights, cache, hpass, -, rfl⟩ := h.spec
    rcases Table.eq_or_of_get_put hget with ⟨-, rfl⟩ | ⟨-, hold⟩
    · exact createValidator_saved_account ▸ hpass.notBurnAccount
    · exact hne x sb hold
  · exact hne x sb (h.get_of_get hl hget)
  · exact hne x sb hget
  · exact hne x sb hget

/-- Account zero is not opened in any reachable ledger. -/
theorem Reachable.account_zero (h : Reachable c minWeight l) : l.account.get 0 = none := by
  have hne : ∀ x sb, l.block.get x = some sb → sb.account ≠ 0 := by
    induction h with
    | refl =>
      intro x sb hget
      obtain ⟨-, rfl⟩ := genesis_block_get.mp hget
      exact c.genesis_account_ne_zero
    | tail hrun hstep ih => exact hstep.account_ne_zero (Chained.genesis.run hrun) ih
  cases hinfo : l.account.get 0 with
  | none => rfl
  | some info =>
    obtain ⟨sb, hsb, hacc, -⟩ := h.chained.head hinfo
    exact absurd hacc (hne _ sb hsb)

variable {allowed : Ledger → Block → Prop}

/-- A sequence of insertions is a run. -/
theorem InsertRun.run (h : InsertRun c allowed l l') : Run c l l' := by
  refine Relation.ReflTransGen.mono ?_ l l' h
  rintro l l' ⟨b, -, hb⟩
  exact .insert b hb

/-- One more block of a sequence of insertions, given by what processing it returns. -/
theorem InsertRun.processed {b : Block} (h : InsertRun c allowed l l') (hok : allowed l' b)
    (hb : l'.accepts c b = true) : InsertRun c allowed l (l'.processed c b) :=
  h.tail ⟨b, hok, inserts_processed hb⟩

/-- A call of the cementer is a run, if what a refresh of its transaction returns is reached
from what was committed. -/
theorem Run.of_confirm {fuel maxBlocks : ℕ} {refresh : ℕ → Option Ledger} {target : BlockHash}
    {r : Ledger × BlockCementer}
    (hrefr : ∀ i x hash l1 s1 l2,
      Loop.Reaches (BlockCementer.loopBody c target maxBlocks refresh) 0 (l, ⟨[target], []⟩) i x →
      BlockCementer.iterate c maxBlocks x.1 x.2 hash = .ok (l1, s1) → refresh i = some l2 →
      Run c l1 l2)
    (h : BlockCementer.confirm c fuel refresh target maxBlocks l = .ok r) : Run c l r.1 := by
  refine Loop.run_invariant (Q := fun r => Run c l r.1)
    (P := fun i x => Loop.Reaches (BlockCementer.loopBody c target maxBlocks refresh) 0
      (l, ⟨[target], []⟩) i x ∧ Run c l x.1) ?_ ⟨.refl _ _, .refl⟩ h
  intro i x y hx hy
  have hbody := hy
  rw [BlockCementer.loopBody] at hy
  split at hy
  · cases hy
    exact hx.2
  · next hash _ _ =>
    rw [bind_eq_ok] at hy
    obtain ⟨⟨l1, s1⟩, hiter, hy⟩ := hy
    have hl1 : Run c l l1 := hx.2.tail (.cement maxBlocks x.2 s1 hash hiter)
    have hl2 : Run c l ((refresh i).getD l1) := by
      cases hr : refresh i with
      | none => exact hl1
      | some l2 => exact hl1.trans (hrefr i x hash l1 s1 l2 hx.1 hiter hr)
    dsimp only at hy
    split at hy
    · cases hy
      exact hl2
    · cases hy
      exact ⟨hx.1.trans (.step hbody (.refl _ _)), hl2⟩

/-! ### Runs on the dev network -/

/-- The dev network after its first send. -/
def devSent : Ledger := (genesis devConstants 0).processed devConstants (.state devSend)

/-- The dev network after its first send has been received. -/
def devReceived : Ledger := devSent.processed devConstants (.state devOpen)

/-- The first send of the dev network is accepted. -/
theorem insertRun_devSent (h : allowed (genesis devConstants 0) (.state devSend)) :
    InsertRun devConstants allowed (genesis devConstants 0) devSent :=
  InsertRun.processed .refl h (by decide +kernel)

/-- The receive of the first send is accepted. -/
theorem insertRun_devReceived (h : allowed (genesis devConstants 0) (.state devSend))
    (h' : allowed devSent (.state devOpen)) :
    InsertRun devConstants allowed (genesis devConstants 0) devReceived :=
  (insertRun_devSent h).processed h' (by decide +kernel)

/-- A node can reach the dev network with its first receive. -/
theorem reachable_devReceived : Reachable devConstants 0 devReceived := by
  have hrun : InsertRun devConstants (fun _ _ => True) (genesis devConstants 0) devReceived :=
    insertRun_devReceived trivial trivial
  exact hrun.run

end RsNano.Ledger
