import RsNano.Ledger.HeadRollback
import Mathlib.Logic.Relation

/-!
# The performer as a sequence of head roll-backs

Whatever the performer does to the ledger is a sequence of head roll-backs. The head blocks on
its stack can be out of date, because a dependency that was pushed later may have removed
them. A head block that is still in the ledger is still the head of its account, and one that
is gone makes the planner panic; so a stale entry never leads to a wrong roll-back.
-/

namespace RsNano

namespace Ledger

/-- Some head block is rolled back. -/
def HeadStep (c : LedgerConstants) (l l' : Ledger) : Prop := ∃ head, l.RollsBackHead c head l'

/-- Head blocks are rolled back, one after the other. -/
def HeadSteps (c : LedgerConstants) : Ledger → Ledger → Prop := Relation.ReflTransGen (HeadStep c)

variable {c : LedgerConstants} {l l' : Ledger}
variable {head other : SavedBlock}

section

variable (hl : l.Chained)

include hl

/-- Head roll-backs keep the account chains. -/
theorem Chained.headSteps (h : HeadSteps c l l') : l'.Chained := by
  induction h with
  | refl => exact hl
  | tail _ hstep ih =>
    obtain ⟨head, hhead⟩ := hstep
    exact ih.rollsBackHead hhead

/-- What every roll-back of a head block keeps is kept by all of them. -/
@[elab_as_elim] theorem HeadSteps.invariant {P : Ledger → Prop} (h : HeadSteps c l l') (hP : P l)
    (hstep : ∀ {l head l'}, l.Chained → P l → l.RollsBackHead c head l' → P l') : P l' := by
  induction h with
  | refl => exact hP
  | tail hsteps hrest ih =>
    obtain ⟨head, hhead⟩ := hrest
    exact hstep (hl.headSteps hsteps) ih hhead

variable {sb : SavedBlock} {x : BlockHash}

/-- Head roll-backs add no block. -/
theorem HeadSteps.get_of_get (h : HeadSteps c l l') (hget : l'.block.get x = some sb) :
    l.block.get x = some sb := by
  revert hget
  refine h.invariant hl id fun hl1 ih hhead hget => ?_
  rw [hhead.block_eq hl1] at hget
  exact ih (Table.get_of_get_del hget).2

/-- A head roll-back makes the block table smaller. -/
theorem HeadStep.size_lt (h : HeadStep c l l') : l'.block.size < l.block.size := by
  obtain ⟨head, hhead⟩ := h
  rw [hhead.block_eq hl]
  obtain ⟨-, info, i, hh, -⟩ := hhead
  have := Table.size_del_of_some hh.stored
  omega

/-- Head roll-backs do not make the block table larger. -/
theorem HeadSteps.size_le (h : HeadSteps c l l') : l'.block.size ≤ l.block.size := by
  induction h with
  | refl => exact le_rfl
  | tail hsteps hstep ih => exact (hstep.size_lt (hl.headSteps hsteps)).le.trans ih

/-- Head roll-backs that remove a block make the block table smaller. -/
theorem HeadSteps.size_lt (h : HeadSteps c l l') (hget : l.block.get x = some sb)
    (hgone : l'.block.get x = none) : l'.block.size < l.block.size := by
  rcases Relation.ReflTransGen.cases_head h with rfl | ⟨l1, hstep, hsteps⟩
  · cases hgone.symm.trans hget
  · have hl1 : l1.Chained := hl.headSteps (.single hstep)
    exact (HeadSteps.size_le hl1 hsteps).trans_lt (hstep.size_lt hl)

/-- The head of an account chain is loaded. -/
theorem Chained.isHead_of_loadAccountHead (h : l.loadAccountHead sb = .ok (.ok head)) :
    head.account = sb.account ∧ ∃ info, l.IsHead head info := by
  rw [loadAccountHead] at h
  cases hacc : l.getAccount sb.account with
  | none => simp [hacc] at h
  | some info =>
    obtain ⟨hb, hhb, hba, -⟩ := hl.head hacc
    have hne := hl.head_ne_zero hacc
    have hhash := hl.linked.hash_eq hhb
    simp only [hacc, loadBlock, getBlock, if_neg hne, hhb, Except.ok.injEq] at h
    subst h
    refine ⟨hba, info, ?_, ?_, hhash.symm⟩
    · rw [hhash]
      exact hhb
    · rw [hba]
      exact hacc

/-- A head block on the stack, which may be gone. -/
def HeadOrGone (l : Ledger) (head : SavedBlock) : Prop :=
  (∃ sb, l.block.get head.hash = some sb) → ∃ info, l.IsHead head info

/-- A roll-back does not invalidate the other head blocks on the stack. -/
theorem HeadOrGone.rollsBackHead (hoth : l.HeadOrGone other) (h : l.RollsBackHead c head l') :
    l'.HeadOrGone other := by
  rintro ⟨sb, hsb⟩
  rw [h.block_eq hl] at hsb
  obtain ⟨hne, hget⟩ := Table.get_of_get_del hsb
  obtain ⟨info, hinfo⟩ := hoth ⟨sb, hget⟩
  have hacc : other.account ≠ head.account := by
    intro heq
    obtain ⟨-, info', i, hh, -⟩ := h
    have hsame := hinfo.account
    rw [heq, hh.account] at hsame
    cases hsame
    exact hne (hinfo.head_eq.symm.trans hh.head_eq)
  refine ⟨info, ?_, ?_, hinfo.head_eq⟩
  · rw [h.block_eq hl, Table.get_del_of_ne _ hne]
    exact hinfo.stored
  · rw [h.account_of_ne hl hacc]
    exact hinfo.account

/-- Head roll-backs do not invalidate the head blocks on the stack. -/
theorem HeadOrGone.headSteps (hoth : l.HeadOrGone other) (h : HeadSteps c l l') :
    l'.HeadOrGone other :=
  h.invariant hl hoth fun hl1 ih hhead => ih.rollsBackHead hl1 hhead

/-- The head of the account of a stored block can be loaded. -/
theorem Chained.loadAccountHead_ok (hget : l.block.get x = some sb) :
    ∃ head info, l.loadAccountHead sb = .ok (.ok head) ∧ head.account = sb.account ∧
      l.IsHead head info := by
  obtain ⟨info, hinfo, -⟩ := hl.owner hget
  obtain ⟨head, hhead, -⟩ := hl.head hinfo
  have hload : l.loadAccountHead sb = .ok (.ok head) := by
    simp [loadAccountHead, getAccount, hinfo, loadBlock, getBlock, hl.head_ne_zero hinfo, hhead]
  obtain ⟨hacc, info', hh⟩ := hl.isHead_of_loadAccountHead hload
  exact ⟨head, info', hload, hacc, hh⟩

end

/-- An account has one head. -/
theorem IsHead.eq_of_account {info info' : AccountInfo} (hh : l.IsHead head info)
    (hoth : l.IsHead other info') (hacc : other.account = head.account) : other = head := by
  have hinfo := hoth.account
  rw [hacc, hh.account] at hinfo
  cases hinfo
  have hst := hoth.stored
  rw [← hoth.head_eq, hh.head_eq, hh.stored] at hst
  cases hst
  rfl

end Ledger

variable {clock : ℕ → ℕ}

namespace BlockRollbackPerformer

open Ledger

variable {c : LedgerConstants} {l : Ledger} {p p' : BlockRollbackPerformer}

/-- What holds of the performer at every iteration. -/
structure Sound (c : LedgerConstants) (l : Ledger) (p : BlockRollbackPerformer) : Prop where
  steps : HeadSteps c l p.ledger
  chained : p.ledger.Chained
  heads : ∀ th ∈ p.targets, p.ledger.HeadOrGone th.2

/-- A planned head block is in the ledger. -/
theorem stored_of_rollBackHeadBlock {l : Ledger} {head : SavedBlock} {now : ℕ}
    {r : Except RollbackError RollbackStep} (h : l.rollBackHeadBlock c head now = .ok r) :
    ∃ sb, l.block.get head.hash = some sb := by
  cases hget : l.block.get head.hash with
  | some sb => exact ⟨sb, rfl⟩
  | none =>
    have hnone : l.blockAccount head.hash = none := by
      simp [blockAccount, getBlock, hget]
    simp [rollBackHeadBlock, createPlanner, hnone] at h

section

variable {target head : SavedBlock} {rest : List (SavedBlock × SavedBlock)} {now : ℕ}
  {e : Option RollbackError} (hp : p.Sound c l) (htgts : p.targets = (target, head) :: rest)

include hp htgts

/-- One step of a plan keeps the performer sound. -/
theorem Sound.performStep {step : RollbackStep}
    (hplan : p.ledger.rollBackHeadBlock c head now = .ok (.ok step))
    (h : p.performStep target head rest step = .ok (p', e)) : p'.Sound c l := by
  obtain ⟨info, hhead⟩ := hp.heads (target, head) (by simp [htgts])
    (stored_of_rollBackHeadBlock hplan)
  cases step with
  | rollBackBlock i =>
    simp only [BlockRollbackPerformer.performStep, bind_eq_ok] at h
    obtain ⟨l1, hexec, h⟩ := h
    have hroll : p.ledger.RollsBackHead c head l1 := ⟨now, info, i, hhead, hplan, hexec⟩
    have hsteps : HeadSteps c l l1 := hp.steps.tail ⟨head, hroll⟩
    have hl1 := hp.chained.rollsBackHead hroll
    have hheads : ∀ th ∈ p.targets, l1.HeadOrGone th.2 :=
      fun th hth => (hp.heads th hth).rollsBackHead hp.chained hroll
    split at h
    · rw [bind_eq_ok] at h
      obtain ⟨r, hload, h⟩ := h
      cases r with
      | error e =>
        obtain ⟨rfl, -⟩ := h
        exact ⟨hsteps, hl1, hheads⟩
      | ok newHead =>
        obtain ⟨rfl, -⟩ := h
        refine ⟨hsteps, hl1, ?_⟩
        intro th hth
        rcases List.mem_cons.mp hth with rfl | hth
        · exact fun _ => (hl1.isHead_of_loadAccountHead hload).2
        · exact hheads th (by simp [htgts, hth])
    · obtain ⟨rfl, -⟩ := h
      exact ⟨hsteps, hl1, hheads⟩
  | requestDependencyRollback hash =>
    simp only [BlockRollbackPerformer.performStep] at h
    split at h
    · obtain ⟨rfl, -⟩ := h
      exact hp
    · next depBlock hdep =>
      rw [bind_eq_ok] at h
      obtain ⟨r, hload, h⟩ := h
      cases r with
      | error e =>
        obtain ⟨rfl, -⟩ := h
        exact hp
      | ok depHead =>
        obtain ⟨rfl, -⟩ := h
        refine ⟨hp.steps, hp.chained, ?_⟩
        intro th hth
        rcases List.mem_cons.mp hth with rfl | hth
        · exact fun _ => (hp.chained.isHead_of_loadAccountHead hload).2
        · exact hp.heads th hth

/-- One iteration of the loop keeps the performer sound. -/
theorem Sound.iterate (h : p.iterate c now target head rest = .ok (p', e)) : p'.Sound c l := by
  rw [BlockRollbackPerformer.iterate] at h
  split at h
  · rw [bind_eq_ok] at h
    obtain ⟨r, hplan, h⟩ := h
    cases r with
    | error e =>
      obtain ⟨rfl, -⟩ := h
      exact hp
    | ok step => exact hp.performStep htgts hplan h
  · obtain ⟨rfl, -⟩ := h
    exact ⟨hp.steps, hp.chained, fun th hth => hp.heads th (by simp [htgts, hth])⟩

end

/-- The loop of the performer rolls back head blocks only. -/
theorem Sound.rollBackImpl (hp : p.Sound c l) {fuel : ℕ}
    {r : BlockRollbackPerformer × Option RollbackError} (h : rollBackImpl c fuel clock p = .ok r) :
    r.1.Sound c l := by
  refine Loop.run_invariant (P := fun _ p => p.Sound c l) (Q := fun r => r.1.Sound c l) ?_ hp h
  intro i p x hp hx
  cases htgts : p.targets with
  | nil =>
    simp only [loopBody, htgts, Except.ok.injEq] at hx
    subst hx
    exact hp
  | cons th rest =>
    obtain ⟨target, head⟩ := th
    simp only [loopBody, htgts, bind_eq_ok] at hx
    obtain ⟨⟨p1, e⟩, hiter, hx⟩ := hx
    have hp1 := hp.iterate htgts hiter
    cases e with
    | none | some e =>
      rw [pure_eq_ok] at hx
      subst hx
      exact hp1

/-- A roll-back is a sequence of head roll-backs. -/
theorem headSteps_of_rollBack (hl : l.Chained) {fuel : ℕ} {hash : BlockHash}
    {r : BlockRollbackPerformer × Option RollbackError} (h : rollBack c fuel clock l hash = .ok r) :
    HeadSteps c l r.1.ledger := by
  rw [rollBack] at h
  split at h
  · cases h
    exact .refl
  · next target _ =>
    rw [bind_eq_ok] at h
    obtain ⟨x, hload, h⟩ := h
    cases x with
    | error e =>
      rw [pure_eq_ok] at h
      subst h
      exact .refl
    | ok head =>
      refine (Sound.rollBackImpl ⟨.refl, hl, ?_⟩ h).steps
      intro th hth
      obtain rfl := List.mem_singleton.mp hth
      exact fun _ => (hl.isHead_of_loadAccountHead hload).2

end BlockRollbackPerformer

namespace Ledger

variable {c : LedgerConstants} {l : Ledger}

/-- A batch of roll-backs is a sequence of head roll-backs. -/
theorem headSteps_of_rollBackBatch (hl : l.Chained) {fuel maxRollbacks count : ℕ}
    {canRollBack : BlockHash → Bool} {targets : List BlockHash} {r : Ledger × List RollbackResult}
    (h : rollBackBatch c fuel canRollBack maxRollbacks clock count targets l = .ok r) :
    HeadSteps c l r.1 := by
  induction targets generalizing l clock count r with
  | nil =>
    cases h
    exact .refl
  | cons hash targets ih =>
    rw [rollBackBatch] at h
    split at h
    · simp only [bind_eq_ok] at h
      obtain ⟨⟨l1, results⟩, hrest, h⟩ := h
      have hsteps := ih hl hrest
      cases h
      exact hsteps
    · split at h
      · simp only [bind_eq_ok] at h
        obtain ⟨⟨l1, results⟩, hrest, h⟩ := h
        have hsteps := ih hl hrest
        cases h
        exact hsteps
      · next block hblk =>
        rw [bind_eq_ok] at h
        obtain ⟨⟨p, e⟩, hroll, h⟩ := h
        have hsteps := BlockRollbackPerformer.headSteps_of_rollBack hl hroll
        dsimp only at h
        split at h
        · cases h
          exact hsteps
        · simp only [bind_eq_ok] at h
          obtain ⟨⟨l1, results⟩, hrest, h⟩ := h
          have hrec := ih (hl.headSteps hsteps) hrest
          cases h
          exact hsteps.trans hrec

end Ledger

end RsNano
