import RsNano.Ledger.Contents
import RsNano.Ledger.CementProgress
import RsNano.Ledger.RollbackExact

/-!
# Cementing while the ledger changes

When the transaction of the cementer is refreshed, other writers may have inserted blocks and rolled
blocks back. The cementer looks only whether its target is still there, while its stack holds hashes
that it read before. This is enough as long as the ledger contains the dependencies of its blocks,
and the dependencies of the target are the same whenever the target is there: what is on the stack
is a dependency of the target, also after the refresh.

`Ledger.RefreshesBy` says what the other writers do. A legacy send of nothing can be rolled back
without its receive; then the target is there, the send on the stack is not, and the cementer
panics.
-/

namespace RsNano.Ledger

open BlockCementer Loop

/-- What a refresh of the transaction returns is related to what was committed before it. -/
def RefreshesBy (c : LedgerConstants) (R : Ledger → Ledger → Prop) (refresh : ℕ → Option Ledger)
    (target : BlockHash) (maxBlocks : ℕ) (l : Ledger) : Prop :=
  ∀ i x hash l₁ s₁ l₂,
    Reaches (loopBody c target maxBlocks refresh) 0 (l, ⟨[target], []⟩) i x →
    x.2.stack.head? = some hash → iterate c maxBlocks x.1 x.2 hash = .ok (l₁, s₁) →
    refresh i = some l₂ → R l₁ l₂

/-- Every iteration of a call cements nothing, or it cements a block of the ledger whose dependencies
are confirmed. -/
def CementsInOrder (c : LedgerConstants) (refresh : ℕ → Option Ledger) (target : BlockHash)
    (maxBlocks : ℕ) (l : Ledger) : Prop :=
  ∀ i x hash l₁ s₁,
    Reaches (loopBody c target maxBlocks refresh) 0 (l, ⟨[target], []⟩) i x →
    x.2.stack.head? = some hash → iterate c maxBlocks x.1 x.2 hash = .ok (l₁, s₁) →
    (l₁ = x.1 ∧ s₁.result = x.2.result) ∨
      ∃ block, x.1.block.get hash = some block ∧ l₁ = cement x.1 block ∧
        s₁.result = block :: x.2.result ∧ ∀ d ∈ (block.dependentBlocks c).iter, x.1.Confirmed d

variable {c : LedgerConstants} {minWeight : Amount} {contents : BlockHash → Block}
  {l l₁ l₂ : Ledger} {s s₁ : BlockCementer} {maxBlocks : ℕ} {hash target : BlockHash}
  {refresh : ℕ → Option Ledger}

/-- An iteration leaves the blocks alone, and what it leaves on the stack was there before or is a
dependency of the top. It cements nothing or the top. -/
theorem iterate_spec (h : iterate c maxBlocks l s hash = .ok (l₁, s₁)) :
    ∃ block, l.block.get hash = some block ∧ l₁.block = l.block ∧
      (∀ y ∈ s₁.stack, y ∈ s.stack ∨ y ∈ (block.dependentBlocks c).iter) ∧
      ((l₁ = l ∧ s₁.result = s.result) ∨
        l₁ = cement l block ∧ s₁.result = block :: s.result ∧
          ((block.dependentBlocks c).iter.foldl (pushDependent l maxBlocks)
            s.stack).head? = some hash) := by
  rw [iterate] at h
  split at h
  · cases h
  · next block hblk =>
    have hmem : ∀ y ∈ (block.dependentBlocks c).iter.foldl (pushDependent l maxBlocks) s.stack,
        y ∈ s.stack ∨ y ∈ (block.dependentBlocks c).iter := by
      intro y hy
      rw [foldl_pushDependent] at hy
      exact (BoundedStack.mem_of_mem_pushAll hy).imp_right And.left
    refine ⟨block, hblk, ?_⟩
    dsimp only at h
    split at h
    · next htop =>
      split at h
      · cases h
        exact ⟨rfl, fun y hy => hmem y (List.mem_of_mem_tail hy), .inr ⟨rfl, rfl, htop⟩⟩
      · cases h
        exact ⟨rfl, fun y hy => hmem y (List.mem_of_mem_tail hy), .inl ⟨rfl, rfl⟩⟩
    · cases h
      exact ⟨rfl, hmem, .inl ⟨rfl, rfl⟩⟩

/-- What the loop goes on with: the result of an iteration, or what a refresh returns if it has the
target. -/
theorem loopBody_eq_inl {i : ℕ} {x x' : Ledger × BlockCementer}
    (h : loopBody c target maxBlocks refresh i x = .ok (.inl x')) :
    ∃ hash l₁ s₁, x.2.stack.head? = some hash ∧ iterate c maxBlocks x.1 x.2 hash = .ok (l₁, s₁) ∧
      (x' = (l₁, s₁) ∨ ∃ l₂, refresh i = some l₂ ∧ l₂.block.contains target = true ∧
        x' = (l₂, s₁)) := by
  obtain ⟨l₀, stack, result⟩ := x
  cases stack with
  | nil => cases h
  | cons hash rest =>
    obtain ⟨⟨l₁, s₁⟩, hiter, hy⟩ := bind_eq_ok.mp h
    refine ⟨hash, l₁, s₁, rfl, hiter, ?_⟩
    dsimp only at hy
    split at hy
    · cases hy
    · next hcontinue =>
      cases hy
      cases hr : refresh i with
      | none => exact .inl rfl
      | some l₂ =>
        refine .inr ⟨l₂, rfl, ?_, rfl⟩
        rw [← Bool.not_eq_false]
        intro hmissing
        exact hcontinue (.inl (by simp [hr, hmissing]))

/-- What iterations and refreshes keep holds in every state that a call reaches. -/
theorem RefreshesBy.invariant {R : Ledger → Ledger → Prop} {P : Ledger → BlockCementer → Prop}
    (hrefr : RefreshesBy c R refresh target maxBlocks l)
    (hiter : ∀ l s hash l₁ s₁, P l s → s.stack.head? = some hash →
      iterate c maxBlocks l s hash = .ok (l₁, s₁) → P l₁ s₁)
    (hR : ∀ l s l₂, P l s → R l l₂ → l₂.block.contains target = true → P l₂ s)
    (hbeg : P l ⟨[target], []⟩) {i : ℕ} {x : Ledger × BlockCementer}
    (hreach : Reaches (loopBody c target maxBlocks refresh) 0
      (l, ⟨[target], []⟩) i x) : P x.1 x.2 := by
  refine (hreach.invariant (P := fun i x => Reaches
    (loopBody c target maxBlocks refresh) 0 (l, ⟨[target], []⟩) i x ∧
      P x.1 x.2) ?_ ⟨.refl _ _, hbeg⟩).2
  rintro i x x' ⟨hreach, hx⟩ hbody
  refine ⟨hreach.trans (.step hbody (.refl _ _)), ?_⟩
  obtain ⟨hash, l₁, s₁, htop, hok, rfl | ⟨l₂, hr, htgt, rfl⟩⟩ := loopBody_eq_inl hbody
  · exact hiter _ _ hash l₁ s₁ hx htop hok
  · exact hR l₁ s₁ l₂ (hiter _ _ hash l₁ s₁ hx htop hok)
      (hrefr i x hash l₁ s₁ l₂ hreach htop hok hr) htgt

/-- The iterations of a call cement in order, whatever the other writers do. -/
theorem cementsInOrder (h : Reachable c minWeight l)
    (hrefr : RefreshesBy c (Run c) refresh target maxBlocks l) :
    CementsInOrder c refresh target maxBlocks l := by
  intro i x hash l₁ s₁ hreach htop hok
  have hx : Reachable c minWeight x.1 := by
    refine hrefr.invariant (P := fun l _ => Reachable c minWeight l) ?_ ?_ h hreach
    · exact fun l s hash l₁ s₁ hl _ hok => hl.tail (.cement maxBlocks s s₁ hash hok)
    · exact fun l s l₂ hl hrun _ => hl.trans hrun
  obtain ⟨block, hblk, -, -, hnone | ⟨hcement, hres, hhead⟩⟩ := iterate_spec hok
  · exact .inl hnone
  · refine .inr ⟨block, hblk, hcement, hres, fun d hd => ?_⟩
    exact hx.chained.isConfirmed_iff.mp
      (isConfirmed_of_foldl_pushDependent _ (hx.cemented.other hblk) hhead d hd)

/-- What holds during a call: the target is in the ledger, and the stack holds dependencies of
it. -/
structure Searching (c : LedgerConstants) (contents : BlockHash → Block) (target : BlockHash)
    (l : Ledger) (s : BlockCementer) : Prop where
  orderly : l.Orderly c
  contents_eq : HasContents c contents l
  target_stored : ∃ tb, l.block.get target = some tb
  stack : ∀ y ∈ s.stack, Dependents c l.block y target

namespace Searching

section

variable (h : Searching c contents target l s)

include h

/-- The blocks on the stack are in the ledger. -/
theorem stored {y : BlockHash} (hy : y ∈ s.stack) : ∃ yb, l.block.get y = some yb := by
  obtain ⟨tb, htb⟩ := h.target_stored
  exact (h.orderly.dependents h.orderly h.contents_eq h.contents_eq (h.stack y hy) htb).2

/-- An iteration does not fail. -/
theorem iterate_ne_error (hhash : hash ∈ s.stack) (e : Abort) :
    iterate c maxBlocks l s hash ≠ .error e := by
  obtain ⟨block, hblk⟩ := h.stored hhash
  intro herr
  rw [iterate, hblk] at herr
  dsimp only at herr
  split at herr
  · split at herr
    · cases herr
    · cases herr
  · cases herr

/-- An iteration pushes dependencies of the target only. -/
theorem iterate (hhash : hash ∈ s.stack) (hok : iterate c maxBlocks l s hash = .ok (l₁, s₁)) :
    Searching c contents target l₁ s₁ := by
  obtain ⟨block, hblk, heq, hstack, -⟩ := iterate_spec hok
  refine ⟨h.orderly.cement hok, ?_, ?_, ?_⟩
  · intro x sb hget
    exact h.contents_eq x sb (heq ▸ hget)
  · rw [heq]
    exact h.target_stored
  · intro y hy
    rw [heq]
    rcases hstack y hy with hy | hy
    · exact h.stack y hy
    · obtain ⟨hne, hdep⟩ := (h.orderly.reversible.cemented.dependents hblk y).mp hy
      exact .head ⟨hne, block, hblk, hdep.imp_left Eq.symm⟩ (h.stack hash hhash)

/-- After a refresh the stack still holds dependencies of the target, if the target is there. -/
theorem refreshed (hrun : AllowedRun c (KeepsContents c contents) l l₁)
    (htgt : ∃ tb, l₁.block.get target = some tb) : Searching c contents target l₁ s := by
  have horderly := h.orderly.run (fun _ _ h => h.1) hrun
  have hcts : HasContents c contents l₁ := h.contents_eq.run h.orderly hrun
  refine ⟨horderly, hcts, htgt, fun y hy => ?_⟩
  obtain ⟨tb, htb⟩ := htgt
  exact (h.orderly.dependents horderly h.contents_eq hcts (h.stack y hy) htb).1

end

/-- The start of a call. -/
theorem start (h : l.Orderly c) (hcts : HasContents c contents l)
    (htgt : ∃ tb, l.block.get target = some tb) :
    Searching c contents target l ⟨[target], []⟩ := by
  refine ⟨h, hcts, htgt, fun y hy => ?_⟩
  rw [List.mem_singleton.mp hy]
  exact .refl

/-- Every state that a call reaches holds dependencies of the target on its stack. -/
theorem of_reaches (h : Searching c contents target l ⟨[target], []⟩)
    (hrefr : RefreshesBy c (AllowedRun c (KeepsContents c contents)) refresh target maxBlocks l)
    {i : ℕ} {x : Ledger × BlockCementer}
    (hreach : Reaches (loopBody c target maxBlocks refresh) 0
      (l, ⟨[target], []⟩) i x) : Searching c contents target x.1 x.2 := by
  refine hrefr.invariant ?_ ?_ h hreach
  · exact fun l s hash l₁ s₁ hs htop hok => hs.iterate (List.mem_of_head? htop) hok
  · exact fun l s l₂ hs hrun htgt => hs.refreshed hrun (Option.isSome_iff_exists.mp htgt)

/-- The body of the loop does not fail. -/
theorem loopBody_ne_error (h : Searching c contents target l s) (i : ℕ) (e : Abort) :
    BlockCementer.loopBody c target maxBlocks refresh i (l, s) ≠ .error e := by
  obtain ⟨stack, result⟩ := s
  cases stack with
  | nil => exact fun herr => by cases herr
  | cons hash rest =>
    intro herr
    cases hok : BlockCementer.iterate c maxBlocks l ⟨hash :: rest, result⟩ hash with
    | error e' => exact h.iterate_ne_error List.mem_cons_self e' hok
    | ok r =>
      simp only [BlockCementer.loopBody, hok] at herr
      change (if _ then _ else _) = _ at herr
      split at herr
      · cases herr
      · cases herr

end Searching

/-- Calls of the cementer do not panic while other writers insert blocks and roll blocks back, and
every block is cemented when it is in the ledger and its dependencies are cemented. The inserted
blocks, before and during the call, must neither send nothing nor raise a balance under an epoch
link, and no two of them with different contents may have the same hash. -/
theorem allowedRun_confirm (h : AllowedRun c (KeepsContents c contents) (genesis c minWeight) l)
    (htarget : l.block.contains target = true)
    (hrefresh : RefreshesBy c (AllowedRun c (KeepsContents c contents)) refresh target maxBlocks
      l) :
    (∀ fuel e, BlockCementer.confirm c fuel refresh target maxBlocks l = .error e →
      e = .outOfFuel) ∧ CementsInOrder c refresh target maxBlocks l := by
  have horderly : l.Orderly c := Orderly.genesis_ledger.run (fun _ _ h => h.1) h
  have hcontents := HasContents.genesis_ledger.run Orderly.genesis_ledger h
  have hstart : Searching c contents target l ⟨[target], []⟩ :=
    .start horderly hcontents (Option.isSome_iff_exists.mp htarget)
  constructor
  · intro fuel e herror
    rcases Loop.exists_of_run_eq_error herror with rfl | ⟨i, x, hreach, hbody⟩
    · rfl
    · exact absurd hbody ((hstart.of_reaches hrefresh hreach).loopBody_ne_error i e)
  · exact cementsInOrder h.run fun i x hash l₁ s₁ l₂ hreach htop hok hr =>
      (hrefresh i x hash l₁ s₁ l₂ hreach htop hok hr).run

/-- A single refresh after the first iteration. -/
theorem RefreshesBy.first {R : Ledger → Ledger → Prop}
    (hok : iterate c maxBlocks l ⟨[target], []⟩ target = .ok (l₁, s₁))
    (hR : R l₁ l₂) :
    RefreshesBy c R (fun i => if i = 0 then some l₂ else none) target maxBlocks l := by
  intro i x hash l₁' s₁' l₂' hreach htop hok' hr
  dsimp only at hr
  split at hr
  · next hzero =>
    subst hzero
    obtain rfl := hreach.eq
    cases hr
    cases htop
    cases hok.symm.trans hok'
    exact hR
  · cases hr

/-- The contents of the first blocks of the dev network. -/
def devContents (hash : BlockHash) : Block :=
  if hash = devSend.hash then (Block.state devSend).unsigned
  else if hash = devOpen.hash then (Block.state devOpen).unsigned
  else (Block.state devUpgrade).unsigned

/-- The first receive of the dev network is cemented while the epoch block of the genesis account
comes in. -/
theorem confirm_devUpgrade :
    ∃ refresh : ℕ → Option Ledger,
      refresh 0 = some (devReceived.processed devConstants (.state devUpgrade)) ∧
      (∀ fuel e, BlockCementer.confirm devConstants fuel refresh devOpen.hash 8 devReceived =
        .error e → e = .outOfFuel) ∧
      CementsInOrder devConstants refresh devOpen.hash 8 devReceived := by
  have hok : BlockCementer.iterate devConstants 8 devReceived ⟨[devOpen.hash], []⟩ devOpen.hash =
      .ok (devReceived, ⟨[devSend.hash, devOpen.hash], []⟩) := by decide +kernel
  have hrun : InsertRun devConstants (KeepsContents devConstants devContents)
      (genesis devConstants 0) devReceived :=
    insertRun_devReceived (by decide +kernel) (by decide +kernel)
  have hinsert : InsertRun devConstants (KeepsContents devConstants devContents) devReceived
      (devReceived.processed devConstants (.state devUpgrade)) :=
    .processed .refl (by decide +kernel) (by decide +kernel)
  exact ⟨_, if_pos rfl, allowedRun_confirm hrun.allowedRun (by decide +kernel)
    (.first hok hinsert.allowedRun)⟩

/-- A legacy send of nothing is rolled back while its receive is cemented, and the cementer
panics. -/
theorem confirm_devZeroSend_panics :
    ∃ refresh : ℕ → Option Ledger, Reachable devConstants 0 devZeroReceived ∧
      devZeroReceived.blockExists devZeroOpen.hash = true ∧
      RefreshesBy devConstants (Run devConstants) refresh devZeroOpen.hash 8 devZeroReceived ∧
      BlockCementer.confirm devConstants 2 refresh devZeroOpen.hash 8 devZeroReceived =
        .error .blockMissing := by
  have hok : BlockCementer.iterate devConstants 8 devZeroReceived ⟨[devZeroOpen.hash], []⟩
      devZeroOpen.hash = .ok (devZeroReceived, ⟨[devZeroSend.hash, devZeroOpen.hash], []⟩) := by
    decide +kernel
  obtain ⟨⟨l, results⟩, hrun, htest⟩ : ∃ x,
      devZeroReceived.rollBack devConstants 3 (fun _ => 0) devZeroSend.hash = .ok x ∧
        decide (BlockCementer.confirm devConstants 2 (fun i => if i = 0 then some x.1 else none)
          devZeroOpen.hash 8 devZeroReceived = .error .blockMissing) = true :=
    exists_eq_ok (by decide +kernel)
  exact ⟨_, insertRun_devZeroReceived.run, by decide +kernel,
    .first hok (.single (.rollBack 3 _ _ _ _ _ hrun)), of_decide_eq_true htest⟩

end RsNano.Ledger
