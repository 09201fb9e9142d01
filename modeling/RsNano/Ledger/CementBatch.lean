import RsNano.Ledger.CementProgress
import RsNano.Ledger.RollbackExact

/-!
# Repeated calls of the cementer

`confirm_batch` calls the cementer again and again until a root is confirmed. Each call confirms at
least one block that the root depends on, and there are only finitely many of them. In the end they
are all confirmed and reported, and nothing else is.

This needs that the root is cementable. It is, where roll-backs take the receive of a block with
the block; a legacy send of nothing is rolled back without its receive, and a call for this
receive then panics.
-/

namespace RsNano

open ConfirmBatch List

/-- The blocks that an event reports as confirmed. -/
def CementingEvent.blocks : CementingEvent → List SavedBlock
  | .batchConfirmed batch => batch.map Prod.fst
  | .alreadyConfirmed _ => []
  | .cementingFailed _ => []

/-- The blocks that a list of events reports. -/
def reportedBlocks (events : List CementingEvent) : List SavedBlock :=
  events.flatMap CementingEvent.blocks

/-- One more event. -/
theorem reportedBlocks_concat (events : List CementingEvent) (e : CementingEvent) :
    reportedBlocks (events ++ [e]) = reportedBlocks events ++ e.blocks := by
  rw [reportedBlocks, flatMap_append, flatMap_singleton, reportedBlocks]

namespace ConfirmBatch

variable {maxBlocks : ℕ} {x : ConfirmBatch} {root : BlockHash} {ledger : Ledger}
  {blocks : List SavedBlock}

/-- The blocks confirmed so far: those reported, and those that wait for it. -/
def added (x : ConfirmBatch) : List SavedBlock :=
  reportedBlocks x.events ++ x.confirmed.map Prod.fst

/-- A report does not touch the ledger. -/
@[simp] theorem ledger_notifyIntermediate : (x.notifyIntermediate maxBlocks).ledger = x.ledger := by
  rw [notifyIntermediate]
  split
  · rfl
  · rfl

/-- A report loses no block. -/
@[simp] theorem added_notifyIntermediate : (x.notifyIntermediate maxBlocks).added = x.added := by
  rw [notifyIntermediate]
  split
  · simp only [added, reportedBlocks_concat, CementingEvent.blocks, map_nil, append_nil]
  · rfl

/-- The ledger after a call. -/
@[simp] theorem ledger_addConfirmed : (x.addConfirmed root ledger blocks).ledger = ledger := by
  rw [addConfirmed]
  split
  · rfl
  · split
    · rfl
    · rfl

/-- The blocks confirmed by a call are added. -/
@[simp] theorem added_addConfirmed :
    (x.addConfirmed root ledger blocks).added = x.added ++ blocks := by
  rw [addConfirmed]
  split
  · have hfst : (blocks.map (·, root)).map Prod.fst = blocks := by
      rw [map_map]
      exact map_id _
    simp only [added, map_append, hfst, append_assoc]
  · next hnone =>
    obtain rfl := not_not.mp hnone
    rw [append_nil]
    split
    · simp only [added, reportedBlocks_concat, CementingEvent.blocks, append_nil]
    · rfl

/-- At the end everything is reported. -/
theorem reportedBlocks_finish : reportedBlocks x.finish.events = x.added := by
  rw [finish]
  split
  · exact reportedBlocks_concat _ _
  · next hnone =>
    rw [added, not_not.mp hnone, map_nil, append_nil]

/-- The last report does not touch the ledger. -/
theorem ledger_finish : x.finish.ledger = x.ledger := by
  rw [finish]
  split
  · rfl
  · rfl

end ConfirmBatch

namespace Ledger

variable {c : LedgerConstants} {minWeight : Amount} {l l' : Ledger} {maxBlocks : ℕ}
  {hash target x : BlockHash} {added : List SavedBlock}

/-- A cementable block is in the ledger. -/
theorem Cementable.stored (h : Cementable c l x) : l.block.contains x = true := by
  cases h with
  | confirmed hconf =>
    obtain ⟨sb, hsb, -⟩ := hconf
    rw [Table.contains, hsb]
    rfl
  | block hget _ =>
    rw [Table.contains, hget]
    rfl

/-- Confirming blocks keeps the others cementable. -/
theorem Confirms.cementable (h : Confirms c l target l' added) (hx : Cementable c l x) :
    Cementable c l' x := by
  induction hx with
  | confirmed hconf => exact .confirmed ((h.confirmed_iff _).mpr (.inl hconf))
  | block hget _ ih => exact .block (h.block_eq ▸ hget) ih

/-- No more blocks are confirmed than there are. -/
theorem Confirms.length_le (h : Confirms c l target l' added) : added.length ≤ l.block.size := by
  rw [← length_map SavedBlock.hash]
  refine Table.length_le_size h.nodup fun y hy => ?_
  obtain ⟨b, hb, rfl⟩ := mem_map.mp hy
  exact ⟨b, h.stored b hb⟩

/-- When the target is confirmed, so is everything it depends on, and nothing else was confirmed. -/
theorem Confirms.complete (h : Confirms c l target l' added) (htgt : l'.Confirmed target) :
    (∀ x, l'.Confirmed x ↔ l.Confirmed x ∨ Dependents c l.block x target) ∧
      ∀ x, x ∈ added.map SavedBlock.hash ↔ ¬ l.Confirmed x ∧ Dependents c l.block x target := by
  have hdown : ∀ x, Dependents c l.block x target → l'.Confirmed x := by
    intro x hx
    rw [← h.block_eq] at hx
    by_contra hconf
    exact h.cemented.not_confirmed_of_dependents hx hconf htgt
  have hadded : ∀ x, x ∈ added.map SavedBlock.hash →
      ¬ l.Confirmed x ∧ Dependents c l.block x target := by
    intro x hx
    obtain ⟨b, hb, rfl⟩ := mem_map.mp hx
    exact ⟨h.unconfirmed b hb, h.needed b hb⟩
  constructor
  · intro x
    constructor
    · intro hx
      exact ((h.confirmed_iff x).mp hx).imp_right fun hx => (hadded x hx).2
    · rintro (hx | hx)
      · exact (h.confirmed_iff x).mpr (.inl hx)
      · exact hdown x hx
  · intro x
    constructor
    · exact hadded x
    · rintro ⟨hconf, hx⟩
      exact ((h.confirmed_iff x).mp (hdown x hx)).resolve_left hconf

/-- What gets confirmed was cementable: its dependencies were confirmed before it. -/
theorem InOrder.cementable {P : BlockHash → Prop} {bs : List SavedBlock} (h : InOrder c P bs)
    (hP : ∀ x, P x → Cementable c l x) (hst : ∀ b ∈ bs, l.block.get b.hash = some b) :
    ∀ b ∈ bs, Cementable c l b.hash := by
  induction bs generalizing P with
  | nil => simp
  | cons b bs ih =>
    have hb : Cementable c l b.hash := .block (hst b mem_cons_self) fun d hd => hP d (h.1 d hd)
    intro b' hb'
    rcases mem_cons.mp hb' with rfl | hb'
    · exact hb
    · refine ih h.2 (fun x hx => ?_) (fun b hb => hst b (mem_cons_of_mem _ hb)) b' hb'
      rcases hx with hx | rfl
      · exact hP x hx
      · exact hb

/-- A block that gets confirmed was cementable. -/
theorem Confirms.cementable_of_confirmed (h : Confirms c l target l' added)
    (hx : l'.Confirmed x) : Cementable c l x := by
  rcases (h.confirmed_iff x).mp hx with hold | hadded
  · exact .confirmed hold
  · obtain ⟨b, hb, rfl⟩ := mem_map.mp hadded
    exact h.inOrder.cementable (fun _ => .confirmed) h.stored b hb

/-- One round for a cementable root: it ends with the root confirmed, or confirms some block. -/
theorem Confirms.round {x : ConfirmBatch} (h : Confirms c l target x.ledger x.added)
    (htgt : Cementable c l target) (hlim : 1 ≤ maxBlocks) :
    ∃ x' n, Confirms c l target x'.ledger x'.added ∧
      ((x'.ledger.Confirmed target ∧ ∀ fuel, n ≤ fuel → ∀ i,
          loopBody c fuel target maxBlocks i x = .ok (.inr (x', true))) ∨
        (x.added.length < x'.added.length ∧ ∀ fuel, n ≤ fuel → ∀ i,
          loopBody c fuel target maxBlocks i x = .ok (.inl x'))) := by
  have hnow := h.cementable htgt
  obtain ⟨l', s, n, hn⟩ := hnow.confirm h.chained h.cemented hlim
  obtain ⟨hcall, -, hsome⟩ := confirm_spec h.chained h.cemented hlim (hn n le_rfl)
  let x' := (x.notifyIntermediate maxBlocks).addConfirmed target l' s.result.reverse
  have hledger : x'.ledger = l' := ledger_addConfirmed
  have hadded : x'.added = x.added ++ s.result.reverse := by
    rw [added_addConfirmed, added_notifyIntermediate]
  have hbody : ∀ fuel, n ≤ fuel → ∀ i, loopBody c fuel target maxBlocks i x =
      .ok (if BlockCementer.isConfirmed l' target then .inr (x', true) else .inl x') := by
    intro fuel hfuel i
    rw [loopBody]
    simp only [ledger_notifyIntermediate, hnow.stored, Bool.true_eq_false, if_false]
    refine bind_eq_ok.mpr ⟨(l', s), hn fuel hfuel, ?_⟩
    split
    · rfl
    · rfl
  refine ⟨x', n, by rw [hledger, hadded]; exact h.trans hcall, ?_⟩
  by_cases hconf : l'.Confirmed target
  · refine .inl ⟨hledger ▸ hconf, fun fuel hfuel i => ?_⟩
    rw [hbody fuel hfuel, if_pos (hcall.chained.isConfirmed_iff.mpr hconf)]
  · refine .inr ⟨?_, fun fuel hfuel i => ?_⟩
    · have hopen : ¬ x.ledger.Confirmed target :=
        fun hold => hconf ((hcall.confirmed_iff _).mpr (.inl hold))
      have hpos := length_pos_iff.mpr (hsome hopen)
      rw [hadded, length_append, length_reverse]
      omega
    · rw [hbody fuel hfuel, if_neg (hcall.chained.isConfirmed_iff.not.mpr hconf)]

/-- The rounds for a cementable root end with the root confirmed. -/
theorem Confirms.rounds (htgt : Cementable c l target) (hlim : 1 ≤ maxBlocks) (room : ℕ)
    {x : ConfirmBatch} (h : Confirms c l target x.ledger x.added)
    (hroom : l.block.size < x.added.length + room) :
    ∃ x' n, Confirms c l target x'.ledger x'.added ∧ x'.ledger.Confirmed target ∧
      ∀ steps fuel, n ≤ steps → n ≤ fuel → ∀ i,
        Loop.run .outOfFuel (loopBody c fuel target maxBlocks) steps i x = .ok (x', true) := by
  induction room generalizing x with
  | zero => exact absurd h.length_le (Nat.not_le.mpr hroom)
  | succ room ih =>
    obtain ⟨x1, n1, h1, ⟨hconf, hbody⟩ | ⟨hlt, hbody⟩⟩ := h.round htgt hlim
    · refine ⟨x1, n1 + 1, h1, hconf, fun steps fuel hsteps hfuel i => ?_⟩
      obtain ⟨steps, rfl⟩ : ∃ m, steps = m + 1 := ⟨steps - 1, by omega⟩
      exact Loop.run_succ_eq_ok.mpr (.inl (hbody fuel (by omega) i))
    · obtain ⟨x2, n2, h2, hconf, hrest⟩ := ih h1 (by omega)
      refine ⟨x2, max n1 n2 + 1, h2, hconf, fun steps fuel hsteps hfuel i => ?_⟩
      obtain ⟨steps, rfl⟩ : ∃ m, steps = m + 1 := ⟨steps - 1, by omega⟩
      exact Loop.run_succ_eq_ok.mpr (.inr ⟨x1, hbody fuel (by omega) i,
        hrest steps fuel (by omega) (by omega) (i + 1)⟩)

/-- A batch with a cementable root returns with the root confirmed. -/
theorem Cementable.confirmBatch (h : Cementable c l target) (hl : l.Chained) (hc : l.Cemented c)
    (hlim : 1 ≤ maxBlocks) :
    ∃ l' events n, (∀ fuel, n ≤ fuel →
        l.confirmBatch c fuel [target] maxBlocks = .ok (l', events)) ∧
      Confirms c l target l' (reportedBlocks events) ∧ l'.Confirmed target := by
  obtain ⟨x, n, hx, hconf, hn⟩ := Confirms.rounds h hlim (l.block.size + 1)
    (x := ⟨l, [], 0, []⟩) (.start hl hc) (Nat.lt_succ_self _ |>.trans_le (Nat.le_add_left _ _))
  refine ⟨x.finish.ledger, x.finish.events, n, fun fuel hfuel => ?_, ?_, ?_⟩
  · have hroot : confirmRoot c fuel maxBlocks ⟨l, [], 0, []⟩ target = .ok x :=
      bind_eq_ok.mpr ⟨(x, true), hn fuel fuel hfuel hfuel 0, rfl⟩
    refine bind_eq_ok.mpr ⟨x, ?_, rfl⟩
    rw [foldlM_cons, hroot]
    rfl
  · rw [ledger_finish, reportedBlocks_finish]
    exact hx
  · rw [ledger_finish]
    exact hconf

/-! ### The progress of the cementer -/

/-- A call returns. The blocks it confirms are at most the given number, and at least one if the
target was not confirmed. -/
def CallReturns (c : LedgerConstants) (l : Ledger) (target : BlockHash) (maxBlocks : ℕ) : Prop :=
  ∃ l' s n, (∀ fuel, n ≤ fuel →
      BlockCementer.confirm c fuel (fun _ => none) target maxBlocks l = .ok (l', s)) ∧
    Confirms c l target l' s.result.reverse ∧ s.result.length ≤ maxBlocks ∧
    (¬ l.Confirmed target → s.result ≠ [])

/-- Repeated calls confirm the target; in total they confirm and report what it depends on and was
not confirmed, and nothing else. -/
def BatchConfirms (c : LedgerConstants) (l : Ledger) (target : BlockHash) (maxBlocks : ℕ) : Prop :=
  ∃ l' events n, (∀ fuel, n ≤ fuel → l.confirmBatch c fuel [target] maxBlocks = .ok (l', events)) ∧
    Confirms c l target l' (reportedBlocks events) ∧ l'.Confirmed target ∧
    (∀ x, l'.Confirmed x ↔ l.Confirmed x ∨ Dependents c l.block x target) ∧
    ∀ x, x ∈ (reportedBlocks events).map SavedBlock.hash ↔
      ¬ l.Confirmed x ∧ Dependents c l.block x target

/-- On every reachable ledger a call returns and keeps its bounds, and repeated calls confirm exactly
the dependencies of the target, if and only if the target is cementable. -/
theorem reachable_confirm_progress_iff (h : Reachable c minWeight l) (hlimit : 1 ≤ maxBlocks) :
    (CallReturns c l target maxBlocks ∧ StackBounded c l target maxBlocks ∧
      BatchConfirms c l target maxBlocks) ↔ Cementable c l target := by
  have hl := h.chained
  have hc := h.cemented
  constructor
  · rintro ⟨-, -, l', events, n, -, hconfirms, htarget, -⟩
    exact hconfirms.cementable_of_confirmed htarget
  · intro htarget
    obtain ⟨l₁, s, n₁, hcall⟩ := htarget.confirm hl hc hlimit
    obtain ⟨l₂, events, n₂, hbatch, hconfirms, hconf⟩ := htarget.confirmBatch hl hc hlimit
    refine ⟨⟨l₁, s, n₁, hcall, confirm_spec hl hc hlimit (hcall n₁ le_rfl)⟩,
      stackBounded hl hc hlimit, l₂, events, n₂, hbatch, hconfirms, hconf, hconfirms.complete hconf⟩

/-- Where every received send is in the ledger, every block is cementable. -/
theorem Receivables.cementable (hr : l.Receivables c) (hl : l.Chained) (hc : l.Cemented c)
    {rank : BlockHash → ℕ} (hrank : Ranked c l.block rank) {block : SavedBlock}
    (hget : l.block.get x = some block) : Cementable c l x := by
  induction hn : rank x using Nat.strong_induction_on generalizing x block with
  | _ n ih =>
    refine .block hget fun d hd => ?_
    obtain ⟨hne, hdep⟩ := (hc.dependents hget d).mp hd
    have hdepends : DependsOn c l.block d x := ⟨hne, block, hget, hdep.imp_left Eq.symm⟩
    obtain ⟨sb, hsb⟩ := hr.get_of_dependsOn hl hdepends
    exact ih _ (hn ▸ hrank hdepends) hsb rfl

/-- The first receive of the dev network is confirmed by calls for one block each. -/
theorem confirm_progress_devReceived :
    Reachable devConstants 0 devReceived ∧ ¬ devReceived.Confirmed devOpen.hash ∧
      CallReturns devConstants devReceived devOpen.hash 1 ∧
      StackBounded devConstants devReceived devOpen.hash 1 ∧
      BatchConfirms devConstants devReceived devOpen.hash 1 := by
  have hreachable := reachable_devReceived
  have hrun : InsertRun devConstants (KeepsReversible devConstants) (genesis devConstants 0)
      devReceived := insertRun_devReceived (by decide +kernel) (by decide +kernel)
  obtain ⟨hrev, -, rank, hrank⟩ := hrun.reversible
  obtain ⟨block, hblock⟩ := Option.isSome_iff_exists.mp
    (show (devReceived.block.get devOpen.hash).isSome = true by decide +kernel)
  refine ⟨hreachable, ?_, (reachable_confirm_progress_iff hreachable le_rfl).mpr
    (hrev.receivables.cementable hrev.chained hreachable.cemented hrank hblock)⟩
  rw [← hrev.chained.isConfirmed_iff]
  decide +kernel

/-- After a legacy send of nothing was rolled back, a call for its receive panics. -/
theorem confirm_devZeroOpen_panics :
    ∃ l, Reachable devConstants 0 l ∧ l.blockExists devZeroOpen.hash = true ∧
      BlockCementer.confirm devConstants 2 (fun _ => none) devZeroOpen.hash 1 l =
        .error .blockMissing := by
  obtain ⟨⟨l, results⟩, hrun, htest⟩ : ∃ x,
      devZeroReceived.rollBack devConstants 3 (fun _ => 0) devZeroSend.hash = .ok x ∧
        decide (x.1.blockExists devZeroOpen.hash = true ∧
          BlockCementer.confirm devConstants 2 (fun _ => none) devZeroOpen.hash 1 x.1 =
            .error .blockMissing) = true :=
    exists_eq_ok (by decide +kernel)
  obtain ⟨hexists, hpanic⟩ := of_decide_eq_true htest
  exact ⟨l, insertRun_devZeroReceived.run.tail (.rollBack 3 _ _ _ _ _ hrun), hexists, hpanic⟩

end Ledger

end RsNano
