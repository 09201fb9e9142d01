import RsNano.Ledger.Plannable

/-!
# What a roll-back removes

On a plannable ledger the performer removes an unconfirmed target without an error, and with it
only blocks that depend on it; on a reversible ledger, exactly these. The search is a recursion on
two measures. A head block that has been removed makes the block table smaller. A send that has been
received asks for the head of the receiving account, which has a higher rank than the send; the
request comes twice, because the first time the head block that goes with it is that of the sender.
-/

namespace RsNano

open Ledger BlockRollbackPerformer

variable {x : BlockHash} {sb : SavedBlock}

namespace BlockRollbackPerformer

variable {c : LedgerConstants} {clock : ℕ → ℕ} {i : ℕ} {l l' : Ledger}
  {target head newHead dep : SavedBlock}

/-- A stored block exists. -/
theorem blockExists_of_get (hne : x ≠ 0) (hget : l.block.get x = some sb) :
    l.blockExists x = true := by
  simp [blockExists, Table.contains, hne, hget]

variable (rest : List (SavedBlock × SavedBlock)) (done : List SavedBlock)

/-- A target that is gone leaves the stack. -/
theorem loopBody_pop (hgone : l.block.get target.hash = none) :
    loopBody c clock i ⟨l, (target, head) :: rest, done⟩ = .ok (.inl ⟨l, rest, done⟩) := by
  have hex : l.blockExists target.hash = false := by
    simp [blockExists, Table.contains, hgone]
  simp [loopBody, iterate, hex, pure, Except.pure, bind, Except.bind]

section

variable {ins : RollbackInstructions} (hget : l.block.get target.hash = some target)
  (hplan : l.rollBackHeadBlock c head (clock i) = .ok (.ok (.rollBackBlock ins)))
  (hexec : l.executeRollback ins = .ok l')

include hget hplan hexec

/-- The target itself is rolled back. -/
theorem loopBody_target (heq : head.hash = target.hash) :
    loopBody c clock i ⟨l, (target, head) :: rest, done⟩ =
      .ok (.inl ⟨l', (target, head) :: rest, head :: done⟩) := by
  have hex := blockExists_of_get target.block.hash_ne_zero hget
  simp [loopBody, iterate, hex, hplan, performStep, hexec, heq, pure, Except.pure, bind,
    Except.bind]

/-- A block above the target is rolled back. -/
theorem loopBody_above (hne : head.hash ≠ target.hash)
    (hload : l'.loadAccountHead target = .ok (.ok newHead)) :
    loopBody c clock i ⟨l, (target, head) :: rest, done⟩ =
      .ok (.inl ⟨l', (target, newHead) :: rest, head :: done⟩) := by
  have hex := blockExists_of_get target.block.hash_ne_zero hget
  simp [loopBody, iterate, hex, hplan, performStep, hexec, hne, hload, pure, Except.pure,
    bind, Except.bind]

end

/-- A dependency is pushed, with the head of the target's account. -/
theorem loopBody_request (hget : l.block.get target.hash = some target)
    (hplan : l.rollBackHeadBlock c head (clock i) = .ok (.ok (.requestDependencyRollback x)))
    (hdep : l.loadBlock x = .ok dep) (hload : l.loadAccountHead target = .ok (.ok newHead)) :
    loopBody c clock i ⟨l, (target, head) :: rest, done⟩ =
      .ok (.inl ⟨l, (dep, newHead) :: (target, head) :: rest, done⟩) := by
  have hex := blockExists_of_get target.block.hash_ne_zero hget
  simp [loopBody, iterate, hex, hplan, performStep, hdep, hload, pure, Except.pure, bind,
    Except.bind]

end BlockRollbackPerformer

namespace Ledger

/-- Head blocks are rolled back until a block is gone, and only blocks that depend on it. -/
structure Retracted (c : LedgerConstants) (l : Ledger) (x : BlockHash) (l' : Ledger) : Prop where
  steps : HeadSteps c l l'
  gone : l'.block.get x = none
  only : ∀ {y sb}, l.block.get y = some sb → l'.block.get y = none → Dependents c l.block x y

/-- An unconfirmed target and the head of its account. -/
structure OnStack (l : Ledger) (target head : SavedBlock) : Prop where
  stored : l.block.get target.hash = some target
  isHead : ∃ info, l.IsHead head info
  account : head.account = target.account
  unconfirmed : ¬ l.Confirmed target.hash

/-- The performer removes a target from the top of its stack, and from the ledger. -/
def Clears (c : LedgerConstants) (clock : ℕ → ℕ) (l : Ledger) (target head : SavedBlock) : Prop :=
  ∀ i rest done, ∃ j l' done', Loop.Reaches (loopBody c clock) i
      ⟨l, (target, head) :: rest, done⟩ j ⟨l', rest, done'⟩ ∧ l.Retracted c target.hash l'

variable {c : LedgerConstants} {clock : ℕ → ℕ} {l l' : Ledger} {target head : SavedBlock}

namespace OnStack

variable (ht : l.OnStack target head)

include ht

/-- The head on the stack depends on the target. -/
theorem dependents (hl : l.Chained) : Dependents c l.block target.hash head.hash := by
  obtain ⟨info, hh⟩ := ht.isHead
  obtain ⟨info', hinfo', hle⟩ := hl.owner ht.stored
  rw [← ht.account, hh.account] at hinfo'
  cases hinfo'
  exact hl.dependents_of_height_le ht.stored hh.stored ht.account ((hh.height_eq hl).symm ▸ hle)

/-- The head on the stack is not confirmed. -/
theorem head_unconfirmed (hp : l.Plannable c) : ¬ l.Confirmed head.hash :=
  hp.cemented.not_confirmed_of_dependents (ht.dependents hp.chained) ht.unconfirmed

/-- The next head of the account takes the place of one that has been removed. -/
theorem next (hl : l.Chained) (h : l.RollsBackHead c head l') (hne : head.hash ≠ target.hash) :
    ∃ newHead, l'.loadAccountHead target = .ok (.ok newHead) ∧ l'.OnStack target newHead := by
  have hst := (h.get_iff hl).mpr ⟨hne.symm, ht.stored⟩
  obtain ⟨newHead, info, hload, hacc, hh⟩ := (hl.rollsBackHead h).loadAccountHead_ok hst
  exact ⟨newHead, hload, hst, ⟨info, hh⟩, hacc,
    fun hconf => ht.unconfirmed (h.confirmed_of_confirmed hl hconf)⟩

end OnStack

/-- A head block that can be rolled back is removed, and the search goes on below it. -/
theorem Clears.of_rollBack (hp : l.Plannable c) (ht : l.OnStack target head)
    (hent : head.balance < previousBalanceIn l.block head →
      ∃ entry, l.pending.get ⟨head.block.destinationOrLink, head.hash⟩ = some entry)
    (ih : ∀ l1 newHead, l.RollsBackHead c head l1 → l1.OnStack target newHead →
      Clears c clock l1 target newHead) : Clears c clock l target head := by
  intro i rest done
  have hl := hp.chained
  obtain ⟨info, hh⟩ := ht.isHead
  obtain ⟨rep, weights, cache, hplan, hexec, hroll⟩ := hh.plan_rollBack (c := c) (clock i) hl
    hent fun hle => ht.head_unconfirmed hp ⟨head, hh.stored, hle⟩
  by_cases heq : head.hash = target.hash
  · have hgone := hroll.gone hl
    rw [heq] at hgone
    refine ⟨_, _, _, .step (loopBody_target rest done ht.stored hplan hexec heq)
      (.step (loopBody_pop _ _ hgone) (.refl _ _)), .single ⟨head, hroll⟩,
      hgone, ?_⟩
    intro y sb hget hnone
    by_cases hy : y = head.hash
    · rw [hy, heq]
      exact .refl
    · cases hnone.symm.trans ((hroll.get_iff hl).mpr ⟨hy, hget⟩)
  · obtain ⟨newHead, hload, ht1⟩ := ht.next hl hroll heq
    obtain ⟨j, l', done', hrchs, hret⟩ := ih _ newHead hroll ht1 (i + 1) rest (head :: done)
    refine ⟨j, l', done', .step (loopBody_above rest done ht.stored hplan hexec heq hload) hrchs,
      .head ⟨head, hroll⟩ hret.steps, hret.gone, ?_⟩
    intro y sb hget hnone
    by_cases hy : y = head.hash
    · rw [hy]
      exact ht.dependents hl
    · exact (hret.only ((hroll.get_iff hl).mpr ⟨hy, hget⟩) hnone).mono
        fun hsub => ((hroll.get_iff hl).mp hsub).2

variable {rank : BlockHash → ℕ}

/-- Blocks of a lower rank stay. -/
theorem Retracted.stays {y : BlockHash} (h : l.Retracted c x l') (hl : l.Chained)
    (hrank : Ranked c l.block rank) (hget : l.block.get y = some sb) (hlt : rank y < rank x) :
    l'.block.get y = some sb := by
  cases hy : l'.block.get y with
  | none => exact absurd (hrank.le (h.only hget hy)) (by omega)
  | some sb' =>
    cases hget.symm.trans (h.steps.get_of_get hl hy)
    rfl

/-- Roll-backs one after the other, the first of a block that depends on the second. -/
theorem Retracted.trans {y : BlockHash} {l1 : Ledger} (hl : l.Chained)
    (hdep : Dependents c l.block x y) (h : l.Retracted c y l1) (h' : l1.Retracted c x l') :
    l.Retracted c x l' := by
  refine ⟨h.steps.trans h'.steps, h'.gone, ?_⟩
  intro z sb hget hgone
  cases hz : l1.block.get z with
  | none => exact hdep.trans (h.only hget hz)
  | some sb' => exact (h'.only hz hgone).mono fun hsub => h.steps.get_of_get hl hsub

section

variable {info : AccountInfo} (hp : l.Plannable c) (hrank : Ranked c l.block rank)
  (hh : l.IsHead head info) (htgt : l.block.get target.hash = some target)
  (hacc : head.account = target.account) (hunconfirmed : ¬ l.Confirmed head.hash)
  (hlt : head.balance < previousBalanceIn l.block head)
  (hnone : l.pending.get ⟨head.block.destinationOrLink, head.hash⟩ = none)

include hp hh htgt hacc hunconfirmed hlt hnone

/-- A send that has been received puts the head of the receiving account on the stack, twice:
first with the wrong head block. -/
theorem Plannable.request :
    ∃ y dep, DependsOn c l.block head.hash y ∧ Dependents c l.block y dep.hash ∧ l.OnStack dep dep ∧
      ∀ i rest done, Loop.Reaches (loopBody c clock) i
        ⟨l, (target, head) :: rest, done⟩ (i + 1 + 1)
        ⟨l, (dep, dep) :: (dep, head) :: (target, head) :: rest, done⟩ := by
  have hl := hp.chained
  obtain ⟨y, rb, info', hrb, hrecv, hinfo', hplan⟩ := hp.plan_request hh hunconfirmed hlt hnone
  obtain ⟨dep, hdep, hdepacc, hdepheight, -⟩ := hl.head hinfo'
  have hdephash := hl.linked.hash_eq hdep
  have hst : l.block.get dep.hash = some dep := hdephash ▸ hdep
  have hdephead : l.IsHead dep info' := ⟨hst, hdepacc ▸ hinfo', hdephash.symm⟩
  have hfst : DependsOn c l.block head.hash y := ⟨head.block.hash_ne_zero, rb, hrb, Or.inr hrecv⟩
  have hsnd : Dependents c l.block y dep.hash := by
    obtain ⟨info'', hinfo'', hle⟩ := hl.owner hrb
    cases hinfo'.symm.trans hinfo''
    exact hl.dependents_of_height_le hrb hst hdepacc (hdepheight.symm ▸ hle)
  refine ⟨y, dep, hfst, hsnd, ⟨hst, ⟨info', hdephead⟩, rfl,
    hp.cemented.not_confirmed_of_dependents (.head hfst hsnd) hunconfirmed⟩, ?_⟩
  intro i rest done
  have hloaddep : l.loadBlock info'.head = .ok dep := by
    simp [loadBlock, getBlock, hl.head_ne_zero hinfo', hdep]
  have hload : l.loadAccountHead target = .ok (.ok head) := by
    obtain ⟨head', info'', hload, hacc', hh'⟩ := hl.loadAccountHead_ok htgt
    rw [hload, hh.eq_of_account hh' (hacc'.trans hacc.symm)]
  have hload' : l.loadAccountHead dep = .ok (.ok dep) := by
    obtain ⟨head', info'', hload, hacc, hh'⟩ := hl.loadAccountHead_ok hst
    rw [hload, hdephead.eq_of_account hh' hacc]
  exact .step (loopBody_request rest done htgt (hplan (clock i))
      hloaddep hload)
    (.step (loopBody_request ((target, head) :: rest) done hst
      (hplan (clock (i + 1))) hloaddep hload') (.refl _ _))

include hrank

/-- The dependencies of a received send are removed first. The send itself stays, and it is the
head of its account as before. -/
theorem Plannable.clears_request (hclears : ∀ dep, rank head.hash < rank dep.hash → l.OnStack dep
    dep → Clears c clock l dep dep) (i : ℕ) (rest : List (SavedBlock × SavedBlock))
    (done : List SavedBlock) :
    ∃ j l1 done1 dep, Loop.Reaches (loopBody c clock) i
        ⟨l, (target, head) :: rest, done⟩ j ⟨l1, (target, head) :: rest, done1⟩ ∧
      l.Retracted c dep l1 ∧ Dependents c l.block head.hash dep ∧ rank head.hash < rank dep ∧
      l1.block.size < l.block.size ∧ ∃ info', l1.IsHead head info' := by
  have hl := hp.chained
  obtain ⟨y, dep, hfst, hsnd, htdep, hpush⟩ := hp.request hh htgt hacc hunconfirmed hlt hnone
  have hlower : rank head.hash < rank dep.hash := (hrank hfst).trans_le (hrank.le hsnd)
  obtain ⟨j, l1, done1, hrchs, hret⟩ := hclears dep hlower htdep (i + 1 + 1)
    ((dep, head) :: (target, head) :: rest) done
  have hpop : Loop.Reaches (loopBody c clock) j
      ⟨l1, (dep, head) :: (target, head) :: rest, done1⟩ (j + 1)
      ⟨l1, (target, head) :: rest, done1⟩ :=
    .step (loopBody_pop _ _ hret.gone) (.refl _ _)
  refine ⟨j + 1, l1, done1, dep.hash, (hpush i rest done).trans (hrchs.trans hpop), hret,
    .head hfst hsnd, hlower, hret.steps.size_lt hl htdep.stored hret.gone, ?_⟩
  exact HeadOrGone.headSteps hl (fun _ => ⟨info, hh⟩) hret.steps
    ⟨head, hret.stays hl hrank hh.stored hlower⟩

end

/-- The search goes on with a received send when its dependencies are gone. -/
theorem Clears.of_request (hp : l.Plannable c) (hrank : Ranked c l.block rank)
    (ht : l.OnStack target head) (hlt : head.balance < previousBalanceIn l.block head)
    (hnone : l.pending.get ⟨head.block.destinationOrLink, head.hash⟩ = none)
    (ihdep : ∀ dep, rank head.hash < rank dep.hash → l.OnStack dep dep → Clears c clock l dep dep)
    (ih : ∀ l1, HeadSteps c l l1 → l1.block.size < l.block.size → l1.OnStack target head → Clears c
    clock l1 target head) : Clears c clock l target head := by
  intro i rest done
  have hl := hp.chained
  have hhead := ht.dependents (c := c) hl
  obtain ⟨info, hh⟩ := ht.isHead
  obtain ⟨j, l1, done1, dep, hrchs, hret, hdep, hlower, hsize, hh1⟩ :=
    hp.clears_request hrank hh ht.stored ht.account (ht.head_unconfirmed hp) hlt hnone ihdep i
      rest done
  have ht1 : l1.OnStack target head :=
    ⟨hret.stays hl hrank ht.stored ((hrank.le hhead).trans_lt hlower), hh1, ht.account,
      fun hconf => ht.unconfirmed (hret.steps.confirmed_of_confirmed hl hconf)⟩
  obtain ⟨k, l', done', hrchs', hret'⟩ := ih l1 hret.steps hsize ht1 j rest done1
  exact ⟨k, l', done', hrchs.trans hrchs', Retracted.trans hl (hhead.trans hdep) hret hret'⟩

/-- The performer clears every unconfirmed target of a plannable ledger. The induction is on
the number of blocks and then on the distance of the head from a bound of the ranks. -/
theorem Plannable.clears (clock : ℕ → ℕ) {bound : ℕ} (n : ℕ) :
    ∀ (k : ℕ) {l : Ledger} {target head : SavedBlock}, l.Plannable c → Ranked c l.block rank →
      (∀ x sb, l.block.get x = some sb → rank x < bound) → l.block.size ≤ n →
      bound ≤ rank head.hash + k → l.OnStack target head → Clears c clock l target head := by
  induction n with
  | zero =>
    intro k l target head _ _ _ hsize _ ht
    have := Table.size_pos_of_get ht.stored
    omega
  | succ n ihn =>
    intro k
    induction k with
    | zero =>
      intro l target head _ _ hbound _ hle ht
      obtain ⟨info, hh⟩ := ht.isHead
      have := hbound _ _ hh.stored
      omega
    | succ k ihk =>
      intro l target head hp hrank hbound hsize hle ht
      have hl := hp.chained
      have hsmaller : ∀ l1 newHead, HeadSteps c l l1 → l1.block.size < l.block.size →
          l1.OnStack target newHead → Clears c clock l1 target newHead := by
        intro l1 newHead hsteps hlt ht1
        have hsub : ∀ {x sb}, l1.block.get x = some sb → l.block.get x = some sb :=
          fun hget => hsteps.get_of_get hl hget
        exact ihn bound (hp.headSteps hsteps) (hrank.mono hsub)
          (fun x sb hget => hbound x sb (hsub hget)) (by omega) (by omega) ht1
      by_cases hent : head.balance < previousBalanceIn l.block head →
          ∃ entry, l.pending.get ⟨head.block.destinationOrLink, head.hash⟩ = some entry
      · refine Clears.of_rollBack hp ht hent fun l1 newHead hroll ht1 => ?_
        exact hsmaller l1 newHead (.single ⟨head, hroll⟩) (HeadStep.size_lt hl ⟨head, hroll⟩) ht1
      · obtain ⟨hlt, hnone⟩ := Classical.not_imp.mp hent
        have hnone := not_not.mp (mt Option.ne_none_iff_exists'.mp hnone)
        refine Clears.of_request hp hrank ht hlt hnone ?_ fun l1 => hsmaller l1 head
        intro dep hlt htdep
        exact ihk hp hrank hbound hsize (by omega) htdep

/-- With enough steps the performer takes an unconfirmed block out of a plannable ledger. -/
theorem Plannable.performer (hp : l.Plannable c) (hrank : Ranked c l.block rank) {hash : BlockHash}
    (hget : l.block.get hash = some sb) (hconf : ¬ l.Confirmed hash) (clock : ℕ → ℕ) :
    ∃ l' done n, l.Retracted c hash l' ∧ ∀ fuel, n ≤ fuel →
      BlockRollbackPerformer.rollBack c fuel clock l hash = .ok (⟨l', [], done⟩, none) := by
  have hl := hp.chained
  have hhash := hl.linked.hash_eq hget
  obtain ⟨head, info, hload, hacc, hh⟩ := hl.loadAccountHead_ok hget
  obtain ⟨bound, hbound⟩ := l.block.exists_bound rank
  have ht : l.OnStack sb head := ⟨hhash ▸ hget, ⟨info, hh⟩, hacc, hhash ▸ hconf⟩
  obtain ⟨j, l', done, hrchs, hret⟩ :=
    Plannable.clears clock l.block.size bound hp hrank hbound le_rfl (by omega) ht 0 [] []
  have hdone : BlockRollbackPerformer.loopBody c clock j ⟨l', [], done⟩ =
      .ok (.inr (⟨l', [], done⟩, none)) := rfl
  obtain ⟨n, hn⟩ := Loop.run_of_reaches hrchs hdone
  refine ⟨l', done, n, hhash ▸ hret, fun fuel hfuel => ?_⟩
  have hloadblock : l.loadBlock hash = .ok sb := by
    simp [loadBlock, getBlock, hl.linked.hash_ne_zero hget, hget]
  simp only [BlockRollbackPerformer.rollBack, hloadblock, bind_eq_ok]
  exact ⟨_, hload, hn fuel hfuel⟩

/-- A roll-back of one target reports what the performer did. -/
theorem rollBack_eq {hash : BlockHash} (hl : l.Chained) (hget : l.block.get hash = some sb)
    {fuel : ℕ} {p : BlockRollbackPerformer} {error : Option RollbackError}
    (h : BlockRollbackPerformer.rollBack c fuel clock l hash = .ok (p, error)) :
    l.rollBack c fuel clock hash =
      .ok (p.ledger, [⟨hash, sb.block.qualifiedRoot, p.rolledBack.reverse, error⟩]) := by
  have hhash : sb.hash = hash := hl.linked.hash_eq hget
  rw [rollBack, rollBackBatch, if_neg (by simp), hget]
  simp only [bind_eq_ok, hhash]
  refine ⟨_, h, ?_⟩
  split
  · rfl
  · rfl

/-- More steps do not change what a roll-back returns. -/
theorem rollBack_mono {hash : BlockHash} {fuel fuel' : ℕ} (hle : fuel ≤ fuel')
    {x : Ledger × List RollbackResult} (h : l.rollBack c fuel clock hash = .ok x) :
    l.rollBack c fuel' clock hash = .ok x := by
  have hperformer : ∀ {target p}, BlockRollbackPerformer.rollBack c fuel clock l target = .ok p →
      BlockRollbackPerformer.rollBack c fuel' clock l target = .ok p := by
    intro target p hp
    rw [BlockRollbackPerformer.rollBack] at hp ⊢
    split at hp
    · exact hp
    · rw [bind_eq_ok] at hp ⊢
      obtain ⟨y, hload, hp⟩ := hp
      refine ⟨y, hload, ?_⟩
      cases y with
      | error e => exact hp
      | ok head => exact Loop.run_mono hle hp
  rw [rollBack, rollBackBatch, if_neg (by simp)] at h ⊢
  cases hblk : l.block.get hash with
  | none =>
    rw [hblk] at h
    exact h
  | some block =>
    rw [hblk] at h
    simp only [bind_eq_ok] at h ⊢
    obtain ⟨p, hp, h⟩ := h
    exact ⟨p, hperformer hp, h⟩

/-- Roll-backs are exact in every ledger that insertions from genesis reach without sends of
nothing and raises under an epoch link. With enough steps the roll-back of an unconfirmed block
succeeds, it removes exactly the block and what depends on it, and no receive is left without
its send. -/
theorem insertRun_rollBack_exact {minWeight : Amount}
    (h : InsertRun c (KeepsReversible c) (genesis c minWeight) l) {hash : BlockHash}
    (hexists : l.blockExists hash = true) (hconf : l.isConfirmed hash = false) (clock : ℕ → ℕ) :
    ∃ l' n,
      (∀ fuel, n ≤ fuel → ∃ r, l.rollBack c fuel clock hash = .ok (l', [r]) ∧ r.error = none) ∧
      (∀ y sb, l'.block.get y = some sb ↔
        l.block.get y = some sb ∧ ¬ Dependents c l.block hash y) ∧
      ∀ y rb source, l'.block.get y = some rb → rb.receivedSend c = some source →
        ∃ sb, l'.block.get source = some sb := by
  obtain ⟨hrev, -, rank, hrank⟩ := h.reversible
  have hl := hrev.chained
  obtain ⟨sb, hget⟩ := Option.isSome_iff_exists.mp (of_decide_eq_true hexists).2
  have hunconfirmed : ¬ l.Confirmed hash := by
    intro hx
    rw [hl.isConfirmed_of_confirmed hx] at hconf
    cases hconf
  obtain ⟨l', done, n, hret, hrun⟩ := hrev.plannable.performer hrank hget hunconfirmed clock
  have hrev' := hrev.headSteps hret.steps
  have hsub : ∀ {x sb}, l'.block.get x = some sb → l.block.get x = some sb :=
    fun hx => hret.steps.get_of_get hl hx
  refine ⟨l', n, fun fuel hfuel => ⟨_, rollBack_eq hl hget (hrun fuel hfuel), rfl⟩, ?_, ?_⟩
  · intro y sb'
    constructor
    · intro hy
      refine ⟨hsub hy, fun hdep => ?_⟩
      cases hy.symm.trans (hrev'.get_dependents hsub hdep hret.gone)
    · rintro ⟨hy, hnot⟩
      cases hy' : l'.block.get y with
      | none => exact absurd (hret.only hy hy') hnot
      | some sb'' =>
        cases hy.symm.trans (hsub hy')
        rfl
  · intro y rb source hy hreceived
    obtain ⟨sb', hsb', -⟩ := hrev'.receivables.received hy hreceived
    exact ⟨sb', hsb'⟩

/-- Rolling back the first send of the dev network removes its receive as well. -/
theorem rollBack_exact_devReceived :
    ∃ l' n,
      (∀ fuel, n ≤ fuel → ∃ r, devReceived.rollBack devConstants fuel (fun _ => 0) devSend.hash =
        .ok (l', [r]) ∧ r.error = none) ∧
      (∀ y sb, l'.block.get y = some sb ↔ devReceived.block.get y = some sb ∧
        ¬ Dependents devConstants devReceived.block devSend.hash y) ∧
      ∀ y rb source, l'.block.get y = some rb → rb.receivedSend devConstants = some source →
        ∃ sb, l'.block.get source = some sb :=
  insertRun_rollBack_exact
    (insertRun_devReceived (by decide +kernel) (by decide +kernel)) (by decide +kernel)
    (by decide +kernel) fun _ => 0

/-- The dev network after a legacy send of nothing has been received. -/
def devZeroReceived : Ledger :=
  ((genesis devConstants 0).processed devConstants (.legacySend devZeroSend)).processed
    devConstants (.legacyOpen devZeroOpen)

theorem insertRun_devZeroReceived : InsertRun devConstants (fun _ _ => True)
    (genesis devConstants 0) devZeroReceived :=
  .processed (.processed .refl trivial (by decide +kernel)) trivial (by decide +kernel)

/-- A legacy send of nothing is rolled back without its receive: the balances do not tell that
it is a send. -/
theorem rollBack_devZeroSend :
    ∃ l, InsertRun devConstants (fun _ _ => True) (genesis devConstants 0) l ∧
      l.blockExists devZeroSend.hash = true ∧ l.isConfirmed devZeroSend.hash = false ∧
      ∃ l' r, l.rollBack devConstants 3 (fun _ => 0) devZeroSend.hash = .ok (l', [r]) ∧
        r.error = none ∧ l'.block.get devZeroSend.hash = none ∧
        ∃ rb, l'.block.get devZeroOpen.hash = some rb ∧
          rb.receivedSend devConstants = some devZeroSend.hash := by
  refine ⟨devZeroReceived, insertRun_devZeroReceived, by decide +kernel, by decide +kernel, ?_⟩
  obtain ⟨⟨l', results⟩, hrun, htest⟩ : ∃ x,
      devZeroReceived.rollBack devConstants 3 (fun _ => 0) devZeroSend.hash = .ok x ∧
        decide (x.2.map RollbackResult.error = [none] ∧
          x.1.block.get devZeroSend.hash = none ∧
          (x.1.block.get devZeroOpen.hash).map (SavedBlock.receivedSend devConstants) =
            some (some devZeroSend.hash)) = true :=
    exists_eq_ok (by decide +kernel)
  obtain ⟨hresults, hgone, hopen⟩ := of_decide_eq_true htest
  obtain ⟨r, rfl, herror⟩ := List.map_eq_singleton_iff.mp hresults
  exact ⟨l', r, hrun, herror, hgone, Option.map_eq_some_iff.mp hopen⟩

end Ledger

end RsNano
