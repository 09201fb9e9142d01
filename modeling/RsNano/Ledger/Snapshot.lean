import RsNano.Ledger.Reversible

/-!
# Windows between validation and insertion

A batch is validated on a snapshot and inserted later, and the ledger can change in between.
`Undisturbed` names the changes that a validated block tolerates. They leave alone what the
validator read for the block, or they add a block to its account; since they remove no block of
the account, the two cases can be told apart by the head of the account.
-/

namespace RsNano

open Table Option

/-- An epoch block that opens an account. -/
def BlockValidator.isEpochOpen (v : BlockValidator) : Bool := v.block.isOpen && v.isEpochBlock

/-- The key of the pending entry that a validator looks up. -/
def BlockValidator.pendingKey (v : BlockValidator) : PendingKey := ⟨v.account, v.block.sourceOrLink⟩

namespace Ledger

/-- A change of the ledger that a validated block tolerates: it removes no block of its account,
it neither adds nor removes the block that it names as source or link, and for an epoch block
that opens an account it removes no send to that account. -/
structure Undisturbed (v : BlockValidator) (l l' : Ledger) : Prop where
  kept : ∀ {h sb}, l.block.get h = some sb → sb.account = v.account → l'.block.get h = some sb
  source : l'.block.get v.block.sourceOrLink = l.block.get v.block.sourceOrLink
  sends : v.isEpochOpen = true → ∀ {h sb}, l.block.get h = some sb →
    sendsTo l.block sb v.account → l'.block.get h = some sb

/-- The number of blocks of an account. -/
def accountHeight (l : Ledger) (a : Account) : ℕ :=
  ((l.account.get a).map AccountInfo.blockCount).getD 0

/-- What the validator read for a block is the same in both ledgers. -/
structure SameFor (v : BlockValidator) (l l' : Ledger) : Prop where
  account : l'.account.get v.account = l.account.get v.account
  pending : l'.pending.get v.pendingKey = l.pending.get v.pendingKey
  receivable : v.isEpochOpen = true → l.receivableExists v.account = true →
    l'.receivableExists v.account = true

variable {c : LedgerConstants} {minWeight : Amount} {v : BlockValidator} {l l' l'' : Ledger}

/-- Nothing is different without a change. -/
theorem SameFor.refl (v : BlockValidator) (l : Ledger) : SameFor v l l := ⟨rfl, rfl, fun _ h => h⟩

/-- Two changes in a row that make no difference. -/
theorem SameFor.trans (h : SameFor v l l') (h' : SameFor v l' l'') : SameFor v l l'' :=
  ⟨h'.account.trans h.account, h'.pending.trans h.pending,
    fun hopen hl => h'.receivable hopen (h.receivable hopen hl)⟩

/-- The number of blocks of an account depends on its record only. -/
theorem SameFor.accountHeight_eq (h : SameFor v l l') :
    l'.accountHeight v.account = l.accountHeight v.account := by
  rw [accountHeight, accountHeight, h.account]

variable {a : Account}

/-- A receivable account has an entry. -/
theorem get_of_receivableExists (h : l.receivableExists a = true) :
    ∃ x info, x ≠ 0 ∧ l.pending.get ⟨a, x⟩ = some info := by
  obtain ⟨⟨a', x⟩, info, hget, htest⟩ := any_iff.mp h
  obtain ⟨rfl, hne⟩ := of_decide_eq_true htest
  exact ⟨x, info, hne, hget⟩

/-- An account stays receivable if its entries stay. -/
theorem receivableExists_mono
    (hkeep : ∀ {x info}, l.pending.get ⟨a, x⟩ = some info → ∃ info', l'.pending.get ⟨a, x⟩ = some
    info') (h : l.receivableExists a = true) : l'.receivableExists a = true := by
  obtain ⟨x, info, hne, hget⟩ := get_of_receivableExists h
  obtain ⟨info', hget'⟩ := hkeep hget
  exact any_iff.mpr ⟨⟨a, x⟩, info', hget', by simp [hne]⟩

/-! ### Insertions -/

section

variable {nb : SavedBlock}

/-- An insertion into the account itself makes it higher. -/
theorem Extends.accountHeight_lt (he : Extends c l nb l') (hl : l.Chained) (hl' : l'.Chained) :
    l.accountHeight nb.account < l'.accountHeight nb.account := by
  obtain ⟨info', hinfo', hle⟩ := hl'.owner he.get_new
  have hpos := hl'.linked.height_pos he.get_new
  rw [accountHeight, accountHeight, hinfo']
  cases hinfo : l.account.get nb.account with
  | none =>
    simp only [map_none, getD_none, map_some, getD_some]
    omega
  | some info =>
    obtain ⟨head, hhead, hacc, hht, -⟩ := hl.head hinfo
    have habove := he.above hhead hacc
    simp only [map_some, getD_some]
    omega

section

variable (he : Extends c l nb l') (hne : nb.account ≠ a)

include he hne

/-- An insertion into another account leaves the record of this one alone. -/
theorem Extends.account_of_ne : l'.account.get a = l.account.get a := by
  obtain ⟨info, hacc, -⟩ := he.account_eq
  rw [hacc, get_put_of_ne _ _ hne.symm]

/-- An insertion into another account leaves the entries of this one alone, except for a new
send. -/
theorem Extends.pending_of_ne {x : BlockHash} (hx : nb.hash ≠ x) :
    l'.pending.get ⟨a, x⟩ = l.pending.get ⟨a, x⟩ := by
  cases he.transfer with
  | send destination _ _ hpend _ =>
    rw [hpend, get_put_of_ne]
    intro hkey
    exact hx (congrArg PendingKey.sendBlockHash hkey).symm
  | receive source _ _ _ _ _ hpend _ _ =>
    rw [hpend, get_del_of_ne]
    intro hkey
    exact hne (congrArg PendingKey.receivingAccount hkey).symm
  | keep _ _ hpend _ | raise _ _ hpend _ => rw [hpend]

/-- An insertion into another account keeps this one receivable. -/
theorem Extends.receivable_of_ne (h : l.receivableExists a = true) :
    l'.receivableExists a = true := by
  refine receivableExists_mono ?_ h
  intro x info hget
  cases he.transfer with
  | send destination _ _ hpend _ =>
    rw [hpend, get_put]
    split
    · exact ⟨_, rfl⟩
    · exact ⟨info, hget⟩
  | receive source _ _ _ _ _ hpend _ _ =>
    rw [hpend, get_del_of_ne]
    · exact ⟨info, hget⟩
    · intro hkey
      exact hne (congrArg PendingKey.receivingAccount hkey).symm
  | keep _ _ hpend _ | raise _ _ hpend _ => exact ⟨info, hpend ▸ hget⟩

end

/-- An insertion makes the account of a validated block higher, or makes no difference to it. -/
theorem Undisturbed.extends_ledger (hu : Undisturbed v l l') (he : Extends c l nb l')
    (hl : l.Chained) (hl' : l'.Chained) :
    l.accountHeight v.account < l'.accountHeight v.account ∨ SameFor v l l' := by
  by_cases hacc : nb.account = v.account
  · exact .inl (hacc ▸ he.accountHeight_lt hl hl')
  · refine .inr ⟨he.account_of_ne hacc, he.pending_of_ne hacc ?_, fun _ => he.receivable_of_ne hacc⟩
    intro hsrc
    have hsame := hu.source
    rw [← hsrc, he.fresh, he.block_eq, get_put_self] at hsame
    cases hsame

end

/-! ### Roll-backs -/

section

variable {head : SavedBlock} {info : AccountInfo} {a : Account} {rep : Option PublicKey}

/-- A head block whose plan removes an entry of an account sends to that account. -/
theorem IsHead.sendsTo_of_plan (hh : l.IsHead head info) (hl : l.Chained) {now : ℕ}
    (htype : (l.planner c head info rep now).blockSubType = .send)
    (hdest : head.block.destinationOrLink = a) (ha : a ≠ 0) : sendsTo l.block head a := by
  have hlt : head.balance < previousBalanceIn l.block head := by
    by_contra hnot
    rw [hh.balance_eq hl] at hnot
    rw [RollbackPlanner.blockSubType, planner_previousBalance,
      if_neg (show ¬ (l.planner c head info rep now).currentAccountInfo.balance < _ from hnot)]
      at htype
    split at htype
    · split at htype <;> cases htype
    · split at htype <;> cases htype
  rw [SavedBlock.balance] at hlt
  rw [sendsTo]
  cases hblk : head.block with
  | legacySend send =>
    rw [hblk] at hdest
    exact hdest
  | state state =>
    rw [hblk] at hdest hlt
    exact ⟨hlt, hdest⟩
  | legacyReceive _ | legacyOpen _
  | legacyChange _ => rw [hblk] at hdest; exact ha hdest.symm

/-- The entry that a plan adds is one of the account of the head block. -/
theorem addPending_account {now : ℕ} {key : PendingKey} {entry : PendingInfo}
    (h : (l.planner c head info rep now).addPending = some (key, entry)) :
    key.receivingAccount = head.account := by
  rw [RollbackPlanner.addPending] at h
  split at h
  · cases h; rfl
  · cases h; rfl
  · cases h

/-- The entry that a plan removes is that of the head block. -/
theorem removePending_eq_some {now : ℕ} {key : PendingKey}
    (h : (l.planner c head info rep now).removePending = some key) :
    (l.planner c head info rep now).blockSubType = .send ∧
      key = ⟨head.block.destinationOrLink, head.hash⟩ := by
  rw [RollbackPlanner.removePending] at h
  split at h
  · next htype => exact ⟨htype, (some.inj h).symm⟩
  · cases h

/-- A roll-back in another account leaves the entries of this one alone, unless it removes the
send. -/
theorem RollsBackHead.pending_of_ne (hl : l.Chained) (h : l.RollsBackHead c head l')
    (hne : head.account ≠ a) {x : BlockHash}
    (hkeep : head.hash = x → ¬ sendsTo l.block head a) (ha : a ≠ 0) :
    l'.pending.get ⟨a, x⟩ = l.pending.get ⟨a, x⟩ := by
  obtain ⟨now, info, rep, -, -, hh, -, -, -, -, rfl⟩ := h.spec hl
  have hadd : (pendingWith (l.pendingWithout (l.planner c head info rep now).removePending)
      (l.planner c head info rep now).addPending).get ⟨a, x⟩ =
        (l.pendingWithout (l.planner c head info rep now).removePending).get ⟨a, x⟩ := by
    cases hcase : (l.planner c head info rep now).addPending with
    | none => rfl
    | some entry =>
      refine get_put_of_ne _ _ ?_
      intro hkey
      have hacc := addPending_account hcase
      rw [← hkey] at hacc
      exact hne hacc.symm
  refine hadd.trans ?_
  cases hcase : (l.planner c head info rep now).removePending with
  | none => rfl
  | some key =>
    refine get_del_of_ne _ ?_
    intro hkey
    obtain ⟨htype, hent⟩ := removePending_eq_some hcase
    rw [← hkey] at hent
    obtain ⟨hdest, hhash⟩ := PendingKey.mk.inj hent
    exact hkeep hhash.symm (hh.sendsTo_of_plan hl htype hdest.symm ha)

/-- Roll-backs that a validated block tolerates make no difference to it. -/
theorem Undisturbed.headSteps (hl : l.Chained) (ha : v.account ≠ 0) (h : HeadSteps c l l')
    (hrest : HeadSteps c l' l'') (hu : Undisturbed v l l'') : SameFor v l l' := by
  induction h with
  | refl => exact .refl v l
  | @tail l1 l2 hsteps hstep ih =>
    refine (ih (.head hstep hrest)).trans ?_
    replace hsteps : HeadSteps c l l1 := hsteps
    obtain ⟨head, hroll⟩ := hstep
    have hl1 := hl.headSteps hsteps
    -- the head block was there from the start, and it is gone at end
    have hold := hsteps.get_of_get hl hroll.stored
    have hgone : ∀ {sb}, l''.block.get head.hash ≠ some sb := by
      intro sb hsb
      exact ((hroll.get_iff hl1).mp (hrest.get_of_get (hl1.rollsBackHead hroll) hsb)).1 rfl
    have hacc : head.account ≠ v.account := fun heq => hgone (hu.kept hold heq)
    have hsrc : head.hash ≠ v.block.sourceOrLink := by
      intro heq
      have hsame := hu.source
      rw [← heq, hold] at hsame
      exact hgone hsame
    refine ⟨hroll.account_of_ne hl1 hacc.symm, ?_, ?_⟩
    · exact hroll.pending_of_ne hl1 hacc (fun heq => absurd heq hsrc) ha
    · intro hopen
      have hnot : ¬ sendsTo l1.block head v.account := by
        intro hsends
        rw [sendsTo, hsteps.previousBalanceIn_eq hl hroll.stored] at hsends
        exact hgone (hu.sends hopen hold hsends)
      refine receivableExists_mono ?_
      intro x entry hget
      rw [hroll.pending_of_ne hl1 hacc (fun _ => hnot) ha]
      exact ⟨entry, hget⟩

end

/-! ### Windows -/

/-- A change that a validated block tolerates makes its account higher, or makes no difference
to it. -/
theorem Undisturbed.step (hu : Undisturbed v l l') (hl : l.Chained) (hc : l.Cemented c)
    (ha : v.account ≠ 0) (h : Step c l l') :
    l.accountHeight v.account < l'.accountHeight v.account ∨ SameFor v l l' := by
  rcases h.cases hl with ⟨b, h⟩ | h | ⟨-, -, rfl⟩ | ⟨-, rfl⟩
  · obtain ⟨nb, -, he⟩ := h.extends_ledger hl (hc.genesis_account hl)
    exact hu.extends_ledger he hl (hl.insert h)
  · exact .inr (hu.headSteps hl ha h .refl)
  · exact .inr ⟨rfl, rfl, fun _ h => h⟩
  · exact .inr ⟨rfl, rfl, fun _ h => h⟩

/-- The insertion of a block that is not the source or link is tolerated. -/
theorem Undisturbed.of_inserts {b : Block} (hl : l.Chained) (hc : l.Cemented c)
    (h : l.Inserts c b l') (hne : b.hash ≠ v.block.sourceOrLink) : Undisturbed v l l' := by
  obtain ⟨nb, rfl, he⟩ := h.extends_ledger hl (hc.genesis_account hl)
  refine ⟨fun hget _ => he.get_of_get hget, ?_, fun _ _ _ hget _ => he.get_of_get hget⟩
  rw [he.block_eq, get_put_of_ne _ _ hne.symm]

/-- The changes between the snapshot of a block and its insertion, all of them tolerated. -/
def Window (c : LedgerConstants) (v : BlockValidator) : Ledger → Ledger → Prop :=
  Relation.ReflTransGen fun l l' => Step c l l' ∧ Undisturbed v l l'

variable (h : Window c v l l')

include h

/-- A window is a run. -/
theorem Window.run : Run c l l' := Relation.ReflTransGen.mono (fun _ _ hstep => hstep.1) l l' h

/-- The blocks of the account stay. -/
theorem Window.kept {x : BlockHash} {sb : SavedBlock} (hget : l.block.get x = some sb)
    (hacc : sb.account = v.account) : l'.block.get x = some sb := by
  induction h with
  | refl => exact hget
  | tail _ hstep ih => exact hstep.2.kept ih hacc

/-- The block that is named as source or link neither comes nor goes. -/
theorem Window.source : l'.block.get v.block.sourceOrLink = l.block.get v.block.sourceOrLink := by
  induction h with
  | refl => rfl
  | tail _ hstep ih => exact hstep.2.source.trans ih

/-- In a window the account gets higher, or nothing is different for the block. -/
theorem Window.higher_or_same (hl : l.Chained) (hc : l.Cemented c) (ha : v.account ≠ 0) :
    l.accountHeight v.account < l'.accountHeight v.account ∨ SameFor v l l' := by
  induction h with
  | refl => exact .inr (.refl v l)
  | @tail l1 l2 hwindow hstep ih =>
    have hrun : Run c l l1 := Window.run hwindow
    have hnext := hstep.2.step (hl.run hrun) (hc.run hl hrun).1 ha hstep.1
    rcases ih with hlt | hsame
    · rcases hnext with hlt' | hsame'
      · exact .inl (hlt.trans hlt')
      · exact .inl (hsame'.accountHeight_eq.symm ▸ hlt)
    · rcases hnext with hlt' | hsame'
      · exact .inl (hsame.accountHeight_eq ▸ hlt')
      · exact .inr (hsame.trans hsame')

/-- An account with the same head has the same height. -/
theorem Window.accountHeight_eq (hl : l.Chained) (hl' : l'.Chained) (hhead : ((l'.account.get
    v.account).getD default).head = ((l.account.get v.account).getD default).head) :
    l'.accountHeight v.account = l.accountHeight v.account := by
  rw [accountHeight, accountHeight]
  cases hinfo : l.account.get v.account with
  | none =>
    cases hinfo' : l'.account.get v.account with
    | none => rfl
    | some info' =>
      rw [hinfo, hinfo'] at hhead
      exact absurd hhead (hl'.head_ne_zero hinfo')
  | some info =>
    obtain ⟨head, hget, hacc, hht, -⟩ := hl.head hinfo
    cases hinfo' : l'.account.get v.account with
    | none =>
      rw [hinfo, hinfo'] at hhead
      exact absurd hhead.symm (hl.head_ne_zero hinfo)
    | some info' =>
      rw [hinfo, hinfo'] at hhead
      obtain ⟨head', hget', -, hht', -⟩ := hl'.head hinfo'
      have hsame : info'.head = info.head := hhead
      rw [hsame, h.kept hget hacc] at hget'
      cases hget'
      simp only [map_some, getD_some]
      omega

end Ledger

end RsNano
