import RsNano.Ledger.Transfer
import RsNano.Ledger.Run

/-!
# The cemented set

A confirmation height per account stands for a set of blocks: those at or below it.
`Ledger.Cemented` says that the heights lie on the account chains and that the set contains the
dependencies of its blocks. Cementing a block adds exactly this block to the set, because the
search of the cementer only gets there when every dependency is confirmed already. Roll-backs
stop above the confirmation height, also in the accounts that they reach through a received
send.
-/

namespace RsNano.Ledger

open Table

/-- The confirmation height of an account, zero where there is none. -/
def confirmedHeight (l : Ledger) (a : Account) : ℕ :=
  ((l.confirmationHeight.get a).getD default).height

/-- The block is in the ledger, at or below the confirmation height of its account. -/
def Confirmed (l : Ledger) (h : BlockHash) : Prop :=
  ∃ sb, l.block.get h = some sb ∧ sb.height ≤ l.confirmedHeight sb.account

/-- The confirmation heights describe a set of blocks that is closed under dependencies. -/
structure Cemented (c : LedgerConstants) (l : Ledger) : Prop where
  genesis : ∃ ci, l.confirmationHeight.get c.genesisAccount = some ci
  frontier : ∀ {a ci}, l.confirmationHeight.get a = some ci →
    ∃ sb, l.block.get ci.frontier = some sb ∧ sb.account = a ∧ sb.height = ci.height
  dependents : ∀ {h sb}, l.block.get h = some sb → ∀ d, d ∈ (sb.dependentBlocks c).iter ↔
    d ≠ 0 ∧ (d = sb.previous ∨ sb.receivedSend c = some d)
  other : ∀ {h sb}, l.block.get h = some sb → h ∉ (sb.dependentBlocks c).iter
  closed : ∀ {h sb d}, l.block.get h = some sb → sb.height ≤ l.confirmedHeight sb.account →
    d ∈ (sb.dependentBlocks c).iter → l.Confirmed d
  count : l.confirmedCount = l.confirmationHeight.sumBy fun _ ci => ci.height

/-- Confirmed blocks and confirmation heights are kept. -/
structure KeepsConfirmed (l l' : Ledger) : Prop where
  block : ∀ {h sb}, l.block.get h = some sb → l.Confirmed h → l'.block.get h = some sb
  height_le : ∀ a, l.confirmedHeight a ≤ l'.confirmedHeight a

variable {c : LedgerConstants} {minWeight : Amount} {l l' l'' : Ledger}

/-- Nothing is lost without a change. -/
theorem KeepsConfirmed.refl (l : Ledger) : l.KeepsConfirmed l := ⟨fun h _ => h, fun _ => le_rfl⟩

variable {x : BlockHash}

/-- What is confirmed stays confirmed. -/
theorem KeepsConfirmed.confirmed (h : l.KeepsConfirmed l') (hx : l.Confirmed x) :
    l'.Confirmed x := by
  obtain ⟨sb, hsb, hle⟩ := hx
  exact ⟨sb, h.block hsb ⟨sb, hsb, hle⟩, hle.trans (h.height_le _)⟩

/-- Nothing is lost in a sequence of changes that lose nothing. -/
theorem KeepsConfirmed.trans (h : l.KeepsConfirmed l') (h' : l'.KeepsConfirmed l'') :
    l.KeepsConfirmed l'' :=
  ⟨fun hget hx => h'.block (h.block hget hx) (h.confirmed hx),
    fun a => (h.height_le a).trans (h'.height_le a)⟩

/-- The height of a record is the confirmation height of its account. -/
theorem confirmedHeight_of_get {a : Account} {ci : ConfirmationHeightInfo}
    (h : l.confirmationHeight.get a = some ci) : l.confirmedHeight a = ci.height := by
  rw [confirmedHeight, h]
  rfl

/-- The cementer's test agrees with the cemented set. -/
theorem Chained.isConfirmed_iff (hl : l.Chained) :
    BlockCementer.isConfirmed l x = true ↔ l.Confirmed x := by
  rw [BlockCementer.isConfirmed, Confirmed]
  cases hget : l.block.get x with
  | none => simp
  | some sb =>
    have hpos := hl.linked.height_pos hget
    cases hconf : l.confirmationHeight.get sb.account with
    | none =>
      have hzero : l.confirmedHeight sb.account = 0 := by rw [confirmedHeight, hconf]; rfl
      simp [hconf, hzero]
      omega
    | some ci => simp [hconf, confirmedHeight_of_get hconf]

/-- The confirmed set of the ledger agrees with the cemented set. -/
theorem Chained.isConfirmed_of_confirmed (hl : l.Chained) (hx : l.Confirmed x) :
    l.isConfirmed x = true := by
  obtain ⟨sb, hsb, hle⟩ := hx
  have hpos := hl.linked.height_pos hsb
  have hne := hl.linked.hash_ne_zero hsb
  cases hconf : l.confirmationHeight.get sb.account with
  | none =>
    have hzero : l.confirmedHeight sb.account = 0 := by rw [confirmedHeight, hconf]; rfl
    omega
  | some ci =>
    rw [confirmedHeight_of_get hconf] at hle
    simp [isConfirmed, getConfirmedBlock, hne, hsb, hconf, hle]

/-- The confirmed set of the ledger is within the cemented set. -/
theorem confirmed_of_isConfirmed (hx : l.isConfirmed x = true) : l.Confirmed x := by
  obtain ⟨block, hblock⟩ := Option.isSome_iff_exists.mp hx
  rw [getConfirmedBlock] at hblock
  split at hblock
  · cases hblock
  · simp only [Option.bind_eq_bind, Option.bind_eq_some_iff] at hblock
    obtain ⟨sb, hsb, ci, hci, hle⟩ := hblock
    refine ⟨sb, hsb, ?_⟩
    rw [confirmedHeight_of_get hci]
    by_contra hgt
    rw [if_neg hgt] at hle
    cases hle

variable (hc : l.Cemented c) (hl : l.Chained)

namespace Cemented

/-- The genesis ledger has confirmed the genesis block. -/
theorem genesis_ledger : (Ledger.genesis c minWeight).Cemented c := by
  have hdeps : (c.savedGenesis.stored.dependentBlocks c).iter = [] := by
    have hzero : c.savedGenesis.stored.dependentBlocks c = ⟨0, 0⟩ := if_pos rfl
    rw [hzero]
    rfl
  refine ⟨⟨_, get_put_self _ _ _⟩, ?_, ?_, ?_, ?_, ?_⟩
  · intro a ci hci
    obtain ⟨rfl, rfl⟩ := eq_of_get_put_empty hci
    exact ⟨_, genesis_block_get.mpr ⟨rfl, rfl⟩, rfl, rfl⟩
  · intro h sb hget d
    obtain ⟨-, rfl⟩ := genesis_block_get.mp hget
    have hnone : c.savedGenesis.stored.receivedSend c = none := if_pos rfl
    have hprev : c.savedGenesis.stored.previous = 0 := rfl
    simp [hdeps, hnone, hprev]
  · intro h sb hget
    obtain ⟨-, rfl⟩ := genesis_block_get.mp hget
    simp [hdeps]
  · intro h sb d hget _ hd
    obtain ⟨-, rfl⟩ := genesis_block_get.mp hget
    simp [hdeps] at hd
  · have hsum : (Ledger.genesis c minWeight).confirmationHeight.sumBy (fun _ ci => ci.height) =
        1 := sumBy_put_of_none _ _ (get_empty _)
    exact hsum.symm

include hc hl

/-- The confirmation height of an account does not exceed its block count. -/
theorem height_le {a : Account} {info : AccountInfo} (hinfo : l.account.get a = some info) :
    l.confirmedHeight a ≤ info.blockCount := by
  cases hconf : l.confirmationHeight.get a with
  | none => simp [confirmedHeight, hconf, default]
  | some ci =>
    obtain ⟨sb, hsb, rfl, hht⟩ := hc.frontier hconf
    obtain ⟨info', hinfo', hle⟩ := hl.owner hsb
    cases hinfo.symm.trans hinfo'
    rw [confirmedHeight_of_get hconf, ← hht]
    exact hle

/-- The genesis account is never closed. -/
theorem genesis_account : ∃ info, l.account.get c.genesisAccount = some info := by
  obtain ⟨ci, hci⟩ := hc.genesis
  obtain ⟨sb, hsb, hacc, -⟩ := hc.frontier hci
  obtain ⟨info, hinfo, -⟩ := hl.owner hsb
  exact ⟨info, hacc ▸ hinfo⟩

end Cemented

/-! ### Insertions -/

section

variable {nb : SavedBlock} (hl' : l'.Chained) (he : Extends c l nb l')

include he

/-- Insertions change no confirmation height. -/
theorem Extends.confirmedHeight_eq (a : Account) : l'.confirmedHeight a = l.confirmedHeight a := by
  rw [confirmedHeight, confirmedHeight, he.confirmation_eq.1]

/-- Insertions keep what is confirmed. -/
theorem Extends.keepsConfirmed : l.KeepsConfirmed l' :=
  ⟨fun hget _ => he.get_of_get hget, fun a => (he.confirmedHeight_eq a).ge⟩

/-- The dependencies of a new block are older blocks. -/
theorem Extends.get_dependent {d : BlockHash} (hd : d ∈ (nb.dependentBlocks c).iter) :
    ∃ sb, l.block.get d = some sb := by
  obtain ⟨hne, rfl | hrecv⟩ := (he.dependents d).mp hd
  · exact he.stored.resolve_left hne
  · exact (he.received hrecv).2.1

include hc hl'

/-- A new block is not confirmed. -/
theorem Extends.height_gt : l.confirmedHeight nb.account < nb.height := by
  cases hconf : l.confirmationHeight.get nb.account with
  | none =>
    have hzero : l.confirmedHeight nb.account = 0 := by rw [confirmedHeight, hconf]; rfl
    rw [hzero]
    exact hl'.linked.height_pos he.get_new
  | some ci =>
    obtain ⟨sb, hsb, hacc, hht⟩ := hc.frontier hconf
    rw [confirmedHeight_of_get hconf, ← hht]
    exact he.above hsb hacc

/-- Insertions keep the cemented set closed. -/
theorem Cemented.extends_ledger : l'.Cemented c := by
  refine ⟨?_, ?_, ?_, ?_, ?_, ?_⟩
  · rw [he.confirmation_eq.1]
    exact hc.genesis
  · intro a ci hci
    rw [he.confirmation_eq.1] at hci
    obtain ⟨sb, hsb, hfacts⟩ := hc.frontier hci
    exact ⟨sb, he.get_of_get hsb, hfacts⟩
  · intro h sb hget
    rcases he.eq_or_get hget with ⟨-, rfl⟩ | hold
    · exact he.dependents
    · exact hc.dependents hold
  · intro h sb hget
    rcases he.eq_or_get hget with ⟨rfl, rfl⟩ | hold
    · intro hown
      obtain ⟨sb', hsb'⟩ := he.get_dependent hown
      cases he.fresh.symm.trans hsb'
    · exact hc.other hold
  · intro h sb d hget hle hd
    rw [he.confirmedHeight_eq] at hle
    rcases he.eq_or_get hget with ⟨-, rfl⟩ | hold
    · exact absurd hle (not_le.mpr (he.height_gt hc hl'))
    · exact he.keepsConfirmed.confirmed (hc.closed hold hle hd)
  · rw [he.confirmation_eq.1, he.confirmation_eq.2.1]
    exact hc.count

end

/-! ### Roll-backs -/

section

variable {head : SavedBlock} (h : l.RollsBackHead c head l')

include hl h

/-- Roll-backs change no confirmation height. -/
theorem RollsBackHead.confirmedHeight_eq (a : Account) :
    l'.confirmedHeight a = l.confirmedHeight a := by
  rw [confirmedHeight, confirmedHeight, (h.frame hl).1]

/-- Roll-backs keep what is confirmed. -/
theorem RollsBackHead.keepsConfirmed : l.KeepsConfirmed l' := by
  refine ⟨?_, fun a => (h.confirmedHeight_eq hl a).ge⟩
  rintro x sb hget ⟨sb', hget', hle⟩
  cases hget.symm.trans hget'
  rw [h.block_eq hl, get_del_of_ne]
  · exact hget
  · rintro rfl
    have hunconf : l.confirmedHeight head.account < head.height := h.not_confirmed hl
    obtain ⟨-, info, i, hh, -⟩ := h
    cases hget.symm.trans hh.stored
    omega

/-- Roll-backs confirm nothing. -/
theorem RollsBackHead.confirmed_of_confirmed (hx : l'.Confirmed x) : l.Confirmed x := by
  obtain ⟨sb, hsb, hle⟩ := hx
  rw [h.confirmedHeight_eq hl] at hle
  rw [h.block_eq hl] at hsb
  exact ⟨sb, (get_of_get_del hsb).2, hle⟩

include hc

/-- Roll-backs keep the cemented set closed. -/
theorem Cemented.rollsBackHead : l'.Cemented c := by
  have hkeep := h.keepsConfirmed hl
  have hold : ∀ {x sb}, l'.block.get x = some sb → l.block.get x = some sb := by
    intro x sb hget
    rw [h.block_eq hl] at hget
    exact (get_of_get_del hget).2
  refine ⟨?_, ?_, fun hget => hc.dependents (hold hget), fun hget => hc.other (hold hget), ?_, ?_⟩
  · rw [(h.frame hl).1]
    exact hc.genesis
  · intro a ci hci
    rw [(h.frame hl).1] at hci
    obtain ⟨sb, hsb, hacc, hht⟩ := hc.frontier hci
    refine ⟨sb, hkeep.block hsb ⟨sb, hsb, ?_⟩, hacc, hht⟩
    rw [hacc, confirmedHeight_of_get hci, hht]
  · intro x sb d hget hle hd
    rw [h.confirmedHeight_eq hl] at hle
    exact hkeep.confirmed (hc.closed (hold hget) hle hd)
  · rw [(h.frame hl).1, (h.frame hl).2.1]
    exact hc.count

end

include hc hl in
/-- A sequence of roll-backs keeps the cemented set closed and loses nothing of it. -/
theorem Cemented.headSteps (h : HeadSteps c l l') : l'.Cemented c ∧ l.KeepsConfirmed l' :=
  h.invariant hl ⟨hc, .refl l⟩ fun hl1 ih hhead =>
    ⟨ih.1.rollsBackHead hl1 hhead, ih.2.trans (hhead.keepsConfirmed hl1)⟩

/-- A sequence of roll-backs confirms nothing. -/
theorem HeadSteps.confirmed_of_confirmed (hl : l.Chained) (h : HeadSteps c l l')
    (hx : l'.Confirmed x) : l.Confirmed x := by
  revert hx
  exact h.invariant hl id fun hl1 ih hhead hx => ih (hhead.confirmed_of_confirmed hl1 hx)

/-! ### Cementing -/

section

variable {maxBlocks : ℕ} {s s' : BlockCementer} {hash : BlockHash} {block : SavedBlock}

/-- After an unconfirmed dependency has been pushed, no other hash is on top. -/
theorem head?_pushDependent {stack : List BlockHash} {d : BlockHash}
    (hd : BlockCementer.isConfirmed l d = false)
    (h : (BlockCementer.pushDependent l maxBlocks stack d).head? = some hash) : hash = d := by
  rw [BlockCementer.pushDependent, if_pos hd] at h
  dsimp only at h
  split at h
  · cases stack with
    | nil => cases h
    | cons x stack => exact (Option.some.inj h).symm
  · exact (Option.some.inj h).symm

/-- A block on top of the stack after its dependencies were visited has them all confirmed. -/
theorem isConfirmed_of_foldl_pushDependent (deps : List BlockHash) {stack : List BlockHash}
    (hoth : hash ∉ deps)
    (h : (deps.foldl (BlockCementer.pushDependent l maxBlocks) stack).head? = some hash) :
    ∀ d ∈ deps, BlockCementer.isConfirmed l d = true := by
  induction deps using List.reverseRecOn with
  | nil => simp
  | append_singleton deps d ih =>
    rw [List.foldl_concat] at h
    simp only [List.mem_append, List.mem_singleton, not_or] at hoth
    have hd : BlockCementer.isConfirmed l d = true := by
      by_contra hnot
      exact hoth.2 (head?_pushDependent (by simpa using hnot) h)
    rw [BlockCementer.pushDependent, if_neg (by simp [hd])] at h
    intro x hx
    rcases List.mem_append.mp hx with hx | hx
    · exact ih hoth.1 h x hx
    · rw [List.mem_singleton.mp hx]
      exact hd

/-- The confirmation heights after cementing a block. -/
theorem confirmedHeight_cement (block : SavedBlock) (a : Account) :
    (BlockCementer.cement l block).confirmedHeight a =
      if a = block.account then block.height else l.confirmedHeight a := by
  rw [confirmedHeight, BlockCementer.cement, get_put]
  split
  · rfl
  · rfl

/-- Cementing a block keeps what is confirmed, if it is not below the confirmation height. -/
theorem keepsConfirmed_cement (hle : l.confirmedHeight block.account ≤ block.height) :
    l.KeepsConfirmed (BlockCementer.cement l block) := by
  refine ⟨fun hget _ => hget, fun a => ?_⟩
  rw [confirmedHeight_cement]
  split
  · next heq => rw [heq]; exact hle
  · exact le_rfl

/-- The sum of the confirmation heights after cementing a block. -/
theorem sumBy_height_cement (hsucc : l.confirmedHeight block.account + 1 = block.height) :
    (BlockCementer.cement l block).confirmationHeight.sumBy (fun _ ci => ci.height) =
      l.confirmationHeight.sumBy (fun _ ci => ci.height) + 1 := by
  change (l.confirmationHeight.put block.account ⟨block.height, block.hash⟩).sumBy _ = _
  cases hconf : l.confirmationHeight.get block.account with
  | none =>
    have hzero : l.confirmedHeight block.account = 0 := by rw [confirmedHeight, hconf]; rfl
    rw [sumBy_put_of_none _ _ hconf]
    dsimp only
    omega
  | some ci =>
    have hput := sumBy_put_of_some (⟨block.height, block.hash⟩ : ConfirmationHeightInfo)
      (fun _ ci => ci.height) hconf
    rw [confirmedHeight_of_get hconf] at hsucc
    dsimp only at hput
    omega

section

variable (hblock : l.block.get hash = some block) (hconf : BlockCementer.isConfirmed l hash = false)
  (hdeps : ∀ d ∈ (block.dependentBlocks c).iter, l.Confirmed d)

include hc hl hblock hconf hdeps

/-- A block is cemented right above the confirmation height of its account. -/
theorem Cemented.height_succ : l.confirmedHeight block.account + 1 = block.height := by
  have hlt : l.confirmedHeight block.account < block.height := by
    by_contra hge
    have htrue := hl.isConfirmed_iff.mpr ⟨block, hblock, not_lt.mp hge⟩
    rw [hconf] at htrue
    cases htrue
  by_cases hprev : block.previous = 0
  · have hone := (hl.linked.first hblock hprev).1
    omega
  · obtain ⟨p, hp, hacc, hht⟩ := hl.linked.previous hblock hprev
    obtain ⟨p', hp', hle⟩ := hdeps _ ((hc.dependents hblock _).mpr ⟨hprev, Or.inl rfl⟩)
    cases hp.symm.trans hp'
    rw [hacc] at hle
    omega

/-- Cementing a block whose dependencies are confirmed keeps the cemented set closed. -/
theorem Cemented.cement :
    (BlockCementer.cement l block).Cemented c ∧
      l.KeepsConfirmed (BlockCementer.cement l block) := by
  have hsucc := hc.height_succ hl hblock hconf hdeps
  have hkeep : l.KeepsConfirmed (BlockCementer.cement l block) := keepsConfirmed_cement (by omega)
  refine ⟨⟨?_, ?_, hc.dependents, hc.other, ?_, ?_⟩, hkeep⟩
  · obtain ⟨ci, hci⟩ := hc.genesis
    rw [BlockCementer.cement, get_put]
    split
    · exact ⟨_, rfl⟩
    · exact ⟨ci, hci⟩
  · intro a ci hci
    rcases eq_or_of_get_put hci with ⟨rfl, rfl⟩ | ⟨-, hold⟩
    · refine ⟨block, ?_, rfl, rfl⟩
      rw [hl.linked.hash_eq hblock]
      exact hblock
    · exact hc.frontier hold
  · intro h sb d hget hle hd
    have hget' : l.block.get h = some sb := hget
    by_cases hold : sb.height ≤ l.confirmedHeight sb.account
    · exact hkeep.confirmed (hc.closed hget' hold hd)
    · -- the only block that was not confirmed before is the one that is cemented
      rw [confirmedHeight_cement] at hle
      split at hle
      · next hacc =>
        rw [hacc] at hold
        have heq := hl.linked.unique hget' hblock hacc (by omega)
        rw [heq, hblock] at hget'
        cases hget'
        exact hkeep.confirmed (hdeps d hd)
      · exact absurd hle hold
  · rw [sumBy_height_cement hsucc, ← hc.count]
    rfl

end

include hc hl in
/-- One iteration of the cementer keeps the cemented set closed and loses nothing of it. -/
theorem Cemented.iterate (h : BlockCementer.iterate c maxBlocks l s hash = .ok (l', s')) :
    l'.Cemented c ∧ l.KeepsConfirmed l' := by
  rcases cement_cases h with rfl | ⟨block, hblock, hconf, hhead, rfl⟩
  · exact ⟨hc, .refl _⟩
  · refine hc.cement hl hblock hconf fun d hd => ?_
    exact hl.isConfirmed_iff.mp (isConfirmed_of_foldl_pushDependent _ (hc.other hblock) hhead d hd)

end

/-! ### Runs -/

/-- The verification of final votes does not touch the cemented set. -/
theorem Cemented.vote (hc : l.Cemented c) (candidates : List (Root × BlockHash)) :
    (l.verifyFinalVotes c candidates).1.Cemented c ∧
      l.KeepsConfirmed (l.verifyFinalVotes c candidates).1 := by
  obtain ⟨votes, heq⟩ := verifyFinalVotes_frame c l candidates
  rw [heq]
  exact ⟨⟨hc.genesis, hc.frontier, hc.dependents, hc.other, hc.closed, hc.count⟩,
    fun hget _ => hget, fun _ => le_rfl⟩

include hc hl in
/-- Every change keeps the cemented set closed and loses nothing of it. -/
theorem Cemented.step (h : Step c l l') : l'.Cemented c ∧ l.KeepsConfirmed l' := by
  cases h with
  | insert b h =>
    obtain ⟨nb, -, he⟩ := h.extends_ledger hl (hc.genesis_account hl)
    exact ⟨hc.extends_ledger (hl.insert h) he, he.keepsConfirmed⟩
  | rollBack fuel maxRollbacks canRollBack clock targets results h =>
    exact hc.headSteps hl (headSteps_of_rollBackBatch hl h)
  | cement maxBlocks s s' hash h => exact hc.iterate hl h
  | vote candidates h => exact h ▸ hc.vote candidates

include hc hl in
/-- Every run keeps the cemented set closed and loses nothing of it. -/
theorem Cemented.run (h : Run c l l') : l'.Cemented c ∧ l.KeepsConfirmed l' := by
  induction h with
  | refl => exact ⟨hc, .refl l⟩
  | tail hrun hstep ih =>
    obtain ⟨hc1, hkeep⟩ := ih.1.step (hl.run hrun) hstep
    exact ⟨hc1, ih.2.trans hkeep⟩

/-- Every reachable ledger has a closed cemented set. -/
theorem Reachable.cemented (h : Reachable c minWeight l) : l.Cemented c :=
  (Cemented.genesis_ledger.run Chained.genesis h).1

/-- In every ledger that insertions, roll-backs and cementing reach from genesis, the cemented
set is closed, its heights are within the account chains, and no later change removes a
confirmed block or lowers a confirmation height. Whole calls of the cementer are among these
changes. -/
theorem reachable_cemented (h : Reachable c minWeight l) :
    l.Cemented c ∧
      (∀ a info, l.account.get a = some info → l.confirmedHeight a ≤ info.blockCount) ∧
      (∀ l', Run c l l' → l.KeepsConfirmed l') ∧
      ∀ fuel target maxBlocks r,
        BlockCementer.confirm c fuel (fun _ => none) target maxBlocks l = .ok r → Run c l r.1 :=
  ⟨h.cemented, fun _ _ => h.cemented.height_le h.chained,
    fun _ hrun => (h.cemented.run h.chained hrun).2,
    fun _ _ _ _ hconfirm => Run.of_confirm (fun _ _ _ _ _ _ _ _ hnone => by cases hnone) hconfirm⟩

/-- The cemented set of the dev network after a send and its receive. -/
theorem cemented_devReceived :
    devReceived.Cemented devConstants ∧
      (∀ a info, devReceived.account.get a = some info →
        devReceived.confirmedHeight a ≤ info.blockCount) ∧
      (∀ l', Run devConstants devReceived l' → devReceived.KeepsConfirmed l') ∧
      ∀ fuel target maxBlocks r,
        BlockCementer.confirm devConstants fuel (fun _ => none) target maxBlocks devReceived =
          .ok r → Run devConstants devReceived r.1 :=
  reachable_cemented reachable_devReceived

end RsNano.Ledger
