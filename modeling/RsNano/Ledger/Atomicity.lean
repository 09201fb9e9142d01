import RsNano.Ledger.Snapshot

/-!
# Validation and insertion as one step

The inserter re-checks the head of the account only, and this is not enough: a roll-back of the
send that a block receives goes unnoticed, and so does one of the send that an epoch block needs
to open an account. If all changes between the snapshot and the insertion are tolerated by the
block, the insertion does what a fresh validation would have allowed.

A history lists the states of the ledger, latest first. An insertion may use any earlier state
as its snapshot; the insertions of one batch are steps with the same snapshot.
-/

namespace RsNano.Ledger

open BlockValidator List Option

variable {c : LedgerConstants} {minWeight : Amount} {v : BlockValidator} {l l' : Ledger}

/-- Whether an account is receivable matters for epoch blocks that open it, and only there. -/
theorem passes_with_anyPendingExists (h : v.Passes) {any : Bool}
    (hopen : v.isEpochOpen = true → any = true) :
    ({ v with anyPendingExists := any } : BlockValidator).Passes := by
  refine ⟨h.epochPreChecks, h.notOld, h.predecessor, h.signature, h.notBurnAccount,
    h.accountExists, h.noDoubleOpen, h.previousCorrect, h.openHasLink, h.noChangeWithoutLink,
    h.pendingCorrect, h.work, h.noNegativeSend, ?_⟩
  have hep := h.epochCorrect
  simp only [ensureValidEpochBlock, seq_eq_ok] at hep ⊢
  obtain ⟨h1, h2, -, h4, h5, h6⟩ := hep
  refine ⟨h1, h2, ?_, h4, h5, h6⟩
  rw [ensureEpochOpenHasPendingEntry, rejectIf_eq_ok, decide_eq_false_iff_not]
  rintro ⟨hisOpen, hisEpoch, hfalse⟩
  have htrue := hopen (by rw [isEpochOpen, Bool.and_eq_true]; exact ⟨hisOpen, hisEpoch⟩)
  cases htrue.symm.trans hfalse

section

variable {b : Block} {now : ℕ} {i : BlockInsertInstructions}

section

variable (hl : l.Chained) (hv : (l.createValidator c b now).Passes)
  (h : Window c (l.createValidator c b now) l l')

include hl hv h

/-- The previous block is still there. -/
theorem Window.previous :
    (if b.previous ≠ 0 then l'.getBlock b.previous else none) =
      if b.previous ≠ 0 then l.getBlock b.previous else none := by
  rcases hl.position hv with ⟨-, -, hzero⟩ | ⟨-, p, -, hp, -, -, -, hne, hacc, -⟩
  · simp [hzero]
  · simp [hne, getBlock, hp, h.kept hp hacc]

/-- A fresh validation reads what was read on the snapshot. -/
theorem Window.createValidator_eq (hsame : SameFor (l.createValidator c b now) l l')
    (hnew : l'.block.get b.hash = none) :
    l'.createValidator c b now =
      { l.createValidator c b now with
        anyPendingExists := l'.receivableExists (l.createValidator c b now).account } := by
  have hprev := h.previous hl hv
  have hacc : (l'.createValidator c b now).account = (l.createValidator c b now).account := by
    simp only [createValidator, hprev]
  have hex : (l'.createValidator c b now).blockExists = false := by
    simp [createValidator, blockExists, Table.contains, hnew]
  have hold : (l'.createValidator c b now).oldAccountInfo =
      (l.createValidator c b now).oldAccountInfo := by
    rw [createValidator_oldAccountInfo, hacc]
    exact hsame.account
  have hpend : (l'.createValidator c b now).pendingReceiveInfo =
      (l.createValidator c b now).pendingReceiveInfo := by
    rw [createValidator_pendingReceiveInfo, createValidator_pendingReceiveInfo, hacc]
    split
    · rfl
    · exact hsame.pending
  have hsrc : (l'.createValidator c b now).sourceBlockExists =
      (l.createValidator c b now).sourceBlockExists := by
    have hget : l'.block.get b.sourceOrLink = l.block.get b.sourceOrLink := h.source
    have hst : l'.blockExists b.sourceOrLink = l.blockExists b.sourceOrLink :=
      decide_eq_decide.mpr (by rw [Table.contains, Table.contains, hget])
    exact decide_eq_decide.mpr (by rw [hst])
  have hany : (l'.createValidator c b now).anyPendingExists =
      l'.receivableExists (l.createValidator c b now).account := by
    rw [← hacc]
    rfl
  have hprev' : (l'.createValidator c b now).previousBlock =
      (l.createValidator c b now).previousBlock := hprev
  calc l'.createValidator c b now
      = ⟨b, c, (l'.createValidator c b now).blockExists, (l'.createValidator c b now).account,
          (l'.createValidator c b now).previousBlock, (l'.createValidator c b now).oldAccountInfo,
          (l'.createValidator c b now).pendingReceiveInfo,
          (l'.createValidator c b now).anyPendingExists,
          (l'.createValidator c b now).sourceBlockExists, now⟩ := rfl
    _ = _ := by
      rw [hex, hacc, hprev', hold, hpend, hany, hsrc, ← hv.notOld]
      rfl

end

/-- The insertion goes through, and a fresh validation would have allowed it: the entry that it
consumes is there with the amount that was validated, and so is the send. -/
structure FreshInsert (c : LedgerConstants) (snapshot l : Ledger) (b : Block) (now : ℕ)
    (i : BlockInsertInstructions) (l' : Ledger) : Prop where
  inserted : ∃ sb, l.insert b i = .ok (some (l', sb))
  validated : (l.createValidator c b now).validate = .ok i
  pending : ∀ key, i.deletePending = some key → ∃ info, l.pending.get key = some info ∧
    (snapshot.createValidator c b now).amountReceived = info.amount ∧
    l.blockExists key.sendBlockHash = true

/-- The ledger has a different block under the hash of a block. -/
def HashCollision (l : Ledger) (b : Block) : Prop :=
  ∃ sb, l.block.get b.hash = some sb ∧
    (sb.previous ≠ b.previous ∨ sb.block.accountField ≠ b.accountField)

section

variable {sb : SavedBlock} (hl : l.Chained) (hl' : l'.Chained)
  (hv : (l.createValidator c b now).Passes) (h : Window c (l.createValidator c b now) l l')

include hl hl' hv h

/-- The account of a stored block that has the previous block and the account field of a block
accepted on the snapshot. -/
theorem Window.account_eq {x : BlockHash} (hget : l'.block.get x = some sb)
    (hprev : sb.previous = b.previous) (hfield : sb.block.accountField = b.accountField) :
    sb.account = (l.createValidator c b now).account := by
  rcases hl.position hv with ⟨-, hopen, -⟩ | ⟨-, p, -, hp, -, -, -, hne, hacc, -⟩
  · rw [SavedBlock.account, hfield]
    cases b with
    | state _ | legacyOpen _ => rfl
    | legacySend _ | legacyReceive _ | legacyChange _ => cases hopen
  · obtain ⟨p', hp', hacc', -⟩ := hl'.linked.previous hget (hprev ▸ hne)
    rw [hprev, h.kept hp hacc] at hp'
    cases hp'
    exact hacc'.symm.trans hacc

/-- A block that is already stored in its account has changed the account. -/
theorem Window.not_stored
    (hht : l'.accountHeight (l.createValidator c b now).account = l.accountHeight
    (l.createValidator c b now).account) (hget : l'.block.get b.hash = some sb)
    (hprev : sb.previous = b.previous) : sb.block.accountField ≠ b.accountField := by
  intro hfield
  have hacc := h.account_eq hl hl' hv hget hprev hfield
  obtain ⟨info', hinfo', hle⟩ := hl'.owner hget
  have hpos := hl'.linked.height_pos hget
  rw [hacc] at hinfo'
  rw [accountHeight, accountHeight, hinfo'] at hht
  rcases hl.position hv with ⟨hnew, -⟩ | ⟨info, p, hinfo, hp, -, -, -, hne, hpacc, hpht, -⟩
  · rw [hnew] at hht
    simp only [map_some, getD_some, map_none, getD_none] at hht
    omega
  · obtain ⟨p', hp', -, hsucc⟩ := hl'.linked.previous hget (hprev ▸ hne)
    rw [hprev, h.kept hp hpacc] at hp'
    cases hp'
    rw [hinfo] at hht
    simp only [map_some, getD_some] at hht
    omega

end

section

variable (hv : (l.createValidator c b now).Passes)

include hv

/-- What an accepted receive deletes is the entry that was validated. -/
theorem deletePending_eq_some {key : PendingKey}
    (hkey : (l.createValidator c b now).createInstructions.deletePending = some key) :
    key = (l.createValidator c b now).pendingKey ∧ l.blockExists key.sendBlockHash = true ∧
      ∃ info, l.pending.get key = some info ∧
        (l.createValidator c b now).amountReceived = info.amount := by
  change (l.createValidator c b now).deleteReceivedPendingInfo = some key at hkey
  rw [deleteReceivedPendingInfo] at hkey
  split at hkey
  · next hrecv =>
    obtain rfl := some.inj hkey
    obtain ⟨hex, info, hinfo, hamt⟩ := hv.receive hrecv
    rw [createValidator_pendingReceiveInfo] at hinfo
    split at hinfo
    · cases hinfo
    · exact ⟨rfl, (of_decide_eq_true hex).2, info, hinfo, hamt⟩
  · cases hkey

/-- An account that an accepted epoch block opens is receivable. -/
theorem receivableExists_of_isEpochOpen (hopen : (l.createValidator c b now).isEpochOpen = true) :
    l.receivableExists (l.createValidator c b now).account = true := by
  have hep := hv.epochCorrect
  simp only [ensureValidEpochBlock, seq_eq_ok, ensureEpochOpenHasPendingEntry, rejectIf_eq_ok,
    decide_eq_false_iff_not] at hep
  rw [isEpochOpen, Bool.and_eq_true] at hopen
  by_contra hnot
  exact hep.2.2.1 ⟨hopen.1, hopen.2, by simpa [createValidator] using hnot⟩

variable (h : Window c (l.createValidator c b now) l l')
  (hsame : SameFor (l.createValidator c b now) l l')

include h hsame

/-- At the end of a window that makes no difference, the entry to delete and its send are
there. -/
theorem Window.deletePending {key : PendingKey}
    (hkey : (l.createValidator c b now).createInstructions.deletePending = some key) :
    ∃ info, l'.pending.get key = some info ∧
      (l.createValidator c b now).amountReceived = info.amount ∧
      l'.blockExists key.sendBlockHash = true := by
  obtain ⟨rfl, hex, info, hinfo, hamt⟩ := deletePending_eq_some hv hkey
  refine ⟨info, hsame.pending.trans hinfo, hamt, ?_⟩
  obtain ⟨hne, hst⟩ := of_decide_eq_true hex
  have hsrc : l'.block.get b.sourceOrLink = l.block.get b.sourceOrLink := h.source
  refine decide_eq_true ⟨hne, ?_⟩
  change (l'.block.get b.sourceOrLink).isSome = true
  rw [hsrc]
  exact hst

/-- At the end of a window that makes no difference, the instructions can be followed. -/
theorem Window.insertable
    (hchg : l'.accountChangedSinceValidation (l.createValidator c b now).createInstructions =
    false) (hnew : l'.block.get b.hash = none) :
    l'.Insertable b (l.createValidator c b now).createInstructions := by
  refine ⟨hchg, hnew, ?_, fun key hkey => ?_⟩
  · intro hold _
    change ((l.account.get (l.createValidator c b now).account).getD default).head ≠ 0 at hold
    change ∃ info, l'.account.get (l.createValidator c b now).account = some info
    rw [hsame.account]
    cases hinfo : l.account.get (l.createValidator c b now).account with
    | none => rw [hinfo] at hold; exact absurd rfl hold
    | some info => exact ⟨info, rfl⟩
  · obtain ⟨info, hinfo, -⟩ := h.deletePending hv hsame hkey
    exact ⟨info, hinfo⟩

end

/-- At the end of a window a validated block is refused, meets another block with its hash, or is
inserted as a fresh validation would have it. -/
theorem Window.insert (hl : l.Chained) (hc : l.Cemented c)
    (hval : (l.createValidator c b now).validate = .ok i)
    (h : Window c (l.createValidator c b now) l l') :
    l'.insert b i = .ok none ∨ HashCollision l' b ∨ ∃ l'', FreshInsert c l l' b now i l'' := by
  obtain ⟨hv, rfl⟩ := validate_eq_ok.mp hval
  have hl' := hl.run h.run
  cases hchg : l'.accountChangedSinceValidation (l.createValidator c b now).createInstructions with
  | true =>
    refine .inl ?_
    rw [Ledger.insert, if_pos hchg]
    rfl
  | false =>
    have hhead := not_not.mp (of_decide_eq_false hchg)
    have hht := h.accountHeight_eq hl hl' hhead
    have hsame : SameFor (l.createValidator c b now) l l' :=
      (h.higher_or_same hl hc hv.notBurnAccount).resolve_left (by omega)
    cases hnew : l'.block.get b.hash with
    | some sb =>
      refine .inr (.inl ⟨sb, hnew, ?_⟩)
      by_cases hprev : sb.previous = b.previous
      · exact .inr (h.not_stored hl hl' hv hht hnew hprev)
      · exact .inl hprev
    | none =>
      obtain ⟨weights, cache, hins⟩ := insert_eq_ok
        (show (l.createValidator c b now).createInstructions.setAccountInfo.head ≠ 0 from
          b.hash_ne_zero)
      have hinsb := h.insertable hv hsame hchg hnew
      refine .inr (.inr ⟨_, ⟨_, (hins _ _).mpr ⟨hinsb, rfl, rfl⟩⟩, ?_,
        fun key hkey => h.deletePending hv hsame hkey⟩)
      rw [h.createValidator_eq hl hv hsame hnew, validate_eq_ok]
      exact ⟨passes_with_anyPendingExists hv fun hopen =>
        hsame.receivable hopen (receivableExists_of_isEpochOpen hv hopen), rfl⟩

end

/-! ### Histories -/

/-- All changes since the state at a position of the history are tolerated by a validated
block. -/
def UndisturbedSince (v : BlockValidator) (history : List Ledger) (k : ℕ) : Prop :=
  (history.take (k + 1)).IsChain fun l' l => Undisturbed v l l'

/-- The states of a ledger that changes by fresh steps and by insertions of blocks that were
validated on some earlier state and have not been disturbed since. -/
inductive History (c : LedgerConstants) (minWeight : Amount) : List Ledger → Prop
  | genesis : History c minWeight [Ledger.genesis c minWeight]
  | step {l l' : Ledger} {past : List Ledger} (h : History c minWeight (l :: past))
      (hstep : Step c l l') : History c minWeight (l' :: l :: past)
  | insert {l l' snapshot : Ledger} {past : List Ledger} {k now : ℕ} {b : Block}
      {i : BlockInsertInstructions} {sb : SavedBlock} (h : History c minWeight (l :: past))
      (hsnapshot : (l :: past)[k]? = some snapshot)
      (hvalid : (snapshot.createValidator c b now).validate = .ok i)
      (hundisturbed : UndisturbedSince (snapshot.createValidator c b now) (l :: past) k)
      (hins : l.insert b i = .ok (some (l', sb))) : History c minWeight (l' :: l :: past)

/-- The part of a history since a snapshot is a window. -/
theorem window_of_undisturbedSince {past : List Ledger} {k : ℕ} {snapshot : Ledger}
    (hsteps : (l :: past).IsChain fun l' l => Step c l l')
    (hsnap : (l :: past)[k]? = some snapshot) (hu : UndisturbedSince v (l :: past) k) :
    Window c v snapshot l := by
  induction k generalizing l past with
  | zero =>
    cases hsnap
    exact .refl
  | succ k ih =>
    cases past with
    | nil => cases hsnap
    | cons l1 past =>
      rw [isChain_cons_cons] at hsteps
      rw [UndisturbedSince, take_succ_cons, take_succ_cons, isChain_cons_cons] at hu
      exact (ih hsteps.2 hsnap hu.2).tail ⟨hsteps.1, hu.1⟩

/-- Every history is a sequence of fresh steps. -/
theorem History.isChain {history : List Ledger} (h : History c minWeight history) :
    (history.IsChain fun l' l => Step c l l') ∧ ∀ l ∈ history, Reachable c minWeight l := by
  have hcons : ∀ {l l' : Ledger} {past : List Ledger},
      ((l :: past).IsChain fun l' l => Step c l l') ∧ (∀ x ∈ l :: past, Reachable c minWeight x) →
      Step c l l' → ((l' :: l :: past).IsChain fun l' l => Step c l l') ∧
        ∀ x ∈ l' :: l :: past, Reachable c minWeight x := by
    rintro l l' past ⟨hchain, hreach⟩ hstep
    refine ⟨isChain_cons_cons.mpr ⟨hstep, hchain⟩, ?_⟩
    intro x hx
    rcases mem_cons.mp hx with rfl | hx
    · exact (hreach l mem_cons_self).tail hstep
    · exact hreach x hx
  induction h with
  | genesis =>
    refine ⟨isChain_singleton _, ?_⟩
    intro l hl
    rw [mem_singleton.mp hl]
    exact .refl
  | step _ hstep ih => exact hcons ih hstep
  | @insert l l' snapshot past k now b i sb _ hsnap hval hundisturbed hins ih =>
    refine hcons ih (.insert b ⟨now, i, sb, ?_, hins⟩)
    have hreach := ih.2 snapshot (mem_of_getElem? hsnap)
    have hwindow := window_of_undisturbedSince ih.1 hsnap hundisturbed
    rcases hwindow.insert hreach.chained hreach.cemented hval with
      hrefused | ⟨sb', hsb', -⟩ | ⟨l'', hnew⟩
    · cases hrefused.symm.trans hins
    · obtain ⟨-, rfl⟩ := validate_eq_ok.mp hval
      obtain ⟨weights, cache, hspec⟩ := insert_eq_ok
        (show (snapshot.createValidator c b now).createInstructions.setAccountInfo.head ≠ 0 from
          b.hash_ne_zero)
      cases hsb'.symm.trans ((hspec l' sb).mp hins).1.fresh
    · exact hnew.validated

/-- In every history, a block that was validated on an earlier state and has not been disturbed
since is refused, meets another block with its hash, or is inserted as a fresh validation would
have it. -/
theorem history_insert {past : List Ledger} {snapshot : Ledger} {k now : ℕ} {b : Block}
    {i : BlockInsertInstructions} (h : History c minWeight (l :: past))
    (hsnapshot : (l :: past)[k]? = some snapshot)
    (hvalid : (snapshot.createValidator c b now).validate = .ok i)
    (hundisturbed : UndisturbedSince (snapshot.createValidator c b now) (l :: past) k) :
    l.insert b i = .ok none ∨ HashCollision l b ∨
      ∃ l', FreshInsert c snapshot l b now i l' := by
  obtain ⟨hchain, hreachable⟩ := h.isChain
  have hsnap := hreachable snapshot (List.mem_of_getElem? hsnapshot)
  exact (window_of_undisturbedSince hchain hsnapshot hundisturbed).insert hsnap.chained
    hsnap.cemented hvalid

/-- The dev network after the next block of the genesis account. -/
def devRaised : Ledger := devSent.processed devConstants (.state devRaise)

/-- The next block of the genesis account is accepted. -/
theorem inserts_devRaised : devSent.Inserts devConstants (.state devRaise) devRaised :=
  inserts_processed (by decide +kernel)

/-- The states of the dev network with two blocks of the genesis account. -/
theorem history_devRaised : History devConstants 0 [devRaised, devSent, genesis devConstants 0] :=
  .step (.step .genesis (.insert (.state devSend) (inserts_processed (by decide +kernel))))
    (.insert (.state devRaise) inserts_devRaised)

/-- The next block of the genesis account does not disturb the receive of its first send. -/
theorem undisturbedSince_devRaised :
    UndisturbedSince (devSent.createValidator devConstants (.state devOpen) 0)
      [devRaised, devSent, genesis devConstants 0] 1 := by
  have hreach := history_devRaised.isChain.2 devSent (by simp)
  exact isChain_cons_cons.mpr ⟨.of_inserts hreach.chained hreach.cemented
    inserts_devRaised (by decide +kernel), isChain_singleton _⟩

/-- The receive of the first send is inserted after the next block of the genesis account. -/
theorem insert_devRaised :
    devRaised.insert (.state devOpen)
        (devSent.createValidator devConstants (.state devOpen) 0).createInstructions = .ok none ∨
      HashCollision devRaised (.state devOpen) ∨
      ∃ l', FreshInsert devConstants devSent devRaised (.state devOpen) 0
        (devSent.createValidator devConstants (.state devOpen) 0).createInstructions l' :=
  history_insert (k := 1) history_devRaised rfl (by decide +kernel) undisturbedSince_devRaised

/-- Two blocks of one account, validated while a send to it is pending, and inserted after the
send has been rolled back. The epoch block is accepted although a fresh validation refuses it,
and the receive makes the inserter panic. -/
theorem insert_disturbed :
    Reachable devConstants 0 devSent ∧
      ∃ l results, devSent.rollBack devConstants 3 (fun _ => 0) devSend.hash = .ok (l, results) ∧
      (∃ l' sb, processBatch devConstants (fun _ => 0) devSent l [.state devEpochOpen] =
        .ok (l', [.ok sb])) ∧
      (l.createValidator devConstants (.state devEpochOpen) 0).validate =
        .error .gapEpochOpenPending ∧
      processBatch devConstants (fun _ => 0) devSent l [.state devOpen] = .error .keyNotFound := by
  obtain ⟨⟨l, results⟩, hrun, htest⟩ : ∃ x,
      devSent.rollBack devConstants 3 (fun _ => 0) devSend.hash = .ok x ∧
        decide (((processBatch devConstants (fun _ => 0) devSent x.1 [.state devEpochOpen]).map
            fun r => r.2.map Except.toOption |>.map isSome).toOption = some [true] ∧
          (x.1.createValidator devConstants (.state devEpochOpen) 0).validate =
            .error .gapEpochOpenPending ∧
          processBatch devConstants (fun _ => 0) devSent x.1 [.state devOpen] =
            .error .keyNotFound) = true :=
    exists_eq_ok (by decide +kernel)
  obtain ⟨hepoch, hfresh, hreceive⟩ := of_decide_eq_true htest
  have hsent : InsertRun devConstants (fun _ _ => True) (genesis devConstants 0) devSent :=
    insertRun_devSent trivial
  refine ⟨hsent.run, l, results, hrun, ?_, hfresh, hreceive⟩
  cases hbatch : processBatch devConstants (fun _ => 0) devSent l [.state devEpochOpen] with
  | error e =>
    rw [hbatch] at hepoch
    cases hepoch
  | ok r =>
    obtain ⟨l', processed⟩ := r
    rw [hbatch] at hepoch
    obtain ⟨x, hx, hsome⟩ := List.map_eq_singleton_iff.mp (some.inj hepoch)
    obtain ⟨y, rfl, rfl⟩ := List.map_eq_singleton_iff.mp hx
    cases y with
    | error e => cases hsome
    | ok sb => exact ⟨l', sb, rfl⟩

end RsNano.Ledger
