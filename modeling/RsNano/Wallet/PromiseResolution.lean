import RsNano.Wallet.SendIds

/-!
# Every promise gets its answer

An unresolved promise is in the hands of the running call, or held by an entry that waits for
work or for the block processor, or its entry was displaced by another request with the same root
or the same hash. Displaced promises are never resolved. If no request displaces a promise, every
unresolved promise has exactly one entry, and the answer to it is outstanding.
-/

namespace RsNano

open Waiting List

/-- The promise of a block that waits for work. -/
def WorkItem.promise : WorkItem → Option PromiseId
  | blockWork _ promise _ _ => some promise
  | cache _ _ => none

/-- An entry of one of the two tables. -/
inductive Holder
  | work (root : Root)
  | processor (hash : BlockHash)

namespace Wallets

variable {cfg : WalletsConfig} {w w' : Wallets} {p : PromiseId} {hand : Option PromiseId}

/-- The entry holds the promise. -/
def Holds (w : Wallets) : Holder → PromiseId → Prop
  | .work root, p => w.waitingForWork.Holds WorkItem.promise root p
  | .processor hash, p => w.waitingForProcessor.Holds (fun item => some item.promise) hash p

/-- The promises whose entries were displaced. -/
def displaced (w : Wallets) : List PromiseId :=
  w.waitingForWork.displacedTokens WorkItem.promise ++
    w.waitingForProcessor.displacedTokens fun item => some item.promise

/-- Every unresolved promise is in hand, held by one entry, or displaced. -/
structure Owned (w : Wallets) (hand : Option PromiseId) : Prop where
  work : w.waitingForWork.Answerable
  processor : w.waitingForProcessor.Answerable
  created : ∀ h p, w.Holds h p → p < w.promises.length
  unique : ∀ h h' p, w.Holds h p → w.Holds h' p → h = h'
  inHand : ∀ p ∈ hand, p < w.promises.length ∧ ∀ h, ¬ w.Holds h p
  unresolved : ∀ p, w.promises[p]? = some none → p ∈ hand ∨ (∃ h, w.Holds h p) ∨ p ∈ w.displaced

theorem Owned.congr (h : w.Owned hand) (hwork : w'.waitingForWork = w.waitingForWork)
    (hproc : w'.waitingForProcessor = w.waitingForProcessor)
    (hproms : w'.promises = w.promises) : w'.Owned hand := by
  have hhold : w'.Holds = w.Holds := by
    funext h p
    cases h with
    | work root => rw [Holds, Holds, hwork]
    | processor hash => rw [Holds, Holds, hproc]
  have hdisp : w'.displaced = w.displaced := by
    rw [displaced, displaced, hwork, hproc]
  refine ⟨?_, ?_, ?_, ?_, ?_, ?_⟩
  · rw [hwork]
    exact h.work
  · rw [hproc]
    exact h.processor
  · rw [hhold, hproms]
    exact h.created
  · rw [hhold]
    exact h.unique
  · rw [hhold, hproms]
    exact h.inHand
  · rw [hhold, hproms, hdisp]
    exact h.unresolved

/-! ### Promises -/

/-- The entries keep their promises when there is one more. -/
theorem Owned.created_append (h : w.Owned hand) (x : Option (Except WalletsError SavedBlock))
    (e : Holder) (p : PromiseId) (he : w.Holds e p) : p < (w.promises ++ [x]).length := by
  rw [length_append]
  exact Nat.lt_add_right _ (h.created e p he)

/-- A promise that is unresolved after another one was added is older or the new one. -/
theorem getElem?_append_unresolved {x : Option (Except WalletsError SavedBlock)}
    (h : (w.promises ++ [x])[p]? = some none) :
    w.promises[p]? = some none ∨ p = w.promises.length ∧ x = none := by
  rw [List.getElem?_append] at h
  split at h
  · exact .inl h
  · next hge =>
    obtain ⟨hlt, hx⟩ := List.getElem?_eq_some_iff.mp h
    rw [List.length_singleton, Nat.lt_one_iff, Nat.sub_eq_zero_iff_le] at hlt
    refine .inr ⟨Nat.le_antisymm hlt (Nat.le_of_not_lt hge), ?_⟩
    simpa using hx

theorem Owned.setResult (h : w.Owned (some p)) (result : Except WalletsError SavedBlock) :
    (w.setResult p result).Owned none := by
  refine ⟨h.work, h.processor, fun e q he => ?_, h.unique, nofun, fun q hq => ?_⟩
  · have hlt := h.created e q he
    simpa [Wallets.setResult] using hlt
  · change (w.promises.set p (some result))[q]? = some none at hq
    by_cases hpq : p = q
    · subst hpq
      rw [getElem?_set_self (h.inHand p rfl).1] at hq
      cases hq
    · rw [getElem?_set_ne hpq] at hq
      rcases h.unresolved q hq with hhand | hheld
      · exact absurd (Option.some.inj hhand) hpq
      · exact .inr hheld

/-! ### Entries -/

/-- Where promises go when an entry is exchanged: `put` goes from the hand into the entry, and
`taken` goes from the entry into the hand. -/
structure Moved (hand put taken hand' : Option PromiseId) : Prop where
  stored : ∀ q ∈ put, q ∈ hand ∧ q ∉ hand'
  kept : ∀ q ∈ hand, q ∈ put ∨ q ∈ hand'
  origin : ∀ q ∈ hand', q ∈ hand ∨ q ∈ taken
  inHand : ∀ q ∈ taken, q ∈ hand'

theorem moved_put (hand : Option PromiseId) : Moved hand hand none none :=
  ⟨fun _ hq => ⟨hq, nofun⟩, fun _ hq => .inl hq, nofun, nofun⟩

theorem moved_keep (hand : Option PromiseId) : Moved hand none none hand :=
  ⟨nofun, fun _ hq => .inr hq, fun _ hq => .inl hq, nofun⟩

theorem moved_take (taken : Option PromiseId) : Moved none none taken taken :=
  ⟨nofun, nofun, fun _ hq => .inr hq, fun _ hq => hq⟩

/-- One entry is exchanged. -/
theorem Owned.exchange {put taken hand' : Option PromiseId} (h : w.Owned hand) (e0 : Holder)
    (hmoved : Moved hand put taken hand') (hwork : w'.waitingForWork.Answerable)
    (hproc : w'.waitingForProcessor.Answerable) (hproms : w'.promises = w.promises)
    (hhold : ∀ e q, w'.Holds e q ↔ e = e0 ∧ q ∈ put ∨ e ≠ e0 ∧ w.Holds e q)
    (hheld : ∀ q ∈ taken, w.Holds e0 q)
    (hold : ∀ q, w.Holds e0 q → q ∈ w'.displaced ∨ q ∈ taken)
    (hdisp : ∀ q ∈ w.displaced, q ∈ w'.displaced) : w'.Owned hand' := by
  refine ⟨hwork, hproc, fun e q he => ?_, fun e e' q he he' => ?_, fun q hq => ⟨?_, ?_⟩,
    fun q hq => ?_⟩
  · rw [hproms]
    rcases (hhold e q).mp he with ⟨-, hq⟩ | ⟨-, he⟩
    · exact (h.inHand q (hmoved.stored q hq).1).1
    · exact h.created e q he
  · rcases (hhold e q).mp he with ⟨rfl, hq⟩ | ⟨-, he⟩
    · rcases (hhold e' q).mp he' with ⟨rfl, -⟩ | ⟨-, he'⟩
      · rfl
      · exact absurd he' ((h.inHand q (hmoved.stored q hq).1).2 e')
    · rcases (hhold e' q).mp he' with ⟨-, hq⟩ | ⟨-, he'⟩
      · exact absurd he ((h.inHand q (hmoved.stored q hq).1).2 e)
      · exact h.unique e e' q he he'
  · rw [hproms]
    rcases hmoved.origin q hq with hhand | htaken
    · exact (h.inHand q hhand).1
    · exact h.created e0 q (hheld q htaken)
  · intro e he
    rcases (hhold e q).mp he with ⟨-, hq'⟩ | ⟨hne, he⟩
    · exact (hmoved.stored q hq').2 hq
    · rcases hmoved.origin q hq with hhand | htaken
      · exact (h.inHand q hhand).2 e he
      · exact hne (h.unique e e0 q he (hheld q htaken))
  · rw [hproms] at hq
    rcases h.unresolved q hq with hhand | ⟨e, he⟩ | hdis
    · rcases hmoved.kept q hhand with hq | hq
      · exact .inr (.inl ⟨e0, (hhold e0 q).mpr (.inl ⟨rfl, hq⟩)⟩)
      · exact .inl hq
    · by_cases hne : e = e0
      · subst hne
        rcases hold q he with hdis | hq
        · exact .inr (.inr hdis)
        · exact .inl (hmoved.inHand q hq)
      · exact .inr (.inl ⟨e, (hhold e q).mpr (.inr ⟨hne, he⟩)⟩)
    · exact .inr (.inr (hdisp q hdis))

section

variable {put taken hand' : Option PromiseId} (h : w.Owned hand)
  (hmoved : Moved hand put taken hand') (hproms : w'.promises = w.promises)

include h hmoved hproms

/-- An entry that waits for work is exchanged. -/
theorem Owned.exchangeWork {root : Root} (hproc : w'.waitingForProcessor =
    w.waitingForProcessor) (ht : Exchanged WorkItem.promise w.waitingForWork
      w'.waitingForWork root put taken) : w'.Owned hand' := by
  refine h.exchange (.work root) hmoved (ht.answerable h.work) (hproc ▸ h.processor)
    hproms (fun e q => ?_) ht.held (fun q hq => ?_) fun q hq => ?_
  · cases e with
    | work root' => simpa [Holds] using ht.holds_iff root' q
    | processor hash => simp [Holds, hproc]
  · exact (ht.old q hq).imp_left (mem_append_left _)
  · rw [displaced, mem_append] at hq ⊢
    rw [hproc]
    exact hq.imp_left (ht.displaced q)

/-- An entry that waits for the block processor is exchanged. -/
theorem Owned.exchangeProcessor {hash : BlockHash} (hwork : w'.waitingForWork =
    w.waitingForWork) (ht : Exchanged (some ·.promise) w.waitingForProcessor
      w'.waitingForProcessor hash put taken) : w'.Owned hand' := by
  refine h.exchange (.processor hash) hmoved (hwork ▸ h.work) (ht.answerable h.processor)
    hproms (fun e q => ?_) ht.held (fun q hq => ?_) fun q hq => ?_
  · cases e with
    | work root => simp [Holds, hwork]
    | processor hash' => simpa [Holds] using ht.holds_iff hash' q
  · exact (ht.old q hq).imp_left (mem_append_right _)
  · rw [displaced, mem_append] at hq ⊢
    rw [hwork]
    exact hq.imp_right (ht.displaced q)

end

/-! ### Calls -/

theorem Owned.enqueueCacheWork (h : w.Owned none) (request : WorkRequest) (wallet : WalletId)
    (account : Account) : (w.enqueueCacheWork request wallet account).Owned none := by
  rw [Wallets.enqueueCacheWork]
  split
  · exact h
  · exact h.exchangeWork (moved_put _) rfl rfl (exchanged_request rfl)
  · exact h.exchangeWork (moved_keep _) rfl rfl exchanged_requestFailed

section

variable (h : w.Owned (some p)) (wallet : WalletId) (account : Account)
  (block : Block) (generateWork : Bool)

include h

theorem Owned.enqueueBlockWork (request : WorkRequest) :
    (w.enqueueBlockWork request block p generateWork wallet).Owned none := by
  rw [Wallets.enqueueBlockWork]
  split
  · exact h.setResult _
  · exact h.exchangeWork (moved_put _) rfl rfl (exchanged_request rfl)
  · refine Owned.setResult ?_ _
    exact h.exchangeWork (moved_keep _) rfl rfl exchanged_requestFailed

theorem Owned.enqueueBlock : (w.enqueueBlock block p generateWork wallet).Owned none := by
  rw [Wallets.enqueueBlock]
  split
  · exact h.setResult _
  · exact h.exchangeProcessor (moved_put _) rfl rfl (exchanged_request rfl)
  · refine Owned.setResult ?_ _
    exact h.exchangeProcessor (moved_keep _) rfl rfl exchanged_requestFailed

theorem Owned.actionComplete (details : BlockDetails) :
    (w.actionComplete cfg wallet block account generateWork details p).Owned none := by
  rw [Wallets.actionComplete]
  split
  · refine Owned.enqueueBlockWork ?_ _ _ _ _
    exact h.congr rfl rfl rfl
  · refine Owned.enqueueBlock ?_ _ _ _
    exact h.congr rfl rfl rfl

theorem Owned.completeSend (source : Account) (prepared : Option PreparedSend) :
    (w.completeSend cfg wallet source generateWork p prepared).Owned none := by
  match prepared with
  | none => exact h.setResult _
  | some (.cached block) => exact h.setResult _
  | some (.new block details) => exact h.actionComplete _ _ _ _ _

end

variable {source : Account} {work : WorkNonce}

/-- Preparing a send stores an id at most. -/
theorem Owned.prepareSendWithId (h : w.Owned hand) {id : String} {s : WalletStore}
    {destination : Account} {amount : Amount} {r : Wallets × Option PreparedSend}
    (hr : w.prepareSendWithId cfg id s source destination amount work = .ok r) :
    r.1.Owned hand := by
  rw [Wallets.prepareSendWithId] at hr
  split at hr
  · split at hr
    · cases hr
    · cases hr
      exact h
  · obtain ⟨prepared, -, hr⟩ := bind_eq_ok.mp hr
    split at hr
    · cases hr
      exact h.congr rfl rfl rfl
    · cases hr
      exact h

section

variable (h : w.Owned none)

include h

namespace Owned

theorem newPromise : w.newPromise.Owned (some w.promises.length) := by
  refine ⟨h.work, h.processor, h.created_append none, h.unique, ?_, fun p hp => ?_⟩
  · rintro p ⟨⟩
    refine ⟨by simp [Wallets.newPromise], fun e he => ?_⟩
    exact Nat.lt_irrefl _ (h.created e _ he)
  · rcases getElem?_append_unresolved hp with hp | ⟨hp, -⟩
    · exact .inr ((h.unresolved p hp).resolve_left nofun)
    · exact .inl (congrArg some hp.symm)

theorem newFailed (e : WalletsError) : (w.newFailed e).Owned none := by
  refine ⟨h.work, h.processor, h.created_append _, h.unique, nofun, fun p hp => ?_⟩
  rcases getElem?_append_unresolved hp with hp | ⟨-, hx⟩
  · exact h.unresolved p hp
  · cases hx

theorem tickLoop (now fuel : ℕ) : (Wallets.tickLoop cfg now fuel w).Owned none := by
  induction fuel generalizing w with
  | zero => exact h
  | succ fuel ih =>
    rw [Wallets.tickLoop]
    split
    · exact h
    · refine ih (Owned.enqueueCacheWork ?_ _ _ _)
      exact h.congr rfl rfl rfl

theorem send {wallet : WalletId} {destination : Account} {amount : Amount}
    {generateWork : Bool} {id : Option String}
    (hsend : w.send cfg wallet source destination amount work generateWork id = .ok w') :
    w'.Owned none := by
  rw [Wallets.send] at hsend
  split at hsend
  · cases hsend
    exact h.newFailed _
  · split at hsend
    · cases hsend
      exact h.newFailed _
    · split at hsend
      · cases hsend
        exact h.newFailed _
      · obtain ⟨⟨w1, prepared⟩, hprepare, hsend⟩ := bind_eq_ok.mp hsend
        cases hsend
        refine Owned.completeSend ?_ _ _ _ _
        cases id with
        | some id => exact h.newPromise.prepareSendWithId hprepare
        | none =>
          obtain ⟨r, -, hr⟩ := map_eq_ok.mp hprepare
          cases hr
          exact h.newPromise

theorem change {wallet : WalletId} {representative : PublicKey} {generateWork : Bool}
    (hchg : w.change cfg wallet source representative work generateWork = .ok w') :
    w'.Owned none := by
  rw [Wallets.change] at hchg
  split at hchg
  · cases hchg
    exact h.newFailed _
  · split at hchg
    · cases hchg
      exact h.newFailed _
    · split at hchg
      · split at hchg
        · cases hchg
        · cases hchg
          exact h.newPromise.actionComplete _ _ _ _ _
      · cases hchg
        exact h.newFailed _

theorem receive (wallet : WalletId) (sendHash : BlockHash) (representative : PublicKey)
    (amount : Amount) (account : Account) (work : WorkNonce) (generateWork : Bool) :
    (w.receive cfg wallet sendHash representative amount account work generateWork).Owned none := by
  rw [Wallets.receive]
  split
  · exact h.newFailed _
  · split
    · exact h.newFailed _
    · split
      · exact h.newFailed _
      · exact h.newPromise.actionComplete _ _ _ _ _

theorem searchReceivable (wallet : WalletId) :
    (w.searchReceivable cfg wallet).Owned none := by
  rw [Wallets.searchReceivable]
  split
  · exact h.newFailed _
  · next s _ =>
    split
    · exact h.newFailed _
    · have hfold : ∀ (found : List (Account × BlockHash × Amount)) (w : Wallets), w.Owned none →
          (found.foldl (fun w x =>
            w.receive cfg wallet x.2.1 s.representative x.2.2 x.1 0 true) w).Owned none := by
        intro found
        induction found with
        | nil => exact fun _ h => h
        | cons x found ih => exact fun w h => ih _ (h.receive _ _ _ _ _ _ _)
      exact hfold _ _ h

theorem provideWork (root : Root) (work : Option WorkNonce) :
    (w.provideWork root work).Owned none := by
  have hans : ({ w with waitingForWork := w.waitingForWork.answer root } : Wallets).Owned
      ((w.waitingForWork.entries.get root).bind WorkItem.promise) :=
    h.exchangeWork (moved_take _) rfl rfl exchanged_answer
  unfold Wallets.provideWork
  dsimp only
  split
  · next hget =>
    rw [hget] at hans
    exact hans
  · next block promise generateWork wallet hget =>
    rw [hget] at hans
    split
    · exact Owned.enqueueBlock hans _ _ _
    · exact Owned.setResult hans _
  · next wallet account hget =>
    rw [hget] at hans
    split
    · rw [cacheWork]
      split
      · exact hans
      · split
        · exact Owned.congr hans rfl rfl rfl
        · exact hans
    · exact hans

theorem blockProcessed (hash : BlockHash) (result : Option SavedBlock) (now : ℕ) :
    (w.blockProcessed cfg hash result now).Owned none := by
  have hans : ({ w with waitingForProcessor := w.waitingForProcessor.answer hash } :
      Wallets).Owned ((w.waitingForProcessor.entries.get hash).bind (some ·.promise)) :=
    h.exchangeProcessor (moved_take _) rfl rfl exchanged_answer
  unfold Wallets.blockProcessed
  dsimp only
  split
  · next hget =>
    rw [hget] at hans
    exact hans
  · next promise generateWork wallet hget =>
    rw [hget] at hans
    refine Owned.setResult ?_ _
    split
    · exact Owned.congr hans rfl rfl rfl
    · exact hans

/-- Every call keeps the ownership of promises. -/
theorem apply {op : WalletsOperation} (happ : w.apply cfg op = .ok w') : w'.Owned none := by
  cases op with
  | send wallet source destination amount work generateWork id => exact h.send happ
  | change wallet source representative work generateWork => exact h.change happ
  | receive wallet sendHash representative amount account work generateWork =>
    cases happ
    exact h.receive _ _ _ _ _ _ _
  | searchReceivable wallet =>
    cases happ
    exact h.searchReceivable _
  | tick now =>
    cases happ
    exact h.tickLoop _ _
  | provideWork root work =>
    cases happ
    exact h.provideWork _ _
  | blockProcessed hash result now =>
    cases happ
    exact h.blockProcessed _ _ _
  | workEnsure wallet account root now | setQueues workQueue blockQueue | setKeys keys
  | setLedger ledger =>
    cases happ
    exact h.congr rfl rfl rfl

end Owned

end

/-! ### Runs -/

/-- A send whose work is too weak, so that it waits for work. -/
def weakSend : WalletsOperation := .send ⟨1⟩ ⟨devGenesisKey⟩ ⟨devKeyOne⟩ 1 0 false none

/-- The send was called. -/
def devWaiting : Wallets := Machine.result (apply devWalletsConfig) devWallets weakSend

end Wallets

end RsNano
