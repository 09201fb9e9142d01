import RsNano.Wallet.Wallets
import RsNano.Wallet.KeyRun
import RsNano.Ledger.StoredBlock

/-!
# Sends that carry an id

The hash of the block that a send creates is stored under its id before the block is in the
ledger. A later call with the id unwraps the block from the ledger, and panics while it is not
there: before the block is processed, after it was rejected, and after a roll-back. In runs where
this does not happen an id creates one block at most, and calls return that block as long as it is
in the ledger.
-/

namespace RsNano.Wallets

open Ledger

variable {cfg : WalletsConfig} {c : LedgerConstants} {minWeight : Amount} {w w' : Wallets}

/-- What the ids of sends depend on. -/
def idState (w : Wallets) : Ledger × Table String BlockHash × List (String × Block) :=
  (w.ledger, w.sendActionIds, w.created)

section

variable (w) (wallet : WalletId) (account : Account) (block : Block) (promise : PromiseId)
  (request : WorkRequest) (generateWork : Bool)

@[simp] theorem idState_newPromise : w.newPromise.idState = w.idState := rfl

@[simp] theorem idState_enqueueBlockWork :
    (w.enqueueBlockWork request block promise generateWork wallet).idState = w.idState := by
  rw [enqueueBlockWork]
  split <;> rfl

@[simp] theorem idState_enqueueCacheWork :
    (w.enqueueCacheWork request wallet account).idState = w.idState := by
  rw [enqueueCacheWork]
  split <;> rfl

@[simp] theorem idState_enqueueBlock :
    (w.enqueueBlock block promise generateWork wallet).idState = w.idState := by
  rw [enqueueBlock]
  split <;> rfl

@[simp] theorem idState_actionComplete (details : BlockDetails) :
    (w.actionComplete cfg wallet block account generateWork details promise).idState =
      w.idState := by
  rw [actionComplete]
  split
  · rw [idState_enqueueBlockWork]
    rfl
  · rw [idState_enqueueBlock]
    rfl

@[simp] theorem idState_completeSend (source : Account) (prepared : Option PreparedSend) :
    (w.completeSend cfg wallet source generateWork promise prepared).idState = w.idState := by
  match prepared with
  | none => rfl
  | some (.cached block) => rfl
  | some (.new block details) => exact idState_actionComplete _ _ _ _ _ _ _

@[simp] theorem idState_receive (sendHash : BlockHash) (representative : PublicKey)
    (amount : Amount) (work : WorkNonce) :
    (w.receive cfg wallet sendHash representative amount account work generateWork).idState =
      w.idState := by
  rw [receive]
  split
  · rfl
  · split
    · rfl
    · split
      · rfl
      · rw [idState_actionComplete, idState_newPromise]

theorem idState_tickLoop (now fuel : ℕ) : (tickLoop cfg now fuel w).idState = w.idState := by
  induction fuel generalizing w with
  | zero => rfl
  | succ fuel ih =>
    rw [tickLoop]
    split
    · rfl
    · rw [ih, idState_enqueueCacheWork]
      rfl

theorem idState_searchReceivable : (w.searchReceivable cfg wallet).idState = w.idState := by
  rw [searchReceivable]
  split
  · rfl
  · split
    · rfl
    · next s _ _ =>
      have hfold : ∀ (found : List (Account × BlockHash × Amount)) (w : Wallets),
          (found.foldl (fun w x =>
            w.receive cfg wallet x.2.1 s.representative x.2.2 x.1 0 true) w).idState =
            w.idState := by
        intro found
        induction found with
        | nil => exact fun _ => rfl
        | cons x found ih =>
          intro w
          rw [List.foldl_cons, ih, idState_receive]
      exact hfold _ _

theorem idState_provideWork (root : Root) (work : Option WorkNonce) :
    (w.provideWork root work).idState = w.idState := by
  unfold provideWork
  dsimp only
  split
  · rfl
  · split
    · rw [idState_enqueueBlock]
      rfl
    · rfl
  · split
    · rw [cacheWork]
      split
      · rfl
      · split <;> rfl
    · rfl

theorem idState_blockProcessed (hash : BlockHash) (result : Option SavedBlock) (now : ℕ) :
    (w.blockProcessed cfg hash result now).idState = w.idState := by
  unfold blockProcessed
  dsimp only
  split
  · rfl
  · split <;> rfl

end

section

variable {s : WalletStore} {source : Account} {id : String}
  (destination : Account) (amount : Amount) (work : WorkNonce)

/-- An account with a balance is in the ledger. -/
theorem getAccount_of_accountBalance {l : Ledger} (h : l.accountBalance source ≠ 0) :
    ∃ info, l.getAccount source = some info := by
  cases hget : l.getAccount source with
  | some info => exact ⟨info, rfl⟩
  | none =>
    rw [accountBalance, accountHead, hget] at h
    exact absurd rfl h

/-- Preparing a send returns if the wallet has the key, and its block is a new one. -/
theorem prepareSend_eq_ok (hkey : (s.fetch cfg.keys (source.into .publicKey)).isOk = true) :
    ∃ r, w.prepareSend cfg s source destination amount work = .ok r ∧
      ∀ block, r ≠ some (.cached block) := by
  rw [prepareSend]
  split
  · exact ⟨none, rfl, by simp⟩
  · split
    · exact ⟨none, rfl, by simp⟩
    · next hbal =>
      obtain ⟨info, hinfo⟩ := getAccount_of_accountBalance (not_or.mp hbal).1
      rw [hinfo]
      dsimp only
      split
      · next hfetch =>
        rw [hfetch] at hkey
        cases hkey
      · exact ⟨_, rfl, by simp⟩

/-- A new id is stored with the block that is created for it. -/
theorem prepareSendWithId_of_none (hnone : w.sendActionIds.get id = none)
    (hkey : (s.fetch cfg.keys (source.into .publicKey)).isOk = true) :
    ∃ w' r, w.prepareSendWithId cfg id s source destination amount work = .ok (w', r) ∧
      (w'.idState = w.idState ∨ ∃ block : Block, w'.idState =
        (w.ledger, w.sendActionIds.put id block.hash, w.created ++ [(id, block)])) := by
  obtain ⟨r, hr, hcached⟩ := prepareSend_eq_ok destination amount work hkey
  rw [prepareSendWithId, hnone]
  rw [hr]
  match r with
  | none => exact ⟨w, none, rfl, .inl rfl⟩
  | some (.cached block) => exact absurd rfl (hcached block)
  | some (.new block details) => exact ⟨_, _, rfl, .inr ⟨block, rfl⟩⟩

/-- The block of a stored id comes from the ledger. -/
theorem prepareSendWithId_of_some {hash : BlockHash} {block : SavedBlock}
    (hst : w.sendActionIds.get id = some hash) (hblk : w.ledger.getBlock hash = some block) :
    w.prepareSendWithId cfg id s source destination amount work =
      .ok (w, some (.cached block)) := by
  rw [prepareSendWithId, hst]
  dsimp only
  rw [hblk]
  rfl

end

/-- An unlocked wallet that knows the account has its private key. -/
def HasKey (cfg : WalletsConfig) (w : Wallets) (wallet : WalletId) (source : Account) : Prop :=
  ∀ s ∈ w.keys.stores.get wallet, s.validPassword cfg.keys = true →
    (s.find (source.into .publicKey)).isSome = true →
      (s.fetch cfg.keys (source.into .publicKey)).isOk = true

instance (wallet : WalletId) (source : Account) : Decidable (HasKey cfg w wallet source) := by
  unfold HasKey
  infer_instance

/-- The block of an id is in the ledger if there is one. -/
def InLedger (w : Wallets) (id : String) : Prop :=
  ∀ hash ∈ w.sendActionIds.get id, (w.ledger.getBlock hash).isSome = true

instance (id : String) : Decidable (InLedger w id) := by
  unfold InLedger
  infer_instance

/-- Sources have private keys, and the ledger changes by its own steps. -/
def Keyed (cfg : WalletsConfig) (c : LedgerConstants) (w : Wallets) : WalletsOperation → Prop
  | .send wallet source _ _ _ _ _ => HasKey cfg w wallet source
  | .change wallet source _ _ _ => HasKey cfg w wallet source
  | .setLedger l' => Step c w.ledger l'
  | _ => True

/-- A send only names an id whose block is in the ledger, or an id that was not used. -/
def Sparing (w : Wallets) : WalletsOperation → Prop
  | .send _ _ _ _ _ _ (some id) => w.InLedger id
  | _ => True

variable {wallet : WalletId} {source : Account} {work : WorkNonce} {generateWork : Bool}

/-- A send without an id, or by a wallet that does not know the account, does not touch ids. -/
theorem send_spec {destination : Account} {amount : Amount} {id : Option String}
    (hkey : HasKey cfg w wallet source) (hid : ∀ x ∈ id, w.InLedger x) :
    ∃ w', w.send cfg wallet source destination amount work generateWork id = .ok w' ∧
      (w'.idState = w.idState ∨ ∃ x ∈ id, w.sendActionIds.get x = none ∧ ∃ block : Block,
        w'.idState = (w.ledger, w.sendActionIds.put x block.hash, w.created ++ [(x, block)])) := by
  rw [send]
  split
  · exact ⟨_, rfl, .inl rfl⟩
  · next s hget =>
    split
    · exact ⟨_, rfl, .inl rfl⟩
    · next hval =>
      split
      · exact ⟨_, rfl, .inl rfl⟩
      · next hfind =>
        have hfetch := hkey s hget (by simpa using hval)
          (Option.isSome_iff_ne_none.mpr (by simpa using hfind))
        cases id with
        | none =>
          obtain ⟨r, hr, -⟩ := prepareSend_eq_ok destination amount work hfetch
          rw [hr]
          exact ⟨_, rfl, .inl (idState_completeSend _ _ _ _ _ _)⟩
        | some x =>
          cases hst : w.sendActionIds.get x with
          | none =>
            obtain ⟨w1, r, hr, hw1⟩ := prepareSendWithId_of_none (w := w.newPromise)
              destination amount work hst hfetch
            refine ⟨_, congrArg (· >>= _) hr, ?_⟩
            rw [idState_completeSend]
            exact hw1.imp_right fun hblk => ⟨x, rfl, hst, hblk⟩
          | some hash =>
            obtain ⟨block, hblk⟩ := Option.isSome_iff_exists.mp (hid x rfl hash hst)
            refine ⟨_, congrArg (· >>= _) (prepareSendWithId_of_some (w := w.newPromise)
              destination amount work hst hblk), ?_⟩
            exact .inl rfl

theorem change_spec {representative : PublicKey} (hkey : HasKey cfg w wallet source) :
    ∃ w', w.change cfg wallet source representative work generateWork = .ok w' ∧
      w'.idState = w.idState := by
  rw [change]
  split
  · exact ⟨_, rfl, rfl⟩
  · next s hget =>
    split
    · exact ⟨_, rfl, rfl⟩
    · next hval =>
      split
      · next value info hfind hinfo =>
        have hfetch := hkey s hget (by simpa using hval) (by rw [hfind]; rfl)
        split
        · next herr =>
          rw [herr] at hfetch
          cases hfetch
        · exact ⟨_, rfl, idState_actionComplete _ _ _ _ _ _ _⟩
      · exact ⟨_, rfl, rfl⟩

/-- The stored ids are those of the created blocks, each of which has its own id. -/
structure Recorded (c : LedgerConstants) (minWeight : Amount) (w : Wallets) : Prop where
  ledger : Reachable c minWeight w.ledger
  stored : ∀ id hash, w.sendActionIds.get id = some hash ↔
    ∃ b, (id, b) ∈ w.created ∧ b.hash = hash
  nodup : (w.created.map Prod.fst).Nodup

theorem Recorded.congr (h : Recorded c minWeight w) (hw : w'.idState = w.idState) :
    Recorded c minWeight w' := by
  obtain ⟨hledger, hids⟩ := Prod.ext_iff.mp hw
  obtain ⟨hst, hcreated⟩ := Prod.ext_iff.mp hids
  change w'.ledger = w.ledger at hledger
  change w'.sendActionIds = w.sendActionIds at hst
  change w'.created = w.created at hcreated
  refine ⟨?_, ?_, ?_⟩
  · rw [hledger]
    exact h.ledger
  · rw [hst, hcreated]
    exact h.stored
  · rw [hcreated]
    exact h.nodup

/-- A new id with its block. -/
theorem Recorded.put (h : Recorded c minWeight w) {id : String} {block : Block}
    (hnone : w.sendActionIds.get id = none)
    (hw : w'.idState = (w.ledger, w.sendActionIds.put id block.hash, w.created ++ [(id, block)])) :
    Recorded c minWeight w' := by
  have hnew : ∀ b, (id, b) ∉ w.created := by
    intro b hb
    cases hnone.symm.trans ((h.stored id b.hash).mpr ⟨b, hb, rfl⟩)
  refine Recorded.congr (w := { w with
    sendActionIds := w.sendActionIds.put id block.hash
    created := w.created ++ [(id, block)] }) ⟨h.ledger, fun x hash => ?_, ?_⟩ hw
  · by_cases hx : x = id
    · subst hx
      simp [hnew]
    · rw [Table.get_put_of_ne _ _ hx, h.stored]
      simp [hx]
  · rw [List.map_append]
    refine List.nodup_append.mpr ⟨h.nodup, by simp, ?_⟩
    rintro x hx y hy rfl
    obtain ⟨⟨x', b⟩, hb, rfl⟩ := List.mem_map.mp hx
    cases List.mem_singleton.mp hy
    exact hnew b hb

/-- Sparing calls do not panic, and keep the record of ids. -/
theorem Recorded.apply (h : Recorded c minWeight w) {op : WalletsOperation}
    (hkeyed : Keyed cfg c w op) (hsparing : Sparing w op) :
    ∃ w', w.apply cfg op = .ok w' ∧ Recorded c minWeight w' := by
  cases op with
  | send wallet source destination amount work generateWork id =>
    have hid : ∀ x ∈ id, w.InLedger x := by
      rintro x rfl
      exact hsparing
    obtain ⟨w', hw', hst⟩ := send_spec hkeyed hid
    refine ⟨w', hw', ?_⟩
    rcases hst with hst | ⟨x, -, hnone, block, hst⟩
    · exact h.congr hst
    · exact h.put hnone hst
  | change wallet source representative work generateWork =>
    obtain ⟨w', hw', hst⟩ := change_spec hkeyed
    exact ⟨w', hw', h.congr hst⟩
  | receive wallet sendHash representative amount account work generateWork =>
    exact ⟨_, rfl, h.congr (idState_receive _ _ _ _ _ _ _ _)⟩
  | searchReceivable wallet => exact ⟨_, rfl, h.congr (idState_searchReceivable _ _)⟩
  | tick now => exact ⟨_, rfl, h.congr (idState_tickLoop _ _ _)⟩
  | provideWork root work => exact ⟨_, rfl, h.congr (idState_provideWork _ _ _)⟩
  | blockProcessed hash result now =>
    exact ⟨_, rfl, h.congr (idState_blockProcessed _ _ _ _)⟩
  | workEnsure wallet account root now | setQueues workQueue blockQueue
  | setKeys keys => exact ⟨_, rfl, h.congr rfl⟩
  | setLedger ledger => exact ⟨_, rfl, h.ledger.tail hkeyed, h.stored, h.nodup⟩

/-- Runs in which sources have private keys, from the start of the node. -/
def Run (cfg : WalletsConfig) (c : LedgerConstants) (minWeight : Amount)
    (allowed : Wallets → WalletsOperation → Prop) : Wallets → Prop :=
  Machine.Run (apply cfg) (fun w op => Keyed cfg c w op ∧ allowed w op)
    (new (.genesis c minWeight))

theorem recorded_new : Recorded c minWeight (new (.genesis c minWeight)) :=
  ⟨.refl, fun _ _ => by simp [new], List.nodup_nil⟩

theorem Run.recorded (h : Run cfg c minWeight Sparing w) : Recorded c minWeight w :=
  Machine.Run.invariant h recorded_new fun hw hop happ => by
    obtain ⟨w1, hw1, hrec⟩ := hw.apply hop.1 hop.2
    cases hw1.symm.trans happ
    exact hrec

/-- A call with a stored id returns the block from the ledger. -/
theorem send_of_stored {destination : Account} {amount : Amount} {id : String} {hash : BlockHash}
    {block : SavedBlock} {s : WalletStore} (hget : w.keys.stores.get wallet = some s)
    (hval : s.validPassword cfg.keys = true)
    (hfind : (s.find (source.into .publicKey)).isSome = true)
    (hst : w.sendActionIds.get id = some hash) (hblk : w.ledger.getBlock hash = some block) :
    w.send cfg wallet source destination amount work generateWork (some id) =
      .ok { w with promises := w.promises ++ [some (.ok block)] } := by
  have hnone : ¬ (s.find (source.into .publicKey)).isNone = true := by
    simpa [Option.isSome_iff_ne_none] using hfind
  rw [send, hget]
  dsimp only
  rw [if_neg (by simp [hval]), if_neg hnone, prepareSendWithId_of_some (w := w.newPromise)
    destination amount work hst hblk]
  change Except.ok { w with promises := (w.promises ++ [none]).set w.promises.length _ } = _
  rw [List.set_append_right _ _ le_rfl, Nat.sub_self]
  rfl

/-- In every run of sparing calls no call panics, an id creates one block at most, and while that
block is in the ledger a call with the id returns it. -/
theorem run_sendIds (h : Run cfg c minWeight Sparing w) :
    (∀ op, Keyed cfg c w op → Sparing w op → ∃ w', w.apply cfg op = .ok w') ∧
    (w.created.map Prod.fst).Nodup ∧
    ∀ id b block, (id, b) ∈ w.created → w.ledger.getBlock b.hash = some block →
      block.hash = b.hash ∧
      ∀ wallet source destination amount work generateWork,
        (∃ s, w.keys.stores.get wallet = some s ∧ s.validPassword cfg.keys = true ∧
          (s.find (source.into .publicKey)).isSome = true) →
        w.send cfg wallet source destination amount work generateWork (some id) =
          .ok { w with promises := w.promises ++ [some (.ok block)] } := by
  have hw := h.recorded
  refine ⟨fun op hkeyed hsparing => ?_, hw.nodup, fun id b block hb hblock => ⟨?_, ?_⟩⟩
  · obtain ⟨w', hw', -⟩ := hw.apply hkeyed hsparing
    exact ⟨w', hw'⟩
  · rw [getBlock, if_neg b.hash_ne_zero] at hblock
    exact hw.ledger.chained.linked.hash_eq hblock
  · rintro wallet source - - - - ⟨s, hget, hvalid, hfind⟩
    exact send_of_stored hget hvalid hfind ((hw.stored id b.hash).mpr ⟨b, hb, rfl⟩) hblock

/-! ### A wallet on the dev network -/

/-- Key functions by which every private key belongs to the genesis account. -/
def devKeys : KeyFunctions :=
  { WalletKeys.xorKeys with publicKey := fun _ => ⟨devGenesisKey⟩ }

def devWalletsConfig : WalletsConfig where
  keys := devKeys
  blake2b := constBlake2b devSend.hash devSend.hash_ne_zero
  sign := fun _ _ => devSend.signature
  work := devConstants.work
  receiveMinimum := 1
  cachedWorkGenerationDelay := 1

/-- A wallet with a key of the genesis account. -/
def devWalletKeys : WalletKeys :=
  [KeyOperation.create ⟨1⟩ WalletKeys.exampleSecrets, .insertAdhoc ⟨1⟩ WalletKeys.exampleKey].foldl
    (Machine.result (WalletKeys.apply devKeys)) .empty

/-- The node with that wallet. -/
def devKeyed : Wallets := { new (.genesis devConstants 0) with keys := devWalletKeys }

/-- The wallet is connected to its queues. -/
def devWallets : Wallets :=
  { devKeyed with
    workQueue := .connected
    blockQueue := .connected }

/-- A send of one raw to the account of the first key. -/
def devSendOperation (id : Option String) : WalletsOperation :=
  .send ⟨1⟩ ⟨devGenesisKey⟩ ⟨devKeyOne⟩ 1 devSend.work false id

/-- The send was called with an id. -/
def devRequested : Wallets :=
  Machine.result (apply devWalletsConfig) devWallets (devSendOperation (some "a"))

/-- Runs on the dev network. -/
abbrev DevRun (allowed : Wallets → WalletsOperation → Prop) : Wallets → Prop :=
  Machine.Run (apply devWalletsConfig) allowed (new (.genesis devConstants 0))

variable {allowed : Wallets → WalletsOperation → Prop}

/-- The node gets to the wallet of the dev network. -/
theorem run_devWallets (hkeys : ∀ w keys, allowed w (.setKeys keys))
    (hqueues : ∀ w workQueue blockQueue, allowed w (.setQueues workQueue blockQueue)) :
    DevRun allowed devWallets := by
  have hkeyed : DevRun allowed devKeyed := .single ⟨.setKeys devWalletKeys, hkeys _ _, rfl⟩
  exact hkeyed.tail ⟨.setQueues .connected .connected, hqueues _ _ _, rfl⟩

theorem run_devRequested (h : Run devWalletsConfig devConstants 0 allowed devWallets)
    (hok : allowed devWallets (devSendOperation (some "a"))) :
    Run devWalletsConfig devConstants 0 allowed devRequested := by
  have hkeyed : HasKey devWalletsConfig devWallets ⟨1⟩ ⟨devGenesisKey⟩ := by
    decide +kernel
  exact Machine.Run.result h ⟨hkeyed, hok⟩ (by decide +kernel)

/-- The block of the send is in the ledger. -/
def devProcessed : Wallets := { devRequested with ledger := devSent }

/-- Once the block is in the ledger, another call with the id returns it. -/
theorem sendIds_devSend : ∃ block, devProcessed.ledger.getBlock devSend.hash = some block ∧
    devProcessed.send devWalletsConfig ⟨1⟩ ⟨devGenesisKey⟩ ⟨devKeyOne⟩ 1 0 false (some "a") =
      .ok { devProcessed with promises := devProcessed.promises ++ [some (.ok block)] } := by
  have hunused : InLedger devWallets "a" := by
    decide +kernel
  have hrequested : Run devWalletsConfig devConstants 0 Sparing devRequested := by
    refine run_devRequested (run_devWallets ?_ ?_) hunused
    · exact fun _ _ => ⟨trivial, trivial⟩
    · exact fun _ _ _ => ⟨trivial, trivial⟩
  have hledger : devRequested.ledger = .genesis devConstants 0 := by
    decide +kernel
  have hstep : Step devConstants devRequested.ledger devSent := by
    rw [hledger]
    exact .insert (.state devSend) (inserts_processed (by decide +kernel))
  have hsent : Run devWalletsConfig devConstants 0 Sparing devProcessed :=
    hrequested.tail ⟨.setLedger devSent, ⟨hstep, trivial⟩, rfl⟩
  have hcreated : ("a", Block.state devSend) ∈ devProcessed.created := by
    decide +kernel
  have hblock : (devProcessed.ledger.getBlock devSend.hash).isSome = true := by
    decide +kernel
  have hwallet : ((devProcessed.keys.stores.get ⟨1⟩).any fun s =>
      s.validPassword devKeys && (s.find ⟨devGenesisKey⟩).isSome) = true := by
    decide +kernel
  obtain ⟨block, hblock⟩ := Option.isSome_iff_exists.mp hblock
  obtain ⟨s, hget, hs⟩ := (Option.any_eq_true _ _).mp hwallet
  obtain ⟨hvalid, hfind⟩ := (Bool.and_eq_true _ _).mp hs
  have hsend := (run_sendIds hsent).2.2 "a" (.state devSend) block hcreated hblock
  exact ⟨block, hblock, hsend.2 ⟨1⟩ ⟨devGenesisKey⟩ ⟨devKeyOne⟩ 1 0 false
    ⟨s, hget, hvalid, hfind⟩⟩

/-- Another call with the id panics while the block is not in the ledger. -/
theorem exists_send_panic : ∃ (cfg : WalletsConfig) (c : LedgerConstants) (minWeight : Amount)
    (w : Wallets) (wallet : WalletId) (source destination : Account) (amount : Amount)
    (work : WorkNonce) (id : String), Run cfg c minWeight (fun _ _ => True) w ∧
      HasKey cfg w wallet source ∧
      w.send cfg wallet source destination amount work false (some id) = .error .missingBlock := by
  refine ⟨devWalletsConfig, devConstants, 0, devRequested, ⟨1⟩, ⟨devGenesisKey⟩, ⟨devKeyOne⟩, 1,
    devSend.work, "a", ?_, by decide +kernel, ?_⟩
  · refine run_devRequested (run_devWallets ?_ ?_) trivial
    · exact fun _ _ => ⟨trivial, trivial⟩
    · exact fun _ _ _ => ⟨trivial, trivial⟩
  · have hpanic : (match devRequested.send devWalletsConfig ⟨1⟩ ⟨devGenesisKey⟩ ⟨devKeyOne⟩ 1
        devSend.work false (some "a") with
      | .error .missingBlock => true
      | _ => false) = true := by
      decide +kernel
    split at hpanic
    · next h => exact h
    · cases hpanic

end RsNano.Wallets
