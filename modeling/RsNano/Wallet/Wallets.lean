import RsNano.Wallet.KeyOperations
import RsNano.Wallet.DelayedWork
import RsNano.Types.BlockCodec
import RsNano.Ledger.Run
import RsNano.Lib.Waiting

/-!
# Blocks that wallets create

A call that creates a block returns a promise. If the work of the block is too weak, the block
waits for new work under its root; otherwise it goes to the block processor and its promise waits
under the hash of the block. Each queue may not be set up or its other end may be gone, and then
the promise fails at once.

Calls are atomic: a call sees one state of the ledger, which other parts of the node change. A
send that carries an id stores the hash of its block under the id. Panics are errors that end a
run. Database errors and log messages are left out. The entries that are displaced and the blocks
that were created for an id are history variables, and so is the list of what was sent.
-/

namespace RsNano

/-- Why a promise fails. -/
inductive WalletsError
  | generic
  | walletNotFound
  | walletLocked
  | accountNotFound
  | invalidPassword
  | badPublicKey
  deriving DecidableEq, Repr

/-- The values that are unwrapped without a check. -/
inductive WalletsPanic
  | missingBlock
  | missingAccount
  | missingKey
  deriving DecidableEq, Repr

structure WalletsConfig where
  keys : KeyFunctions
  blake2b : Blake2b
  sign : RawKey → BlockHash → Signature
  work : WorkThresholds
  receiveMinimum : Amount
  cachedWorkGenerationDelay : ℕ

structure WorkRequest where
  root : Root
  difficulty : ℕ

/-- A promise by its number of creation. -/
abbrev PromiseId := ℕ

/-- What waits for work. -/
inductive WorkItem
  | blockWork (block : Block) (promise : PromiseId) (generateWork : Bool) (wallet : WalletId)
  | cache (wallet : WalletId) (account : Account)

/-- What waits for the block processor. -/
structure ProcessorItem where
  promise : PromiseId
  generateWork : Bool
  wallet : WalletId

/-- The sending end of a channel. -/
inductive Queue
  | missing
  | connected
  | disconnected
  deriving DecidableEq, Repr

structure Wallets where
  keys : WalletKeys
  ledger : Ledger
  sendActionIds : Table String BlockHash
  delayedWork : DelayedWorkQueue
  workQueue : Queue
  blockQueue : Queue
  waitingForWork : Waiting Root WorkItem
  waitingForProcessor : Waiting BlockHash ProcessorItem
  promises : List (Option (Except WalletsError SavedBlock))
  workSent : List WorkRequest
  blocksSent : List Block
  created : List (String × Block)

inductive PreparedSend
  | cached (block : SavedBlock)
  | new (block : Block) (details : BlockDetails)

/-- A state block that is signed by a key. -/
def StateBlock.ofArgs (cfg : WalletsConfig) (key : RawKey) (previous : BlockHash)
    (representative : PublicKey) (balance : Amount) (link : Link) (work : WorkNonce) : Block :=
  let account := (cfg.keys.publicKey key).into .account
  let unsigned := StateBlock.new cfg.blake2b account previous representative balance link 0 work
  .state { unsigned with signature := cfg.sign key unsigned.hash }

namespace WalletStore

/-- The work that is stored with a key. -/
def workGet (s : WalletStore) (pubKey : PublicKey) : Option WorkNonce :=
  if (s.entryGetRaw pubKey).key ≠ 0 then some (s.entryGetRaw pubKey).work else none

def representative (s : WalletStore) : PublicKey :=
  (s.entryGetRaw representativeSpecial).key.into .publicKey

/-- The accounts of a wallet in the order of their public keys. -/
def iter (s : WalletStore) : List PublicKey :=
  (s.entries.sortedKeys U256.byteLe).filter (validPublicKey ·)

end WalletStore

/-- The receivable sends of an account in the order of their hashes. -/
def Ledger.accountReceivable (l : Ledger) (account : Account) : List (BlockHash × PendingInfo) :=
  let keys := (Finmap.keys l.pending).val.filter fun key =>
    key.receivingAccount = account ∧ key.sendBlockHash ≠ 0
  ((keys.map PendingKey.sendBlockHash).sort U256.byteLe).filterMap fun hash =>
    (l.getPending ⟨account, hash⟩).map fun info => (hash, info)

namespace Wallets

variable (cfg : WalletsConfig) (w : Wallets)

/-- No wallets yet, and no channels. -/
def new (ledger : Ledger) : Wallets where
  keys := .empty
  ledger := ledger
  sendActionIds := ∅
  delayedWork := .empty
  workQueue := .missing
  blockQueue := .missing
  waitingForWork := ∅
  waitingForProcessor := ∅
  promises := []
  workSent := []
  blocksSent := []
  created := []

/-! ### Promises -/

def newPromise : Wallets := { w with promises := w.promises ++ [none] }

def newFailed (e : WalletsError) : Wallets := { w with promises := w.promises ++ [some (.error e)] }

def setResult (promise : PromiseId) (result : Except WalletsError SavedBlock) : Wallets :=
  { w with promises := w.promises.set promise (some result) }

/-! ### Queues -/

def enqueueBlockWork (request : WorkRequest) (block : Block) (promise : PromiseId)
    (generateWork : Bool) (wallet : WalletId) : Wallets :=
  match w.workQueue with
  | .missing => w.setResult promise (.error .generic)
  | .connected =>
    { w with
      waitingForWork := w.waitingForWork.request block.root
        (.blockWork block promise generateWork wallet)
      workSent := w.workSent ++ [request] }
  | .disconnected =>
    ({ w with waitingForWork := w.waitingForWork.requestFailed block.root } : Wallets).setResult
      promise (.error .generic)

def enqueueCacheWork (request : WorkRequest) (wallet : WalletId) (account : Account) : Wallets :=
  match w.workQueue with
  | .missing => w
  | .connected =>
    { w with
      waitingForWork := w.waitingForWork.request request.root (.cache wallet account)
      workSent := w.workSent ++ [request] }
  | .disconnected => { w with waitingForWork := w.waitingForWork.requestFailed request.root }

def enqueueBlock (block : Block) (promise : PromiseId) (generateWork : Bool) (wallet : WalletId) :
    Wallets :=
  match w.blockQueue with
  | .missing => w.setResult promise (.error .generic)
  | .connected =>
    { w with
      waitingForProcessor := w.waitingForProcessor.request block.hash
        ⟨promise, generateWork, wallet⟩
      blocksSent := w.blocksSent ++ [block] }
  | .disconnected =>
    ({ w with waitingForProcessor := w.waitingForProcessor.requestFailed block.hash } :
      Wallets).setResult promise (.error .generic)

/-- Work for the next block of an account is scheduled. -/
def workEnsure (wallet : WalletId) (account : Account) (root : Root) (now : ℕ) : Wallets :=
  { w with delayedWork :=
      w.delayedWork.insert wallet account root (now + cfg.cachedWorkGenerationDelay) }

/-- A block is complete, apart from its work. -/
def actionComplete (wallet : WalletId) (block : Block) (account : Account) (generateWork : Bool)
    (details : BlockDetails) (promise : PromiseId) : Wallets :=
  let w := { w with delayedWork := w.delayedWork.remove account }
  let requiredDifficulty := cfg.work.threshold details
  if cfg.work.difficultyBlock block < requiredDifficulty then
    w.enqueueBlockWork ⟨block.root, requiredDifficulty⟩ block promise generateWork wallet
  else w.enqueueBlock block promise generateWork wallet

/-- Take the work that is due, at most as often as there is fuel. -/
def tickLoop (now : ℕ) : ℕ → Wallets → Wallets
  | 0, w => w
  | fuel + 1, w =>
    match w.delayedWork.pop now with
    | none => w
    | some ((wallet, account, root), delayedWork) =>
      tickLoop now fuel (({ w with delayedWork } : Wallets).enqueueCacheWork
        ⟨root, cfg.work.thresholdBase⟩ wallet account)

def tick (now : ℕ) : Wallets := tickLoop cfg now w.delayedWork.byDate.length w

/-! ### Creating blocks -/

/-- The work of a new block is the given one or the one stored with the key. -/
def chooseWork (s : WalletStore) (account : Account) (work : WorkNonce) : WorkNonce :=
  if work = 0 then (s.workGet (account.into .publicKey)).getD 0 else work

/-- The block of a send, or nothing if the wallet is locked or the balance is too low. -/
def prepareSend (s : WalletStore) (source destination : Account) (amount : Amount)
    (work : WorkNonce) : Except WalletsPanic (Option PreparedSend) :=
  let balance := w.ledger.accountBalance source
  if s.validPassword cfg.keys = false then return none
  else if balance = 0 ∨ balance < amount then return none
  else
    match w.ledger.getAccount source with
    | none => .error .missingAccount
    | some info =>
      match s.fetch cfg.keys (source.into .publicKey) with
      | .error _ => .error .missingKey
      | .ok prv =>
        return some (.new (StateBlock.ofArgs cfg prv info.head info.representative
          (balance - amount) (destination.into .link) (chooseWork s source work))
          ⟨info.epoch, true, false, false⟩)

/-- A send with an id creates a block only for an id that is not stored yet. -/
def prepareSendWithId (id : String) (s : WalletStore) (source destination : Account)
    (amount : Amount) (work : WorkNonce) : Except WalletsPanic (Wallets × Option PreparedSend) :=
  match w.sendActionIds.get id with
  | some hash =>
    match w.ledger.getBlock hash with
    | none => .error .missingBlock
    | some block => return (w, some (.cached block))
  | none => do
    match ← w.prepareSend cfg s source destination amount work with
    | some (.new block details) =>
      return ({ w with
        sendActionIds := w.sendActionIds.put id block.hash
        created := w.created ++ [(id, block)] }, some (.new block details))
    | prepared => return (w, prepared)

/-- The promise of a prepared send is resolved, or its block goes on. -/
def completeSend (wallet : WalletId) (source : Account) (generateWork : Bool)
    (promise : PromiseId) : Option PreparedSend → Wallets
  | some (.cached block) => w.setResult promise (.ok block)
  | some (.new block details) =>
    w.actionComplete cfg wallet block source generateWork details promise
  | none => w.setResult promise (.error .generic)

def send (wallet : WalletId) (source destination : Account) (amount : Amount) (work : WorkNonce)
    (generateWork : Bool) (id : Option String) : Except WalletsPanic Wallets :=
  match w.keys.stores.get wallet with
  | none => return w.newFailed .walletNotFound
  | some s =>
    if s.validPassword cfg.keys = false then return w.newFailed .walletLocked
    else if (s.find (source.into .publicKey)).isNone then return w.newFailed .accountNotFound
    else do
      let promise := w.promises.length
      let (w, prepared) ←
        (match id with
        | some id => w.newPromise.prepareSendWithId cfg id s source destination amount work
        | none => (w.newPromise, ·) <$> w.prepareSend cfg s source destination amount work)
      return w.completeSend cfg wallet source generateWork promise prepared

def change (wallet : WalletId) (source : Account) (representative : PublicKey) (work : WorkNonce)
    (generateWork : Bool) : Except WalletsPanic Wallets :=
  match w.keys.stores.get wallet with
  | none => return w.newFailed .walletNotFound
  | some s =>
    if s.validPassword cfg.keys = false then return w.newFailed .walletLocked
    else
      match s.find (source.into .publicKey), w.ledger.getAccount source with
      | some _, some info =>
        match s.fetch cfg.keys (source.into .publicKey) with
        | .error _ => .error .missingKey
        | .ok prv =>
          let block := StateBlock.ofArgs cfg prv info.head representative info.balance 0
            (chooseWork s source work)
          return w.newPromise.actionComplete cfg wallet block source generateWork
            ⟨info.epoch, false, false, false⟩ w.promises.length
      | _, _ => return w.newFailed .accountNotFound

/-- The block that receives a send, if the ledger and the wallet allow it. -/
def prepareReceive (s : WalletStore) (sendHash : BlockHash) (representative : PublicKey)
    (account : Account) (work : WorkNonce) : Option (Block × Epoch) :=
  if w.ledger.blockExists sendHash = false then none
  else
    match w.ledger.getPending ⟨account, sendHash⟩,
      s.fetch cfg.keys (account.into .publicKey) with
    | some pendingInfo, .ok prv =>
      match w.ledger.getAccount account with
      | some info => some (StateBlock.ofArgs cfg prv info.head info.representative
          (info.balance + pendingInfo.amount) (sendHash.into .link) (chooseWork s account work),
        info.epoch.max pendingInfo.epoch)
      | none => some (StateBlock.ofArgs cfg prv 0 representative pendingInfo.amount
          (sendHash.into .link) (chooseWork s account work), pendingInfo.epoch)
    | _, _ => none

def receive (wallet : WalletId) (sendHash : BlockHash) (representative : PublicKey)
    (amount : Amount) (account : Account) (work : WorkNonce) (generateWork : Bool) : Wallets :=
  match w.keys.stores.get wallet with
  | none => w.newFailed .walletNotFound
  | some s =>
    if amount < cfg.receiveMinimum then w.newFailed .generic
    else
      match w.prepareReceive cfg s sendHash representative account work with
      | none => w.newFailed .generic
      | some (block, epoch) =>
        w.newPromise.actionComplete cfg wallet block account generateWork
          ⟨epoch, false, true, false⟩ w.promises.length

/-- The confirmed sends that a wallet can receive. -/
def receivables (s : WalletStore) : List (Account × BlockHash × Amount) :=
  s.iter.flatMap fun pubKey =>
    if (s.entryGetRaw pubKey).key = 0 then []
    else (w.ledger.accountReceivable (pubKey.into .account)).filterMap fun (hash, info) =>
      if cfg.receiveMinimum ≤ info.amount ∧ w.ledger.isConfirmed hash then
        some (pubKey.into .account, hash, info.amount)
      else none

def searchReceivable (wallet : WalletId) : Wallets :=
  match w.keys.stores.get wallet with
  | none => w.newFailed .walletNotFound
  | some s =>
    if s.validPassword cfg.keys = false then w.newFailed .walletLocked
    else (w.receivables cfg s).foldl (fun w (account, hash, amount) =>
      w.receive cfg wallet hash s.representative amount account 0 true) w

/-! ### Answers -/

/-- Work that was generated in advance is stored with the key if it is still of use. -/
def cacheWork (wallet : WalletId) (account : Account) (root : Root) (work : WorkNonce) : Wallets :=
  match w.keys.stores.get wallet with
  | none => w
  | some s =>
    if s.keyExists (account.into .publicKey) ∧ w.ledger.latestRoot account = root then
      { w with keys := w.keys.put wallet (s.workPut (account.into .publicKey) work) }
    else w

def provideWork (root : Root) (work : Option WorkNonce) : Wallets :=
  let item := w.waitingForWork.entries.get root
  let w := { w with waitingForWork := w.waitingForWork.answer root }
  match item with
  | none => w
  | some (.blockWork block promise generateWork wallet) =>
    match work with
    | some work => w.enqueueBlock (block.setWork work) promise generateWork wallet
    | none => w.setResult promise (.error .generic)
  | some (.cache wallet account) =>
    match work with
    | some work => w.cacheWork wallet account root work
    | none => w

def blockProcessed (hash : BlockHash) (result : Option SavedBlock) (now : ℕ) : Wallets :=
  let item := w.waitingForProcessor.entries.get hash
  let w := { w with waitingForProcessor := w.waitingForProcessor.answer hash }
  match item with
  | none => w
  | some ⟨promise, generateWork, wallet⟩ =>
    let w :=
      match generateWork, result with
      | true, some block => w.workEnsure cfg wallet block.account (block.hash.into .root) now
      | _, _ => w
    w.setResult promise (match result with | some block => .ok block | none => .error .generic)

end Wallets

/-- A call of the wallets, or a change of what they depend on. -/
inductive WalletsOperation
  | send (wallet : WalletId) (source destination : Account) (amount : Amount) (work : WorkNonce)
      (generateWork : Bool) (id : Option String)
  | change (wallet : WalletId) (source : Account) (representative : PublicKey) (work : WorkNonce)
      (generateWork : Bool)
  | receive (wallet : WalletId) (sendHash : BlockHash) (representative : PublicKey)
      (amount : Amount) (account : Account) (work : WorkNonce) (generateWork : Bool)
  | searchReceivable (wallet : WalletId)
  | tick (now : ℕ)
  | provideWork (root : Root) (work : Option WorkNonce)
  | blockProcessed (hash : BlockHash) (result : Option SavedBlock) (now : ℕ)
  | workEnsure (wallet : WalletId) (account : Account) (root : Root) (now : ℕ)
  | setQueues (workQueue blockQueue : Queue)
  | setKeys (keys : WalletKeys)
  | setLedger (ledger : Ledger)

/-- What an operation does. -/
def Wallets.apply (cfg : WalletsConfig) (w : Wallets) :
    WalletsOperation → Except WalletsPanic Wallets
  | .send wallet source destination amount work generateWork id =>
    w.send cfg wallet source destination amount work generateWork id
  | .change wallet source representative work generateWork =>
    w.change cfg wallet source representative work generateWork
  | .receive wallet sendHash representative amount account work generateWork =>
    return w.receive cfg wallet sendHash representative amount account work generateWork
  | .searchReceivable wallet => return w.searchReceivable cfg wallet
  | .tick now => return w.tick cfg now
  | .provideWork root work => return w.provideWork root work
  | .blockProcessed hash result now => return w.blockProcessed cfg hash result now
  | .workEnsure wallet account root now => return w.workEnsure cfg wallet account root now
  | .setQueues workQueue blockQueue => return { w with workQueue, blockQueue }
  | .setKeys keys => return { w with keys }
  | .setLedger ledger => return { w with ledger }

end RsNano
