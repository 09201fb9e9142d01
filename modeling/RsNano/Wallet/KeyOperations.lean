import RsNano.Wallet.WalletStore
import RsNano.Lib.Machine

/-!
# Operations on the keys of wallets

The operations of the node on its wallets, as far as they touch keys. An operation that returns
an error leaves the stored tables alone unless it commits first; a password that was tried stays
in memory. Work that an operation schedules for later is no part of this model, and the blocks
that a change of representative creates are not either.

The password of each wallet is followed in a history variable. What the node draws at random is
an argument of the operation, and so is the parsed content of an imported file.
-/

namespace RsNano

/-- The wallets, with the password that was set last for each of them. -/
structure WalletKeys where
  stores : Table WalletId WalletStore
  passwords : WalletId → String

/-- What is drawn at random for a new wallet. -/
structure WalletSecrets where
  salt : RawKey
  walletKey : RawKey
  seed : RawKey
  representative : PublicKey

namespace WalletStore

variable (F : KeyFunctions)

/-- The first values of a new wallet, encrypted by a zero password. -/
def initial (r : WalletSecrets) : WalletStore :=
  let encrypted := F.encrypt r.walletKey 0 r.salt.initializationVector
  let s : WalletStore := ⟨∅, 0, encrypted⟩
  let s := s.entryPutRaw versionSpecial ⟨⟨BitVec.ofNat 256 versionCurrent⟩, 0⟩
  let s := s.entryPutRaw saltSpecial ⟨r.salt, 0⟩
  let s := s.entryPutRaw walletKeySpecial ⟨encrypted, 0⟩
  let s := s.entryPutRaw checkSpecial ⟨F.encrypt 0 r.walletKey r.salt.initializationVector, 0⟩
  s.entryPutRaw representativeSpecial ⟨r.representative.into .rawKey, 0⟩

/-- The table of a new wallet. -/
def new (r : WalletSecrets) : WalletStore :=
  ((initial F r).setSeed F r.seed).deterministicIndexSet 0

/-- Open the table of a wallet that is there already. -/
def reopen (s : WalletStore) : WalletStore :=
  { s with password := 0, walletKeyMem := (s.entryGetRaw walletKeySpecial).key }

/-- Load a wallet from the entries of a file. -/
def newFromJson (json : List (PublicKey × RawKey)) : Except WalletError WalletStore :=
  let entries := json.foldl (fun t e => t.put e.1 ⟨e.2, 0⟩) (∅ : Table PublicKey WalletValue)
  let s : WalletStore := ⟨entries, 0, 0⟩
  if [versionSpecial, walletKeySpecial, saltSpecial, checkSpecial, representativeSpecial].all
      fun k => (s.find k).isSome
  then .ok s.reopen else .error .accountNotFound

/-- Set the initial password of a wallet: a new one gets the empty password, and for another one
the empty password is tried. -/
def enterInitialPassword (s : WalletStore) : Except WalletPanic WalletStore :=
  if s.password = 0 then
    match s.rekey F "" with
    | .ok s => .ok s
    | .error _ => (·.1) <$> s.attemptPassword F ""
  else .ok s

/-- Add a key that comes from another wallet: the key zero makes the account a watched one. -/
def importKey (s : WalletStore) (pubKey : PublicKey) (prv : RawKey) : WalletStore :=
  if prv ≠ 0 then (s.insertAdhoc F prv).1
  else s.entryPutRaw pubKey ⟨0, 0⟩

end WalletStore

/-- One operation on the keys of the wallets. -/
inductive KeyOperation
  | create (id : WalletId) (r : WalletSecrets)
  | insertAdhoc (id : WalletId) (key : RawKey)
  | deterministicInsert (id : WalletId) (fuel : ℕ)
  | deterministicInsertAt (id : WalletId) (index : BitVec 32)
  | insertWatch (id : WalletId) (accounts : List PublicKey)
  | moveAccounts (source target : WalletId) (accounts : List PublicKey)
  | importReplace (id : WalletId) (json : List (PublicKey × RawKey)) (password : String)
  | rekey (id : WalletId) (password : String)
  | lock (id : WalletId)
  | attemptPassword (id : WalletId) (password : String)
  | workSet (id : WalletId) (pubKey : PublicKey) (work : WorkNonce)
  | setRepresentative (id : WalletId) (representative : PublicKey)
      (updateExistingAccounts : Bool)

namespace WalletKeys

variable (F : KeyFunctions)

/-- No wallets. -/
def empty : WalletKeys := ⟨∅, fun _ => ""⟩

variable (w : WalletKeys)

def put (id : WalletId) (s : WalletStore) : WalletKeys :=
  { w with stores := w.stores.put id s }

/-- An operation on one wallet, which does nothing where it returns an error. -/
def modify (id : WalletId) (f : WalletStore → Except WalletPanic (Except WalletError WalletStore)) :
    Except WalletPanic WalletKeys :=
  match w.stores.get id with
  | none => .ok w
  | some s => do
    match ← f s with
    | .ok s => return w.put id s
    | .error _ => return w

/-- An operation that needs the password. -/
def whenUnlocked (s : WalletStore)
    (f : WalletStore → Except WalletPanic (Except WalletError WalletStore)) :
    Except WalletPanic (Except WalletError WalletStore) :=
  if s.validPassword F then f s else return .error .walletLocked

def fetch (id : WalletId) (pubKey : PublicKey) : Except WalletError RawKey :=
  match w.stores.get id with
  | none => .error .walletNotFound
  | some s =>
    if s.validPassword F = false then .error .walletLocked
    else if (s.find pubKey).isNone then .error .accountNotFound
    else s.fetch F pubKey

/-- Add accounts to watch, all of them or none. -/
def insertWatchAll : List PublicKey → WalletStore → Except WalletError WalletStore
  | [], s => .ok s
  | account :: accounts, s => do
    let s ← s.insertWatch account
    insertWatchAll accounts s

/-- Move keys from a wallet to another one, until one is missing. -/
def moveKeys (source target : WalletId) :
    List PublicKey → WalletKeys → Except WalletPanic WalletKeys
  | [], w => .ok w
  | k :: keys, w =>
    match w.stores.get source with
    | none => .ok w
    | some s =>
      match s.fetch F k with
      | .error _ => .ok w
      | .ok prv => do
        let w ← w.modify target fun t => return .ok (t.insertAdhoc F prv).1
        let w ← w.modify source fun s => return .ok (← s.erase k)
        moveKeys source target keys w

/-- The private keys of a loaded wallet. One key that cannot be fetched makes the import fail. -/
def importedKeys (temp : WalletStore) (keys : List PublicKey) :
    Except WalletError (List (PublicKey × RawKey)) :=
  keys.mapM fun k => do return (k, ← temp.fetch F k)

/-- The public keys of a file that stand for accounts. -/
def accountKeys (json : List (PublicKey × RawKey)) : List PublicKey :=
  ((json.map (·.1)).filter (WalletStore.validPublicKey ·)).dedup

/-- The keys of a file that its own password opens. -/
def fileKeys (json : List (PublicKey × RawKey)) (password : String) :
    Except WalletPanic (Except WalletError (List (PublicKey × RawKey))) :=
  match WalletStore.newFromJson json with
  | .error e => return .error e
  | .ok temp => do
    let (temp, valid) ← temp.attemptPassword F password
    if valid then return importedKeys F temp (accountKeys json)
    else return .error .invalidPassword

/-- Import the keys of a file. Whether the wallet itself is unlocked is not checked. -/
def importReplace (s : WalletStore) (json : List (PublicKey × RawKey)) (password : String) :
    Except WalletPanic (Except WalletError WalletStore) := do
  match ← fileKeys F json password with
  | .error e => return .error e
  | .ok keys => return .ok (keys.foldl (fun s k => s.importKey F k.1 k.2) s)

/-- Note a new password of a wallet. -/
def notePassword (id : WalletId) (password : String) : WalletKeys :=
  { w with passwords := Function.update w.passwords id password }

def create (id : WalletId) (r : WalletSecrets) :
    Except WalletPanic WalletKeys := do
  let s := ((w.stores.get id).map WalletStore.reopen).getD (.new F r)
  let w := if s.validPassword F then w.notePassword id "" else w
  return w.put id (← s.enterInitialPassword F)

def rekey (id : WalletId) (password : String) : WalletKeys :=
  match w.stores.get id with
  | none => w
  | some s =>
    match s.rekey F password with
    | .ok s => (w.put id s).notePassword id password
    | .error _ => w

def moveAccounts (source target : WalletId) (accounts : List PublicKey) :
    Except WalletPanic WalletKeys :=
  match w.stores.get source, w.stores.get target with
  | some s, some t =>
    if s.validPassword F = false ∨ t.validPassword F = false then return w
    else moveKeys F source target accounts w
  | _, _ => return w

/-- What an operation does to the keys of the wallets. -/
def apply : KeyOperation → Except WalletPanic WalletKeys
  | .create id r => w.create F id r
  | .insertAdhoc id key => w.modify id fun s =>
    whenUnlocked F s fun s => return .ok (s.insertAdhoc F key).1
  | .deterministicInsert id fuel => w.modify id fun s =>
    whenUnlocked F s fun s => do return .ok (← s.deterministicInsert F fuel).1
  | .deterministicInsertAt id index => w.modify id fun s =>
    whenUnlocked F s fun s => return .ok (s.deterministicInsertAt F index).1
  | .insertWatch id accounts => w.modify id fun s =>
    whenUnlocked F s fun s => return insertWatchAll accounts s
  | .moveAccounts source target accounts => w.moveAccounts F source target accounts
  | .importReplace id json password => w.modify id fun s => importReplace F s json password
  | .rekey id password => return w.rekey F id password
  | .lock id => w.modify id fun s => return .ok s.lock
  | .attemptPassword id password => w.modify id fun s => do
    return .ok (← s.attemptPassword F password).1
  | .workSet id pubKey work => w.modify id fun s =>
    return if (s.find pubKey).isNone then .error .accountNotFound else .ok (s.workPut pubKey work)
  | .setRepresentative id representative updateExistingAccounts => w.modify id fun s =>
    return if updateExistingAccounts ∧ s.validPassword F = false then .error .walletLocked
      else .ok (s.representativeSet representative)

/-- Fetch a key after unlocking the wallet with its password. -/
def unlockAndFetch (id : WalletId) (pubKey : PublicKey) :
    Except WalletError RawKey :=
  match w.stores.get id with
  | none => .error .walletNotFound
  | some s =>
    match s.attemptPassword F (w.passwords id) with
    | .ok (s, _) => (w.put id s).fetch F id pubKey
    | .error _ => .error .invalidPassword

end WalletKeys

end RsNano
