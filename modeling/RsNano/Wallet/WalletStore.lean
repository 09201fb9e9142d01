import RsNano.Types.Basic
import RsNano.Lib.Table
import RsNano.Lib.Loop

/-!
# The key store of a wallet

A wallet is one table from public keys to values. The first seven keys are reserved for the
wallet itself; behind any other key stands the encrypted private key (an ad-hoc key), a marker
with the index from which the private key is derived (a deterministic key), or zero for an
account that is only watched. Two values live in memory: the key that the password gives and the
wallet key encrypted by it. The node spreads both over the heap; here they are plain values.

Encryption, key derivation and public keys come from libraries and are parameters. Checks that
the release build leaves out (`debug_assert`) are left out.
-/

namespace RsNano

/-- The functions on keys that come from libraries: AES in counter mode, Argon2, Ed25519 and the
derivation of keys from a seed with Blake2b. -/
structure KeyFunctions where
  encrypt : RawKey → RawKey → BitVec 128 → RawKey
  hashPassword : String → RawKey → RawKey
  publicKey : RawKey → PublicKey
  deterministicKey : RawKey → BitVec 32 → RawKey

/-- In counter mode decryption is encryption. -/
def KeyFunctions.decrypt (F : KeyFunctions) (x key : RawKey) (iv : BitVec 128) : RawKey :=
  F.encrypt x key iv

/-- The first sixteen bytes of a 32-byte value. -/
def U256.initializationVector {a : U256Kind} (x : U256 a) : BitVec 128 :=
  x.number.extractLsb' 128 128

/-- The last sixteen bytes of a 32-byte value. -/
def U256.initializationVectorHigh {a : U256Kind} (x : U256 a) : BitVec 128 := x.number.setWidth 128

structure WalletValue where
  key : RawKey
  work : WorkNonce
  deriving DecidableEq

instance : Inhabited WalletValue := ⟨⟨0, 0⟩⟩

inductive KeyType
  | unknown
  | adhoc
  | deterministic
  deriving DecidableEq, Repr

def WalletValue.keyType (value : WalletValue) : KeyType :=
  if 2 ^ 64 - 1 < value.key.number.toNat then .adhoc
  else if value.key.number.toNat / 2 ^ 32 % 2 ^ 32 = 1 then .deterministic
  else .unknown

/-- The value of a deterministic key. -/
def WalletValue.marker (index : BitVec 32) : WalletValue :=
  ⟨⟨BitVec.ofNat 256 (2 ^ 32 + index.toNat)⟩, 0⟩

inductive WalletError
  | invalidPassword
  | pubKeyNotFound
  | invalidKeyType
  | pubKeyMismatch
  | invalidPublicKey
  | walletNotFound
  | walletLocked
  | accountNotFound
  deriving DecidableEq, Repr

/-- The reasons for a panic in the wallets. -/
inductive WalletPanic
  | missingEntry
  | wrongVersion
  | indexOverflow
  deriving DecidableEq, Repr

structure WalletStore where
  entries : Table PublicKey WalletValue
  password : RawKey
  walletKeyMem : RawKey

namespace WalletStore

def versionCurrent : ℕ := 4

def versionSpecial : PublicKey := ⟨0⟩

def saltSpecial : PublicKey := ⟨1⟩

def walletKeySpecial : PublicKey := ⟨2⟩

def checkSpecial : PublicKey := ⟨3⟩

def representativeSpecial : PublicKey := ⟨4⟩

def seedSpecial : PublicKey := ⟨5⟩

def deterministicIndexSpecial : PublicKey := ⟨6⟩

def specialCount : PublicKey := ⟨7⟩

variable (F : KeyFunctions) (s : WalletStore)

def entryGetRaw (key : PublicKey) : WalletValue := (s.entries.get key).getD default

def entryPutRaw (key : PublicKey) (value : WalletValue) : WalletStore :=
  { s with entries := s.entries.put key value }

def check : RawKey := (s.entryGetRaw checkSpecial).key

def salt : RawKey := (s.entryGetRaw saltSpecial).key

def walletKey : RawKey := F.decrypt s.walletKeyMem s.password s.salt.initializationVector

def seedWith (walletKey : RawKey) : RawKey :=
  F.decrypt (s.entryGetRaw seedSpecial).key walletKey s.salt.initializationVectorHigh

def seed : RawKey := s.seedWith F (s.walletKey F)

def deterministicIndexGet : BitVec 32 :=
  (s.entryGetRaw deterministicIndexSpecial).key.number.setWidth 32

def deterministicIndexSet (index : BitVec 32) : WalletStore :=
  s.entryPutRaw deterministicIndexSpecial ⟨⟨index.setWidth 256⟩, 0⟩

/-- Remove every value that looks like a marker, also under a reserved key. -/
def deterministicClear : WalletStore :=
  ({ s with entries := s.entries.retain fun _ value =>
      value.keyType ≠ .deterministic } : WalletStore).deterministicIndexSet 0

def setSeed (prv : RawKey) : WalletStore :=
  (s.entryPutRaw seedSpecial
    ⟨F.encrypt prv (s.walletKey F) s.salt.initializationVectorHigh, 0⟩).deterministicClear

def deterministicKey (index : BitVec 32) : RawKey := F.deterministicKey (s.seed F) index

def checkWalletKey (walletKey : RawKey) : Bool :=
  s.check = F.encrypt 0 walletKey s.salt.initializationVector

def validPassword : Bool := s.checkWalletKey F (s.walletKey F)

def deriveKey (password : String) : RawKey := F.hashPassword password s.salt

/-- Encrypt the wallet key by a new password. -/
def rekey (password : String) : Except WalletError WalletStore :=
  if s.validPassword F then
    let passwordNew := s.deriveKey F password
    let encrypted := F.encrypt (s.walletKey F) passwordNew s.salt.initializationVector
    .ok { s.entryPutRaw walletKeySpecial ⟨encrypted, 0⟩ with
      password := passwordNew
      walletKeyMem := encrypted }
  else .error .invalidPassword

def find (key : PublicKey) : Option WalletValue := s.entries.get key

def erase (key : PublicKey) : Except WalletPanic WalletStore :=
  match s.entries.get key with
  | some _ => .ok { s with entries := s.entries.del key }
  | none => .error .missingEntry

def validPublicKey (key : PublicKey) : Bool := specialCount.number ≤ key.number

def keyExists (key : PublicKey) : Bool := validPublicKey key ∧ (s.find key).isSome

/-- The first index from the given one on whose key is not in the wallet. -/
def nextIndex : ℕ → BitVec 32 → Except WalletPanic (BitVec 32)
  | 0, _ => .error .indexOverflow
  | fuel + 1, index =>
    if s.keyExists (F.publicKey (s.deterministicKey F index)) then nextIndex fuel (index + 1)
    else .ok index

def deterministicInsertAt (index : BitVec 32) : WalletStore × PublicKey :=
  let result := F.publicKey (s.deterministicKey F index)
  (s.entryPutRaw result (.marker index), result)

def deterministicInsert (fuel : ℕ) : Except WalletPanic (WalletStore × PublicKey) := do
  let index ← s.nextIndex F fuel s.deterministicIndexGet
  let (s, result) := s.deterministicInsertAt F index
  return (s.deterministicIndexSet (index + 1), result)

def version : ℕ := (s.entryGetRaw versionSpecial).key.number.toNat % 256

/-- Try a password. It is kept in memory even if it is wrong. -/
def attemptPassword (password : String) : Except WalletPanic (WalletStore × Bool) :=
  let s := { s with password := s.deriveKey F password }
  if s.validPassword F ∧ s.version ≠ versionCurrent then .error .wrongVersion
  else .ok (s, s.validPassword F)

def lock : WalletStore := { s with password := 0 }

def representativeSet (representative : PublicKey) : WalletStore :=
  s.entryPutRaw representativeSpecial ⟨representative.into .rawKey, 0⟩

def insertAdhoc (key : RawKey) : WalletStore × PublicKey :=
  let pubKey := F.publicKey key
  let ciphertext := F.encrypt key (s.walletKey F) pubKey.initializationVector
  (s.entryPutRaw pubKey ⟨ciphertext, 0⟩, pubKey)

def insertWatch (pubKey : PublicKey) : Except WalletError WalletStore :=
  if validPublicKey pubKey then .ok (s.entryPutRaw pubKey ⟨0, 0⟩) else .error .invalidPublicKey

/-- A private key that has the expected public key. -/
def comparePublicKey (pubKey : PublicKey) (prv : RawKey) : Except WalletError RawKey :=
  if F.publicKey prv ≠ pubKey then .error .pubKeyMismatch else .ok prv

/-- The private key behind a value, for a given wallet key. -/
def privateKeyWith (walletKey : RawKey) (pubKey : PublicKey) : Except WalletError RawKey :=
  let value := s.entryGetRaw pubKey
  if value.key = 0 then .error .pubKeyNotFound
  else
    match value.keyType with
    | .deterministic => comparePublicKey F pubKey
        (F.deterministicKey (s.seedWith F walletKey) (value.key.number.setWidth 32))
    | .adhoc => comparePublicKey F pubKey
        (F.decrypt value.key walletKey pubKey.initializationVector)
    | .unknown => .error .invalidKeyType

def fetch (pubKey : PublicKey) : Except WalletError RawKey :=
  if s.validPassword F then s.privateKeyWith F (s.walletKey F) pubKey
  else .error .invalidPassword

def workPut (pubKey : PublicKey) (work : WorkNonce) : WalletStore :=
  s.entryPutRaw pubKey { s.entryGetRaw pubKey with work }

end WalletStore

end RsNano
