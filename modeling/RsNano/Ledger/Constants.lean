import RsNano.Types.Block

/-!
# Ledger constants

The network constants that block validation and cementing read: the genesis block, the
epoch links with their signers, and the work thresholds. Signature verification and the
work difficulty come from libraries outside the repository and are parameters here.
-/

namespace RsNano

structure EpochInfo where
  signer : PublicKey
  link : Link
  deriving DecidableEq

/-- The released epochs. -/
structure Epochs where
  epochs : List (Epoch × EpochInfo)
  deriving DecidableEq

namespace Epochs

def isEpochLink (e : Epochs) (link : Link) : Bool := e.epochs.any fun x => x.2.link = link

def signer (e : Epochs) (epoch : Epoch) : Option PublicKey :=
  (e.epochs.find? fun x => x.1 = epoch).map fun x => x.2.signer

def epoch (e : Epochs) (link : Link) : Option Epoch :=
  (e.epochs.find? fun x => x.2.link = link).map Prod.fst

def epochSigner (e : Epochs) (link : Link) : Option Account :=
  (e.epoch link).bind fun epoch => (e.signer epoch).map fun key => key.into .account

/-- Whether the new epoch is exactly one version above the old one. -/
def isSequential (epoch newEpoch : Epoch) : Bool :=
  Epoch.epoch0.toNat ≤ epoch.toNat ∧ newEpoch.toNat = epoch.toNat + 1

end Epochs

/-- The bytes `epoch v1 block`, padded with zeros. -/
def epochV1Link : Link := ⟨0x65706f636820763120626c6f636b000000000000000000000000000000000000⟩

/-- The bytes `epoch v2 block`, padded with zeros. -/
def epochV2Link : Link := ⟨0x65706f636820763220626c6f636b000000000000000000000000000000000000⟩

/-- Work thresholds, with the difficulty function they are compared against. -/
structure WorkThresholds where
  epoch1 : ℕ
  epoch2 : ℕ
  epoch2Receive : ℕ
  difficulty : Root → WorkNonce → ℕ

namespace WorkThresholds

variable (w : WorkThresholds)

/-- The required difficulty; an invalid epoch gives `u64::MAX`. -/
def threshold (details : BlockDetails) : ℕ :=
  match details.epoch with
  | .epoch2 => if details.isReceive ∨ details.isEpoch then w.epoch2Receive else w.epoch2
  | .epoch1 => w.epoch1
  | .epoch0 => w.epoch1
  | _ => 2 ^ 64 - 1

def thresholdBase : ℕ := max (max w.epoch1 w.epoch2) w.epoch2Receive

def difficultyBlock (b : Block) : ℕ := w.difficulty b.root b.work

/-- The lowest difficulty that any block can need. -/
def entry : ℕ := min (min w.epoch1 w.epoch2) w.epoch2Receive

def thresholdEntry : BlockType → ℕ
  | .state => w.entry
  | _ => w.epoch1

/-- The filter that is applied before the ledger is consulted. -/
def validateEntryBlock (b : Block) : Bool := w.thresholdEntry b.blockType ≤ w.difficultyBlock b

/-- The thresholds are `u64` values, so that the invalid epoch needs no less than the entry. -/
theorem entry_le_threshold {w : WorkThresholds} (h : w.epoch1 < 2 ^ 64) (details : BlockDetails) :
    w.entry ≤ w.threshold details := by
  rw [entry, threshold]
  cases details.epoch <;> dsimp only <;> (try split) <;> omega

def isValidPow (b : Block) (details : BlockDetails) : Bool :=
  w.threshold details ≤ w.difficultyBlock b

end WorkThresholds

/-- The constants of a network.

The genesis block of every network is a legacy open block that names its own account as its
representative. `verify` is the signature check of the ed25519 library. -/
structure LedgerConstants where
  work : WorkThresholds
  genesisBlock : OpenBlock
  epoch2Signer : PublicKey
  verify : PublicKey → BlockHash → Signature → Bool
  genesis_account_ne_zero : genesisBlock.account ≠ 0
  genesis_representative : genesisBlock.representative = genesisBlock.account.into .publicKey

namespace LedgerConstants

variable (c : LedgerConstants)

def genesisAccount : Account := c.genesisBlock.account

def epochs (c : LedgerConstants) : Epochs where
  epochs := [(.epoch1, ⟨c.genesisAccount.into .publicKey, epochV1Link⟩),
    (.epoch2, ⟨c.epoch2Signer, epochV2Link⟩)]

/-- The genesis block with its sideband, holding the whole supply. -/
def savedGenesis : SavedBlock where
  block := .legacyOpen c.genesisBlock
  sideband :=
    { height := 1
      timestamp := 0
      account := c.genesisAccount
      balance := Amount.max
      details := ⟨.epoch0, false, false, false⟩
      sourceEpoch := .epoch0 }

/-- The signature check of a block against the signer of its epoch link. -/
def validateEpochSignature (b : Block) : Bool :=
  match c.epochs.epochSigner (b.linkField.getD 0) with
  | some signer => c.verify (signer.into .publicKey) b.hash b.signature
  | none => false

/-- An epoch link belongs to the first or the second epoch. -/
theorem epoch_of_isEpochLink (link : Link) (h : c.epochs.isEpochLink link = true) :
    c.epochs.epoch link = some .epoch1 ∨ c.epochs.epoch link = some .epoch2 := by
  simp only [Epochs.isEpochLink, epochs, List.any_cons, List.any_nil, Bool.or_false,
    Bool.or_eq_true, decide_eq_true_eq] at h
  rcases h with rfl | rfl
  · exact .inl rfl
  · exact .inr rfl

end LedgerConstants

/-- The dependencies of a saved block: its previous block and the send it receives.

A legacy open block other than genesis reports its source in the first slot. -/
def SavedBlock.dependentBlocks (c : LedgerConstants) (sb : SavedBlock) : DependentBlocks :=
  match sb.block with
  | .legacySend b => ⟨b.previous, 0⟩
  | .legacyChange b => ⟨b.previous, 0⟩
  | .legacyReceive b => ⟨b.previous, b.source⟩
  | .legacyOpen b => if b.account = c.genesisAccount then ⟨0, 0⟩ else ⟨b.source, 0⟩
  | .state b =>
    let linkRefersToBlock := !sb.isSend && !c.epochs.isEpochLink b.link
    ⟨b.previous, if linkRefersToBlock then b.link.into .blockHash else 0⟩

end RsNano
