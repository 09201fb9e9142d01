import RsNano.Ledger.RepWeights
import RsNano.Lib.Parts

/-!
# Initialization of the ledger

When the node starts, it adds the genesis block to an empty database and fills its caches from the
tables. The accounts are read by several workers, each of which has a range of account numbers. A
worker sums up its accounts and adds the result to the shared caches, under a lock. The order in
which the workers do so, and the order in which each iterates its hash map of weights, are a
`Schedule`.

The flags that select the caches are left out: the node sets all of them.
-/

namespace RsNano

/-- The account numbers of one worker. -/
structure Split where
  start : ℕ
  «end» : ℕ
  isLast : Bool
  deriving DecidableEq

/-- The split of the worker with the given index in `parallel_traversal`. -/
def Split.ofIndex (threadCount i : ℕ) : Split :=
  let split := (2 ^ 256 - 1) / threadCount
  ⟨split * i, split * (i + 1), i = threadCount - 1⟩

/-- The last range has no end. -/
def Split.contains (s : Split) (account : Account) : Bool :=
  s.start ≤ account.number.toNat ∧ (s.isLast ∨ account.number.toNat < s.end)

/-- The records in a range, in the order of their accounts. -/
def iterRange {V : Type} (t : Table Account V) (s : Split) : List (Account × V) :=
  ((t.sortedKeys U256.byteLe).filter s.contains).filterMap fun account =>
    (t.get account).map fun v => (account, v)

/-- What a worker sums up. -/
structure ChunkTotals where
  blockCount : ℕ
  accountCount : ℕ
  repWeights : Table PublicKey Amount

def ChunkTotals.add (totals : ChunkTotals) (info : AccountInfo) : ChunkTotals where
  blockCount := totals.blockCount + info.blockCount
  accountCount := totals.accountCount + 1
  repWeights :=
    if info.balance = 0 then totals.repWeights
    else totals.repWeights.put info.representative
      ((totals.repWeights.get info.representative).getD 0 + info.balance)

def ChunkTotals.ofChunk (chunk : List (Account × AccountInfo)) : ChunkTotals :=
  chunk.foldl (fun totals x => totals.add x.2) ⟨0, 0, ∅⟩

/-- The orders in which the workers add their results to the caches, and in which they iterate
their weights. -/
structure Schedule where
  accounts : List ℕ
  weights : ℕ → List PublicKey
  heights : List ℕ

namespace Ledger

variable (l : Ledger)

/-- A new database, before anything is cached. -/
def empty (minWeight : Amount) : Ledger := ⟨∅, ∅, ∅, ∅, ∅, ∅, ∅, 0, 0, 0, ∅, minWeight⟩

/-- `RepWeightsUpdater::copy_from`. -/
def copyFrom (other : Table PublicKey Amount) (order : List PublicKey) : Ledger :=
  order.foldl (fun l representative =>
    match other.get representative with
    | none => l
    | some amount =>
      l.putCache representative ((l.repWeightCache.get representative).getD 0 + amount)) l

def addChunk (totals : ChunkTotals) (order : List PublicKey) : Ledger :=
  { l with
    blockCount := l.blockCount + totals.blockCount
    accountCount := l.accountCount + totals.accountCount }.copyFrom totals.repWeights order

def addGenesisBlock (c : LedgerConstants) : Ledger :=
  { l with
    block := l.block.put c.genesisBlock.hash c.savedGenesis.stored
    confirmationHeight := l.confirmationHeight.put c.genesisAccount ⟨1, c.genesisBlock.hash⟩
    account := l.account.put c.genesisAccount
      { head := c.genesisBlock.hash
        representative := c.genesisAccount.into .publicKey
        openBlock := c.genesisBlock.hash
        balance := Amount.max
        modified := 0
        blockCount := 1
        epoch := .epoch0 }
    repWeight := l.repWeight.put (c.genesisAccount.into .publicKey) Amount.max }

/-- The tables that the caches are filled from. -/
def ensureGenesis (c : LedgerConstants) : Ledger :=
  if l.account.size = 0 then l.addGenesisBlock c else l

/-- The totals of one worker. -/
def chunkTotals (threadCount i : ℕ) : ChunkTotals :=
  .ofChunk (iterRange l.account (.ofIndex threadCount i))

def confirmedInChunk (threadCount i : ℕ) : ℕ :=
  (iterRange l.confirmationHeight (.ofIndex threadCount i)).foldl
    (fun count x => count + x.2.height) 0

def generateCache (threadCount : ℕ) (schedule : Schedule) : Ledger :=
  let counted := schedule.accounts.foldl (fun acc i =>
    acc.addChunk (l.chunkTotals threadCount i) (schedule.weights i)) l
  schedule.heights.foldl (fun acc i =>
    { acc with confirmedCount := acc.confirmedCount + l.confirmedInChunk threadCount i }) counted

/-- `Ledger::initialize`. -/
def initializeLedger (c : LedgerConstants) (threadCount : ℕ) (schedule : Schedule) : Ledger :=
  (l.ensureGenesis c).generateCache threadCount schedule

end Ledger

/-- Every worker runs once, and iterates all of its weights. -/
structure Schedule.Complete (schedule : Schedule) (l : Ledger) (threadCount : ℕ) : Prop where
  accounts : schedule.accounts.Perm (List.range threadCount)
  weights : ∀ i, (l.chunkTotals threadCount i).repWeights.IsOrder (schedule.weights i)
  heights : schedule.heights.Perm (List.range threadCount)

end RsNano
