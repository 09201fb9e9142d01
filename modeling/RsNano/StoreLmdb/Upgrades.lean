import RsNano.StoreLmdb.Databases

/-!
# Store upgrades

Two steps bring a store of version 24 to the current version. The first copies the successor of
each block from its sideband to a table of its own, the second removes it from the sideband, turns
seconds into milliseconds, and splits the block table into an index and the data. Both work on the
bytes of the records, with offsets from their end. Indices out of range are errors here, where the
node panics; a step that fails changes nothing, as its transaction is not committed.
-/

namespace RsNano

def storeVersionMinimum : ℤ := 24

def storeVersionCurrent : ℤ := 10001

def firstIncompatibleStoreVersion : ℤ := 10000

def v24SidebandLen : BlockType → ℕ
  | .legacySend => 48 + 32
  | .legacyReceive => 64 + 32
  | .legacyOpen => 24 + 32
  | .legacyChange => 64 + 32
  | .state => 18 + 32

/-- A difference of lengths. -/
def lengthSub (m n : ℕ) : Except StoreError ℕ := if n ≤ m then .ok (m - n) else .error .outOfBounds

/-- The bytes from one index to another. -/
def slice (data : List Byte) (start stop : ℕ) : Except StoreError (List Byte) :=
  if start ≤ stop ∧ stop ≤ data.length then .ok ((data.take stop).drop start)
  else .error .outOfBounds

/-! The functions below take the record of a block with its sideband. -/

namespace V24Sideband

def blockType : List Byte → Except StoreError BlockType
  | [] => .error .outOfBounds
  | id :: _ =>
    match BlockType.ofId id with
    | some t => .ok t
    | none => .error .invalidBlockType

def sidebandLen (data : List Byte) : Except StoreError ℕ := do
  return v24SidebandLen (← blockType data)

/-- The first value in the old sideband is the successor. -/
def successor (data : List Byte) : Except StoreError (List Byte) := do
  let successorStart ← lengthSub data.length (← sidebandLen data)
  slice data successorStart (successorStart + 32)

def sidebandWithoutSuccessor (data : List Byte) : Except StoreError (List Byte) := do
  let newSidebandLen ← lengthSub (← sidebandLen data) 32
  let newSidebandStart ← lengthSub data.length newSidebandLen
  slice data newSidebandStart data.length

def blockWithoutSideband (data : List Byte) : Except StoreError (List Byte) := do
  let stop ← lengthSub data.length (← sidebandLen data)
  slice data 0 stop

/-- Where the timestamp starts in a new record: before the details and the source epoch, if there
are any, at the end. -/
def timestampStart (data result : List Byte) : Except StoreError ℕ := do
  let startIndex ← lengthSub result.length 8
  if (← blockType data) = .state then lengthSub startIndex 2 else return startIndex

def upgradeTimestampToMillis (data result : List Byte) : Except StoreError (List Byte) := do
  let start ← timestampStart data result
  let timestampSlice ← slice result start (start + 8)
  let timestampMillis := Bytes.toNatBe timestampSlice * 1000 % 2 ^ 64
  return result.take start ++ (Bytes.ofNatBe 8 timestampMillis ++ result.drop (start + 8))

def removeSuccessorAndUpgradeTimestampToMillis (data : List Byte) :
    Except StoreError (List Byte) := do
  let block ← blockWithoutSideband data
  let sideband ← sidebandWithoutSuccessor data
  upgradeTimestampToMillis data (block ++ sideband)

end V24Sideband

/-- Copy the successor of one block. -/
def createSuccessor (blocks : Table BlockHash (List Byte))
    (successors : Table BlockHash (List Byte)) (k : BlockHash) :
    Except StoreError (Table BlockHash (List Byte)) := do
  let successor ← V24Sideband.successor ((blocks.get k).getD [])
  putAppend U256.byteLe successors k successor

def createSuccessorTable (env : LmdbEnvironment) : Except StoreError LmdbEnvironment := do
  let successors ← (env.blocks.sortedKeys U256.byteLe).foldlM (createSuccessor env.blocks)
    env.successors
  return { env with successors := successors }

/-- The tables that the second step fills. -/
structure SplitTables where
  nextId : ℕ
  blockIndex : Table BlockHash ℕ
  blockData : Table ℕ (List Byte)

/-- Give one block an id and write its new record. -/
def splitBlock (blocks : Table BlockHash (List Byte)) (t : SplitTables) (k : BlockHash) :
    Except StoreError SplitTables := do
  let newData ←
    V24Sideband.removeSuccessorAndUpgradeTimestampToMillis ((blocks.get k).getD [])
  let id := t.nextId
  let blockIndex ← putAppend U256.byteLe t.blockIndex k id
  let blockData ← putAppend (· ≤ ·) t.blockData id newData
  return ⟨id + 1, blockIndex, blockData⟩

def removeSuccessorFromSidebandAndUpgradeTimestampAndSplitTable (env : LmdbEnvironment) :
    Except StoreError LmdbEnvironment := do
  let t ← (env.blocks.sortedKeys U256.byteLe).foldlM (splitBlock env.blocks)
    ⟨0, env.blockIndex, env.blockData⟩
  return { env with blocks := ∅, blockIndex := t.blockIndex, blockData := t.blockData }

def nextVersion (version : ℤ) : ℤ := if version = 24 then 10000 else version + 1

/-- Upgrade step by step. Each step raises the version, which bounds the number of steps. -/
def upgradeLoop : ℕ → ℤ → Bool → LmdbEnvironment → Except StoreError (Bool × LmdbEnvironment)
  | 0, _, needsVacuuming, env => .ok (needsVacuuming, env)
  | n + 1, version, needsVacuuming, env =>
    if version = storeVersionCurrent then .ok (needsVacuuming, env)
    else do
      let env ←
        if version = 24 then createSuccessorTable env
        else if version = 10000 then
          removeSuccessorFromSidebandAndUpgradeTimestampAndSplitTable env
        else .error .unreachable
      let version := nextVersion version
      upgradeLoop n version true { env with version := some version }

/-- Bring a store to the current version; the result says whether the store needs vacuuming. -/
def doUpgrades (env : LmdbEnvironment) : Except StoreError (Bool × LmdbEnvironment) :=
  let version := env.version.getD storeVersionCurrent
  let env := { env with version := some version }
  if version = storeVersionCurrent then .ok (false, env)
  else if version < storeVersionMinimum then .error .versionTooLow
  else if storeVersionMinimum < version ∧ version < firstIncompatibleStoreVersion then
    .error .unsupportedVersion
  else if storeVersionCurrent < version then .error .versionTooHigh
  else upgradeLoop (storeVersionCurrent - version).toNat version false env

end RsNano
