import RsNano.Lib.Loop
import RsNano.Lib.Numbering
import RsNano.Types.BlockCodec

/-!
# The block tables of a store

The databases of an LMDB environment that hold blocks. Keys are hashes and block ids: both are
stored as big-endian bytes of a fixed size, so that the order of the keys is the order of the
numbers. Values are bytes. The number of records of a database is a 64-bit word, so that block ids
are natural numbers here.
-/

namespace RsNano

/-- Why an operation on a store does not return: a result of LMDB, a refused version, or a panic. -/
inductive StoreError
  | keyExist
  | versionTooLow
  | unsupportedVersion
  | versionTooHigh
  | unreachable
  | outOfBounds
  | invalidBlockType
  | missingBlockData
  | invalidBlock
  deriving DecidableEq, Repr

structure LmdbEnvironment where
  version : Option ℤ
  blocks : Table BlockHash (List Byte)
  successors : Table BlockHash (List Byte)
  blockIndex : Table BlockHash ℕ
  blockData : Table ℕ (List Byte)

/-- Write a record with the flag for appending. -/
def putAppend {K V : Type} [DecidableEq K] (r : K → K → Prop) [DecidableRel r] (t : Table K V)
    (k : K) (v : V) : Except StoreError (Table K V) :=
  match t.append r k v with
  | some t => .ok t
  | none => .error .keyExist

/-- Write a record with the flag against overwriting. -/
def putNoOverwrite {K V : Type} [DecidableEq K] (t : Table K V) (k : K) (v : V) :
    Except StoreError (Table K V) :=
  if t.contains k then .error .keyExist else .ok (t.put k v)

theorem putAppend_eq_ok {K V : Type} [DecidableEq K] {r : K → K → Prop} [DecidableRel r]
    {t : Table K V} {k : K} (v : V) (h : ∀ k' w, t.get k' = some w → r k' k ∧ k' ≠ k) :
    putAppend r t k v = .ok (t.put k v) := by
  rw [putAppend, Table.append_eq_put r v h]

theorem putNoOverwrite_eq_ok {K V : Type} [DecidableEq K] {t : Table K V} {k : K} (v : V)
    (h : t.get k = none) : putNoOverwrite t k v = .ok (t.put k v) := by
  rw [putNoOverwrite, Table.contains, h]
  rfl

/-! ### Successors -/

def BlockHash.fromSlice (bytes : List Byte) : Option BlockHash :=
  if bytes.length = 32 then some ⟨BitVec.ofNat 256 (Bytes.toNatBe bytes)⟩ else none

theorem BlockHash.fromSlice_serialize (h : BlockHash) :
    BlockHash.fromSlice (U256.serialize h) = some h := by
  rw [fromSlice, if_pos (U256.length_serialize h), U256.serialize, Bytes.be,
    Bytes.toNatBe_ofNatBe, Bytes.toNat_mod_of_fits (by decide), BitVec.ofNat_toNat,
    BitVec.setWidth_eq]

namespace SuccessorStore

def put (env : LmdbEnvironment) (block successor : BlockHash) : LmdbEnvironment :=
  { env with successors := env.successors.put block successor.serialize }

def get (env : LmdbEnvironment) (block : BlockHash) : Option BlockHash :=
  (env.successors.get block).bind BlockHash.fromSlice

end SuccessorStore

/-! ### Blocks -/

structure BlockStore where
  env : LmdbEnvironment
  nextId : ℕ

namespace BlockStore

def findNextFreeId (env : LmdbEnvironment) : ℕ :=
  match (env.blockData.sortedKeys (· ≤ ·)).getLast? with
  | some id => id + 1
  | none => 0

def new (env : LmdbEnvironment) : BlockStore := ⟨env, findNextFreeId env⟩

def blockRawGet (env : LmdbEnvironment) (hash : BlockHash) :
    Except StoreError (Option (List Byte)) :=
  match env.blockIndex.get hash with
  | none => .ok none
  | some id =>
    match env.blockData.get id with
    | none => .error .missingBlockData
    | some bytes => .ok (some bytes)

def get (H : Blake2b) (env : LmdbEnvironment) (hash : BlockHash) :
    Except StoreError (Option SavedBlock) := do
  match ← blockRawGet env hash with
  | none => return none
  | some bytes =>
    match SavedBlock.deserialize H bytes with
    | .ok (block, _) => return some block
    | .error _ => .error .invalidBlock

variable (s : BlockStore)

def rawPut (data : List Byte) (hash : BlockHash) :
    Except StoreError BlockStore := do
  let id := s.nextId
  let blockIndex ← putNoOverwrite s.env.blockIndex hash id
  let blockData ← putAppend (· ≤ ·) s.env.blockData id data
  return ⟨{ s.env with blockIndex := blockIndex, blockData := blockData }, id + 1⟩

def put (block : SavedBlock) : Except StoreError BlockStore :=
  s.rawPut block.serializeWithSideband block.block.hash

def del (hash : BlockHash) : Except StoreError BlockStore :=
  match s.env.blockIndex.get hash with
  | none => .ok s
  | some id =>
    if s.env.blockData.contains id then
      .ok { s with env := { s.env with
        blockIndex := s.env.blockIndex.del hash
        blockData := s.env.blockData.del id } }
    else .error .missingBlockData

/-- What the insertion of a block does to the block tables. -/
def insertBlock (block : SavedBlock) : Except StoreError BlockStore := do
  let s ← s.put block
  if block.block.previous ≠ 0 then
    return { s with env := SuccessorStore.put s.env block.block.previous block.block.hash }
  else return s

/-- A new block is stored under the next id if that is behind all others. -/
theorem put_eq_ok {s : BlockStore} {sb : SavedBlock}
    (hnew : s.env.blockIndex.get sb.block.hash = none)
    (hlt : ∀ {id bytes}, s.env.blockData.get id = some bytes → id < s.nextId) :
    s.put sb = .ok ⟨{ s.env with
      blockIndex := s.env.blockIndex.put sb.block.hash s.nextId
      blockData := s.env.blockData.put s.nextId sb.serializeWithSideband }, s.nextId + 1⟩ := by
  have happend := putAppend_eq_ok (r := (· ≤ ·)) sb.serializeWithSideband
    fun _ _ hget => ⟨(hlt hget).le, (hlt hget).ne⟩
  simp [put, rawPut, putNoOverwrite_eq_ok _ hnew, happend]

/-- A block is read back from its bytes. -/
theorem get_of_blockRawGet {H : Blake2b} {env : LmdbEnvironment} {hash : BlockHash}
    (block : Option SavedBlock)
    (hraw : blockRawGet env hash = .ok (block.map SavedBlock.serializeWithSideband))
    (hhashed : ∀ sb ∈ block, sb.block.Hashed H) :
    get H env hash = .ok (block.map fun sb => sb.stored.asU64) := by
  rw [get, hraw]
  cases block with
  | none => rfl
  | some sb =>
    have hread := SavedBlock.reads (hhashed sb rfl) []
    rw [List.append_nil] at hread
    simp [hread]

end BlockStore

end RsNano
