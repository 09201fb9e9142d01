import RsNano.Lib.Machine
import RsNano.StoreLmdb.UpgradeFidelity

/-!
# The ids of the stored blocks

A block store numbers its blocks. The next number is kept in memory: it survives an aborted
transaction and is found again from the last key when the store is reopened. One write transaction
is open at a time, over the tables that were committed last. Two history variables hold the blocks
that were put and not deleted since.
-/

namespace RsNano

open Machine BlockStore

namespace BlockStore

theorem lt_findNextFreeId {env : LmdbEnvironment} {id : ℕ} {bytes : List Byte}
    (hget : env.blockData.get id = some bytes) : id < findNextFreeId env := by
  have hmem := (Table.mem_sortedKeys (· ≤ ·)).mpr ⟨bytes, hget⟩
  have hsort := Table.pairwise_sortedKeys (· ≤ ·) env.blockData
  rw [findNextFreeId]
  rcases List.eq_nil_or_concat' (env.blockData.sortedKeys (· ≤ ·)) with hnil | ⟨ids, last, hids⟩
  · simp [hnil] at hmem
  · rw [hids] at hmem hsort
    rw [hids, List.getLast?_concat]
    rcases List.mem_append.mp hmem with hbef | hlast
    · have hlt := (List.pairwise_append.mp hsort).2.2 id hbef last (by simp)
      dsimp only
      omega
    · simp_all

end BlockStore

/-- A block with its hash. -/
abbrev HashedBlock (H : Blake2b) := { sb : SavedBlock // sb.block.Hashed H }

/-- The tables that were committed last, the store with its open transaction, and the blocks that
each of the two should have. -/
structure BlockHistory (H : Blake2b) where
  committed : LmdbEnvironment
  store : BlockStore
  committedBlocks : Table BlockHash (HashedBlock H)
  blocks : Table BlockHash (HashedBlock H)

namespace BlockHistory

variable {H : Blake2b} {s : BlockHistory H}

inductive Operation (H : Blake2b)
  | put (block : HashedBlock H)
  | del (hash : BlockHash)
  | commit
  | abort
  | reopen

/-- An empty store that has been opened. -/
def start (H : Blake2b) : BlockHistory H := ⟨⟨none, ∅, ∅, ∅, ∅⟩, .new ⟨none, ∅, ∅, ∅, ∅⟩, ∅, ∅⟩

def apply (s : BlockHistory H) : Operation H → Except StoreError (BlockHistory H)
  | .put block => do
    let store ← s.store.put block
    return { s with store, blocks := s.blocks.put block.1.block.hash block }
  | .del hash => do
    let store ← s.store.del hash
    return { s with store, blocks := s.blocks.del hash }
  | .commit => .ok { s with committed := s.store.env, committedBlocks := s.blocks }
  | .abort =>
    .ok { s with store := { s.store with env := s.committed }, blocks := s.committedBlocks }
  | .reopen => .ok { s with store := .new s.committed, blocks := s.committedBlocks }

/-- Only new blocks are put. -/
def Allowed (s : BlockHistory H) : Operation H → Prop
  | .put block => s.store.env.blockIndex.get block.1.block.hash = none
  | _ => True

/-- The tables of an environment hold the given blocks under ids below the next one. -/
def Holds (blocks : Table BlockHash (HashedBlock H)) (env : LmdbEnvironment) (nextId : ℕ) : Prop :=
  Joined (fun sb => sb.1.serializeWithSideband) blocks env.blockIndex env.blockData nextId

namespace Holds

variable {blocks : Table BlockHash (HashedBlock H)} {env : LmdbEnvironment} {nextId : ℕ}
  (h : Holds blocks env nextId)

include h

theorem lt_nextId {id : ℕ} {bytes : List Byte} (hget : env.blockData.get id = some bytes) :
    id < nextId := by
  obtain ⟨hash, hidx⟩ := h.onto hget
  exact h.lt hidx

theorem get (hash : BlockHash) :
    get H env hash = .ok ((blocks.get hash).map fun sb => sb.1.stored.asU64) := by
  refine (get_of_blockRawGet ((blocks.get hash).map (·.1)) ?_ ?_).trans ?_
  · rw [blockRawGet]
    cases hidx : env.blockIndex.get hash with
    | none =>
      have hkeys := h.keys hash
      simp_all
    | some id =>
      obtain ⟨sb, hsb, hdata⟩ := h.exists_value hidx
      simp [hsb, hdata]
  · intro sb hsb
    obtain ⟨sb', -, rfl⟩ := Option.map_eq_some_iff.mp hsb
    exact sb'.2
  · rw [Option.map_map]
    rfl

end Holds

/-- The committed and the open tables hold the blocks that they should. -/
def Coherent (s : BlockHistory H) : Prop :=
  Holds s.committedBlocks s.committed s.store.nextId ∧ Holds s.blocks s.store.env s.store.nextId

/-- Every operation returns. -/
theorem Coherent.apply (h : s.Coherent) {op : Operation H} (hok : s.Allowed op) :
    ∃ s', s.apply op = .ok s' ∧ s'.Coherent := by
  obtain ⟨hcomm, hopen⟩ := h
  cases op with
  | put block =>
    refine ⟨_, bind_eq_ok.mpr ⟨_, put_eq_ok hok hopen.lt_nextId, rfl⟩, ?_,
      Joined.put hopen block hok⟩
    exact hcomm.mono fun hget => Nat.lt_succ_of_lt (hcomm.lt_nextId hget)
  | del hash =>
    cases hidx : s.store.env.blockIndex.get hash with
    | none =>
      have hkeys := hopen.keys hash
      have hnone : s.blocks.get hash = none := by simp_all
      refine ⟨s, ?_, hcomm, hopen⟩
      simp [BlockHistory.apply, del, hidx, Table.del_of_get_none hnone]
    | some id =>
      obtain ⟨sb, -, hdata⟩ := hopen.exists_value hidx
      have hdel : s.store.del hash = .ok { s.store with env := { s.store.env with
          blockIndex := s.store.env.blockIndex.del hash
          blockData := s.store.env.blockData.del id } } := by
        simp [del, hidx, Table.contains, hdata]
      exact ⟨_, bind_eq_ok.mpr ⟨_, hdel, rfl⟩, hcomm, hopen.del hidx⟩
  | commit => exact ⟨_, rfl, hopen, hopen⟩
  | abort => exact ⟨_, rfl, hcomm, hcomm⟩
  | reopen =>
    have hreopened := hcomm.mono lt_findNextFreeId
    exact ⟨_, rfl, hreopened, hreopened⟩

/-- In every run no operation fails, the ids connect the records of the committed index with those
of the committed data one to one, the blocks that were put and not deleted since are read back from
the committed and from the open tables, and the next id is behind all ids in use. -/
theorem ids_exact (hrun : Run apply Allowed (start H) s) :
    (∀ op, s.Allowed op → ∃ s', s.apply op = .ok s') ∧
    (∀ hash hash' id, s.committed.blockIndex.get hash = some id →
      s.committed.blockIndex.get hash' = some id → hash = hash') ∧
    (∀ id, (∃ hash, s.committed.blockIndex.get hash = some id) ↔
      ∃ bytes, s.committed.blockData.get id = some bytes) ∧
    (∀ hash, get H s.committed hash =
      .ok ((s.committedBlocks.get hash).map fun sb => sb.1.stored.asU64)) ∧
    (∀ hash, get H s.store.env hash =
      .ok ((s.blocks.get hash).map fun sb => sb.1.stored.asU64)) ∧
    ∀ id bytes, s.store.env.blockData.get id = some bytes → id < s.store.nextId := by
  obtain ⟨hcommitted, hopen⟩ : s.Coherent :=
    hrun.invariant_of_ok ⟨.empty _ _, .empty _ _⟩ fun h hallowed => h.apply hallowed
  refine ⟨fun op hallowed => (Coherent.apply ⟨hcommitted, hopen⟩ hallowed).imp fun _ => And.left,
    fun _ _ _ => hcommitted.injective, fun id => ⟨fun ⟨hash, hindex⟩ => ?_, fun ⟨_, hget⟩ =>
      hcommitted.onto hget⟩, hcommitted.get, hopen.get, fun _ _ => hopen.lt_nextId⟩
  obtain ⟨sb, -, hdata⟩ := hcommitted.exists_value hindex
  exact ⟨_, hdata⟩

open V24Store

def exampleBlock : HashedBlock lengthBlake2b :=
  ⟨exampleOpenRecord.upgraded, exampleOpenRecord.hashed⟩

/-- The first block is put and read back. -/
theorem ids_exact_exampleBlock : ∃ s, Run apply Allowed (start lengthBlake2b) s ∧
    get lengthBlake2b s.store.env exampleOpen.hash = .ok (some exampleBlock.1) := by
  obtain ⟨hreturns, -⟩ := ids_exact (H := lengthBlake2b) .refl
  obtain ⟨s, hput⟩ := hreturns (.put exampleBlock) rfl
  have hrun : Run apply Allowed (start lengthBlake2b) s := .single ⟨.put exampleBlock, rfl, hput⟩
  obtain ⟨store, -, hs⟩ := bind_eq_ok.mp hput
  cases hs
  obtain ⟨-, -, -, -, hget, -⟩ := ids_exact hrun
  exact ⟨_, hrun, (hget _).trans rfl⟩

end BlockHistory

end RsNano
