import RsNano.StoreLmdb.V24Record

/-!
# What an upgrade keeps

A store of version 24 with complete chains is upgraded without an error. Every block comes back
with its sideband, with the timestamp in milliseconds, and no other block; the block tables are
those that the insertion of the same blocks writes. The successor table differs at the heads of
the chains: the upgrade copies their zero successor, an insertion writes no successor for them.
-/

namespace RsNano

open List Table BlockStore SuccessorStore Option

/-- A store of version 10000 takes the second step. -/
theorem doUpgrades_10000 {env : LmdbEnvironment} (h : env.version = some 10000) :
    doUpgrades env = do
      let env ← removeSuccessorFromSidebandAndUpgradeTimestampAndSplitTable env
      return (true, { env with version := some storeVersionCurrent }) := by
  obtain ⟨_, blocks, successors, blockIndex, blockData⟩ := env
  cases h
  rfl

/-- A store of version 24 takes the first step and goes on as one of version 10000. -/
theorem doUpgrades_24 {env : LmdbEnvironment} (h : env.version = some 24) :
    doUpgrades env = createSuccessorTable env >>= fun env =>
      doUpgrades { env with version := some 10000 } := by
  obtain ⟨_, blocks, successors, blockIndex, blockData⟩ := env
  cases h
  rfl

/-- A store of version 24 with complete chains: the predecessor of every block is stored and has
the block as its successor, and every successor is stored. -/
structure V24Store (H : Blake2b) where
  records : Table BlockHash (V24Record H)
  hash : ∀ {h r}, records.get h = some r → r.block.hash = h
  previous : ∀ {h r}, records.get h = some r → r.block.previous ≠ 0 →
    ∃ p, records.get r.block.previous = some p ∧ p.successor = h
  successor : ∀ {h r}, records.get h = some r → r.successor ≠ 0 →
    ∃ s, records.get r.successor = some s ∧ s.block.previous = h

namespace V24Store

variable {H : Blake2b} (s : V24Store H)

/-- The databases of the store; those that an upgrade fills do not exist yet. -/
def env : LmdbEnvironment where
  version := some 24
  blocks := s.records.mapValues fun _ r => r.serialize
  successors := ∅
  blockIndex := ∅
  blockData := ∅

/-- The head of a chain. -/
def IsHead (h : BlockHash) : Prop := ∃ r, s.records.get h = some r ∧ r.successor = 0

/-- A stored block with its predecessor. -/
def IsSuccessor (h next : BlockHash) : Prop :=
  h ≠ 0 ∧ ∃ r, s.records.get next = some r ∧ r.block.previous = h

/-- The keys of the block table in the order of the cursor. -/
def keys : List BlockHash := s.env.blocks.sortedKeys U256.byteLe

variable {h : BlockHash} {blocks : List SavedBlock} {sb : SavedBlock} {t : BlockStore}

theorem mem_keys : h ∈ s.keys ↔ ∃ r, s.records.get h = some r := by
  rw [keys, mem_sortedKeys, env, get_mapValues]
  simp only [map_eq_some_iff]
  constructor
  · rintro ⟨_, r, hr, -⟩
    exact ⟨r, hr⟩
  · rintro ⟨r, hr⟩
    exact ⟨_, r, hr, rfl⟩

theorem getD_blocks {r : V24Record H} (hr : s.records.get h = some r) :
    (s.env.blocks.get h).getD [] = r.serialize := by
  rw [env, get_mapValues, hr]
  rfl

/-- The successor of a stored block as bytes. -/
def successorBytes (h : BlockHash) : List Byte :=
  match s.records.get h with
  | some r => r.successor.serialize
  | none => []

/-- The new record of a stored block. -/
def newData (h : BlockHash) : List Byte :=
  match s.records.get h with
  | some r => r.upgraded.serializeWithSideband
  | none => []

/-- The key behind the keys that are done is stored and greater than all of them. -/
theorem keys_next {before after : List BlockHash} {k : BlockHash}
    (h : s.keys = before ++ k :: after) :
    (∃ r, s.records.get k = some r) ∧ ∀ k' ∈ before, U256.byteLe k' k ∧ k' ≠ k := by
  constructor
  · rw [← s.mem_keys, h]
    exact mem_append_right _ mem_cons_self
  · have hsort : s.keys.Pairwise fun k k' => U256.byteLe k k' ∧ k ≠ k' := pairwise_sortedKeys _ _
    rw [h] at hsort
    intro k' hk'
    exact (pairwise_append.mp hsort).2.2 k' hk' k mem_cons_self

/-- The first step copies the successor of every block. -/
theorem createSuccessorTable_env : ∃ successors,
    createSuccessorTable s.env = .ok { s.env with successors := successors } ∧
      Listed s.keys s.successorBytes successors := by
  obtain ⟨successors, hfold, hlist⟩ := foldlM_prefix_ok
    (f := createSuccessor s.env.blocks) (P := fun done t => Listed done s.successorBytes t) []
    (by
      intro t before k after hkeys ht
      obtain ⟨⟨r, hr⟩, hlast⟩ := s.keys_next hkeys
      have hbytes : s.successorBytes k = r.successor.serialize := by rw [successorBytes, hr]
      refine ⟨t.put k r.successor.serialize, ?_, ?_⟩
      · simp only [createSuccessor, bind_eq_ok]
        refine ⟨r.successor.serialize, ?_, ?_⟩
        · rw [s.getD_blocks hr, V24Sideband.successor_serialize]
        · exact putAppend_eq_ok _ fun k' w hget => hlast k' (ht.mem_of_get hget)
      · rw [← hbytes]
        exact ht.put k)
    (Listed.empty _)
  refine ⟨successors, ?_, hlist⟩
  simp only [createSuccessorTable, bind_eq_ok, pure_eq_ok]
  exact ⟨successors, hfold, rfl⟩

/-- The second step numbers the blocks and writes their new records. -/
theorem splitTable_env (successors : Table BlockHash (List Byte)) (version : Option ℤ) :
    ∃ blockIndex blockData,
      removeSuccessorFromSidebandAndUpgradeTimestampAndSplitTable
          { s.env with successors := successors, version := version } =
        .ok ⟨version, ∅, successors, blockIndex, blockData⟩ ∧
      Numbered s.keys s.newData blockIndex blockData := by
  obtain ⟨t, hfold, -, hnum⟩ := foldlM_prefix_ok (a := ⟨0, ∅, ∅⟩) (f := splitBlock s.env.blocks)
    (P := fun done t => t.nextId = done.length ∧
      Numbered done s.newData t.blockIndex t.blockData) []
    (by
      rintro t before k after hkeys ⟨hid, ht⟩
      obtain ⟨⟨r, hr⟩, hlast⟩ := s.keys_next hkeys
      have hbytes : s.newData k = r.upgraded.serializeWithSideband := by rw [newData, hr]
      have hnew : k ∉ before := fun hk => (hlast k hk).2 rfl
      refine ⟨⟨t.nextId + 1, t.blockIndex.put k t.nextId,
        t.blockData.put t.nextId r.upgraded.serializeWithSideband⟩, ?_, ?_, ?_⟩
      · simp only [splitBlock, bind_eq_ok, pure_eq_ok]
        refine ⟨r.upgraded.serializeWithSideband, ?_, _, ?_, _, ?_, rfl⟩
        · rw [s.getD_blocks hr, V24Sideband.removeSuccessorAndUpgradeTimestampToMillis_serialize]
        · exact putAppend_eq_ok _ fun k' w hget => hlast k' (ht.mem_of_get hget).1
        · refine putAppend_eq_ok _ fun i w hget => ?_
          have hlt := ht.lt_of_data hget
          rw [← hid] at hlt
          exact ⟨hlt.le, hlt.ne⟩
      · rw [length_append, ← hid]
        rfl
      · rw [hid, ← hbytes]
        exact ht.put hnew)
    ⟨rfl, Numbered.empty _⟩
  refine ⟨t.blockIndex, t.blockData, ?_, hnum⟩
  simp only [removeSuccessorFromSidebandAndUpgradeTimestampAndSplitTable, bind_eq_ok, pure_eq_ok]
  exact ⟨t, hfold, rfl⟩

/-- An upgrade is both steps, each with its version. -/
theorem doUpgrades_env : ∃ env, doUpgrades s.env = .ok (true, env) ∧
    env.version = some storeVersionCurrent ∧ Listed s.keys s.successorBytes env.successors ∧
      Numbered s.keys s.newData env.blockIndex env.blockData := by
  obtain ⟨successors, hfst, hlist⟩ := s.createSuccessorTable_env
  obtain ⟨blockIndex, blockData, hsnd, hnum⟩ := s.splitTable_env successors (some 10000)
  refine ⟨⟨some 10001, ∅, successors, blockIndex, blockData⟩, ?_, rfl, hlist, hnum⟩
  rw [doUpgrades_24 rfl, hfst]
  change doUpgrades { s.env with successors := successors, version := some 10000 } = _
  rw [doUpgrades_10000 rfl, hsnd]
  rfl

/-! ### Reading the new tables -/

/-- Blocks that are numbered with their new records are read back. -/
theorem get_of_numbered {env : LmdbEnvironment} {keys : List BlockHash}
    (hkeys : ∀ h, h ∈ keys ↔ ∃ r, s.records.get h = some r)
    (hnum : Numbered keys s.newData env.blockIndex env.blockData) (h : BlockHash) :
    BlockStore.get H env h = .ok ((s.records.get h).map V24Record.upgraded) := by
  cases hr : s.records.get h with
  | none =>
    have hnot : h ∉ keys := fun hmem => by
      obtain ⟨r, hr'⟩ := (hkeys h).mp hmem
      rw [hr] at hr'
      cases hr'
    rw [BlockStore.get, BlockStore.blockRawGet, hnum.index, if_neg hnot]
    rfl
  | some r =>
    have hmem : h ∈ keys := (hkeys h).mpr ⟨r, hr⟩
    have hbytes : s.newData h = r.upgraded.serializeWithSideband := by rw [newData, hr]
    refine (BlockStore.get_of_blockRawGet (some r.upgraded) ?_ ?_).trans ?_
    · rw [BlockStore.blockRawGet, hnum.index, if_pos hmem]
      dsimp only
      rw [hnum.data_idxOf hmem, hbytes]
      rfl
    · rintro sb ⟨⟩
      exact r.hashed
    · rw [map_some, r.stored_upgraded]
      rfl

/-- The upgraded successor table maps the head of a chain to zero and any other hash to its
successor. -/
theorem get_successor {env : LmdbEnvironment}
    (hlist : Listed s.keys s.successorBytes env.successors) (h next : BlockHash) :
    SuccessorStore.get env h = some next ↔ ∃ r, s.records.get h = some r ∧ r.successor = next := by
  rw [SuccessorStore.get, hlist h]
  by_cases hmem : h ∈ s.keys
  · obtain ⟨r, hr⟩ := s.mem_keys.mp hmem
    rw [if_pos hmem, successorBytes, hr, bind_some, BlockHash.fromSlice_serialize]
    simp only [some.injEq, exists_eq_left']
  · rw [if_neg hmem]
    refine ⟨nofun, fun ⟨r, hr, _⟩ => absurd (s.mem_keys.mpr ⟨r, hr⟩) hmem⟩

/-- In complete chains the successor of a block is the stored block that it precedes. -/
theorem isSuccessor_iff (h next : BlockHash) :
    s.IsSuccessor h next ↔ next ≠ 0 ∧ ∃ r, s.records.get h = some r ∧ r.successor = next := by
  constructor
  · rintro ⟨hzero, r, hr, rfl⟩
    obtain ⟨p, hp, hnext⟩ := s.previous hr hzero
    refine ⟨?_, p, hp, hnext⟩
    rw [← s.hash hr]
    exact r.block.hash_ne_zero
  · rintro ⟨hzero, r, hr, rfl⟩
    obtain ⟨next, hnext, hprev⟩ := s.successor hr hzero
    refine ⟨?_, next, hnext, hprev⟩
    rw [← s.hash hr]
    exact r.block.hash_ne_zero

/-- A block has one successor. -/
theorem isSuccessor_unique {next next' : BlockHash} (hnext : s.IsSuccessor h next)
    (hnext' : s.IsSuccessor h next') : next = next' := by
  obtain ⟨-, r, hr, rfl⟩ := (s.isSuccessor_iff h next).mp hnext
  obtain ⟨-, r', hr', rfl⟩ := (s.isSuccessor_iff h next').mp hnext'
  rw [some.inj (hr.symm.trans hr')]

/-! ### Insertion of the same blocks -/

/-- The upgraded blocks in any order, each of them once. -/
structure Lists (blocks : List SavedBlock) : Prop where
  nodup : blocks.Nodup
  mem : ∀ sb, sb ∈ blocks ↔ ∃ h r, s.records.get h = some r ∧ r.upgraded = sb

/-- A store after the insertion of some of the blocks. -/
structure Holds (done : List SavedBlock) (t : BlockStore) : Prop where
  nextId : t.nextId = done.length
  numbered : Numbered (done.map (·.block.hash)) s.newData t.env.blockIndex t.env.blockData
  successors : ∀ p x, t.env.successors.get p = some x ↔
    p ≠ 0 ∧ ∃ sb ∈ done, sb.block.previous = p ∧ sb.block.hash.serialize = x

variable {s}

theorem Lists.record (hbs : s.Lists blocks) (hsb : sb ∈ blocks) :
    ∃ r, s.records.get sb.block.hash = some r ∧ r.upgraded = sb := by
  obtain ⟨h, r, hr, rfl⟩ := (hbs.mem sb).mp hsb
  refine ⟨r, ?_, rfl⟩
  change s.records.get r.block.hash = some r
  rw [s.hash hr, hr]

theorem Lists.eq_of_hash (hbs : s.Lists blocks) {sb' : SavedBlock} (hsb : sb ∈ blocks)
    (hsb' : sb' ∈ blocks) (hhash : sb.block.hash = sb'.block.hash) : sb = sb' := by
  obtain ⟨r, hr, rfl⟩ := hbs.record hsb
  obtain ⟨r', hr', rfl⟩ := hbs.record hsb'
  rw [hhash, hr'] at hr
  rw [some.inj hr]

theorem Lists.isSuccessor (hbs : s.Lists blocks) (hsb : sb ∈ blocks)
    (hprev : sb.block.previous ≠ 0) : s.IsSuccessor sb.block.previous sb.block.hash := by
  obtain ⟨r, hr, rfl⟩ := hbs.record hsb
  exact ⟨hprev, r, hr, rfl⟩

/-- One more block gets the next id. -/
theorem Holds.put {done rest : List SavedBlock} (hbs : s.Lists (done ++ sb :: rest))
    (h : s.Holds done t) :
    ∃ t', t.put sb = .ok t' ∧ t'.nextId = (done ++ [sb]).length ∧
      t'.env.successors = t.env.successors ∧
      Numbered ((done ++ [sb]).map (·.block.hash)) s.newData t'.env.blockIndex t'.env.blockData := by
  have hsb : sb ∈ done ++ sb :: rest := mem_append_right _ mem_cons_self
  have hnew : sb.block.hash ∉ done.map (·.block.hash) := by
    intro hmem
    obtain ⟨sb', hsb', hhash⟩ := mem_map.mp hmem
    have heq := hbs.eq_of_hash (mem_append_left _ hsb') hsb hhash
    have hdisjoint := (nodup_append.mp hbs.nodup).2.2
    exact hdisjoint sb' hsb' sb mem_cons_self heq
  have hdata : s.newData sb.block.hash = sb.serializeWithSideband := by
    obtain ⟨r, hr, rfl⟩ := hbs.record hsb
    rw [newData, hr]
  have hlen : t.nextId = (done.map (·.block.hash)).length := by
    rw [h.nextId, length_map]
  refine ⟨_, put_eq_ok ?_ fun hget => ?_, ?_, rfl, ?_⟩
  · rw [h.numbered.index, if_neg hnew]
  · rw [hlen]
    exact h.numbered.lt_of_data hget
  · rw [length_append, h.nextId]
    rfl
  · rw [map_append, hlen, ← hdata]
    exact h.numbered.put hnew

/-- The insertion of one more block. -/
theorem Holds.insertBlock {done rest : List SavedBlock} (hbs : s.Lists (done ++ sb :: rest))
    (h : s.Holds done t) : ∃ t', t.insertBlock sb = .ok t' ∧ s.Holds (done ++ [sb]) t' := by
  obtain ⟨t1, hput, hnext, hsuccs, hnum⟩ := h.put hbs
  have hsb : sb ∈ done ++ sb :: rest := mem_append_right _ mem_cons_self
  by_cases hprev : sb.block.previous = 0
  · refine ⟨t1, ?_, hnext, hnum, fun p x => ?_⟩
    · simp only [BlockStore.insertBlock, bind_eq_ok]
      refine ⟨t1, hput, ?_⟩
      rw [if_neg (not_not.mpr hprev)]
      rfl
    · rw [hsuccs, h.successors]
      refine and_congr_right fun hp => ?_
      simp only [mem_append, mem_singleton, or_and_right, exists_or, exists_eq_left]
      exact ⟨.inl, fun hor => hor.elim id fun hx => absurd (hx.1.symm.trans hprev) hp⟩
  · refine ⟨{ t1 with env := SuccessorStore.put t1.env sb.block.previous sb.block.hash }, ?_, hnext,
      hnum, fun p x => ?_⟩
    · simp only [BlockStore.insertBlock, bind_eq_ok]
      refine ⟨t1, hput, ?_⟩
      rw [if_pos hprev]
      rfl
    · rw [SuccessorStore.put, get_put, hsuccs]
      simp only [mem_append, mem_singleton, or_and_right, exists_or, exists_eq_left]
      by_cases hp : p = sb.block.previous
      · rw [if_pos hp, some.injEq]
        constructor
        · rintro rfl
          exact ⟨hp ▸ hprev, .inr ⟨hp.symm, rfl⟩⟩
        · rintro ⟨-, ⟨sb', hsb', hp', rfl⟩ | ⟨-, rfl⟩⟩
          · -- Two blocks with one predecessor are one block.
            have hold := hbs.isSuccessor (mem_append_left _ hsb') (hp' ▸ hp ▸ hprev)
            have hnew := hbs.isSuccessor hsb hprev
            rw [hp', hp] at hold
            rw [s.isSuccessor_unique hold hnew]
          · rfl
      · rw [if_neg hp, h.successors]
        refine and_congr_right fun _ => ?_
        exact ⟨.inl, fun hor => hor.elim id fun hx => absurd hx.1.symm hp⟩

/-- The empty store. -/
def emptyEnv : LmdbEnvironment := ⟨some storeVersionCurrent, ∅, ∅, ∅, ∅⟩

/-- The insertion of all blocks into an empty store, in any order. -/
theorem Lists.insertAll (hbs : s.Lists blocks) :
    ∃ t, blocks.foldlM insertBlock (new emptyEnv) = .ok t ∧ s.Holds blocks t := by
  have hnext : (new emptyEnv).nextId = 0 := by
    rw [new, findNextFreeId, emptyEnv, sortedKeys_empty]
    rfl
  refine foldlM_prefix_ok [] ?_ ⟨hnext, Numbered.empty _, ?_⟩
  · intro t done sb rest hspl ht
    rw [nil_append] at hspl
    exact Holds.insertBlock (hspl ▸ hbs) ht
  · intro p x
    refine ⟨fun hget => ?_, fun ⟨_, sb, hsb, _⟩ => absurd hsb not_mem_nil⟩
    cases hget

theorem Holds.get_successor (hbs : s.Lists blocks) (h : s.Holds blocks t) (p next : BlockHash) :
    SuccessorStore.get t.env p = some next ↔ s.IsSuccessor p next := by
  rw [SuccessorStore.get, bind_eq_some_iff]
  constructor
  · rintro ⟨x, hx, hnext⟩
    obtain ⟨hp, sb, hsb, rfl, rfl⟩ := (h.successors p x).mp hx
    rw [BlockHash.fromSlice_serialize, some.injEq] at hnext
    rw [← hnext]
    exact hbs.isSuccessor hsb hp
  · rintro ⟨hp, r, hr, rfl⟩
    refine ⟨next.serialize, (h.successors _ _).mpr ⟨hp, r.upgraded, ?_, rfl, ?_⟩,
      BlockHash.fromSlice_serialize next⟩
    · exact (hbs.mem _).mpr ⟨next, r, hr, rfl⟩
    · rw [← s.hash hr]
      rfl

/-- A store of version 24 is upgraded without an error. The block store then has the same blocks
with their timestamps in milliseconds and no others, under different ids. For a hash that is not
the head of a chain the successor is the stored block that it precedes, if there is one; the heads
have the successor zero. Apart from the heads, an empty store into which the same blocks are
inserted answers in the same way. -/
theorem doUpgrades_v24 (s : V24Store H) : ∃ env, doUpgrades s.env = .ok (true, env) ∧
    env.version = some storeVersionCurrent ∧
    (∀ h, get H env h = .ok ((s.records.get h).map V24Record.upgraded)) ∧
    (∀ h h' id, env.blockIndex.get h = some id → env.blockIndex.get h' = some id → h = h') ∧
    (∀ id bytes, env.blockData.get id = some bytes → ∃ h, env.blockIndex.get h = some id) ∧
    (∀ h, ¬ s.IsHead h → ∀ next, get env h = some next ↔ s.IsSuccessor h next) ∧
    (∀ h, s.IsHead h → get env h = some 0) ∧
    ∀ blocks, s.Lists blocks →
      ∃ t, blocks.foldlM insertBlock (new emptyEnv) = .ok t ∧
        (∀ h, get H t.env h = get H env h) ∧
        ∀ h, ¬ s.IsHead h → get t.env h = get env h := by
  obtain ⟨env, hupgrade, hversion, hlisted, hnumbered⟩ := s.doUpgrades_env
  have hget := s.get_of_numbered (fun _ => s.mem_keys) hnumbered
  have hsuccessor : ∀ h, ¬ s.IsHead h → ∀ next,
      get env h = some next ↔ s.IsSuccessor h next := by
    intro h hhead next
    rw [s.get_successor hlisted, s.isSuccessor_iff]
    refine ⟨fun ⟨r, hr, hnext⟩ => ⟨fun hzero => hhead ⟨r, hr, hnext.trans hzero⟩, r, hr, hnext⟩,
      And.right⟩
  refine ⟨env, hupgrade, hversion, hget, fun h h' id => hnumbered.index_injective, ?_, hsuccessor,
    fun h hhead => (s.get_successor hlisted h 0).mpr hhead, ?_⟩
  · intro id bytes hbytes
    refine hnumbered.exists_index ?_ hbytes
    exact (Table.pairwise_sortedKeys _ s.env.blocks).imp And.right
  · intro blocks hblocks
    obtain ⟨t, hinsert, ht⟩ := hblocks.insertAll
    have hkeys : ∀ h, h ∈ blocks.map (·.block.hash) ↔ ∃ r, s.records.get h = some r := by
      intro h
      rw [List.mem_map]
      constructor
      · rintro ⟨sb, hsb, rfl⟩
        obtain ⟨r, hr, -⟩ := hblocks.record hsb
        exact ⟨r, hr⟩
      · rintro ⟨r, hr⟩
        exact ⟨r.upgraded, (hblocks.mem _).mpr ⟨h, r, hr, rfl⟩, s.hash hr⟩
    refine ⟨t, hinsert, fun h => ?_, fun h hhead => ?_⟩
    · rw [s.get_of_numbered hkeys ht.numbered, hget]
    · refine ext fun next => ?_
      rw [ht.get_successor hblocks, hsuccessor h hhead]

/-! ### A chain of two blocks -/

/-- A hash that tells blocks of different types apart. -/
def lengthBlake2b : Blake2b where
  hash bytes := ⟨BitVec.ofNat 256 (bytes.length % 256 + 1)⟩
  hash_ne_zero bytes h := by
    have hnum := congrArg (fun x => x.number.toNat) h
    change (BitVec.ofNat 256 (bytes.length % 256 + 1)).toNat = 0 at hnum
    rw [BitVec.toNat_ofNat, Nat.mod_eq_of_lt (by omega)] at hnum
    omega

def exampleOpen : OpenBlock := OpenBlock.new lengthBlake2b 5 6 7 0 0

def exampleSend : SendBlock := SendBlock.new lengthBlake2b exampleOpen.hash 8 100 0 0

def exampleOpenRecord : V24Record lengthBlake2b where
  block := .legacyOpen exampleOpen
  successor := exampleSend.hash
  sideband := ⟨1, 1000, 7, 200, ⟨.epoch0, false, true, false⟩, .epoch0⟩
  hashed := rfl
  stored := rfl

def exampleSendRecord : V24Record lengthBlake2b where
  block := .legacySend exampleSend
  successor := 0
  sideband := ⟨2, 2000, 7, 100, ⟨.epoch0, true, false, false⟩, .epoch0⟩
  hashed := rfl
  stored := rfl

def exampleRecords : Table BlockHash (V24Record lengthBlake2b) :=
  ((∅ : Table BlockHash (V24Record lengthBlake2b)).put exampleOpen.hash exampleOpenRecord).put
    exampleSend.hash exampleSendRecord

theorem exampleRecords_get {r : V24Record lengthBlake2b} (hr : exampleRecords.get h = some r) :
    h = exampleSend.hash ∧ r = exampleSendRecord ∨ h = exampleOpen.hash ∧ r = exampleOpenRecord := by
  rcases eq_or_of_get_put hr with ⟨rfl, rfl⟩ | ⟨-, hr⟩
  · exact .inl ⟨rfl, rfl⟩
  · rcases eq_or_of_get_put hr with ⟨rfl, rfl⟩ | ⟨-, hr⟩
    · exact .inr ⟨rfl, rfl⟩
    · cases hr

theorem exampleRecords_open : exampleRecords.get exampleOpen.hash = some exampleOpenRecord := by
  rw [exampleRecords, get_put_of_ne _ _ (by decide), get_put_self]

theorem exampleRecords_send : exampleRecords.get exampleSend.hash = some exampleSendRecord := by
  rw [exampleRecords, get_put_self]

/-- An account with an open block and a send. -/
def exampleStore : V24Store lengthBlake2b where
  records := exampleRecords
  hash hr := by
    obtain ⟨rfl, rfl⟩ | ⟨rfl, rfl⟩ := exampleRecords_get hr
    · rfl
    · rfl
  previous hr hprev := by
    obtain ⟨rfl, rfl⟩ | ⟨rfl, rfl⟩ := exampleRecords_get hr
    · exact ⟨_, exampleRecords_open, rfl⟩
    · exact absurd rfl hprev
  successor hr hsuccessor := by
    obtain ⟨rfl, rfl⟩ | ⟨rfl, rfl⟩ := exampleRecords_get hr
    · exact absurd rfl hsuccessor
    · exact ⟨_, exampleRecords_send, rfl⟩

/-- The send comes back with its time in milliseconds, and the open block has it as its successor,
as in a store into which both blocks are inserted. -/
theorem doUpgrades_exampleStore : ∃ env, doUpgrades exampleStore.env = .ok (true, env) ∧
    get lengthBlake2b env exampleSend.hash = .ok (some ⟨.legacySend exampleSend,
      ⟨2, 2000000, 7, 100, ⟨.epoch0, true, false, false⟩, .epoch0⟩⟩) ∧
    get env exampleOpen.hash = some exampleSend.hash ∧
    ∃ t, [exampleOpenRecord.upgraded, exampleSendRecord.upgraded].foldlM insertBlock
        (new emptyEnv) = .ok t ∧
      get t.env exampleOpen.hash = get env exampleOpen.hash := by
  have hopen : ¬ exampleStore.IsHead exampleOpen.hash := by
    rintro ⟨r, hr, hhead⟩
    rw [some.inj (hr.symm.trans exampleRecords_open)] at hhead
    exact exampleSend.hash_ne_zero hhead
  have hlists : exampleStore.Lists [exampleOpenRecord.upgraded, exampleSendRecord.upgraded] := by
    refine ⟨by decide, fun sb => ?_⟩
    rw [List.mem_cons, List.mem_singleton]
    constructor
    · rintro (rfl | rfl)
      · exact ⟨_, _, exampleRecords_open, rfl⟩
      · exact ⟨_, _, exampleRecords_send, rfl⟩
    · rintro ⟨h, r, hr, rfl⟩
      obtain ⟨-, rfl⟩ | ⟨-, rfl⟩ := exampleRecords_get hr
      · exact .inr rfl
      · exact .inl rfl
  obtain ⟨env, hupgrade, -, hget, -, -, hsuccessor, -, hinsert⟩ := doUpgrades_v24 exampleStore
  obtain ⟨t, ht, -, hsame⟩ := hinsert _ hlists
  refine ⟨env, hupgrade, ?_, ?_, t, ht, hsame _ hopen⟩
  · rw [hget]
    rfl
  · exact (hsuccessor _ hopen _).mpr
      ⟨exampleOpen.hash_ne_zero, exampleSendRecord, exampleRecords_send, rfl⟩

/-- After the upgrade the last block of the account has a successor that is no block. -/
theorem successor_exampleSend : ∃ env, doUpgrades exampleStore.env = .ok (true, env) ∧
    get env exampleSend.hash = some 0 ∧
    ¬ exampleStore.IsSuccessor exampleSend.hash 0 := by
  obtain ⟨env, hupgrade, -, hlisted, -⟩ := exampleStore.doUpgrades_env
  refine ⟨env, hupgrade, ?_, fun h => ?_⟩
  · exact (exampleStore.get_successor hlisted _ _).mpr ⟨_, exampleRecords_send, rfl⟩
  · exact ((exampleStore.isSuccessor_iff _ _).mp h).1 rfl

end V24Store

end RsNano
