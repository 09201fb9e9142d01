import RsNano.StoreLmdb.Upgrades

/-!
# Records of version 24

The bytes of a block in a store of version 24, and what the upgrade cuts out of them: the successor,
and the record that the node writes for the same block today.
-/

namespace RsNano

open BlockSideband List Bytes

/-- A block of a version 24 store. The sideband is the one that is read back from the stored bytes,
with the timestamp in seconds; the successor of the head of a chain is zero. -/
structure V24Record (H : Blake2b) where
  block : Block
  successor : BlockHash
  sideband : BlockSideband
  hashed : block.Hashed H
  stored : (SavedBlock.mk block sideband).stored.asU64 = ⟨block, sideband⟩

namespace V24Record

variable {H : Blake2b} (r : V24Record H)

/-- The bytes of a record: the block with its type, the successor, and the rest of the sideband. -/
def serialize : List Byte :=
  r.block.serialize ++ (r.successor.serialize ++ r.sideband.serialize r.block.blockType)

/-- The block with its timestamp in milliseconds, as a 64-bit word. -/
def upgraded : SavedBlock :=
  ⟨r.block, { r.sideband with timestamp := r.sideband.timestamp * 1000 % 2 ^ 64 }⟩

/-- The upgraded block is read back from its bytes. -/
theorem stored_upgraded : r.upgraded.stored.asU64 = r.upgraded := by
  have hst := r.stored
  obtain ⟨block, successor, sideband, hashed, stored⟩ := r
  rw [SavedBlock.mk.injEq, BlockSideband.ext_iff] at hst
  obtain ⟨-, hht, -, hacc, hbal, hdet, hsrc⟩ := hst
  refine congrArg (SavedBlock.mk block) (BlockSideband.ext ?_ ?_ ?_ ?_ ?_ ?_)
  · cases block <;> exact hht
  · cases block <;> exact Nat.mod_mod _ _
  · cases block <;> exact hacc
  · cases block <;> exact hbal
  · cases block <;> exact hdet
  · cases block <;> exact hsrc

theorem timestamp_mod : r.sideband.timestamp % 2 ^ 64 = r.sideband.timestamp := by
  have hst := congrArg (fun sb => sb.sideband.timestamp) r.stored
  obtain ⟨block, successor, sideband, hashed, stored⟩ := r
  cases block <;> exact hst

end V24Record

/-! ### The bytes of a record -/

/-- The timestamp of a sideband is followed by two bytes in a state block and by none in others. -/
theorem BlockSideband.exists_serialize_timestamp (s : BlockSideband) (t : BlockType) :
    ∃ before after, (∀ timestamp, ({ s with timestamp := timestamp }).serialize t =
      before ++ (ofNatBe 8 timestamp ++ after)) ∧
      after.length = if t = .state then 2 else 0 := by
  refine ⟨(if t.writesAccount then s.account.serialize else []) ++
    ((if t ≠ .legacyOpen then ofNatBe 8 s.height else []) ++
      (if t.writesBalance then Amount.serialize s.balance else [])),
    (if t = .state then [s.details.packed] else []) ++
      (if t = .state then [s.sourceEpoch.toByte] else []), fun timestamp => ?_, ?_⟩
  · rw [serialize]
    simp only [append_assoc]
  · by_cases hst : t = .state
    · simp only [if_pos hst]
      rfl
    · simp only [if_neg hst]
      rfl

theorem lengthSub_append (xs ys : List Byte) :
    lengthSub (xs ++ ys).length ys.length = .ok xs.length := by
  rw [lengthSub, length_append, if_pos (Nat.le_add_left _ _), Nat.add_sub_cancel]

theorem slice_append (xs ys zs : List Byte) :
    slice (xs ++ (ys ++ zs)) xs.length (xs.length + ys.length) = .ok ys := by
  have hbound : xs.length ≤ xs.length + ys.length ∧
      xs.length + ys.length ≤ (xs ++ (ys ++ zs)).length := by
    simp only [length_append]
    omega
  rw [slice, if_pos hbound, ← append_assoc, take_left' (length_append ..), drop_left]

theorem v24SidebandLen_eq (t : BlockType) : v24SidebandLen t = 32 + serializedSize t := by
  cases t <;> rfl

namespace V24Sideband

variable {H : Blake2b} (r : V24Record H)

theorem blockType_serialize : blockType r.serialize = .ok r.block.blockType := by
  rw [V24Record.serialize, Block.serialize, cons_append, blockType, BlockType.ofId_toId]

/-- The sideband starts where the block ends. -/
theorem sidebandStart_serialize : (sidebandLen r.serialize >>= lengthSub r.serialize.length) =
    .ok r.block.serialize.length := by
  have hlen : v24SidebandLen r.block.blockType =
      (r.successor.serialize ++ r.sideband.serialize r.block.blockType).length := by
    rw [v24SidebandLen_eq, length_append, U256.length_serialize, length_serialize]
  rw [sidebandLen, blockType_serialize]
  change lengthSub r.serialize.length (v24SidebandLen r.block.blockType) = _
  rw [hlen, V24Record.serialize, lengthSub_append]

theorem successor_serialize : successor r.serialize = .ok r.successor.serialize := by
  have hslice := slice_append r.block.serialize r.successor.serialize
    (r.sideband.serialize r.block.blockType)
  have hbeg := sidebandStart_serialize r
  simp only [bind_eq_ok] at hbeg
  obtain ⟨len, hlen, hbeg⟩ := hbeg
  simp only [successor, bind_eq_ok]
  exact ⟨len, hlen, _, hbeg, hslice⟩

theorem blockWithoutSideband_serialize :
    blockWithoutSideband r.serialize = .ok r.block.serialize := by
  have hslice := slice_append [] r.block.serialize
    (r.successor.serialize ++ r.sideband.serialize r.block.blockType)
  rw [length_nil, Nat.zero_add] at hslice
  have hbeg := sidebandStart_serialize r
  simp only [bind_eq_ok] at hbeg
  obtain ⟨len, hlen, hbeg⟩ := hbeg
  simp only [blockWithoutSideband, bind_eq_ok]
  exact ⟨len, hlen, _, hbeg, hslice⟩

theorem sidebandWithoutSuccessor_serialize :
    sidebandWithoutSuccessor r.serialize = .ok (r.sideband.serialize r.block.blockType) := by
  have hlen : sidebandLen r.serialize = .ok (32 + serializedSize r.block.blockType) := by
    rw [sidebandLen, blockType_serialize, ← v24SidebandLen_eq]
    rfl
  have hnew : lengthSub (32 + serializedSize r.block.blockType) 32 =
      .ok (r.sideband.serialize r.block.blockType).length := by
    rw [lengthSub, if_pos (Nat.le_add_right _ _), Nat.add_sub_cancel_left, length_serialize]
  have hspl : r.serialize = (r.block.serialize ++ r.successor.serialize) ++
      (r.sideband.serialize r.block.blockType ++ []) := by
    rw [V24Record.serialize, append_assoc, append_nil]
  have hbeg : lengthSub r.serialize.length (r.sideband.serialize r.block.blockType).length =
      .ok (r.block.serialize ++ r.successor.serialize).length := by
    rw [hspl, append_nil, lengthSub_append]
  have hslice := slice_append (r.block.serialize ++ r.successor.serialize)
    (r.sideband.serialize r.block.blockType) []
  simp only [sidebandWithoutSuccessor, bind_eq_ok]
  refine ⟨_, hlen, _, hnew, _, hbeg, ?_⟩
  rw [← hspl] at hslice
  have hend : (r.block.serialize ++ r.successor.serialize).length +
      (r.sideband.serialize r.block.blockType).length = r.serialize.length := by
    rw [hspl, append_nil]
    exact length_append.symm
  rw [hend] at hslice
  exact hslice

/-- The new record is the upgraded block as the node writes it. -/
theorem removeSuccessorAndUpgradeTimestampToMillis_serialize :
    removeSuccessorAndUpgradeTimestampToMillis r.serialize =
      .ok r.upgraded.serializeWithSideband := by
  obtain ⟨before, after, hspl, hlen⟩ := r.sideband.exists_serialize_timestamp r.block.blockType
  have hold := hspl r.sideband.timestamp
  have hbytes : r.block.serialize ++ r.sideband.serialize r.block.blockType =
      (r.block.serialize ++ before) ++ (ofNatBe 8 r.sideband.timestamp ++ after) := by
    rw [append_assoc, ← hold]
  have hbeg : timestampStart r.serialize
      (r.block.serialize ++ r.sideband.serialize r.block.blockType) =
        .ok (r.block.serialize ++ before).length := by
    have hlength : ((r.block.serialize ++ before) ++
        (ofNatBe 8 r.sideband.timestamp ++ after)).length =
          (r.block.serialize ++ before).length + after.length + 8 := by
      simp only [length_append, length_ofNatBe]
      omega
    rw [hbytes, timestampStart, hlength, lengthSub, if_pos (Nat.le_add_left _ _),
      Nat.add_sub_cancel, blockType_serialize, hlen]
    by_cases hst : r.block.blockType = .state
    · change (if r.block.blockType = .state then _ else _) = _
      rw [if_pos hst, if_pos hst, lengthSub, if_pos (Nat.le_add_left _ _), Nat.add_sub_cancel]
    · change (if r.block.blockType = .state then _ else _) = _
      rw [if_neg hst, if_neg hst]
      rfl
  have hslice := slice_append (r.block.serialize ++ before) (ofNatBe 8 r.sideband.timestamp) after
  have hmillis : toNatBe (ofNatBe 8 r.sideband.timestamp) = r.sideband.timestamp := by
    rw [toNatBe_ofNatBe]
    exact r.timestamp_mod
  simp only [removeSuccessorAndUpgradeTimestampToMillis, bind_eq_ok]
  refine ⟨_, blockWithoutSideband_serialize r, _, sidebandWithoutSuccessor_serialize r, ?_⟩
  simp only [upgradeTimestampToMillis, bind_eq_ok, pure_eq_ok]
  refine ⟨_, hbeg, _, by rw [hbytes]; exact hslice, ?_⟩
  rw [hmillis, hbytes, take_left]
  have hdrop : ((r.block.serialize ++ before) ++ (ofNatBe 8 r.sideband.timestamp ++
      after)).drop ((r.block.serialize ++ before).length + 8) = after := by
    rw [← drop_drop, drop_left, drop_left' (length_ofNatBe _ _)]
  rw [hdrop, append_assoc]
  exact congrArg (r.block.serialize ++ ·) (hspl _).symm

end V24Sideband

end RsNano
