import RsNano.Ledger.Run
import RsNano.Types.BlockCodec

/-!
# The stored form of accepted blocks

The sideband of a legacy block is stored without its details, its source epoch and, where the
block implies them, without account, height and balance. What the reader fills in is what the
validator computed: a legacy block leaves its account in epoch zero, a legacy open block is the
first of its account, and a balance field is the new balance.
-/

namespace RsNano.Ledger

variable {c : LedgerConstants} {minWeight : Amount} {l : Ledger} {b : Block} {now : ℕ}

/-- The stored form of an accepted block is the block itself. -/
theorem Chained.saved_eq (hl : l.Chained) (hv : (l.createValidator c b now).Passes) :
    (l.createValidator c b now).saved = ⟨b, (l.createValidator c b now).newSideband⟩ := by
  have hht := hl.saved_height hv
  have hbal := hl.saved_balance hv
  have hdet : b.isLegacy = true → (l.createValidator c b now).newSideband.details =
      ⟨.epoch0, (l.createValidator c b now).isSend, (l.createValidator c b now).isReceive,
        (l.createValidator c b now).isEpochBlock⟩ := by
    intro hleg
    rw [← hl.legacy_epoch hv hleg]
    rfl
  have hsrc : b.isLegacy = true →
      (l.createValidator c b now).newSideband.sourceEpoch = .epoch0 := legacy_sourceEpoch hv
  refine congrArg (SavedBlock.mk b) ?_
  cases b with
  | state _ => exact BlockSideband.ext rfl rfl rfl hbal rfl rfl
  | legacySend _ =>
    exact BlockSideband.ext rfl rfl rfl hbal (hdet rfl).symm (hsrc rfl).symm
  | _ => exact BlockSideband.ext hht rfl rfl rfl (hdet rfl).symm (hsrc rfl).symm

/-- The saved block that an insertion returns is the one that the validator described. -/
theorem saved_of_insert {m l' : Ledger} {i : BlockInsertInstructions} {sb : SavedBlock}
    (h : m.insert b i = .ok (some (l', sb))) : sb = ⟨b, i.setSideband⟩ := by
  rw [insert] at h
  split at h
  · cases h
  · simp only [bind_eq_ok] at h
    obtain ⟨-, -, -, -, -, -, l4, -, h⟩ := h
    cases h
    rfl

/-- Every block that is accepted on a reachable ledger and then inserted, on that ledger or on a
later one, is read back from its bytes with its whole sideband. Its height and timestamp are
64-bit words in the bytes; within that range the saved block itself comes back. -/
theorem reachable_storedBlock {H : Blake2b} (h : Reachable c minWeight l) (hhash : b.Hashed H)
    {i : BlockInsertInstructions} (hvalid : (l.createValidator c b now).validate = .ok i)
    {m l' : Ledger} {sb : SavedBlock} (hinsert : m.insert b i = .ok (some (l', sb))) :
    SavedBlock.deserialize H sb.serializeWithSideband = .ok (sb.asU64, []) ∧
    (sb.sideband.height < 2 ^ 64 → sb.sideband.timestamp < 2 ^ 64 → sb.asU64 = sb) ∧
    sb.serializeWithSideband.length = 1 + serializedBlockSize sb.block.blockType +
      BlockSideband.serializedSize sb.block.blockType := by
  obtain ⟨hpasses, rfl⟩ := BlockValidator.validate_eq_ok.mp hvalid
  obtain rfl := saved_of_insert hinsert
  have hstored : (SavedBlock.mk b (l.createValidator c b now).newSideband).stored =
      ⟨b, (l.createValidator c b now).newSideband⟩ := h.chained.saved_eq hpasses
  refine ⟨?_, SavedBlock.asU64_eq_self, SavedBlock.length_serializeWithSideband _⟩
  have hread : Reader.Reads (SavedBlock.deserialize H)
      (SavedBlock.mk b (l.createValidator c b now).newSideband).serializeWithSideband
      (SavedBlock.mk b (l.createValidator c b now).newSideband).stored.asU64 :=
    SavedBlock.reads hhash
  have hbytes := hread []
  rw [List.append_nil, hstored] at hbytes
  exact hbytes

/-- A hash function that knows one hash, for runs with one new block. -/
def constBlake2b (hash : BlockHash) (h : hash ≠ 0) : Blake2b := ⟨fun _ => hash, fun _ => h⟩

/-- The first send of the dev network is read back. -/
theorem storedBlock_devSend : ∃ now i l' sb,
    ((genesis devConstants 0).createValidator devConstants (.state devSend) now).validate = .ok i ∧
    (genesis devConstants 0).insert (.state devSend) i = .ok (some (l', sb)) ∧
    SavedBlock.deserialize (constBlake2b devSend.hash devSend.hash_ne_zero)
      sb.serializeWithSideband = .ok (sb.asU64, []) ∧
    (sb.sideband.height < 2 ^ 64 → sb.sideband.timestamp < 2 ^ 64 → sb.asU64 = sb) ∧
    sb.serializeWithSideband.length = 1 + serializedBlockSize sb.block.blockType +
      BlockSideband.serializedSize sb.block.blockType := by
  have hinserts : (genesis devConstants 0).Inserts devConstants (.state devSend)
      ((genesis devConstants 0).processed devConstants (.state devSend)) :=
    inserts_processed (by decide +kernel)
  have hhash : (Block.state devSend).Hashed
      (constBlake2b devSend.hash devSend.hash_ne_zero) := rfl
  obtain ⟨now, i, sb, hvalid, hinsert⟩ := hinserts
  exact ⟨now, i, _, sb, hvalid, hinsert, reachable_storedBlock .refl hhash hvalid hinsert⟩

end RsNano.Ledger
