import RsNano.Ledger.Store

/-!
# Final vote verification

Before the node votes final for a block it records the vote under the qualified root of the
block, in a write transaction. A record is never overwritten or deleted.

The root that comes with a hash is passed on; otherwise only a debug assertion uses it. A
refresh of the transaction splits a call into calls for parts of the list.
-/

namespace RsNano.Ledger

/-- All dependencies of a block are confirmed. -/
def dependentsConfirmed (c : LedgerConstants) (l : Ledger) (block : SavedBlock) : Bool :=
  (block.dependentBlocks c).iter.all l.isConfirmed

/-- Record a final vote. The answer is whether the record now names the given hash. -/
def putFinalVote (l : Ledger) (root : QualifiedRoot) (hash : BlockHash) : Ledger × Bool :=
  match l.finalVote.get root with
  | none => ({ l with finalVote := l.finalVote.put root hash }, true)
  | some recorded => (l, recorded = hash)

/-- Decide whether to vote final for a block, and record it. -/
def shouldVoteFinal (c : LedgerConstants) (l : Ledger) (hash : BlockHash) : Ledger × Bool :=
  match l.getBlock hash with
  | none => (l, false)
  | some block =>
    if l.dependentsConfirmed c block then l.putFinalVote block.block.qualifiedRoot hash
    else (l, false)

/-- `verify_votes` for final votes: the candidates that are verified. -/
def verifyFinalVotes (c : LedgerConstants) (l : Ledger) :
    List (Root × BlockHash) → Ledger × List (Root × BlockHash)
  | [] => (l, [])
  | (root, hash) :: candidates =>
    let (l, vote) := l.shouldVoteFinal c hash
    let (l, verified) := verifyFinalVotes c l candidates
    (l, if vote then (root, hash) :: verified else verified)

variable {c : LedgerConstants} {l : Ledger} {hash : BlockHash}

/-- What the verification of a candidate does: nothing, or it records a vote for a stored
block where there was none. -/
theorem shouldVoteFinal_cases (c : LedgerConstants) (l : Ledger) (hash : BlockHash) :
    (l.shouldVoteFinal c hash).1 = l ∨
      ∃ block, l.block.get hash = some block ∧ l.finalVote.get block.block.qualifiedRoot = none ∧
        (l.shouldVoteFinal c hash).1 =
          { l with finalVote := l.finalVote.put block.block.qualifiedRoot hash } := by
  rw [shouldVoteFinal]
  split
  · exact .inl rfl
  · next block hget =>
    rw [getBlock] at hget
    split at hget
    · cases hget
    · split
      · rw [putFinalVote]
        split
        · next hnone => exact .inr ⟨block, hget, hnone, rfl⟩
        · exact .inl rfl
      · exact .inl rfl

/-- A candidate that is verified is recorded. -/
theorem finalVote_of_shouldVoteFinal (h : (l.shouldVoteFinal c hash).2 = true) :
    ∃ block, l.block.get hash = some block ∧
      (l.shouldVoteFinal c hash).1.finalVote.get block.block.qualifiedRoot = some hash := by
  rw [shouldVoteFinal] at h ⊢
  split at h
  · cases h
  · next block hget =>
    split at h
    · next hconf =>
      refine ⟨block, ?_, ?_⟩
      · rw [getBlock] at hget
        split at hget
        · cases hget
        · exact hget
      · simp only [hconf, if_true]
        rw [putFinalVote] at h ⊢
        split at h
        · exact Table.get_put_self _ _ _
        · next recorded hrec =>
          simp only [hrec]
          rw [← of_decide_eq_true h]
    · cases h

/-- Verification only writes final votes. -/
theorem shouldVoteFinal_frame (c : LedgerConstants) (l : Ledger) (hash : BlockHash) :
    ∃ votes, (l.shouldVoteFinal c hash).1 = { l with finalVote := votes } := by
  rcases shouldVoteFinal_cases c l hash with heq | ⟨block, -, -, heq⟩
  · exact ⟨l.finalVote, heq⟩
  · exact ⟨_, heq⟩

/-- Verification only writes final votes. -/
theorem verifyFinalVotes_frame (c : LedgerConstants) (l : Ledger)
    (candidates : List (Root × BlockHash)) :
    ∃ votes, (l.verifyFinalVotes c candidates).1 = { l with finalVote := votes } := by
  induction candidates generalizing l with
  | nil => exact ⟨l.finalVote, rfl⟩
  | cons candidate candidates ih =>
    obtain ⟨votes, hvotes⟩ := shouldVoteFinal_frame c l candidate.2
    obtain ⟨votes', hvotes'⟩ := ih (l.shouldVoteFinal c candidate.2).1
    refine ⟨votes', hvotes'.trans ?_⟩
    rw [hvotes]

end RsNano.Ledger
