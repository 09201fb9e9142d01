import Mathlib.Algebra.Order.BigOperators.Group.Finset
import RsNano.Consensus.ElectionConfirmation

/-!
# Conflicting confirmations

Every node confirms by itself, with a quorum that it computes from the weights it has seen online.
Two nodes that have seen all the final voters online can confirm different blocks only if a third
of that weight has voted for both.
-/

namespace RsNano

/-- The weights that the quorum is computed from. -/
structure OnlineReps where
  trendedWeight : Amount
  onlineWeight : Amount
  onlineWeightMinimum : Amount

namespace OnlineReps

variable (r : OnlineReps)

def onlineWeightQuorum : ℕ := 67

def trendedOrMinimumWeight : ℕ := max r.trendedWeight.toNat r.onlineWeightMinimum.toNat

def quorumWeight : ℕ := max r.onlineWeight.toNat r.trendedOrMinimumWeight

def quorumDelta : Amount := BitVec.ofNat 128 (r.quorumWeight * onlineWeightQuorum / 100)

theorem toNat_quorumDelta : r.quorumDelta.toNat = r.quorumWeight * 67 / 100 := by
  rw [quorumDelta, BitVec.toNat_ofNat, onlineWeightQuorum, Nat.mod_eq_of_lt]
  rw [quorumWeight, trendedOrMinimumWeight]
  omega

end OnlineReps

namespace Election

open Finset

/-- The weight of a set of voters. -/
def weightOf (w : Table PublicKey Amount) (voters : Finset PublicKey) : ℕ :=
  ∑ voter ∈ voters, ((w.get voter).getD 0).toNat

/-- The voters with a final vote for the winner. -/
def finalVoters (e : Election) : Finset PublicKey :=
  (Finmap.keys e.votes).filter fun voter =>
    ∃ vote ∈ e.votes.get voter, vote.hash = e.winner.hash ∧ vote.isFinalVote = true

/-- The voters with final votes for different blocks. -/
def equivocators (e e' : Election) : Finset PublicKey :=
  (Finmap.keys e.votes).filter fun voter =>
    ∃ vote ∈ e.votes.get voter, ∃ vote' ∈ e'.votes.get voter,
      vote.isFinalVote = true ∧ vote'.isFinalVote = true ∧ vote.hash ≠ vote'.hash

/-- An update has confirmed the election, whatever the node did with it before. -/
inductive ConfirmedWith (w : Table PublicKey Amount) (quorumDelta : Amount) (e' : Election) : Prop
  | update {debugAssertions block behavior baseLatency now e} (order : List PublicKey)
    (run : Run debugAssertions (fun _ _ => True) (new block behavior baseLatency now) e)
    (isOrder : e.votes.IsOrder order) (unconfirmed : e.state ≠ .confirmed)
    (confirmed : e'.state = .confirmed)
    (update : e.updateTallies order w quorumDelta = .ok e')

variable {e e' : Election} {w : Table PublicKey Amount} {quorumDelta : Amount}

theorem finalWeight_eq : e.finalWeight w = weightOf w e.finalVoters := by
  rw [weightOf, finalVoters, sum_filter, finalWeight, Table.sumBy]
  change _ = ((Multiset.map Sigma.fst e.votes.entries).map _).sum
  rw [Multiset.map_map]
  refine congrArg Multiset.sum (Multiset.map_congr rfl ?_)
  rintro ⟨voter, vote⟩ hmem
  simp [Table.mem_entries_iff.mp hmem]

theorem ConfirmedWith.quorumDelta_le (h : e.ConfirmedWith w quorumDelta) :
    quorumDelta.toNat ≤ weightOf w e.finalVoters := by
  obtain ⟨order, hrun, hord, hnew, hconf, hupd⟩ := h
  have hk := (keyed_new ..).run hrun
  obtain ⟨_, _, _, ⟨⟩, hle, -⟩ := hk.confirmedBy_updateTallies hord hupd hnew hconf
  exact finalWeight_eq ▸ hle

/-- Two nodes that confirm different blocks, and have seen all the final voters online, have final
votes for different blocks from a third of the weight that they have seen. -/
theorem confirmedWith_equivocators {r r' : OnlineReps}
    (h : e.ConfirmedWith w r.quorumDelta) (h' : e'.ConfirmedWith w r'.quorumDelta)
    (hne : e.winner.hash ≠ e'.winner.hash)
    (honline : weightOf w (e.finalVoters ∪ e'.finalVoters) ≤ min r.quorumWeight r'.quorumWeight) :
    17 * (r.quorumWeight + r'.quorumWeight) ≤ 100 * weightOf w (e.equivocators e') + 198 := by
  have hq := h.quorumDelta_le
  have hq' := h'.quorumDelta_le
  rw [OnlineReps.toNat_quorumDelta] at hq hq'
  have hsplit : weightOf w (e.finalVoters ∪ e'.finalVoters) +
      weightOf w (e.finalVoters ∩ e'.finalVoters) =
      weightOf w e.finalVoters + weightOf w e'.finalVoters := sum_union_inter
  have hinter : weightOf w (e.finalVoters ∩ e'.finalVoters) ≤ weightOf w (e.equivocators e') := by
    refine sum_le_sum_of_subset fun voter hmem => ?_
    obtain ⟨hf, hf'⟩ := mem_inter.mp hmem
    obtain ⟨hvoter, vote, hvote, hhash, hfinal⟩ := mem_filter.mp hf
    obtain ⟨-, vote', hvote', hhash', hfinal'⟩ := mem_filter.mp hf'
    exact mem_filter.mpr
      ⟨hvoter, vote, hvote, vote', hvote', hfinal, hfinal', hhash ▸ hhash' ▸ hne⟩
  omega

/-- The election of the dev network after the voter has changed sides. -/
def devForkVote : Election :=
  (Operation.addVote 1 devZeroSend.hash UnixMillisTimestamp.max 0).result true devFinalVote

/-- The election is confirmed with a quorum of four raw. -/
def devDecided (e : Election) : Election := (Operation.updateTallies [1] devWeights 4).result true e

theorem equivocators_devForkVote : 17 * (7 + 7) ≤ 100 * weightOf devWeights
    ((devDecided devFinalVote).equivocators (devDecided devForkVote)) + 198 := by
  have hrun : Run true (fun _ _ => True) devElection devFinalVote :=
    run_devFinalVote trivial trivial
  have hrun' : Run true (fun _ _ => True) devElection devForkVote :=
    hrun.result trivial trivial (by decide +kernel)
  have h : (devDecided devFinalVote).ConfirmedWith devWeights (OnlineReps.quorumDelta ⟨7, 0, 0⟩) :=
    .update [1] hrun (by decide +kernel) (by decide +kernel) (by decide +kernel) (by decide +kernel)
  have h' : (devDecided devForkVote).ConfirmedWith devWeights (OnlineReps.quorumDelta ⟨7, 0, 0⟩) :=
    .update [1] hrun' (by decide +kernel) (by decide +kernel) (by decide +kernel)
      (by decide +kernel)
  exact confirmedWith_equivocators h h' (by decide +kernel) (by decide +kernel)

end Election

end RsNano
