import RsNano.Consensus.ElectionRun

/-!
# The confirmation of elections

An update confirms an election only with enough final weight for the winner, and an election
that has ended does not change its mind. The operations may come in any order, with any
arguments; nothing is assumed about their callers.

The tallies add up weights as 128-bit words. For the final weight this is harmless, because a sum
that wraps is too small. The total that allows a change of winner can wrap too, and then a winner
with less weight than another candidate can be confirmed; the weights of the voters have to fit
into 128 bits, as the weights of the ledger do.
-/

namespace RsNano.Election

open Table

/-- Votes and candidates are stored under their own keys. -/
structure Keyed (e : Election) : Prop where
  votes : ∀ {voter vote}, e.votes.get voter = some vote → vote.voter = voter
  candidates : ∀ {hash b}, e.candidateBlocks.get hash = some b → b.hash = hash

/-- The weight of the voters. -/
def votingWeight (e : Election) (repWeights : Table PublicKey Amount) : ℕ :=
  e.votes.sumBy fun voter _ => ((repWeights.get voter).getD 0).toNat

/-- The weight of the voters with a final vote for the winner. -/
def finalWeight (e : Election) (repWeights : Table PublicKey Amount) : ℕ :=
  e.votes.sumBy fun voter vote =>
    if vote.hash = e.winner.hash ∧ vote.isFinalVote = true then
      ((repWeights.get voter).getD 0).toNat
    else 0

variable {e e' : Election} {hash : BlockHash} {debugAssertions : Bool}

/-- A new election is keyed. -/
theorem keyed_new (block : SavedBlock) (behavior : ElectionBehavior) (baseLatency : ℕ)
    (now : Timestamp) : (new block behavior baseLatency now).Keyed where
  votes := nofun
  candidates := by
    intro hash b hget
    obtain ⟨rfl, rfl⟩ := eq_of_get_put_empty hget
    rfl

/-- The removal of a block keeps the keys. -/
theorem Keyed.removeBlock (h : e.Keyed) (hash : BlockHash) : (e.removeBlock hash).1.Keyed := by
  rcases removeBlock_cases e hash with heq | ⟨b, -, -, heq⟩
  · rw [heq]
    exact h
  · rw [heq]
    exact ⟨fun hget => h.votes (get_retain_eq_some.mp hget).1,
      fun hget => h.candidates (get_of_get_del hget).2⟩

/-- A fork is added under its hash. -/
theorem Keyed.addFork (h : e.Keyed) {fork : Block} {forkTally : Amount}
    (hadd : e.addFork fork forkTally = .ok e') : e'.Keyed := by
  obtain ⟨-, -, rfl⟩ := addFork_eq_ok.mp hadd
  exact ⟨h.votes, forall_get_put (k := fork.hash) h.candidates rfl⟩

variable {order : List PublicKey} {repWeights : Table PublicKey Amount}

/-- Current weights keep the keys. -/
theorem Keyed.tallied (h : e.Keyed) (htal : e.Tallied order repWeights e') : e'.Keyed := by
  rw [htal.eq]
  refine ⟨?_, h.candidates⟩
  intro voter vote hget
  rw [updateVoteWeights, get_mapValues, Option.map_eq_some_iff] at hget
  obtain ⟨old, hold, rfl⟩ := hget
  have hvoter := h.votes hold
  exact hvoter

/-- An update keeps the keys. -/
theorem Keyed.updateTallies (h : e.Keyed) {quorumDelta : Amount}
    (hupd : e.updateTallies order repWeights quorumDelta = .ok e') : e'.Keyed := by
  rcases updateTallies_cases hupd with ⟨-, rfl⟩ | ⟨-, e1, e2, -, htal, hwin, rfl⟩
  · exact h
  · have he1 := h.tallied htal
    obtain ⟨b, rfl⟩ := exists_of_updateWinner hwin
    exact ⟨he1.votes, he1.candidates⟩

/-- Every operation keeps the keys. -/
theorem Keyed.apply (h : e.Keyed) {op : Operation} (hop : op.apply debugAssertions e = .ok e') :
    e'.Keyed := by
  cases effect_of_apply hop with
  | status hchg =>
    exact ⟨hchg.content.votes ▸ h.votes, hchg.content.candidateBlocks ▸ h.candidates⟩
  | votes hvotes =>
    refine ⟨fun hget => ?_, h.candidates⟩
    rcases hvotes hget with hvoter | ⟨old, hold, hvoter⟩
    · exact hvoter
    · exact hvoter.trans (h.votes hold)
  | removal _ hash => exact h.removeBlock hash
  | fork hfork =>
    rcases tryAddFork_cases hfork with
      ⟨rfl, -⟩ | ⟨-, -, ⟨-, -, hadd⟩ | ⟨hash, removed, e2, -, hrem, hadd⟩⟩
    · exact h
    · exact h.addFork hadd
    · have he2 := h.removeBlock hash
      rw [hrem] at he2
      exact he2.addFork hadd
  | update hupd => exact h.updateTallies hupd

/-- Every run keeps the keys. -/
theorem Keyed.run (h : e.Keyed) {allowed : Election → Operation → Prop}
    (hrun : Run debugAssertions allowed e e') : e'.Keyed :=
  Machine.Run.invariant hrun h fun hk _ hop => hk.apply hop

section

variable {e1 e2 : Election} {order : List PublicKey} {repWeights : Table PublicKey Amount}
  {quorumDelta : Amount}

/-- With enough votes the winner is the block with the first tally. -/
theorem winner_of_updateWinner (hk : e1.Keyed) (hsum : ¬ e1.tallies.sum < quorumDelta)
    (h : e1.updateWinner quorumDelta = .ok e2) :
    e2.tallies = e1.tallies ∧
      e2.winner.hash = (e1.tallies.winner.map Prod.fst).getD e1.winner.hash := by
  have hchk : e1.checkNewWinner quorumDelta =
      if (e1.tallies.winner.map Prod.fst).getD e1.winner.hash ≠ e1.winner.hash then
        some ((e1.tallies.winner.map Prod.fst).getD e1.winner.hash)
      else none := by
    rw [checkNewWinner, if_neg hsum]
  rcases updateWinner_cases h with ⟨hnone, rfl⟩ | ⟨hash, b, hsome, hb, rfl⟩
  · refine ⟨rfl, ?_⟩
    rw [hchk] at hnone
    split at hnone
    · cases hnone
    · next heq => exact (not_not.mp heq).symm
  · refine ⟨rfl, ?_⟩
    rw [hchk] at hsome
    split at hsome
    · cases hsome
      exact hk.candidates hb
    · cases hsome

variable (hk : e.Keyed) (horder : e.votes.IsOrder order) (h : e.Tallied order repWeights e1)

include h

namespace Tallied

/-- The votes of an election with current weights. -/
theorem votes_eq :
    e1.votes = e.votes.mapValues fun _ vote =>
      { vote with weight := (repWeights.get vote.voter).getD 0 } := by
  rw [h.eq]
  rfl

include hk

/-- The weight of a vote is the current weight of the voter. -/
theorem weight_eq {voter : PublicKey} {vote : VoteSummary}
    (hget : e1.votes.get voter = some vote) : vote.weight = (repWeights.get voter).getD 0 := by
  rw [h.votes_eq, get_mapValues, Option.map_eq_some_iff] at hget
  obtain ⟨old, hold, rfl⟩ := hget
  rw [hk.votes hold]

/-- With enough votes the winner has the largest tally. -/
theorem get_le_of_enough (hwin : e1.updateWinner quorumDelta = .ok e2)
    (henough : ¬ e1.tallies.sum < quorumDelta) (hash : BlockHash) :
    e1.tallies.get hash ≤ e1.tallies.get e2.winner.hash := by
  obtain ⟨-, hhash⟩ := winner_of_updateWinner (hk.tallied h) henough hwin
  have hordered := BlockTallies.ordered_of_calculate h.tallies
  rw [hhash, BlockTallies.winner, BlockTallies.get, BlockTallies.get]
  cases hents : e1.tallies.entries with
  | nil => exact BitVec.le_refl _
  | cons x entries =>
    have hranked := hordered.ranked
    rw [hents] at hranked
    have hfst : Tally.get (x :: entries) x.1 = x.2 := by rw [Tally.get_cons, if_pos rfl]
    change _ ≤ Tally.get (x :: entries) x.1
    rw [hfst]
    exact hranked.get_le (fun w => BitVec.le_def.mpr (Nat.zero_le w.toNat)) hash

include horder

/-- The sum over the selected current votes. -/
theorem sum_currentVotes (p : VoteSummary → Bool) :
    ((((e.currentVotes order repWeights).filter p).map VoteSummary.weight).map BitVec.toNat).sum =
      e1.votes.sumBy fun voter vote =>
        if p vote = true then ((repWeights.get voter).getD 0).toNat else 0 := by
  have hvotes : (e.updateVoteWeights repWeights).votes = e1.votes := h.votes_eq.symm
  have horder1 : e1.votes.IsOrder order := h.votes_eq ▸ horder.mapValues _
  rw [List.map_map, currentVotes, hvotes, horder1.sum_filter]
  refine sumBy_congr fun voter vote hget => ?_
  rw [Function.comp_apply, h.weight_eq hk hget]

/-- The final tally of a block is at most the weight of the final votes for it. -/
theorem finalTally_le (hash : BlockHash) :
    (e1.finalTallies.get hash).toNat ≤ e1.votes.sumBy fun voter vote =>
      if vote.hash = hash ∧ vote.isFinalVote = true then ((repWeights.get voter).getD 0).toNat
      else 0 := by
  have hsum := h.sum_currentVotes hk horder fun vote =>
    decide (vote.hash = hash) && vote.isFinalVote
  simp only [Bool.and_eq_true, decide_eq_true_eq] at hsum
  rw [BlockTallies.get_of_calculate h.finalTallies, List.filter_filter, ← hsum]
  exact Amount.toNat_sum_le _

/-- The tallies add up to the weight of the voters, where that fits. -/
theorem sum_eq (hfit : e1.votingWeight repWeights < 2 ^ 128) :
    e1.tallies.sum.toNat = e1.votingWeight repWeights := by
  have hsum := h.sum_currentVotes hk horder fun _ => true
  rw [List.filter_true] at hsum
  rw [BlockTallies.sum_of_calculate h.tallies]
  exact (Amount.toNat_sum (hsum ▸ hfit)).trans hsum

/-- A winner that can be confirmed has the largest tally. -/
theorem get_le_winner (hwin : e1.updateWinner quorumDelta = .ok e2)
    (hfin : quorumDelta ≤ e1.finalTallies.get e2.winner.hash)
    (hfit : e1.votingWeight repWeights < 2 ^ 128) (hash : BlockHash) :
    e1.tallies.get hash ≤ e1.tallies.get e2.winner.hash := by
  have henough : ¬ e1.tallies.sum < quorumDelta := by
    have hle := h.finalTally_le hk horder e2.winner.hash
    have hall : (e1.votes.sumBy fun voter vote =>
        if vote.hash = e2.winner.hash ∧ vote.isFinalVote = true then
          ((repWeights.get voter).getD 0).toNat
        else 0) ≤ e1.votingWeight repWeights := by
      refine sumBy_le_sumBy fun voter vote _ => ?_
      split
      · exact le_rfl
      · exact Nat.zero_le _
    have hsum := h.sum_eq hk horder hfit
    rw [BitVec.le_def] at hfin
    rw [BitVec.lt_def]
    omega
  exact h.get_le_of_enough hk hwin henough hash

end Tallied

end

/-- An operation confirms the election as it should: it is an update, the final votes for the
winner have the weight that the update asks for, and no other candidate has a larger tally if the
weights of the voters fit into an amount. -/
def ConfirmedBy (e : Election) (op : Operation) : Prop :=
  ∃ order repWeights quorumDelta, op = .updateTallies order repWeights quorumDelta ∧
    quorumDelta.toNat ≤ e.finalWeight repWeights ∧
    (e.votingWeight repWeights < 2 ^ 128 → ∀ hash, e.containsBlock hash = true →
      e.tallies.get hash ≤ e.tallies.get e.winner.hash)

/-- An update confirms an election as it should. -/
theorem Keyed.confirmedBy_updateTallies (hk : e.Keyed) {quorumDelta : Amount}
    (horder : e.votes.IsOrder order) (h : e.updateTallies order repWeights quorumDelta = .ok e')
    (hnew : e.state ≠ .confirmed) (hconf : e'.state = .confirmed) :
    e'.ConfirmedBy (.updateTallies order repWeights quorumDelta) := by
  rcases updateTallies_cases h with ⟨-, rfl⟩ | ⟨-, e1, e2, hasQuorum, htal, hwin, rfl⟩
  · exact absurd hconf hnew
  · have hsame : e2.tallies = e1.tallies ∧ e2.finalTallies = e1.finalTallies ∧
        e2.votes = e1.votes ∧ e2.state = e.state := by
      have hst : e1.state = e.state := by
        rw [htal.eq]
        rfl
      obtain ⟨b, rfl⟩ := exists_of_updateWinner hwin
      exact ⟨rfl, rfl, rfl, hst⟩
    obtain ⟨htals, hfinalTallies, hvotes, hst⟩ := hsame
    have hfin : quorumDelta ≤ e1.finalTallies.get e2.winner.hash := by
      rw [← hfinalTallies]
      split at hconf
      · assumption
      · exact absurd (hst.symm.trans hconf) hnew
    refine ⟨order, repWeights, quorumDelta, rfl, ?_, ?_⟩
    · change _ ≤ e2.votes.sumBy _
      rw [hvotes]
      exact (BitVec.le_def.mp hfin).trans (htal.finalTally_le hk horder e2.winner.hash)
    · intro hfit hash _
      change e2.votes.sumBy _ < _ at hfit
      rw [hvotes] at hfit
      change e2.tallies.get hash ≤ e2.tallies.get e2.winner.hash
      rw [htals]
      exact htal.get_le_winner hk horder hwin hfin hfit hash

/-- Only updates confirm an election, apart from `force_confirm`. -/
theorem Keyed.confirmedBy (hk : e.Keyed) {op : Operation} (hforce : op ≠ .forceConfirm)
    (hfits : op.Fits e) (h : op.apply debugAssertions e = .ok e') (hnew : e.state ≠ .confirmed)
    (hconf : e'.state = .confirmed) : e'.ConfirmedBy op := by
  cases effect_of_apply h with
  | status hchg => exact absurd (hchg.confirmed hforce hconf) hnew
  | votes _ => exact absurd hconf hnew
  | removal _ hash =>
    exact absurd ((sameStatus_removeBlock e hash).state.symm.trans hconf) hnew
  | fork hfork => exact absurd ((sameStatus_of_tryAddFork hfork).state.symm.trans hconf) hnew
  | update hupd => exact hk.confirmedBy_updateTallies hfits hupd hnew hconf

/-! ### After the end -/

/-- The outcome stays, and the state does not change except that a confirmation expires. -/
structure Frozen (e e' : Election) : Prop where
  winner : e'.winner = e.winner
  candidateBlocks : e'.candidateBlocks = e.candidateBlocks
  tallies : e'.tallies = e.tallies
  finalTallies : e'.finalTallies = e.finalTallies
  state : e'.state = e.state ∨ e.state = .confirmed ∧ e'.state = .expiredConfirmed

/-- An election that is frozen twice is frozen. -/
theorem Frozen.trans {e2 : Election} (h : e.Frozen e') (h' : e'.Frozen e2) : e.Frozen e2 where
  winner := h'.winner.trans h.winner
  candidateBlocks := h'.candidateBlocks.trans h.candidateBlocks
  tallies := h'.tallies.trans h.tallies
  finalTallies := h'.finalTallies.trans h.finalTallies
  state := by
    rcases h.state with heq | ⟨hconf, hexp⟩
    · rw [← heq]
      exact h'.state
    · rcases h'.state with heq | ⟨hnot, -⟩
      · exact .inr ⟨hconf, heq.trans hexp⟩
      · cases hnot.symm.trans hexp

/-- A frozen election stays ended. -/
theorem Frozen.hasEnded (h : e.Frozen e') (hend : e.state.hasEnded = true) :
    e'.state.hasEnded = true := by
  rcases h.state with heq | ⟨-, hexp⟩
  · rw [heq]
    exact hend
  · rw [hexp]
    rfl

/-- An election that has ended is frozen. -/
theorem frozen_of_apply (hend : e.state.hasEnded = true) {op : Operation}
    (hremoves : op.removesBlock = false) (h : op.apply debugAssertions e = .ok e') :
    e.Frozen e' := by
  cases effect_of_apply h with
  | status hchg =>
    have hsame := hchg.content
    exact ⟨hsame.winner, hsame.candidateBlocks, hsame.tallies, hsame.finalTallies, hchg.ended hend⟩
  | votes _ => exact ⟨rfl, rfl, rfl, rfl, .inl rfl⟩
  | removal hop _ => cases hop.symm.trans hremoves
  | fork hfork =>
    rcases tryAddFork_cases hfork with ⟨rfl, -⟩ | ⟨hnot, -⟩
    · exact ⟨rfl, rfl, rfl, rfl, .inl rfl⟩
    · cases hnot.symm.trans hend
  | update hupd =>
    rcases updateTallies_cases hupd with ⟨-, rfl⟩ | ⟨hnot, -⟩
    · exact ⟨rfl, rfl, rfl, rfl, .inl rfl⟩
    · cases hnot.symm.trans hend

/-- An election that has ended stays frozen. -/
theorem frozen_of_run (hend : e.state.hasEnded = true)
    (h : Run debugAssertions (fun _ op => op.removesBlock = false) e e') : e.Frozen e' := by
  refine Machine.Run.invariant h ⟨rfl, rfl, rfl, rfl, .inl rfl⟩ ?_
  rintro e1 op e2 hfrozen ⟨-, hremoves⟩ hop
  exact hfrozen.trans (frozen_of_apply (hfrozen.hasEnded hend) hremoves hop)

/-- Whatever operations an election has seen, it becomes confirmed only as it should, unless it
is confirmed by force; and once it has ended, its outcome does not change any more. -/
theorem run_confirmation {block : SavedBlock} {behavior : ElectionBehavior} {baseLatency : ℕ}
    {now : Timestamp}
    (h : Run debugAssertions (fun _ _ => True) (new block behavior baseLatency now) e) :
    (∀ (op : Operation) (e' : Election), op ≠ .forceConfirm → op.Fits e →
        op.apply debugAssertions e = .ok e' → e.state ≠ .confirmed → e'.state = .confirmed →
        e'.ConfirmedBy op) ∧
      (e.state.hasEnded = true → ∀ e' : Election,
        Run debugAssertions (fun _ op => op.removesBlock = false) e e' → e.Frozen e') := by
  have hk := (keyed_new block behavior baseLatency now).run h
  exact ⟨fun op e' hforce hfits hop hnew hconfirmed =>
    hk.confirmedBy hforce hfits hop hnew hconfirmed, fun hended e' hrun => frozen_of_run hended hrun⟩

/-- A voter with a weight of five raw. -/
def devWeights : Table PublicKey Amount := (∅ : Table _ _).put 1 5

/-- The election of the dev network after an update with enough final weight. -/
def devConfirmed : Election := (Operation.updateTallies [1] devWeights 5).result true devFinalVote

/-- The election of the dev network is confirmed as it should be, and keeps its outcome when it
expires. -/
theorem confirmation_devConfirmed :
    devConfirmed.state = .confirmed ∧
      devConfirmed.ConfirmedBy (.updateTallies [1] devWeights 5) ∧
      devConfirmed.Frozen (devConfirmed.transitionTime 1) := by
  have hrun : Run true (fun _ _ => True) devElection devFinalVote :=
    run_devFinalVote trivial trivial
  have horder : devFinalVote.votes.IsOrder [1] := by decide +kernel
  have hconfirmed : devConfirmed.state = .confirmed := by decide +kernel
  have happly : (Operation.updateTallies [1] devWeights 5).apply true devFinalVote =
      .ok devConfirmed := by decide +kernel
  refine ⟨hconfirmed, ?_, ?_⟩
  · exact (run_confirmation hrun).1 _ _ (by rintro ⟨⟩) horder happly (by decide +kernel) hconfirmed
  · have hended : devConfirmed.state.hasEnded = true := by rw [hconfirmed]; rfl
    have hrun' : Run true (fun _ _ => True) devElection devConfirmed :=
      hrun.tail ⟨.updateTallies [1] devWeights 5, ⟨horder, trivial⟩, happly⟩
    exact (run_confirmation hrun').2 hended _ (.single ⟨.transitionTime 1, ⟨trivial, rfl⟩, rfl⟩)

/-- The election of the dev network with a vote for the fork, too. -/
def devContested : Election := (Operation.addVote 2 devZeroSend.hash 0 0).result true devFinalVote

/-- Two voters whose weights do not fit into an amount. -/
def devHugeWeights : Table PublicKey Amount := devWeights.put 2 Amount.max

/-- With weights that wrap, a winner is confirmed although the fork has a larger tally. The fork
is then removed from the confirmed election by the internal operation. -/
theorem confirmation_devContested :
    Run true (fun _ _ => True) devElection devContested ∧ devContested.votes.IsOrder [1, 2] ∧
      devContested.state ≠ .confirmed ∧
      ∃ e, (Operation.updateTallies [1, 2] devHugeWeights 5).apply true devContested = .ok e ∧
        e.state = .confirmed ∧ e.containsBlock devZeroSend.hash = true ∧
        e.tallies.get e.winner.hash < e.tallies.get devZeroSend.hash ∧
        (Operation.removeBlock devZeroSend.hash).apply true e =
          .ok (e.removeBlock devZeroSend.hash).1 ∧
        (e.removeBlock devZeroSend.hash).1.containsBlock devZeroSend.hash = false := by
  have hrun : Run true (fun _ _ => True) devElection devContested :=
    (run_devFinalVote trivial trivial).result trivial trivial (by decide +kernel)
  refine ⟨hrun, by decide +kernel, by decide +kernel, ?_⟩
  obtain ⟨e, he, htest⟩ : ∃ e,
      (Operation.updateTallies [1, 2] devHugeWeights 5).apply true devContested = .ok e ∧
      decide (e.state = .confirmed ∧ e.containsBlock devZeroSend.hash = true ∧
        e.tallies.get e.winner.hash < e.tallies.get devZeroSend.hash ∧
        (e.removeBlock devZeroSend.hash).1.containsBlock devZeroSend.hash = false) = true :=
    exists_eq_ok (by decide +kernel)
  obtain ⟨hstate, hcontains, hlt, hremoved⟩ := of_decide_eq_true htest
  exact ⟨e, he, hstate, hcontains, hlt, rfl, hremoved⟩

end RsNano.Election
