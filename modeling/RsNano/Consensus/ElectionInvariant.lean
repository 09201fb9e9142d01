import RsNano.Consensus.ElectionRun

/-!
# The well-formedness of elections

The winner is a candidate, there are at most ten candidates, votes and tallies are for
candidates, and the tallies are distinct and descend. Every operation keeps this, and it is the
reason why no operation panics: in a full election all candidates but perhaps the winner have a
tally once no candidate without one can be dropped, so that there are a lowest and a second
lowest tally.

Three operations rely on their caller. A vote must be for a candidate, the vote whose time is
changed must exist, and place is made for a tally only in a full election.
-/

namespace RsNano.Election

open BlockTallies Table List

/-- Candidates, votes and tallies fit together. -/
structure WellFormed (e : Election) : Prop where
  winner : e.candidateBlocks.get e.winner.hash = some e.winner
  blockCount_le : e.blockCount ≤ maxBlocks
  tallied : ∀ hash ∈ Tally.keys e.tallies.entries, ∃ b, e.candidateBlocks.get hash = some b
  finalTallied : ∀ hash ∈ Tally.keys e.finalTallies.entries,
    ∃ b, e.candidateBlocks.get hash = some b
  ordered : e.tallies.Ordered
  finalOrdered : e.finalTallies.Ordered
  keyed : ∀ {hash b}, e.candidateBlocks.get hash = some b → b.hash = hash
  voted : ∀ {voter vote}, e.votes.get voter = some vote →
    vote.voter = voter ∧ ∃ b, e.candidateBlocks.get vote.hash = some b

variable {e e' : Election} {hash : BlockHash}

/-- A new election is well formed. -/
theorem wellFormed_new (block : SavedBlock) (behavior : ElectionBehavior) (baseLatency : ℕ)
    (now : Timestamp) : (new block behavior baseLatency now).WellFormed where
  winner := get_put_self _ _ _
  blockCount_le := by
    have hsize : (new block behavior baseLatency now).blockCount = 1 :=
      size_put_of_none _ (get_empty _)
    rw [hsize, maxBlocks]
    omega
  tallied := by
    intro hash hmem
    cases hmem
  finalTallied := by
    intro hash hmem
    cases hmem
  ordered := ordered_new
  finalOrdered := ordered_new
  keyed := by
    intro hash b hget
    obtain ⟨rfl, rfl⟩ := eq_of_get_put_empty hget
    rfl
  voted := nofun

section

variable (h : e.WellFormed)

include h

/-- Only winner, candidates, votes and tallies matter. -/
theorem WellFormed.sameContent (hsame : e.SameContent e') : e'.WellFormed where
  winner := by rw [hsame.candidateBlocks, hsame.winner]; exact h.winner
  blockCount_le := by rw [blockCount, hsame.candidateBlocks]; exact h.blockCount_le
  tallied := by rw [hsame.candidateBlocks, hsame.tallies]; exact h.tallied
  finalTallied := by rw [hsame.candidateBlocks, hsame.finalTallies]; exact h.finalTallied
  ordered := hsame.tallies ▸ h.ordered
  finalOrdered := hsame.finalTallies ▸ h.finalOrdered
  keyed := by rw [hsame.candidateBlocks]; exact h.keyed
  voted := by rw [hsame.candidateBlocks, hsame.votes]; exact h.voted

/-- Removing a block keeps an election well formed. -/
theorem WellFormed.removeBlock (hash : BlockHash) : (e.removeBlock hash).1.WellFormed := by
  rcases removeBlock_cases e hash with heq | ⟨b, hne, hb, heq⟩
  · rw [heq]
    exact h
  · rw [heq]
    have hkept : ∀ {x}, x ≠ hash → (∃ b, e.candidateBlocks.get x = some b) →
        ∃ b, (e.candidateBlocks.del hash).get x = some b := by
      rintro x hx ⟨b, hb⟩
      exact ⟨b, (get_del_of_ne _ hx).trans hb⟩
    have htal : ∀ {t : BlockTallies}, t.Ordered →
        (∀ x ∈ Tally.keys t.entries, ∃ b, e.candidateBlocks.get x = some b) →
        ∀ x ∈ Tally.keys (t.remove hash).entries,
          ∃ b, (e.candidateBlocks.del hash).get x = some b := by
      intro t ht hsub x hx
      refine hkept ?_ (hsub x (((Tally.remove_sublist _ _).map Prod.fst).subset hx))
      rintro rfl
      exact Tally.not_mem_keys_remove ht.nodup hx
    exact
      { winner := (get_del_of_ne _ hne).trans h.winner
        blockCount_le := by
          have hsize := size_del_of_some hb
          have hle := h.blockCount_le
          rw [blockCount] at hle
          change (e.candidateBlocks.del hash).size ≤ maxBlocks
          omega
        tallied := htal h.ordered h.tallied
        finalTallied := htal h.finalOrdered h.finalTallied
        ordered := h.ordered.remove hash
        finalOrdered := h.finalOrdered.remove hash
        keyed := fun hget => h.keyed (get_of_get_del hget).2
        voted := by
          intro voter vote hget
          obtain ⟨hvote, hoth⟩ := get_retain_eq_some.mp hget
          exact ⟨(h.voted hvote).1, hkept (of_decide_eq_true hoth) (h.voted hvote).2⟩ }

/-- A fork is added without panic where there is space. -/
theorem WellFormed.addFork (hspace : e.blockCount < maxBlocks) {fork : Block}
    (hnew : e.containsBlock fork.hash = false) (forkTally : Amount) :
    ∃ e', e.addFork fork forkTally = .ok e' ∧ e'.WellFormed := by
  have hnone : e.candidateBlocks.get fork.hash = none :=
    Option.isNone_iff_eq_none.mp (Option.isSome_eq_false_iff.mp hnew)
  have hkept : ∀ {x}, (∃ b, e.candidateBlocks.get x = some b) →
      ∃ b, (e.candidateBlocks.put fork.hash (.unsaved fork)).get x = some b := by
    rintro x ⟨b, hb⟩
    exact ⟨b, get_put_of_get _ hnone hb⟩
  have hnot : fork.hash ∉ Tally.keys e.tallies.entries := by
    intro hmem
    obtain ⟨b, hb⟩ := h.tallied _ hmem
    cases hnone.symm.trans hb
  have hlen : e.tallies.len < maxBlocks := by
    have hle := length_le_size h.ordered.nodup h.tallied
    rw [Tally.keys, length_map] at hle
    exact lt_of_le_of_lt hle hspace
  obtain ⟨tallies, htals⟩ : ∃ tallies, e.tallies.insert fork.hash forkTally = .ok tallies :=
    ⟨⟨Tally.rank (e.tallies.entries ++ [(fork.hash, forkTally)]), by
      rw [Tally.length_rank, length_append]
      exact hlen⟩, insert_eq_ok.mpr ⟨hlen, rfl⟩⟩
  refine ⟨_, addFork_eq_ok.mpr ⟨tallies, htals, rfl⟩, ?_⟩
  exact
    { winner := get_put_of_get _ hnone h.winner
      blockCount_le := by
        rw [blockCount, size_put_of_none _ hnone]
        exact hspace
      tallied := by
        intro x hx
        rcases (mem_keys_insert htals).mp hx with rfl | hx
        · exact ⟨_, get_put_self _ _ _⟩
        · exact hkept (h.tallied x hx)
      finalTallied := fun x hx => hkept (h.finalTallied x hx)
      ordered := h.ordered.insert hnot htals
      finalOrdered := h.finalOrdered
      keyed := forall_get_put (k := fork.hash) h.keyed rfl
      voted := fun hget => ⟨(h.voted hget).1, hkept (h.voted hget).2⟩ }

/-- Candidates that are neither the winner nor without tally are all but one. -/
theorem WellFormed.len_ge {order : List BlockHash} (horder : e.candidateBlocks.IsOrder order)
    (hall : ∀ x ∈ order, x ≠ e.winner.hash → x ∈ Tally.keys e.tallies.entries) :
    e.blockCount ≤ e.tallies.len + 1 := by
  have hwin : e.winner.hash ∈ order := horder.mem_iff.mpr ⟨_, h.winner⟩
  have hsub : order.erase e.winner.hash ⊆ Tally.keys e.tallies.entries := by
    intro x hx
    obtain ⟨hne, hmem⟩ := (List.Nodup.mem_erase_iff horder.nodup).mp hx
    exact hall x hmem hne
  have hle := (subperm_of_subset (horder.nodup.erase _) hsub).length_le
  rw [length_erase_of_mem hwin, horder.length_eq, Tally.keys, length_map] at hle
  rw [blockCount, len]
  omega

section

variable {order : List BlockHash} (hfull : e.hasMaxBlocks = true)
  (horder : e.candidateBlocks.IsOrder order)

include hfull horder

/-- A full election without candidate to drop has two tallies. -/
theorem WellFormed.two_le_len (hzero : e.blockWithoutTally order = 0) : 2 ≤ e.tallies.len := by
  have hcnt : maxBlocks ≤ e.blockCount := of_decide_eq_true hfull
  by_cases hlen : e.tallies.len < maxBlocks
  swap
  · rw [maxBlocks] at hlen
    omega
  rw [blockWithoutTally, if_pos hlen] at hzero
  have hall : ∀ x ∈ order, x ≠ e.winner.hash → x ∈ Tally.keys e.tallies.entries := by
    intro x hx hne
    cases hfind : order.find? fun hash =>
        decide (e.tallies.contains hash = false ∧ hash ≠ e.winner.hash) with
    | none =>
      have hnot := find?_eq_none.mp hfind x hx
      rw [decide_eq_true_iff, not_and, not_not] at hnot
      by_contra hkey
      exact hne (hnot (Bool.eq_false_iff.mpr (contains_iff.not.mpr hkey)))
    | some y =>
      rw [hfind] at hzero
      obtain ⟨b, hb⟩ := horder.mem_iff.mp (mem_of_find?_eq_some hfind)
      exact absurd (h.keyed hb ▸ hzero) b.hash_ne_zero
  have hle := h.len_ge horder hall
  rw [maxBlocks] at hcnt
  omega

/-- In a full election place can be made without panic. -/
theorem WellFormed.blockToRemove_ok (minTally : Amount) :
    ∃ x, e.blockToRemove order minTally = .ok x := by
  rw [blockToRemove]
  split
  · exact ⟨_, rfl⟩
  · next hzero =>
    have hlen := h.two_le_len hfull horder (not_not.mp hzero)
    obtain ⟨⟨low, lowTally⟩, hlow⟩ := lowest_eq_some (t := e.tallies) (by omega)
    obtain ⟨⟨second, secondTally⟩, hsnd⟩ := secondLowest_eq_some hlen
    simp only [hlow, hsnd]
    split
    · split
      · exact ⟨_, rfl⟩
      · split
        · exact ⟨_, rfl⟩
        · exact ⟨_, rfl⟩
    · exact ⟨_, rfl⟩

/-- In a full election place is made without panic, and there is place for one block then. -/
theorem WellFormed.removeTallyBelow (minTally : Amount) :
    ∃ r, e.removeTallyBelow order minTally = .ok r ∧ r.1.WellFormed ∧
      (∀ b, r.2 = some b → r.1.blockCount < maxBlocks) ∧
      ∀ x, r.1.containsBlock x = true → e.containsBlock x = true := by
  rw [Election.removeTallyBelow]
  split
  · exact ⟨_, rfl, h, (fun b hb => by cases hb), fun x hx => hx⟩
  · obtain ⟨hash, hhash⟩ := h.blockToRemove_ok hfull horder minTally
    rw [hhash]
    refine ⟨_, rfl, ?_⟩
    split
    · refine ⟨h.removeBlock hash, ?_, ?_⟩
      · intro b hb
        rcases removeBlock_cases e hash with heq | ⟨b', -, hget, heq⟩
        · rw [heq] at hb
          cases hb
        · rw [heq]
          have hsize := size_del_of_some hget
          have hle := h.blockCount_le
          rw [blockCount] at hle
          change (e.candidateBlocks.del hash).size < maxBlocks
          omega
      · intro x hx
        rcases removeBlock_cases e hash with heq | ⟨b', -, -, heq⟩
        · rw [heq] at hx
          exact hx
        · rw [heq] at hx
          obtain ⟨b, hb⟩ := containsBlock_iff.mp hx
          exact containsBlock_iff.mpr ⟨b, (get_of_get_del hb).2⟩
    · exact ⟨h, (fun b hb => by cases hb), fun x hx => hx⟩

end

/-- A fork is considered without panic. -/
theorem WellFormed.tryAddFork {order : List BlockHash} (horder : e.candidateBlocks.IsOrder order)
    (fork : Block) (forkTally : Amount) :
    ∃ r, e.tryAddFork order fork forkTally = .ok r ∧ r.1.WellFormed := by
  rw [Election.tryAddFork]
  split
  · exact ⟨_, rfl, h⟩
  · split
    · exact ⟨_, rfl, h⟩
    · next hhas =>
      rw [Bool.not_eq_true] at hhas
      split
      · next hfull =>
        obtain ⟨⟨e1, removed⟩, hrem, he1, hspace, hsub⟩ := h.removeTallyBelow hfull horder forkTally
        rw [hrem]
        cases removed with
        | none => exact ⟨_, rfl, he1⟩
        | some removed =>
          have hnew : e1.containsBlock fork.hash = false :=
            Bool.eq_false_iff.mpr fun hx => Bool.false_ne_true (hhas.symm.trans (hsub _ hx))
          obtain ⟨e2, hadd, he2⟩ := he1.addFork (hspace removed rfl) hnew forkTally
          refine ⟨(e2, .replaced removed), ?_, he2⟩
          change (e1.addFork fork forkTally >>= fun e => pure (e, AddForkResult.replaced removed)) = _
          rw [hadd]
          rfl
      · next hspace =>
        have hlt : e.blockCount < maxBlocks := not_le.mp fun hle => hspace (decide_eq_true hle)
        obtain ⟨e1, hadd, he1⟩ := h.addFork hlt hhas forkTally
        refine ⟨(e1, .added), ?_, he1⟩
        rw [hadd]
        rfl

/-- The weights of votes do not matter. -/
theorem WellFormed.updateVoteWeights (repWeights : Table PublicKey Amount) :
    (e.updateVoteWeights repWeights).WellFormed :=
  { h with
    voted := by
      intro voter vote hget
      rw [Election.updateVoteWeights, get_mapValues, Option.map_eq_some_iff] at hget
      obtain ⟨old, hold, rfl⟩ := hget
      have hvoted := h.voted hold
      exact hvoted }

/-- The current votes are for candidates. -/
theorem WellFormed.currentVotes {order : List PublicKey} {repWeights : Table PublicKey Amount}
    {vote : VoteSummary} (hvote : vote ∈ e.currentVotes order repWeights) :
    ∃ b, e.candidateBlocks.get vote.hash = some b := by
  obtain ⟨voter, -, hget⟩ := mem_filterMap.mp hvote
  exact ((h.updateVoteWeights repWeights).voted hget).2

/-- The tallies are calculated without panic. -/
theorem WellFormed.recalculateTallies (order : List PublicKey) (repWeights : Table PublicKey Amount) :
    ∃ e1, e.Tallied order repWeights e1 ∧ e1.WellFormed := by
  have hvotes : ∀ vote ∈ e.currentVotes order repWeights,
      ∃ b, e.candidateBlocks.get vote.hash = some b := fun vote hvote => h.currentVotes hvote
  have hfinalVotes : ∀ vote ∈ (e.currentVotes order repWeights).filter VoteSummary.isFinalVote,
      ∃ b, e.candidateBlocks.get vote.hash = some b :=
    fun vote hvote => hvotes vote (mem_of_mem_filter hvote)
  obtain ⟨tallies, htals⟩ := calculate_ok h.blockCount_le hvotes
  obtain ⟨finalTallies, hfin⟩ := calculate_ok h.blockCount_le hfinalVotes
  have hcand : ∀ {t : BlockTallies} {votes : List VoteSummary},
      calculate votes = .ok t →
      (∀ vote ∈ votes, ∃ b, e.candidateBlocks.get vote.hash = some b) →
      ∀ hash ∈ Tally.keys t.entries, ∃ b, e.candidateBlocks.get hash = some b := by
    intro t votes ht hsub hash hmem
    obtain ⟨vote, hvote, rfl⟩ := (mem_keys_of_calculate ht).mp hmem
    exact hsub vote hvote
  refine ⟨{ e.updateVoteWeights repWeights with tallies, finalTallies }, ⟨htals, hfin, rfl⟩, ?_⟩
  exact
    { winner := h.winner
      blockCount_le := h.blockCount_le
      tallied := hcand htals hvotes
      finalTallied := hcand hfin hfinalVotes
      ordered := ordered_of_calculate htals
      finalOrdered := ordered_of_calculate hfin
      keyed := h.keyed
      voted := (h.updateVoteWeights repWeights).voted }

end

/-- A new winner has a tally. -/
theorem mem_keys_of_checkNewWinner {quorumDelta : Amount}
    (h : e.checkNewWinner quorumDelta = some hash) : hash ∈ Tally.keys e.tallies.entries := by
  rw [checkNewWinner] at h
  split at h
  · cases h
  · dsimp only at h
    split at h
    · next hne =>
      cases h
      cases hwin : e.tallies.winner with
      | none =>
        rw [hwin] at hne
        exact absurd rfl hne
      | some x => exact mem_map_of_mem (mem_of_head? hwin)
    · cases h

section

variable (h : e.WellFormed)

include h

namespace WellFormed

/-- The winner is changed without panic. -/
theorem updateWinner (quorumDelta : Amount) :
    ∃ e', e.updateWinner quorumDelta = .ok e' ∧ e'.WellFormed := by
  rw [Election.updateWinner]
  split
  · next hash hchk =>
    obtain ⟨b, hb⟩ := h.tallied hash (mem_keys_of_checkNewWinner hchk)
    refine ⟨{ e with winner := b }, by rw [changeWinnerTo, hb], ?_⟩
    exact
      { h with
        winner := by
          rw [h.keyed hb]
          exact hb }
  · exact ⟨e, rfl, h⟩

/-- The tallies are updated without panic. -/
theorem updateTallies (order : List PublicKey) (repWeights : Table PublicKey Amount)
    (quorumDelta : Amount) :
    ∃ e', e.updateTallies order repWeights quorumDelta = .ok e' ∧ e'.WellFormed := by
  rw [Election.updateTallies]
  split
  · exact ⟨e, rfl, h⟩
  · obtain ⟨e1, htal, he1⟩ := h.recalculateTallies order repWeights
    obtain ⟨e2, hwin, he2⟩ := he1.updateWinner quorumDelta
    obtain ⟨hasQuorum, heq⟩ := confirm_cases e2 quorumDelta
    refine ⟨(e2.updateWinnerTally.trySetQuorum quorumDelta).tryConfirm quorumDelta, ?_,
      he2.sameContent ?_⟩
    · rw [recalculateTallies_eq_ok.mpr htal]
      change (e1.updateWinner quorumDelta >>= fun e => pure _) = _
      rw [hwin]
      rfl
    · rw [heq]
      exact ⟨rfl, rfl, rfl, rfl, rfl⟩

/-- A vote for a candidate is stored without panic. -/
theorem addVote (hcand : e.containsBlock hash = true) (debugAssertions : Bool)
    (voter : PublicKey) (voteCreated : UnixMillisTimestamp) (voteReceived : Timestamp) :
    ∃ e', e.addVote debugAssertions voter hash voteCreated voteReceived = .ok e' ∧
      e'.WellFormed := by
  refine ⟨_, if_neg fun hnot => Bool.false_ne_true (hnot.2.symm.trans hcand), ?_⟩
  exact { h with voted := forall_get_put h.voted (by exact ⟨rfl, containsBlock_iff.mp hcand⟩) }

/-- Votes can be dropped. -/
theorem removeVote (voter : PublicKey) : (e.removeVote voter).WellFormed :=
  { h with voted := fun hget => h.voted (get_of_get_del hget).2 }

/-- The time of a stored vote is changed without panic. -/
theorem changeReceivedTimestamp {voter : PublicKey} {vote : VoteSummary}
    (hvote : e.votes.get voter = some vote) (newTimestamp : Timestamp) :
    ∃ e', e.changeReceivedTimestamp voter newTimestamp = .ok e' ∧ e'.WellFormed := by
  rw [Election.changeReceivedTimestamp, hvote]
  refine ⟨_, rfl, ?_⟩
  exact { h with voted := forall_get_put h.voted (by exact (h.voted hvote :)) }

end WellFormed

/-- What the caller of an operation has to check. -/
def Operation.Promised (e : Election) : Operation → Prop
  | addVote _ hash _ _ => e.containsBlock hash = true
  | removeTallyBelow _ _ => e.hasMaxBlocks = true
  | changeReceivedTimestamp voter _ => ∃ vote, e.votes.get voter = some vote
  | _ => True

/-- No operation panics, and every operation keeps the election well formed. -/
theorem WellFormed.apply (debugAssertions : Bool) {op : Operation} (hfits : op.Fits e)
    (hprom : op.Promised e) : ∃ e', op.apply debugAssertions e = .ok e' ∧ e'.WellFormed := by
  have hstatus : op.isStatus = true → (∃ e', op.apply debugAssertions e = .ok e') →
      ∃ e', op.apply debugAssertions e = .ok e' ∧ e'.WellFormed := by
    rintro hop ⟨e', he'⟩
    exact ⟨e', he', h.sameContent (statusChange_of_isStatus hop he').content⟩
  cases op with
  | tryAddFork order fork forkTally =>
    obtain ⟨r, hr, hwf⟩ := h.tryAddFork hfits fork forkTally
    exact ⟨r.1, map_eq_ok.mpr ⟨r, hr, rfl⟩, hwf⟩
  | addVote voter hash voteCreated voteReceived =>
    exact h.addVote hprom debugAssertions voter voteCreated voteReceived
  | updateTallies order repWeights quorumDelta => exact h.updateTallies order repWeights quorumDelta
  | transitionTime now | voted voteType timestamp | cancel | transitionActive
  | maybeUpgradeTo newBehavior | forceConfirm => exact hstatus rfl ⟨_, rfl⟩
  | removeVote voter => exact ⟨_, rfl, h.removeVote voter⟩
  | removeTallyBelow order minTally =>
    obtain ⟨r, hr, hwf, -⟩ := h.removeTallyBelow hprom hfits minTally
    exact ⟨r.1, map_eq_ok.mpr ⟨r, hr, rfl⟩, hwf⟩
  | removeBlock hash => exact ⟨_, rfl, h.removeBlock hash⟩
  | changeReceivedTimestamp voter newTimestamp =>
    obtain ⟨vote, hvote⟩ := hprom
    exact h.changeReceivedTimestamp hvote newTimestamp

/-- Every run keeps an election well formed. -/
theorem WellFormed.run {debugAssertions : Bool}
    (hrun : Run debugAssertions (fun e op => op.Promised e) e e') : e'.WellFormed := by
  refine Machine.Run.invariant_of_ok hrun h fun hwf hop => ?_
  exact hwf.apply debugAssertions hop.1 hop.2

end

/-- After every sequence of operations whose callers keep their promises the election is well
formed, and the next such operation does not panic. -/
theorem run_wellFormed {debugAssertions : Bool} {block : SavedBlock} {behavior : ElectionBehavior}
    {baseLatency : ℕ} {now : Timestamp}
    (h : Run debugAssertions (fun e op => op.Promised e) (new block behavior baseLatency now) e) :
    e.WellFormed ∧ ∀ op : Operation, op.Fits e → op.Promised e →
      ∃ e', op.apply debugAssertions e = .ok e' := by
  have hwf := (wellFormed_new block behavior baseLatency now).run h
  refine ⟨hwf, fun op hfits hpromised => ?_⟩
  obtain ⟨e', hop, -⟩ := hwf.apply debugAssertions hfits hpromised
  exact ⟨e', hop⟩

/-- The election of the dev network is well formed after a fork and a vote. -/
theorem wellFormed_devFinalVote :
    devFinalVote.WellFormed ∧ ∀ op : Operation, op.Fits devFinalVote → op.Promised devFinalVote →
      ∃ e', op.apply true devFinalVote = .ok e' :=
  run_wellFormed (run_devFinalVote trivial
    (show devForked.containsBlock devSend.hash = true by decide +kernel))

/-- Without the promises of its callers an election panics: when place is made for a tally in a
new election, when the time of a missing vote is changed, and when a vote is for a block that is
not a candidate. Such a vote goes through in release builds, until it would decide the
election. -/
theorem apply_devElection_panics :
    devElection.candidateBlocks.IsOrder [devSend.hash] ∧
      (Operation.removeTallyBelow [devSend.hash] 1).apply true devElection =
        .error .noLowestTally ∧
      (Operation.changeReceivedTimestamp 1 0).apply true devElection = .error .voteNotFound ∧
      (Operation.addVote 1 devZeroSend.hash 0 0).apply true devElection =
        .error .notACandidate ∧
      ∃ e, (Operation.addVote 1 devZeroSend.hash 0 0).apply false devElection = .ok e ∧
        e.votes.IsOrder [1] ∧
        (Operation.updateTallies [1] ((∅ : Table _ _).put 1 5) 5).apply false e =
          .error .winnerNotACandidate := by
  refine ⟨by decide +kernel, by decide +kernel, by decide +kernel, by decide +kernel, ?_⟩
  exact ⟨_, rfl, by decide +kernel, by decide +kernel⟩

end RsNano.Election
