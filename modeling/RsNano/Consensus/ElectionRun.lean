import RsNano.Consensus.Election
import RsNano.Ledger.DevNetwork
import RsNano.Lib.Machine

/-!
# What the operations of an election do

One specification lemma for each operation that does more than set a field, and the runs of an
election. In a run every operation is given an order in which the hash map it iterates over can
be iterated.
-/

namespace RsNano

namespace MaybeSavedBlock

/-- The zero hash is not the hash of a block. -/
theorem hash_ne_zero (b : MaybeSavedBlock) : b.hash ≠ 0 := b.block.hash_ne_zero

end MaybeSavedBlock

namespace Election

/-- The operations of an election that change it. -/
inductive Operation
  | tryAddFork (order : List BlockHash) (fork : Block) (forkTally : Amount)
  | addVote (voter : PublicKey) (hash : BlockHash) (voteCreated : UnixMillisTimestamp)
      (voteReceived : Timestamp)
  | updateTallies (order : List PublicKey) (repWeights : Table PublicKey Amount)
      (quorumDelta : Amount)
  | transitionTime (now : Timestamp)
  | voted (voteType : VoteType) (timestamp : Timestamp)
  | cancel
  | transitionActive
  | maybeUpgradeTo (newBehavior : ElectionBehavior)
  | forceConfirm
  | removeVote (voter : PublicKey)
  | removeTallyBelow (order : List BlockHash) (minTally : Amount)
  | removeBlock (hash : BlockHash)
  | changeReceivedTimestamp (voter : PublicKey) (newTimestamp : Timestamp)

namespace Operation

/-- Perform an operation, with or without debug assertions. -/
def apply (debugAssertions : Bool) (e : Election) : Operation → Except ElectionPanic Election
  | tryAddFork order fork forkTally => (e.tryAddFork order fork forkTally).map Prod.fst
  | addVote voter hash voteCreated voteReceived =>
    e.addVote debugAssertions voter hash voteCreated voteReceived
  | updateTallies order repWeights quorumDelta => e.updateTallies order repWeights quorumDelta
  | transitionTime now => .ok (e.transitionTime now)
  | voted voteType timestamp => .ok (e.voted voteType timestamp)
  | cancel => .ok e.cancel
  | transitionActive => .ok e.transitionActive
  | maybeUpgradeTo newBehavior => .ok (e.maybeUpgradeTo newBehavior).1
  | forceConfirm => .ok e.forceConfirm.1
  | removeVote voter => .ok (e.removeVote voter)
  | removeTallyBelow order minTally => (e.removeTallyBelow order minTally).map Prod.fst
  | removeBlock hash => .ok (e.removeBlock hash).1
  | changeReceivedTimestamp voter newTimestamp => e.changeReceivedTimestamp voter newTimestamp

/-- The order of an operation is one in which the hash map can be iterated. -/
def Fits (e : Election) : Operation → Prop
  | tryAddFork order _ _ => e.candidateBlocks.IsOrder order
  | removeTallyBelow order _ => e.candidateBlocks.IsOrder order
  | updateTallies order _ _ => e.votes.IsOrder order
  | _ => True

end Operation

/-- A finite sequence of operations, each allowed on the election it meets. -/
def Run (debugAssertions : Bool) (allowed : Election → Operation → Prop) :
    Election → Election → Prop :=
  Machine.Run (fun e op => op.apply debugAssertions e) fun e op => op.Fits e ∧ allowed e op

/-- The election after an operation, unchanged if the operation panics. -/
def Operation.result (debugAssertions : Bool) (e : Election) (op : Operation) : Election :=
  Machine.result (fun e op => op.apply debugAssertions e) e op

variable {e e' : Election} {hash : BlockHash} {debugAssertions : Bool} {op : Operation}
  {order : List BlockHash}

/-- One more operation of a run, given by its result. -/
theorem Run.result {allowed : Election → Operation → Prop} (h : Run debugAssertions allowed e e')
    (hfits : op.Fits e') (hallow : allowed e' op)
    (hok : (op.apply debugAssertions e').toOption.isSome = true) :
    Run debugAssertions allowed e (op.result debugAssertions e') :=
  Machine.Run.result h ⟨hfits, hallow⟩ hok

theorem containsBlock_iff : e.containsBlock hash = true ↔ ∃ b, e.candidateBlocks.get hash = some b :=
  Option.isSome_iff_exists

/-- Two elections agree in candidates, votes and tallies. -/
structure SameContent (e e' : Election) : Prop where
  winner : e'.winner = e.winner
  candidateBlocks : e'.candidateBlocks = e.candidateBlocks
  votes : e'.votes = e.votes
  tallies : e'.tallies = e.tallies
  finalTallies : e'.finalTallies = e.finalTallies

/-- The operations that only change the status of an election. -/
def Operation.isStatus : Operation → Bool
  | transitionTime _ => true
  | voted _ _ => true
  | cancel => true
  | transitionActive => true
  | maybeUpgradeTo _ => true
  | forceConfirm => true
  | _ => false

/-- The internal operations that remove a block do not look at the state. -/
def Operation.removesBlock : Operation → Bool
  | removeTallyBelow _ _ => true
  | removeBlock _ => true
  | _ => false

/-- Time does not confirm an election, and an election that has ended can only expire. -/
theorem transitionTime_cases (e : Election) (now : Timestamp) :
    ∃ state, e.transitionTime now = { e with state } ∧ state ≠ .confirmed ∧
      (e.state.hasEnded = true →
        state = e.state ∨ e.state = .confirmed ∧ state = .expiredConfirmed) := by
  rw [transitionTime]
  split
  · next hexp =>
    refine ⟨.expiredUnconfirmed, rfl, by decide, fun hend => ?_⟩
    rw [transitionState] at hexp
    cases hst : e.state <;> simp_all [ElectionState.hasEnded]
  · refine ⟨_, rfl, ?_, ?_⟩
    · rw [transitionState]
      split
      · split
        · decide
        · decide
      · decide
      · assumption
    · intro hend
      rw [transitionState]
      cases hst : e.state <;> simp_all [ElectionState.hasEnded]

/-- Content and quorum stay, an election that has ended can only expire, and it is only confirmed
by force. -/
structure StatusChange (e : Election) (op : Operation) (e' : Election) : Prop where
  content : e.SameContent e'
  hasQuorum : e'.hasQuorum = e.hasQuorum
  ended : e.state.hasEnded = true →
    e'.state = e.state ∨ e.state = .confirmed ∧ e'.state = .expiredConfirmed
  confirmed : op ≠ .forceConfirm → e'.state = .confirmed → e.state = .confirmed

theorem statusChange_of_state (hcontent : e.SameContent e') (hquo : e'.hasQuorum = e.hasQuorum)
    (hst : e'.state = e.state) : StatusChange e op e' :=
  ⟨hcontent, hquo, fun _ => .inl hst, fun _ hconf => hst.symm.trans hconf⟩

/-- What the operations on the status do. -/
theorem statusChange_of_isStatus (hop : op.isStatus = true)
    (h : op.apply debugAssertions e = .ok e') : StatusChange e op e' := by
  have hrefl : ∀ {op}, StatusChange e op e :=
    fun {op} => statusChange_of_state ⟨rfl, rfl, rfl, rfl, rfl⟩ rfl rfl
  cases op with
  | transitionTime now =>
    cases h
    obtain ⟨state, heq, hne, hend⟩ := transitionTime_cases e now
    rw [heq]
    exact ⟨⟨rfl, rfl, rfl, rfl, rfl⟩, rfl, hend, fun _ hconf => absurd hconf hne⟩
  | voted voteType timestamp =>
    cases h
    cases voteType with
    | nonFinal | final => exact statusChange_of_state ⟨rfl, rfl, rfl, rfl, rfl⟩ rfl rfl
  | cancel =>
    cases h
    rw [cancel]
    split
    · exact hrefl
    · next hnot => exact ⟨⟨rfl, rfl, rfl, rfl, rfl⟩, rfl, fun hend => absurd hend hnot, nofun⟩
  | transitionActive =>
    cases h
    rw [transitionActive]
    split
    · next hpassive =>
      refine ⟨⟨rfl, rfl, rfl, rfl, rfl⟩, rfl, fun hend => ?_, nofun⟩
      rw [hpassive] at hend
      cases hend
    · exact hrefl
  | maybeUpgradeTo newBehavior =>
    cases h
    rw [maybeUpgradeTo]
    split
    · exact hrefl
    · split
      · exact hrefl
      · exact statusChange_of_state ⟨rfl, rfl, rfl, rfl, rfl⟩ rfl rfl
  | forceConfirm =>
    cases h
    rw [forceConfirm]
    split
    · exact hrefl
    · next hnot =>
      exact ⟨⟨rfl, rfl, rfl, rfl, rfl⟩, rfl, fun hend => absurd hend hnot,
        fun hforce => absurd rfl hforce⟩
  | tryAddFork _ _ _ | addVote _ _ _ _ | updateTallies _ _ _ | removeVote _ | removeTallyBelow _ _
  | removeBlock _ | changeReceivedTimestamp _ _ => cases hop

/-- A block is removed with everything that mentions it, or nothing happens. -/
theorem removeBlock_cases (e : Election) (hash : BlockHash) :
    e.removeBlock hash = (e, none) ∨
      ∃ b, e.winner.hash ≠ hash ∧ e.candidateBlocks.get hash = some b ∧
        e.removeBlock hash =
          ({ e with
              candidateBlocks := e.candidateBlocks.del hash
              votes := e.votes.retain fun _ vote => vote.hash ≠ hash
              tallies := e.tallies.remove hash
              finalTallies := e.finalTallies.remove hash }, some b) := by
  rw [removeBlock]
  split
  · next hne =>
    split
    · next b hb => exact .inr ⟨b, hne, hb, rfl⟩
    · exact .inl rfl
  · exact .inl rfl

/-- Making place for a tally removes at most one block. -/
theorem removeTallyBelow_cases {minTally : Amount} {r : Election × Option MaybeSavedBlock}
    (h : e.removeTallyBelow order minTally = .ok r) :
    r = (e, none) ∨ ∃ hash, e.removeBlock hash = r := by
  rw [removeTallyBelow] at h
  split at h
  · cases h
    exact .inl rfl
  · rw [bind_eq_ok] at h
    obtain ⟨hash, -, h⟩ := h
    rw [pure_eq_ok] at h
    subst h
    split
    · exact .inr ⟨hash, rfl⟩
    · exact .inl rfl

variable {fork : Block} {forkTally : Amount}

/-- A fork is added exactly when there is space for its tally. -/
theorem addFork_eq_ok :
    e.addFork fork forkTally = .ok e' ↔
      ∃ tallies, e.tallies.insert fork.hash forkTally = .ok tallies ∧
        e' = { e with
          tallies
          candidateBlocks := e.candidateBlocks.put fork.hash (.unsaved fork) } := by
  simp only [addFork, bind_eq_ok, pure_eq_ok]
  constructor
  · rintro ⟨tallies, h, rfl⟩
    exact ⟨tallies, h, rfl⟩
  · rintro ⟨tallies, h, rfl⟩
    exact ⟨tallies, h, rfl⟩

/-- What adding a fork does: nothing, or the fork is added, in place of another block if there
are too many. -/
theorem tryAddFork_cases {r : AddForkResult} (h : e.tryAddFork order fork forkTally = .ok (e', r)) :
    (e' = e ∧ (r = .electionEnded ∨ r = .duplicate ∨ r = .tallyTooLow)) ∨
      e.state.hasEnded = false ∧ e.containsBlock fork.hash = false ∧
        (e.hasMaxBlocks = false ∧ r = .added ∧ e.addFork fork forkTally = .ok e' ∨
          ∃ hash removed e1, r = .replaced removed ∧ e.removeBlock hash = (e1, some removed) ∧
            e1.addFork fork forkTally = .ok e') := by
  rw [tryAddFork] at h
  split at h
  · cases h
    exact .inl ⟨rfl, .inl rfl⟩
  · next hend =>
    split at h
    · cases h
      exact .inl ⟨rfl, .inr (.inl rfl)⟩
    · next hmem =>
      rw [Bool.not_eq_true] at hend hmem
      split at h
      · rw [bind_eq_ok] at h
        obtain ⟨⟨e1, removed⟩, hrem, h⟩ := h
        cases removed with
        | none =>
          cases h
          rcases removeTallyBelow_cases hrem with heq | ⟨hash, heq⟩
          · cases heq
            exact .inl ⟨rfl, .inr (.inr rfl)⟩
          · rcases removeBlock_cases e hash with heq' | ⟨b, -, -, heq'⟩
            · cases heq.symm.trans heq'
              exact .inl ⟨rfl, .inr (.inr rfl)⟩
            · cases heq.symm.trans heq'
        | some removed =>
          simp only [bind_eq_ok, pure_eq_ok, Prod.mk.injEq] at h
          obtain ⟨e2, hadd, rfl, rfl⟩ := h
          rcases removeTallyBelow_cases hrem with heq | ⟨hash, heq⟩
          · cases heq
          · exact .inr ⟨hend, hmem, .inr ⟨hash, removed, e1, rfl, heq, hadd⟩⟩
      · next hmax =>
        rw [Bool.not_eq_true] at hmax
        simp only [bind_eq_ok, pure_eq_ok, Prod.mk.injEq] at h
        obtain ⟨e2, hadd, rfl, rfl⟩ := h
        exact .inr ⟨hend, hmem, .inl ⟨hmax, rfl, hadd⟩⟩

/-- Two elections agree in state, behavior and root. -/
structure SameStatus (e e' : Election) : Prop where
  state : e'.state = e.state
  behavior : e'.behavior = e.behavior
  qualifiedRoot : e'.qualifiedRoot = e.qualifiedRoot

/-- The removal of a block leaves the status alone. -/
theorem sameStatus_removeBlock (e : Election) (hash : BlockHash) :
    e.SameStatus (e.removeBlock hash).1 := by
  rcases removeBlock_cases e hash with heq | ⟨b, -, -, heq⟩
  · rw [heq]
    exact ⟨rfl, rfl, rfl⟩
  · rw [heq]
    exact ⟨rfl, rfl, rfl⟩

/-- A fork leaves the status alone. -/
theorem sameStatus_of_tryAddFork {r : AddForkResult}
    (h : e.tryAddFork order fork forkTally = .ok (e', r)) : e.SameStatus e' := by
  rcases tryAddFork_cases h with
    ⟨rfl, -⟩ | ⟨-, -, ⟨-, -, hadd⟩ | ⟨hash, removed, e1, -, hrem, hadd⟩⟩
  · exact ⟨rfl, rfl, rfl⟩
  · obtain ⟨tallies, -, rfl⟩ := addFork_eq_ok.mp hadd
    exact ⟨rfl, rfl, rfl⟩
  · have hsame := sameStatus_removeBlock e hash
    rw [hrem] at hsame
    obtain ⟨tallies, -, rfl⟩ := addFork_eq_ok.mp hadd
    exact ⟨hsame.state, hsame.behavior, hsame.qualifiedRoot⟩

/-- The votes in the order of the iteration, with their current weights. -/
def currentVotes (e : Election) (order : List PublicKey) (repWeights : Table PublicKey Amount) :
    List VoteSummary :=
  order.filterMap (e.updateVoteWeights repWeights).votes.get

/-- An election with calculated tallies. -/
structure Tallied (e : Election) (order : List PublicKey) (repWeights : Table PublicKey Amount)
    (e1 : Election) : Prop where
  tallies : BlockTallies.calculate (e.currentVotes order repWeights) = .ok e1.tallies
  finalTallies : BlockTallies.calculate
    ((e.currentVotes order repWeights).filter VoteSummary.isFinalVote) = .ok e1.finalTallies
  eq : e1 = { e.updateVoteWeights repWeights with
    tallies := e1.tallies, finalTallies := e1.finalTallies }

/-- The tallies are those of the current votes. -/
theorem recalculateTallies_eq_ok {order : List PublicKey} {repWeights : Table PublicKey Amount} :
    (e.updateVoteWeights repWeights).recalculateTallies order = .ok e' ↔
      e.Tallied order repWeights e' := by
  simp only [recalculateTallies, bind_eq_ok, pure_eq_ok]
  constructor
  · rintro ⟨tallies, htal, finalTallies, hfin, rfl⟩
    exact ⟨htal, hfin, rfl⟩
  · rintro ⟨htal, hfin, heq⟩
    exact ⟨_, htal, _, hfin, heq.symm⟩

/-- The winner stays, or becomes another candidate. -/
theorem updateWinner_cases {quorumDelta : Amount} (h : e.updateWinner quorumDelta = .ok e') :
    (e.checkNewWinner quorumDelta = none ∧ e' = e) ∨
      ∃ hash b, e.checkNewWinner quorumDelta = some hash ∧
        e.candidateBlocks.get hash = some b ∧ e' = { e with winner := b } := by
  rw [updateWinner] at h
  split at h
  · next hash hchk =>
    rw [changeWinnerTo] at h
    split at h
    · next b hb =>
      cases h
      exact .inr ⟨hash, b, hchk, hb, rfl⟩
    · cases h
  · next hchk =>
    cases h
    exact .inl ⟨hchk, rfl⟩

theorem exists_of_updateWinner {quorumDelta : Amount} (h : e.updateWinner quorumDelta = .ok e') :
    ∃ b, e' = { e with winner := b } := by
  rcases updateWinner_cases h with ⟨-, rfl⟩ | ⟨-, b, -, -, rfl⟩
  · exact ⟨e'.winner, rfl⟩
  · exact ⟨b, rfl⟩

/-- What the last part of an update does: it sets the tallies of the winner and the quorum, and
confirms the election if the final tally of the winner is large enough. -/
theorem confirm_cases (e : Election) (quorumDelta : Amount) :
    ∃ hasQuorum, (e.updateWinnerTally.trySetQuorum quorumDelta).tryConfirm quorumDelta =
      { e.updateWinnerTally with
        hasQuorum
        state := if quorumDelta ≤ e.finalTallies.get e.winner.hash then .confirmed
          else e.state } := by
  have hquo : ∃ hasQuorum, e.updateWinnerTally.trySetQuorum quorumDelta =
      { e.updateWinnerTally with hasQuorum } := by
    rw [trySetQuorum]
    split
    · exact ⟨true, rfl⟩
    · exact ⟨e.hasQuorum, rfl⟩
  obtain ⟨hasQuorum, heq⟩ := hquo
  refine ⟨hasQuorum, ?_⟩
  rw [heq]
  change (if quorumDelta ≤ e.finalTallies.get e.winner.hash then _ else _) = _
  split
  · rfl
  · rfl

/-- What an update does: nothing once the election has ended, and otherwise the tallies are
recalculated, the winner may change, and the election may be confirmed. -/
theorem updateTallies_cases {order : List PublicKey} {repWeights : Table PublicKey Amount}
    {quorumDelta : Amount} (h : e.updateTallies order repWeights quorumDelta = .ok e') :
    (e.state.hasEnded = true ∧ e' = e) ∨
      e.state.hasEnded = false ∧ ∃ e1 e2 hasQuorum, e.Tallied order repWeights e1 ∧
        e1.updateWinner quorumDelta = .ok e2 ∧
        e' = { e2.updateWinnerTally with
          hasQuorum
          state := if quorumDelta ≤ e2.finalTallies.get e2.winner.hash then .confirmed
            else e2.state } := by
  rw [updateTallies] at h
  split at h
  · next hend =>
    cases h
    exact .inl ⟨hend, rfl⟩
  · next hend =>
    simp only [bind_eq_ok, pure_eq_ok, recalculateTallies_eq_ok] at h
    obtain ⟨e1, he1, e2, he2, rfl⟩ := h
    obtain ⟨hasQuorum, heq⟩ := confirm_cases e2 quorumDelta
    exact .inr ⟨Bool.not_eq_true _ ▸ hend, e1, e2, hasQuorum, he1, he2, heq⟩

/-- What an operation does to an election. -/
inductive Effect (e : Election) : Operation → Election → Prop
  | status {op : Operation} {e' : Election} (hchange : StatusChange e op e') : Effect e op e'
  | votes {op : Operation} {votes : Table PublicKey VoteSummary}
      (hvotes : ∀ {voter vote}, votes.get voter = some vote →
        vote.voter = voter ∨ ∃ old, e.votes.get voter = some old ∧ vote.voter = old.voter) :
      Effect e op { e with votes }
  | removal {op : Operation} (hop : op.removesBlock = true) (hash : BlockHash) :
      Effect e op (e.removeBlock hash).1
  | fork {order : List BlockHash} {fork : Block} {forkTally : Amount} {e' : Election}
      {r : AddForkResult} (h : e.tryAddFork order fork forkTally = .ok (e', r)) :
      Effect e (.tryAddFork order fork forkTally) e'
  | update {order : List PublicKey} {repWeights : Table PublicKey Amount} {quorumDelta : Amount}
      {e' : Election} (h : e.updateTallies order repWeights quorumDelta = .ok e') :
      Effect e (.updateTallies order repWeights quorumDelta) e'

theorem effect_of_apply (h : op.apply debugAssertions e = .ok e') : Effect e op e' := by
  cases op with
  | tryAddFork order fork forkTally =>
    obtain ⟨⟨e1, r⟩, hr, rfl⟩ := map_eq_ok.mp h
    exact .fork hr
  | addVote voter hash voteCreated voteReceived =>
    change e.addVote _ _ _ _ _ = _ at h
    rw [addVote] at h
    split at h
    · cases h
    · cases h
      refine .votes fun hget => ?_
      rcases Table.eq_or_of_get_put hget with ⟨rfl, rfl⟩ | ⟨-, hget⟩
      · exact .inl rfl
      · exact .inr ⟨_, hget, rfl⟩
  | updateTallies order repWeights quorumDelta => exact .update h
  | removeVote voter =>
    cases h
    exact .votes fun hget => .inr ⟨_, (Table.get_of_get_del hget).2, rfl⟩
  | removeTallyBelow order minTally =>
    obtain ⟨r, hr, rfl⟩ := map_eq_ok.mp h
    rcases removeTallyBelow_cases hr with rfl | ⟨hash, rfl⟩
    · exact .status (statusChange_of_state ⟨rfl, rfl, rfl, rfl, rfl⟩ rfl rfl)
    · exact .removal rfl hash
  | removeBlock hash =>
    cases h
    exact .removal rfl hash
  | changeReceivedTimestamp voter newTimestamp =>
    change e.changeReceivedTimestamp _ _ = _ at h
    rw [changeReceivedTimestamp] at h
    split at h
    · next vote hvote =>
      cases h
      refine .votes fun hget => ?_
      rcases Table.eq_or_of_get_put hget with ⟨rfl, rfl⟩ | ⟨-, hget⟩
      · exact .inr ⟨vote, hvote, rfl⟩
      · exact .inr ⟨_, hget, rfl⟩
    · cases h
  | transitionTime _ | voted _ _ | cancel | transitionActive | maybeUpgradeTo _
  | forceConfirm => exact .status (statusChange_of_isStatus rfl h)

/-! ### An election of the dev network -/

/-- The first send of the dev network with its sideband. -/
def devSavedSend : SavedBlock :=
  ⟨.state devSend, ⟨2, 0, ⟨devGenesisKey⟩, Amount.max - 1, ⟨.epoch0, true, false, false⟩, .epoch0⟩⟩

/-- The election for the first send of the dev network. -/
def devElection : Election := new devSavedSend .priority (10 ^ 9) 0

/-- The election with a fork of the send. -/
def devForked : Election :=
  (Operation.tryAddFork [devSend.hash] (.legacySend devZeroSend) 1).result true devElection

/-- The election with a final vote for the send. -/
def devFinalVote : Election :=
  (Operation.addVote 1 devSend.hash UnixMillisTimestamp.max 0).result true devForked

/-- The fork and the vote can be added. -/
theorem run_devFinalVote {allowed : Election → Operation → Prop}
    (hfork : allowed devElection (.tryAddFork [devSend.hash] (.legacySend devZeroSend) 1))
    (hvote : allowed devForked (.addVote 1 devSend.hash UnixMillisTimestamp.max 0)) :
    Run true allowed devElection devFinalVote := by
  have hord : devElection.candidateBlocks.IsOrder [devSend.hash] := by decide +kernel
  have hforked : Run true allowed devElection devForked :=
    Run.result .refl hord hfork (by decide +kernel)
  exact hforked.result trivial hvote (by decide +kernel)

end Election

end RsNano
