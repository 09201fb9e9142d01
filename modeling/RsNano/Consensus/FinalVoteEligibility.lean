import RsNano.Consensus.ElectionConfirmation
import RsNano.Lib.Trace

/-!
# When an election asks for final votes

An election that is not confirmed asks for final votes once an update has seen a quorum. The
quorum is that of the leading block at that time. The flag is never taken back, also not when
another block becomes the winner later on, so the winner that final votes are generated for may
never have had a quorum itself. It has had one in all histories in which the winner is only changed
together with a quorum of the new one.
-/

namespace RsNano

open Machine

namespace BlockTallies

variable {t : BlockTallies} {quorumDelta : Amount}

/-- With a quorum the first tally is ahead of all others by the delta. -/
theorem Ordered.lead_of_checkQuorum (h : t.Ordered) (hpos : 0 < quorumDelta)
    (hquo : t.checkQuorum quorumDelta = true) : ∃ hash,
      quorumDelta.toNat ≤ (t.get hash).toNat ∧
        ∀ other, other ≠ hash → (t.get other).toNat + quorumDelta.toNat ≤ (t.get hash).toNat := by
  have hzero : ∀ w : Amount, 0 ≤ w := fun w => BitVec.le_def.mpr (Nat.zero_le w.toNat)
  rw [checkQuorum, decide_eq_true_iff] at hquo
  cases hents : t.entries with
  | nil =>
    rw [hents] at hquo
    exact absurd hpos (BitVec.not_lt.mpr hquo)
  | cons x rest =>
    have hranked := h.ranked
    rw [hents] at hquo hranked
    have hsnd : ((rest[0]?).map Prod.snd).getD 0 ≤ x.2 ∧
        ∀ other, Tally.get rest other ≤ ((rest[0]?).map Prod.snd).getD 0 := by
      cases rest with
      | nil => exact ⟨hzero x.2, fun other => BitVec.le_refl _⟩
      | cons y rest =>
        refine ⟨(List.pairwise_cons.mp hranked).1 y List.mem_cons_self, fun other => ?_⟩
        exact Tally.Ranked.get_le hzero (List.pairwise_cons.mp hranked).2 other
    simp only [List.getElem?_cons_zero, List.getElem?_cons_succ, Option.map_some,
      Option.getD_some] at hquo
    rw [BitVec.le_def, BitVec.toNat_sub_of_le hsnd.1] at hquo
    have hfst : t.get x.1 = x.2 := by rw [get, hents, Tally.get_cons, if_pos rfl]
    refine ⟨x.1, ?_, fun other hoth => ?_⟩
    · rw [hfst]
      omega
    · have hle := BitVec.le_def.mp (hsnd.2 other)
      have hbelow := BitVec.le_def.mp hsnd.1
      have hget : t.get other = Tally.get rest other := by
        rw [get, hents, Tally.get_cons, if_neg (Ne.symm hoth)]
      rw [hfst, hget]
      omega

end BlockTallies

namespace Election

/-- The weight of the votes for a block. -/
def weightFor (e : Election) (repWeights : Table PublicKey Amount) (hash : BlockHash) : ℕ :=
  e.votes.sumBy fun voter vote =>
    if vote.hash = hash then ((repWeights.get voter).getD 0).toNat else 0

/-- The block is ahead of all others by the delta. -/
def Ahead (weights : BlockHash → ℕ) (delta : ℕ) (hash : BlockHash) : Prop :=
  delta ≤ weights hash ∧ ∀ other, other ≠ hash → weights other + delta ≤ weights hash

/-- The update changes the winner of an election with a quorum only if the new one has a quorum as
well. The weights of the voters fit into an amount. -/
def KeepsQuorum (e : Election) : Operation → Prop
  | .updateTallies _ repWeights quorumDelta =>
    0 < quorumDelta ∧ e.votingWeight repWeights < 2 ^ 128 ∧ (e.hasQuorum = true →
      e.votingWeight repWeights < quorumDelta.toNat ∨
      (∀ hash, hash ≠ e.winner.hash →
        e.weightFor repWeights hash < e.weightFor repWeights e.winner.hash) ∨
      ∃ hash, Ahead (e.weightFor repWeights) quorumDelta.toNat hash)
  | _ => True

variable {e e' e1 e2 : Election} {order : List PublicKey} {repWeights : Table PublicKey Amount}
  {quorumDelta : Amount} {debugAssertions : Bool}

theorem Tallied.votingWeight_eq (h : e.Tallied order repWeights e1) :
    e1.votingWeight repWeights = e.votingWeight repWeights := by
  rw [votingWeight, h.votes_eq, Table.sumBy_mapValues]
  rfl

theorem Tallied.weightFor_eq (h : e.Tallied order repWeights e1) (hash : BlockHash) :
    e1.weightFor repWeights hash = e.weightFor repWeights hash := by
  rw [weightFor, h.votes_eq, Table.sumBy_mapValues]
  rfl

theorem weightFor_le (e : Election) (repWeights : Table PublicKey Amount) (hash : BlockHash) :
    e.weightFor repWeights hash ≤ e.votingWeight repWeights := by
  refine Table.sumBy_le_sumBy fun voter vote _ => ?_
  split
  · exact le_rfl
  · exact Nat.zero_le _

section

variable (hk : e.Keyed) (horder : e.votes.IsOrder order) (h : e.Tallied order repWeights e1)
  (hfit : e.votingWeight repWeights < 2 ^ 128)

include hk horder h hfit

/-- The tallies are the weights of the votes, where these fit into an amount. -/
theorem Tallied.toNat_get (hash : BlockHash) :
    (e1.tallies.get hash).toNat = e.weightFor repWeights hash := by
  have hsum := h.sum_currentVotes hk horder fun vote => decide (vote.hash = hash)
  simp only [decide_eq_true_eq] at hsum
  have hle := (e.weightFor_le repWeights hash).trans_lt hfit
  rw [← h.weightFor_eq] at hle ⊢
  rw [BlockTallies.get_of_calculate h.tallies]
  exact (Amount.toNat_sum (hsum ▸ hle)).trans hsum

variable (hwinner : e1.updateWinner quorumDelta = .ok e2)

include hwinner

/-- With enough votes the winner has the largest weight. -/
theorem Tallied.weightFor_le_winner (henough : quorumDelta.toNat ≤ e.votingWeight repWeights)
    (hash : BlockHash) : e.weightFor repWeights hash ≤ e.weightFor repWeights e2.winner.hash := by
  have hsum := h.sum_eq hk horder (h.votingWeight_eq ▸ hfit)
  rw [h.votingWeight_eq] at hsum
  have hle := h.get_le_of_enough hk hwinner (by rw [BitVec.lt_def]; omega) hash
  rw [BitVec.le_def, h.toNat_get hk horder hfit, h.toNat_get hk horder hfit] at hle
  exact hle

/-- Without enough votes the winner stays. -/
theorem Tallied.winner_eq (hfew : e.votingWeight repWeights < quorumDelta.toNat) :
    e2.winner = e.winner := by
  have hsum := h.sum_eq hk horder (h.votingWeight_eq ▸ hfit)
  rw [h.votingWeight_eq] at hsum
  have hchk : e1.checkNewWinner quorumDelta = none := by
    rw [checkNewWinner, if_pos]
    rw [BitVec.lt_def]
    omega
  have hsame : e1.winner = e.winner := by
    rw [h.eq]
    rfl
  rcases updateWinner_cases hwinner with ⟨-, rfl⟩ | ⟨hash, b, hsome, -⟩
  · exact hsame
  · cases hchk.symm.trans hsome

/-- A block that is ahead is the winner. -/
theorem Tallied.winner_of_ahead (hpos : 0 < quorumDelta) {hash : BlockHash}
    (hahead : Ahead (e.weightFor repWeights) quorumDelta.toNat hash) : e2.winner.hash = hash := by
  by_contra hne
  have hle := h.weightFor_le_winner hk horder hfit hwinner
    (hahead.1.trans (e.weightFor_le repWeights hash)) hash
  have hlead := hahead.2 e2.winner.hash hne
  rw [BitVec.lt_def] at hpos
  omega

end

/-- What an update does to the quorum. -/
theorem quorum_of_updateTallies (h : e.updateTallies order repWeights quorumDelta = .ok e') :
    e' = e ∨ e.state.hasEnded = false ∧ ∃ e1 e2, e.Tallied order repWeights e1 ∧
      e1.updateWinner quorumDelta = .ok e2 ∧ e'.winner = e2.winner ∧ e'.tallies = e1.tallies ∧
      (e'.hasQuorum = true → e.hasQuorum = true ∨ e1.tallies.checkQuorum quorumDelta = true) := by
  rw [updateTallies] at h
  split at h
  · cases h
    exact .inl rfl
  · next hend =>
    simp only [bind_eq_ok, pure_eq_ok, recalculateTallies_eq_ok] at h
    obtain ⟨e1, he1, e2, he2, rfl⟩ := h
    have hsame : e2.tallies = e1.tallies ∧ e2.hasQuorum = e1.hasQuorum := by
      obtain ⟨b, rfl⟩ := exists_of_updateWinner he2
      exact ⟨rfl, rfl⟩
    have hbef : e1.hasQuorum = e.hasQuorum := by
      rw [he1.eq]
      rfl
    have hconf : ∀ e : Election, (e.tryConfirm quorumDelta).winner = e.winner ∧
        (e.tryConfirm quorumDelta).tallies = e.tallies ∧
        (e.tryConfirm quorumDelta).hasQuorum = e.hasQuorum := by
      intro e
      rw [tryConfirm]
      split
      · exact ⟨rfl, rfl, rfl⟩
      · exact ⟨rfl, rfl, rfl⟩
    obtain ⟨hwinner, htals, hquo⟩ := hconf (e2.updateWinnerTally.trySetQuorum quorumDelta)
    refine .inr ⟨Bool.not_eq_true _ ▸ hend, e1, e2, he1, he2, ?_, ?_, ?_⟩
    · rw [hwinner, trySetQuorum]
      split
      · rfl
      · rfl
    · rw [htals, ← hsame.1, trySetQuorum]
      split
      · rfl
      · rfl
    · rw [hquo, trySetQuorum, ← hsame.1, ← hbef, ← hsame.2]
      split
      · next hchk => exact fun _ => .inr hchk
      · exact .inl

/-- The winner and the quorum stay. -/
structure SameQuorum (e e' : Election) : Prop where
  winner : e'.winner = e.winner
  hasQuorum : e'.hasQuorum = e.hasQuorum

theorem SameQuorum.refl (e : Election) : e.SameQuorum e := ⟨rfl, rfl⟩

theorem sameQuorum_removeBlock (e : Election) (hash : BlockHash) :
    e.SameQuorum (e.removeBlock hash).1 := by
  rcases removeBlock_cases e hash with heq | ⟨b, -, -, heq⟩
  · rw [heq]
    exact .refl e
  · rw [heq]
    exact ⟨rfl, rfl⟩

theorem sameQuorum_of_addFork {fork : Block} {forkTally : Amount}
    (h : e.addFork fork forkTally = .ok e') : e.SameQuorum e' := by
  obtain ⟨-, -, rfl⟩ := addFork_eq_ok.mp h
  exact ⟨rfl, rfl⟩

/-- Only an update changes winner and quorum. -/
theorem sameQuorum_of_apply {op : Operation}
    (hop : ∀ order repWeights quorumDelta, op ≠ .updateTallies order repWeights quorumDelta)
    (h : op.apply debugAssertions e = .ok e') : e.SameQuorum e' := by
  cases effect_of_apply h with
  | status hchg => exact ⟨hchg.content.winner, hchg.hasQuorum⟩
  | votes _ => exact ⟨rfl, rfl⟩
  | removal _ hash => exact sameQuorum_removeBlock e hash
  | fork hfork =>
    rcases tryAddFork_cases hfork with
      ⟨rfl, -⟩ | ⟨-, -, ⟨-, -, hadd⟩ | ⟨hash, removed, e2, -, hrem, hadd⟩⟩
    · exact .refl _
    · exact sameQuorum_of_addFork hadd
    · have hremd := sameQuorum_removeBlock e hash
      have hadded := sameQuorum_of_addFork hadd
      rw [hrem] at hremd
      exact ⟨hadded.winner.trans hremd.winner, hadded.hasQuorum.trans hremd.hasQuorum⟩
  | update _ => exact absurd rfl (hop _ _ _)

/-- An update in which the winner is ahead of all other candidates by the delta. -/
def HasLead (x : Transition Election Operation) : Prop :=
  ∃ order repWeights quorumDelta, x.operation = .updateTallies order repWeights quorumDelta ∧
    x.before.state.hasEnded = false ∧
    Ahead (fun hash => (x.after.tallies.get hash).toNat) quorumDelta.toNat x.after.winner.hash

/-- After an operation that keeps the quorum, it is that of the winner, which is the same as before
or has just got it. -/
theorem Keyed.quorum_of_apply (hk : e.Keyed) {op : Operation} (hfits : op.Fits e)
    (hkeep : e.KeepsQuorum op) (hok : op.apply debugAssertions e = .ok e')
    (hquo : e'.hasQuorum = true) :
    HasLead ⟨e, op, e'⟩ ∨ e.hasQuorum = true ∧ e'.winner.hash = e.winner.hash := by
  by_cases hop : ∃ order repWeights quorumDelta,
      op = .updateTallies order repWeights quorumDelta
  · obtain ⟨order, repWeights, quorumDelta, rfl⟩ := hop
    obtain ⟨hpos, hfit, hkeep⟩ := hkeep
    rcases quorum_of_updateTallies hok with
      rfl | ⟨hend, e1, e2, htal, hupd, hwinner, htals, hset⟩
    · exact .inr ⟨hquo, rfl⟩
    have hlead : ∀ hash, Ahead (e.weightFor repWeights) quorumDelta.toNat hash →
        HasLead ⟨e, .updateTallies order repWeights quorumDelta, e'⟩ := by
      intro hash hahead
      refine ⟨order, repWeights, quorumDelta, rfl, hend, ?_⟩
      have heq := htal.winner_of_ahead hk hfits hfit hupd hpos hahead
      simp only [htals, hwinner, heq, htal.toNat_get hk hfits hfit]
      exact hahead
    have hstays : e.votingWeight repWeights < quorumDelta.toNat →
        e'.winner.hash = e.winner.hash := by
      intro hfew
      rw [hwinner, htal.winner_eq hk hfits hfit hupd hfew]
    rcases hset hquo with hold | hnew
    · rcases hkeep hold with hfew | hstrict | ⟨hash, hahead⟩
      · exact .inr ⟨hold, hstays hfew⟩
      · refine .inr ⟨hold, ?_⟩
        by_cases henough : quorumDelta.toNat ≤ e.votingWeight repWeights
        · by_contra hne
          rw [hwinner] at hne
          have hle := htal.weightFor_le_winner hk hfits hfit hupd henough e.winner.hash
          exact absurd (hstrict _ hne) (Nat.not_lt.mpr hle)
        · exact hstays (Nat.not_le.mp henough)
      · exact .inl (hlead hash hahead)
    · obtain ⟨hash, hahead⟩ :=
        (BlockTallies.ordered_of_calculate htal.tallies).lead_of_checkQuorum hpos hnew
      simp only [htal.toNat_get hk hfits hfit] at hahead
      exact .inl (hlead hash hahead)
  · have hsame := sameQuorum_of_apply (fun o r q heq => hop ⟨o, r, q, heq⟩) hok
    exact .inr ⟨hsame.hasQuorum ▸ hquo, by rw [hsame.winner]⟩

/-- The transitions of a run of an election. -/
def Trace (debugAssertions : Bool) (allowed : Election → Operation → Prop) :
    Election → List (Transition Election Operation) → Election → Prop :=
  Machine.Trace (fun e op => op.apply debugAssertions e) fun e op => op.Fits e ∧ allowed e op

variable {allowed : Election → Operation → Prop}

/-- One more operation of a trace, given by its result. -/
theorem Trace.result {start : Election}
    {steps : List (Transition Election Operation)}
    (h : Trace debugAssertions allowed start steps e) (op : Operation) (hfits : op.Fits e)
    (hallow : allowed e op) (hok : (op.apply debugAssertions e).toOption.isSome = true) :
    Trace debugAssertions allowed start (steps ++ [⟨e, op, op.result debugAssertions e⟩])
      (op.result debugAssertions e) :=
  Machine.Trace.result h op ⟨hfits, hallow⟩ hok

/-- Where the winner is only changed together with a quorum of the new one, an election asks for
final votes only if the winner has had a lead of the delta since it became the winner. -/
theorem trace_hasLead {block : SavedBlock} {behavior : ElectionBehavior} {baseLatency : ℕ}
    {now : Timestamp} {steps : List (Transition Election Operation)}
    (h : Trace debugAssertions KeepsQuorum (new block behavior baseLatency now) steps e)
    (hfinal : e.voteType = .final) (hconf : e.isConfirmed = false) :
    Since HasLead (fun x => x.winner.hash = e.winner.hash) steps := by
  have hquorum : e.hasQuorum = true := by
    rw [voteType, isFinal, hconf, Bool.false_or] at hfinal
    by_contra hnot
    rw [if_neg hnot] at hfinal
    cases hfinal
  clear hfinal hconf
  induction h with
  | nil => cases hquorum
  | @snoc steps e e' op hsteps hallowed hok ih =>
    have hk : e.Keyed := (keyed_new block behavior baseLatency now).run hsteps.run
    refine since_snoc.mpr ⟨rfl, ?_⟩
    rcases hk.quorum_of_apply hallowed.1 hallowed.2 hok hquorum with hlead | ⟨hold, heq⟩
    · exact .inl hlead
    · rw [heq]
      exact .inr (ih hold)

/-- The quorum delta is positive, and the weights of the voters fit into an amount. -/
def HasDelta (e : Election) : Operation → Prop
  | .updateTallies _ repWeights quorumDelta =>
    0 < quorumDelta ∧ e.votingWeight repWeights < 2 ^ 128
  | _ => True

/-- An election of the dev network with a fork and a vote for the first send. -/
def devVoted : Election := (Operation.addVote 1 devSend.hash 0 0).result true devForked

/-- The first send gets a quorum. -/
def devQuorum : Election := (Operation.updateTallies [1] devWeights 5).result true devVoted

/-- The transitions up to the quorum. -/
def devQuorumSteps : List (Transition Election Operation) :=
  [⟨devElection, .tryAddFork [devSend.hash] (.legacySend devZeroSend) 1, devForked⟩,
    ⟨devForked, .addVote 1 devSend.hash 0 0, devVoted⟩,
    ⟨devVoted, .updateTallies [1] devWeights 5, devQuorum⟩]

theorem trace_devQuorum
    (hfork : allowed devElection (.tryAddFork [devSend.hash] (.legacySend devZeroSend) 1))
    (hvote : allowed devForked (.addVote 1 devSend.hash 0 0))
    (hupd : allowed devVoted (.updateTallies [1] devWeights 5)) :
    Trace true allowed devElection devQuorumSteps devQuorum := by
  have horder : devElection.candidateBlocks.IsOrder [devSend.hash] := by decide +kernel
  have hvotes : devVoted.votes.IsOrder [1] := by decide +kernel
  have hbeg : Trace true allowed devElection [] devElection := .nil
  have hforked := hbeg.result (.tryAddFork [devSend.hash] (.legacySend devZeroSend) 1) horder
    hfork (by decide +kernel)
  have hvoted := hforked.result (.addVote 1 devSend.hash 0 0) trivial hvote (by decide +kernel)
  exact hvoted.result (.updateTallies [1] devWeights 5) hvotes hupd (by decide +kernel)

/-- The election asks for final votes for the first send, which has a lead of five. -/
theorem hasLead_devQuorum : Trace true KeepsQuorum devElection devQuorumSteps devQuorum ∧
    devQuorum.voteType = .final ∧ devQuorum.isConfirmed = false ∧
    Since HasLead (fun x => x.winner.hash = devQuorum.winner.hash) devQuorumSteps := by
  have hnone : devVoted.hasQuorum = false := by decide +kernel
  have hkeeps : devVoted.KeepsQuorum (.updateTallies [1] devWeights 5) :=
    ⟨by decide, by decide +kernel, fun h => nomatch h.symm.trans hnone⟩
  have htrace := trace_devQuorum trivial trivial hkeeps
  have hfinal : devQuorum.voteType = .final := by decide +kernel
  have hconf : devQuorum.isConfirmed = false := by decide +kernel
  exact ⟨htrace, hfinal, hconf, trace_hasLead htrace hfinal hconf⟩

/-- The weights of two representatives. -/
def devTwoWeights : Table PublicKey Amount := devWeights.put 2 6

/-- The second representative votes for the fork. -/
def devSecondVote : Election := (Operation.addVote 2 devZeroSend.hash 0 0).result true devQuorum

/-- The fork becomes the winner. -/
def devOvertaken : Election :=
  (Operation.updateTallies [1, 2] devTwoWeights 5).result true devSecondVote

/-- The transitions until the fork is the winner. -/
def devOvertakenSteps : List (Transition Election Operation) :=
  devQuorumSteps ++ [⟨devQuorum, .addVote 2 devZeroSend.hash 0 0, devSecondVote⟩] ++
    [⟨devSecondVote, .updateTallies [1, 2] devTwoWeights 5, devOvertaken⟩]

/-- The fork overtakes the first send by one. The election still asks for final votes, now for the
fork, which never had a lead of five. -/
theorem devOvertaken_not_hasLead :
    Trace true HasDelta devElection devOvertakenSteps devOvertaken ∧
    devOvertaken.voteType = .final ∧ devOvertaken.isConfirmed = false ∧
    devOvertaken.winner.hash = devZeroSend.hash ∧
    ¬ Since HasLead (fun x => x.winner.hash = devOvertaken.winner.hash)
      devOvertakenSteps := by
  have hquorum : Trace true HasDelta devElection devQuorumSteps devQuorum :=
    trace_devQuorum trivial trivial ⟨by decide, by decide +kernel⟩
  have hsecond := hquorum.result (.addVote 2 devZeroSend.hash 0 0) trivial trivial
    (by decide +kernel)
  have hvotes : devSecondVote.votes.IsOrder [1, 2] := by decide +kernel
  refine ⟨hsecond.result (.updateTallies [1, 2] devTwoWeights 5) hvotes
    ⟨by decide, by decide +kernel⟩ (by decide +kernel), by decide +kernel, by decide +kernel,
    by decide +kernel, fun hsince => ?_⟩
  rcases (since_snoc.mp hsince).2 with ⟨order, repWeights, delta, hop, -, hahead⟩ | hearlier
  · cases hop
    have hlead := hahead.2 devSend.hash (by decide +kernel)
    revert hlead
    decide +kernel
  · have hwinner := (since_snoc.mp hearlier).1
    revert hwinner
    decide +kernel

end Election

end RsNano
