import RsNano.Consensus.ActiveElectionsInvariant
import Mathlib.Data.Prod.Lex
import Mathlib.Data.Multiset.Lattice

/-!
# The latest vote of each representative

An election keeps one vote of each representative. The replay check accepts a vote only if it is
later than the stored one, where of two votes with the same timestamp the one for the larger hash
is later. So applying a vote from the vote cache is a join with the stored one, as long as the
election is not confirmed. The tallies depend on the stored votes and the weights only.

Other votes are subject to the cooldown, which depends on the time and is left out here.
-/

namespace RsNano

open List

/-- The part of a vote for a block that decides which vote is kept. -/
@[ext] structure Ballot where
  timestamp : UnixMillisTimestamp
  hash : BlockHash
  deriving DecidableEq

namespace Ballot

def key (b : Ballot) : ℕ ×ₗ ℕ := toLex (b.timestamp.toNat, b.hash.number.toNat)

theorem key_injective : Function.Injective key := by
  intro a b h
  obtain ⟨htime, hhash⟩ := Prod.mk.inj h
  exact Ballot.ext (BitVec.eq_of_toNat_eq htime) (U256.ext (BitVec.eq_of_toNat_eq hhash))

/-- Later timestamps are greater, and of equal ones the one with the larger hash. -/
instance : LinearOrder Ballot := LinearOrder.lift' key key_injective

theorem le_iff {a b : Ballot} : a ≤ b ↔
    a.timestamp < b.timestamp ∨ a.timestamp = b.timestamp ∧ a.hash.number ≤ b.hash.number := by
  change a.key ≤ b.key ↔ _
  rw [key, key, Prod.Lex.toLex_le_toLex, BitVec.lt_def, BitVec.le_def, ← BitVec.toNat_inj]

end Ballot

def VoteSummary.ballot (vote : VoteSummary) : Ballot := ⟨vote.voteCreated, vote.hash⟩

def FilteredVote.ballot (vote : FilteredVote) (hash : BlockHash) : Ballot := ⟨vote.timestamp, hash⟩

/-- A vote is a replay unless it is later than the last one. -/
theorem VoteSummary.isReplay_eq (last : VoteSummary) (vote : FilteredVote) (hash : BlockHash) :
    last.isReplay vote hash = decide (vote.ballot hash ≤ last.ballot) := by
  rw [isReplay, ← Bool.decide_and, ← Bool.decide_or, decide_eq_decide, Ballot.le_iff]
  exact or_congr_right (and_congr_left' eq_comm)

/-- The greatest of some ballots. -/
def latest (ballots : Multiset Ballot) : WithBot Ballot := (ballots.map WithBot.some).sup

theorem latest_add (a b : Multiset Ballot) : latest (a + b) = latest a ⊔ latest b := by
  rw [latest, Multiset.map_add, Multiset.sup_add, latest, latest]

namespace Election

/-- The stored vote of a representative. -/
def stored (e : Election) (voter : PublicKey) : WithBot Ballot :=
  match e.votes.get voter with
  | some vote => vote.ballot
  | none => ⊥

/-- The ballots of a representative among the votes for some blocks. -/
def ballots (e : Election) (voter : PublicKey) (vote : FilteredVote) (hashes : List BlockHash) :
    Multiset Ballot :=
  ((hashes.filter fun hash => vote.voter = voter ∧ e.containsBlock hash = true).map vote.ballot :
    List Ballot)

theorem latest_ballots_cons (e : Election) (voter : PublicKey) (vote : FilteredVote)
    (hash : BlockHash) (hashes : List BlockHash) :
    latest (e.ballots voter vote (hash :: hashes)) =
      latest (e.ballots voter vote [hash]) ⊔ latest (e.ballots voter vote hashes) := by
  rw [← latest_add, ballots, ballots, ballots, Multiset.coe_add, ← map_append, ← filter_append]
  rfl

theorem latest_ballots_singleton (e : Election) (voter : PublicKey) (vote : FilteredVote)
    (hash : BlockHash) : latest (e.ballots voter vote [hash]) =
      if vote.voter = voter ∧ e.containsBlock hash = true then ↑(vote.ballot hash) else ⊥ := by
  rw [ballots]
  by_cases h : vote.voter = voter ∧ e.containsBlock hash = true
  · simp [h, latest]
  · simp [h, latest]

/-- Votes were counted, and the election was not confirmed. -/
structure Counts (e e' : Election) : Prop where
  candidateBlocks : e'.candidateBlocks = e.candidateBlocks
  state : e'.state = e.state
  ended : e.state.hasEnded = true → e'.tallies = e.tallies ∧ e'.finalTallies = e.finalTallies

variable {e e' e'' : Election}

theorem Counts.refl (e : Election) : e.Counts e := ⟨rfl, rfl, fun _ => ⟨rfl, rfl⟩⟩

theorem Counts.trans (h : e.Counts e') (h' : e'.Counts e'') : e.Counts e'' where
  candidateBlocks := h'.candidateBlocks.trans h.candidateBlocks
  state := h'.state.trans h.state
  ended := by
    intro hend
    obtain ⟨htals, hfin⟩ := h'.ended (h.state ▸ hend)
    obtain ⟨htals', hfin'⟩ := h.ended hend
    exact ⟨htals.trans htals', hfin.trans hfin'⟩

theorem Counts.isConfirmed_eq (h : e.Counts e') : e'.isConfirmed = e.isConfirmed := by
  rw [isConfirmed, h.state, isConfirmed]

theorem Counts.ballots_eq (h : e.Counts e') (voter : PublicKey) (vote : FilteredVote)
    (hashes : List BlockHash) : e'.ballots voter vote hashes = e.ballots voter vote hashes := by
  have hmem : ∀ hash, e'.containsBlock hash = e.containsBlock hash := by
    intro hash
    rw [containsBlock, h.candidateBlocks, containsBlock]
  simp only [ballots, hmem]

/-- A vote is put in the place of the last one. -/
theorem counts_of_addVote {debugAssertions : Bool} {voter : PublicKey} {hash : BlockHash}
    {voteCreated : UnixMillisTimestamp} {voteReceived : Timestamp}
    (h : e.addVote debugAssertions voter hash voteCreated voteReceived = .ok e') :
    e.Counts e' ∧ ∀ voter', e'.stored voter' =
      if voter = voter' then ↑(⟨voteCreated, hash⟩ : Ballot) else e.stored voter' := by
  rw [addVote] at h
  split at h
  · cases h
  · cases h
    refine ⟨⟨rfl, rfl, fun _ => ⟨rfl, rfl⟩⟩, fun voter' => ?_⟩
    rw [stored]
    rw [Table.get_put]
    by_cases hvoter : voter' = voter
    · rw [if_pos hvoter, if_pos hvoter.symm]
      rfl
    · rw [if_neg hvoter, if_neg (Ne.symm hvoter)]
      rfl

section

variable {order : List PublicKey} {repWeights : Table PublicKey Amount} {quorumDelta : Amount}
  (h : e.updateTallies order repWeights quorumDelta = .ok e')

include h

/-- An update leaves the stored votes alone. -/
theorem stored_of_updateTallies (voter : PublicKey) : e'.stored voter = e.stored voter := by
  rcases updateTallies_cases h with ⟨-, rfl⟩ | ⟨-, e1, e2, -, htal, hwin, rfl⟩
  · rfl
  have hvotes : e2.votes = e1.votes := by
    obtain ⟨b, rfl⟩ := exists_of_updateWinner hwin
    rfl
  have hget : e1.votes.get voter = (e.votes.get voter).map fun vote =>
      { vote with weight := (repWeights.get vote.voter).getD 0 } := by
    rw [htal.eq]
    exact Table.get_mapValues _ _ _
  rw [stored, stored]
  change (match e2.votes.get voter with | some vote => _ | none => _) = _
  rw [hvotes, hget]
  cases e.votes.get voter with
  | none | some vote => rfl

/-- An update that does not confirm the election. -/
theorem counts_of_updateTallies (hconf : e'.isConfirmed = false) : e.Counts e' := by
  rcases updateTallies_cases h with ⟨-, rfl⟩ | ⟨hend, e1, e2, hasQuorum, htal, hwin, rfl⟩
  · exact .refl e'
  have hsame : e2.candidateBlocks = e1.candidateBlocks ∧ e2.state = e1.state := by
    obtain ⟨b, rfl⟩ := exists_of_updateWinner hwin
    exact ⟨rfl, rfl⟩
  have hbef : e1.candidateBlocks = e.candidateBlocks ∧ e1.state = e.state := by
    rw [htal.eq]
    exact ⟨rfl, rfl⟩
  refine ⟨hsame.1.trans hbef.1, ?_, fun h => absurd (hend.symm.trans h) Bool.false_ne_true⟩
  split
  · next hfin =>
    rw [if_pos hfin] at hconf
    cases hconf
  · exact hsame.2.trans hbef.2

end

/-! ### Tallies -/

/-- What a representative adds to the tally of the ballots that pass a test. -/
def share (e : Election) (repWeights : Table PublicKey Amount) (test : Ballot → Bool)
    (voter : PublicKey) : Amount :=
  match e.votes.get voter with
  | some vote => if test vote.ballot then (repWeights.get voter).getD 0 else 0
  | none => 0

variable {repWeights : Table PublicKey Amount} {test : Ballot → Bool} {voter : PublicKey}

theorem share_congr (h : e.stored voter = e'.stored voter) :
    e.share repWeights test voter = e'.share repWeights test voter := by
  rw [stored, stored] at h
  rw [share, share]
  cases hget : e.votes.get voter with
  | none =>
    cases hget' : e'.votes.get voter with
    | none => rfl
    | some vote' => simp [hget, hget'] at h
  | some vote =>
    cases hget' : e'.votes.get voter with
    | none => simp [hget, hget'] at h
    | some vote' =>
      rw [hget, hget'] at h
      dsimp only
      rw [WithBot.coe_injective h]

/-- The representatives with a vote, in any order. -/
theorem perm_of_stored_eq {order order' : List PublicKey} (hord : e.votes.IsOrder order)
    (hord' : e'.votes.IsOrder order') (h : ∀ voter, e.stored voter = e'.stored voter) :
    order.Perm order' := by
  have hbot : ∀ (e : Election) voter, e.stored voter = ⊥ ↔ e.votes.get voter = none := by
    intro e voter
    rw [stored]
    cases e.votes.get voter with
    | none | some vote => simp
  refine (perm_ext_iff_of_nodup hord.nodup hord'.nodup).mpr fun voter => ?_
  rw [hord.mem_iff, hord'.mem_iff, ← Option.ne_none_iff_exists', ← Option.ne_none_iff_exists',
    ← not_iff_not, not_not, not_not, ← hbot, ← hbot, h]

/-- The weight of the votes that pass a test. -/
theorem WellFormed.sum_currentVotes (hwf : e.WellFormed) (order : List PublicKey) :
    (((e.currentVotes order repWeights).filter fun vote => test vote.ballot).map
      VoteSummary.weight).sum = (order.map (e.share repWeights test)).sum := by
  rw [Election.currentVotes]
  induction order with
  | nil => rfl
  | cons voter order ih =>
    have hget : (e.updateVoteWeights repWeights).votes.get voter = (e.votes.get voter).map
        fun vote => { vote with weight := (repWeights.get vote.voter).getD 0 } :=
      Table.get_mapValues _ _ _
    rw [map_cons, sum_cons, ← ih, filterMap_cons, hget, share]
    cases hvote : e.votes.get voter with
    | none => exact (zero_add _).symm
    | some vote =>
      have hvoter := (hwf.voted hvote).1
      change (((_ :: _).filter _).map _).sum = _
      rw [filter_cons]
      change (map _ (if test vote.ballot = true then _ else _)).sum =
        (if test vote.ballot = true then _ else _) + _
      split
      · rw [map_cons, sum_cons]
        dsimp only
        rw [hvoter]
      · exact (zero_add _).symm

/-- The tallies of an election that has not ended depend on the stored votes and the weights. -/
theorem WellFormed.tallies_of_updateTallies (hwf : e.WellFormed)
    (hend : e.state.hasEnded = false) {order : List PublicKey} {quorumDelta : Amount}
    (h : e.updateTallies order repWeights quorumDelta = .ok e') (hash : BlockHash) :
    e'.tallies.get hash = (order.map (e.share repWeights fun b => b.hash = hash)).sum ∧
      e'.finalTallies.get hash = (order.map (e.share repWeights fun b =>
        b.hash = hash && b.timestamp = UnixMillisTimestamp.max)).sum := by
  rcases updateTallies_cases h with ⟨hend', -⟩ | ⟨-, e1, e2, -, htal, hwin, rfl⟩
  · exact absurd (hend.symm.trans hend') Bool.false_ne_true
  have hsame : e2.tallies = e1.tallies ∧ e2.finalTallies = e1.finalTallies := by
    obtain ⟨b, rfl⟩ := exists_of_updateWinner hwin
    exact ⟨rfl, rfl⟩
  constructor
  · change e2.tallies.get hash = _
    rw [hsame.1, BlockTallies.get_of_calculate htal.tallies, ← hwf.sum_currentVotes]
    rfl
  · change e2.finalTallies.get hash = _
    rw [hsame.2, BlockTallies.get_of_calculate htal.finalTallies, filter_filter,
      ← hwf.sum_currentVotes]
    rfl

/-- Two elections that counted votes from the same start and store the same votes have the same
tallies after an update. -/
theorem Counts.tallies_eq {e1 e2 e1' e2' : Election} (h1 : e.Counts e1) (h2 : e.Counts e2)
    (hwf1 : e1.WellFormed) (hwf2 : e2.WellFormed)
    (hst : ∀ voter, e1.stored voter = e2.stored voter)
    {order1 order2 : List PublicKey} (hord1 : e1.votes.IsOrder order1)
    (hord2 : e2.votes.IsOrder order2) {delta1 delta2 : Amount}
    (hupd1 : e1.updateTallies order1 repWeights delta1 = .ok e1')
    (hupd2 : e2.updateTallies order2 repWeights delta2 = .ok e2') (hash : BlockHash) :
    e1'.tallies.get hash = e2'.tallies.get hash ∧
      e1'.finalTallies.get hash = e2'.finalTallies.get hash := by
  cases hend : e.state.hasEnded with
  | true =>
    have hsame1 : e1' = e1 := by
      rw [updateTallies, h1.state, if_pos hend] at hupd1
      exact (Except.ok.inj hupd1).symm
    have hsame2 : e2' = e2 := by
      rw [updateTallies, h2.state, if_pos hend] at hupd2
      exact (Except.ok.inj hupd2).symm
    rw [hsame1, hsame2, (h1.ended hend).1, (h1.ended hend).2, (h2.ended hend).1, (h2.ended hend).2]
    exact ⟨rfl, rfl⟩
  | false =>
    have hperm := perm_of_stored_eq hord1 hord2 hst
    have hshare : ∀ test, (order1.map (e1.share repWeights test)).sum =
        (order2.map (e2.share repWeights test)).sum := by
      intro test
      have heq : e1.share repWeights test = e2.share repWeights test :=
        funext fun voter => share_congr (hst voter)
      rw [heq, (hperm.map _).sum_eq]
    obtain ⟨htally1, hfin1⟩ := hwf1.tallies_of_updateTallies (h1.state ▸ hend) hupd1 hash
    obtain ⟨htally2, hfin2⟩ := hwf2.tallies_of_updateTallies (h2.state ▸ hend) hupd2 hash
    rw [htally1, hfin1, htally2, hfin2]
    exact ⟨hshare _, hshare _⟩

end Election

namespace ApplyVoteArgs

variable {args : ApplyVoteArgs} {debugAssertions : Bool} {order : List PublicKey}
  {cache cache' : RecentlyConfirmedCache} {e e' : Election} {hash : BlockHash}
  {result : Except VoteError Unit}

/-- A vote from the cache is only refused if the election is confirmed or the stored vote is at
least as late. -/
theorem refusal_eq_none_iff (e : Election) (hash : BlockHash) (hcache : args.vote.source = .cache) :
    args.refusal e hash = none ↔
      e.isConfirmed = false ∧ e.stored args.vote.voter < args.vote.ballot hash := by
  have hcool : ∀ last weight, args.shouldCoolDown last weight = false := fun last weight =>
    if_pos hcache
  rw [refusal, Election.stored]
  by_cases hconf : e.isConfirmed = true
  · simp [hconf]
  · cases hget : e.votes.get args.vote.voter with
    | none => simp [hconf]
    | some last => simp [hconf, hcool, VoteSummary.isReplay_eq]

/-- The stored vote is the latest one. -/
theorem stored_of_applyToElection (hcache : args.vote.source = .cache)
    (h : args.applyToElection debugAssertions order cache e hash = .ok (e', cache', result))
    (hconf : e'.isConfirmed = false) :
    e.Counts e' ∧ ∀ voter, e'.stored voter =
      e.stored voter ⊔ if args.vote.voter = voter then ↑(args.vote.ballot hash) else ⊥ := by
  have hrefusal := refusal_eq_none_iff e hash hcache
  rw [applyToElection] at h
  cases hcase : args.refusal e hash with
  | some error =>
    rw [hcase] at h hrefusal
    cases h
    refine ⟨.refl e, fun voter => ?_⟩
    split
    · next hvoter =>
      subst hvoter
      exact (sup_of_le_left (not_lt.mp fun hlt => by cases hrefusal.mpr ⟨hconf, hlt⟩)).symm
    · exact (sup_bot_eq _).symm
  | none =>
    rw [hcase] at h hrefusal
    obtain ⟨-, hlt⟩ := hrefusal.mp rfl
    obtain ⟨⟨e2, cache2⟩, hadd, heq⟩ := bind_eq_ok.mp h
    cases heq
    obtain ⟨e1, hadd1, hrest⟩ := bind_eq_ok.mp hadd
    obtain ⟨e3, hupd, hreturn⟩ := bind_eq_ok.mp hrest
    obtain rfl : e3 = e' := by
      split at hreturn
      · cases hreturn
        rfl
      · cases hreturn
        rfl
    obtain ⟨hcnts, hst⟩ := Election.counts_of_addVote hadd1
    refine ⟨hcnts.trans (Election.counts_of_updateTallies hupd hconf), fun voter => ?_⟩
    rw [Election.stored_of_updateTallies hupd, hst]
    split
    · next hvoter =>
      subst hvoter
      exact (sup_of_le_right hlt.le).symm
    · exact (sup_bot_eq _).symm

end ApplyVoteArgs

end RsNano
