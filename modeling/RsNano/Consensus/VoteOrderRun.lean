import RsNano.Consensus.ActiveElectionsRun
import RsNano.Consensus.VoteOrder

/-!
# The order of votes

A vote is applied to the elections of all its blocks, and votes are applied one after the other.
What is stored in the end is the latest vote of each representative, whatever the order was, as
long as the election is not confirmed on the way. When and with which weights a vote is applied may
differ from one order to the other.
-/

namespace RsNano

/-- An election of these roots that is not confirmed comes from one of the roots before, and has
stored the latest of what was stored there and of some ballots. -/
def Gains (roots roots' : RootContainer) (root : QualifiedRoot)
    (ballots : Election → PublicKey → Multiset Ballot) : Prop :=
  ∀ entry', roots'.get root = some entry' → entry'.election.isConfirmed = false →
    ∃ entry, roots.get root = some entry ∧ entry.election.Counts entry'.election ∧
      ∀ voter, entry'.election.stored voter = entry.election.stored voter ⊔
        latest (ballots entry.election voter)

theorem Gains.refl (roots : RootContainer) (root : QualifiedRoot) :
    Gains roots roots root fun _ _ => 0 :=
  fun entry hget _ => ⟨entry, hget, .refl _, fun _ => (sup_bot_eq _).symm⟩

/-- Ballots are gained in two steps. -/
theorem Gains.trans {roots roots1 roots' : RootContainer} {root : QualifiedRoot}
    {first second ballots : Election → PublicKey → Multiset Ballot}
    (h : Gains roots roots1 root first) (h' : Gains roots1 roots' root second)
    (hsnd : ∀ {e e' : Election} {voter}, e.Counts e' → second e' voter = second e voter)
    (hballots : ∀ e voter, latest (ballots e voter) =
      latest (first e voter) ⊔ latest (second e voter)) : Gains roots roots' root ballots := by
  intro entry' hget' hconf
  obtain ⟨entry1, hget1, hcnts1, hst1⟩ := h' entry' hget' hconf
  obtain ⟨entry, hget, hcnts, hst⟩ := h entry1 hget1 (hcnts1.isConfirmed_eq.symm.trans hconf)
  refine ⟨entry, hget, hcnts.trans hcnts1, fun voter => ?_⟩
  rw [hst1, hst, hsnd hcnts, hballots, sup_assoc]

namespace VoteProgress

variable {rootOf : BlockHash → QualifiedRoot} {debugAssertions : Bool} {args : ApplyVoteArgs}
  {order : BlockHash → List PublicKey} {p p' : VoteProgress} {root : QualifiedRoot}
  {entry entry' : Entry} {hash : BlockHash}

/-- The elections that are left were there before. -/
theorem get_of_eraseIfConfirmed {e : Election}
    (hget : (p.eraseIfConfirmed e).roots.get root = some entry) :
    p.roots.get root = some entry := by
  rw [eraseIfConfirmed] at hget
  split at hget
  · have herase : ((p.roots.erase e.qualifiedRoot).1.byRoot.get root) = some entry := by
      generalize p.roots.erase e.qualifiedRoot = erased at hget
      obtain ⟨roots, _ | removed⟩ := erased
      · exact hget
      · exact hget
    rw [RootContainer.erase] at herase
    split at herase
    · exact herase
    · exact (Table.get_of_get_del herase).2
  · exact hget

/-- Where a block has no route, no election has it as a candidate. -/
theorem containsBlock_of_entryForBlock (hc : p.roots.Coherent rootOf)
    (hnone : p.roots.entryForBlock hash = none) (hget : p.roots.get root = some entry) :
    entry.election.containsBlock hash = false := by
  rw [← Bool.not_eq_true]
  intro hmem
  have hroute := hc.routed.mpr ⟨entry, hget, hmem⟩
  have hfound : p.roots.entryForBlock hash = some (root, entry) := by
    rw [RootContainer.entryForBlock, VoteRouter.qualifiedRoot, hroute]
    simp only [Option.bind_eq_bind, Option.bind_some, hget]
    rfl
  cases hnone.symm.trans hfound

/-- The votes for the blocks that were handled are counted. -/
def Seen (p : VoteProgress) (root : QualifiedRoot) (vote : FilteredVote) : Prop :=
  ∀ entry, p.roots.get root = some entry → entry.election.isConfirmed = false →
    ∀ hash, p.perBlock.contains hash = true → ∀ voter,
      latest (entry.election.ballots voter vote [hash]) ≤ entry.election.stored voter

variable (hc : p.roots.Coherent rootOf) (hcache : args.vote.source = .cache)
  (hok : p.applyVote debugAssertions args order hash = .ok p')

include hok

/-- The blocks that were handled are marked. -/
theorem contains_of_applyVote {hash' : BlockHash} (hmem : p'.perBlock.contains hash' = true) :
    hash' = hash ∨ p.perBlock.contains hash' = true := by
  have hput : p'.perBlock = p.perBlock ∨ ∃ result, p'.perBlock = p.perBlock.put hash result := by
    rw [applyVote] at hok
    split at hok
    · cases hok
      exact .inl rfl
    · split at hok
      · obtain ⟨⟨e, cache, result⟩, -, heq⟩ := bind_eq_ok.mp hok
        cases heq
        refine .inr ⟨result, ?_⟩
        rw [eraseIfConfirmed]
        split
        · split
          · rfl
          · rfl
        · rfl
      · cases hok
        exact .inr ⟨_, rfl⟩
  rcases hput with heq | ⟨result, heq⟩
  · exact .inr (heq ▸ hmem)
  · rw [heq, Table.contains, Table.get_put] at hmem
    split at hmem
    · next hhash => exact .inl hhash
    · exact .inr hmem

include hc hcache

/-- The vote for a block counts for the election of that block only. -/
theorem gains_of_applyVote (hnew : p.perBlock.contains hash = false) :
    Gains p.roots p'.roots root fun e voter => e.ballots voter args.vote [hash] := by
  intro entry' hget' hconf
  have hoth : entry'.election.containsBlock hash = false → ∀ voter,
      entry'.election.stored voter = entry'.election.stored voter ⊔
        latest (entry'.election.ballots voter args.vote [hash]) := by
    intro hnot voter
    rw [Election.latest_ballots_singleton, if_neg fun h => nomatch h.2.symm.trans hnot]
    exact (sup_bot_eq _).symm
  rw [applyVote, if_neg (by rw [hnew]; exact Bool.false_ne_true)] at hok
  cases hfound : p.roots.entryForBlock hash with
  | none =>
    rw [hfound] at hok
    cases hok
    exact ⟨entry', hget', .refl _, hoth (containsBlock_of_entryForBlock hc hfound hget')⟩
  | some found =>
    obtain ⟨root1, entry1⟩ := found
    rw [hfound] at hok
    obtain ⟨hget1, hmem⟩ := hc.entryForBlock hfound
    obtain ⟨⟨e, cache, result⟩, happ, heq⟩ := bind_eq_ok.mp hok
    cases heq
    rcases Table.eq_or_of_get_put (get_of_eraseIfConfirmed hget') with ⟨rfl, rfl⟩ | ⟨hne, hold⟩
    · obtain ⟨hcnts, hst⟩ := ApplyVoteArgs.stored_of_applyToElection hcache happ hconf
      refine ⟨entry1, hget1, hcnts, fun voter => ?_⟩
      rw [Election.latest_ballots_singleton, hmem]
      simp only [and_true]
      exact hst voter
    · refine ⟨entry', hold, .refl _, hoth ?_⟩
      rw [← Bool.not_eq_true]
      intro hmem'
      exact hne ((hc.rooted hold hmem').symm.trans (hc.rooted hget1 hmem))

/-- The vote for one block, which may have been handled before. -/
theorem Seen.applyVote (hseen : p.Seen root args.vote) :
    p'.Seen root args.vote ∧
      Gains p.roots p'.roots root fun e voter => e.ballots voter args.vote [hash] := by
  by_cases hnew : p.perBlock.contains hash = true
  · obtain rfl : p = p' := by
      rw [VoteProgress.applyVote, if_pos hnew] at hok
      exact Except.ok.inj hok
    refine ⟨hseen, fun entry hget hconf => ⟨entry, hget, .refl _, fun voter => ?_⟩⟩
    exact (sup_of_le_left (hseen entry hget hconf hash hnew voter)).symm
  · rw [Bool.not_eq_true] at hnew
    refine ⟨?_, gains_of_applyVote hc hcache hok hnew⟩
    intro entry' hget' hconf hash' hmem voter
    obtain ⟨entry, hget, hcnts, hst⟩ := gains_of_applyVote hc hcache hok hnew entry' hget' hconf
    rw [hcnts.ballots_eq, hst]
    rcases contains_of_applyVote hok hmem with rfl | hold
    · exact le_sup_right
    · have hconf' := hcnts.isConfirmed_eq.symm.trans hconf
      exact (hseen entry hget hconf' hash' hold voter).trans le_sup_left

end VoteProgress

namespace ActiveElectionsContainer

variable {rootOf : BlockHash → QualifiedRoot} {aec aec' : ActiveElectionsContainer}
  {debugAssertions : Bool} {args : ApplyVoteArgs} {order : BlockHash → List PublicKey}
  {root : QualifiedRoot} {entry entry' : Entry}

/-- The votes for some blocks. -/
theorem Progress.gains_of_foldlM {p p' : VoteProgress} (h : aec.Progress rootOf p)
    (hseen : p.Seen root args.vote) (hcache : args.vote.source = .cache) {hashes : List BlockHash}
    (hok : hashes.foldlM (VoteProgress.applyVote debugAssertions args order) p = .ok p') :
    Gains p.roots p'.roots root fun e voter => e.ballots voter args.vote hashes := by
  induction hashes generalizing p with
  | nil =>
    cases hok
    exact .refl _ _
  | cons hash hashes ih =>
    obtain ⟨p1, hok1, hrest⟩ := bind_eq_ok.mp hok
    obtain ⟨p2, hok2, h1⟩ := h.applyVote debugAssertions args order hash
    obtain rfl := Except.ok.inj (hok1.symm.trans hok2)
    obtain ⟨hseen1, hstep⟩ := hseen.applyVote h.coherent hcache hok1
    exact hstep.trans (ih h1 hseen1 hrest) (fun hcnts => hcnts.ballots_eq _ _ _)
      fun e voter => e.latest_ballots_cons voter args.vote hash hashes

theorem roots_of_cleanupElections {removed : List Entry}
    (h : removed.foldlM cleanupElection aec = .ok aec') : aec'.roots = aec.roots := by
  induction removed generalizing aec with
  | nil =>
    cases h
    rfl
  | cons x removed ih =>
    obtain ⟨aec1, hclean, hrest⟩ := bind_eq_ok.mp h
    rw [ih hrest]
    rw [cleanupElection, decreaseCount] at hclean
    split at hclean
    · cases hclean
    · cases hclean
      rfl

/-- One vote. -/
theorem Counted.gains_of_applyVote (h : aec.Counted rootOf [])
    (hcache : args.vote.source = .cache) {perBlock : Table BlockHash (Except VoteError Unit)}
    (hok : aec.applyVote debugAssertions order args = .ok (aec', perBlock)) :
    Gains aec.roots aec'.roots root fun e voter =>
      e.ballots voter args.vote args.vote.filteredBlocks := by
  obtain ⟨p, hfold, hrest⟩ := bind_eq_ok.mp hok
  obtain ⟨aec1, hclean, heq⟩ := bind_eq_ok.mp hrest
  cases heq
  rw [roots_of_cleanupElections hclean]
  have hbeg : aec.Progress rootOf ⟨aec.roots, aec.recentlyConfirmed, ∅, []⟩ := h
  exact hbeg.gains_of_foldlM (fun _ _ _ _ hmem => nomatch hmem) hcache (mapError_eq_ok.mp hfold)

/-- A vote and the circumstances in which it is applied. -/
structure VoteApplication where
  args : ApplyVoteArgs
  order : BlockHash → List PublicKey

/-- Votes are applied one after the other. -/
def applyVotes (debugAssertions : Bool) (aec : ActiveElectionsContainer)
    (applications : List VoteApplication) : Except AecPanic ActiveElectionsContainer :=
  applications.foldlM (fun aec a => Prod.fst <$> aec.applyVote debugAssertions a.order a.args) aec

/-- The votes in the order in which they are applied. -/
def appliedVotes (applications : List VoteApplication) : List FilteredVote :=
  applications.map fun a => a.args.vote

/-- All ballots of a representative for candidates of the election. -/
def allBallots (e : Election) (voter : PublicKey) (votes : Multiset FilteredVote) :
    Multiset Ballot :=
  votes.bind fun vote => e.ballots voter vote vote.filteredBlocks

/-- Votes are applied without panic. -/
theorem Counted.applyVotes (h : aec.Counted rootOf []) (debugAssertions : Bool)
    (applications : List VoteApplication) :
    ∃ aec', aec.applyVotes debugAssertions applications = .ok aec' ∧ aec'.Counted rootOf [] :=
  foldlM_ok (P := fun aec : ActiveElectionsContainer => aec.Counted rootOf [])
    (fun _ a _ h => by
      obtain ⟨r, hr, hcnt⟩ := h.applyVote debugAssertions a.order a.args
      exact ⟨r.1, map_eq_ok.mpr ⟨r, hr, rfl⟩, hcnt⟩) h

/-- What is stored after the votes is the latest of all. -/
theorem Counted.gains_of_applyVotes (h : aec.Counted rootOf [])
    {applications : List VoteApplication}
    (hcache : ∀ vote ∈ appliedVotes applications, vote.source = .cache)
    (hok : aec.applyVotes debugAssertions applications = .ok aec') :
    Gains aec.roots aec'.roots root fun e voter =>
      allBallots e voter (appliedVotes applications) := by
  induction applications generalizing aec with
  | nil =>
    cases hok
    exact .refl _ _
  | cons a applications ih =>
    obtain ⟨aec1, hok1, hrest⟩ := bind_eq_ok.mp hok
    obtain ⟨r, hr, rfl⟩ := map_eq_ok.mp hok1
    obtain ⟨r', hr', h1⟩ := h.applyVote debugAssertions a.order a.args
    obtain rfl := Except.ok.inj (hr.symm.trans hr')
    have hstep : Gains _ _ root _ := h.gains_of_applyVote (hcache _ List.mem_cons_self) hr
    refine hstep.trans (ih h1 (fun vote hvote => hcache vote (List.mem_cons_of_mem _ hvote)) hrest)
      (fun hcnts => ?_) fun e voter => ?_
    · simp only [allBallots, hcnts.ballots_eq]
    · have hcons : allBallots e voter (appliedVotes (a :: applications)) =
          e.ballots voter a.args.vote a.args.vote.filteredBlocks +
            allBallots e voter (appliedVotes applications) :=
        Multiset.cons_bind a.args.vote (appliedVotes applications : Multiset FilteredVote) _
      rw [hcons, latest_add]

/-- Votes from the vote cache can be applied in any order, at any times and with any weights. Where
an election is not confirmed, the latest ballot of each representative is stored, and the tallies
after an update are the same. -/
theorem applyVotes_orderIndependent (h : aec.Counted rootOf []) (votes : Multiset FilteredVote)
    (hcache : ∀ vote ∈ votes, vote.source = .cache) (root : QualifiedRoot) (entry : Entry)
    (hget : aec.roots.get root = some entry) (debugAssertions : Bool)
    (applications1 applications2 : List VoteApplication)
    (h1 : (appliedVotes applications1 : Multiset FilteredVote) = votes)
    (h2 : (appliedVotes applications2 : Multiset FilteredVote) = votes) :
    ∃ aec1 aec2, aec.applyVotes debugAssertions applications1 = .ok aec1 ∧
      aec.applyVotes debugAssertions applications2 = .ok aec2 ∧
      ∀ entry1 entry2, aec1.roots.get root = some entry1 → aec2.roots.get root = some entry2 →
        entry1.election.isConfirmed = false → entry2.election.isConfirmed = false →
        (∀ voter, entry1.election.stored voter = entry2.election.stored voter ∧
          entry1.election.stored voter = entry.election.stored voter ⊔
            latest (allBallots entry.election voter votes)) ∧
        ∀ order1 order2 repWeights quorumDelta, entry1.election.votes.IsOrder order1 →
          entry2.election.votes.IsOrder order2 →
          ∃ e1 e2, entry1.election.updateTallies order1 repWeights quorumDelta = .ok e1 ∧
            entry2.election.updateTallies order2 repWeights quorumDelta = .ok e2 ∧
            ∀ hash, e1.tallies.get hash = e2.tallies.get hash ∧
              e1.finalTallies.get hash = e2.finalTallies.get hash := by
  obtain ⟨aec1, hok1, hcounted1⟩ := h.applyVotes debugAssertions applications1
  obtain ⟨aec2, hok2, hcounted2⟩ := h.applyVotes debugAssertions applications2
  refine ⟨aec1, aec2, hok1, hok2, fun entry1 entry2 hget1 hget2 hconf1 hconf2 => ?_⟩
  obtain ⟨start1, hstart1, hcounts1, hstored1⟩ := h.gains_of_applyVotes
    (fun vote hvote => hcache vote (h1 ▸ Multiset.mem_coe.mpr hvote)) hok1 entry1 hget1 hconf1
  obtain ⟨start2, hstart2, hcounts2, hstored2⟩ := h.gains_of_applyVotes
    (fun vote hvote => hcache vote (h2 ▸ Multiset.mem_coe.mpr hvote)) hok2 entry2 hget2 hconf2
  obtain rfl := Option.some.inj (hget.symm.trans hstart1)
  obtain rfl := Option.some.inj (hget.symm.trans hstart2)
  rw [h1] at hstored1
  rw [h2] at hstored2
  have hsame : ∀ voter, entry1.election.stored voter = entry2.election.stored voter :=
    fun voter => (hstored1 voter).trans (hstored2 voter).symm
  refine ⟨fun voter => ⟨hsame voter, hstored1 voter⟩, ?_⟩
  intro order1 order2 repWeights quorumDelta horder1 horder2
  have hwf1 := hcounted1.coherent.wellFormed hget1
  have hwf2 := hcounted2.coherent.wellFormed hget2
  obtain ⟨e1, hupdate1, -⟩ := hwf1.updateTallies order1 repWeights quorumDelta
  obtain ⟨e2, hupdate2, -⟩ := hwf2.updateTallies order2 repWeights quorumDelta
  exact ⟨e1, e2, hupdate1, hupdate2, fun hash =>
    hcounts1.tallies_eq hcounts2 hwf1 hwf2 hsame horder1 horder2 hupdate1 hupdate2 hash⟩

/-- A vote of the first representative from the vote cache. -/
def devCacheVote (timestamp : BitVec 64) (hash : BlockHash) : VoteApplication where
  args := ⟨⟨⟨1⟩, ⟨timestamp⟩, [hash], .cache, 0⟩, ∅, ⟨100, 5⟩, 0⟩
  order := fun _ => [⟨1⟩]

/-- A vote for the first send and a later one for the fork, in both orders. -/
theorem applyVotes_devCacheVote : ∃ entry aec1 aec2 entry1 entry2,
    devForkStarted.roots.get (devRootOf 0) = some entry ∧
    devForkStarted.applyVotes true
      [devCacheVote 16 devSend.hash, devCacheVote 32 devZeroSend.hash] = .ok aec1 ∧
    devForkStarted.applyVotes true
      [devCacheVote 32 devZeroSend.hash, devCacheVote 16 devSend.hash] = .ok aec2 ∧
    aec1.roots.get (devRootOf 0) = some entry1 ∧ aec2.roots.get (devRootOf 0) = some entry2 ∧
    entry1.election.isConfirmed = false ∧ entry2.election.isConfirmed = false ∧
    ∀ voter, entry1.election.stored voter = entry2.election.stored voter := by
  obtain ⟨entry, hget⟩ := Option.isSome_iff_exists.mp
    (show (devForkStarted.roots.get (devRootOf 0)).isSome = true by decide +kernel)
  have hcounted : devForkStarted.Counted devRootOf [] :=
    (counted_new 10 10 (10 ^ 9)).run run_devForkStarted
  obtain ⟨aec1, aec2, hok1, hok2, hsame⟩ := applyVotes_orderIndependent hcounted _
    (by decide) (devRootOf 0) entry hget true
    [devCacheVote 16 devSend.hash, devCacheVote 32 devZeroSend.hash]
    [devCacheVote 32 devZeroSend.hash, devCacheVote 16 devSend.hash] rfl (by decide +kernel)
  have htest : ∀ applications aec, devForkStarted.applyVotes true applications = .ok aec →
      (devForkStarted.applyVotes true applications).toOption.any (fun aec =>
        (aec.roots.get (devRootOf 0)).any fun entry => !entry.election.isConfirmed) = true →
      ∃ entry, aec.roots.get (devRootOf 0) = some entry ∧ entry.election.isConfirmed = false := by
    intro applications aec hok htest
    rw [hok] at htest
    change (aec.roots.get (devRootOf 0)).any _ = true at htest
    obtain ⟨entry, hget, hconf⟩ := (Option.any_eq_true _ _).mp htest
    exact ⟨entry, hget, (Bool.not_eq_true' _).mp hconf⟩
  obtain ⟨entry1, hget1, hconf1⟩ := htest _ aec1 hok1 (by decide +kernel)
  obtain ⟨entry2, hget2, hconf2⟩ := htest _ aec2 hok2 (by decide +kernel)
  exact ⟨entry, aec1, aec2, entry1, entry2, hget, hok1, hok2, hget1, hget2, hconf1, hconf2,
    fun voter => ((hsame entry1 entry2 hget1 hget2 hconf1 hconf2).1 voter).1⟩

end ActiveElectionsContainer

end RsNano
