import RsNano.Consensus.ActiveElections
import RsNano.Consensus.RootCoherence

/-!
# The indexes of the active elections container agree

Every operation of the container keeps the root container coherent and the counters equal to the
numbers of elections, with one exception: `stop` drops the elections and the buckets, but keeps
the routes of the vote router and the counters. The invariant of the runs therefore allows `stop`
only when there is no election left.

While elections are being removed the counters are ahead: they still count the removed elections
that have not been cleaned up.
-/

namespace RsNano.ActiveElectionsContainer

open RootContainer Function

/-- One election more. -/
theorem countByBehavior_increaseCount (aec : ActiveElectionsContainer)
    (behavior b : ElectionBehavior) :
    (aec.increaseCount behavior).countByBehavior b =
      aec.countByBehavior b + if behavior = b then 1 else 0 := by
  by_cases hb : behavior = b
  · rw [if_pos hb, hb]
    exact update_self _ _ _
  · rw [if_neg hb]
    exact update_of_ne (Ne.symm hb) _ _

/-- One election less, if there is one. -/
theorem decreaseCount_ok {aec : ActiveElectionsContainer} {behavior : ElectionBehavior}
    (hpos : 0 < aec.countByBehavior behavior) :
    ∃ aec', aec.decreaseCount behavior = .ok aec' ∧ aec'.roots = aec.roots ∧
      ∀ b, (aec'.countByBehavior b + if behavior = b then 1 else 0) = aec.countByBehavior b := by
  refine ⟨_, if_neg (by omega), rfl, fun b => ?_⟩
  by_cases hb : behavior = b
  · rw [if_pos hb, ← hb]
    change update aec.countByBehavior behavior _ behavior + 1 = _
    rw [update_self]
    omega
  · rw [if_neg hb]
    exact update_of_ne (Ne.symm hb) _ _

/-- The root container is coherent, and the counters count its elections and those that were
removed but not yet cleaned up. -/
structure Counted (rootOf : BlockHash → QualifiedRoot) (aec : ActiveElectionsContainer)
    (removed : List Entry) : Prop where
  coherent : aec.roots.Coherent rootOf
  count : ∀ behavior, aec.countByBehavior behavior = aec.roots.countOf behavior +
    removed.countP fun x => decide (x.election.behavior = behavior)

variable {rootOf : BlockHash → QualifiedRoot} {aec aec' : ActiveElectionsContainer}
  {removed : List Entry} {root : QualifiedRoot} {entry : Entry}

/-- A new container has nothing to count. -/
theorem counted_new (confirmationCache maxElections baseLatency : ℕ) :
    (new confirmationCache maxElections baseLatency).Counted rootOf [] where
  coherent := coherent_new
  count := fun _ => rfl

namespace Counted

/-- A removed election is cleaned up without underflow. -/
theorem cleanupElection (h : aec.Counted rootOf (entry :: removed)) :
    ∃ aec', aec.cleanupElection entry = .ok aec' ∧ aec'.Counted rootOf removed := by
  have hcnt := h.count
  simp only [List.countP_cons, decide_eq_true_eq] at hcnt
  have hpos : 0 < aec.countByBehavior entry.election.behavior := by
    have hself := hcnt entry.election.behavior
    rw [if_pos rfl] at hself
    omega
  obtain ⟨aec', hok, hroots, hless⟩ := decreaseCount_ok hpos
  refine ⟨aec', hok, by rw [hroots]; exact h.coherent, fun behavior => ?_⟩
  have hbef := hcnt behavior
  have hafter := hless behavior
  rw [hroots]
  omega

section

variable (h : aec.Counted rootOf removed)

include h

/-- All removed elections are cleaned up without underflow. -/
theorem cleanupElections :
    ∃ aec', removed.foldlM ActiveElectionsContainer.cleanupElection aec = .ok aec' ∧
      aec'.Counted rootOf [] := by
  induction removed generalizing aec with
  | nil => exact ⟨aec, rfl, h⟩
  | cons entry removed ih =>
    obtain ⟨aec1, hclean, h1⟩ := h.cleanupElection
    obtain ⟨aec2, hrest, h2⟩ := ih h1
    refine ⟨aec2, ?_, h2⟩
    exact bind_eq_ok.mpr ⟨aec1, hclean, hrest⟩

/-- The election of an entry is replaced. -/
theorem setElection (hget : aec.roots.byRoot.get root = some entry) {e : Election}
    (he : e.Replaces entry.election) :
    { aec with roots := aec.roots.setElection root entry e }.Counted rootOf removed where
  coherent := h.coherent.setElection hget he
  count := by
    intro behavior
    refine (h.count behavior).trans ?_
    rw [countOf_of_behavior_eq hget he.behavior]

/-- The election of a root is replaced, if there is one. -/
theorem modifyElection (root : QualifiedRoot) {f : Election → Election}
    (hf : ∀ e, (f e).Replaces e) : (aec.modifyElection root f).Counted rootOf removed := by
  rw [ActiveElectionsContainer.modifyElection]
  split
  · next entry hget => exact h.setElection hget (hf _)
  · exact h

/-- Dependent elections are confirmed or cancelled. -/
theorem confirmDependentElections (confirmed : List (SavedBlock × Option BlockHash)) :
    (aec.confirmDependentElections confirmed).Counted rootOf removed := by
  induction confirmed generalizing aec with
  | nil => exact h
  | cons x confirmed ih =>
    refine ih ?_
    rw [confirmDependentElection]
    split
    · exact h
    · refine h.modifyElection _ fun e => ?_
      split
      · exact e.forceConfirm_replaces
      · exact e.cancel_replaces

end

/-- Elections are erased and cleaned up. -/
theorem drain (h : aec.Counted rootOf []) (order : List QualifiedRoot) (predicate : Entry → Bool) :
    ∃ aec', (aec.roots.drainFilter order predicate).2.foldlM
        ActiveElectionsContainer.cleanupElection
        { aec with roots := (aec.roots.drainFilter order predicate).1 } = .ok aec' ∧
      aec'.Counted rootOf [] := by
  obtain ⟨hcoh, hcnt⟩ := h.coherent.eraseAll (order.filterMap fun root =>
    (aec.roots.byRoot.get root).bind fun i => if predicate i then some i.root else none)
  exact cleanupElections ⟨hcoh, fun behavior =>
    (h.count behavior).trans (hcnt behavior).symm⟩

/-- An election is erased and cleaned up. -/
theorem erase (h : aec.Counted rootOf []) (root : QualifiedRoot) :
    ∃ r, aec.erase root = .ok r ∧ r.1.Counted rootOf [] := by
  have hcoh := h.coherent.erase root
  have hcnt := countOf_erase aec.roots root
  rw [ActiveElectionsContainer.erase]
  generalize aec.roots.erase root = erased at hcoh hcnt
  obtain ⟨roots, _ | entry⟩ := erased
  · exact ⟨_, rfl, h⟩
  · have hremd : { aec with roots }.Counted rootOf [entry] :=
      ⟨hcoh, fun behavior => (h.count behavior).trans (hcnt behavior).symm⟩
    obtain ⟨aec1, hclean, h1⟩ := hremd.cleanupElection
    exact ⟨(aec1, true), bind_eq_ok.mpr ⟨aec1, hclean, rfl⟩, h1⟩

/-- An election is started or upgraded, or the request is refused. -/
theorem insert (h : aec.Counted rootOf []) {request : AecInsertRequest}
    (hroot : rootOf request.block.hash = request.block.block.qualifiedRoot) (now : Timestamp) :
    ∃ r, aec.insert request now = .ok r ∧ r.1.Counted rootOf [] := by
  rw [ActiveElectionsContainer.insert]
  split
  · exact ⟨_, rfl, h⟩
  split
  · exact ⟨_, rfl, h⟩
  rw [tryUpgradePriorityElection]
  rcases h.coherent.tryUpgradeToPriorityElection request with
    ⟨hnew, heq⟩ | ⟨previous, heq⟩ | ⟨roots, previous, heq, hbeh, hcoh, hpos, hmoved⟩
  · rw [heq]
    refine ⟨_, rfl, ?_, fun behavior => ?_⟩
    · refine h.coherent.insert hnew rfl (Election.wellFormed_new _ _ _ _) (fun hash => ?_) hroot
      change ((∅ : Table _ _).put request.block.hash _).contains hash = true ↔
        hash = request.block.hash
      rw [Table.contains, Table.get_put]
      split
      · next hhash => exact iff_of_true rfl hhash
      · next hhash => exact iff_of_false Bool.false_ne_true hhash
    · have hcnt := h.count behavior
      have hins := countOf_insert ⟨request.block.block.qualifiedRoot,
        Election.new request.block request.behavior aec.baseLatency now, request.priority⟩ hnew
        behavior
      change _ = (if request.behavior = behavior then 1 else 0) + _ at hins
      rw [insertNewElection, countByBehavior_increaseCount]
      change aec.countByBehavior behavior + _ = (aec.roots.insert _).countOf behavior + _
      omega
  · rw [heq]
    exact ⟨_, rfl, h⟩
  · rw [heq]
    have hpos' : 0 < { aec with roots }.countByBehavior previous := by
      have hcnt := h.count previous
      change 0 < aec.countByBehavior previous
      omega
    obtain ⟨aec1, hdecr, hroots, hless⟩ := decreaseCount_ok hpos'
    refine ⟨(aec1.increaseCount request.behavior, .ok ()), ?_, ?_, fun behavior => ?_⟩
    · change (decreaseCount _ _ >>= _) >>= _ = _
      rw [hdecr]
      rfl
    · change aec1.roots.Coherent rootOf
      rw [hroots]
      exact hcoh
    · have hcnt := h.count behavior
      have hmoved' := hmoved behavior
      have hless' := hless behavior
      rw [countByBehavior_increaseCount, hbeh]
      change _ = aec1.roots.countOf behavior + _
      rw [hroots]
      change _ = aec.countByBehavior behavior at hless'
      change _ = roots.countOf behavior + _
      omega

/-- The routes follow the candidates when a fork is added. -/
theorem routeFork (h : aec.Counted rootOf removed) {fork : Block}
    (hget : aec.roots.byRoot.get fork.qualifiedRoot = some entry)
    (hfork : rootOf fork.hash = fork.qualifiedRoot) {order : List BlockHash} {forkTally : Amount}
    {e : Election} {result : AddForkResult} (hwf : e.WellFormed)
    (hadd : entry.election.tryAddFork order fork forkTally = .ok (e, result)) :
    ({ aec with roots := aec.roots.setElection fork.qualifiedRoot entry e }.routeFork fork
      result).1.Counted rootOf removed := by
  have hstatus := Election.sameStatus_of_tryAddFork hadd
  have hcnt : ∀ behavior, aec.countByBehavior behavior =
      (aec.roots.setElection fork.qualifiedRoot entry e).countOf behavior +
        removed.countP fun x => decide (x.election.behavior = behavior) := by
    intro behavior
    rw [countOf_of_behavior_eq hget hstatus.behavior]
    exact h.count behavior
  rcases Election.tryAddFork_cases hadd with ⟨rfl, hres⟩ |
    ⟨-, -, ⟨-, rfl, hadded⟩ | ⟨hash, block, e1, rfl, hrem, hadded⟩⟩
  · have hsame := h.setElection hget (.refl _)
    rcases hres with rfl | rfl | rfl
    · exact hsame
    · exact hsame
    · exact hsame
  · refine ⟨h.coherent.fork hget hstatus hwf hfork (fun _ => False) ?_ False.elim ?_, hcnt⟩
    · intro x
      rw [Election.containsBlock_of_addFork hadded, not_false_eq_true, true_and]
    · intro x root'
      rw [not_false_eq_true, true_and]
      exact Iff.rfl
  · obtain ⟨hmem, hothers⟩ := (h.coherent.wellFormed hget).containsBlock_of_removeBlock hrem
    refine ⟨h.coherent.fork hget hstatus hwf hfork (fun x => x = block.hash) ?_ ?_ ?_, hcnt⟩
    · intro x
      rw [Election.containsBlock_of_addFork hadded, hothers]
    · rintro x rfl
      exact h.coherent.rooted hget hmem
    · intro x root'
      change ((aec.roots.voteRouter.elections.del block.hash).get x = some root') ↔ _
      rw [Table.get_del]
      split
      · next hx => exact iff_of_false (fun hnone => by cases hnone) fun hnot => hnot.1 hx
      · next hx => exact ⟨fun hroute => ⟨hx, hroute⟩, fun hroute => hroute.2⟩

/-- A fork is considered without panic. -/
theorem tryAddFork (h : aec.Counted rootOf removed) {order : List BlockHash} {fork : Block}
    (hord : ∀ entry, aec.roots.get fork.qualifiedRoot = some entry →
      entry.election.candidateBlocks.IsOrder order)
    (hfork : rootOf fork.hash = fork.qualifiedRoot) (forkTally : Amount) :
    ∃ r, aec.tryAddFork order fork forkTally = .ok r ∧ r.1.Counted rootOf removed := by
  rw [ActiveElectionsContainer.tryAddFork]
  split
  · exact ⟨_, rfl, h⟩
  · next entry hget =>
    obtain ⟨⟨e, result⟩, hadd, hwf⟩ :=
      (h.coherent.wellFormed hget).tryAddFork (hord entry hget) fork forkTally
    refine ⟨_, bind_eq_ok.mpr ⟨_, mapError_eq_ok.mpr hadd, rfl⟩, ?_⟩
    exact h.routeFork hget hfork hwf hadd

end Counted

/-! ### Votes -/

/-- A vote for a candidate is refused or counted without panic. -/
theorem applyToElection_ok (args : ApplyVoteArgs) (debugAssertions : Bool) (order : List PublicKey)
    (cache : RecentlyConfirmedCache) {e : Election} (hwf : e.WellFormed) {blockHash : BlockHash}
    (hcand : e.containsBlock blockHash = true) :
    ∃ r, args.applyToElection debugAssertions order cache e blockHash = .ok r ∧ r.1.Replaces e := by
  rw [ApplyVoteArgs.applyToElection]
  split
  · exact ⟨_, rfl, .refl e⟩
  · obtain ⟨e1, e2, hadd, hupd, hrepl⟩ := hwf.countVote hcand debugAssertions
      args.vote.voter args.vote.timestamp args.now order args.repWeights
      args.quorumSpecs.quorumDelta
    rw [ApplyVoteArgs.addVote, hadd]
    simp only [bind_eq_ok, pure_eq_ok]
    by_cases hfin : (e2.isFinal && e2.isConfirmed) = true
    · exact ⟨(e2, cache.put e2.qualifiedRoot e2.winner.hash, .ok ()), ⟨_, ⟨e1, rfl, e2, hupd,
        if_pos hfin⟩, rfl⟩, hrepl⟩
    · exact ⟨(e2, cache, .ok ()), ⟨_, ⟨e1, rfl, e2, hupd, if_neg hfin⟩, rfl⟩, hrepl⟩

/-- The removed elections are those that are still counted. -/
def Progress (rootOf : BlockHash → QualifiedRoot) (aec : ActiveElectionsContainer)
    (p : VoteProgress) : Prop :=
  { aec with roots := p.roots }.Counted rootOf p.confirmed

/-- A confirmed election is taken out of the container. -/
theorem Progress.eraseIfConfirmed {p : VoteProgress} (h : aec.Progress rootOf p) (e : Election) :
    aec.Progress rootOf (p.eraseIfConfirmed e) := by
  rw [VoteProgress.eraseIfConfirmed]
  split
  · have hcoh := h.coherent.erase e.qualifiedRoot
    have hcnt := countOf_erase p.roots e.qualifiedRoot
    generalize p.roots.erase e.qualifiedRoot = erased at hcoh hcnt
    obtain ⟨roots, _ | entry⟩ := erased
    · refine ⟨hcoh, fun behavior => ?_⟩
      have hbef : aec.countByBehavior behavior = p.roots.countOf behavior + _ := h.count behavior
      exact hbef.trans (congrArg (· + _) (hcnt behavior).symm)
    · refine ⟨hcoh, fun behavior => ?_⟩
      have hbef : aec.countByBehavior behavior = p.roots.countOf behavior + _ := h.count behavior
      have herased := hcnt behavior
      change aec.countByBehavior behavior = roots.countOf behavior +
        (p.confirmed ++ [entry]).countP _
      change roots.countOf behavior + [entry].countP _ = _ at herased
      rw [List.countP_append]
      omega
  · exact h

/-- The vote for one block is applied without panic. -/
theorem Progress.applyVote {p : VoteProgress} (h : aec.Progress rootOf p) (debugAssertions : Bool)
    (args : ApplyVoteArgs) (order : BlockHash → List PublicKey) (blockHash : BlockHash) :
    ∃ p', p.applyVote debugAssertions args order blockHash = .ok p' ∧ aec.Progress rootOf p' := by
  rw [VoteProgress.applyVote]
  split
  · exact ⟨p, rfl, h⟩
  · split
    · next root entry hfound =>
      obtain ⟨hget, hmem⟩ := h.coherent.entryForBlock hfound
      obtain ⟨⟨e, cache, result⟩, happ, hrepl⟩ := applyToElection_ok args debugAssertions
        (order blockHash) p.recentlyConfirmed (h.coherent.wellFormed hget) hmem
      refine ⟨_, bind_eq_ok.mpr ⟨_, happ, rfl⟩, Progress.eraseIfConfirmed ?_ e⟩
      exact h.setElection hget hrepl
    · exact ⟨_, rfl, h⟩

/-- A vote is applied without panic. -/
theorem Counted.applyVote (h : aec.Counted rootOf []) (debugAssertions : Bool)
    (order : BlockHash → List PublicKey) (args : ApplyVoteArgs) :
    ∃ r, aec.applyVote debugAssertions order args = .ok r ∧ r.1.Counted rootOf [] := by
  have hbeg : aec.Progress rootOf ⟨aec.roots, aec.recentlyConfirmed, ∅, []⟩ := h
  obtain ⟨p, hfold, hp⟩ := foldlM_ok
    (fun p blockHash _ hp => Progress.applyVote hp debugAssertions args order blockHash) hbeg
  have hcnt : { aec with roots := p.roots, recentlyConfirmed := p.recentlyConfirmed }.Counted
      rootOf p.confirmed := ⟨hp.coherent, hp.count⟩
  obtain ⟨aec1, hclean, h1⟩ := hcnt.cleanupElections
  refine ⟨(aec1, p.perBlock), ?_, h1⟩
  exact bind_eq_ok.mpr ⟨p, mapError_eq_ok.mpr hfold, bind_eq_ok.mpr ⟨aec1, hclean, rfl⟩⟩

end RsNano.ActiveElectionsContainer
