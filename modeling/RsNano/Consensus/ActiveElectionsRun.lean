import RsNano.Consensus.ActiveElectionsInvariant

/-!
# Runs of the active elections container

The public operations of the container that change it, the runs made of them, and what the
indexes say after every run. The hashes of blocks are assumed to be free of collisions between
roots: an operation that brings a block into the container brings the root that `rootOf` gives.

`stop` is part of the runs as long as no election is left. When it drops elections, the routes of
their candidates and the counters stay behind, but no election comes back.
-/

namespace RsNano.ActiveElectionsContainer

open ActiveElectionsContainer Table RootContainer Option

/-- The operations of the container that change it. -/
inductive Operation
  | insert (request : AecInsertRequest) (now : Timestamp)
  | setLastVoted (root : QualifiedRoot) (voteType : VoteType) (timestamp : Timestamp)
  | tryAddFork (order : List BlockHash) (fork : Block) (forkTally : Amount)
  | setCooldown (coolDown : Bool) (reason : AecCooldownReason)
  | stop
  | clearRecentlyConfirmed
  | removeRecentlyConfirmed (blockHash : BlockHash)
  | transitionTime (order : List QualifiedRoot) (now : Timestamp)
  | transitionActive (blockHash : BlockHash)
  | removeVotes (root : QualifiedRoot) (voters : List PublicKey)
  | eraseEndedElections (order : List QualifiedRoot)
  | erase (root : QualifiedRoot)
  | eraseLowestPrioElection (bucketId : Fin bucketCount)
  | confirmDependentElections (confirmed : List (SavedBlock × Option BlockHash))
  | applyVote (order : BlockHash → List PublicKey) (args : ApplyVoteArgs)
  | forceConfirm (blockHash : BlockHash)
  | cancel (root : QualifiedRoot)

namespace Operation

/-- Perform an operation, with or without debug assertions. -/
def apply (debugAssertions : Bool) (aec : ActiveElectionsContainer) :
    Operation → Except AecPanic ActiveElectionsContainer
  | insert request now => (aec.insert request now).map Prod.fst
  | setLastVoted root voteType timestamp => .ok (aec.setLastVoted root voteType timestamp)
  | tryAddFork order fork forkTally => (aec.tryAddFork order fork forkTally).map Prod.fst
  | setCooldown coolDown reason => .ok (aec.setCooldown coolDown reason)
  | stop => .ok aec.stop
  | clearRecentlyConfirmed => .ok aec.clearRecentlyConfirmed
  | removeRecentlyConfirmed blockHash => .ok (aec.removeRecentlyConfirmed blockHash)
  | transitionTime order now => aec.transitionTime order now
  | transitionActive blockHash => .ok (aec.transitionActive blockHash).1
  | removeVotes root voters => .ok (aec.removeVotes root voters)
  | eraseEndedElections order => aec.eraseEndedElections order
  | erase root => (aec.erase root).map Prod.fst
  | eraseLowestPrioElection bucketId => aec.eraseLowestPrioElection bucketId
  | confirmDependentElections confirmed => .ok (aec.confirmDependentElections confirmed)
  | applyVote order args => (aec.applyVote debugAssertions order args).map Prod.fst
  | forceConfirm blockHash => aec.forceConfirm blockHash
  | cancel root => .ok (aec.cancel root)

/-- The order of an operation is one in which the hash map can be iterated. Votes are counted in
any order. -/
def Fits (aec : ActiveElectionsContainer) : Operation → Prop
  | tryAddFork order fork _ => ∀ entry, aec.roots.get fork.qualifiedRoot = some entry →
    entry.election.candidateBlocks.IsOrder order
  | transitionTime order _ => aec.roots.byRoot.IsOrder order
  | eraseEndedElections order => aec.roots.byRoot.IsOrder order
  | _ => True

/-- The blocks that an operation brings have the roots of their hashes. -/
def Consistent (rootOf : BlockHash → QualifiedRoot) : Operation → Prop
  | insert request _ => rootOf request.block.hash = request.block.block.qualifiedRoot
  | tryAddFork _ fork _ => rootOf fork.hash = fork.qualifiedRoot
  | _ => True

end Operation

/-- A finite sequence of operations, each allowed on the container it meets. -/
def Run (debugAssertions : Bool) (rootOf : BlockHash → QualifiedRoot)
    (allowed : ActiveElectionsContainer → Operation → Prop) :
    ActiveElectionsContainer → ActiveElectionsContainer → Prop :=
  Machine.Run (fun aec op => op.apply debugAssertions aec) fun aec op =>
    op.Fits aec ∧ op.Consistent rootOf ∧ allowed aec op

/-- The container is not stopped while it has elections. -/
def StopsEmpty (aec : ActiveElectionsContainer) (op : Operation) : Prop := op = .stop → aec.len = 0

/-- The indexes describe the contained elections. -/
structure IndexesAgree (aec : ActiveElectionsContainer) : Prop where
  activeHash : ∀ hash, aec.isActiveHash hash = true ↔
    ∃ root entry, aec.roots.get root = some entry ∧ entry.election.containsBlock hash = true
  bucket : ∀ root entry, aec.roots.get root = some entry → ∀ i,
    (aec.roots.buckets i).countP (fun x => decide (x.root = root)) =
      if i = entry.bucket then 1 else 0
  contained : ∀ i, ∀ x ∈ aec.roots.buckets i, aec.isActiveRoot x.root = true
  count : ∀ behavior, aec.countByBehavior behavior = aec.roots.countOf behavior
  len : aec.len = ∑ i, aec.roots.bucketLen i

variable {rootOf : BlockHash → QualifiedRoot} {aec aec' : ActiveElectionsContainer}

/-- A root is in exactly one bucket, once. -/
theorem countP_bucket {rc : RootContainer} (h : rc.Coherent rootOf) {root : QualifiedRoot}
    {entry : Entry} (hget : rc.byRoot.get root = some entry) (i : Fin bucketCount) :
    (rc.buckets i).countP (fun x => decide (x.root = root)) =
      if i = entry.bucket then 1 else 0 := by
  have hroot : ∀ x ∈ rc.buckets i,
      decide (x.root = root) = true ↔ (x == (⟨root, entry.priority⟩ : BucketEntry)) = true := by
    intro x hx
    rw [decide_eq_true_iff, beq_iff_eq]
    constructor
    · intro hr
      rcases (h.mem_buckets_iff hget).mp hx with ⟨-, rfl⟩ | ⟨hne, -⟩
      · rfl
      · exact absurd hr hne
    · rintro rfl
      rfl
  rw [List.countP_congr hroot]
  change List.count _ _ = _
  rw [(h.nodup i).count]
  refine if_congr ?_ rfl rfl
  rw [h.mem_buckets_iff hget]
  simp

variable {op : Operation} {debugAssertions : Bool}

section

variable (h : aec.Counted rootOf [])

include h

/-- The indexes of a counted container agree. -/
theorem Counted.indexesAgree : aec.IndexesAgree where
  activeHash := by
    intro hash
    change (aec.roots.voteRouter.elections.get hash).isSome = true ↔ _
    rw [isSome_iff_exists]
    exact exists_congr fun root => h.coherent.routed
  bucket := fun root entry hget i => countP_bucket h.coherent hget i
  contained := by
    intro i x hx
    obtain ⟨entry, hget, -⟩ := h.coherent.bucketed.mp hx
    exact isSome_iff_exists.mpr ⟨entry, hget⟩
  count := h.count
  len := h.coherent.total.symm

/-- Only a forced confirmation needs an active election. -/
def Operation.Promised (aec : ActiveElectionsContainer) : Operation → Prop
  | forceConfirm blockHash => aec.isActiveHash blockHash = true
  | _ => True

/-- The election of an active block is found. -/
theorem Counted.entryForBlock_of_isActiveHash {hash : BlockHash}
    (hactive : aec.isActiveHash hash = true) :
    ∃ root entry, aec.roots.entryForBlock hash = some (root, entry) := by
  obtain ⟨root, hroute⟩ := isSome_iff_exists.mp hactive
  obtain ⟨entry, hget, -⟩ := h.coherent.routed.mp hroute
  refine ⟨root, entry, ?_⟩
  simp only [RootContainer.entryForBlock, VoteRouter.qualifiedRoot, hroute, RootContainer.get, hget,
    bind_eq_bind, bind_some, pure_def]

/-- Ended elections are erased and cleaned up. -/
theorem Counted.eraseEndedElections (order : List QualifiedRoot) :
    ∃ aec', aec.eraseEndedElections order = .ok aec' ∧ aec'.Counted rootOf [] :=
  h.drain order _

/-- Time passes for all elections. -/
theorem Counted.transitionTime (order : List QualifiedRoot) (now : Timestamp) :
    ∃ aec', aec.transitionTime order now = .ok aec' ∧ aec'.Counted rootOf [] := by
  have hrepl : ∀ e : Election, (e.transitionTime now).Replaces e := fun e =>
    e.transitionTime_replaces now
  have hmap : { aec with roots := aec.roots.mapElections fun e => e.transitionTime now }.Counted
      rootOf [] := by
    refine ⟨h.coherent.mapElections hrepl, fun behavior => (h.count behavior).trans ?_⟩
    have hsum : aec.roots.countOf behavior =
        (aec.roots.mapElections fun e => e.transitionTime now).countOf behavior := by
      rw [countOf, countOf, mapElections, sumBy_mapValues]
      refine sumBy_congr fun root entry _ => ?_
      rw [(hrepl entry.election).behavior]
    rw [hsum]
  exact hmap.eraseEndedElections order

/-- No operation panics, and every operation keeps the indexes in agreement. -/
theorem Counted.apply (debugAssertions : Bool) (hfits : op.Fits aec)
    (hcons : op.Consistent rootOf) (hstop : aec.StopsEmpty op) (hprom : op.Promised aec) :
    ∃ aec', op.apply debugAssertions aec = .ok aec' ∧ aec'.Counted rootOf [] := by
  have hmap : ∀ {α : Type} {x : Except AecPanic (ActiveElectionsContainer × α)},
      (∃ r, x = .ok r ∧ r.1.Counted rootOf []) →
      ∃ aec', x.map Prod.fst = .ok aec' ∧ aec'.Counted rootOf [] := by
    rintro α x ⟨r, hx, hr⟩
    exact ⟨r.1, map_eq_ok.mpr ⟨r, hx, rfl⟩, hr⟩
  cases op with
  | insert request now => exact hmap (h.insert hcons now)
  | setLastVoted root voteType timestamp =>
    exact ⟨_, rfl, h.modifyElection root fun e => e.voted_replaces voteType timestamp⟩
  | tryAddFork order fork forkTally => exact hmap (h.tryAddFork hfits hcons forkTally)
  | setCooldown coolDown reason => exact ⟨_, rfl, h.coherent, h.count⟩
  | stop =>
    have hemp : aec.roots.len = 0 := hstop rfl
    have hzero : ∀ behavior, aec.roots.countOf behavior = 0 := by
      intro behavior
      have hle : aec.roots.countOf behavior ≤ aec.roots.byRoot.sumBy fun _ _ => 1 :=
        sumBy_le_sumBy fun _ _ _ => by split <;> omega
      have hsize : (aec.roots.byRoot.sumBy fun _ _ => 1) = aec.roots.len := sumBy_one _
      omega
    refine ⟨_, rfl, h.coherent.clear hemp, fun behavior => ?_⟩
    exact (h.count behavior).trans (by rw [hzero]; rfl)
  | clearRecentlyConfirmed
  | removeRecentlyConfirmed blockHash => exact ⟨_, rfl, h.coherent, h.count⟩
  | transitionTime order now => exact h.transitionTime order now
  | transitionActive blockHash =>
    refine ⟨_, rfl, ?_⟩
    rw [transitionActive]
    split
    · next root entry hfound =>
      exact h.setElection (h.coherent.entryForBlock hfound).1
        entry.election.transitionActive_replaces
    · exact h
  | removeVotes root voters =>
    exact ⟨_, rfl, h.modifyElection root fun e => e.removeVotes_replaces voters⟩
  | eraseEndedElections order => exact h.eraseEndedElections order
  | erase root => exact hmap (h.erase root)
  | eraseLowestPrioElection bucketId =>
    change ∃ aec', aec.eraseLowestPrioElection bucketId = .ok aec' ∧ _
    rw [eraseLowestPrioElection]
    split
    · exact ⟨_, rfl, h⟩
    · next root _ _ => exact hmap (h.erase root)
  | confirmDependentElections confirmed =>
    exact ⟨_, rfl, h.confirmDependentElections confirmed⟩
  | applyVote order args => exact hmap (h.applyVote debugAssertions order args)
  | forceConfirm blockHash =>
    obtain ⟨root, entry, hfound⟩ := h.entryForBlock_of_isActiveHash hprom
    refine ⟨{ aec with roots := aec.roots.setElection root entry entry.election.forceConfirm.1 },
      ?_, h.setElection (h.coherent.entryForBlock hfound).1 entry.election.forceConfirm_replaces⟩
    change aec.forceConfirm blockHash = _
    rw [forceConfirm, hfound]
  | cancel root => exact ⟨_, rfl, h.modifyElection root Election.cancel_replaces⟩

/-- A forced confirmation that returns found an election. -/
theorem promised_of_apply (hop : op.apply debugAssertions aec = .ok aec') : op.Promised aec := by
  cases op with
  | forceConfirm blockHash =>
    change aec.forceConfirm blockHash = .ok aec' at hop
    rw [forceConfirm] at hop
    split at hop
    · next root entry hfound =>
      obtain ⟨hget, hmem⟩ := h.coherent.entryForBlock hfound
      exact (h.indexesAgree.activeHash blockHash).mpr ⟨root, entry, hget, hmem⟩
    · cases hop
  | _ => trivial

/-- Every run keeps the indexes in agreement. -/
theorem Counted.run (hrun : Run debugAssertions rootOf StopsEmpty aec aec') :
    aec'.Counted rootOf [] := by
  refine Machine.Run.invariant (P := fun aec => aec.Counted rootOf []) hrun h ?_
  rintro aec1 op aec2 h1 ⟨hfits, hcons, hstop⟩ hop
  obtain ⟨aec3, hop', h3⟩ := h1.apply debugAssertions hfits hcons hstop (promised_of_apply h1 hop)
  cases hop.symm.trans hop'
  exact h3

end

/-- After every run that does not stop the container while it has elections the indexes agree, and
no next such operation panics, except a forced confirmation without election. -/
theorem run_indexesAgree {debugAssertions : Bool} {confirmationCache maxElections baseLatency : ℕ}
    (h : Run debugAssertions rootOf StopsEmpty (new confirmationCache maxElections baseLatency)
      aec) :
    aec.IndexesAgree ∧ ∀ op : Operation, op.Fits aec → op.Consistent rootOf → aec.StopsEmpty op →
      op.Promised aec → ∃ aec', op.apply debugAssertions aec = .ok aec' := by
  have hcounted := (counted_new confirmationCache maxElections baseLatency).run h
  refine ⟨hcounted.indexesAgree, fun op hfits hconsistent hstop hpromised => ?_⟩
  obtain ⟨aec', hop, -⟩ := hcounted.apply debugAssertions hfits hconsistent hstop hpromised
  exact ⟨aec', hop⟩

/-! ### Stopped containers -/

/-- The container was stopped and has no elections, whatever its routes and counters say. -/
structure Emptied (aec : ActiveElectionsContainer) : Prop where
  stopped : aec.stopped = true
  get : ∀ root, aec.roots.byRoot.get root = none
  buckets : ∀ i, aec.roots.buckets i = []

namespace Emptied

variable (h : aec.Emptied)

include h

theorem entryForBlock (hash : BlockHash) : aec.roots.entryForBlock hash = none := by
  simp only [RootContainer.entryForBlock, RootContainer.get, h.get, bind_eq_bind,
    bind_none, bind_fun_none]

theorem modifyElection (root : QualifiedRoot) (f : Election → Election) :
    aec.modifyElection root f = aec := by
  rw [ActiveElectionsContainer.modifyElection, RootContainer.get, h.get]

theorem erase (root : QualifiedRoot) : aec.erase root = .ok (aec, false) := by
  rw [ActiveElectionsContainer.erase, RootContainer.erase, h.get]

theorem eraseEndedElections (order : List QualifiedRoot) :
    aec.eraseEndedElections order = .ok aec := by
  have hnil : order.filterMap (fun root => (aec.roots.byRoot.get root).bind fun i : Entry =>
      if i.election.state.hasEnded then some i.root else none) = [] := by
    refine List.filterMap_eq_nil_iff.mpr fun root _ => ?_
    rw [h.get, bind_none]
  rw [ActiveElectionsContainer.eraseEndedElections, drainFilter, hnil]
  rfl

theorem transitionTime (order : List QualifiedRoot) (now : Timestamp) :
    ∃ aec', aec.transitionTime order now = .ok aec' ∧ aec'.Emptied := by
  have hmapped : { aec with
      roots := aec.roots.mapElections fun e => e.transitionTime now }.Emptied := by
    refine ⟨h.stopped, fun root => ?_, h.buckets⟩
    rw [mapElections, get_mapValues, h.get, map_none]
  exact ⟨_, hmapped.eraseEndedElections order, hmapped⟩

theorem applyVote (debugAssertions : Bool) (order : BlockHash → List PublicKey)
    (args : ApplyVoteArgs) :
    ∃ r, aec.applyVote debugAssertions order args = .ok r ∧ r.1.Emptied := by
  obtain ⟨p, hfold, hroots, hconf⟩ := foldlM_ok
    (P := fun p : VoteProgress => p.roots = aec.roots ∧ p.confirmed = [])
    (f := VoteProgress.applyVote debugAssertions args order) (by
      rintro p - - ⟨hroots, hconf⟩
      rw [VoteProgress.applyVote, hroots, h.entryForBlock]
      split
      · exact ⟨p, rfl, hroots, hconf⟩
      · exact ⟨_, rfl, rfl, hconf⟩)
    (a := ⟨aec.roots, aec.recentlyConfirmed, ∅, []⟩) ⟨rfl, rfl⟩
  refine ⟨({ aec with roots := p.roots, recentlyConfirmed := p.recentlyConfirmed }, p.perBlock),
    ?_, ?_⟩
  · refine bind_eq_ok.mpr ⟨p, mapError_eq_ok.mpr hfold, ?_⟩
    rw [hconf]
    rfl
  · rw [hroots]
    exact ⟨h.stopped, h.get, h.buckets⟩

/-- No operation brings an election into a container that was stopped. -/
theorem apply (hop : op.apply debugAssertions aec = .ok aec') : aec'.Emptied := by
  have hsame : ∀ {α : Type} {x : Except AecPanic (ActiveElectionsContainer × α)},
      (∃ r, x = .ok r ∧ r.1.Emptied) → x.map Prod.fst = .ok aec' → aec'.Emptied := by
    rintro α x ⟨r, hx, hr⟩ hmap
    rw [hx] at hmap
    cases hmap
    exact hr
  cases op with
  | insert request now =>
    refine hsame ⟨(aec, .error .stopped), ?_, h⟩ hop
    rw [insert, if_pos h.stopped]
  | setLastVoted root voteType timestamp =>
    cases hop
    rw [setLastVoted, h.modifyElection]
    exact h
  | tryAddFork order fork forkTally =>
    refine hsame ⟨(aec, false), ?_, h⟩ hop
    rw [tryAddFork, RootContainer.get, h.get]
  | setCooldown coolDown reason =>
    cases hop
    exact ⟨h.stopped, h.get, h.buckets⟩
  | stop =>
    cases hop
    exact ⟨rfl, get_empty, fun _ => rfl⟩
  | clearRecentlyConfirmed | removeRecentlyConfirmed blockHash =>
    cases hop
    exact ⟨h.stopped, h.get, h.buckets⟩
  | transitionTime order now =>
    obtain ⟨aec1, hok, h1⟩ := h.transitionTime order now
    cases hok.symm.trans hop
    exact h1
  | transitionActive blockHash =>
    cases hop
    rw [transitionActive, h.entryForBlock]
    exact h
  | removeVotes root voters =>
    cases hop
    rw [removeVotes, h.modifyElection]
    exact h
  | eraseEndedElections order =>
    cases (h.eraseEndedElections order).symm.trans hop
    exact h
  | erase root => exact hsame ⟨_, h.erase root, h⟩ hop
  | eraseLowestPrioElection bucketId =>
    have hnone : aec.eraseLowestPrioElection bucketId = .ok aec := by
      rw [eraseLowestPrioElection, RootContainer.lowestPriority, h.buckets]
      rfl
    cases hnone.symm.trans hop
    exact h
  | confirmDependentElections confirmed =>
    cases hop
    have hfixed : aec.confirmDependentElections confirmed = aec := by
      refine List.foldl_fixed' (fun c => ?_) confirmed
      rw [confirmDependentElection, h.modifyElection, ite_self]
    rw [hfixed]
    exact h
  | applyVote order args => exact hsame (h.applyVote debugAssertions order args) hop
  | forceConfirm blockHash =>
    change aec.forceConfirm blockHash = .ok aec' at hop
    rw [forceConfirm, h.entryForBlock] at hop
    cases hop
  | cancel root =>
    cases hop
    rw [cancel, h.modifyElection]
    exact h

end Emptied

/-- After every run the indexes agree, or the container was stopped and is empty. -/
theorem run_counted_or_emptied {confirmationCache maxElections baseLatency : ℕ}
    (hrun : Run debugAssertions rootOf (fun _ _ => True) (new confirmationCache maxElections
    baseLatency) aec) : aec.Counted rootOf [] ∨ aec.Emptied := by
  refine Machine.Run.invariant (P := fun aec => aec.Counted rootOf [] ∨ aec.Emptied) hrun
    (.inl (counted_new confirmationCache maxElections baseLatency)) ?_
  rintro aec1 op aec2 (h1 | h1) ⟨hfits, hcons, -⟩ hop
  · by_cases hstop : op = .stop
    · subst hstop
      cases hop
      exact .inr ⟨rfl, get_empty, fun _ => rfl⟩
    · obtain ⟨aec3, hop', h3⟩ := h1.apply debugAssertions hfits hcons
        (fun heq => absurd heq hstop) (promised_of_apply h1 hop)
      cases hop.symm.trans hop'
      exact .inl h3
  · exact .inr (h1.apply hop)

/-! ### A container of the dev network -/

/-- A request for an election about the first send of the dev network. -/
def devRequest : AecInsertRequest := ⟨Election.devSavedSend, .priority, ⟨1, ⟨0⟩⟩⟩

/-- All blocks of the elections below have the root of the first send. -/
def devRootOf (_ : BlockHash) : QualifiedRoot := Election.devSavedSend.block.qualifiedRoot

/-- The container after an operation, unchanged if the operation panics. -/
def Operation.result (aec : ActiveElectionsContainer) (op : Operation) :
    ActiveElectionsContainer :=
  Machine.result (fun aec op => op.apply true aec) aec op

variable {allowed : ActiveElectionsContainer → Operation → Prop}

/-- One more operation of a run, given by its result. -/
theorem Run.result (h : Run true rootOf allowed aec aec') (hfits : op.Fits aec')
    (hcons : op.Consistent rootOf) (hallow : allowed aec' op)
    (hok : (op.apply true aec').toOption.isSome = true) :
    Run true rootOf allowed aec (op.result aec') :=
  Machine.Run.result h ⟨hfits, hcons, hallow⟩ hok

/-- The container with an election about the first send. -/
def devStarted : ActiveElectionsContainer :=
  (Operation.insert devRequest 0).result (new 10 10 (10 ^ 9))

/-- The election can be started. -/
theorem run_devStarted (hallow : allowed (new 10 10 (10 ^ 9)) (.insert devRequest 0)) :
    Run true devRootOf allowed (new 10 10 (10 ^ 9)) devStarted :=
  Run.result .refl trivial rfl hallow (by decide +kernel)

/-- The container with a fork of the first send. -/
def devForkStarted : ActiveElectionsContainer :=
  (Operation.tryAddFork [devSend.hash] (.legacySend devZeroSend) 1).result devStarted

/-- The fork can be added. -/
theorem run_devForkStarted : Run true devRootOf StopsEmpty (new 10 10 (10 ^ 9)) devForkStarted := by
  have hst : Run true devRootOf StopsEmpty (new 10 10 (10 ^ 9)) devStarted :=
    run_devStarted fun h => by cases h
  have hroot : devRootOf devZeroSend.hash = (Block.legacySend devZeroSend).qualifiedRoot := by
    decide +kernel
  have hord : ∀ entry,
      devStarted.roots.get (Block.legacySend devZeroSend).qualifiedRoot = some entry →
      entry.election.candidateBlocks.IsOrder [devSend.hash] := by
    intro entry hget
    have hall : ((devStarted.roots.get (Block.legacySend devZeroSend).qualifiedRoot).all
        fun entry => decide (entry.election.candidateBlocks.IsOrder [devSend.hash])) = true := by
      decide +kernel
    rw [hget] at hall
    exact of_decide_eq_true hall
  exact hst.result hord hroot (fun h => by cases h) (by decide +kernel)

/-- The indexes agree when an election has two candidates. -/
theorem indexesAgree_devForkStarted :
    devForkStarted.isActiveHash devZeroSend.hash = true ∧ devForkStarted.len = 1 ∧
      devForkStarted.IndexesAgree :=
  ⟨by decide +kernel, by decide +kernel, (run_indexesAgree run_devForkStarted).1⟩

/-- When the container is stopped with an election in it, the route of its block and the counter
stay behind. -/
theorem stop_devStarted :
    Run true devRootOf (fun _ _ => True) (new 10 10 (10 ^ 9)) devStarted.stop ∧
      devStarted.stop.len = 0 ∧ devStarted.stop.isActiveHash devSend.hash = true ∧
      devStarted.stop.countByBehavior .priority = 1 ∧ ¬ devStarted.stop.IndexesAgree := by
  have hactive : devStarted.stop.isActiveHash devSend.hash = true := by decide +kernel
  refine ⟨(run_devStarted trivial).tail ⟨.stop, ⟨trivial, trivial, trivial⟩, rfl⟩, rfl, hactive,
    by decide +kernel, fun hagree => ?_⟩
  obtain ⟨root, entry, hget, -⟩ := (hagree.activeHash _).mp hactive
  cases hget

end RsNano.ActiveElectionsContainer
