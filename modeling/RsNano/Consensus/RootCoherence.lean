import RsNano.Consensus.RootContainer
import RsNano.Consensus.ElectionInvariant

/-!
# The indexes of the root container agree

The elections by root are the truth; the buckets and the routes of the vote router are indexes
of them. In a coherent container the indexes describe exactly the contained elections, and the
operations of the container keep it coherent.

The vote router relies on block hashes: a block hash belongs to one qualified root. The
assumption is a function `rootOf` that gives the root of every candidate block.
-/

namespace RsNano

open Table Election

namespace Election

/-- One election takes the place of another one without being indexed differently. -/
structure Replaces (e' e : Election) : Prop where
  qualifiedRoot : e'.qualifiedRoot = e.qualifiedRoot
  behavior : e'.behavior = e.behavior
  candidateBlocks : e'.candidateBlocks = e.candidateBlocks
  wellFormed : e.WellFormed → e'.WellFormed

variable {e e' e'' : Election}

theorem Replaces.refl (e : Election) : e.Replaces e := ⟨rfl, rfl, rfl, id⟩

theorem Replaces.trans (h : e''.Replaces e') (h' : e'.Replaces e) : e''.Replaces e :=
  ⟨h.qualifiedRoot.trans h'.qualifiedRoot, h.behavior.trans h'.behavior,
    h.candidateBlocks.trans h'.candidateBlocks, fun hwf => h.wellFormed (h'.wellFormed hwf)⟩

/-- The passing of time keeps the candidates. -/
theorem transitionTime_replaces (e : Election) (now : Timestamp) :
    (e.transitionTime now).Replaces e := by
  obtain ⟨state, heq, -⟩ := transitionTime_cases e now
  rw [heq]
  exact ⟨rfl, rfl, rfl, fun hwf => hwf.sameContent ⟨rfl, rfl, rfl, rfl, rfl⟩⟩

/-- An own vote keeps the candidates. -/
theorem voted_replaces (e : Election) (voteType : VoteType) (timestamp : Timestamp) :
    (e.voted voteType timestamp).Replaces e := by
  cases voteType with
  | nonFinal | final => exact ⟨rfl, rfl, rfl, fun hwf => hwf.sameContent ⟨rfl, rfl, rfl, rfl, rfl⟩⟩

/-- A cancelled election keeps its candidates. -/
theorem cancel_replaces (e : Election) : e.cancel.Replaces e := by
  rw [cancel]
  split
  · exact .refl e
  · exact ⟨rfl, rfl, rfl, fun hwf => hwf.sameContent ⟨rfl, rfl, rfl, rfl, rfl⟩⟩

/-- An activated election keeps its candidates. -/
theorem transitionActive_replaces (e : Election) : e.transitionActive.Replaces e := by
  rw [transitionActive]
  split
  · exact ⟨rfl, rfl, rfl, fun hwf => hwf.sameContent ⟨rfl, rfl, rfl, rfl, rfl⟩⟩
  · exact .refl e

/-- A forced confirmation keeps the candidates. -/
theorem forceConfirm_replaces (e : Election) : e.forceConfirm.1.Replaces e := by
  rw [forceConfirm]
  split
  · exact .refl e
  · exact ⟨rfl, rfl, rfl, fun hwf => hwf.sameContent ⟨rfl, rfl, rfl, rfl, rfl⟩⟩

/-- Dropping votes keeps the candidates. -/
theorem removeVotes_replaces (e : Election) (voters : List PublicKey) :
    (voters.foldl removeVote e).Replaces e := by
  induction voters generalizing e with
  | nil => exact .refl e
  | cons voter voters ih =>
    exact (ih _).trans ⟨rfl, rfl, rfl, fun hwf => hwf.removeVote voter⟩

/-- A vote for a candidate is stored and counted without panic, and keeps the candidates. -/
theorem WellFormed.countVote (hwf : e.WellFormed) {hash : BlockHash}
    (hcand : e.containsBlock hash = true) (debugAssertions : Bool) (voter : PublicKey)
    (voteCreated : UnixMillisTimestamp) (voteReceived : Timestamp) (order : List PublicKey)
    (repWeights : Table PublicKey Amount) (quorumDelta : Amount) :
    ∃ e1 e2, e.addVote debugAssertions voter hash voteCreated voteReceived = .ok e1 ∧
      e1.updateTallies order repWeights quorumDelta = .ok e2 ∧ e2.Replaces e := by
  obtain ⟨e1, hadd, hwf1⟩ := hwf.addVote hcand debugAssertions voter voteCreated voteReceived
  obtain ⟨e2, hupd, hwf2⟩ := hwf1.updateTallies order repWeights quorumDelta
  refine ⟨e1, e2, hadd, hupd, ?_⟩
  rw [Election.addVote] at hadd
  split at hadd
  · cases hadd
  · cases hadd
    rcases updateTallies_cases hupd with ⟨-, rfl⟩ | ⟨-, e3, e4, hasQuorum, htal, hwin, rfl⟩
    · exact ⟨rfl, rfl, rfl, fun _ => hwf2⟩
    · obtain ⟨hroot, hbeh, hcands⟩ : e3.qualifiedRoot = e.qualifiedRoot ∧
          e3.behavior = e.behavior ∧ e3.candidateBlocks = e.candidateBlocks := by
        rw [htal.eq]
        exact ⟨rfl, rfl, rfl⟩
      obtain ⟨b, rfl⟩ := exists_of_updateWinner hwin
      exact ⟨hroot, hbeh, hcands, fun _ => hwf2⟩

/-- A fork is one more candidate. -/
theorem containsBlock_of_addFork {fork : Block} {forkTally : Amount}
    (h : e.addFork fork forkTally = .ok e') {hash : BlockHash} :
    e'.containsBlock hash = true ↔ hash = fork.hash ∨ e.containsBlock hash = true := by
  obtain ⟨-, -, rfl⟩ := addFork_eq_ok.mp h
  change ((e.candidateBlocks.put fork.hash _).get hash).isSome = true ↔ _
  rw [get_put]
  split
  · next hhash => exact iff_of_true rfl (.inl hhash)
  · next hhash => exact ⟨.inr, fun hx => hx.resolve_left hhash⟩

/-- A removed block was a candidate, and the other candidates stay. -/
theorem WellFormed.containsBlock_of_removeBlock (hwf : e.WellFormed) {x : BlockHash}
    {removed : MaybeSavedBlock} (h : e.removeBlock x = (e', some removed)) :
    e.containsBlock removed.hash = true ∧ ∀ hash,
      e'.containsBlock hash = true ↔ hash ≠ removed.hash ∧ e.containsBlock hash = true := by
  rcases removeBlock_cases e x with heq | ⟨b, -, hb, heq⟩
  · cases h.symm.trans heq
  · cases h.symm.trans heq
    have hkey := hwf.keyed hb
    subst hkey
    refine ⟨containsBlock_iff.mpr ⟨_, hb⟩, fun hash => ?_⟩
    change ((e.candidateBlocks.del removed.hash).get hash).isSome = true ↔ _
    rw [get_del]
    split
    · next hhash => exact iff_of_false Bool.false_ne_true fun hx => hx.1 hhash
    · next hhash => exact ⟨fun hx => ⟨hhash, hx⟩, fun hx => hx.2⟩

end Election

namespace RootContainer

/-- The buckets and the routes describe exactly the contained elections. -/
structure Coherent (rootOf : BlockHash → QualifiedRoot) (rc : RootContainer) : Prop where
  keyed : ∀ {root entry}, rc.byRoot.get root = some entry →
    entry.root = root ∧ entry.election.qualifiedRoot = root
  wellFormed : ∀ {root entry}, rc.byRoot.get root = some entry → entry.election.WellFormed
  rooted : ∀ {root entry}, rc.byRoot.get root = some entry →
    ∀ {hash}, entry.election.containsBlock hash = true → rootOf hash = root
  routed : ∀ {hash root}, rc.voteRouter.elections.get hash = some root ↔
    ∃ entry, rc.byRoot.get root = some entry ∧ entry.election.containsBlock hash = true
  bucketed : ∀ {x i}, x ∈ rc.buckets i ↔
    ∃ entry, rc.byRoot.get x.root = some entry ∧ entry.priority = x.priority ∧ entry.bucket = i
  nodup : ∀ i, (rc.buckets i).Nodup
  sorted : ∀ i, (rc.buckets i).Pairwise BucketEntry.before
  total : Buckets.total rc.buckets = rc.len

/-- The number of elections with a behavior. -/
def countOf (rc : RootContainer) (behavior : ElectionBehavior) : ℕ :=
  rc.byRoot.sumBy fun _ entry => if entry.election.behavior = behavior then 1 else 0

variable {rootOf : BlockHash → QualifiedRoot} {rc rc' : RootContainer} {root : QualifiedRoot}
  {entry : Entry} {hash : BlockHash}

/-- The new container is coherent. -/
theorem coherent_new : new.Coherent rootOf where
  keyed := fun hget => by cases hget
  wellFormed := fun hget => by cases hget
  rooted := fun hget => by cases hget
  routed := by simp [new]
  bucketed := by simp [new]
  nodup := fun _ => List.nodup_nil
  sorted := fun _ => List.Pairwise.nil
  total := Finset.sum_const_zero

namespace Coherent

variable (h : rc.Coherent rootOf)

include h

/-- A candidate is routed to the root of its election. -/
theorem rootOf_eq (hroute : rc.voteRouter.elections.get hash = some root) : rootOf hash = root := by
  obtain ⟨entry, hget, hhas⟩ := h.routed.mp hroute
  exact h.rooted hget hhas

/-- An entry is in its bucket. -/
theorem mem_buckets (hget : rc.byRoot.get root = some entry) :
    entry.bucketEntry ∈ rc.buckets entry.bucket := by
  refine h.bucketed.mpr ⟨entry, ?_, rfl, rfl⟩
  rw [Entry.bucketEntry, (h.keyed hget).1]
  exact hget

/-- A new election is indexed. -/
theorem insert (hnew : rc.byRoot.get entry.root = none)
    (hroot : entry.election.qualifiedRoot = entry.root) (hwf : entry.election.WellFormed)
    (hcands : ∀ hash, entry.election.containsBlock hash = true ↔ hash =
    entry.election.winner.hash) (hrootOf : rootOf entry.election.winner.hash = entry.root) :
    (rc.insert entry).Coherent rootOf where
  keyed := forall_get_put h.keyed ⟨rfl, hroot⟩
  wellFormed := forall_get_put h.wellFormed hwf
  rooted := forall_get_put h.rooted fun {hash} hhas => by
    rw [(hcands hash).mp hhas]
    exact hrootOf
  routed := by
    intro hash root'
    have hoth : (∃ e, rc.byRoot.get root' = some e ∧ e.election.containsBlock hash = true) →
        rootOf hash = root' ∧ root' ≠ entry.root := by
      rintro ⟨e, hget, hhas⟩
      exact ⟨h.rooted hget hhas, fun heq => by simp [← heq, hget] at hnew⟩
    refine Iff.trans ?_ exists_get_put.symm
    rw [hcands, ← h.routed] at *
    change (rc.voteRouter.elections.put _ _).get hash = some root' ↔ _
    grind [get_put]
  bucketed := by
    rintro ⟨root', priority⟩ i
    refine Buckets.mem_insert.trans (Iff.trans ?_ exists_get_put.symm)
    rw [h.bucketed]
    grind [Entry.bucketEntry]
  nodup := Buckets.nodup_insert h.nodup _ _
  sorted := Buckets.pairwise_insert h.sorted _ _
  total := by
    have hnot : entry.bucketEntry ∉ rc.buckets entry.bucket := by
      intro hmem
      obtain ⟨entry', hget, -⟩ := h.bucketed.mp hmem
      cases hnew.symm.trans hget
    calc Buckets.total (rc.insert entry).buckets = Buckets.total rc.buckets + 1 :=
          Buckets.total_insert hnot
      _ = rc.len + 1 := by rw [h.total]
      _ = (rc.insert entry).len := (size_put_of_none entry hnew).symm

section

variable (hget : rc.byRoot.get root = some entry)

include hget

/-- Routes lead to the candidates of an entry or to another entry. -/
theorem route_iff {root' : QualifiedRoot} :
    rc.voteRouter.elections.get hash = some root' ↔
      (root' = root ∧ entry.election.containsBlock hash = true) ∨
        (root' ≠ root ∧ rc.voteRouter.elections.get hash = some root') := by
  constructor
  · intro hroute
    by_cases hr : root' = root
    · obtain ⟨entry', hget', hhas⟩ := h.routed.mp hroute
      rw [hr] at hget'
      cases hget.symm.trans hget'
      exact .inl ⟨hr, hhas⟩
    · exact .inr ⟨hr, hroute⟩
  · rintro (⟨rfl, hhas⟩ | ⟨-, hroute⟩)
    · exact h.routed.mpr ⟨entry, hget, hhas⟩
    · exact hroute

/-- Bucket entries belong to an entry or to another one. -/
theorem mem_buckets_iff {x : BucketEntry} {i : Fin bucketCount} :
    x ∈ rc.buckets i ↔
      (i = entry.bucket ∧ x = ⟨root, entry.priority⟩) ∨ (x.root ≠ root ∧ x ∈ rc.buckets i) := by
  constructor
  · intro hx
    by_cases hr : x.root = root
    · obtain ⟨entry', hget', hprio, hbkt⟩ := h.bucketed.mp hx
      rw [hr] at hget'
      cases hget.symm.trans hget'
      exact .inl ⟨hbkt.symm, by rw [hprio, ← hr]⟩
    · exact .inr ⟨hr, hx⟩
  · rintro (⟨rfl, rfl⟩ | ⟨-, hx⟩)
    · exact h.bucketed.mpr ⟨entry, hget, rfl, rfl⟩
    · exact hx

/-- An election is exchanged together with the routes of its candidates and its bucket. -/
theorem exchange {e : Election} (hroot : e.qualifiedRoot = root) (hwf : e.WellFormed)
    (hrooted : ∀ {hash}, e.containsBlock hash = true → rootOf hash = root) {router : VoteRouter}
    {buckets : Fin bucketCount → List BucketEntry}
    (hrouter : ∀ {hash root'}, router.elections.get hash = some root' ↔ (root' = root ∧
    e.containsBlock hash = true) ∨ (root' ≠ root ∧ rc.voteRouter.elections.get hash = some root'))
    (hbuckets : ∀ {x i}, x ∈ buckets i ↔ (i = bucketIndex e.behavior entry.priority.balance ∧ x =
    ⟨root, entry.priority⟩) ∨ (x.root ≠ root ∧ x ∈ rc.buckets i)) (hnd : ∀ i, (buckets i).Nodup)
    (hsort : ∀ i, (buckets i).Pairwise BucketEntry.before)
    (htotal : Buckets.total buckets = Buckets.total rc.buckets) :
    (⟨rc.byRoot.put root { entry with election := e }, buckets, router⟩ :
      RootContainer).Coherent rootOf where
  keyed := forall_get_put (v := { entry with election := e }) h.keyed
    ⟨(h.keyed hget).1, hroot⟩
  wellFormed := forall_get_put h.wellFormed hwf
  rooted := forall_get_put h.rooted hrooted
  routed := by
    intro hash root'
    refine Iff.trans ?_ exists_get_put.symm
    rw [hrouter, h.routed]
  bucketed := by
    rintro ⟨root', priority⟩ i
    rw [hbuckets, h.bucketed]
    refine Iff.trans ?_ exists_get_put.symm
    grind [Entry.bucket]
  nodup := hnd
  sorted := hsort
  total := (htotal.trans h.total).trans (size_put_of_some _ hget).symm

/-- An election can take the place of another one with the same candidates. -/
theorem setElection {e : Election} (he : e.Replaces entry.election) :
    (rc.setElection root entry e).Coherent rootOf := by
  have hhas : ∀ {hash}, e.containsBlock hash = entry.election.containsBlock hash := by
    intro hash
    rw [containsBlock, he.candidateBlocks, containsBlock]
  refine h.exchange hget (he.qualifiedRoot.trans (h.keyed hget).2)
    (he.wellFormed (h.wellFormed hget)) ?_ ?_ ?_ h.nodup h.sorted rfl
  · intro hash hx
    exact h.rooted hget (hhas ▸ hx)
  · intro hash root'
    rw [hhas]
    exact h.route_iff hget
  · intro x i
    rw [he.behavior]
    exact h.mem_buckets_iff hget

/-- A fork is routed to its election, and the block it replaces is not. -/
theorem fork {e : Election} (hstatus : entry.election.SameStatus e) (hwf : e.WellFormed)
    {fork : Block} (hfork : rootOf fork.hash = root) (gone : BlockHash → Prop) {router : VoteRouter}
    (hcands : ∀ {hash}, e.containsBlock hash = true ↔ hash = fork.hash ∨ (¬ gone hash ∧
    entry.election.containsBlock hash = true)) (hgone : ∀ {hash}, gone hash → rootOf hash = root)
    (hrouter : ∀ {hash root'}, router.elections.get hash = some root' ↔ ¬ gone hash ∧
    rc.voteRouter.elections.get hash = some root') :
    { rc.setElection root entry e with voteRouter := router.connect fork.hash root }.Coherent
      rootOf := by
  refine h.exchange hget (hstatus.qualifiedRoot.trans (h.keyed hget).2) hwf ?_ ?_ ?_ h.nodup
    h.sorted rfl
  · intro hash hhas
    rcases hcands.mp hhas with rfl | ⟨-, hhas⟩
    · exact hfork
    · exact h.rooted hget hhas
  · intro hash root'
    constructor
    · intro hroute
      rcases eq_or_of_get_put hroute with ⟨rfl, rfl⟩ | ⟨-, hroute⟩
      · exact .inl ⟨rfl, hcands.mpr (.inl rfl)⟩
      · obtain ⟨hnot, hroute⟩ := hrouter.mp hroute
        rcases (h.route_iff hget).mp hroute with ⟨hr, hx⟩ | hoth
        · exact .inl ⟨hr, hcands.mpr (.inr ⟨hnot, hx⟩)⟩
        · exact .inr hoth
    · rintro (⟨rfl, hx⟩ | ⟨hne, hroute⟩)
      · by_cases hhash : hash = fork.hash
        · rw [hhash]
          exact get_put_self _ _ _
        · refine (get_put_of_ne _ _ hhash).trans (hrouter.mpr ?_)
          obtain ⟨hnot, hx⟩ := (hcands.mp hx).resolve_left hhash
          exact ⟨hnot, h.routed.mpr ⟨entry, hget, hx⟩⟩
      · have hroot' := h.rootOf_eq hroute
        have hhash : hash ≠ fork.hash := by
          rintro rfl
          exact hne (hroot'.symm.trans hfork)
        exact (get_put_of_ne _ _ hhash).trans
          (hrouter.mpr ⟨fun hx => hne (hroot'.symm.trans (hgone hx)), hroute⟩)
  · intro x i
    rw [hstatus.behavior]
    exact h.mem_buckets_iff hget

/-- An entry has left its bucket after the removal. -/
theorem mem_remove_iff {x : BucketEntry} {i : Fin bucketCount} :
    x ∈ Buckets.remove rc.buckets entry.bucket ⟨root, entry.priority⟩ i ↔
      x.root ≠ root ∧ x ∈ rc.buckets i := by
  rw [Buckets.mem_remove h.nodup]
  constructor
  · rintro ⟨hnot, hx⟩
    exact ((h.mem_buckets_iff hget).mp hx).resolve_left hnot
  · rintro ⟨hne, hx⟩
    refine ⟨?_, hx⟩
    rintro ⟨-, rfl⟩
    exact hne rfl

/-- An election moves to another bucket when its behavior changes. -/
theorem moveBucket {e : Election} (hsame : entry.election.SameContent e)
    (hroot : e.qualifiedRoot = entry.election.qualifiedRoot) :
    { rc.setElection root entry e with
        buckets := Buckets.insert BucketEntry.before
          (Buckets.remove rc.buckets entry.bucket ⟨root, entry.priority⟩)
          (bucketIndex e.behavior entry.priority.balance)
          ⟨root, entry.priority⟩ }.Coherent rootOf := by
  have hhas : ∀ {hash}, e.containsBlock hash = entry.election.containsBlock hash := by
    intro hash
    rw [containsBlock, hsame.candidateBlocks, containsBlock]
  refine h.exchange hget (hroot.trans (h.keyed hget).2) ((h.wellFormed hget).sameContent hsame)
    ?_ ?_ ?_ (Buckets.nodup_insert (Buckets.nodup_remove h.nodup _ _) _ _)
    (Buckets.pairwise_insert (Buckets.pairwise_remove h.sorted _ _) _ _) ?_
  · intro hash hx
    exact h.rooted hget (hhas ▸ hx)
  · intro hash root'
    rw [hhas]
    exact h.route_iff hget
  · intro x i
    rw [Buckets.mem_insert, h.mem_remove_iff hget]
  · have hmem : ⟨root, entry.priority⟩ ∈ rc.buckets entry.bucket :=
      h.bucketed.mpr ⟨entry, hget, rfl, rfl⟩
    rw [Buckets.total_insert, Buckets.total_remove hmem]
    rw [h.mem_remove_iff hget]
    exact fun hx => hx.1 rfl

end

/-- The entry that a block is routed to has the block as a candidate. -/
theorem entryForBlock (hfound : rc.entryForBlock hash = some (root, entry)) :
    rc.byRoot.get root = some entry ∧ entry.election.containsBlock hash = true := by
  simp only [RootContainer.entryForBlock, Option.bind_eq_bind, Option.bind_eq_some_iff,
    Option.pure_def, Option.some.injEq, Prod.mk.injEq] at hfound
  obtain ⟨root', hroute, entry', hget, rfl, rfl⟩ := hfound
  obtain ⟨entry1, hget1, hhas⟩ := h.routed.mp hroute
  cases hget1.symm.trans hget
  exact ⟨hget, hhas⟩

/-- An erased election is removed from the indexes. -/
theorem erase (root : QualifiedRoot) : (rc.erase root).1.Coherent rootOf := by
  rw [RootContainer.erase]
  split
  · exact h
  · next entry hget =>
    have hkey : entry.bucketEntry = ⟨root, entry.priority⟩ := by
      rw [Entry.bucketEntry, (h.keyed hget).1]
    rw [hkey]
    exact
      { keyed := fun hget' => h.keyed (get_of_get_del hget').2
        wellFormed := fun hget' => h.wellFormed (get_of_get_del hget').2
        rooted := fun hget' => h.rooted (get_of_get_del hget').2
        routed := by
          intro hash root'
          refine get_retain_eq_some.trans ?_
          refine Iff.trans ?_ exists_get_del.symm
          have hroot : entry.election.containsBlock hash = true → rootOf hash = root :=
            h.rooted hget
          have hroute : rc.voteRouter.elections.get hash = some root' → rootOf hash = root' :=
            h.rootOf_eq
          grind [h.route_iff hget, h.routed]
        bucketed := by
          intro x i
          rw [h.mem_remove_iff hget, h.bucketed]
          exact exists_get_del.symm
        nodup := Buckets.nodup_remove h.nodup _ _
        sorted := Buckets.pairwise_remove h.sorted _ _
        total := by
          have htotal := Buckets.total_remove (h.mem_buckets hget)
          have hsize := size_del_of_some hget
          have hlen := h.total
          rw [hkey] at htotal
          rw [len] at hlen
          change Buckets.total (Buckets.remove _ _ _) = (rc.byRoot.del root).size
          omega }

/-- All elections can be replaced at once. -/
theorem mapElections {f : Election → Election} (hf : ∀ e, (f e).Replaces e) :
    (rc.mapElections f).Coherent rootOf := by
  have hget : ∀ {root entry'}, (rc.mapElections f).byRoot.get root = some entry' ↔
      ∃ entry, rc.byRoot.get root = some entry ∧
        { entry with election := f entry.election } = entry' := by
    intro root entry'
    rw [RootContainer.mapElections, get_mapValues, Option.map_eq_some_iff]
  have hhas : ∀ {e : Election} {hash}, (f e).containsBlock hash = e.containsBlock hash := by
    intro e hash
    rw [containsBlock, (hf e).candidateBlocks, containsBlock]
  exact
    { keyed := by
        intro root entry' hget'
        obtain ⟨entry, hold, rfl⟩ := hget.mp hget'
        exact ⟨(h.keyed hold).1, (hf _).qualifiedRoot.trans (h.keyed hold).2⟩
      wellFormed := by
        intro root entry' hget'
        obtain ⟨entry, hold, rfl⟩ := hget.mp hget'
        exact (hf _).wellFormed (h.wellFormed hold)
      rooted := by
        intro root entry' hget' hash hx
        obtain ⟨entry, hold, rfl⟩ := hget.mp hget'
        exact h.rooted hold (hhas ▸ hx)
      routed := by
        intro hash root
        refine h.routed.trans ?_
        simp [hget, hhas]
      bucketed := by
        intro x i
        refine h.bucketed.trans ?_
        simp [hget, Entry.bucket, (hf _).behavior]
      nodup := h.nodup
      sorted := h.sorted
      total := h.total.trans (size_mapValues _ _).symm }

/-- Without elections there is nothing to clear. -/
theorem clear (hemp : rc.len = 0) : rc.clear.Coherent rootOf := by
  have hnone : ∀ {root entry}, rc.byRoot.get root ≠ some entry := by
    intro root entry hget
    have hpos := size_pos_of_get hget
    rw [len] at hemp
    omega
  have hclear : rc.clear = new := by
    have hroots : (∅ : Table BlockHash QualifiedRoot) = rc.voteRouter.elections := by
      apply ext_get
      intro hash
      cases hroute : rc.voteRouter.elections.get hash with
      | none => exact get_empty hash
      | some root =>
        obtain ⟨entry, hget, -⟩ := h.routed.mp hroute
        exact absurd hget hnone
    rw [RootContainer.clear, new, hroots]
  rw [hclear]
  exact coherent_new

end Coherent

/-! ### Counting elections -/

/-- The new election is counted. -/
theorem countOf_insert (entry : Entry) (hnew : rc.byRoot.get entry.root = none)
    (behavior : ElectionBehavior) :
    (rc.insert entry).countOf behavior =
      (if entry.election.behavior = behavior then 1 else 0) + rc.countOf behavior :=
  sumBy_put_of_none _ _ hnew

section

variable (hget : rc.byRoot.get root = some entry)

include hget

/-- A contained election is counted. -/
theorem countOf_pos : 0 < rc.countOf entry.election.behavior := by
  have hle := le_sumBy
    (fun _ x => if x.election.behavior = entry.election.behavior then 1 else 0) hget
  rw [if_pos rfl] at hle
  exact hle

/-- The exchange of an election exchanges what is counted. -/
theorem countOf_setElection (e : Election) (behavior : ElectionBehavior) :
    (rc.setElection root entry e).countOf behavior +
        (if entry.election.behavior = behavior then 1 else 0) =
      (if e.behavior = behavior then 1 else 0) + rc.countOf behavior :=
  sumBy_put_of_some _ _ hget

/-- An election with the same behavior counts as before. -/
theorem countOf_of_behavior_eq {e : Election} (he : e.behavior = entry.election.behavior)
    (behavior : ElectionBehavior) :
    (rc.setElection root entry e).countOf behavior = rc.countOf behavior := by
  have hcnt := countOf_setElection hget e behavior
  rw [he] at hcnt
  omega

end

/-- An upgrade finds no election, refuses a duplicate, or moves the election to its new bucket. -/
theorem Coherent.tryUpgradeToPriorityElection (h : rc.Coherent rootOf)
    (request : AecInsertRequest) :
    (rc.byRoot.get request.block.block.qualifiedRoot = none ∧
        rc.tryUpgradeToPriorityElection request = (rc, false, none)) ∨
      (∃ previous, rc.tryUpgradeToPriorityElection request = (rc, false, some previous)) ∨
      ∃ rc' previous, rc.tryUpgradeToPriorityElection request = (rc', true, some previous) ∧
        request.behavior = .priority ∧ rc'.Coherent rootOf ∧ 0 < rc.countOf previous ∧
        ∀ behavior, rc'.countOf behavior + (if previous = behavior then 1 else 0) =
          (if ElectionBehavior.priority = behavior then 1 else 0) + rc.countOf behavior := by
  rw [RootContainer.tryUpgradeToPriorityElection]
  split
  · next hget => exact .inl ⟨hget, rfl⟩
  · next entry hget =>
    refine .inr ?_
    split
    · exact .inl ⟨_, rfl⟩
    · next hbeh =>
      split
      · exact .inl ⟨_, rfl⟩
      · next election hup =>
        have he : election = { entry.election with behavior := .priority } := by
          rw [maybeUpgradeTo, if_neg (fun hne => hne rfl)] at hup
          split at hup
          · cases hup
          · cases hup
            rfl
        subst he
        exact .inr ⟨_, _, rfl, not_not.mp hbeh,
          h.moveBucket hget ⟨rfl, rfl, rfl, rfl, rfl⟩ rfl, countOf_pos hget,
          countOf_setElection hget _⟩

/-- An erased election is not counted any more. -/
theorem countOf_erase (rc : RootContainer) (root : QualifiedRoot) (behavior : ElectionBehavior) :
    (rc.erase root).1.countOf behavior +
        (rc.erase root).2.toList.countP (fun x => decide (x.election.behavior = behavior)) =
      rc.countOf behavior := by
  rw [erase]
  split
  · rfl
  · next entry hget =>
    have hdel := sumBy_del_of_some (fun _ x => if x.election.behavior = behavior then 1 else 0) hget
    rw [Option.toList_some, List.countP_singleton]
    simp only [decide_eq_true_eq]
    exact (Nat.add_comm _ _).trans hdel

/-- Erasing elections keeps the container coherent, and what is gone is in the list. -/
theorem Coherent.eraseAll (h : rc.Coherent rootOf) (roots : List QualifiedRoot) :
    (rc.eraseAll roots).1.Coherent rootOf ∧ ∀ behavior,
      (rc.eraseAll roots).1.countOf behavior +
          (rc.eraseAll roots).2.countP (fun x => decide (x.election.behavior = behavior)) =
        rc.countOf behavior := by
  induction roots generalizing rc with
  | nil => exact ⟨h, fun _ => rfl⟩
  | cons root roots ih =>
    obtain ⟨hcoh, hcnt⟩ := ih (h.erase root)
    refine ⟨hcoh, fun behavior => ?_⟩
    have herase := countOf_erase rc root behavior
    have hrest := hcnt behavior
    change ((rc.erase root).1.eraseAll roots).1.countOf behavior + List.countP _
      ((rc.erase root).2.toList ++ ((rc.erase root).1.eraseAll roots).2) = _
    rw [List.countP_append]
    omega

end RootContainer

end RsNano
