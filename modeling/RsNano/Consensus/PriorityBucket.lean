import RsNano.Consensus.RoundRobinIterator

/-!
# Activation of a bucket of the priority scheduler

A bucket holds blocks that wait for an election. When its best block may start, an election is
started for it, and if the bucket already has its share of elections, the one with the lowest
priority makes place. Making place comes first, and the new election can still be refused.

Filling the bucket is left out: a bucket is any queue of blocks. The counters of `BucketStats` are
left out too.
-/

namespace RsNano

open RootContainer ActiveElectionsContainer Election Option

/-! ### The queue -/

/-- A block that waits for an election. -/
structure BlockEntry where
  priority : BlockPriority
  block : SavedBlock

namespace BlockEntry

def hash (entry : BlockEntry) : BlockHash := entry.block.hash

def root (entry : BlockEntry) : QualifiedRoot := entry.block.block.qualifiedRoot

end BlockEntry

/-- The waiting blocks in ascending priority, and their hashes. -/
structure OrderedBlocks where
  hashes : List BlockHash
  byPriority : List BlockEntry

namespace OrderedBlocks

variable (blocks : OrderedBlocks)

def highestPrio : Option BlockEntry := blocks.byPriority.getLast?

def popHighestPrio : Option (BlockEntry × OrderedBlocks) :=
  blocks.byPriority.getLast?.map fun entry =>
    (entry, ⟨blocks.hashes.erase entry.hash, blocks.byPriority.dropLast⟩)

end OrderedBlocks

/-! ### The bucket -/

structure PriorityBucketConfig where
  reservedElections : ℕ

structure Bucket where
  config : PriorityBucketConfig
  blockQueue : OrderedBlocks
  bucketId : Fin bucketCount

namespace Bucket

variable (bucket : Bucket) (aec : ActiveElectionsContainer)

/-- The bucket has all the elections that are reserved for it. -/
abbrev Full : Prop := bucket.config.reservedElections ≤ aec.roots.bucketLen bucket.bucketId

def available : Bool :=
  match bucket.blockQueue.highestPrio with
  | none => false
  | some highestBlock =>
    let candidatePrio := highestBlock.priority.time
    let canReprioritize := (aec.roots.lowestPriority bucket.bucketId).any fun lowest =>
      candidatePrio.cmp lowest.2 = .gt
    if canReprioritize then true
    else if bucket.Full aec then false
    else decide (0 < aec.vacancy)

/-- If the bucket has its elections, the last one makes place. -/
def makePlace : Except AecPanic ActiveElectionsContainer :=
  if bucket.Full aec then aec.eraseLowestPrioElection bucket.bucketId else .ok aec

def activate (now : Timestamp) : Except AecPanic (Bucket × ActiveElectionsContainer) :=
  if bucket.available aec = false then .ok (bucket, aec)
  else
    match bucket.blockQueue.popHighestPrio with
    | none => .ok (bucket, aec)
    | some (top, blockQueue) =>
      if aec.roots.findBucket top.root = some bucket.bucketId then
        .ok ({ bucket with blockQueue }, aec)
      else do
        let aec ← bucket.makePlace aec
        let (aec, _) ← aec.insert ⟨top.block, .priority, top.priority⟩ now
        return ({ bucket with blockQueue }, aec)

end Bucket

/-! ### What an insertion does -/

namespace ActiveElectionsContainer

variable {rootOf : BlockHash → QualifiedRoot} {aec : ActiveElectionsContainer}
  {root : QualifiedRoot}

/-- A request for a root starts a new election. -/
def Starts (aec : ActiveElectionsContainer) (root : QualifiedRoot) : Prop :=
  aec.stopped = false ∧ aec.recentlyConfirmed.rootExists root = false ∧ aec.roots.get root = none

/-- A request for a root turns its election into a priority election. -/
def Upgrades (aec : ActiveElectionsContainer) (root : QualifiedRoot) : Prop :=
  aec.stopped = false ∧ aec.recentlyConfirmed.rootExists root = false ∧
    ∃ entry, aec.roots.get root = some entry ∧
      entry.election.behavior ≠ .priority ∧ entry.election.behavior ≠ .manual

/-- The elections and their entries after an upgrade. -/
def IsUpgraded (aec aec' : ActiveElectionsContainer) (root : QualifiedRoot) : Prop :=
  ∃ entry, aec.roots.get root = some entry ∧ entry.election.behavior ≠ .priority ∧
    aec'.roots.byRoot = aec.roots.byRoot.put root
      { entry with election := { entry.election with behavior := .priority } }

/-- An election of another behavior is upgraded. -/
theorem Counted.insert_of_upgrades (h : aec.Counted rootOf []) {request : AecInsertRequest}
    (hbeh : request.behavior = .priority)
    (hups : aec.Upgrades request.block.block.qualifiedRoot) (now : Timestamp) :
    ∃ aec', aec.insert request now = .ok (aec', .ok ()) ∧
      aec.IsUpgraded aec' request.block.block.qualifiedRoot := by
  obtain ⟨hstop, hrec, entry, hget, hprio, hmanual⟩ := hups
  have hup : entry.election.maybeUpgradeTo .priority =
      ({ entry.election with behavior := .priority }, true) := by
    rw [maybeUpgradeTo, if_neg (fun hne => hne rfl), if_neg (not_or.mpr ⟨hprio, hmanual⟩)]
  obtain ⟨roots, htry, hroots⟩ : ∃ roots, aec.roots.tryUpgradeToPriorityElection request =
      (roots, true, some entry.election.behavior) ∧
      roots.byRoot = aec.roots.byRoot.put request.block.block.qualifiedRoot
        { entry with election := { entry.election with behavior := .priority } } := by
    rw [tryUpgradeToPriorityElection]
    rw [hget]
    dsimp only
    rw [if_neg (not_not.mpr hbeh), hup]
    exact ⟨_, rfl, rfl⟩
  have hcount : 0 < { aec with roots }.countByBehavior entry.election.behavior := by
    have hpos := countOf_pos hget
    have hcnt := h.count entry.election.behavior
    change 0 < aec.countByBehavior _
    omega
  obtain ⟨aec1, hdecr, hroots1, -⟩ := decreaseCount_ok hcount
  refine ⟨aec1.increaseCount request.behavior, ?_, entry, hget, hprio, ?_⟩
  · rw [ActiveElectionsContainer.insert, if_neg (Bool.eq_false_iff.mp hstop),
      if_neg (Bool.eq_false_iff.mp hrec), tryUpgradePriorityElection, htry]
    change (decreaseCount _ _ >>= _) >>= _ = _
    rw [hdecr]
    rfl
  · change aec1.roots.byRoot = _
    rw [hroots1]
    exact hroots

/-- A priority request starts an election, upgrades one or changes nothing. -/
theorem Counted.insert_cases (h : aec.Counted rootOf []) (request : AecInsertRequest)
    (hbeh : request.behavior = .priority) (now : Timestamp) :
    (aec.Starts request.block.block.qualifiedRoot ∧
        aec.insert request now = .ok (aec.insertNewElection request now, .ok ())) ∨
      (aec.Upgrades request.block.block.qualifiedRoot ∧ ∃ aec',
        aec.insert request now = .ok (aec', .ok ()) ∧
          aec.IsUpgraded aec' request.block.block.qualifiedRoot) ∨
      (¬ aec.Starts request.block.block.qualifiedRoot ∧
        ¬ aec.Upgrades request.block.block.qualifiedRoot ∧
        ∃ error, aec.insert request now = .ok (aec, .error error)) := by
  by_cases hups : aec.Upgrades request.block.block.qualifiedRoot
  · exact .inr (.inl ⟨hups, h.insert_of_upgrades hbeh hups now⟩)
  rw [ActiveElectionsContainer.insert]
  split
  · next hstop =>
    exact .inr (.inr ⟨fun hs => (by cases hs.1.symm.trans hstop), hups, _, rfl⟩)
  next hstop =>
  split
  · next hrec =>
    exact .inr (.inr ⟨fun hs => (by cases hs.2.1.symm.trans hrec), hups, _, rfl⟩)
  next hrec =>
  rw [tryUpgradePriorityElection, tryUpgradeToPriorityElection]
  cases hget : aec.roots.get request.block.block.qualifiedRoot with
  | none =>
    exact .inl ⟨⟨Bool.eq_false_of_not_eq_true hstop, Bool.eq_false_of_not_eq_true hrec, hget⟩, rfl⟩
  | some entry =>
    refine .inr (.inr ⟨fun hs => (by cases hs.2.2.symm.trans hget), hups, .duplicate, ?_⟩)
    have hkept : entry.election.behavior = .priority ∨ entry.election.behavior = .manual := by
      by_contra hother
      exact hups ⟨Bool.eq_false_of_not_eq_true hstop, Bool.eq_false_of_not_eq_true hrec,
        entry, hget, not_or.mp hother⟩
    dsimp only
    rw [if_neg (not_not.mpr hbeh), maybeUpgradeTo, if_neg (fun hne => hne rfl), if_pos hkept]
    rfl

/-! ### What an eviction does -/

/-- Only the election of one root is gone. -/
structure Evicts (aec aec' : ActiveElectionsContainer) (evicted : QualifiedRoot) : Prop where
  byRoot : aec'.roots.byRoot = aec.roots.byRoot.del evicted
  stopped : aec'.stopped = aec.stopped
  recentlyConfirmed : aec'.recentlyConfirmed = aec.recentlyConfirmed
  baseLatency : aec'.baseLatency = aec.baseLatency

/-- An erased election is gone, and nothing else. -/
theorem evicts_of_erase {r : ActiveElectionsContainer × Bool} {entry : Entry}
    (hget : aec.roots.byRoot.get root = some entry) (hok : aec.erase root = .ok r) :
    aec.Evicts r.1 root := by
  rw [erase, RootContainer.erase, hget] at hok
  obtain ⟨aec1, hclean, hr⟩ := bind_eq_ok.mp hok
  cases hr
  rw [cleanupElection, decreaseCount] at hclean
  split at hclean
  · cases hclean
  · cases hclean
    exact ⟨rfl, rfl, rfl, rfl⟩

/-- The last election of a bucket makes place. -/
theorem Counted.eraseLowestPrioElection (h : aec.Counted rootOf []) {bucketId : Fin bucketCount}
    {time : TimePriority} (hlow : aec.roots.lowestPriority bucketId = some (root, time)) :
    ∃ aec' entry, aec.eraseLowestPrioElection bucketId = .ok aec' ∧ aec'.Counted rootOf [] ∧
      aec.Evicts aec' root ∧ aec.roots.get root = some entry ∧ entry.bucket = bucketId ∧
      entry.priority.time = time := by
  have hlast := hlow
  rw [lowestPriority, map_eq_some_iff] at hlast
  obtain ⟨x, hx, heq⟩ := hlast
  cases heq
  obtain ⟨entry, hget, hprio, hbkt⟩ := h.coherent.bucketed.mp (List.mem_of_getLast? hx)
  obtain ⟨r, hok, hcnt⟩ := h.erase x.root
  refine ⟨r.1, entry, ?_, hcnt, evicts_of_erase hget hok, hget, hbkt, by rw [hprio]⟩
  rw [eraseLowestPrioElection, hlow]
  exact map_eq_ok.mpr ⟨r, hok, rfl⟩

namespace Evicts

variable {aec' : ActiveElectionsContainer} {evicted : QualifiedRoot} (h : aec.Evicts aec' evicted)

include h

theorem get_of_ne (hne : root ≠ evicted) : aec'.roots.get root = aec.roots.get root := by
  rw [RootContainer.get, h.byRoot, Table.get_del, if_neg hne]
  rfl

theorem get_self : aec'.roots.get evicted = none := by
  rw [RootContainer.get, h.byRoot, Table.get_del, if_pos rfl]

/-- What a request for another root does is the same as before. -/
theorem starts_iff (hne : root ≠ evicted) : aec'.Starts root ↔ aec.Starts root := by
  rw [Starts, Starts, h.stopped, h.recentlyConfirmed, h.get_of_ne hne]

theorem upgrades_iff (hne : root ≠ evicted) : aec'.Upgrades root ↔ aec.Upgrades root := by
  rw [Upgrades, Upgrades, h.stopped, h.recentlyConfirmed, h.get_of_ne hne]

end Evicts

end ActiveElectionsContainer

namespace Bucket

variable {rootOf : BlockHash → QualifiedRoot} {bucket : Bucket}
  {aec aec' : ActiveElectionsContainer} {now : Timestamp}

/-! ### All or nothing -/

/-- An election is started for a waiting block. At most one election is gone, which has a lower
priority and was in the bucket when it was full. -/
structure Started (bucket : Bucket) (now : Timestamp) (aec aec' : ActiveElectionsContainer)
    (candidate : BlockEntry) : Prop where
  fresh : aec.roots.get candidate.root = none
  started : aec'.roots.get candidate.root = some ⟨candidate.root,
    new candidate.block .priority aec.baseLatency now, candidate.priority⟩
  others : (∀ root, root ≠ candidate.root → aec'.roots.get root = aec.roots.get root) ∨
    ∃ evicted entry, aec.roots.get evicted = some entry ∧ entry.bucket = bucket.bucketId ∧
      bucket.Full aec ∧ entry.priority.time.cmp candidate.priority.time = .lt ∧
      aec'.roots.get evicted = none ∧
      ∀ root, root ≠ candidate.root → root ≠ evicted → aec'.roots.get root = aec.roots.get root

/-- The container is unchanged, or an election is started for one waiting block. -/
def AllOrNothing (bucket : Bucket) (now : Timestamp) (aec aec' : ActiveElectionsContainer) :
    Prop :=
  aec' = aec ∨ ∃ candidate ∈ bucket.blockQueue.byPriority, bucket.Started now aec aec' candidate

/-- If the best block is available, then its election is already in the bucket, or it can be
started, or no other election has to make place and none is upgraded. -/
def Safe (bucket : Bucket) (aec : ActiveElectionsContainer) : Prop :=
  ∀ top, bucket.blockQueue.highestPrio = some top → bucket.available aec = true →
    aec.roots.findBucket top.root = some bucket.bucketId ∨ aec.Starts top.root ∨
      (¬ bucket.Full aec ∧ ¬ aec.Upgrades top.root)

/-- A container that is changed without a new root is neither. -/
theorem not_allOrNothing (hroots : ∀ root, aec.roots.get root = none → aec'.roots.get root = none)
    (hne : aec' ≠ aec) : ¬ bucket.AllOrNothing now aec aec' := by
  rintro (heq | ⟨candidate, -, hst⟩)
  · exact hne heq
  · cases hst.started.symm.trans (hroots _ hst.fresh)

variable {top : BlockEntry}

/-- What the container is after making place for a block: unchanged if there is room, else without
an election of lower priority. -/
inductive MadePlace (bucket : Bucket) (aec : ActiveElectionsContainer) (top : BlockEntry) :
    ActiveElectionsContainer → Prop
  | room (hroom : ¬ bucket.Full aec) : MadePlace bucket aec top aec
  | evicted {aec' : ActiveElectionsContainer} {evicted : QualifiedRoot} {entry : Entry}
    (hfull : bucket.Full aec) (hevicts : aec.Evicts aec' evicted)
    (hget : aec.roots.get evicted = some entry) (hbkt : entry.bucket = bucket.bucketId)
    (hlower : entry.priority.time.cmp top.priority.time = .lt) (hne : top.root ≠ evicted) :
    MadePlace bucket aec top aec'

namespace MadePlace

variable {top : BlockEntry} {aec1 : ActiveElectionsContainer} (h : bucket.MadePlace aec top aec1)

include h

theorem starts_iff : aec1.Starts top.root ↔ aec.Starts top.root := by
  cases h with
  | room => exact Iff.rfl
  | evicted _ hevicts _ _ _ hne => exact hevicts.starts_iff hne

theorem upgrades_iff : aec1.Upgrades top.root ↔ aec.Upgrades top.root := by
  cases h with
  | room => exact Iff.rfl
  | evicted _ hevicts _ _ _ hne => exact hevicts.upgrades_iff hne

theorem get_top : aec1.roots.get top.root = aec.roots.get top.root := by
  cases h with
  | room => rfl
  | evicted _ hevicts _ _ _ hne => exact hevicts.get_of_ne hne

/-- No root is new. -/
theorem get_none {root : QualifiedRoot} (hroot : aec.roots.get root = none) :
    aec1.roots.get root = none := by
  cases h with
  | room => exact hroot
  | @evicted _ gone _ _ hevicts _ _ _ _ =>
    by_cases hgone : root = gone
    · rw [hgone]
      exact hevicts.get_self
    · rw [hevicts.get_of_ne hgone]
      exact hroot

/-- Starting the election of the block is all or nothing. -/
theorem started (hbegs : aec.Starts top.root) :
    bucket.Started now aec
      (aec1.insertNewElection ⟨top.block, .priority, top.priority⟩ now) top := by
  have hget : ∀ root, (aec1.insertNewElection ⟨top.block, .priority, top.priority⟩ now).roots.get
      root = if root = top.root then some ⟨top.root,
        new top.block .priority aec1.baseLatency now, top.priority⟩
      else aec1.roots.get root := fun root => Table.get_put _ _ _ _
  have hlatency : aec1.baseLatency = aec.baseLatency := by
    cases h with
    | room => rfl
    | evicted _ hevicts => exact hevicts.baseLatency
  refine ⟨hbegs.2.2, by rw [hget, if_pos rfl, hlatency], ?_⟩
  cases h with
  | room => exact .inl fun root hne => by rw [hget, if_neg hne]
  | @evicted _ gone entry hfull hevicts hent hbkt hlower hne =>
    refine .inr ⟨gone, entry, hent, hbkt, hfull, hlower, ?_, ?_⟩
    · rw [hget, if_neg (Ne.symm hne), hevicts.get_self]
    · intro root hroot hgone
      rw [hget, if_neg hroot, hevicts.get_of_ne hgone]

/-- After a refusal it was all or nothing only if nothing had to make place. -/
theorem allOrNothing_of_refused (hbegs : ¬ aec.Starts top.root) (hups : ¬ aec.Upgrades top.root) :
    bucket.AllOrNothing now aec aec1 ↔
      aec.Starts top.root ∨ (¬ bucket.Full aec ∧ ¬ aec.Upgrades top.root) := by
  have hroots : ∀ root, aec.roots.get root = none → aec1.roots.get root = none :=
    fun _ hroot => h.get_none hroot
  cases h with
  | room hroom => exact iff_of_true (.inl rfl) (.inr ⟨hroom, hups⟩)
  | @evicted _ gone entry hfull hevicts hget =>
    refine iff_of_false (not_allOrNothing hroots ?_) ?_
    · rintro rfl
      cases hevicts.get_self.symm.trans hget
    · rintro (hs | ⟨hroom, -⟩)
      · exact hbegs hs
      · exact hroom hfull

/-- An upgrade is neither nothing nor the start of an election. -/
theorem allOrNothing_of_upgraded (hups : aec.Upgrades top.root)
    (hup : aec1.IsUpgraded aec' top.root) :
    bucket.AllOrNothing now aec aec' ↔
      aec.Starts top.root ∨ (¬ bucket.Full aec ∧ ¬ aec.Upgrades top.root) := by
  obtain ⟨entry, hget, hbeh, hroots⟩ := hup
  have hget' : ∀ root, aec'.roots.get root = if root = top.root then
      some { entry with election := { entry.election with behavior := .priority } }
      else aec1.roots.get root := by
    intro root
    rw [RootContainer.get, hroots]
    exact Table.get_put _ _ _ _
  have hsome : aec.roots.get top.root = some entry := h.get_top.symm.trans hget
  refine iff_of_false (not_allOrNothing ?_ ?_) ?_
  · intro root hroot
    have hne : root ≠ top.root := fun heq => by cases (heq ▸ hroot).symm.trans hsome
    rw [hget', if_neg hne, h.get_none hroot]
  · rintro rfl
    have heq := (hget' top.root).symm.trans hsome
    rw [if_pos rfl, some_inj] at heq
    exact hbeh (congrArg (fun e : Entry => e.election.behavior) heq).symm
  · rintro (hbegs | ⟨-, hnot⟩)
    · cases hbegs.2.2.symm.trans hsome
    · exact hnot hups

end MadePlace

/-- Only a bucket with a block is available. -/
theorem exists_top (havailable : bucket.available aec = true) :
    ∃ top, bucket.blockQueue.highestPrio = some top := by
  cases htop : bucket.blockQueue.highestPrio with
  | none =>
    rw [available, htop] at havailable
    cases havailable
  | some top => exact ⟨top, rfl⟩

section

variable (htop : bucket.blockQueue.highestPrio = some top)
    (havailable : bucket.available aec = true)

include htop havailable

/-- A full bucket is available only if its last election has a lower priority. -/
theorem lowestPriority_of_full (hfull : bucket.Full aec) :
    ∃ root time,
      aec.roots.lowestPriority bucket.bucketId = some (root, time) ∧
        time.cmp top.priority.time = .lt := by
  rw [available, htop] at havailable
  dsimp only at havailable
  split at havailable
  · next hreprioritize =>
    obtain ⟨⟨root, time⟩, hlow, hgt⟩ := (any_eq_true _ _).mp hreprioritize
    exact ⟨root, time, hlow, Std.OrientedCmp.lt_of_gt (of_decide_eq_true hgt)⟩
  · cases havailable

theorem activate_of_found (hfound : aec.roots.findBucket top.root = some bucket.bucketId)
    (now : Timestamp) : ∃ bucket', bucket.activate aec now = .ok (bucket', aec) := by
  rw [activate, if_neg (ne_false_of_eq_true havailable), OrderedBlocks.popHighestPrio,
    show bucket.blockQueue.byPriority.getLast? = some top from htop, map_some]
  dsimp only
  rw [if_pos hfound]
  exact ⟨_, rfl⟩

section

variable (hother : aec.roots.findBucket top.root ≠ some bucket.bucketId)

include hother

/-- Making place does not panic. -/
theorem madePlace (h : aec.Counted rootOf []) :
    ∃ aec1, bucket.makePlace aec = .ok aec1 ∧ aec1.Counted rootOf [] ∧
      bucket.MadePlace aec top aec1 := by
  rw [makePlace]
  by_cases hfull : bucket.Full aec
  · rw [if_pos hfull]
    obtain ⟨root, time, hlow, hlower⟩ := lowestPriority_of_full htop havailable hfull
    obtain ⟨aec1, entry, hok, hcnt, hevicts, hget, hbkt, rfl⟩ := h.eraseLowestPrioElection hlow
    refine ⟨aec1, hok, hcnt, .evicted hfull hevicts hget hbkt hlower ?_⟩
    rintro rfl
    refine hother ?_
    rw [findBucket, show aec.roots.byRoot.get _ = _ from hget, map_some, hbkt]
  · rw [if_neg hfull]
    exact ⟨aec, rfl, h, .room hfull⟩

/-- Else the result is that of making place and of the insertion. -/
theorem activate_of_insert {aec1 aec2 : ActiveElectionsContainer}
    {result : Except AecInsertError Unit} (hplace : bucket.makePlace aec = .ok aec1)
    (hins : aec1.insert ⟨top.block, .priority, top.priority⟩ now = .ok (aec2, result)) :
    ∃ bucket', bucket.activate aec now = .ok (bucket', aec2) := by
  rw [activate, if_neg (ne_false_of_eq_true havailable), OrderedBlocks.popHighestPrio,
    show bucket.blockQueue.byPriority.getLast? = some top from htop, map_some]
  dsimp only
  rw [if_neg hother, hplace]
  change ∃ bucket', (aec1.insert _ now >>= _) = _
  rw [hins]
  exact ⟨_, rfl⟩

/-- An activation that goes on to the insertion does not panic, and is all or nothing exactly if
the election was started, or nothing made place and nothing was upgraded. -/
theorem activate_of_other (h : aec.Counted rootOf []) (now : Timestamp) :
    ∃ bucket' aec', bucket.activate aec now = .ok (bucket', aec') ∧
      (bucket.AllOrNothing now aec aec' ↔
        aec.Starts top.root ∨ (¬ bucket.Full aec ∧ ¬ aec.Upgrades top.root)) := by
  obtain ⟨aec1, hplace, hcnt, hmade⟩ := madePlace htop havailable hother h
  have hmem : top ∈ bucket.blockQueue.byPriority := List.mem_of_getLast? htop
  rcases hcnt.insert_cases ⟨top.block, .priority, top.priority⟩ rfl now with
    ⟨hbegs, hins⟩ | ⟨hups, aec2, hins, hup⟩ |
    ⟨hbegs, hups, error, hins⟩
  · obtain ⟨bucket', hact⟩ := activate_of_insert htop havailable hother hplace hins
    have hbegs' := hmade.starts_iff.mp hbegs
    exact ⟨bucket', _, hact, iff_of_true (.inr ⟨top, hmem, hmade.started hbegs'⟩) (.inl hbegs')⟩
  · obtain ⟨bucket', hact⟩ := activate_of_insert htop havailable hother hplace hins
    exact ⟨bucket', aec2, hact, hmade.allOrNothing_of_upgraded (hmade.upgrades_iff.mp hups) hup⟩
  · obtain ⟨bucket', hact⟩ := activate_of_insert htop havailable hother hplace hins
    exact ⟨bucket', aec1, hact, hmade.allOrNothing_of_refused
      (fun hs => hbegs (hmade.starts_iff.mpr hs))
      (fun hu => hups (hmade.upgrades_iff.mpr hu))⟩

end

/-- A container that was stopped stays as it is. -/
theorem activate_of_emptied (h : aec.Emptied) (now : Timestamp) :
    ¬ bucket.Full aec ∧ ∃ bucket', bucket.activate aec now = .ok (bucket', aec) := by
  have hroom : ¬ bucket.Full aec := by
    intro hfull
    obtain ⟨root, time, hlow, -⟩ := lowestPriority_of_full htop havailable hfull
    rw [lowestPriority, h.buckets] at hlow
    cases hlow
  have hother : aec.roots.findBucket top.root ≠ some bucket.bucketId := by
    simp [findBucket, h.get]
  have hins : aec.insert ⟨top.block, .priority, top.priority⟩ now = .ok (aec, .error .stopped) := by
    rw [ActiveElectionsContainer.insert, if_pos h.stopped]
  exact ⟨hroom, activate_of_insert htop havailable hother (if_neg hroom) hins⟩

end

/-- An activation of a reachable container is all or nothing exactly if the bucket is safe. -/
theorem activate_allOrNothing_iff {debugAssertions : Bool}
    {confirmationCache maxElections baseLatency : ℕ}
    (hrun : Run debugAssertions rootOf (fun _ _ => True)
      (.new confirmationCache maxElections baseLatency) aec) (bucket : Bucket) (now : Timestamp) :
    ∃ bucket' aec', bucket.activate aec now = .ok (bucket', aec') ∧
      (bucket.AllOrNothing now aec aec' ↔ bucket.Safe aec) := by
  by_cases havailable : bucket.available aec = true
  swap
  · exact ⟨bucket, aec, if_pos (Bool.eq_false_of_not_eq_true havailable),
      iff_of_true (.inl rfl) fun _ _ hav => absurd hav havailable⟩
  obtain ⟨top, htop⟩ := exists_top havailable
  have hsafe : bucket.Safe aec ↔ aec.roots.findBucket top.root = some bucket.bucketId ∨
      aec.Starts top.root ∨ (¬ bucket.Full aec ∧ ¬ aec.Upgrades top.root) := by
    constructor
    · intro h
      exact h top htop havailable
    · intro h best hbest _
      cases htop.symm.trans hbest
      exact h
  rw [hsafe]
  rcases run_counted_or_emptied hrun with h | h
  · by_cases hother : aec.roots.findBucket top.root = some bucket.bucketId
    · obtain ⟨bucket', hactivate⟩ := activate_of_found htop havailable hother now
      exact ⟨bucket', aec, hactivate, iff_of_true (.inl rfl) (.inl hother)⟩
    · rw [or_iff_right hother]
      exact activate_of_other htop havailable hother h now
  · obtain ⟨hroom, bucket', hactivate⟩ := activate_of_emptied htop havailable h now
    refine ⟨bucket', aec, hactivate, iff_of_true (.inl rfl) (.inr (.inr ⟨hroom, ?_⟩))⟩
    exact fun hupgrades => nomatch hupgrades.1.symm.trans h.stopped

open ActiveElectionsContainer

/-- The receive of the dev network's first send, with its sideband. -/
def devSavedOpen : SavedBlock :=
  ⟨.state devOpen, ⟨1, 0, ⟨devKeyOne⟩, 1, ⟨.epoch0, false, true, false⟩, .epoch0⟩⟩

/-- A bucket in which one block waits. -/
def devWaiting (reservedElections : ℕ) (block : SavedBlock) : Bucket where
  config := ⟨reservedElections⟩
  blockQueue := ⟨[block.hash], [⟨⟨1, ⟨0⟩⟩, block⟩]⟩
  bucketId := bucketIndex .priority 1

/-- With room in the bucket the election of the receive is started. -/
theorem activate_devWaiting :
    (devWaiting 10 devSavedOpen).available devStarted = true ∧
      ∃ bucket' aec', (devWaiting 10 devSavedOpen).activate devStarted 0 = .ok (bucket', aec') ∧
        (devWaiting 10 devSavedOpen).AllOrNothing 0 devStarted aec' := by
  have hsafe : (devWaiting 10 devSavedOpen).Safe devStarted := by
    intro top htop _
    cases htop
    refine .inr (.inl ⟨by decide +kernel, by decide +kernel, ?_⟩)
    exact isNone_iff_eq_none.mp (by decide +kernel)
  have hrun : Run true devRootOf (fun _ _ => True) (new 10 10 (10 ^ 9)) devStarted :=
    run_devStarted trivial
  obtain ⟨bucket', aec', hactivate, hiff⟩ :=
    activate_allOrNothing_iff hrun (devWaiting 10 devSavedOpen) 0
  exact ⟨by decide +kernel, bucket', aec', hactivate, hiff.mpr hsafe⟩

/-- A final vote for the first send by a representative with a quorum. -/
def devFinalVoteArgs : ApplyVoteArgs :=
  ⟨⟨⟨1⟩, .final, [devSend.hash], .live, 0⟩, (∅ : Table _ _).put ⟨1⟩ 5, ⟨100, 5⟩, 0⟩

/-- The container when the first send is confirmed. -/
def devSendConfirmed : ActiveElectionsContainer :=
  (Operation.applyVote (fun _ => [⟨1⟩]) devFinalVoteArgs).result devStarted

/-- The container when the first send is confirmed and the election of its receive is started. -/
def devOpenStarted : ActiveElectionsContainer :=
  (Operation.insert ⟨devSavedOpen, .priority, ⟨1, ⟨5⟩⟩⟩ 0).result devSendConfirmed

/-- The roots of the first send and of its receive. -/
def devTwoRootsOf (hash : BlockHash) : QualifiedRoot :=
  if hash = devOpen.hash then devSavedOpen.block.qualifiedRoot else devRootOf hash

/-- The first send can be confirmed before the election of its receive is started. -/
theorem run_devOpenStarted :
    Run true devTwoRootsOf (fun _ _ => True) (new 10 10 (10 ^ 9)) devOpenStarted := by
  have hsend : devTwoRootsOf devSend.hash = devSavedSend.block.qualifiedRoot := by
    decide +kernel
  have hopen : devTwoRootsOf devOpen.hash = devSavedOpen.block.qualifiedRoot := by
    decide +kernel
  have hst : Run true devTwoRootsOf (fun _ _ => True) (new 10 10 (10 ^ 9)) devStarted :=
    Run.result .refl trivial hsend trivial (by decide +kernel)
  have hconf : Run true devTwoRootsOf (fun _ _ => True) (new 10 10 (10 ^ 9))
      devSendConfirmed := hst.result trivial trivial trivial (by decide +kernel)
  exact hconf.result trivial hopen trivial (by decide +kernel)

/-- The election of the receive makes place for the first send, which was confirmed in the
meantime: no election is left. -/
theorem activate_devOpenStarted :
    Run true devTwoRootsOf (fun _ _ => True) (new 10 10 (10 ^ 9)) devOpenStarted ∧
      devOpenStarted.len = 1 ∧ ¬ (devWaiting 1 devSavedSend).Safe devOpenStarted ∧
      ∃ bucket' aec',
        (devWaiting 1 devSavedSend).activate devOpenStarted 0 = .ok (bucket', aec') ∧
        aec'.len = 0 ∧
        ¬ (devWaiting 1 devSavedSend).AllOrNothing 0 devOpenStarted aec' := by
  have hlen : devOpenStarted.len = 1 := by decide +kernel
  have htest : (((devWaiting 1 devSavedSend).activate devOpenStarted 0).toOption.any
      fun r => r.2.len == 0) = true := by decide +kernel
  refine ⟨run_devOpenStarted, hlen, ?_, ?_⟩
  · intro hsafe
    rcases hsafe _ rfl (by decide +kernel) with hfound | ⟨-, hrecent, -⟩ | ⟨hroom, -⟩
    · exact absurd hfound (by decide +kernel)
    · exact absurd hrecent (by decide +kernel)
    · exact hroom (by decide +kernel)
  · cases hok : (devWaiting 1 devSavedSend).activate devOpenStarted 0 with
    | error panic =>
      rw [hok] at htest
      cases htest
    | ok r =>
      rw [hok] at htest
      have hempty : r.2.len = 0 := eq_of_beq htest
      refine ⟨r.1, r.2, rfl, hempty, not_allOrNothing ?_ ?_⟩
      · intro root _
        cases hget : r.2.roots.get root with
        | none => rfl
        | some entry =>
          have hpos : 0 < r.2.len := Table.size_pos_of_get hget
          omega
      · intro heq
        rw [heq] at hempty
        cases hempty

end Bucket

end RsNano
