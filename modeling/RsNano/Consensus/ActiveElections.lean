import RsNano.Consensus.RootContainer

/-!
# The active elections container

The container owns the active elections. It starts elections, applies votes to them, and removes
them when they have ended. Next to the elections it keeps the number of elections of each
behavior and the recently confirmed blocks.

A panic of an election, a counter below zero and a forced confirmation without election are
errors. Events and statistics are left out, and so is everything that is only sent with them.
Where the source iterates over a hash map the order of the iteration is an argument.
-/

namespace RsNano

/-! ### Votes -/

inductive VoteError
  | invalid
  | replay
  | vote
  | late
  | indeterminate
  | ignored
  deriving DecidableEq, Repr

inductive VoteSource
  | live
  | rebroadcast
  | cache
  deriving DecidableEq, Repr

/-- The timestamp of a vote, with the duration in the low bits. -/
structure VoteTimestamp where
  value : BitVec 64
  deriving DecidableEq, Repr

namespace VoteTimestamp

def final : VoteTimestamp := ⟨BitVec.allOnes 64⟩

def timestampMask : BitVec 64 := 0xFFFFFFFFFFFFFFF0

def isFinal (t : VoteTimestamp) : Bool := t = final

/-- The timestamp without the duration, unless the vote is final. -/
def unixTimestamp (t : VoteTimestamp) : UnixMillisTimestamp :=
  if t.isFinal then t.value else t.value &&& timestampMask

end VoteTimestamp

/-- A vote where only one given block hash is counted, all if it is zero. -/
structure FilteredVote where
  voter : PublicKey
  voteTimestamp : VoteTimestamp
  hashes : List BlockHash
  source : VoteSource
  filter : BlockHash
  deriving DecidableEq

namespace FilteredVote

variable (vote : FilteredVote)

def timestamp : UnixMillisTimestamp := vote.voteTimestamp.unixTimestamp

def isFinal : Bool := vote.voteTimestamp.isFinal

def filteredBlocks : List BlockHash :=
  vote.hashes.filter fun h => if vote.filter = 0 then true else h = vote.filter

end FilteredVote

namespace VoteSummary

/-- `ensure_no_replay`. -/
def isReplay (last : VoteSummary) (newVote : FilteredVote) (blockHash : BlockHash) : Bool :=
  newVote.timestamp < last.voteCreated ||
    last.voteCreated = newVote.timestamp && blockHash.number ≤ last.hash.number

def hasSwitchedToFinalVote (last : VoteSummary) (newVote : FilteredVote) : Bool :=
  newVote.isFinal && last.voteCreated < newVote.timestamp

end VoteSummary

structure QuorumSpecs where
  onlineWeight : Amount
  quorumDelta : Amount
  deriving DecidableEq, Repr

/-- The minimum delay between two votes of a representative, in nanoseconds. -/
def QuorumSpecs.cooldownTime (specs : QuorumSpecs) (repWeight : Amount) : ℕ :=
  if specs.onlineWeight / 20 < repWeight then 10 ^ 9
  else if specs.onlineWeight / 100 < repWeight then 5 * 10 ^ 9
  else 15 * 10 ^ 9

structure ApplyVoteArgs where
  vote : FilteredVote
  repWeights : Table PublicKey Amount
  quorumSpecs : QuorumSpecs
  now : Timestamp

/-! ### Recently confirmed blocks -/

structure RecentlyConfirmedCache where
  byRoot : Table QualifiedRoot BlockHash
  byHash : Table BlockHash QualifiedRoot
  sequential : List BlockHash
  maxLen : ℕ
  deriving DecidableEq

namespace RecentlyConfirmedCache

def new (maxLen : ℕ) : RecentlyConfirmedCache := ⟨∅, ∅, [], maxLen⟩

variable (cache : RecentlyConfirmedCache)

/-- Drop the oldest hash if there are too many. -/
def trim : RecentlyConfirmedCache :=
  if cache.maxLen < cache.sequential.length then
    match cache.sequential with
    | [] => cache
    | oldHash :: sequential =>
      match cache.byHash.get oldHash with
      | none => { cache with sequential }
      | some oldRoot =>
        { cache with
          sequential
          byHash := cache.byHash.del oldHash
          byRoot := cache.byRoot.del oldRoot }
  else cache

def put (root : QualifiedRoot) (hash : BlockHash) : RecentlyConfirmedCache :=
  if cache.byHash.contains hash || cache.byRoot.contains root then cache
  else
    { cache with
      sequential := cache.sequential ++ [hash]
      byRoot := cache.byRoot.put root hash
      byHash := cache.byHash.put hash root : RecentlyConfirmedCache }.trim

def erase (hash : BlockHash) : RecentlyConfirmedCache :=
  match cache.byHash.get hash with
  | none => cache
  | some root =>
    { cache with
      byHash := cache.byHash.del hash
      byRoot := cache.byRoot.del root
      sequential := cache.sequential.filter fun i => i ≠ hash }

def rootExists (root : QualifiedRoot) : Bool := cache.byRoot.contains root

def hashExists (hash : BlockHash) : Bool := cache.byHash.contains hash

def clear : RecentlyConfirmedCache := { cache with sequential := [], byRoot := ∅, byHash := ∅ }

end RecentlyConfirmedCache

/-! ### Votes for one election -/

/-- The places where the container can panic. -/
inductive AecPanic
  | election (panic : ElectionPanic)
  | countUnderflow
  | noElection
  deriving DecidableEq, Repr

namespace ApplyVoteArgs

variable (args : ApplyVoteArgs)

def shouldCoolDown (lastVote : VoteSummary) (repWeight : Amount) : Bool :=
  if args.vote.source = .cache then false
  else if lastVote.hasSwitchedToFinalVote args.vote then false
  else lastVote.voteReceived.elapsed args.now < args.quorumSpecs.cooldownTime repWeight

/-- Why a vote for a block of an election is not counted. -/
def refusal (e : Election) (blockHash : BlockHash) : Option VoteError :=
  if e.isConfirmed then some .late
  else
    match e.votes.get args.vote.voter with
    | none => none
    | some lastVote =>
      if lastVote.isReplay args.vote blockHash then some .replay
      else if args.shouldCoolDown lastVote ((args.repWeights.get args.vote.voter).getD 0) then
        some .ignored
      else none

/-- Count a vote that is not refused, and confirm the election if there is a quorum. -/
def addVote (debugAssertions : Bool) (order : List PublicKey) (cache : RecentlyConfirmedCache)
    (e : Election) (blockHash : BlockHash) :
    Except ElectionPanic (Election × RecentlyConfirmedCache) := do
  let e ← e.addVote debugAssertions args.vote.voter blockHash args.vote.timestamp args.now
  let e ← e.updateTallies order args.repWeights args.quorumSpecs.quorumDelta
  if e.isFinal && e.isConfirmed then return (e, cache.put e.qualifiedRoot e.winner.hash)
  else return (e, cache)

/-- `ApplyVoteToElectionHelper::apply_vote`. -/
def applyToElection (debugAssertions : Bool) (order : List PublicKey)
    (cache : RecentlyConfirmedCache) (e : Election) (blockHash : BlockHash) :
    Except ElectionPanic (Election × RecentlyConfirmedCache × Except VoteError Unit) :=
  match args.refusal e blockHash with
  | some error => .ok (e, cache, .error error)
  | none => do
    let (e, cache) ← args.addVote debugAssertions order cache e blockHash
    return (e, cache, .ok ())

end ApplyVoteArgs

/-! ### Votes for all elections -/

/-- What `ApplyVoteHelper` changes, and its result. -/
structure VoteProgress where
  roots : RootContainer
  recentlyConfirmed : RecentlyConfirmedCache
  perBlock : Table BlockHash (Except VoteError Unit)
  confirmed : List Entry

namespace VoteProgress

/-- Take a confirmed election out of the container. -/
def eraseIfConfirmed (p : VoteProgress) (e : Election) : VoteProgress :=
  if e.isConfirmed then
    match p.roots.erase e.qualifiedRoot with
    | (roots, some entry) => { p with roots, confirmed := p.confirmed ++ [entry] }
    | (roots, none) => { p with roots }
  else p

/-- One iteration of `ApplyVoteHelper::apply_vote`. -/
def applyVote (debugAssertions : Bool) (args : ApplyVoteArgs) (order : BlockHash → List PublicKey)
    (p : VoteProgress) (blockHash : BlockHash) : Except ElectionPanic VoteProgress :=
  if p.perBlock.contains blockHash then .ok p
  else
    match p.roots.entryForBlock blockHash with
    | some (root, entry) => do
      let (e, cache, result) ← args.applyToElection debugAssertions (order blockHash)
        p.recentlyConfirmed entry.election blockHash
      let applied : VoteProgress :=
        { p with
          roots := p.roots.setElection root entry e
          recentlyConfirmed := cache
          perBlock := p.perBlock.put blockHash result }
      return applied.eraseIfConfirmed e
    | none =>
      let error : VoteError :=
        if p.recentlyConfirmed.hashExists blockHash then .late else .indeterminate
      .ok { p with perBlock := p.perBlock.put blockHash (.error error) }

end VoteProgress

/-! ### The container -/

inductive AecCooldownReason
  | confirmingSetFull
  | aecEventQueueFull
  deriving DecidableEq, Repr

structure CooldownController where
  sourceStates : AecCooldownReason → Bool
  coolDown : Bool

def CooldownController.setCooldown (controller : CooldownController) (coolDown : Bool)
    (reason : AecCooldownReason) : CooldownController :=
  let sourceStates := Function.update controller.sourceStates reason coolDown
  ⟨sourceStates, sourceStates .confirmingSetFull || sourceStates .aecEventQueueFull⟩

inductive AecInsertError
  | stopped
  | recentlyConfirmed
  | duplicate
  deriving DecidableEq, Repr

structure ActiveElectionsContainer where
  roots : RootContainer
  stopped : Bool
  countByBehavior : ElectionBehavior → ℕ
  baseLatency : ℕ
  recentlyConfirmed : RecentlyConfirmedCache
  cooldown : CooldownController
  maxElections : ℕ

namespace ActiveElectionsContainer

def new (confirmationCache maxElections baseLatency : ℕ) : ActiveElectionsContainer where
  roots := .new
  stopped := false
  countByBehavior := fun _ => 0
  baseLatency := baseLatency
  recentlyConfirmed := .new confirmationCache
  cooldown := ⟨fun _ => false, false⟩
  maxElections := maxElections

variable (aec : ActiveElectionsContainer)

def increaseCount (behavior : ElectionBehavior) : ActiveElectionsContainer :=
  { aec with
    countByBehavior :=
      Function.update aec.countByBehavior behavior (aec.countByBehavior behavior + 1) }

def decreaseCount (behavior : ElectionBehavior) : Except AecPanic ActiveElectionsContainer :=
  if aec.countByBehavior behavior = 0 then .error .countUnderflow
  else .ok { aec with
    countByBehavior :=
      Function.update aec.countByBehavior behavior (aec.countByBehavior behavior - 1) }

/-- Returns whether an election was upgraded, unless it is a duplicate. -/
def tryUpgradePriorityElection (request : AecInsertRequest) :
    Except AecPanic (ActiveElectionsContainer × Except AecInsertError Bool) :=
  match aec.roots.tryUpgradeToPriorityElection request with
  | (roots, true, some previousBehavior) => do
    let aec ← { aec with roots : ActiveElectionsContainer }.decreaseCount previousBehavior
    return (aec.increaseCount request.behavior, .ok true)
  | (_, _, some _) => .ok (aec, .error .duplicate)
  | (_, _, none) => .ok (aec, .ok false)

def insertNewElection (request : AecInsertRequest) (now : Timestamp) : ActiveElectionsContainer :=
  let election := Election.new request.block request.behavior aec.baseLatency now
  let roots := aec.roots.insert ⟨request.block.block.qualifiedRoot, election, request.priority⟩
  { aec with roots : ActiveElectionsContainer }.increaseCount request.behavior

def insert (request : AecInsertRequest) (now : Timestamp) :
    Except AecPanic (ActiveElectionsContainer × Except AecInsertError Unit) :=
  if aec.stopped then .ok (aec, .error .stopped)
  else if aec.recentlyConfirmed.rootExists request.block.block.qualifiedRoot then
    .ok (aec, .error .recentlyConfirmed)
  else do
    match ← aec.tryUpgradePriorityElection request with
    | (aec, .error error) => return (aec, .error error)
    | (aec, .ok true) => return (aec, .ok ())
    | (aec, .ok false) => return (aec.insertNewElection request now, .ok ())

/-- Change the election of a root, if there is one. -/
def modifyElection (root : QualifiedRoot) (f : Election → Election) : ActiveElectionsContainer :=
  match aec.roots.get root with
  | some entry => { aec with roots := aec.roots.setElection root entry (f entry.election) }
  | none => aec

def setLastVoted (root : QualifiedRoot) (voteType : VoteType) (timestamp : Timestamp) :
    ActiveElectionsContainer :=
  aec.modifyElection root fun e => e.voted voteType timestamp

/-- Adjust the vote router to the result of adding a fork. -/
def routeFork (fork : Block) (result : AddForkResult) : ActiveElectionsContainer × Bool :=
  let connect (router : VoteRouter) : ActiveElectionsContainer :=
    { aec with
      roots := { aec.roots with voteRouter := router.connect fork.hash fork.qualifiedRoot } }
  match result with
  | .added => (connect aec.roots.voteRouter, true)
  | .replaced removed => (connect (aec.roots.voteRouter.disconnect removed.hash), true)
  | .tallyTooLow => (aec, false)
  | .duplicate => (aec, false)
  | .electionEnded => (aec, false)

def tryAddFork (order : List BlockHash) (fork : Block) (forkTally : Amount) :
    Except AecPanic (ActiveElectionsContainer × Bool) :=
  match aec.roots.get fork.qualifiedRoot with
  | none => .ok (aec, false)
  | some entry => do
    let (e, result) ← (entry.election.tryAddFork order fork forkTally).mapError .election
    let roots := aec.roots.setElection fork.qualifiedRoot entry e
    return { aec with roots : ActiveElectionsContainer }.routeFork fork result

/-- How many election slots are available. -/
def vacancy : ℤ := if aec.cooldown.coolDown then 0 else aec.maxElections - aec.roots.len

def setCooldown (coolDown : Bool) (reason : AecCooldownReason) : ActiveElectionsContainer :=
  { aec with cooldown := aec.cooldown.setCooldown coolDown reason }

def stop : ActiveElectionsContainer := { aec with stopped := true, roots := aec.roots.clear }

def isActiveRoot (root : QualifiedRoot) : Bool := (aec.roots.get root).isSome

def isActiveHash (blockHash : BlockHash) : Bool := aec.roots.voteRouter.isActive blockHash

def wasRecentlyConfirmed (blockHash : BlockHash) : Bool :=
  aec.recentlyConfirmed.hashExists blockHash

def clearRecentlyConfirmed : ActiveElectionsContainer :=
  { aec with recentlyConfirmed := aec.recentlyConfirmed.clear }

def removeRecentlyConfirmed (blockHash : BlockHash) : ActiveElectionsContainer :=
  { aec with recentlyConfirmed := aec.recentlyConfirmed.erase blockHash }

def cleanupElection (entry : Entry) : Except AecPanic ActiveElectionsContainer :=
  aec.decreaseCount entry.election.behavior

def eraseEndedElections (order : List QualifiedRoot) : Except AecPanic ActiveElectionsContainer :=
  let (roots, removed) := aec.roots.drainFilter order fun i => i.election.state.hasEnded
  removed.foldlM cleanupElection { aec with roots }

def transitionTime (order : List QualifiedRoot) (now : Timestamp) :
    Except AecPanic ActiveElectionsContainer :=
  let roots := aec.roots.mapElections fun e => e.transitionTime now
  { aec with roots : ActiveElectionsContainer }.eraseEndedElections order

def transitionActive (blockHash : BlockHash) : ActiveElectionsContainer × Bool :=
  match aec.roots.entryForBlock blockHash with
  | some (root, entry) =>
    ({ aec with roots := aec.roots.setElection root entry entry.election.transitionActive }, true)
  | none => (aec, false)

def removeVotes (root : QualifiedRoot) (voters : List PublicKey) : ActiveElectionsContainer :=
  aec.modifyElection root fun e => voters.foldl Election.removeVote e

def erase (root : QualifiedRoot) : Except AecPanic (ActiveElectionsContainer × Bool) :=
  match aec.roots.erase root with
  | (_, none) => .ok (aec, false)
  | (roots, some entry) => do
    let aec ← { aec with roots : ActiveElectionsContainer }.cleanupElection entry
    return (aec, true)

def eraseLowestPrioElection (bucketId : Fin bucketCount) :
    Except AecPanic ActiveElectionsContainer :=
  match aec.roots.lowestPriority bucketId with
  | none => .ok aec
  | some (root, _) => (aec.erase root).map Prod.fst

/-- Confirm or cancel the election that a block confirmed elsewhere belongs to. Of the election
that caused the confirmation only the winner matters. -/
def confirmDependentElection (confirmed : SavedBlock × Option BlockHash) :
    ActiveElectionsContainer :=
  if confirmed.2 = some confirmed.1.hash then aec
  else
    aec.modifyElection confirmed.1.block.qualifiedRoot fun e =>
      if e.winner.hash = confirmed.1.hash then e.forceConfirm.1 else e.cancel

def confirmDependentElections (confirmed : List (SavedBlock × Option BlockHash)) :
    ActiveElectionsContainer :=
  confirmed.foldl confirmDependentElection aec

def applyVote (debugAssertions : Bool) (order : BlockHash → List PublicKey) (args : ApplyVoteArgs) :
    Except AecPanic (ActiveElectionsContainer × Table BlockHash (Except VoteError Unit)) := do
  let start : VoteProgress := ⟨aec.roots, aec.recentlyConfirmed, ∅, []⟩
  let p ← (args.vote.filteredBlocks.foldlM (VoteProgress.applyVote debugAssertions args order)
    start).mapError .election
  let aec ← p.confirmed.foldlM cleanupElection
    { aec with roots := p.roots, recentlyConfirmed := p.recentlyConfirmed }
  return (aec, p.perBlock)

def forceConfirm (blockHash : BlockHash) : Except AecPanic ActiveElectionsContainer :=
  match aec.roots.entryForBlock blockHash with
  | some (root, entry) =>
    .ok { aec with roots := aec.roots.setElection root entry entry.election.forceConfirm.1 }
  | none => .error .noElection

def cancel (root : QualifiedRoot) : ActiveElectionsContainer :=
  aec.modifyElection root Election.cancel

def len : ℕ := aec.roots.len

end ActiveElectionsContainer

end RsNano
