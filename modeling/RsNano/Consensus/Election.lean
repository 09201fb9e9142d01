import RsNano.Consensus.BlockTallies

/-!
# Elections

An election decides between the blocks of one qualified root. The model follows the source
function by function. A failed `unwrap`, an eleventh tally and, in debug builds, a vote for a
block that is not a candidate are errors.

Where the source iterates over a hash map the order of the iteration is an argument. The
multiplication of the base latency is not bounded. What `into_confirmed_election` copies out of
an election is left out, and so are the names of states and behaviors.
-/

namespace RsNano

/-- A block that may or may not be in the ledger. -/
inductive MaybeSavedBlock
  | saved (block : SavedBlock)
  | unsaved (block : Block)
  deriving DecidableEq

namespace MaybeSavedBlock

def block : MaybeSavedBlock → Block
  | saved b => b.block
  | unsaved b => b

def hash (b : MaybeSavedBlock) : BlockHash := b.block.hash

end MaybeSavedBlock

inductive ElectionState
  | passive
  | active
  | confirmed
  | expiredConfirmed
  | expiredUnconfirmed
  | cancelled
  deriving DecidableEq, Repr

namespace ElectionState

def isConfirmed : ElectionState → Bool
  | confirmed => true
  | expiredConfirmed => true
  | _ => false

def hasEnded : ElectionState → Bool
  | passive => false
  | active => false
  | _ => true

end ElectionState

inductive ElectionBehavior
  | manual
  | priority
  | hinted
  | optimistic
  deriving DecidableEq, Repr

/-- The time after which an election expires, in nanoseconds. -/
def ElectionBehavior.timeToLive : ElectionBehavior → ℕ
  | manual => 300 * 10 ^ 9
  | priority => 300 * 10 ^ 9
  | hinted => 30 * 10 ^ 9
  | optimistic => 30 * 10 ^ 9

inductive VoteType
  | nonFinal
  | final
  deriving DecidableEq, Repr

inductive AddForkResult
  | added
  | replaced (removed : MaybeSavedBlock)
  | tallyTooLow
  | duplicate
  | electionEnded
  deriving DecidableEq

structure Election where
  qualifiedRoot : QualifiedRoot
  winner : MaybeSavedBlock
  state : ElectionState
  candidateBlocks : Table BlockHash MaybeSavedBlock
  votes : Table PublicKey VoteSummary
  winnerTally : Amount
  winnerFinalTally : Amount
  tallies : BlockTallies
  finalTallies : BlockTallies
  behavior : ElectionBehavior
  hasQuorum : Bool
  start : Timestamp
  baseLatency : ℕ
  account : Account
  lastFinalVote : Option Timestamp
  lastNonFinalVote : Option Timestamp
  lastVotedWinner : BlockHash
  deriving DecidableEq

namespace Election

def passiveDurationFactor : ℕ := 5

def new (block : SavedBlock) (behavior : ElectionBehavior) (baseLatency : ℕ) (now : Timestamp) :
    Election where
  qualifiedRoot := block.block.qualifiedRoot
  votes := ∅
  candidateBlocks := (∅ : Table _ _).put block.hash (.saved block)
  state := .passive
  tallies := .new
  finalTallies := .new
  winnerTally := 0
  winnerFinalTally := 0
  behavior := behavior
  hasQuorum := false
  start := now
  baseLatency := baseLatency
  account := block.account
  winner := .saved block
  lastVotedWinner := 0
  lastNonFinalVote := none
  lastFinalVote := none

variable (e : Election)

def containsBlock (hash : BlockHash) : Bool := e.candidateBlocks.contains hash

def blockCount : ℕ := e.candidateBlocks.size

def hasMaxBlocks : Bool := maxBlocks ≤ e.blockCount

/-- Remove a candidate with its votes and tallies, unless it is the winner. -/
def removeBlock (hash : BlockHash) : Election × Option MaybeSavedBlock :=
  if e.winner.hash ≠ hash then
    match e.candidateBlocks.get hash with
    | some existing =>
      ({ e with
          candidateBlocks := e.candidateBlocks.del hash
          votes := e.votes.retain fun _ vote => vote.hash ≠ hash
          tallies := e.tallies.remove hash
          finalTallies := e.finalTallies.remove hash }, some existing)
    | none => (e, none)
  else (e, none)

/-- The first candidate without tally that is not the winner, zero if there is none. -/
def blockWithoutTally (order : List BlockHash) : BlockHash :=
  if e.tallies.len < maxBlocks then
    (order.find? fun hash => e.tallies.contains hash = false ∧ hash ≠ e.winner.hash).getD 0
  else 0

/-- The candidate that has to make place for a fork with the given tally, zero if none has to.

A candidate without tally goes first, then the lowest one, but never the winner. -/
def blockToRemove (order : List BlockHash) (minTally : Amount) : Except ElectionPanic BlockHash :=
  if e.blockWithoutTally order ≠ 0 then .ok (e.blockWithoutTally order)
  else
    match e.tallies.lowest with
    | none => .error .noLowestTally
    | some (lowestHash, lowestTally) =>
      if lowestTally < minTally then
        if lowestHash ≠ e.winner.hash then .ok lowestHash
        else
          match e.tallies.secondLowest with
          | none => .error .noSecondLowestTally
          | some (secondLowestHash, secondLowestTally) =>
            if secondLowestTally < minTally then .ok secondLowestHash else .ok 0
      else .ok 0

def removeTallyBelow (order : List BlockHash) (minTally : Amount) :
    Except ElectionPanic (Election × Option MaybeSavedBlock) :=
  if minTally = 0 then .ok (e, none)
  else do
    let hash ← e.blockToRemove order minTally
    return if hash ≠ 0 then e.removeBlock hash else (e, none)

/-- The last part of `try_add_fork`. -/
def addFork (fork : Block) (forkTally : Amount) : Except ElectionPanic Election := do
  let tallies ← e.tallies.insert fork.hash forkTally
  return { e with
    tallies
    candidateBlocks := e.candidateBlocks.put fork.hash (.unsaved fork) }

def tryAddFork (order : List BlockHash) (fork : Block) (forkTally : Amount) :
    Except ElectionPanic (Election × AddForkResult) :=
  if e.state.hasEnded then .ok (e, .electionEnded)
  else if e.containsBlock fork.hash then .ok (e, .duplicate)
  else if e.hasMaxBlocks then do
    match ← e.removeTallyBelow order forkTally with
    | (e, some removed) => return (← e.addFork fork forkTally, .replaced removed)
    | (e, none) => return (e, .tallyTooLow)
  else do
    return (← e.addFork fork forkTally, .added)

/-- Store the vote of a representative. The debug assertion is part of debug builds only. -/
def addVote (debugAssertions : Bool) (voter : PublicKey) (hash : BlockHash)
    (voteCreated : UnixMillisTimestamp) (voteReceived : Timestamp) :
    Except ElectionPanic Election :=
  if debugAssertions ∧ e.containsBlock hash = false then .error .notACandidate
  else .ok { e with votes := e.votes.put voter ⟨voter, voteCreated, voteReceived, hash, 0⟩ }

def voted (voteType : VoteType) (timestamp : Timestamp) : Election :=
  match voteType with
  | .nonFinal => { e with lastNonFinalVote := some timestamp, lastVotedWinner := e.winner.hash }
  | .final => { e with lastFinalVote := some timestamp, lastVotedWinner := e.winner.hash }

def isConfirmed : Bool := e.state.isConfirmed

/-- Whether final votes should be generated. -/
def isFinal : Bool := e.isConfirmed || e.hasQuorum

def voteType : VoteType := if e.isFinal then .final else .nonFinal

def canVote (broadcastInterval : ℕ) (now : Timestamp) : Bool :=
  if e.lastVotedWinner ≠ e.winner.hash then true
  else
    let lastVote :=
      match e.voteType with
      | .nonFinal => e.lastNonFinalVote
      | .final => e.lastFinalVote
    match lastVote with
    | some last => last + broadcastInterval ≤ now
    | none => true

/-- The first part of `transition_time`. -/
def transitionState (duration : ℕ) : ElectionState :=
  match e.state with
  | .passive => if e.baseLatency * passiveDurationFactor < duration then .active else .passive
  | .confirmed => .expiredConfirmed
  | state => state

def transitionTime (now : Timestamp) : Election :=
  let duration := e.start.elapsed now
  if (e.transitionState duration).hasEnded = false ∧ e.behavior.timeToLive < duration then
    { e with state := .expiredUnconfirmed }
  else { e with state := e.transitionState duration }

def cancel : Election := if e.state.hasEnded then e else { e with state := .cancelled }

def transitionActive : Election := if e.state = .passive then { e with state := .active } else e

/-- Only upgrades to priority elections are allowed. -/
def maybeUpgradeTo (newBehavior : ElectionBehavior) : Election × Bool :=
  if newBehavior ≠ .priority then (e, false)
  else if e.behavior = .priority ∨ e.behavior = .manual then (e, false)
  else ({ e with behavior := .priority }, true)

def forceConfirm : Election × Bool :=
  if e.state.hasEnded then (e, false) else ({ e with state := .confirmed }, true)

def updateVoteWeights (repWeights : Table PublicKey Amount) : Election :=
  { e with
    votes := e.votes.mapValues fun _ vote =>
      { vote with weight := (repWeights.get vote.voter).getD 0 } }

def recalculateTallies (order : List PublicKey) : Except ElectionPanic Election := do
  let votes := order.filterMap e.votes.get
  let tallies ← BlockTallies.calculate votes
  let finalTallies ← BlockTallies.calculate (votes.filter VoteSummary.isFinalVote)
  return { e with tallies, finalTallies }

/-- The winner can only be changed after a super majority of votes has been observed. -/
def checkNewWinner (quorumDelta : Amount) : Option BlockHash :=
  if e.tallies.sum < quorumDelta then none
  else
    let newWinner := (e.tallies.winner.map Prod.fst).getD e.winner.hash
    if newWinner ≠ e.winner.hash then some newWinner else none

def changeWinnerTo (newWinner : BlockHash) : Except ElectionPanic Election :=
  match e.candidateBlocks.get newWinner with
  | some winner => .ok { e with winner }
  | none => .error .winnerNotACandidate

def updateWinnerTally : Election :=
  { e with
    winnerTally := e.tallies.get e.winner.hash
    winnerFinalTally := e.finalTallies.get e.winner.hash }

def trySetQuorum (quorumDelta : Amount) : Election :=
  if e.tallies.checkQuorum quorumDelta then { e with hasQuorum := true } else e

def tryConfirm (quorumDelta : Amount) : Election :=
  if quorumDelta ≤ e.winnerFinalTally then { e with state := .confirmed } else e

/-- The part of `update_tallies` that may change the winner. -/
def updateWinner (quorumDelta : Amount) : Except ElectionPanic Election :=
  match e.checkNewWinner quorumDelta with
  | some newWinner => e.changeWinnerTo newWinner
  | none => .ok e

/-- Calculate tallies and try to confirm the election. -/
def updateTallies (order : List PublicKey) (repWeights : Table PublicKey Amount)
    (quorumDelta : Amount) : Except ElectionPanic Election :=
  if e.state.hasEnded then .ok e
  else do
    let e ← (e.updateVoteWeights repWeights).recalculateTallies order
    let e ← e.updateWinner quorumDelta
    return (e.updateWinnerTally.trySetQuorum quorumDelta).tryConfirm quorumDelta

def removeVote (voter : PublicKey) : Election := { e with votes := e.votes.del voter }

def changeReceivedTimestamp (voter : PublicKey) (newTimestamp : Timestamp) :
    Except ElectionPanic Election :=
  match e.votes.get voter with
  | some vote =>
    .ok { e with votes := e.votes.put voter { vote with voteReceived := newTimestamp } }
  | none => .error .voteNotFound

end Election

end RsNano
