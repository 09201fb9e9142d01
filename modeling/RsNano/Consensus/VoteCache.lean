import RsNano.Consensus.ActiveElections
import RsNano.Messages.Payloads
import RsNano.Lib.Index

/-!
# The vote cache

Votes without an active election are kept in a cache. An entry has the votes for one block, one for
each representative, ordered by weight. The entries are stored by hash and listed in the order of
their creation and by tally.

Statistics and debug assertions are left out. Hash sets are lists. Where the source iterates over a
hash map and the order matters, the order is an argument. Instants are nanoseconds; a loop that
reads the clock gets the readings as a function. Ids wrap at 64 bits, as in a release build.
-/

namespace RsNano

open Index

namespace Vote

def unixTimestamp (v : Vote) : UnixMillisTimestamp := VoteTimestamp.unixTimestamp ⟨v.timestamp⟩

def isFinal (v : Vote) : Bool := VoteTimestamp.isFinal ⟨v.timestamp⟩

end Vote

/-- The places where the vote cache can panic. -/
inductive VoteCachePanic
  | noVoters
  | entryNotFound
  | tallyNotFound
  deriving DecidableEq, Repr

/-! ### The voters of an entry -/

structure VoterEntry where
  representative : PublicKey
  weight : Amount
  vote : Vote
  deriving DecidableEq

def VoterEntry.finalWeight (e : VoterEntry) : Amount := if e.vote.isFinal then e.weight else 0

/-- The voters by representative, with the representatives by weight. -/
structure OrderedVoters where
  byRepresentative : Table PublicKey VoterEntry
  byWeight : Table Amount (List PublicKey)

namespace OrderedVoters

def empty : OrderedVoters := ⟨∅, ∅⟩

variable (v : OrderedVoters)

def len : ℕ := v.byRepresentative.size

def find (representative : PublicKey) : Option VoterEntry := v.byRepresentative.get representative

/-- `OrderedVoters::remove_by_weight`. -/
def removeByWeight (byWeight : Table Amount (List PublicKey)) (weight : Amount)
    (representative : PublicKey) : Table Amount (List PublicKey) :=
  match byWeight.get weight with
  | some accounts => withdraw byWeight weight accounts representative
  | none => byWeight

/-- `OrderedVoters::add_by_weight`. -/
def addByWeight (byWeight : Table Amount (List PublicKey)) (weight : Amount)
    (representative : PublicKey) : Table Amount (List PublicKey) :=
  push byWeight weight representative

def insert (entry : VoterEntry) : OrderedVoters :=
  let byWeight := match v.byRepresentative.get entry.representative with
    | some existing => removeByWeight v.byWeight existing.weight entry.representative
    | none => v.byWeight
  { byRepresentative := v.byRepresentative.put entry.representative entry
    byWeight := addByWeight byWeight entry.weight entry.representative }

def modify (representative : PublicKey) (vote : Vote) (newWeight : Amount) :
    OrderedVoters :=
  match v.byRepresentative.get representative with
  | some entry =>
    { byRepresentative :=
        v.byRepresentative.put representative { entry with vote, weight := newWeight }
      byWeight :=
        if entry.weight ≠ newWeight then
          addByWeight (removeByWeight v.byWeight entry.weight representative) newWeight
            representative
        else v.byWeight }
  | none => v

def minWeight : Option Amount := (v.byWeight.sortedKeys (· ≤ ·)).head?

/-- `OrderedVoters::remove_lowest_weight`, which removes all voters with the lowest weight. -/
def removeLowestWeight : OrderedVoters :=
  match v.minWeight with
  | some weight =>
    { byRepresentative := (listed v.byWeight weight).foldl Table.del v.byRepresentative
      byWeight := v.byWeight.del weight }
  | none => v

end OrderedVoters

/-! ### Entries -/

/-- The votes for one block. -/
structure CacheEntry where
  id : BitVec 64
  hash : BlockHash
  voters : OrderedVoters
  lastVote : ℕ
  tally : Amount
  finalTally : Amount

namespace CacheEntry

def new (id : BitVec 64) (hash : BlockHash) (now : ℕ) : CacheEntry := ⟨id, hash, .empty, now, 0, 0⟩

/-- `CacheEntry::calculate_tally`: the sums wrap, so the order of the voters does not matter. -/
def calculateTally (voters : OrderedVoters) : Amount × Amount :=
  (BitVec.ofNat 128 (voters.byRepresentative.sumBy fun _ e => e.weight.toNat),
    BitVec.ofNat 128 (voters.byRepresentative.sumBy fun _ e => e.finalWeight.toNat))

/-- `CacheEntry::vote_impl`, with the voters afterwards. -/
def voteImpl (voters : OrderedVoters) (vote : Vote) (repWeight : Amount) (maxVoters : ℕ) :
    Except VoteCachePanic (Bool × OrderedVoters) :=
  match voters.find vote.voter with
  | some existing =>
    if existing.vote.unixTimestamp < vote.unixTimestamp then
      .ok (!existing.vote.isFinal && vote.isFinal, voters.modify vote.voter vote repWeight)
    else .ok (false, voters)
  | none => do
    let shouldAdd ←
      if voters.len < maxVoters then pure true
      else match voters.minWeight with
        | some minWeight => pure (minWeight < repWeight : Bool)
        | none => throw .noVoters
    if shouldAdd then
      let voters := voters.insert ⟨vote.voter, repWeight, vote⟩
      return (true, if maxVoters ≤ voters.len then voters.removeLowestWeight else voters)
    else return (false, voters)

/-- `CacheEntry::vote`. -/
def vote (e : CacheEntry) (vote : Vote) (repWeight : Amount) (maxVoters : ℕ) (now : ℕ) :
    Except VoteCachePanic (Bool × CacheEntry) := do
  let (updated, voters) ← voteImpl e.voters vote repWeight maxVoters
  if updated then
    let (tally, finalTally) := calculateTally voters
    return (true, { e with voters, tally, finalTally, lastVote := now })
  else return (false, { e with voters })

end CacheEntry

/-! ### The collection of entries -/

/-- The entries by hash, with the hashes by id and by tally. -/
structure CacheEntryCollection where
  sequential : Table (BitVec 64) BlockHash
  byHash : Table BlockHash CacheEntry
  byTally : Table Amount (List BlockHash)

namespace CacheEntryCollection

def empty : CacheEntryCollection := ⟨∅, ∅, ∅⟩

variable (c : CacheEntryCollection)

def len : ℕ := c.sequential.size

/-- Add a hash to the set of its tally. -/
def addByTally (byTally : Table Amount (List BlockHash)) (hash : BlockHash) (tally : Amount) :
    Table Amount (List BlockHash) :=
  byTally.put tally ((listed byTally tally).insert hash)

def insert (entry : CacheEntry) : CacheEntryCollection where
  sequential := c.sequential.put entry.id entry.hash
  byHash := c.byHash.put entry.hash entry
  byTally := addByTally c.byTally entry.hash entry.tally

/-- `CacheEntryCollection::remove_by_tally`. -/
def removeByTally (byTally : Table Amount (List BlockHash)) (hash : BlockHash) (tally : Amount) :
    Except VoteCachePanic (Table Amount (List BlockHash)) :=
  match byTally.get tally with
  | none => .error .tallyNotFound
  | some hashes =>
    if hashes.length = 1 then .ok (byTally.del tally)
    else .ok (byTally.put tally (hashes.filter (· ≠ hash)))

/-- `CacheEntryCollection::update_tally`. -/
def updateTally (byTally : Table Amount (List BlockHash)) (hash : BlockHash)
    (oldTally newTally : Amount) : Except VoteCachePanic (Table Amount (List BlockHash)) :=
  if oldTally = newTally then .ok byTally
  else do
    let byTally ← removeByTally byTally hash oldTally
    return addByTally byTally hash newTally

/-- `CacheEntryCollection::modify_by_hash`. -/
def modifyByHash (hash : BlockHash) (f : CacheEntry → Except VoteCachePanic CacheEntry) :
    Except VoteCachePanic (Bool × CacheEntryCollection) :=
  match c.byHash.get hash with
  | some entry => do
    let changed ← f entry
    let byTally ← updateTally c.byTally changed.hash entry.tally changed.tally
    return (true, { c with byHash := c.byHash.put hash changed, byTally })
  | none => .ok (false, c)

/-- The hashes in the order of their ids. -/
def stored : List BlockHash := (c.sequential.sortedKeys (· ≤ ·)).filterMap c.sequential.get

/-- `CacheEntryCollection::pop_front`. -/
def popFront :
    Except VoteCachePanic (Option CacheEntry × CacheEntryCollection) :=
  match (c.sequential.sortedKeys (· ≤ ·)).head? with
  | none => .ok (none, c)
  | some id =>
    match c.sequential.get id with
    | none => .ok (none, c)
    | some frontHash =>
      match c.byHash.get frontHash with
      | none => .error .entryNotFound
      | some entry => do
        let byTally ← removeByTally c.byTally frontHash entry.tally
        return (some entry, ⟨c.sequential.del id, c.byHash.del frontHash, byTally⟩)

/-- `CacheEntryCollection::remove_by_hash`. -/
def removeByHash (hash : BlockHash) :
    Except VoteCachePanic (Option CacheEntry × CacheEntryCollection) :=
  match c.byHash.get hash with
  | none => .ok (none, c)
  | some entry => do
    let byTally ← removeByTally c.byTally hash entry.tally
    return (some entry, ⟨c.sequential.del entry.id, c.byHash.del hash, byTally⟩)

end CacheEntryCollection

/-! ### The cache -/

structure VoteCacheConfig where
  maxSize : ℕ
  maxVoters : ℕ
  ageCutoff : ℕ
  deriving DecidableEq, Repr

namespace VoteCacheConfig

def default : VoteCacheConfig := ⟨1024 * 64, 64, 15 * 60 * 1000000000⟩

end VoteCacheConfig

structure VoteCache where
  config : VoteCacheConfig
  cache : CacheEntryCollection
  nextId : BitVec 64
  lastCleanup : ℕ

structure TopEntry where
  hash : BlockHash
  tally : Amount
  finalTally : Amount
  deriving DecidableEq

namespace VoteCache

def new (config : VoteCacheConfig) (now : ℕ) : VoteCache := ⟨config, .empty, 0, now⟩

variable (s : VoteCache)

def size : ℕ := s.cache.len

/-- `VoteCache::insert_impl`. -/
def insertImpl (vote : Vote) (hash : BlockHash) (repWeight : Amount) (now : ℕ) :
    Except VoteCachePanic VoteCache := do
  let (cacheEntryExists, cache) ← s.cache.modifyByHash hash fun existing =>
    Prod.snd <$> existing.vote vote repWeight s.config.maxVoters now
  if cacheEntryExists then return { s with cache }
  else
    let (_, cacheEntry) ←
      (CacheEntry.new s.nextId hash now).vote vote repWeight s.config.maxVoters now
    let cache := cache.insert cacheEntry
    let cache ← if s.config.maxSize < cache.len then Prod.snd <$> cache.popFront else pure cache
    return { s with cache, nextId := s.nextId + 1 }

/-- The hashes for which `VoteCache::insert` caches a vote. -/
def acceptedHashes (vote : Vote) (results : Table BlockHash (Except VoteError Unit))
    (order : List BlockHash) : List BlockHash :=
  if results.size = 0 then vote.hashes
  else order.filter fun hash =>
    match results.get hash with
    | some (.ok ()) => true
    | some (.error .indeterminate) => true
    | _ => false

/-- `VoteCache::insert`. -/
def insert (vote : Vote) (repWeight : Amount)
    (results : Table BlockHash (Except VoteError Unit)) (order : List BlockHash) (clock : ℕ → ℕ) :
    Except VoteCachePanic VoteCache :=
  (acceptedHashes vote results order).zipIdx.foldlM
    (fun s (hash, i) => s.insertImpl vote hash repWeight (clock i)) s

/-- `VoteCache::erase`. -/
def erase (hash : BlockHash) : Except VoteCachePanic (Bool × VoteCache) := do
  let (removed, cache) ← s.cache.removeByHash hash
  return (removed.isSome, { s with cache })

def clear : VoteCache := { s with cache := .empty }

/-- The entry is too old at the time at which the cleanup looks at it. -/
def isOld (clock : BlockHash → ℕ) (entry : CacheEntry) : Bool :=
  s.config.ageCutoff ≤ clock entry.hash - entry.lastVote

/-- `VoteCache::cleanup`, with the order in which the entries are visited. -/
def cleanup (order : List BlockHash) (clock : BlockHash → ℕ) :
    Except VoteCachePanic VoteCache := do
  let toDelete := (order.filterMap s.cache.byHash.get).filter (s.isOld clock) |>.map CacheEntry.hash
  let cache ← toDelete.foldlM (fun c hash => Prod.snd <$> c.removeByHash hash) s.cache
  return { s with cache }

/-- The loop of `VoteCache::top`, over the hashes by descending tally. -/
def collectTop (c : CacheEntryCollection) (minTally : Amount) :
    List BlockHash → Except VoteCachePanic (List TopEntry)
  | [] => .ok []
  | hash :: hashes =>
    match c.byHash.get hash with
    | none => .error .entryNotFound
    | some entry =>
      if entry.tally < minTally then .ok []
      else do
        let results ← collectTop c minTally hashes
        return ⟨entry.hash, entry.tally, entry.finalTally⟩ :: results

/-- The comparison with which `VoteCache::top` sorts, where the final tally of one entry is
compared with itself. -/
def compareTop (a b : TopEntry) : Ordering :=
  let res := compare b.finalTally b.finalTally
  if res = .eq then compare b.tally a.tally else res

/-- A cleanup is due. -/
def isCleanupDue (now : ℕ) : Bool := s.config.ageCutoff / 2 ≤ now - s.lastCleanup

/-- `VoteCache::top`. The entries are visited in one order for the cleanup, and the set of hashes
with a tally is iterated in another one. -/
def top (minTally : Amount) (now : ℕ) (order : List BlockHash)
    (clock : BlockHash → ℕ) (cleanedAt : ℕ)
    (setOrder : Amount → List BlockHash → List BlockHash) :
    Except VoteCachePanic (List TopEntry × VoteCache) := do
  let s ←
    if s.isCleanupDue now then
      (fun s => { s with lastCleanup := cleanedAt }) <$> s.cleanup order clock
    else pure s
  let hashes := (s.cache.byTally.sortedKeys (· ≥ ·)).flatMap fun tally =>
    setOrder tally (listed s.cache.byTally tally)
  let results ← collectTop s.cache minTally hashes
  return (results.insertionSort fun a b => compareTop a b ≠ .gt, s)

/-- The hashes by descending tally. -/
def hashesByTally (c : CacheEntryCollection)
    (setOrder : Amount → List BlockHash → List BlockHash) : List BlockHash :=
  (c.byTally.sortedKeys (· ≥ ·)).flatMap fun tally => setOrder tally (listed c.byTally tally)

end VoteCache

end RsNano
