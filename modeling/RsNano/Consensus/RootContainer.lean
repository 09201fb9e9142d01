import RsNano.Lib.Buckets
import RsNano.Consensus.Election

/-!
# The container of active elections by root

Elections are found by their qualified root, by the buckets they belong to, and by the hashes of
their candidate blocks. Each priority bucket holds the elections of one range of balances; the
other behaviors have one bucket each. A bucket is a sorted set.

The round robin iteration is in `RsNano.Consensus.RoundRobinIterator`.
-/

namespace RsNano

/-! ### Bucketing -/

namespace Bucketing

/-- The minimum balances of `count` buckets of equal width. -/
def buildRegion (lower upper count : ℕ) : List Amount :=
  (List.range count).map fun i => BitVec.ofNat 128 (lower + i * ((upper - lower) / count))

/-- The minimum balance of each priority bucket, in ascending order. -/
def minimums : List Amount :=
  buildRegion 0 (2 ^ 79) 1 ++ buildRegion (2 ^ 79) (2 ^ 88) 1 ++
    buildRegion (2 ^ 88) (2 ^ 92) 2 ++ buildRegion (2 ^ 92) (2 ^ 96) 4 ++
    buildRegion (2 ^ 96) (2 ^ 100) 8 ++ buildRegion (2 ^ 100) (2 ^ 104) 16 ++
    buildRegion (2 ^ 104) (2 ^ 108) 16 ++ buildRegion (2 ^ 108) (2 ^ 112) 8 ++
    buildRegion (2 ^ 112) (2 ^ 116) 4 ++ buildRegion (2 ^ 116) (2 ^ 120) 2 ++
    buildRegion (2 ^ 120) (2 ^ 127) 1

/-- The last bucket whose minimum is not above the balance, if there is one. -/
def find (balance : Amount) : Option (Fin minimums.length) :=
  (List.finRange minimums.length).reverse.find? fun i => minimums.get i ≤ balance

/-- There is a bucket for every balance, since the first minimum is zero. -/
theorem isSome_find (balance : Amount) : (find balance).isSome = true := by
  rw [find, List.find?_isSome]
  refine ⟨⟨0, by decide⟩, List.mem_reverse.mpr (List.mem_finRange _), decide_eq_true ?_⟩
  exact Nat.zero_le _

end Bucketing

/-- The number of priority buckets. -/
def prioBucketCount : ℕ := Bucketing.minimums.length

def prioBucketIndex (balance : Amount) : Fin prioBucketCount :=
  (Bucketing.find balance).get (Bucketing.isSome_find balance)

/-- The priority buckets, and one each for manual, hinted and optimistic elections. -/
def bucketCount : ℕ := prioBucketCount + 1 + 1 + 1

def bucketIndex (behavior : ElectionBehavior) (balance : Amount) : Fin bucketCount :=
  match behavior with
  | .priority => (prioBucketIndex balance).castAdd 3
  | .manual => Fin.natAdd prioBucketCount (0 : Fin 3)
  | .hinted => Fin.natAdd prioBucketCount (1 : Fin 3)
  | .optimistic => Fin.natAdd prioBucketCount (2 : Fin 3)

example : (prioBucketIndex (2 ^ 79)).val = 1 := by decide +kernel

/-! ### Entries -/

/-- Lower timestamps have a higher priority. -/
structure TimePriority where
  timestamp : UnixMillisTimestamp
  deriving DecidableEq, Repr

def TimePriority.cmp (a b : TimePriority) : Ordering := compare b.timestamp a.timestamp

instance : Std.OrientedCmp TimePriority.cmp :=
  @Std.OrientedCmp.opposite _ (compareOn TimePriority.timestamp) _

structure BlockPriority where
  balance : Amount
  time : TimePriority
  deriving DecidableEq, Repr

def QualifiedRoot.cmp (a b : QualifiedRoot) : Ordering :=
  (compare a.root.number b.root.number).then (compare a.previous.number b.previous.number)

structure Entry where
  root : QualifiedRoot
  election : Election
  priority : BlockPriority
  deriving DecidableEq

def Entry.bucket (entry : Entry) : Fin bucketCount :=
  bucketIndex entry.election.behavior entry.priority.balance

structure BucketEntry where
  root : QualifiedRoot
  priority : BlockPriority
  deriving DecidableEq

namespace BucketEntry

/-- Ordered by descending time priority. -/
def cmp (a b : BucketEntry) : Ordering :=
  (b.priority.time.cmp a.priority.time).then
    ((compare b.priority.balance a.priority.balance).then (b.root.cmp a.root))

def before (a b : BucketEntry) : Prop := (a.cmp b).isLE = true

instance : DecidableRel before := fun a b => inferInstanceAs (Decidable ((a.cmp b).isLE = true))

/-- Comparing some bits in reverse is transitive. -/
theorem transCmp_reverse {n : ℕ} (f : BucketEntry → BitVec n) :
    Std.TransCmp fun a b : BucketEntry => compare (f b) (f a) :=
  @Std.TransCmp.opposite _ (compareOn f) _

/-- The comparison is transitive. -/
instance : Std.TransCmp cmp :=
  have := transCmp_reverse fun e => e.priority.balance
  have := transCmp_reverse fun e => e.root.root.number
  have := transCmp_reverse fun e => e.root.previous.number
  inferInstanceAs (Std.TransCmp
    (compareLex (compareOn fun e : BucketEntry => e.priority.time.timestamp)
      (compareLex (fun a b : BucketEntry => compare b.priority.balance a.priority.balance)
        (compareLex (fun a b : BucketEntry => compare b.root.root.number a.root.root.number)
          fun a b : BucketEntry => compare b.root.previous.number a.root.previous.number))))

/-- Two entries can be put in order. -/
instance : Std.Total before where
  total a b := by
    have hswap : b.cmp a = (a.cmp b).swap := Std.OrientedCmp.eq_swap
    rw [before, before, hswap]
    cases a.cmp b with
    | lt | eq => exact .inl rfl
    | gt => exact .inr rfl

/-- The order is transitive. -/
instance : IsTrans BucketEntry before where
  trans _ _ _ := Std.TransCmp.isLE_trans

/-- What comes first does not have the lower time priority. -/
theorem before.time {a b : BucketEntry} (h : a.before b) :
    a.priority.time.cmp b.priority.time ≠ .lt := by
  intro hlt
  rw [before, cmp, Std.OrientedCmp.gt_of_lt hlt] at h
  exact Bool.false_ne_true h

end BucketEntry

def Entry.bucketEntry (entry : Entry) : BucketEntry := ⟨entry.root, entry.priority⟩

structure AecInsertRequest where
  block : SavedBlock
  behavior : ElectionBehavior
  priority : BlockPriority

/-! ### The vote router -/

/-- Routes votes to the elections of their blocks. -/
structure VoteRouter where
  elections : Table BlockHash QualifiedRoot
  deriving DecidableEq

namespace VoteRouter

variable (router : VoteRouter)

def connect (hash : BlockHash) (root : QualifiedRoot) : VoteRouter :=
  ⟨router.elections.put hash root⟩

/-- Remove the routes of all candidates. -/
def disconnectElection (election : Election) : VoteRouter :=
  ⟨router.elections.retain fun hash _ => election.containsBlock hash = false⟩

def disconnect (hash : BlockHash) : VoteRouter := ⟨router.elections.del hash⟩

def qualifiedRoot (hash : BlockHash) : Option QualifiedRoot := router.elections.get hash

def isActive (hash : BlockHash) : Bool := router.elections.contains hash

end VoteRouter

/-! ### The container -/

structure RootContainer where
  byRoot : Table QualifiedRoot Entry
  buckets : Fin bucketCount → List BucketEntry
  voteRouter : VoteRouter

namespace RootContainer

def new : RootContainer := ⟨∅, fun _ => [], ⟨∅⟩⟩

variable (rc : RootContainer)

def insert (entry : Entry) : RootContainer where
  buckets := Buckets.insert BucketEntry.before rc.buckets entry.bucket entry.bucketEntry
  byRoot := rc.byRoot.put entry.root entry
  voteRouter := rc.voteRouter.connect entry.election.winner.hash entry.root

def get (root : QualifiedRoot) : Option Entry := rc.byRoot.get root

/-- Replace the election of an entry, which is what a change through `get_mut` does. -/
def setElection (root : QualifiedRoot) (entry : Entry) (election : Election) : RootContainer :=
  { rc with byRoot := rc.byRoot.put root { entry with election } }

/-- Change all elections, which is what a loop over `iter_mut` does. -/
def mapElections (f : Election → Election) : RootContainer :=
  { rc with byRoot := rc.byRoot.mapValues fun _ (entry : Entry) =>
      { entry with election := f entry.election } }

def electionForRoot (root : QualifiedRoot) : Option Election := (rc.get root).map Entry.election

/-- The entry behind `election_for_block_mut`, with the root it is found under. -/
def entryForBlock (hash : BlockHash) : Option (QualifiedRoot × Entry) := do
  let root ← rc.voteRouter.qualifiedRoot hash
  let entry ← rc.get root
  return (root, entry)

def electionForBlock (hash : BlockHash) : Option Election :=
  (rc.entryForBlock hash).map fun found => found.2.election

/-- The second part of the result is the behavior that the election had before. -/
def tryUpgradeToPriorityElection (request : AecInsertRequest) :
    RootContainer × Bool × Option ElectionBehavior :=
  let root := request.block.block.qualifiedRoot
  match rc.get root with
  | none => (rc, false, none)
  | some entry =>
    let previousBehavior := entry.election.behavior
    if request.behavior ≠ .priority then (rc, false, some previousBehavior)
    else
      match entry.election.maybeUpgradeTo .priority with
      | (_, false) => (rc, false, some previousBehavior)
      | (election, true) =>
        let rc := rc.setElection root entry election
        let removed := Buckets.remove rc.buckets
          (bucketIndex previousBehavior entry.priority.balance) ⟨root, entry.priority⟩
        let buckets := Buckets.insert BucketEntry.before removed
          (bucketIndex .priority entry.priority.balance) ⟨root, entry.priority⟩
        ({ rc with buckets }, true, some previousBehavior)

def erase (root : QualifiedRoot) : RootContainer × Option Entry :=
  match rc.byRoot.get root with
  | none => (rc, none)
  | some entry =>
    ({ byRoot := rc.byRoot.del root
       voteRouter := rc.voteRouter.disconnectElection entry.election
       buckets := Buckets.remove rc.buckets entry.bucket entry.bucketEntry }, some entry)

/-- Erase elections one after the other and collect their entries. -/
def eraseAll (rc : RootContainer) : List QualifiedRoot → RootContainer × List Entry
  | [] => (rc, [])
  | root :: roots =>
    let (rc, erased) := rc.erase root
    let (rc, removed) := rc.eraseAll roots
    (rc, erased.toList ++ removed)

/-- Erase the elections that satisfy a predicate. -/
def drainFilter (order : List QualifiedRoot) (predicate : Entry → Bool) :
    RootContainer × List Entry :=
  let toRemove := order.filterMap fun root =>
    (rc.byRoot.get root).bind fun i => if predicate i then some i.root else none
  rc.eraseAll toRemove

/-- The routes of the vote router stay. -/
def clear : RootContainer := { rc with byRoot := ∅, buckets := fun _ => [] }

def len : ℕ := rc.byRoot.size

def bucketLen (bucketId : Fin bucketCount) : ℕ := (rc.buckets bucketId).length

def lowestPriority (bucketId : Fin bucketCount) : Option (QualifiedRoot × TimePriority) :=
  (rc.buckets bucketId).getLast?.map fun i => (i.root, i.priority.time)

def findBucket (root : QualifiedRoot) : Option (Fin bucketCount) :=
  (rc.byRoot.get root).map Entry.bucket

end RootContainer

end RsNano
