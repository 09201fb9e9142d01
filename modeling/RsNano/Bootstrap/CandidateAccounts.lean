import RsNano.Lib.Index
import RsNano.Lib.Loop
import RsNano.Lib.Numbering
import RsNano.Types.Basic
import Mathlib.Order.RelClasses

/-!
# Candidate accounts for bootstrapping

The node remembers the accounts whose blocks it wants to request next, each with a priority, and
the accounts that wait for a block of another account. An account moves from the first set to the
second when it turns out to be blocked, and back when the missing block arrives. Both sets are
bounded: the accounts with the lowest priority, or those that have been blocked longest with all
that depend on them, are dropped.

The priorities are floating-point numbers in the source. Here they are any linear order, with the
operations and constants of the source as parameters. The sets of accounts with one priority are
hash sets; an operation that iterates one takes the order as an argument. Sizes of elements,
statistics and the counts for the container information are left out.
-/

namespace RsNano

open Index

/-- Why an operation does not return. -/
inductive CandidatePanic
  | entryMissing
  | listMissing
  | emptySet
  | outOfFuel
  deriving DecidableEq, Repr

/-- The operations and constants of the priorities. -/
structure PriorityScale (P : Type*) where
  zero : P
  initial : P
  addIncrease : P → P
  max : P
  divide : P → P
  cutoff : P
  /-- The number of fails is at least the priority. -/
  failsReach : ℕ → P → Bool

/-- An order in which a hash set is iterated. -/
def SetOrder := { order : List Account → List Account // ∀ l, (order l).Perm l }

/-- Take an account out of the list of an index, and drop the list with its last account. -/
def removeFromIndex {K : Type*} [DecidableEq K] (t : Table K (List Account)) (k : K)
    (account : Account) : Except CandidatePanic (Table K (List Account)) :=
  match t.get k with
  | none => .error .listMissing
  | some accounts => .ok (withdraw t k accounts account)

/-- The first record of the listed accounts that passes the filter. -/
def findEntry {V : Type} (t : Table Account V) (filter : V → Bool) :
    List Account → Except CandidatePanic (Option V)
  | [] => .ok none
  | account :: accounts =>
    match t.get account with
    | none => .error .entryMissing
    | some entry => if filter entry then .ok (some entry) else findEntry t filter accounts

/-! ### Priorities -/

structure PriorityEntry (P : Type) where
  account : Account
  priority : P
  fails : ℕ
  lastRequest : Option Timestamp

def PriorityEntry.new {P : Type} (account : Account) (priority : P) : PriorityEntry P :=
  ⟨account, priority, 0, none⟩

structure PriorityContainer (P : Type) where
  byAccount : Table Account (PriorityEntry P)
  byPriority : Table P (List Account)

inductive ChangePriorityResult
  | updated
  | deleted
  | notFound
  deriving DecidableEq, Repr

namespace PriorityContainer

variable {P : Type} [LinearOrder P] (c : PriorityContainer P)

def len : ℕ := c.byAccount.size

def contains (account : Account) : Bool := c.byAccount.contains account

def addPriority (account : Account) (priority : P) : PriorityContainer P :=
  { c with
    byPriority := c.byPriority.put priority ((listed c.byPriority priority).insert account) }

def insert (entry : PriorityEntry P) : PriorityContainer P × Bool :=
  if c.contains entry.account then (c, false)
  else
    ({ c with byAccount := c.byAccount.put entry.account entry }.addPriority entry.account
      entry.priority, true)

def removePriority (account : Account) (priority : P) :
    Except CandidatePanic (PriorityContainer P) := do
  return { c with byPriority := ← removeFromIndex c.byPriority priority account }

def remove (account : Account) :
    Except CandidatePanic (PriorityContainer P × Option (PriorityEntry P)) :=
  match c.byAccount.get account with
  | none => .ok (c, none)
  | some entry => do
    let c := { c with byAccount := c.byAccount.del account }
    return (← c.removePriority account entry.priority, some entry)

def removeAccount (account : Account) :
    Except CandidatePanic (PriorityContainer P × PriorityEntry P) :=
  match c.byAccount.get account with
  | none => .error .entryMissing
  | some entry => do
    let c := { c with byAccount := c.byAccount.del account }
    return (← c.removePriority account entry.priority, entry)

/-- The priorities in the order of the index, which is descending. -/
def sortedPriorities : List P := c.byPriority.sortedKeys (· ≥ ·)

def popLowestPrio (order : SetOrder) :
    Except CandidatePanic (PriorityContainer P × Option (PriorityEntry P)) :=
  match c.sortedPriorities.getLast? with
  | none => .ok (c, none)
  | some lowest =>
    match (order.1 (listed c.byPriority lowest)).head? with
    | none => .error .emptySet
    | some account => do
      let (c, entry) ← c.removeAccount account
      return (c, some entry)

def setLastRequest (account : Account) (timestamp : Option Timestamp) : PriorityContainer P :=
  match c.byAccount.get account with
  | none => c
  | some entry =>
    { c with byAccount := c.byAccount.put account { entry with lastRequest := timestamp } }

def changePriorityInternal (account : Account) (oldPrio newPrio : P) :
    Except CandidatePanic (PriorityContainer P) := do
  return (← c.removePriority account oldPrio).addPriority account newPrio

/-- Change an entry in place. The change says whether to keep it. -/
def modify (account : Account) (f : PriorityEntry P → PriorityEntry P × Bool) :
    Except CandidatePanic (PriorityContainer P × ChangePriorityResult) :=
  match c.byAccount.get account with
  | none => .ok (c, .notFound)
  | some entry =>
    let c := { c with byAccount := c.byAccount.put account (f entry).1 }
    if (f entry).2 then
      if (f entry).1.priority = entry.priority then .ok (c, .updated)
      else do
        return (← c.changePriorityInternal account entry.priority (f entry).1.priority, .updated)
    else do
      let (c, _) ← c.removeAccount account
      return (c, .deleted)

def nextPriority (order : SetOrder) (cutoff : Timestamp) (filter : Account → Bool) :
    Except CandidatePanic (Option (PriorityEntry P)) :=
  findEntry c.byAccount
    (fun entry => !entry.lastRequest.any (cutoff < ·) && filter entry.account)
    (c.sortedPriorities.flatMap fun priority => order.1 (listed c.byPriority priority))

end PriorityContainer

/-! ### Blocked accounts -/

structure BlockingEntry where
  account : Account
  dependency : BlockHash
  /-- The account that has the missing block, or zero while it is unknown. -/
  dependencyAccount : Account
  added : Timestamp
  deriving DecidableEq

structure BlockingContainer where
  byAccount : Table Account BlockingEntry
  sequenced : List Account
  byDependency : Table BlockHash (List Account)
  byDependencyAccount : Table Account (List Account)
  byTimestamp : Table Timestamp (List Account)

namespace BlockingContainer

variable (c : BlockingContainer)

def len : ℕ := c.sequenced.length

def contains (account : Account) : Bool := c.byAccount.contains account

def insert (entry : BlockingEntry) : BlockingContainer × Bool :=
  if c.contains entry.account then (c, false)
  else
    ({ byAccount := c.byAccount.put entry.account entry
       sequenced := c.sequenced ++ [entry.account]
       byDependency := push c.byDependency entry.dependency entry.account
       byDependencyAccount := push c.byDependencyAccount entry.dependencyAccount entry.account
       byTimestamp := push c.byTimestamp entry.added entry.account }, true)

/-- A missing block whose account is unknown. -/
def next (filter : BlockHash → Bool) : Except CandidatePanic (Option BlockHash) :=
  match c.byDependencyAccount.get 0 with
  | none => .ok none
  | some accounts => do
    let entry ← findEntry c.byAccount (fun entry => filter entry.dependency) accounts
    return entry.map (·.dependency)

/-- The blocked accounts in the order of their dependency accounts, from a given one on. -/
def iterStartDepAccount (start : Account) : List Account :=
  ((c.byDependencyAccount.sortedKeys U256.byteLe).filter (U256.byteLe start ·)).flatMap
    (listed c.byDependencyAccount)

def iterByInsertionOrder : Except CandidatePanic (List BlockingEntry) :=
  c.sequenced.mapM fun account =>
    match c.byAccount.get account with
    | none => .error .entryMissing
    | some entry => .ok entry

def removeIndexes (entry : BlockingEntry) : Except CandidatePanic BlockingContainer := do
  let c := { c with sequenced := c.sequenced.filter (· ≠ entry.account) }
  let byDependency ← removeFromIndex c.byDependency entry.dependency entry.account
  let byDependencyAccount ←
    removeFromIndex c.byDependencyAccount entry.dependencyAccount entry.account
  let byTimestamp ← removeFromIndex c.byTimestamp entry.added entry.account
  return { c with byDependency, byDependencyAccount, byTimestamp }

def removeAccount (account : Account) :
    Except CandidatePanic (BlockingContainer × Option BlockingEntry) :=
  match c.byAccount.get account with
  | none => .ok (c, none)
  | some entry => do
    let c := { c with byAccount := c.byAccount.del account }
    return (← c.removeIndexes entry, some entry)

/-- One round of the removal: the state is the container, the stack, the last pushed account first,
and the number of removed entries. -/
def removeStep : BlockingContainer × List Account × ℕ →
    Except CandidatePanic ((BlockingContainer × List Account × ℕ) ⊕ (BlockingContainer × ℕ))
  | (c, [], removed) => .ok (.inr (c, removed))
  | (c, account :: stack, removed) => do
    let (c, entry) ← c.removeAccount account
    match entry with
    | none => return .inl (c, stack, removed)
    | some entry =>
      let dependents := listed c.byDependencyAccount entry.account
      return .inl (c, dependents.reverse ++ stack, removed + 1)

/-- Remove an account, those that depend on it, and so on. -/
def removeAccountAndDependents (account : Account) :
    Except CandidatePanic (BlockingContainer × ℕ) :=
  Loop.run .outOfFuel (fun _ => removeStep) (c.byAccount.size * (c.byAccount.size + 1) + 2) 0
    (c, [account], 0)

def removeOldest : Except CandidatePanic (BlockingContainer × ℕ) :=
  match c.sequenced.head? with
  | none => .ok (c, 0)
  | some oldest => c.removeAccountAndDependents oldest

/-- One round of the removal of old entries: those with the first timestamp. -/
def removeOlderStep (cutoff : Timestamp) : BlockingContainer × ℕ →
    Except CandidatePanic ((BlockingContainer × ℕ) ⊕ (BlockingContainer × ℕ))
  | (c, removed) =>
    match (c.byTimestamp.sortedKeys (· ≤ ·)).head? with
    | none => .ok (.inr (c, removed))
    | some timestamp =>
      if cutoff ≤ timestamp then .ok (.inr (c, removed))
      else do
        let result ← (listed c.byTimestamp timestamp).foldlM
          (fun (c, removed) account => do
            let (c, count) ← c.removeAccountAndDependents account
            return (c, removed + count)) (c, removed)
        return .inl result

def removeOlderThan (cutoff : Timestamp) : Except CandidatePanic (BlockingContainer × ℕ) :=
  Loop.run .outOfFuel (fun _ => removeOlderStep cutoff) (c.byAccount.size + 1) 0 (c, 0)

/-- Move one entry to its new dependency account. -/
def changeDependencyAccount (newDependencyAccount : Account) :
    BlockingContainer × ℕ → Account → Except CandidatePanic (BlockingContainer × ℕ)
  | (c, updated), account =>
    match c.byAccount.get account with
    | none => .error .entryMissing
    | some entry =>
      if entry.dependencyAccount = newDependencyAccount then .ok (c, updated)
      else
        match c.byDependencyAccount.get entry.dependencyAccount with
        | none => .error .listMissing
        | some old =>
          let byDependencyAccount :=
            if old.length = 1 then c.byDependencyAccount.del entry.dependencyAccount
            else c.byDependencyAccount.put entry.dependencyAccount
              (old.filter (· ≠ entry.account))
          .ok ({ c with
            byAccount :=
              c.byAccount.put account { entry with dependencyAccount := newDependencyAccount }
            byDependencyAccount :=
              push byDependencyAccount newDependencyAccount entry.account }, updated + 1)

def modifyDependencyAccount (dependency : BlockHash) (newDependencyAccount : Account) :
    Except CandidatePanic (BlockingContainer × ℕ) :=
  match c.byDependency.get dependency with
  | none => .ok (c, 0)
  | some accounts => accounts.foldlM (changeDependencyAccount newDependencyAccount) (c, 0)

end BlockingContainer

/-! ### Candidate accounts -/

structure CandidateAccountsConfig where
  prioritiesMax : ℕ
  blockingMax : ℕ
  blockingDecay : ℕ
  cooldown : ℕ

inductive PriorityUpResult
  | inserted
  | updated
  | invalidAccount
  | accountBlocked
  deriving DecidableEq, Repr

inductive PriorityDownResult
  | deprioritized
  | erased
  | accountNotFound
  | invalidAccount
  deriving DecidableEq, Repr

structure PriorityResult (P : Type) where
  account : Account
  priority : P
  fails : ℕ

structure CandidateAccounts (P : Type) where
  config : CandidateAccountsConfig
  priorities : PriorityContainer P
  blocking : BlockingContainer

namespace CandidateAccounts

def maxFails : ℕ := 3

def new {P : Type} (config : CandidateAccountsConfig) : CandidateAccounts P :=
  ⟨config, ⟨∅, ∅⟩, ⟨∅, [], ∅, ∅, ∅⟩⟩

variable {P : Type} [LinearOrder P] (scale : PriorityScale P) (c : CandidateAccounts P)

def blocked (account : Account) : Bool := c.blocking.contains account

def prioritized (account : Account) : Bool := c.priorities.contains account

def priorityFull : Bool := c.config.prioritiesMax ≤ c.priorities.len

def trimPriorities (order : SetOrder) : Except CandidatePanic (PriorityContainer P) :=
  Loop.run .outOfFuel (fun _ (p : PriorityContainer P) =>
    if p.len ≠ 0 ∧ c.config.prioritiesMax < p.len then do
      let (p, _) ← p.popLowestPrio order
      return .inl p
    else .ok (.inr p)) (c.priorities.len + 1) 0 c.priorities

def trimBlocking : Except CandidatePanic BlockingContainer :=
  Loop.run .outOfFuel (fun _ (b : BlockingContainer) =>
    if c.config.blockingMax < b.len then do
      let (b, _) ← b.removeOldest
      return .inl b
    else .ok (.inr b)) (c.blocking.len + 1) 0 c.blocking

/-- Erase the oldest entries. -/
def trimOverflow (order : SetOrder) : Except CandidatePanic (CandidateAccounts P) := do
  let c := { c with priorities := ← c.trimPriorities order }
  return { c with blocking := ← c.trimBlocking }

def higherPriority (priority : P) : P := min (scale.addIncrease priority) scale.max

def priorityUp (order : SetOrder) (account : Account) :
    Except CandidatePanic (CandidateAccounts P × PriorityUpResult) :=
  if account = 0 then .ok (c, .invalidAccount)
  else if c.blocked account then .ok (c, .accountBlocked)
  else do
    let (priorities, changeResult) ← c.priorities.modify account fun entry =>
      ({ entry with priority := higherPriority scale entry.priority, fails := 0 }, true)
    let c := { c with priorities }
    match changeResult with
    | .updated => return (c, .updated)
    | .deleted => return (c, .updated)
    | .notFound =>
      let c := { c with priorities := (c.priorities.insert (.new account scale.initial)).1 }
      return (← c.trimOverflow order, .inserted)

def priorityDown (account : Account) :
    Except CandidatePanic (CandidateAccounts P × PriorityDownResult) :=
  if account = 0 then .ok (c, .invalidAccount)
  else do
    let (priorities, changeResult) ← c.priorities.modify account fun entry =>
      let newPriority := scale.divide entry.priority
      if maxFails ≤ entry.fails ∨ scale.failsReach entry.fails entry.priority ∨
          newPriority ≤ scale.cutoff then (entry, false)
      else ({ entry with fails := entry.fails + 1, priority := newPriority }, true)
    let c := { c with priorities }
    match changeResult with
    | .updated => return (c, .deprioritized)
    | .deleted => return (c, .erased)
    | .notFound => return (c, .accountNotFound)

def prioritySetImpl (account : Account) (priority : P) : CandidateAccounts P × Bool :=
  if account = 0 ∨ c.blocking.contains account ∨ c.priorities.contains account then (c, false)
  else ({ c with priorities := (c.priorities.insert (.new account priority)).1 }, true)

def prioritySet (order : SetOrder) (account : Account) (priority : P) :
    Except CandidatePanic (CandidateAccounts P × Bool) := do
  let (c, inserted) := c.prioritySetImpl account priority
  return (← c.trimOverflow order, inserted)

def prioritySetInitial (order : SetOrder) (account : Account) :
    Except CandidatePanic (CandidateAccounts P × Bool) :=
  c.prioritySet order account scale.initial

def priorityErase (account : Account) : Except CandidatePanic (CandidateAccounts P × Bool) :=
  if account = 0 then .ok (c, false)
  else do
    let (priorities, removed) ← c.priorities.remove account
    return ({ c with priorities }, removed.isSome)

def block (order : SetOrder) (account : Account) (dependency : BlockHash) (now : Timestamp) :
    Except CandidatePanic (CandidateAccounts P × Bool) := do
  let (priorities, removed) ← c.priorities.remove account
  let c := { c with priorities }
  match removed with
  | none => return (c, false)
  | some _ =>
    let c := { c with blocking := (c.blocking.insert ⟨account, dependency, 0, now⟩).1 }
    return (← c.trimOverflow order, true)

def unblock (order : SetOrder) (account : Account) (hash : Option BlockHash) :
    Except CandidatePanic (CandidateAccounts P × Bool) :=
  if account = 0 then .ok (c, false)
  else
    match c.blocking.byAccount.get account with
    | none => .ok (c, false)
    | some existing =>
      if hash.all (· = existing.dependency) then do
        let c := { c with priorities := (c.priorities.insert (.new account scale.initial)).1 }
        let (blocking, _) ← c.blocking.removeAccount account
        return (← { c with blocking }.trimOverflow order, true)
      else .ok (c, false)

def decayBlocking (now : Timestamp) : Except CandidatePanic (CandidateAccounts P × ℕ) := do
  let (blocking, removed) ← c.blocking.removeOlderThan (now - c.config.blockingDecay)
  return ({ c with blocking }, removed)

def setLastRequest (account : Account) (now : Timestamp) : CandidateAccounts P :=
  { c with priorities := c.priorities.setLastRequest account (some now) }

def resetLastRequest (account : Account) : CandidateAccounts P :=
  { c with priorities := c.priorities.setLastRequest account none }

def dependencyUpdate (order : SetOrder) (dependency : BlockHash) (dependencyAccount : Account) :
    Except CandidatePanic (CandidateAccounts P × ℕ) := do
  let (blocking, updated) ← c.blocking.modifyDependencyAccount dependency dependencyAccount
  let c := { c with blocking }
  if 0 < updated ∧ ¬ c.priorityFull then
    match c.prioritySetImpl dependencyAccount scale.initial with
    | (c, true) => return (← c.trimOverflow order, updated)
    | (c, false) => return (c, updated)
  else return (c, updated)

/-- Prioritise the known dependency accounts until there is no more room. -/
def syncLoop : CandidateAccounts P → ℕ → List Account →
    Except CandidatePanic (CandidateAccounts P × ℕ)
  | c, inserted, [] => .ok (c, inserted)
  | c, inserted, account :: accounts =>
    match c.blocking.byAccount.get account with
    | none => .error .entryMissing
    | some entry =>
      if c.priorityFull then .ok (c, inserted)
      else
        match c.prioritySetImpl entry.dependencyAccount scale.initial with
        | (c, true) => syncLoop c (inserted + 1) accounts
        | (c, false) => syncLoop c inserted accounts

def syncDependencies (order : SetOrder) : Except CandidatePanic (CandidateAccounts P × ℕ) := do
  let (c, inserted) ← syncLoop scale c 0 (c.blocking.iterStartDepAccount 1)
  return (← c.trimOverflow order, inserted)

def nextPriority (order : SetOrder) (now : Timestamp) (filter : Account → Bool) :
    Except CandidatePanic (PriorityResult P) :=
  if c.priorities.len = 0 then .ok ⟨0, scale.zero, 0⟩
  else do
    match ← c.priorities.nextPriority order (now - c.config.cooldown) filter with
    | none => return ⟨0, scale.zero, 0⟩
    | some entry => return ⟨entry.account, entry.priority, entry.fails⟩

def nextBlocking (filter : BlockHash → Bool) : Except CandidatePanic BlockHash :=
  if c.blocking.len = 0 then .ok 0
  else do return (← c.blocking.next filter).getD 0

def iterBlocked : Except CandidatePanic (List BlockingEntry) := c.blocking.iterByInsertionOrder

def clear : CandidateAccounts P :=
  { c with priorities := ⟨∅, ∅⟩, blocking := ⟨∅, [], ∅, ∅, ∅⟩ }

end CandidateAccounts

/-- A call of a public operation. -/
inductive CandidateOperation (P : Type)
  | priorityUp (order : SetOrder) (account : Account)
  | priorityDown (account : Account)
  | prioritySet (order : SetOrder) (account : Account) (priority : P)
  | prioritySetInitial (order : SetOrder) (account : Account)
  | priorityErase (account : Account)
  | block (order : SetOrder) (account : Account) (dependency : BlockHash) (now : Timestamp)
  | unblock (order : SetOrder) (account : Account) (hash : Option BlockHash)
  | decayBlocking (now : Timestamp)
  | setLastRequest (account : Account) (now : Timestamp)
  | resetLastRequest (account : Account)
  | dependencyUpdate (order : SetOrder) (dependency : BlockHash) (dependencyAccount : Account)
  | syncDependencies (order : SetOrder)
  | nextPriority (order : SetOrder) (now : Timestamp) (filter : Account → Bool)
  | nextBlocking (filter : BlockHash → Bool)
  | iterBlocked
  | clear

/-- Perform an operation, for the state it leaves. -/
def CandidateAccounts.apply {P : Type} [LinearOrder P] (scale : PriorityScale P)
    (c : CandidateAccounts P) :
    CandidateOperation P → Except CandidatePanic (CandidateAccounts P)
  | .priorityUp order account => do return (← c.priorityUp scale order account).1
  | .priorityDown account => do return (← c.priorityDown scale account).1
  | .prioritySet order account priority => do return (← c.prioritySet order account priority).1
  | .prioritySetInitial order account => do return (← c.prioritySetInitial scale order account).1
  | .priorityErase account => do return (← c.priorityErase account).1
  | .block order account dependency now => do return (← c.block order account dependency now).1
  | .unblock order account hash => do return (← c.unblock scale order account hash).1
  | .decayBlocking now => do return (← c.decayBlocking now).1
  | .setLastRequest account now => .ok (c.setLastRequest account now)
  | .resetLastRequest account => .ok (c.resetLastRequest account)
  | .dependencyUpdate order dependency dependencyAccount => do
    return (← c.dependencyUpdate scale order dependency dependencyAccount).1
  | .syncDependencies order => do return (← c.syncDependencies scale order).1
  | .nextPriority order now filter => do
    let _ ← c.nextPriority scale order now filter
    return c
  | .nextBlocking filter => do
    let _ ← c.nextBlocking filter
    return c
  | .iterBlocked => do
    let _ ← c.iterBlocked
    return c
  | .clear => .ok c.clear

end RsNano
