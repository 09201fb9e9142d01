import RsNano.Messages.AscPull
import RsNano.Lib.Numbering

/-!
# The frontier scan

The accounts are divided into ranges, and each range is scanned by a head of its own. A head asks
for the frontiers from its next account on, several times, gathers the accounts of the answers, and
moves on to the last of them, or back to its start at the end of the range.

Account numbers are added and multiplied as 256-bit words that panic on overflow.
-/

namespace RsNano

/-- Why an operation of the scan does not return. -/
inductive FrontierScanPanic
  | assertFailed
  | arithmeticOverflow
  | headNotFound
  | timestampMissing
  | noHeadForStart
  deriving DecidableEq, Repr

structure FrontierScanConfig where
  parallelism : ℕ
  considerationCount : ℕ
  candidates : ℕ
  cooldown : ℕ

/-- A range of accounts to scan, from `start` to below `«end»`. -/
structure FrontierHead where
  start : Account
  «end» : Account
  next : Account
  candidates : Table Account Unit
  requestsSent : ℕ
  requestsCompleted : ℕ
  lastRequestSent : Timestamp
  accountsProcessed : ℕ
  config : FrontierScanConfig

namespace FrontierHead

def new (start «end» : Account) (config : FrontierScanConfig) : FrontierHead where
  start := start
  «end» := «end»
  next := start
  candidates := ∅
  requestsSent := 0
  requestsCompleted := 0
  lastRequestSent := 0
  accountsProcessed := 0
  config := config

variable (h : FrontierHead)

def canSendRequest (now : Timestamp) : Bool :=
  h.requestsSent < h.config.considerationCount ∨ h.lastRequestSent < now - h.config.cooldown

def requestSent (now : Timestamp) : FrontierHead :=
  { h with requestsSent := h.requestsSent + 1, lastRequestSent := now }

/-- Only accounts that advance the current frontier are candidates. -/
def insertCandidates (response : List Frontier) : FrontierHead :=
  { h with
    candidates := response.foldl (fun candidates frontier =>
      if h.next.number < frontier.account.number then candidates.put frontier.account ()
      else candidates) h.candidates }

/-- The largest candidate. -/
def lastCandidate : Option Account := (h.candidates.sortedKeys U256.byteLe).getLast?

def popLast : FrontierHead :=
  match h.lastCandidate with
  | none => h
  | some last => { h with candidates := h.candidates.del last }

/-- The largest candidates are dropped while there are too many. -/
def trimCandidates : FrontierHead := popLast^[h.candidates.size - h.config.candidates] h

/-- The last head gets no accounts beyond the largest one; taking the end for a candidate makes it
start again. -/
def wrapAroundIfNoCandidatesFound : FrontierHead :=
  if h.config.considerationCount * 2 % 2 ^ 64 ≤ h.requestsCompleted ∧ h.candidates.size = 0 then
    { h with candidates := h.candidates.put h.end () }
  else h

def shouldAdvance : Bool :=
  h.config.considerationCount ≤ h.requestsCompleted ∧ h.candidates.size ≠ 0

def nextStartAccount : Account :=
  let last := h.lastCandidate.getD h.next
  if h.end.number ≤ last.number then h.start else last

/-- Take the last candidate as the next frontier, or go back to the start. -/
def advance : FrontierHead :=
  { h with
    next := h.nextStartAccount
    accountsProcessed := h.accountsProcessed + h.candidates.size
    candidates := ∅
    requestsSent := 0
    requestsCompleted := 0
    lastRequestSent := 0 }

def process (response : List Frontier) : FrontierHead × Bool :=
  let h := { h with requestsCompleted := h.requestsCompleted + 1 }
  let h := h.insertCandidates response
  let h := h.trimCandidates
  let h := h.wrapAroundIfNoCandidatesFound
  if h.shouldAdvance then (h.advance, true) else (h, false)

end FrontierHead

structure HeadsContainer where
  config : FrontierScanConfig
  sequenced : List Account
  byStart : Table Account FrontierHead
  byTimestamp : Table Timestamp (List Account)

namespace HeadsContainer

/-- The account of a number, if the number fits. -/
def checked (n : ℕ) : Except FrontierScanPanic Account :=
  if n < 2 ^ 256 then .ok ⟨BitVec.ofNat 256 n⟩ else .error .arithmeticOverflow

/-- `Account::MAX` as a number. -/
def maxNumber : ℕ := 2 ^ 256 - 1

/-- The ranges are equally large, up to the first, which starts at one, and the last. -/
def createHead (config : FrontierScanConfig) (index : ℕ) :
    Except FrontierScanPanic FrontierHead :=
  if config.parallelism = 1 then do
    return .new (← checked 1) (← checked maxNumber) config
  else do
    let rangeSize := maxNumber / config.parallelism + 1
    let _ ← checked rangeSize
    let start ← checked (rangeSize * index)
    let «end» ←
      (if index = config.parallelism - 1 then checked maxNumber
      else checked (rangeSize * index + rangeSize))
    -- Start at 1 to avoid the burn account.
    let start ← (if index = 0 then checked 1 else .ok start)
    return .new start «end» config

variable (c : HeadsContainer)

def pushBack (head : FrontierHead) : HeadsContainer :=
  match c.byStart.get head.start with
  | some _ => c
  | none =>
    { c with
      byStart := c.byStart.put head.start head
      sequenced := c.sequenced ++ [head.start]
      byTimestamp := c.byTimestamp.put head.lastRequestSent
        ((c.byTimestamp.get head.lastRequestSent).getD [] ++ [head.start]) }

def withHeads (config : FrontierScanConfig) : Except FrontierScanPanic HeadsContainer :=
  (List.range config.parallelism).foldlM (fun c i => do return c.pushBack (← createHead config i))
    ⟨config, [], ∅, ∅⟩

/-- The starts of the heads, those that wait longest first. -/
def orderedByTimestamp : List Account :=
  (c.byTimestamp.sortedKeys (· ≤ ·)).flatMap fun timestamp =>
    (c.byTimestamp.get timestamp).getD []

/-- Change a head, and move it to its new time. -/
def modify (start : Account) (f : FrontierHead → FrontierHead) :
    Except FrontierScanPanic HeadsContainer :=
  match c.byStart.get start with
  | none => .error .headNotFound
  | some head =>
    let head' := f head
    let c := { c with byStart := c.byStart.put start head' }
    if head'.lastRequestSent = head.lastRequestSent then .ok c
    else
      match c.byTimestamp.get head.lastRequestSent with
      | none => .error .timestampMissing
      | some accounts =>
        let byTimestamp :=
          if accounts.length = 1 then c.byTimestamp.del head.lastRequestSent
          else c.byTimestamp.put head.lastRequestSent (accounts.filter (· ≠ start))
        .ok { c with
          byTimestamp := byTimestamp.put head'.lastRequestSent
            ((byTimestamp.get head'.lastRequestSent).getD [] ++ [start]) }

def findFirstLessThanOrEqualTo (account : Account) : Option Account :=
  ((c.byStart.sortedKeys U256.byteLe).filter (U256.byteLe · account)).getLast?

end HeadsContainer

structure FrontierScan where
  heads : HeadsContainer

namespace FrontierScan

/-- Create the heads. The assertion on the number of heads negates its bits. -/
def new (config : FrontierScanConfig) : Except FrontierScanPanic FrontierScan :=
  if 0 < 2 ^ 64 - 1 - config.parallelism then return ⟨← HeadsContainer.withHeads config⟩
  else .error .assertFailed

/-- The first head that may send a request: its next account and its start. -/
def nextAccountLoop (heads : HeadsContainer) (now : Timestamp) :
    List Account → Except FrontierScanPanic (Account × Account)
  | [] => .ok (0, 0)
  | start :: starts =>
    match heads.byStart.get start with
    | none => .error .headNotFound
    | some head =>
      if head.canSendRequest now then .ok (head.next, head.start)
      else nextAccountLoop heads now starts

variable (s : FrontierScan)

def nextAccount (now : Timestamp) : Except FrontierScanPanic (Account × Account) :=
  nextAccountLoop s.heads now s.heads.orderedByTimestamp

def requestSent (headStart : Account) (now : Timestamp) : Except FrontierScanPanic FrontierScan := do
  return ⟨← s.heads.modify headStart (·.requestSent now)⟩

def next (now : Timestamp) : Except FrontierScanPanic (Account × FrontierScan) := do
  let (nextAccount, headStart) ← s.nextAccount now
  if nextAccount ≠ 0 then return (nextAccount, ← s.requestSent headStart now)
  else return (nextAccount, s)

/-- Apply a response to the head of the range that the query started in. -/
def process (start : Account) (response : List Frontier) :
    Except FrontierScanPanic (Bool × FrontierScan) :=
  match s.heads.findFirstLessThanOrEqualTo start with
  | none => .error .noHeadForStart
  | some rangeStart => do
    let done := (s.heads.byStart.get rangeStart).elim false fun head => (head.process response).2
    return (done, ⟨← s.heads.modify rangeStart fun head => (head.process response).1⟩)

end FrontierScan

end RsNano
