import RsNano.Messages.AscPull

/-!
# Running bootstrap queries

What a node remembers about a request that it has sent, and how it checks the answer.
-/

namespace RsNano

/-- What a request is about. -/
structure AscPullQuerySpec where
  reqType : AscPullReqType
  account : Account
  hash : BlockHash

inductive QueryType
  | invalid
  | blocksByHash
  | blocksByAccount
  | accountInfoByHash
  | frontiers
  deriving DecidableEq, Repr

inductive QuerySource
  | priority
  | dependencies
  | frontiers
  deriving DecidableEq, Repr

inductive VerifyResult
  | ok
  | nothingNew
  | invalid
  deriving DecidableEq, Repr

structure RunningQuery where
  id : BitVec 64
  source : QuerySource
  queryType : QueryType
  start : HashOrAccount
  account : Account
  hash : BlockHash
  count : ℕ
  sent : Timestamp
  responseCutoff : Timestamp

namespace RunningQuery

def initialResponseCutoff (now : Timestamp) (timeout : ℕ) : Timestamp := now + timeout * 4

def fromSpec (id : BitVec 64) (spec : AscPullQuerySpec) (now : Timestamp) (timeout : ℕ) :
    RunningQuery :=
  let query (source : QuerySource) (queryType : QueryType) (start : HashOrAccount) (count : ℕ) :
      RunningQuery :=
    ⟨id, source, queryType, start, spec.account, spec.hash, count, now,
      initialResponseCutoff now timeout⟩
  match spec.reqType with
  | .frontiers f => query .frontiers .frontiers (f.start.into .hashOrAccount) f.count.toNat
  | .blocks b =>
    match b.startType with
    | .account => query .priority .blocksByAccount b.start b.count.toNat
    | .block => query .priority .blocksByHash b.start b.count.toNat
  | .accountInfo i => query .dependencies .accountInfoByHash i.target 0

def isValidResponseType (q : RunningQuery) (response : AscPullAck) : Bool :=
  match response.pullType with
  | .blocks _ => q.queryType = .blocksByHash ∨ q.queryType = .blocksByAccount
  | .accountInfo _ => q.queryType = .accountInfoByHash
  | .frontiers _ => q.queryType = .frontiers

/-- The accounts rise, from above the given one. -/
def areAccountsInAscendingOrder (previous : Account) : List Frontier → Bool
  | [] => true
  | f :: frontiers =>
    if f.account.number ≤ previous.number then false
    else areAccountsInAscendingOrder f.account frontiers

def verifyFrontiers (q : RunningQuery) (frontiers : List Frontier) : VerifyResult :=
  if q.queryType ≠ .frontiers then .invalid
  else
    match frontiers with
    | [] => .nothingNew
    | first :: _ =>
      if areAccountsInAscendingOrder 0 frontiers = false then .invalid
      -- The frontiers are not below the requested one.
      else if first.account.number < q.start.number then .invalid
      else .ok

/-- The blocks make a chain on top of the given block. -/
def isChain (previousHash : BlockHash) : List Block → Bool
  | [] => true
  | block :: blocks =>
    if block.previous ≠ previousHash then false else isChain block.hash blocks

/-- Whether the blocks belong to the query and make a chain. A query by hash asks for what comes
after a known block, so that this block alone is nothing new. -/
def verifyBlocks (q : RunningQuery) (response : BlocksAckPayload) : VerifyResult :=
  if q.queryType ≠ .blocksByAccount ∧ q.queryType ≠ .blocksByHash then .invalid
  else if q.count < response.blocks.length then .invalid
  else
    match response.blocks with
    | [] => .nothingNew
    | first :: rest =>
      if q.queryType = .blocksByAccount then
        -- Open and state blocks always contain the account field.
        if first.accountField.getD 0 ≠ q.start.into .account then .invalid
        else if isChain first.hash rest then .ok else .invalid
      else if first.hash ≠ q.start.into .blockHash then .invalid
      else if rest = [] then .nothingNew
      else if isChain first.hash rest then .ok
      else .invalid

end RunningQuery

end RsNano
