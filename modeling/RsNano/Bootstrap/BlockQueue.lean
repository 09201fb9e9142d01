import RsNano.Bootstrap.RunningQuery
import RsNano.Lib.Table

/-!
# The bootstrap block queue

Blocks that other nodes have sent wait here, in one list for each account, until the block
processor takes them one after the other. The front block of an account is either waiting to be
handed to the block processor, or it is there; both are kept in tables by block hash.

The statistics of the processor of block responses, and the lower priority of an account for which
there was nothing new, are left out: they do not touch the queue.
-/

namespace RsNano

/-- Why an operation of the queue does not return. -/
inductive BlockQueuePanic
  | accountMissing
  | noBlock
  | counterUnderflow
  | emptyResponse
  deriving DecidableEq, Repr

structure AccountBlocks where
  account : Account
  queryId : BitVec 64
  blocks : List Block

structure BlockQueue where
  maxAccounts : ℕ
  accounts : Table Account AccountBlocks
  waitingToBeInsertedIntoBlockProcessor : Table BlockHash Account
  inBlockProcessor : Table BlockHash Account
  blocks : ℕ

structure BlockInfo where
  account : Option Account
  wasLast : Bool
  deriving DecidableEq

namespace BlockQueue

def defaultMaxAccounts : ℕ := 1024 * 64

def withMaxAccounts (maxAccounts : ℕ) : BlockQueue := ⟨maxAccounts, ∅, ∅, ∅, 0⟩

variable (q : BlockQueue)

/-- Take the blocks of an account out of the counter and its front block out of the tables. -/
def forget (old : AccountBlocks) : Except BlockQueuePanic BlockQueue :=
  if q.blocks < old.blocks.length then .error .counterUnderflow
  else
    let q := { q with blocks := q.blocks - old.blocks.length }
    match old.blocks.head? with
    | none => .ok q
    | some front =>
      .ok { q with
        waitingToBeInsertedIntoBlockProcessor :=
          q.waitingToBeInsertedIntoBlockProcessor.del front.hash
        inBlockProcessor := q.inBlockProcessor.del front.hash }

def insert (data : AccountBlocks) : Except BlockQueuePanic (BlockQueue × Bool) :=
  if q.maxAccounts ≤ q.accounts.size then .ok (q, false)
  else
    match data.blocks.head? with
    | none => .ok (q, false)
    | some first => do
      let old := q.accounts.get data.account
      let q := { q with
        blocks := q.blocks + data.blocks.length
        accounts := q.accounts.put data.account data }
      let q ← old.elim (.ok q) q.forget
      return ({ q with
        waitingToBeInsertedIntoBlockProcessor :=
          q.waitingToBeInsertedIntoBlockProcessor.put first.hash data.account }, true)

/-- The front block of an account that waits, and the query it came with. `order` is the order in
which the table is iterated. -/
def nextToProcess (order : List BlockHash) :
    Except BlockQueuePanic (Option (Block × BitVec 64)) :=
  match order.head?.bind q.waitingToBeInsertedIntoBlockProcessor.get with
  | none => .ok none
  | some account =>
    match q.accounts.get account with
    | none => .error .accountMissing
    | some data =>
      match data.blocks.head? with
      | none => .error .noBlock
      | some block => .ok (some (block, data.queryId))

def enqueuedForProcessing (blockHash : BlockHash) : BlockQueue :=
  match q.waitingToBeInsertedIntoBlockProcessor.get blockHash with
  | none => q
  | some account =>
    { q with
      waitingToBeInsertedIntoBlockProcessor := q.waitingToBeInsertedIntoBlockProcessor.del blockHash
      inBlockProcessor := q.inBlockProcessor.put blockHash account }

def processed (blockHash : BlockHash) : Except BlockQueuePanic (BlockQueue × BlockInfo) :=
  match q.inBlockProcessor.get blockHash with
  | none => .ok (q, ⟨none, false⟩)
  | some account =>
    let q := { q with inBlockProcessor := q.inBlockProcessor.del blockHash }
    match q.accounts.get account with
    | none => .error .accountMissing
    | some data =>
      match data.blocks with
      | [] => .error .noBlock
      | _ :: rest =>
        if q.blocks = 0 then .error .counterUnderflow
        else
          let q := { q with blocks := q.blocks - 1 }
          match rest.head? with
          | some next =>
            .ok ({ q with
              accounts := q.accounts.put account { data with blocks := rest }
              waitingToBeInsertedIntoBlockProcessor :=
                q.waitingToBeInsertedIntoBlockProcessor.put next.hash account },
              ⟨some account, false⟩)
          | none => .ok ({ q with accounts := q.accounts.del account }, ⟨some account, true⟩)

def processingFailed (blockHash : BlockHash) : Except BlockQueuePanic (BlockQueue × Bool) :=
  match q.inBlockProcessor.get blockHash with
  | none => .ok (q, false)
  | some account =>
    match q.accounts.get account with
    | none => .error .accountMissing
    | some data =>
      if q.blocks < data.blocks.length then .error .counterUnderflow
      else
        .ok ({ q with
          inBlockProcessor := q.inBlockProcessor.del blockHash
          accounts := q.accounts.del account
          blocks := q.blocks - data.blocks.length }, true)

end BlockQueue

namespace BlockAckProcessor

/-- The blocks of a response without the first one, if it is the block that the query started at:
this one is known. -/
def newBlocks (query : RunningQuery) (response : BlocksAckPayload) : List Block :=
  match response.blocks with
  | [] => []
  | first :: rest => if first.hash = query.start.into .blockHash then rest else first :: rest

def processValidBlocks (q : BlockQueue) (query : RunningQuery) (response : BlocksAckPayload) :
    Except BlockQueuePanic BlockQueue :=
  if response.blocks.length = 0 then .error .emptyResponse
  else do
    let (q, _) ← q.insert ⟨query.account, query.id, newBlocks query response⟩
    return q

def process (q : BlockQueue) (query : RunningQuery) (response : BlocksAckPayload) :
    Except BlockQueuePanic (BlockQueue × Bool) :=
  match query.verifyBlocks response with
  | .ok => do return (← processValidBlocks q query response, true)
  | .nothingNew => .ok (q, true)
  | .invalid => .ok (q, false)

end BlockAckProcessor

end RsNano
