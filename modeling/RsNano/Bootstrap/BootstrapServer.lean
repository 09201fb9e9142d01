import RsNano.Ledger.Store
import RsNano.Messages.AscPull

/-!
# The bootstrap server

How a node answers the pull requests of others: blocks of an account chain from a given block or
from the open block upwards, the state of an account, or the heads of the accounts from a given
one on. The queue of the requests, the rate limit and the statistics are left out: they decide
whether and when a request is answered.
-/

namespace RsNano

/-- Why a request is not answered: a panic, or a walk that does not end. -/
inductive ResponderPanic
  | tooManyBlocks
  | outOfFuel
  deriving DecidableEq, Repr

namespace BootstrapServer

def maxBlocks : Byte := BitVec.ofNat 8 BlocksAckPayload.maxBlocks

def maxFrontiers : ℕ := AscPullAckType.maxFrontiers

/-- Whether a request is taken into the queue. -/
def verify (message : AscPullReq) : Bool :=
  match message.reqType with
  | .blocks i => 0 < i.count ∧ i.count ≤ maxBlocks
  | .accountInfo i => i.target ≠ 0
  | .frontiers i => 0 < i.count ∧ i.count.toNat ≤ maxFrontiers

end BootstrapServer

namespace BootstrapResponderImpl

variable (any : Ledger)

/-- Walk up a chain. A walk passes each block once, so that the number of blocks bounds its
steps. -/
def prepareBlocksLoop (count : ℕ) :
    ℕ → List Block → Option SavedBlock → Except ResponderPanic (List Block)
  | _, result, none => .ok result
  | 0, _, some _ => .error .outOfFuel
  | fuel + 1, result, some c =>
    let successor := (any.blockSuccessor c.hash).getD 0
    let result := result ++ [c.block]
    if result.length = count then .ok result
    else prepareBlocksLoop count fuel result (any.getBlock successor)

def prepareBlocks (startBlock : BlockHash) (count : ℕ) : Except ResponderPanic (List Block) :=
  if startBlock ≠ 0 then
    prepareBlocksLoop any count any.block.size [] (any.getBlock startBlock)
  else .ok []

/-- An answer with blocks; there is no room for more than the limit. -/
def blocksAck (id : BitVec 64) (blocks : List Block) : Except ResponderPanic AscPullAck :=
  match BlocksAckPayload.new blocks with
  | .ok payload => .ok ⟨id, .blocks payload⟩
  | .error _ => .error .tooManyBlocks

def prepareResponse (id : BitVec 64) (startBlock : BlockHash) (count : Byte) :
    Except ResponderPanic AscPullAck := do
  let blocks ← prepareBlocks any startBlock count.toNat
  blocksAck id blocks

def prepareEmptyBlocksResponse (id : BitVec 64) : Except ResponderPanic AscPullAck :=
  blocksAck id []

def processBlocks (id : BitVec 64) (request : BlocksReqPayload) :
    Except ResponderPanic AscPullAck :=
  let count := if request.count ≤ BootstrapServer.maxBlocks then request.count
    else BootstrapServer.maxBlocks
  match request.startType with
  | .account =>
    -- Start from the open block if pulling by account.
    match any.getAccount (request.start.into .account) with
    | some info => prepareResponse any id info.openBlock count
    | none => prepareEmptyBlocksResponse id
  | .block =>
    if any.blockExists (request.start.into .blockHash) then
      prepareResponse any id (request.start.into .blockHash) count
    else prepareEmptyBlocksResponse id

def processAccount (id : BitVec 64) (request : AccountInfoReqPayload) : AscPullAck :=
  let target :=
    match request.targetType with
    | .account => request.target.into .account
    | .block => (any.blockAccount (request.target.into .blockHash)).getD 0
  let payload : AccountInfoAckPayload :=
    match any.getAccount target with
    | none => ⟨target, 0, 0, 0, 0, 0⟩
    | some info =>
      match any.confirmationHeight.get target with
      | none => ⟨target, info.openBlock, info.head, info.blockCount, 0, 0⟩
      | some conf =>
        ⟨target, info.openBlock, info.head, info.blockCount, conf.frontier, conf.height⟩
  ⟨id, .accountInfo payload⟩

def processFrontiers (id : BitVec 64) (request : FrontiersReqPayload) : AscPullAck :=
  let frontiers := ((any.accountsRange request.start).map fun x => Frontier.mk x.1 x.2.head).take
    request.count.toNat
  ⟨id, .frontiers frontiers⟩

def process (message : AscPullReq) : Except ResponderPanic AscPullAck :=
  match message.reqType with
  | .blocks blocks => processBlocks any message.id blocks
  | .accountInfo account => .ok (processAccount any message.id account)
  | .frontiers frontiers => .ok (processFrontiers any message.id frontiers)

end BootstrapResponderImpl

end RsNano
