import RsNano.Ledger.Store

/-!
# Cementing

The cementer confirms a block after its dependencies, by a depth-first search with an
explicit stack. Stack and result are bounded: when the stack is full the entry at the bottom
is forgotten, and a call can end before its target is confirmed.

Between two iterations the cementer may commit and reopen its transaction, and other writers
get in. `refresh` says what the ledger is after such a point, where there is one.
-/

namespace RsNano

/-- The stack of the cementer with the top first, and the blocks confirmed so far, latest
first. -/
structure BlockCementer where
  stack : List BlockHash
  result : List SavedBlock
  deriving DecidableEq

namespace BlockCementer

/-- The `is_confirmed` test of the cementer. It does not treat the zero hash apart. -/
def isConfirmed (l : Ledger) (hash : BlockHash) : Bool :=
  match l.block.get hash with
  | none => false
  | some block =>
    match l.confirmationHeight.get block.account with
    | none => false
    | some info => block.height ≤ info.height

/-- Push an unconfirmed dependency and forget the bottom of the stack when it is full. -/
def pushDependent (l : Ledger) (maxBlocks : ℕ) (stack : List BlockHash)
    (dependent : BlockHash) : List BlockHash :=
  if isConfirmed l dependent = false then
    let stack := dependent :: stack
    if maxBlocks < stack.length then stack.dropLast else stack
  else stack

/-- Raise the confirmation height of an account to a block. -/
def cement (l : Ledger) (block : SavedBlock) : Ledger :=
  { l with
    confirmationHeight := l.confirmationHeight.put block.account ⟨block.height, block.hash⟩
    confirmedCount := l.confirmedCount + 1 }

/-- One iteration for the hash on top of the stack. -/
def iterate (c : LedgerConstants) (maxBlocks : ℕ) (l : Ledger) (s : BlockCementer)
    (hash : BlockHash) : Except Abort (Ledger × BlockCementer) :=
  match l.block.get hash with
  | none => .error .blockMissing
  | some block =>
    let stack := (block.dependentBlocks c).iter.foldl (pushDependent l maxBlocks) s.stack
    if stack.head? = some hash then
      let stack := stack.tail
      if isConfirmed l hash = false then
        .ok (cement l block, { stack := stack, result := block :: s.result })
      else .ok (l, { s with stack := stack })
    else .ok (l, { s with stack := stack })

/-- The body of the loop: an iteration, a possible refresh, and the early return. -/
def loopBody (c : LedgerConstants) (target : BlockHash) (maxBlocks : ℕ)
    (refresh : ℕ → Option Ledger) (i : ℕ) (x : Ledger × BlockCementer) :
    Except Abort ((Ledger × BlockCementer) ⊕ (Ledger × BlockCementer)) :=
  match x.2.stack with
  | [] => .ok (.inr x)
  | hash :: _ => do
    let (l, s) ← iterate c maxBlocks x.1 x.2 hash
    let l' := (refresh i).getD l
    if ((refresh i).isSome ∧ l'.block.contains target = false) ∨ maxBlocks ≤ s.result.length then
      return .inr (l', s)
    else return .inl (l', s)

/-- Confirm a block and everything it depends on, as far as the bounds allow. -/
def confirm (c : LedgerConstants) (fuel : ℕ) (refresh : ℕ → Option Ledger) (target : BlockHash)
    (maxBlocks : ℕ) (l : Ledger) : Except Abort (Ledger × BlockCementer) :=
  Loop.run .outOfFuel (loopBody c target maxBlocks refresh) fuel 0 (l, ⟨[target], []⟩)

end BlockCementer

/-- `Ledger::confirm`, when the transaction is not refreshed. -/
def Ledger.confirm (c : LedgerConstants) (fuel : ℕ) (l : Ledger) (hash : BlockHash) :
    Except Abort (Ledger × List SavedBlock) := do
  let (l, s) ← BlockCementer.confirm c fuel (fun _ => none) hash (1024 * 128) l
  return (l, s.result.reverse)

/-- What the observer of a batch is told. -/
inductive CementingEvent
  | alreadyConfirmed (hash : BlockHash)
  | cementingFailed (hash : BlockHash)
  | batchConfirmed (batch : List (SavedBlock × BlockHash))
  deriving DecidableEq

/-- The variables of `confirm_batch`: the ledger, the blocks that have not been reported yet with
the roots they were confirmed for, their number, and what was reported. -/
structure ConfirmBatch where
  ledger : Ledger
  confirmed : List (SavedBlock × BlockHash)
  blocksConfirmed : ℕ
  events : List CementingEvent
  deriving DecidableEq

namespace ConfirmBatch

/-- Report the confirmed blocks when there are enough of them. -/
def notifyIntermediate (maxBlocks : ℕ) (x : ConfirmBatch) : ConfirmBatch :=
  if maxBlocks ≤ x.blocksConfirmed then
    { x with
      confirmed := []
      blocksConfirmed := 0
      events := x.events ++ [.batchConfirmed x.confirmed] }
  else x

/-- Add what a call of the cementer has confirmed. -/
def addConfirmed (root : BlockHash) (x : ConfirmBatch) (ledger : Ledger)
    (added : List SavedBlock) : ConfirmBatch :=
  if added ≠ [] then
    { x with
      ledger
      confirmed := x.confirmed ++ added.map (·, root)
      blocksConfirmed := x.blocksConfirmed + added.length }
  else if ledger.isConfirmed root then
    { x with ledger, events := x.events ++ [.alreadyConfirmed root] }
  else { x with ledger }

/-- The body of the loop for one root. It returns whether the root is confirmed. -/
def loopBody (c : LedgerConstants) (fuel : ℕ) (root : BlockHash) (maxBlocks : ℕ) (_ : ℕ)
    (x : ConfirmBatch) : Except Abort (ConfirmBatch ⊕ (ConfirmBatch × Bool)) :=
  let x := x.notifyIntermediate maxBlocks
  if x.ledger.block.contains root = false then .ok (.inr (x, false))
  else do
    let (ledger, s) ← BlockCementer.confirm c fuel (fun _ => none) root maxBlocks x.ledger
    let x := x.addConfirmed root ledger s.result.reverse
    if BlockCementer.isConfirmed ledger root then return .inr (x, true) else return .inl x

/-- Confirm one root, as far as it takes. -/
def confirmRoot (c : LedgerConstants) (fuel maxBlocks : ℕ) (x : ConfirmBatch) (root : BlockHash) :
    Except Abort ConfirmBatch := do
  let (x, success) ← Loop.run .outOfFuel (loopBody c fuel root maxBlocks) fuel 0 x
  if success then return x
  else return { x with events := x.events ++ [.cementingFailed root] }

/-- Report the blocks that are left at the end. -/
def finish (x : ConfirmBatch) : ConfirmBatch :=
  if x.confirmed ≠ [] then { x with events := x.events ++ [.batchConfirmed x.confirmed] } else x

end ConfirmBatch

/-- `Ledger::confirm_batch`, when the transaction is not refreshed and nothing stops it. -/
def Ledger.confirmBatch (c : LedgerConstants) (fuel : ℕ) (batch : List BlockHash) (maxBlocks : ℕ)
    (l : Ledger) : Except Abort (Ledger × List CementingEvent) := do
  let x ← batch.foldlM (ConfirmBatch.confirmRoot c fuel maxBlocks) ⟨l, [], 0, []⟩
  return (x.finish.ledger, x.finish.events)

end RsNano
