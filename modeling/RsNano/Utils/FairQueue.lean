import RsNano.Lib.Fifo
import RsNano.Lib.Loop
import RsNano.Lib.Numbering

/-!
# The fair queue

Items wait in one queue for each source. A cursor goes round over the sources in their order and
stays at a source for as many items as its priority allows. The cursor can point at a source whose
queue is gone, since `clear` does not reset it.

Lengths and counters are natural numbers: they stay far below the range of `usize`.
-/

namespace RsNano

/-- Why an operation does not return. -/
inductive FairQueuePanic
  | noQueue
  | queueMissing
  | queueEmpty
  | lengthUnderflow
  | outOfFuel
  deriving DecidableEq, Repr

namespace FairQueue

structure Entry (T : Type*) where
  requests : List T
  priority : ℕ
  maxSize : ℕ

namespace Entry

variable {T : Type*}

def new (maxSize priority : ℕ) : Entry T := ⟨[], priority, maxSize⟩

variable (e : Entry T)

def pop : Option T × Entry T :=
  match e.requests with
  | [] => (none, e)
  | item :: rest => (some item, { e with requests := rest })

def push (request : T) : Entry T × Bool :=
  if e.requests.length < e.maxSize then ({ e with requests := e.requests ++ [request] }, true)
  else (e, false)

def isEmpty : Bool := e.requests.isEmpty

def len : ℕ := e.requests.length

end Entry

end FairQueue

/-- Items of type `T` from sources of type `S`. -/
structure FairQueue (S T : Type*) where
  queues : Table S (FairQueue.Entry T)
  currentQueueKey : Option S
  maxSizeQuery : S → ℕ
  priorityQuery : S → ℕ
  counter : ℕ
  totalLen : ℕ

namespace FairQueue

variable {S T : Type*} [LinearOrder S]

def new (maxSizeQuery priorityQuery : S → ℕ) : FairQueue S T where
  queues := ∅
  currentQueueKey := none
  maxSizeQuery := maxSizeQuery
  priorityQuery := priorityQuery
  counter := 0
  totalLen := 0

variable (q : FairQueue S T)

def len : ℕ := q.totalLen

/-- The sum of the queue lengths over all sources. -/
def sumQueueLen : ℕ := q.queues.sumBy fun _ e => e.len

def clear : FairQueue S T := { q with queues := ∅, totalLen := 0 }

/-- Push an item to the queue of its source. It is dropped if the queue is full. -/
def push (source : S) (item : T) : FairQueue S T × Bool :=
  let entry := (q.queues.get source).getD
    (.new (q.maxSizeQuery source) (q.priorityQuery source))
  match entry.push item with
  | (entry, true) =>
    ({ q with queues := q.queues.put source entry, totalLen := q.totalLen + 1 }, true)
  | (entry, false) => ({ q with queues := q.queues.put source entry }, false)

def shouldSeek : Bool :=
  match q.currentQueueKey with
  | some key =>
    match q.queues.get key with
    | some queue => queue.isEmpty || decide (queue.priority ≤ q.counter)
    | none => true
  | none => true

/-- The source behind the cursor. The first source of the range is skipped, also if it is not the
current one. -/
def nextKey : Option S :=
  match q.currentQueueKey with
  | some current => ((q.queues.sortedKeys (· ≤ ·)).filter (current ≤ ·)).tail.head?
  | none => none

/-- The sources in their order. -/
def keys : List S := q.queues.sortedKeys (· ≤ ·)

/-- One iteration of the search for a queue that is not empty. -/
def seekStep : Except FairQueuePanic (FairQueue S T ⊕ FairQueue S T) :=
  match q.nextKey <|> (q.queues.sortedKeys (· ≤ ·)).head? with
  | none => .error .noQueue
  | some key =>
    match q.queues.get key with
    | none => .error .queueMissing
    | some queue =>
      let q := { q with currentQueueKey := some key }
      .ok (if queue.isEmpty then .inl q else .inr q)

/-- Move the cursor to the next queue that is not empty. The cursor passes each queue at most
twice. -/
def seekNext : Except FairQueuePanic (FairQueue S T) :=
  Loop.run .outOfFuel (fun _ => seekStep) (2 * q.queues.size) 0 { q with counter := 0 }

/-- Take an item from the queue under the cursor. -/
def popCurrent : Except FairQueuePanic (Option (S × T) × FairQueue S T) :=
  match q.currentQueueKey with
  | none => .ok (none, q)
  | some key =>
    match q.queues.get key with
    | none => .error .queueMissing
    | some queue =>
      match queue.pop with
      | (none, _) => .error .queueEmpty
      | (some item, queue) =>
        .ok (some (key, item),
          { q with
            queues := q.queues.put key queue
            counter := q.counter + 1
            totalLen := q.totalLen - 1 })

def next : Except FairQueuePanic (Option (S × T) × FairQueue S T) :=
  if q.totalLen = 0 then .ok (none, q)
  else do
    let q ← if q.shouldSeek then q.seekNext else .ok q
    q.popCurrent

/-- Call `next` as often as given. -/
def nextBatchLoop : ℕ → List (S × T) → FairQueue S T →
    Except FairQueuePanic (List (S × T) × FairQueue S T)
  | 0, result, q => .ok (result, q)
  | count + 1, result, q => do
    match ← q.next with
    | (none, _) => .error .queueEmpty
    | (some item, q) => nextBatchLoop count (result ++ [item]) q

def nextBatch (maxCount : ℕ) : Except FairQueuePanic (List (S × T) × FairQueue S T) :=
  nextBatchLoop (min q.len maxCount) [] q

def remove (key : S) : Except FairQueuePanic (FairQueue S T) :=
  match q.queues.get key with
  | none => .ok q
  | some removed =>
    if q.totalLen < removed.len then .error .lengthUnderflow
    else
      .ok { q with
        queues := q.queues.del key
        totalLen := q.totalLen - removed.len
        currentQueueKey := none }

end FairQueue

end RsNano
