import RsNano.Ledger.Chain

/-!
# Processing blocks

A batch is validated on a read snapshot and inserted later, under a write transaction. The two
ledgers are separate arguments of `processBatch`: other transactions can be committed between
them. A block whose account has changed since is reported as a conflict.
-/

namespace RsNano.Ledger

/-- Insert the validated blocks of a batch in one write transaction. -/
def insertAll : List (Block × Except BlockError BlockInsertInstructions) → Ledger →
    Except Abort (Ledger × List (Except BlockError SavedBlock))
  | [], l => return (l, [])
  | (_, .error e) :: rest, l => do
    let (l, processed) ← insertAll rest l
    return (l, .error e :: processed)
  | (b, .ok instructions) :: rest, l => do
    match ← l.insert b instructions with
    | some (l, sb) =>
      let (l, processed) ← insertAll rest l
      return (l, .ok sb :: processed)
    | none =>
      let (l, processed) ← insertAll rest l
      return (l, .error .conflict :: processed)

/-- Validate a batch on a snapshot and insert it into the ledger of the write transaction. -/
def processBatch (c : LedgerConstants) (clock : ℕ → ℕ) (snapshot l : Ledger)
    (batch : List Block) : Except Abort (Ledger × List (Except BlockError SavedBlock)) :=
  insertAll (batch.mapIdx fun i b => (b, (snapshot.createValidator c b (clock i)).validate)) l

/-- Process a single block, with nothing in between. -/
def processOne (c : LedgerConstants) (now : ℕ) (l : Ledger) (b : Block) :
    Except Abort (Ledger × List (Except BlockError SavedBlock)) :=
  processBatch c (fun _ => now) l l [b]

/-- Whether a block is accepted and inserted. -/
def accepts (c : LedgerConstants) (l : Ledger) (b : Block) : Bool :=
  match l.processOne c 0 b with
  | .ok (_, [.ok _]) => true
  | _ => false

/-- The ledger after a block has been processed. -/
def processed (c : LedgerConstants) (l : Ledger) (b : Block) : Ledger :=
  match l.processOne c 0 b with
  | .ok (l', _) => l'
  | .error _ => l

/-- A block that is processed successfully is an accepted block that is inserted. -/
theorem inserts_of_processOne {c : LedgerConstants} {now : ℕ} {l l' : Ledger} {b : Block}
    {sb : SavedBlock} (h : l.processOne c now b = .ok (l', [.ok sb])) : l.Inserts c b l' := by
  simp only [processOne, processBatch, List.mapIdx_cons, List.mapIdx_nil] at h
  cases hval : (l.createValidator c b now).validate with
  | error e => simp [hval, insertAll, pure, Except.pure, bind, Except.bind] at h
  | ok i =>
    simp only [hval, insertAll, bind_eq_ok] at h
    obtain ⟨r, hins, h⟩ := h
    cases r with
    | none => simp [pure, Except.pure, bind, Except.bind] at h
    | some x =>
      obtain ⟨l1, sb1⟩ := x
      simp [pure, Except.pure, bind, Except.bind] at h
      obtain ⟨rfl, rfl⟩ := h
      exact ⟨now, i, sb1, hval, hins⟩

/-- What `accepts` promises. -/
theorem inserts_processed {c : LedgerConstants} {l : Ledger} {b : Block}
    (h : l.accepts c b = true) : l.Inserts c b (l.processed c b) := by
  rw [accepts] at h
  split at h
  · next l' sb heq =>
    have hproc : l.processed c b = l' := by rw [processed, heq]
    rw [hproc]
    exact inserts_of_processOne heq
  · cases h

end RsNano.Ledger
