import RsNano.Ledger.ConfirmedReceivable
import RsNano.Messages.AscPull

/-!
# Which frontiers are outdated

A response lists frontiers in the order of their accounts. Two crawlers move along the accounts and
the pending entries of the ledger. A crawler takes up to ten steps with the iterator that it has and
seeks anew if these do not get it to the account. Wherever it comes from, it then is where a new
crawler would be.
-/

namespace RsNano

open U256 List Table Option

/-- A table that is read in the order of accounts. -/
structure CrawlSource (V : Type) where
  iter : Account → List (Account × V)
  sorted : ∀ start, (iter start).Pairwise fun x y => byteLe x.1 y.1
  byteLe_of_mem : ∀ {start x}, x ∈ iter start → byteLe start x.1
  dropWhile_iter : ∀ {start target}, byteLe start target →
    ((iter start).dropWhile fun x => !decide (byteLe target x.1)) = iter target

/-- `AccountCrawlSource`. -/
def accountCrawlSource (l : Ledger) : CrawlSource AccountInfo where
  iter := l.accountsRange
  sorted _ := (pairwise_range byteLe _ _).imp And.left
  byteLe_of_mem h := ((mem_range byteLe).mp h).2
  dropWhile_iter := dropWhile_range byteLe

/-- `PendingCrawlSource`. -/
def pendingCrawlSource (l : Ledger) : CrawlSource PendingInfo where
  iter start := (l.pendingRange ⟨start, 0⟩).map fun x => (x.1.receivingAccount, x.2)
  sorted _ := List.pairwise_map.mpr
    ((pairwise_range PendingKey.byteLe _ _).imp fun hr => byteLe_of_pair_le hr.1)
  byteLe_of_mem h := by
    obtain ⟨x, hx, rfl⟩ := List.mem_map.mp h
    exact pair_zero_le_iff.mp ((mem_range PendingKey.byteLe).mp hx).2
  dropWhile_iter {start target} h := by
    have hle : PendingKey.byteLe ⟨start, 0⟩ ⟨target, 0⟩ := pair_zero_le_iff.mpr h
    have hrange := dropWhile_range PendingKey.byteLe (t := l.pending) hle
    have hiff : ∀ key : PendingKey, PendingKey.byteLe ⟨target, 0⟩ key ↔
        byteLe target key.receivingAccount := fun _ => pair_zero_le_iff
    simp only [hiff] at hrange
    rw [List.dropWhile_map]
    exact congrArg _ hrange

structure DatabaseCrawler (V : Type) where
  it : Option (List (Account × V))
  current : Option (Account × V)

namespace DatabaseCrawler

variable {V : Type} (source : CrawlSource V) (c : DatabaseCrawler V) {start target : Account}

/-- The first record of an iterator is current. -/
def positioned : List (Account × V) → DatabaseCrawler V
  | [] => ⟨none, none⟩
  | x :: it => ⟨some it, some x⟩

def seek (target : Account) : DatabaseCrawler V := positioned (source.iter target)

def targetReached (current : Option (Account × V)) (target : Account) : Bool :=
  current.any fun x => byteLe target x.1

def sequentialAttempts : ℕ := 10

/-- Steps of the iterator until the target is reached or the iterator ends. -/
def advanceLoop (target : Account) :
    ℕ → List (Account × V) → Option (Account × V) → DatabaseCrawler V × Bool
  | 0, it, current => (⟨some it, current⟩, false)
  | _ + 1, [], _ => (⟨none, none⟩, true)
  | attempts + 1, x :: it, _ =>
    if targetReached (some x) target then (⟨some it, some x⟩, true)
    else advanceLoop target attempts it (some x)

def advanceSequentially (target : Account) : DatabaseCrawler V × Bool :=
  match c.it with
  | none => (c, false)
  | some it => advanceLoop target sequentialAttempts it c.current

def advanceTo (target : Account) : DatabaseCrawler V :=
  if targetReached c.current target then c
  else
    let (c, reached) := c.advanceSequentially target
    if reached then c else seek source target

/-- The loop ends at the target, if it gets there. -/
theorem advanceLoop_eq (attempts : ℕ) (it : List (Account × V)) (current : Option (Account × V))
    (h : (advanceLoop target attempts it current).2 = true) :
    (advanceLoop target attempts it current).1 =
      positioned (it.dropWhile fun x => !decide (byteLe target x.1)) := by
  induction attempts generalizing it current with
  | zero => cases h
  | succ attempts ih =>
    cases it with
    | nil => rfl
    | cons x it =>
      by_cases hx : byteLe target x.1
      · simp [advanceLoop, targetReached, hx, positioned]
      · simp only [advanceLoop, targetReached, any_some, hx, decide_false,
          Bool.false_eq_true, if_false] at h ⊢
        rw [ih it (some x) h]
        simp [hx]

/-- A crawler that moves on is where a new one would be. -/
theorem advanceTo_positioned {records : List (Account × V)}
    (h : (records.dropWhile fun x => !decide (byteLe target x.1)) = source.iter target) :
    (positioned records).advanceTo source target = seek source target := by
  rw [seek, ← h, advanceTo]
  cases records with
  | nil => simp [positioned, targetReached, advanceSequentially, seek, ← h]
  | cons x it =>
    by_cases hx : byteLe target x.1
    · simp [positioned, targetReached, hx]
    · have hcur : targetReached (positioned (x :: it)).current target = false := by
        simp [positioned, targetReached, hx]
      have hloop : (positioned (x :: it)).advanceSequentially target =
        advanceLoop target sequentialAttempts it (some x) := rfl
      simp only [hcur, hloop, Bool.false_eq_true, if_false]
      split
      · next hreached =>
        rw [advanceLoop_eq _ _ _ hreached]
        simp [hx]
      · rw [seek, h]

theorem advanceTo_seek (h : byteLe start target) :
    (seek source start).advanceTo source target = seek source target :=
  advanceTo_positioned source (source.dropWhile_iter h)

theorem mem_iter_of_current {x : Account × V} (h : (seek source target).current = some x) :
    x ∈ source.iter target := by
  rw [seek] at h
  cases hiter : source.iter target with
  | nil => simp [hiter, positioned] at h
  | cons y it =>
    rw [hiter] at h
    exact some.inj h ▸ mem_cons_self

/-- The crawler is at a record of the target if the table has one. -/
theorem exists_current {v : V} (h : (target, v) ∈ source.iter target) :
    ∃ w, (seek source target).current = some (target, w) := by
  have hsort := source.sorted target
  have hle := @source.byteLe_of_mem target
  rw [seek]
  cases hiter : source.iter target with
  | nil =>
    rw [hiter] at h
    cases h
  | cons x it =>
    rw [hiter] at h hsort hle
    rcases mem_cons.mp h with rfl | hit
    · exact ⟨v, rfl⟩
    · have heq : target = x.1 := Std.Antisymm.antisymm _ _
        (hle mem_cons_self) ((pairwise_cons.mp hsort).1 _ hit)
      exact ⟨x.2, by rw [heq]; rfl⟩

end DatabaseCrawler

open DatabaseCrawler

inductive FrontierCheckResult
  | unknownAccount
  | upToDate
  | outdated
  | pending
  deriving DecidableEq

structure OutdatedAccounts where
  accounts : List Account
  outdated : ℕ
  pending : ℕ
  frontiersReceived : ℕ

instance : Inhabited OutdatedAccounts := ⟨⟨[], 0, 0, 0⟩⟩

/-- Count the result for an account. -/
def OutdatedAccounts.add (r : OutdatedAccounts) (account : Account) :
    FrontierCheckResult → OutdatedAccounts
  | .outdated => { r with outdated := r.outdated + 1, accounts := r.accounts ++ [account] }
  | .pending => { r with pending := r.pending + 1, accounts := r.accounts ++ [account] }
  | .unknownAccount | .upToDate => r

structure FrontierChecker where
  accountCrawler : DatabaseCrawler AccountInfo
  pendingCrawler : DatabaseCrawler PendingInfo

namespace Ledger

/-- The account exists, its head is another one and the block of the frontier is missing. -/
def Outdated (l : Ledger) (f : Frontier) : Prop :=
  ∃ info, l.account.get f.account = some info ∧ info.head ≠ f.hash ∧ l.blockExists f.hash = false

/-- The account does not exist and something is pending for it. -/
def Unopened (l : Ledger) (f : Frontier) : Prop :=
  l.account.get f.account = none ∧
    ∃ key info, l.pending.get key = some info ∧ key.receivingAccount = f.account

end Ledger

namespace FrontierChecker

variable (l : Ledger) (checker : FrontierChecker)

def initializeAt (start : Account) : FrontierChecker where
  accountCrawler := .seek (accountCrawlSource l) start
  pendingCrawler := .seek (pendingCrawlSource l) start

def advanceTo (account : Account) : FrontierChecker where
  accountCrawler := checker.accountCrawler.advanceTo (accountCrawlSource l) account
  pendingCrawler := checker.pendingCrawler.advanceTo (pendingCrawlSource l) account

/-- What the current records say about a frontier. -/
def currentResult (frontier : Frontier) : FrontierCheckResult :=
  match checker.accountCrawler.current.filter (·.1 = frontier.account) with
  | some (_, info) =>
    if info.head ≠ frontier.hash ∧ ¬ l.blockExists frontier.hash then .outdated else .upToDate
  | none =>
    if checker.pendingCrawler.current.any (·.1 = frontier.account) then .pending
    else .unknownAccount

def checkFrontier (frontier : Frontier) : FrontierChecker × FrontierCheckResult :=
  let checker := checker.advanceTo l frontier.account
  (checker, checker.currentResult l frontier)

/-- One frontier of a response. -/
def step (x : FrontierChecker × OutdatedAccounts) (frontier : Frontier) :
    FrontierChecker × OutdatedAccounts :=
  let (checker, result) := x.1.checkFrontier l frontier
  (checker, x.2.add frontier.account result)

def getOutdatedAccounts (frontiers : List Frontier) : FrontierChecker × OutdatedAccounts :=
  match frontiers with
  | [] => (checker, default)
  | first :: _ =>
    let (checker, r) := frontiers.foldl (step l) (initializeAt l first.account, default)
    (checker, { r with frontiersReceived := frontiers.length })

variable {l}

theorem current_account (account : Account) :
    (initializeAt l account).accountCrawler.current.filter (·.1 = account) =
      (l.account.get account).map fun info => (account, info) := by
  cases hget : l.account.get account with
  | none =>
    refine filter_eq_none_iff.mpr fun x hx hpass => ?_
    have hmem := mem_iter_of_current _ hx
    have hinfo := ((mem_range byteLe).mp hmem).1
    rw [of_decide_eq_true hpass, hget] at hinfo
    cases hinfo
  | some info =>
    have hmem : (account, info) ∈ (accountCrawlSource l).iter account :=
      (mem_range byteLe).mpr ⟨hget, Nat.le_refl _⟩
    obtain ⟨info', hcur⟩ := exists_current _ hmem
    have hget' := ((mem_range byteLe).mp (mem_iter_of_current _ hcur)).1
    rw [hget] at hget'
    cases hget'
    rw [initializeAt, hcur]
    simp

theorem current_pending (account : Account) :
    (initializeAt l account).pendingCrawler.current.any (·.1 = account) = true ↔
      ∃ key info, l.pending.get key = some info ∧ key.receivingAccount = account := by
  rw [Option.any_eq_true]
  constructor
  · rintro ⟨x, hx, hacc⟩
    obtain ⟨y, hy, rfl⟩ := mem_map.mp (mem_iter_of_current _ hx)
    exact ⟨y.1, y.2, ((mem_range PendingKey.byteLe).mp hy).1, of_decide_eq_true hacc⟩
  · rintro ⟨key, info, hget, rfl⟩
    have hmem : (key, info) ∈ l.pendingRange ⟨key.receivingAccount, 0⟩ :=
      (mem_range PendingKey.byteLe).mpr
        ⟨hget, pair_zero_le_iff.mpr (Nat.le_refl _)⟩
    obtain ⟨info', hcur⟩ := exists_current (pendingCrawlSource l) (mem_map.mpr ⟨_, hmem, rfl⟩)
    exact ⟨_, hcur, decide_eq_true rfl⟩

/-- A new lookup finds the outdated accounts. -/
theorem currentResult_eq_outdated_iff (f : Frontier) :
    (initializeAt l f.account).currentResult l f = .outdated ↔ l.Outdated f := by
  rw [currentResult, current_account, Ledger.Outdated]
  cases l.account.get f.account with
  | none =>
    dsimp only [map_none]
    split <;> simp
  | some info => simp

theorem currentResult_eq_pending_iff (f : Frontier) :
    (initializeAt l f.account).currentResult l f = .pending ↔ l.Unopened f := by
  rw [currentResult, current_account, Ledger.Unopened]
  cases l.account.get f.account with
  | none => simp [current_pending]
  | some info =>
    dsimp only [map_some]
    split <;> simp

theorem accounts_add (r : OutdatedAccounts) (account : Account) (result : FrontierCheckResult) :
    (r.add account result).accounts =
      r.accounts ++ if result = .outdated ∨ result = .pending then [account] else [] := by
  cases result <;> simp [OutdatedAccounts.add]

open Classical in
/-- Frontiers that follow each other are checked as by new lookups. -/
theorem accounts_foldl_step {frontiers : List Frontier} {start : Account} (r : OutdatedAccounts)
    (hbeg : ∀ f ∈ frontiers, byteLe start f.account)
    (h : frontiers.Pairwise fun f g => byteLe f.account g.account) :
    (frontiers.foldl (step l) (initializeAt l start, r)).2.accounts =
      r.accounts ++
        (frontiers.filter fun f => l.Outdated f ∨ l.Unopened f).map Frontier.account := by
  induction frontiers generalizing start r with
  | nil => simp
  | cons f frontiers ih =>
    rw [pairwise_cons] at h
    have hadv : (initializeAt l start).advanceTo l f.account = initializeAt l f.account := by
      have hle := hbeg f mem_cons_self
      simp only [advanceTo, initializeAt, advanceTo_seek _ hle]
    have hres := or_congr (currentResult_eq_outdated_iff (l := l) f)
      (currentResult_eq_pending_iff (l := l) f)
    rw [foldl_cons, step, checkFrontier, hadv, ih _ h.1 h.2, accounts_add, append_assoc]
    by_cases hf : l.Outdated f ∨ l.Unopened f
    · simp [hres, hf]
    · simp [hres, hf]

open Classical in
/-- For ascending frontiers the checker returns, in their order, the accounts that are outdated or
not opened yet. The state of its crawlers does not matter. -/
theorem accounts_getOutdatedAccounts (l : Ledger) (checker : FrontierChecker)
    {frontiers : List Frontier}
    (h : frontiers.Pairwise fun f g => f.account.number < g.account.number) :
    (checker.getOutdatedAccounts l frontiers).2.accounts =
      (frontiers.filter fun f => l.Outdated f ∨ l.Unopened f).map Frontier.account := by
  have hle : frontiers.Pairwise fun f g => U256.byteLe f.account g.account :=
    h.imp fun hlt => (BitVec.lt_def.mp hlt).le
  cases frontiers with
  | nil => rfl
  | cons first frontiers =>
    have hfirst : ∀ f ∈ first :: frontiers, U256.byteLe first.account f.account := by
      intro f hf
      rcases List.mem_cons.mp hf with rfl | hmem
      · exact Nat.le_refl _
      · exact (List.pairwise_cons.mp hle).1 f hmem
    exact accounts_foldl_step default hfirst hle

/-- After the first send of the dev network its destination is reported, the genesis account is
not. -/
theorem accounts_devSent :
    (getOutdatedAccounts .devSent ⟨⟨none, none⟩, ⟨none, none⟩⟩
      [⟨⟨devGenesisKey⟩, devSend.hash⟩, ⟨⟨devKeyOne⟩, 1⟩]).2.accounts = [⟨devKeyOne⟩] := by
  obtain ⟨info, hinfo⟩ : ∃ info,
      Ledger.devSent.pending.get ⟨⟨devKeyOne⟩, devSend.hash⟩ = some info :=
    isSome_iff_exists.mp (by decide +kernel)
  have hgenesis : ¬ (Ledger.devSent.Outdated ⟨⟨devGenesisKey⟩, devSend.hash⟩ ∨
      Ledger.devSent.Unopened ⟨⟨devGenesisKey⟩, devSend.hash⟩) := by
    rintro (⟨_, -, -, hmissing⟩ | ⟨hnone, -⟩)
    · exact absurd hmissing (by decide +kernel)
    · exact absurd hnone (by decide +kernel)
  have hkeyOne : Ledger.devSent.Unopened ⟨⟨devKeyOne⟩, 1⟩ :=
    ⟨by decide +kernel, _, _, hinfo, rfl⟩
  rw [accounts_getOutdatedAccounts _ _ (by decide)]
  simp [hgenesis, hkeyOne]

end FrontierChecker

end RsNano
