import RsNano.Lib.Range
import RsNano.Ledger.Cemented

/-!
# The receivable entries of the confirmed set

The pending table is ordered by receiving account and send hash. The iterator takes the account of
the first entry from the requested account on whose send is confirmed, and ends with the entries of
that account. Each step is a fresh range read behind the last hash; there is none behind the
greatest hash.
-/

namespace RsNano

open List PendingKey Table

namespace PendingKey

/-- The bytes of the key as a number. -/
def number (key : PendingKey) : ℕ := key.receivingAccount.pair key.sendBlockHash

theorem number_injective : Function.Injective number := by
  rintro ⟨account, hash⟩ ⟨account', hash'⟩ h
  obtain ⟨rfl, rfl⟩ := U256.pair_inj.mp h
  rfl

/-- The order of the bytes. -/
abbrev byteLe : PendingKey → PendingKey → Prop := NumberLe number

instance : Std.Antisymm byteLe := ⟨fun _ _ h h' => number_injective (Nat.le_antisymm h h')⟩

variable {x y : PendingKey}

/-- The keys behind a key are those from the next hash on. -/
theorem byteLe_inc {hash : BlockHash} (h : x.sendBlockHash.inc = some hash) :
    byteLe ⟨x.receivingAccount, hash⟩ y ↔ x.byteLe y ∧ x ≠ y := by
  have hhash := U256.toNat_of_inc h
  have hne : x ≠ y ↔ x.number ≠ y.number := number_injective.ne_iff.symm
  simp only [byteLe, NumberLe, hne]
  simp only [number, U256.pair, hhash]
  omega

/-- Behind the greatest hash comes another account. -/
theorem account_ne_of_inc (h : x.sendBlockHash.inc = none) (hle : x.byteLe y) (hne : x ≠ y) :
    y.receivingAccount ≠ x.receivingAccount := by
  have hnum := number_injective.ne_iff.mpr hne
  intro hacc
  rw [U256.inc] at h
  split at h
  · cases h
  · simp only [byteLe, NumberLe, number, U256.pair, hacc] at hle hnum
    omega

end PendingKey

namespace Ledger

/-- `pending.iter_range(start..)`. -/
def pendingRange (l : Ledger) (start : PendingKey) : List (PendingKey × PendingInfo) :=
  l.pending.range byteLe start

/-- The entries from a key on are read until the send of one is confirmed. -/
def firstReceivableLowerBound (l : Ledger) (account : Account) (sendHash : BlockHash) :
    Option (PendingKey × PendingInfo) :=
  (l.pendingRange ⟨account, sendHash⟩).find? fun x => l.isConfirmed x.1.sendBlockHash

end Ledger

structure ConfirmedReceivableIterator where
  requestedAccount : Account
  actualAccount : Option Account
  nextHash : Option BlockHash

namespace ConfirmedReceivableIterator

variable (l : Ledger)

/-- The next entry with the iterator behind it. -/
def next (it : ConfirmedReceivableIterator) :
    Option ((PendingKey × PendingInfo) × ConfirmedReceivableIterator) := do
  let hash ← it.nextHash
  let account := it.actualAccount.getD it.requestedAccount
  let (key, info) ← l.firstReceivableLowerBound account hash
  match it.actualAccount with
  | some account =>
    if key.receivingAccount = account then
      some ((key, info), { it with nextHash := key.sendBlockHash.inc })
    else none
  | none =>
    some ((key, info),
      { it with actualAccount := some key.receivingAccount, nextHash := key.sendBlockHash.inc })

/-- All entries of the iterator. -/
def collect : ℕ → ConfirmedReceivableIterator → Except Abort (List (PendingKey × PendingInfo))
  | 0, _ => .error .outOfFuel
  | fuel + 1, it =>
    match it.next l with
    | none => .ok []
    | some (x, it') => (collect fuel it').map (x :: ·)

end ConfirmedReceivableIterator

open ConfirmedReceivableIterator

namespace Ledger

/-- `receivable_lower_bound(account)`. -/
def receivableLowerBound (account : Account) : ConfirmedReceivableIterator :=
  ⟨account, none, some 0⟩

variable {c : LedgerConstants} {minWeight : Amount} {l : Ledger} {x : PendingKey × PendingInfo}
  {rest : List (PendingKey × PendingInfo)} {start : PendingKey}

/-- The entries with confirmed sends, from a key on. -/
def confirmedRange (l : Ledger) (start : PendingKey) : List (PendingKey × PendingInfo) :=
  (l.pendingRange start).filter fun x => l.isConfirmed x.1.sendBlockHash

theorem firstReceivableLowerBound_eq (account : Account) (hash : BlockHash) :
    l.firstReceivableLowerBound account hash = (l.confirmedRange ⟨account, hash⟩).head? :=
  head?_filter.symm

theorem mem_confirmedRange : x ∈ l.confirmedRange start ↔
    (l.pending.get x.1 = some x.2 ∧ start.byteLe x.1) ∧ l.isConfirmed x.1.sendBlockHash = true := by
  rw [confirmedRange, mem_filter, pendingRange, Table.mem_range]

theorem pairwise_confirmedRange (l : Ledger) (start : PendingKey) :
    (l.confirmedRange start).Pairwise fun x y => x.1.byteLe y.1 ∧ x.1 ≠ y.1 :=
  (pairwise_range byteLe _ _).filter _

theorem length_confirmedRange_le (l : Ledger) (start : PendingKey) :
    (l.confirmedRange start).length ≤ l.pending.size := by
  refine (length_filter_le _ _).trans ((length_filterMap_le _ _).trans ?_)
  exact (length_filter_le _ _).trans (length_sortedKeys _ _).le

/-- Behind an entry the iterator returns the following entries of its account. -/
theorem collect_behind (requested : Account) {fuel : ℕ} (h : l.confirmedRange start = x :: rest)
    (hfuel : rest.length < fuel) :
    collect l fuel
        ⟨requested, some x.1.receivingAccount, x.1.sendBlockHash.inc⟩ =
      .ok (rest.takeWhile fun y => y.1.receivingAccount = x.1.receivingAccount) := by
  induction rest generalizing start x fuel with
  | nil =>
    obtain ⟨fuel, rfl⟩ := Nat.exists_eq_add_of_lt hfuel
    cases hinc : x.1.sendBlockHash.inc with
    | none => rfl
    | some hash =>
      have hnext : l.confirmedRange ⟨x.1.receivingAccount, hash⟩ = [] :=
        filter_range_next _ h fun _ => byteLe_inc hinc
      simp [collect, ConfirmedReceivableIterator.next, firstReceivableLowerBound_eq, hnext]
  | cons y rest ih =>
    obtain ⟨fuel, rfl⟩ := Nat.exists_eq_add_of_lt hfuel
    have hsort := pairwise_confirmedRange l start
    rw [h, pairwise_cons] at hsort
    obtain ⟨hle, hne⟩ := hsort.1 y mem_cons_self
    cases hinc : x.1.sendBlockHash.inc with
    | none =>
      have hacc := account_ne_of_inc hinc hle hne
      simp [collect, ConfirmedReceivableIterator.next, hacc]
    | some hash =>
      have hnext : l.confirmedRange ⟨x.1.receivingAccount, hash⟩ = y :: rest :=
        filter_range_next _ h fun _ => byteLe_inc hinc
      by_cases hacc : y.1.receivingAccount = x.1.receivingAccount
      · have hrest := ih hnext (by omega : rest.length < rest.length + 1 + fuel)
        rw [hacc] at hrest
        simp [collect, ConfirmedReceivableIterator.next, firstReceivableLowerBound_eq, hnext,
          hacc, hrest, Except.map]
      · simp [collect, ConfirmedReceivableIterator.next, firstReceivableLowerBound_eq, hnext, hacc]

/-- The first account from the given one on that has an entry whose send is confirmed. -/
structure FirstReceivable (l : Ledger) (account a : Account) : Prop where
  le : U256.byteLe account a
  receivable : ∃ key info, l.pending.get key = some info ∧ l.Confirmed key.sendBlockHash ∧
    key.receivingAccount = a
  first : ∀ key info, l.pending.get key = some info → l.Confirmed key.sendBlockHash →
    U256.byteLe account key.receivingAccount → U256.byteLe a key.receivingAccount

section

variable {account : Account} (hl : l.Chained)

include hl

theorem Chained.mem_confirmedRange : x ∈ l.confirmedRange ⟨account, 0⟩ ↔
    l.pending.get x.1 = some x.2 ∧ l.Confirmed x.1.sendBlockHash ∧
      U256.byteLe account x.1.receivingAccount := by
  have hconf : l.isConfirmed x.1.sendBlockHash = true ↔ l.Confirmed x.1.sendBlockHash :=
    ⟨confirmed_of_isConfirmed, hl.isConfirmed_of_confirmed⟩
  rw [Ledger.mem_confirmedRange]
  rw [show byteLe ⟨account, 0⟩ x.1 ↔ _ from U256.pair_zero_le_iff]
  tauto

theorem Chained.firstReceivable_iff (h : l.confirmedRange ⟨account, 0⟩ = x :: rest)
    {a : Account} : l.FirstReceivable account a ↔ a = x.1.receivingAccount := by
  obtain ⟨hx, hconf, hle⟩ := hl.mem_confirmedRange.mp (h ▸ mem_cons_self)
  have hfst : ∀ key info, l.pending.get key = some info → l.Confirmed key.sendBlockHash →
      U256.byteLe account key.receivingAccount →
        U256.byteLe x.1.receivingAccount key.receivingAccount := by
    intro key info hget hkey hacc
    have hmem : (key, info) ∈ l.confirmedRange ⟨account, 0⟩ :=
      hl.mem_confirmedRange.mpr ⟨hget, hkey, hacc⟩
    have hsort := pairwise_confirmedRange l ⟨account, 0⟩
    rw [h] at hmem hsort
    rcases mem_cons.mp hmem with rfl | hrest
    · exact Nat.le_refl _
    · exact U256.byteLe_of_pair_le ((pairwise_cons.mp hsort).1 _ hrest).1
  constructor
  · rintro ⟨hacc, ⟨key, info, hget, hkey, rfl⟩, ha⟩
    exact Std.Antisymm.antisymm _ _ (ha _ _ hx hconf hle) (hfst _ _ hget hkey hacc)
  · rintro rfl
    exact ⟨hle, ⟨x.1, x.2, hx, hconf, rfl⟩, hfst⟩

end

/-- Keys between two keys of one account are keys of that account. -/
theorem takeWhile_account (h : (∀ y ∈ rest, x.1.byteLe y.1 ∧ x.1 ≠ y.1) ∧
    rest.Pairwise fun y z => y.1.byteLe z.1 ∧ y.1 ≠ z.1) :
    (rest.takeWhile fun y => y.1.receivingAccount = x.1.receivingAccount) =
      rest.filter fun y => y.1.receivingAccount = x.1.receivingAccount := by
  refine takeWhile_eq_filter (R := fun y z => x.1.byteLe y.1 ∧ y.1.byteLe z.1) ?_ ?_
  · exact h.2.imp_of_mem fun hy _ hr => ⟨(h.1 _ hy).1, hr.1⟩
  · intro y z hr hz
    refine decide_eq_true (Std.Antisymm.antisymm _ _ ?_ (U256.byteLe_of_pair_le hr.1))
    exact of_decide_eq_true hz ▸ U256.byteLe_of_pair_le hr.2

/-- On every reachable ledger the iterator returns the entries of the first account with a confirmed
send, those with confirmed sends and no others, in the order of their hashes. -/
theorem collect_receivableLowerBound (h : Reachable c minWeight l) (account : Account) :
    ∃ items, (∀ fuel, l.pending.size < fuel →
        (receivableLowerBound account).collect l fuel = .ok items) ∧
      l.firstReceivableLowerBound account 0 = items.head? ∧
      (items.Pairwise fun x y => U256.byteLe x.1.sendBlockHash y.1.sendBlockHash ∧
        x.1.sendBlockHash ≠ y.1.sendBlockHash) ∧
      ∀ x, x ∈ items ↔ l.pending.get x.1 = some x.2 ∧ l.Confirmed x.1.sendBlockHash ∧
        l.FirstReceivable account x.1.receivingAccount := by
  have hlength := length_confirmedRange_le l ⟨account, 0⟩
  have hsorted := pairwise_confirmedRange l ⟨account, 0⟩
  have hmem : ∀ {x}, x ∈ l.confirmedRange ⟨account, 0⟩ ↔ _ := h.chained.mem_confirmedRange
  cases hrange : l.confirmedRange ⟨account, 0⟩ with
  | nil =>
    rw [hrange] at hmem
    refine ⟨[], fun fuel hfuel => ?_, ?_, List.Pairwise.nil, fun x => ⟨nofun, ?_⟩⟩
    · obtain ⟨fuel, rfl⟩ := Nat.exists_eq_add_of_lt hfuel
      simp [receivableLowerBound, collect, ConfirmedReceivableIterator.next,
        firstReceivableLowerBound_eq, hrange]
    · rw [firstReceivableLowerBound_eq, hrange]
    · rintro ⟨hget, hconfirmed, hfirst⟩
      exact hmem.mpr ⟨hget, hconfirmed, hfirst.le⟩
  | cons x rest =>
    have hiff : ∀ {a}, l.FirstReceivable account a ↔ a = x.1.receivingAccount :=
      h.chained.firstReceivable_iff hrange
    rw [hrange] at hlength hsorted hmem
    refine ⟨(x :: rest).filter fun y => y.1.receivingAccount = x.1.receivingAccount,
      fun fuel hfuel => ?_, ?_, ?_, fun y => ?_⟩
    · obtain ⟨fuel, rfl⟩ := Nat.exists_eq_add_of_lt hfuel
      rw [List.length_cons] at hlength
      have hrest := collect_behind account hrange (by omega : rest.length < l.pending.size + fuel)
      rw [takeWhile_account (List.pairwise_cons.mp hsorted)] at hrest
      simp [receivableLowerBound, collect, ConfirmedReceivableIterator.next,
        firstReceivableLowerBound_eq, hrange, hrest, Except.map]
    · simp [firstReceivableLowerBound_eq, hrange]
    · refine (hsorted.filter _).imp_of_mem fun hy hz hr => ?_
      have haccount := (of_decide_eq_true (List.mem_filter.mp hz).2).trans
        (of_decide_eq_true (List.mem_filter.mp hy).2).symm
      refine ⟨?_, fun hhash => hr.2 (number_injective ?_)⟩
      · have hle : U256.pair _ _ ≤ U256.pair _ _ := hr.1
        rw [haccount] at hle
        exact Nat.le_of_add_le_add_left hle
      · rw [number, number, haccount, hhash]
    · rw [List.mem_filter, decide_eq_true_iff, hmem, hiff]
      constructor
      · rintro ⟨⟨hget, hconfirmed, -⟩, haccount⟩
        exact ⟨hget, hconfirmed, haccount⟩
      · rintro ⟨hget, hconfirmed, haccount⟩
        exact ⟨⟨hget, hconfirmed, (hiff.mpr haccount).le⟩, haccount⟩

/-- The entry of the first send of the dev network is returned once the send is cemented. -/
theorem collect_devSent : ∃ l items, Reachable devConstants 0 l ∧ (∀ fuel, l.pending.size < fuel →
    (receivableLowerBound 1).collect l fuel = .ok items) ∧ items ≠ [] := by
  have hsent : InsertRun devConstants (fun _ _ => True) (genesis devConstants 0) devSent :=
    insertRun_devSent trivial
  obtain ⟨⟨l, s⟩, hconfirm, htest⟩ := exists_eq_ok
    (x := BlockCementer.confirm devConstants 3 (fun _ => none) devSend.hash 1 devSent)
    (p := fun r => decide (r.1.pending = (∅ : Table _ _).put ⟨⟨devKeyOne⟩, devSend.hash⟩
      ⟨⟨devGenesisKey⟩, 1, .epoch0⟩ ∧ r.1.isConfirmed devSend.hash = true)) (by decide +kernel)
  obtain ⟨hpending, hconfirmed⟩ := of_decide_eq_true htest
  have hconfirmed := confirmed_of_isConfirmed hconfirmed
  have hreach : Reachable devConstants 0 l :=
    hsent.run.trans (Run.of_confirm (fun _ _ _ _ _ _ _ _ hnone => by cases hnone) hconfirm)
  obtain ⟨items, hcollect, -, -, hmem⟩ := collect_receivableLowerBound hreach 1
  refine ⟨l, items, hreach, hcollect, List.ne_nil_of_mem ((hmem (⟨⟨devKeyOne⟩, devSend.hash⟩,
    ⟨⟨devGenesisKey⟩, 1, .epoch0⟩)).mpr ?_)⟩
  rw [hpending]
  refine ⟨rfl, hconfirmed, by decide, ⟨_, _, hpending ▸ get_put_self _ _ _, hconfirmed, rfl⟩,
    fun key info hkey _ _ => ?_⟩
  rw [hpending] at hkey
  obtain ⟨rfl, -⟩ := eq_of_get_put_empty hkey
  exact Nat.le_refl _

end Ledger

end RsNano
