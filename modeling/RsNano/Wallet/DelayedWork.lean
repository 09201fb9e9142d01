import RsNano.Types.Basic
import RsNano.Lib.Table

/-!
# Work that is generated later

A queue with at most one entry for each account, from which entries are taken by date. The entries
are in a table by account; a second index has their dates in ascending order. That every date
belongs to an entry of the table is part of the type.
-/

namespace RsNano

/-- The entries by account, and their dates in ascending order. -/
structure DelayedWorkQueue where
  byAccount : Table Account (Root × ℕ × WalletId)
  byDate : List (ℕ × Account)
  sound : ∀ date account, (date, account) ∈ byDate →
    ∃ root wallet, byAccount.get account = some (root, date, wallet)

namespace DelayedWorkQueue

def empty : DelayedWorkQueue := ⟨∅, [], fun _ _ h => nomatch h⟩

/-- The order of dates, and of accounts where the dates are equal. -/
def dateLe (x y : ℕ × Account) : Prop := x.1 < y.1 ∨ x.1 = y.1 ∧ x.2.number.toNat ≤ y.2.number.toNat

instance : DecidableRel dateLe := fun x y =>
  inferInstanceAs (Decidable (x.1 < y.1 ∨ x.1 = y.1 ∧ x.2.number.toNat ≤ y.2.number.toNat))

variable (q : DelayedWorkQueue)

/-- The dates that are left when the entry of an account goes away. -/
def datesWithout (account : Account) : List (ℕ × Account) :=
  match q.byAccount.get account with
  | some (_, timestamp, _) => q.byDate.filter (· ≠ (timestamp, account))
  | none => q.byDate

/-- No date of the account is left. -/
theorem mem_datesWithout {q : DelayedWorkQueue} {account : Account} {x : ℕ × Account}
    (h : x ∈ q.datesWithout account) : x ∈ q.byDate ∧ x.2 ≠ account := by
  obtain ⟨date, account'⟩ := x
  rw [datesWithout] at h
  split at h
  · next root timestamp wallet hget =>
    obtain ⟨hmem, hne⟩ := List.mem_filter.mp h
    refine ⟨hmem, ?_⟩
    rintro rfl
    obtain ⟨root', wallet', hget'⟩ := q.sound date account' hmem
    cases hget.symm.trans hget'
    exact of_decide_eq_true hne rfl
  · next hnone =>
    refine ⟨h, ?_⟩
    rintro rfl
    obtain ⟨root', wallet', hget'⟩ := q.sound date account' h
    cases hnone.symm.trans hget'

def insert (wallet : WalletId) (account : Account) (root : Root)
    (notBefore : ℕ) : DelayedWorkQueue where
  byAccount := q.byAccount.put account (root, notBefore, wallet)
  byDate := (q.datesWithout account).orderedInsert dateLe (notBefore, account)
  sound := by
    intro date account' h
    rcases (List.mem_orderedInsert _).mp h with h | h
    · cases h
      exact ⟨root, wallet, Table.get_put_self _ _ _⟩
    · obtain ⟨hmem, hne⟩ := mem_datesWithout h
      obtain ⟨root', wallet', hget⟩ := q.sound date account' hmem
      exact ⟨root', wallet', (Table.get_put_of_ne _ _ hne).trans hget⟩

def remove (account : Account) : DelayedWorkQueue where
  byAccount := q.byAccount.del account
  byDate := q.datesWithout account
  sound := by
    intro date account' h
    obtain ⟨hmem, hne⟩ := mem_datesWithout h
    obtain ⟨root, wallet, hget⟩ := q.sound date account' hmem
    exact ⟨root, wallet, (Table.get_del_of_ne _ hne).trans hget⟩

/-- Take the entry with the first date, if it is due. -/
def pop (now : ℕ) :
    Option ((WalletId × Account × Root) × DelayedWorkQueue) :=
  match q.byDate with
  | [] => none
  | (notBefore, account) :: _ =>
    if now < notBefore then none
    else (q.byAccount.get account).map fun entry =>
      ((entry.2.2, account, entry.1), q.remove account)

end DelayedWorkQueue

end RsNano
