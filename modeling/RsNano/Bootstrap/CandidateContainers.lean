import RsNano.Bootstrap.CandidateAccounts
import Mathlib.Tactic.Ring

/-!
# The containers of the candidate accounts

The operations of the two containers are specified: each returns, keeps the indexes exact, and is
described by what it does to the table of the entries. The loops that remove the dependents of an
account and the old entries end because they make the container smaller.
-/

namespace RsNano

open Index Table Function PriorityEntry BlockingEntry

theorem removeFromIndex_ok {K : Type*} [DecidableEq K] {t : Table K (List Account)}
    {key : Account → Option K} {k : K} {a : Account} (h : Indexes t key) (hkey : key a = some k) :
    ∃ t', removeFromIndex t k a = .ok t' ∧ Indexes t' (update key a none) := by
  obtain ⟨accounts, hget, -⟩ := h.get_of_key hkey
  refine ⟨withdraw t k accounts a, ?_, h.withdraw hkey hget⟩
  rw [removeFromIndex, hget]

theorem findEntry_ok {V : Type} {t : Table Account V} {filter : V → Bool} {accounts : List Account}
    (h : ∀ a ∈ accounts, ∃ v, t.get a = some v) :
    ∃ result, findEntry t filter accounts = .ok result := by
  induction accounts with
  | nil => exact ⟨none, rfl⟩
  | cons a accounts ih =>
    obtain ⟨v, hget⟩ := h a List.mem_cons_self
    rw [findEntry, hget]
    by_cases hv : filter v = true
    · exact ⟨some v, if_pos hv⟩
    · obtain ⟨result, hres⟩ := ih fun a' ha' => h a' (List.mem_cons_of_mem _ ha')
      exact ⟨result, (if_neg hv).trans hres⟩

/-- What a table without a record says about its keys. -/
theorem get_eq_none_of_not_contains {V : Type} {t : Table Account V} {a : Account}
    (h : ¬ t.contains a = true) : t.get a = none := by
  rw [contains, Option.isSome_iff_ne_none, not_not] at h
  exact h

/-! ### Priorities -/

namespace PriorityContainer

variable {P : Type} [LinearOrder P] {c : PriorityContainer P} {a : Account} {e : PriorityEntry P}

/-- The entries are stored under their accounts, and listed under their priorities. -/
structure Valid (c : PriorityContainer P) : Prop where
  account_eq : ∀ {a e}, c.byAccount.get a = some e → e.account = a
  byPriority : Indexes c.byPriority (keyOf priority c.byAccount)

theorem Valid.empty : (⟨∅, ∅⟩ : PriorityContainer P).Valid := by
  refine ⟨fun h => ?_, ?_⟩
  · cases h
  · have : keyOf priority (∅ : Table Account (PriorityEntry P)) = fun _ => none := by
      funext a
      rw [keyOf, get_empty]
      rfl
    rw [this]
    exact Indexes.empty

/-- An account is added to the set of its priority. -/
theorem addPriority_indexes {key : Account → Option P} (h : Indexes c.byPriority key)
    (hnew : key a = none) (p : P) :
    Indexes (c.addPriority a p).byPriority (update key a (some p)) := by
  refine h.put hnew (fun a' => List.mem_insert_iff) ?_
  exact (h.nodup p).insert

variable (h : c.Valid)

include h

namespace Valid

theorem insert (hnew : c.byAccount.get e.account = none) :
    (c.insert e).1.Valid ∧ (c.insert e).1.byAccount = c.byAccount.put e.account e := by
  have hins : c.insert e = ({ c with byAccount := c.byAccount.put e.account e }.addPriority
      e.account e.priority, true) := by
    rw [PriorityContainer.insert, contains, Table.contains, hnew]
    rfl
  rw [hins]
  refine ⟨⟨Table.forall_get_put h.account_eq rfl, ?_⟩, rfl⟩
  change Indexes _ (keyOf _ (c.byAccount.put e.account e))
  rw [keyOf_put]
  refine addPriority_indexes (c := { c with byAccount := c.byAccount.put e.account e })
    h.byPriority ?_ e.priority
  rw [keyOf, hnew]
  rfl

/-- An entry is taken out of the index whatever is done to its record. -/
theorem removePriority (hget : c.byAccount.get a = some e)
    (byAccount : Table Account (PriorityEntry P)) :
    ∃ byPriority, PriorityContainer.removePriority { c with byAccount } a e.priority =
        .ok ⟨byAccount, byPriority⟩ ∧
      Indexes byPriority (update (keyOf priority c.byAccount) a none) := by
  obtain ⟨byPriority, hrem, hidx⟩ := removeFromIndex_ok h.byPriority (keyOf_of_get hget)
  refine ⟨byPriority, ?_, hidx⟩
  exact bind_eq_ok.mpr ⟨byPriority, hrem, rfl⟩

theorem del {byPriority : Table P (List Account)}
    (hidx : Indexes byPriority (update (keyOf priority c.byAccount) a
    none)) : (⟨c.byAccount.del a, byPriority⟩ : PriorityContainer P).Valid := by
  refine ⟨fun hget' => h.account_eq (get_of_get_del hget').2, ?_⟩
  rw [keyOf_del]
  exact hidx

theorem remove (a : Account) :
    ∃ c', c.remove a = .ok (c', c.byAccount.get a) ∧ c'.Valid ∧
      c'.byAccount = c.byAccount.del a := by
  cases hget : c.byAccount.get a with
  | none =>
    refine ⟨c, ?_, h, (del_of_get_none hget).symm⟩
    rw [PriorityContainer.remove, hget]
  | some e =>
    obtain ⟨byPriority, hrem, hidx⟩ := h.removePriority hget (c.byAccount.del a)
    refine ⟨⟨c.byAccount.del a, byPriority⟩, ?_, h.del hidx, rfl⟩
    rw [PriorityContainer.remove, hget]
    exact bind_eq_ok.mpr ⟨_, hrem, rfl⟩

theorem removeAccount (hget : c.byAccount.get a = some e) :
    ∃ c', c.removeAccount a = .ok (c', e) ∧ c'.Valid ∧ c'.byAccount = c.byAccount.del a := by
  obtain ⟨byPriority, hrem, hidx⟩ := h.removePriority hget (c.byAccount.del a)
  refine ⟨⟨c.byAccount.del a, byPriority⟩, ?_, h.del hidx, rfl⟩
  rw [PriorityContainer.removeAccount, hget]
  exact bind_eq_ok.mpr ⟨_, hrem, rfl⟩

/-- The accounts of a set are stored, whatever the order. -/
theorem exists_of_mem (order : SetOrder) {p : P}
    (hmem : a ∈ order.1 (listed c.byPriority p)) : ∃ e, c.byAccount.get a = some e := by
  rw [(order.2 _).mem_iff, h.byPriority.lists.mem_iff, keyOf_eq_some] at hmem
  obtain ⟨e, hget, -⟩ := hmem
  exact ⟨e, hget⟩

/-- There is an account with the lowest priority unless the container is empty. -/
theorem popLowestPrio (order : SetOrder) (hlen : c.len ≠ 0) :
    ∃ c' a e, c.popLowestPrio order = .ok (c', some e) ∧ c'.Valid ∧
      c.byAccount.get a = some e ∧ c'.byAccount = c.byAccount.del a := by
  cases hlast : c.sortedPriorities.getLast? with
  | none =>
    exfalso
    rw [List.getLast?_eq_none_iff] at hlast
    refine hlen (Nat.le_zero.mp (Nat.le_of_not_lt fun hpos => ?_))
    obtain ⟨⟨a, e⟩, hmem⟩ := Multiset.card_pos_iff_exists_mem.mp hpos
    obtain ⟨accounts, haccs, -⟩ := h.byPriority.get_of_key (keyOf_of_get (mem_entries_iff.mp hmem))
    have hkey := (mem_sortedKeys (· ≥ ·)).mpr ⟨accounts, haccs⟩
    rw [show c.byPriority.sortedKeys (· ≥ ·) = [] from hlast] at hkey
    cases hkey
  | some p =>
    obtain ⟨accounts, haccs⟩ := (mem_sortedKeys (· ≥ ·)).mp (List.mem_of_getLast? hlast)
    have hne : order.1 (listed c.byPriority p) ≠ [] := by
      rw [Ne, ← List.length_eq_zero_iff, (order.2 _).length_eq, List.length_eq_zero_iff,
        listed_of_get haccs]
      exact h.byPriority.ne_nil haccs
    obtain ⟨a, rest, hcons⟩ := List.exists_cons_of_ne_nil hne
    obtain ⟨e, hget⟩ := h.exists_of_mem order (hcons ▸ List.mem_cons_self)
    obtain ⟨c', hrem, hval, hdel⟩ := h.removeAccount hget
    refine ⟨c', a, e, ?_, hval, hget, hdel⟩
    rw [PriorityContainer.popLowestPrio, hlast]
    simp only [hcons, List.head?_cons]
    exact bind_eq_ok.mpr ⟨_, hrem, rfl⟩

/-- A change that keeps the account and the priority touches no index. -/
theorem replace {e' : PriorityEntry P} (hget : c.byAccount.get a = some e)
    (hacc : e'.account = e.account) (hprio : e'.priority = e.priority) :
    ({ c with byAccount := c.byAccount.put a e' } : PriorityContainer P).Valid := by
  refine ⟨forall_get_put h.account_eq (hacc.trans (h.account_eq hget)), ?_⟩
  rw [keyOf_put_of_eq hget hprio]
  exact h.byPriority

theorem setLastRequest (a : Account) (timestamp : Option Timestamp) :
    (c.setLastRequest a timestamp).Valid ∧
      KeysWithin (c.setLastRequest a timestamp).byAccount c.byAccount := by
  rw [PriorityContainer.setLastRequest]
  cases hget : c.byAccount.get a with
  | none => exact ⟨h, .refl _⟩
  | some e => exact ⟨h.replace hget rfl rfl, .put _ hget⟩

/-- An entry with a new priority leaves the set of the old one. -/
theorem changePriorityInternal {e' : PriorityEntry P} (hget : c.byAccount.get a = some e)
    (hacc : e'.account = e.account) :
    ∃ c', PriorityContainer.changePriorityInternal { c with byAccount := c.byAccount.put a e' } a
        e.priority e'.priority = .ok c' ∧ c'.Valid ∧ c'.byAccount = c.byAccount.put a e' := by
  obtain ⟨byPriority, hrem, hidx⟩ := h.removePriority hget (c.byAccount.put a e')
  have hadd := addPriority_indexes (c := ⟨c.byAccount.put a e', byPriority⟩) hidx
    (update_self _ _ _) e'.priority
  rw [update_idem] at hadd
  refine ⟨_, bind_eq_ok.mpr ⟨_, hrem, rfl⟩, ⟨?_, ?_⟩, rfl⟩
  · exact forall_get_put h.account_eq (hacc.trans (h.account_eq hget))
  · change Indexes _ (keyOf _ (c.byAccount.put a e'))
    rw [keyOf_put]
    exact hadd

/-- An entry that is changed is moved to its new priority, or removed. -/
theorem modify (a : Account) {f : PriorityEntry P → PriorityEntry P × Bool}
    (hf : ∀ e, (f e).1.account = e.account) (hdrop : ∀ e, (f e).2 = false → (f e).1 = e) :
    ∃ c' result, c.modify a f = .ok (c', result) ∧ c'.Valid ∧ KeysWithin c'.byAccount c.byAccount ∧
      (result = .notFound → c' = c ∧ c.byAccount.get a = none) := by
  rw [PriorityContainer.modify]
  cases hget : c.byAccount.get a with
  | none => exact ⟨c, .notFound, rfl, h, .refl _, fun _ => ⟨rfl, rfl⟩⟩
  | some e =>
    dsimp only
    cases hkeep : (f e).2 with
    | true =>
      by_cases hprio : (f e).1.priority = e.priority
      · exact ⟨{ c with byAccount := c.byAccount.put a (f e).1 }, .updated, if_pos hprio,
          h.replace hget (hf e) hprio, .put _ hget, nofun⟩
      · obtain ⟨c', hchg, hval, hput⟩ := h.changePriorityInternal hget (hf e)
        refine ⟨c', .updated, (if_neg hprio).trans (bind_eq_ok.mpr ⟨_, hchg, rfl⟩), hval, ?_, nofun⟩
        rw [hput]
        exact .put _ hget
    | false =>
      obtain ⟨c', hrem, hval, hdel⟩ := h.removeAccount hget
      rw [hdrop e hkeep, put_of_get hget]
      refine ⟨c', .deleted, bind_eq_ok.mpr ⟨_, hrem, rfl⟩, hval, ?_, nofun⟩
      rw [hdel]
      exact .del _ _

theorem nextPriority (order : SetOrder) (cutoff : Timestamp) (filter : Account → Bool) :
    ∃ result, c.nextPriority order cutoff filter = .ok result := by
  refine findEntry_ok fun a ha => ?_
  obtain ⟨p, -, hp⟩ := List.mem_flatMap.mp ha
  exact h.exists_of_mem order hp

end Valid

end PriorityContainer

/-! ### Blocked accounts -/

namespace BlockingContainer

variable {c c' : BlockingContainer} {a : Account} {e : BlockingEntry}

/-- The entries are stored under their accounts, in sequence, and listed under their dependency,
its account and their time. -/
structure Valid (c : BlockingContainer) : Prop where
  account_eq : ∀ {a e}, c.byAccount.get a = some e → e.account = a
  sequenced : c.byAccount.IsOrder c.sequenced
  byDependency : Indexes c.byDependency (keyOf dependency c.byAccount)
  byDependencyAccount :
    Indexes c.byDependencyAccount (keyOf dependencyAccount c.byAccount)
  byTimestamp : Indexes c.byTimestamp (keyOf added c.byAccount)

namespace Valid

theorem empty : (⟨∅, [], ∅, ∅, ∅⟩ : BlockingContainer).Valid := by
  have hkey : ∀ {K : Type} (f : BlockingEntry → K), keyOf f ∅ = fun _ : Account => none := by
    intro K f
    funext a
    rw [keyOf, get_empty]
    rfl
  refine ⟨fun h => ?_, rfl, ?_, ?_, ?_⟩
  · cases h
  · rw [hkey]
    exact Indexes.empty
  · rw [hkey]
    exact Indexes.empty
  · rw [hkey]
    exact Indexes.empty

variable (h : c.Valid)

include h

theorem len_eq : c.len = c.byAccount.size := h.sequenced.length_eq

theorem insert (hnew : c.byAccount.get e.account = none) :
    (c.insert e).1.Valid ∧ (c.insert e).1.byAccount = c.byAccount.put e.account e := by
  have hkey : ∀ {K : Type} (f : BlockingEntry → K), keyOf f c.byAccount e.account = none := by
    intro K f
    rw [keyOf, hnew]
    rfl
  rw [BlockingContainer.insert, contains, Table.contains, hnew]
  refine ⟨⟨Table.forall_get_put h.account_eq rfl, ?_, ?_, ?_, ?_⟩, rfl⟩
  · exact h.sequenced.put hnew
  · change Indexes _ (keyOf _ (c.byAccount.put e.account e))
    rw [keyOf_put]
    exact h.byDependency.push (hkey _)
  · change Indexes _ (keyOf _ (c.byAccount.put e.account e))
    rw [keyOf_put]
    exact h.byDependencyAccount.push (hkey _)
  · change Indexes _ (keyOf _ (c.byAccount.put e.account e))
    rw [keyOf_put]
    exact h.byTimestamp.push (hkey _)

/-- A blocked account is removed from every index. -/
theorem removeAccount (a : Account) :
    ∃ c', c.removeAccount a = .ok (c', c.byAccount.get a) ∧ c'.Valid ∧
      c'.byAccount = c.byAccount.del a := by
  rw [BlockingContainer.removeAccount]
  cases hget : c.byAccount.get a with
  | none => exact ⟨c, rfl, h, (del_of_get_none hget).symm⟩
  | some e =>
    have hacc := h.account_eq hget
    obtain ⟨byDependency, hrem1, hidx1⟩ := removeFromIndex_ok h.byDependency (keyOf_of_get hget)
    obtain ⟨byDependencyAccount, hrem2, hidx2⟩ :=
      removeFromIndex_ok h.byDependencyAccount (keyOf_of_get hget)
    obtain ⟨byTimestamp, hrem3, hidx3⟩ := removeFromIndex_ok h.byTimestamp (keyOf_of_get hget)
    rw [← hacc] at hrem1 hrem2 hrem3
    refine ⟨⟨c.byAccount.del a, c.sequenced.filter (· ≠ e.account), byDependency,
      byDependencyAccount, byTimestamp⟩, ?_, ⟨fun hget' => ?_, ?_, ?_, ?_, ?_⟩, rfl⟩
    · refine bind_eq_ok.mpr ⟨_, ?_, rfl⟩
      rw [removeIndexes, bind_eq_ok]
      refine ⟨_, hrem1, bind_eq_ok.mpr ⟨_, hrem2, bind_eq_ok.mpr ⟨_, hrem3, rfl⟩⟩⟩
    · exact h.account_eq (get_of_get_del hget').2
    · rw [hacc]
      exact h.sequenced.del a
    · rw [keyOf_del]
      exact hidx1
    · rw [keyOf_del]
      exact hidx2
    · rw [keyOf_del]
      exact hidx3

/-- An entry is moved to the list of its new dependency account. -/
theorem changeDependencyAccount (hget : c.byAccount.get a = some e) (newAccount : Account)
    (updated : ℕ) :
    ∃ r, changeDependencyAccount newAccount (c, updated) a = .ok r ∧ r.1.Valid ∧
      KeysWithin r.1.byAccount c.byAccount ∧
      KeysWithin c.byAccount r.1.byAccount := by
  rw [BlockingContainer.changeDependencyAccount, hget]
  by_cases hsame : e.dependencyAccount = newAccount
  · exact ⟨(c, updated), if_pos hsame, h, .refl _, .refl _⟩
  · obtain rfl := h.account_eq hget
    have hkey := keyOf_of_get (f := dependencyAccount) hget
    obtain ⟨old, hold, hmem⟩ := h.byDependencyAccount.get_of_key hkey
    have hremd := h.byDependencyAccount.withdraw hkey hold
    rw [withdraw_eq hmem] at hremd
    have hmoved := hremd.relist (k := newAccount)
    generalize hkept : push (if old.length = 1 then c.byDependencyAccount.del e.dependencyAccount
      else c.byDependencyAccount.put e.dependencyAccount (old.filter (· ≠ e.account)))
      newAccount e.account = byDependencyAccount at hmoved
    let e' : BlockingEntry := { e with dependencyAccount := newAccount }
    refine ⟨({ c with byAccount := c.byAccount.put e.account e', byDependencyAccount }, updated + 1),
      ?_, ⟨forall_get_put (v := e') h.account_eq rfl, ?_, ?_, ?_, ?_⟩, .put _ hget, ?_⟩
    · dsimp only
      rw [if_neg hsame, hold, ← hkept]
    · exact h.sequenced.put_of_some hget e'
    · rw [keyOf_put_of_eq (w := e') hget rfl]
      exact h.byDependency
    · rw [keyOf_put]
      exact hmoved
    · rw [keyOf_put_of_eq (w := e') hget rfl]
      exact h.byTimestamp
    · intro k hk
      rw [get_put] at hk
      split at hk
      · cases hk
      · exact hk

/-- The entries that wait for a block get its account, and the same accounts stay blocked. -/
theorem modifyDependencyAccount (dependency : BlockHash) (newAccount : Account) :
    ∃ r, c.modifyDependencyAccount dependency newAccount = .ok r ∧ r.1.Valid ∧
      KeysWithin r.1.byAccount c.byAccount := by
  rw [BlockingContainer.modifyDependencyAccount]
  cases hget : c.byDependency.get dependency with
  | none => exact ⟨(c, 0), rfl, h, .refl _⟩
  | some accounts =>
    obtain ⟨r, hfold, hval, hin, -⟩ := foldlM_ok (l := accounts) (a := (c, 0))
     
      (P := fun s => s.1.Valid ∧ KeysWithin s.1.byAccount c.byAccount ∧
        KeysWithin c.byAccount s.1.byAccount)
      (by
        rintro ⟨c1, updated⟩ a ha ⟨hval1, hin1, hkeep1⟩
        have hkey := h.byDependency.lists.key_of_mem hget ha
        obtain ⟨e, he, -⟩ := keyOf_eq_some.mp hkey
        obtain ⟨e1, he1⟩ := hkeep1.exists_get he
        obtain ⟨r, hchg, hval2, hin2, hkeep2⟩ :=
          hval1.changeDependencyAccount he1 newAccount updated
        exact ⟨r, hchg, hval2, hin2.trans hin1, hkeep1.trans hkeep2⟩)
      ⟨h, .refl _, .refl _⟩
    exact ⟨r, hfold, hval, hin⟩

theorem next (filter : BlockHash → Bool) : ∃ result, c.next filter = .ok result := by
  rw [BlockingContainer.next]
  cases hget : c.byDependencyAccount.get 0 with
  | none => exact ⟨none, rfl⟩
  | some accounts =>
    obtain ⟨entry, hfind⟩ : ∃ entry, findEntry c.byAccount (fun entry => filter entry.dependency)
        accounts = .ok entry := by
      refine findEntry_ok fun a ha => ?_
      obtain ⟨e, he, -⟩ := keyOf_eq_some.mp (h.byDependencyAccount.lists.key_of_mem hget ha)
      exact ⟨e, he⟩
    exact ⟨_, bind_eq_ok.mpr ⟨entry, hfind, rfl⟩⟩

theorem exists_of_mem_iter {start : Account} (hmem : a ∈ c.iterStartDepAccount start) :
    ∃ e, c.byAccount.get a = some e := by
  obtain ⟨k, -, hlist⟩ := List.mem_flatMap.mp hmem
  obtain ⟨e, he, -⟩ := keyOf_eq_some.mp (h.byDependencyAccount.lists.mem_iff.mp hlist)
  exact ⟨e, he⟩

theorem iterByInsertionOrder : ∃ result, c.iterByInsertionOrder = .ok result := by
  have hst : ∀ a ∈ c.sequenced, ∃ e, c.byAccount.get a = some e :=
    fun a ha => h.sequenced.mem_iff.mp ha
  rw [BlockingContainer.iterByInsertionOrder]
  generalize c.sequenced = accounts at hst
  induction accounts with
  | nil => exact ⟨[], rfl⟩
  | cons a accounts ih =>
    obtain ⟨e, he⟩ := hst a List.mem_cons_self
    obtain ⟨result, hres⟩ := ih fun x hx => hst x (List.mem_cons_of_mem _ hx)
    refine ⟨e :: result, ?_⟩
    rw [List.mapM_cons, he]
    exact bind_eq_ok.mpr ⟨e, rfl, bind_eq_ok.mpr ⟨result, hres, rfl⟩⟩

end Valid

end BlockingContainer

end RsNano
