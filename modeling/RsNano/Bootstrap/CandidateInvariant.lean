import RsNano.Bootstrap.BlockingExpiry

/-!
# Invariants of the candidate accounts

Every sequence of operations keeps the two sets of accounts apart, within their bounds and exactly
indexed, and none of the operations panics. An operation can take a set over its bound for a
moment; the bounds hold again when the overflow has been trimmed.
-/

namespace RsNano.CandidateAccounts

open Table CandidateAccounts PriorityContainer

variable {P : Type} [LinearOrder P] {scale : PriorityScale P} {config : CandidateAccountsConfig}
  {c : CandidateAccounts P} {a : Account}

/-- No account is in both sets, the zero account is in neither, and the indexes are exact. -/
structure Sound (config : CandidateAccountsConfig) (c : CandidateAccounts P) : Prop where
  config_eq : c.config = config
  priorities : c.priorities.Valid
  blocking : c.blocking.Valid
  disjoint : ∀ a, c.priorities.byAccount.get a = none ∨ c.blocking.byAccount.get a = none
  zero : c.priorities.byAccount.get 0 = none ∧ c.blocking.byAccount.get 0 = none

/-- The sets are also within their bounds. -/
structure Valid (config : CandidateAccountsConfig) (c : CandidateAccounts P) : Prop extends
    Sound config c where
  priorities_le : c.priorities.len ≤ config.prioritiesMax
  blocking_le : c.blocking.len ≤ config.blockingMax

theorem Valid.new (config : CandidateAccountsConfig) :
    (new config : CandidateAccounts P).Valid config where
  config_eq := rfl
  priorities := .empty
  blocking := .empty
  disjoint _ := .inl (get_empty _)
  zero := ⟨get_empty _, get_empty _⟩
  priorities_le := Nat.zero_le _
  blocking_le := Nat.zero_le _

section

variable {p : PriorityContainer P} {b : BlockingContainer} (hp : p.Valid) (hb : b.Valid)
  (hpw : KeysWithin p.byAccount c.priorities.byAccount)
  (hbw : KeysWithin b.byAccount c.blocking.byAccount)

include hp hb hpw hbw

/-- The sets stay apart when they lose accounts. -/
theorem Sound.shrink (h : c.Sound config) :
    (⟨c.config, p, b⟩ : CandidateAccounts P).Sound config where
  config_eq := h.config_eq
  priorities := hp
  blocking := hb
  disjoint a := (h.disjoint a).imp (hpw a) (hbw a)
  zero := ⟨hpw 0 h.zero.1, hbw 0 h.zero.2⟩

theorem Valid.shrink (h : c.Valid config) :
    (⟨c.config, p, b⟩ : CandidateAccounts P).Valid config where
  toSound := h.toSound.shrink hp hb hpw hbw
  priorities_le := hpw.size_le.trans h.priorities_le
  blocking_le := by
    have hle := h.blocking_le
    rw [h.blocking.len_eq] at hle
    rw [hb.len_eq]
    exact hbw.size_le.trans hle

end

section

variable (h : c.Sound config)

include h

theorem Sound.trimPriorities (order : SetOrder) :
    ∃ p, c.trimPriorities order = .ok p ∧ p.Valid ∧
      KeysWithin p.byAccount c.priorities.byAccount ∧ p.len ≤ c.config.prioritiesMax := by
  refine Loop.run_of_variant (P := fun p => p.Valid ∧ KeysWithin p.byAccount c.priorities.byAccount)
    len ?_ ⟨h.priorities, .refl _⟩ (Nat.lt_succ_self _)
  rintro - p ⟨hp, hin⟩
  by_cases hlong : p.len ≠ 0 ∧ c.config.prioritiesMax < p.len
  · obtain ⟨p', a, e, hpop, hval, hget, hdel⟩ := hp.popLowestPrio order hlong.1
    refine ⟨.inl p', ?_, ⟨hval, ?_⟩, ?_⟩
    · rw [if_pos hlong]
      exact bind_eq_ok.mpr ⟨_, hpop, rfl⟩
    · rw [hdel]
      exact (KeysWithin.del _ _).trans hin
    · have hsize := size_del_of_some hget
      rw [len, len, hdel]
      omega
  · exact ⟨.inr p, if_neg hlong, hp, hin, by omega⟩

theorem Sound.trimBlocking :
    ∃ b, c.trimBlocking = .ok b ∧ b.Valid ∧
      KeysWithin b.byAccount c.blocking.byAccount ∧ b.len ≤ c.config.blockingMax := by
  refine Loop.run_of_variant (P := fun b => b.Valid ∧ KeysWithin b.byAccount c.blocking.byAccount)
    BlockingContainer.len ?_ ⟨h.blocking, .refl _⟩ (Nat.lt_succ_self _)
  rintro - b ⟨hb, hin⟩
  by_cases hlong : c.config.blockingMax < b.len
  · obtain ⟨r, hrem, hval, hin', hlt⟩ := hb.removeOldest (by omega)
    refine ⟨.inl r.1, ?_, ⟨hval, hin'.trans hin⟩, hlt⟩
    rw [if_pos hlong]
    exact bind_eq_ok.mpr ⟨_, hrem, rfl⟩
  · exact ⟨.inr b, if_neg hlong, hb, hin, by omega⟩

/-- Trimming restores the bounds. -/
theorem Sound.trimOverflow (order : SetOrder) :
    ∃ c', c.trimOverflow order = .ok c' ∧ c'.Valid config := by
  obtain ⟨p, htrim, hp, hpw, hple⟩ := h.trimPriorities order
  have h1 := h.shrink hp h.blocking hpw (.refl _)
  obtain ⟨b, htrim', hb, hbw, hble⟩ := h1.trimBlocking
  refine ⟨⟨c.config, p, b⟩, ?_, ⟨h.shrink hp hb hpw hbw, ?_, ?_⟩⟩
  · exact bind_eq_ok.mpr ⟨p, htrim, bind_eq_ok.mpr ⟨b, htrim', rfl⟩⟩
  · rw [← h.config_eq]
    exact hple
  · rw [← h.config_eq]
    exact hble

/-- A new priority of an account that is not blocked. -/
theorem Sound.insertPriority (hzero : a ≠ 0) (hp : c.priorities.byAccount.get a = none)
    (hb : c.blocking.byAccount.get a = none) (p : P) :
    ({ c with priorities := (c.priorities.insert (.new a p)).1 } : CandidateAccounts P).Sound
      config := by
  obtain ⟨hval, hput⟩ := h.priorities.insert (e := .new a p) hp
  refine ⟨h.config_eq, hval, h.blocking, fun a' => ?_, ?_, h.zero.2⟩
  · by_cases ha : a' = a
    · rw [ha]
      exact .inr hb
    · refine (h.disjoint a').imp_left fun hnone => ?_
      rw [hput]
      exact (get_put_of_ne _ _ ha).trans hnone
  · rw [hput]
    exact (get_put_of_ne _ _ (Ne.symm hzero)).trans h.zero.1

/-- Only accounts that are in neither set are prioritised. -/
theorem Sound.prioritySetImpl (a : Account) (p : P) :
    ∃ c' inserted, c.prioritySetImpl a p = (c', inserted) ∧ c'.Sound config ∧
      c'.blocking = c.blocking ∧ (inserted = false → c' = c) := by
  rw [CandidateAccounts.prioritySetImpl]
  split
  · exact ⟨c, false, rfl, h, rfl, fun _ => rfl⟩
  · next hfree =>
    rw [not_or, not_or] at hfree
    exact ⟨_, true, rfl, h.insertPriority hfree.1 (get_eq_none_of_not_contains hfree.2.2)
      (get_eq_none_of_not_contains hfree.2.1) p, rfl, nofun⟩

/-- The loop over the blocked accounts reads no missing entry. -/
theorem Sound.syncLoop (scale : PriorityScale P) {accounts : List Account}
    (hst : ∀ a ∈ accounts, ∃ e, c.blocking.byAccount.get a = some e) (inserted : ℕ) :
    ∃ r, syncLoop scale c inserted accounts = .ok r ∧ r.1.Sound config := by
  induction accounts generalizing c inserted with
  | nil => exact ⟨(c, inserted), rfl, h⟩
  | cons a accounts ih =>
    obtain ⟨e, hget⟩ := hst a List.mem_cons_self
    rw [syncLoop, hget]
    by_cases hfull : c.priorityFull = true
    · exact ⟨(c, inserted), if_pos hfull, h⟩
    · obtain ⟨c', new, himpl, hsound, hblocking, -⟩ :=
        h.prioritySetImpl e.dependencyAccount scale.initial
      have hst' : ∀ a' ∈ accounts, ∃ e, c'.blocking.byAccount.get a' = some e := by
        rw [hblocking]
        exact fun a' ha' => hst a' (List.mem_cons_of_mem _ ha')
      dsimp only
      rw [if_neg hfull, himpl]
      cases new with
      | true => exact ih hsound hst' (inserted + 1)
      | false => exact ih hsound hst' inserted

end

section

variable (h : c.Valid config) (order : SetOrder) (a : Account)

include h

namespace Valid

theorem priorityUp : ∃ r, c.priorityUp scale order a = .ok r ∧ r.1.Valid config := by
  rw [CandidateAccounts.priorityUp]
  by_cases hzero : a = 0
  · exact ⟨(c, .invalidAccount), if_pos hzero, h⟩
  by_cases hblkd : c.blocked a = true
  · exact ⟨(c, .accountBlocked), (if_neg hzero).trans (if_pos hblkd), h⟩
  rw [if_neg hzero, if_neg hblkd]
  obtain ⟨p, result, hmod, hp, hin, hnew⟩ := h.priorities.modify a
    (f := fun e => ({ e with priority := higherPriority scale e.priority, fails := 0 }, true))
    (fun _ => rfl) nofun
  have hkept := h.shrink hp h.blocking hin (.refl _)
  cases result with
  | updated | deleted => exact ⟨_, bind_eq_ok.mpr ⟨_, hmod, rfl⟩, hkept⟩
  | notFound =>
    obtain ⟨rfl, hnone⟩ := hnew rfl
    have hsound := h.toSound.insertPriority hzero hnone (get_eq_none_of_not_contains hblkd)
      scale.initial
    obtain ⟨c', htrim, hval⟩ := hsound.trimOverflow order
    exact ⟨(c', .inserted), bind_eq_ok.mpr ⟨_, hmod, bind_eq_ok.mpr ⟨c', htrim, rfl⟩⟩, hval⟩

theorem priorityDown : ∃ r, c.priorityDown scale a = .ok r ∧ r.1.Valid config := by
  rw [CandidateAccounts.priorityDown]
  by_cases hzero : a = 0
  · exact ⟨(c, .invalidAccount), if_pos hzero, h⟩
  rw [if_neg hzero]
  obtain ⟨p, result, hmod, hp, hin, -⟩ := h.priorities.modify a (f := fun e =>
      if maxFails ≤ e.fails ∨ scale.failsReach e.fails e.priority ∨
          scale.divide e.priority ≤ scale.cutoff then (e, false)
      else ({ e with fails := e.fails + 1, priority := scale.divide e.priority }, true))
    (fun e => by split <;> rfl)
    (fun e he => by
      split at he
      · next hdrop => exact congrArg Prod.fst (if_pos hdrop)
      · cases he)
  have hkept := h.shrink hp h.blocking hin (.refl _)
  cases result with
  | updated | deleted | notFound => exact ⟨_, bind_eq_ok.mpr ⟨_, hmod, rfl⟩, hkept⟩

theorem prioritySet (p : P) : ∃ r, c.prioritySet order a p = .ok r ∧ r.1.Valid config := by
  obtain ⟨c1, inserted, himpl, hsound, -, -⟩ := h.toSound.prioritySetImpl a p
  obtain ⟨c', htrim, hval⟩ := hsound.trimOverflow order
  refine ⟨(c', inserted), ?_, hval⟩
  rw [CandidateAccounts.prioritySet, himpl]
  exact bind_eq_ok.mpr ⟨c', htrim, rfl⟩

theorem priorityErase : ∃ r, c.priorityErase a = .ok r ∧ r.1.Valid config := by
  by_cases hzero : a = 0
  · exact ⟨(c, false), if_pos hzero, h⟩
  · obtain ⟨p, hrem, hp, hdel⟩ := h.priorities.remove a
    refine ⟨_, (if_neg hzero).trans (bind_eq_ok.mpr ⟨_, hrem, rfl⟩),
      h.shrink hp h.blocking ?_ (.refl _)⟩
    rw [hdel]
    exact .del _ _

/-- An account that was prioritised is blocked instead. -/
theorem block (dependency : BlockHash) (now : Timestamp) :
    ∃ r, c.block order a dependency now = .ok r ∧ r.1.Valid config := by
  obtain ⟨p, hrem, hp, hdel⟩ := h.priorities.remove a
  have hin : KeysWithin p.byAccount c.priorities.byAccount := by
    rw [hdel]
    exact .del _ _
  cases hget : c.priorities.byAccount.get a with
  | none =>
    rw [hget] at hrem
    exact ⟨_, bind_eq_ok.mpr ⟨_, hrem, rfl⟩, h.shrink hp h.blocking hin (.refl _)⟩
  | some e =>
    rw [hget] at hrem
    have hnone : c.blocking.byAccount.get a = none :=
      (h.disjoint a).resolve_left (by rw [hget]; exact nofun)
    have hzero : (0 : Account) ≠ a := by
      rintro rfl
      cases hget.symm.trans h.zero.1
    obtain ⟨hb, hput⟩ := h.blocking.insert (e := ⟨a, dependency, 0, now⟩) hnone
    have hsound : (⟨c.config, p, (c.blocking.insert ⟨a, dependency, 0, now⟩).1⟩ :
        CandidateAccounts P).Sound config := by
      refine ⟨h.config_eq, hp, hb, fun a' => ?_, hin 0 h.zero.1, ?_⟩
      · by_cases ha : a' = a
        · rw [ha, hdel]
          exact .inl (get_del_self _ _)
        · refine (h.disjoint a').imp (hin a') fun hold => ?_
          rw [hput]
          exact (get_put_of_ne _ _ ha).trans hold
      · rw [hput]
        exact (get_put_of_ne _ _ hzero).trans h.zero.2
    obtain ⟨c', htrim, hval⟩ := hsound.trimOverflow order
    exact ⟨(c', true), bind_eq_ok.mpr ⟨_, hrem, bind_eq_ok.mpr ⟨c', htrim, rfl⟩⟩, hval⟩

/-- An account that was blocked is prioritised instead. -/
theorem unblock (hash : Option BlockHash) :
    ∃ r, c.unblock scale order a hash = .ok r ∧ r.1.Valid config := by
  rw [CandidateAccounts.unblock]
  by_cases hzero : a = 0
  · exact ⟨(c, false), if_pos hzero, h⟩
  rw [if_neg hzero]
  cases hget : c.blocking.byAccount.get a with
  | none => exact ⟨(c, false), rfl, h⟩
  | some e =>
    by_cases hhash : hash.all (· = e.dependency) = true
    · have hnone : c.priorities.byAccount.get a = none :=
        (h.disjoint a).resolve_right (by rw [hget]; exact nofun)
      obtain ⟨b, hrem, hb, hdel⟩ := h.blocking.removeAccount a
      have hin : KeysWithin b.byAccount c.blocking.byAccount := by
        rw [hdel]
        exact .del _ _
      -- without the entry, the account can be prioritised like any other
      have hshrunk := h.toSound.shrink h.priorities hb (.refl _) hin
      have hsound := hshrunk.insertPriority hzero hnone
        (by rw [hdel]; exact get_del_self _ _) scale.initial
      obtain ⟨c', htrim, hval⟩ := hsound.trimOverflow order
      refine ⟨(c', true), ?_, hval⟩
      dsimp only
      rw [if_pos hhash]
      exact bind_eq_ok.mpr ⟨_, hrem, bind_eq_ok.mpr ⟨c', htrim, rfl⟩⟩
    · exact ⟨(c, false), if_neg hhash, h⟩

theorem decayBlocking (now : Timestamp) :
    ∃ r, c.decayBlocking now = .ok r ∧ r.1.Valid config := by
  obtain ⟨b, hrem, hb, hin⟩ := h.blocking.removeOlderThan (now - c.config.blockingDecay)
  exact ⟨_, bind_eq_ok.mpr ⟨_, hrem, rfl⟩, h.shrink h.priorities hb (.refl _) hin⟩

theorem setLastRequest (timestamp : Option Timestamp) :
    ({ c with priorities := c.priorities.setLastRequest a timestamp } :
      CandidateAccounts P).Valid config := by
  obtain ⟨hp, hin⟩ := h.priorities.setLastRequest a timestamp
  exact h.shrink hp h.blocking hin (.refl _)

theorem dependencyUpdate (dependency : BlockHash) (dependencyAccount : Account) :
    ∃ r, c.dependencyUpdate scale order dependency dependencyAccount = .ok r ∧
      r.1.Valid config := by
  obtain ⟨⟨b, updated⟩, hmod, hb, hin⟩ :=
    h.blocking.modifyDependencyAccount dependency dependencyAccount
  have hshrunk := h.shrink h.priorities hb (.refl _) hin
  rw [CandidateAccounts.dependencyUpdate, hmod]
  by_cases hroom : 0 < updated ∧ ¬ CandidateAccounts.priorityFull { c with blocking := b }
  · obtain ⟨c2, inserted, himpl, hsound, -, hsame⟩ :=
      hshrunk.toSound.prioritySetImpl dependencyAccount scale.initial
    cases inserted with
    | true =>
      obtain ⟨c', htrim, hval⟩ := hsound.trimOverflow order
      refine ⟨(c', updated), (if_pos hroom).trans ?_, hval⟩
      rw [himpl]
      exact bind_eq_ok.mpr ⟨c', htrim, rfl⟩
    | false =>
      rw [hsame rfl] at himpl
      refine ⟨({ c with blocking := b }, updated), (if_pos hroom).trans ?_, hshrunk⟩
      rw [himpl]
      rfl
  · exact ⟨({ c with blocking := b }, updated), if_neg hroom, hshrunk⟩

theorem syncDependencies :
    ∃ r, c.syncDependencies scale order = .ok r ∧ r.1.Valid config := by
  obtain ⟨r, hloop, hsound⟩ := h.toSound.syncLoop scale
    (fun a ha => h.blocking.exists_of_mem_iter ha) 0
  obtain ⟨c', htrim, hval⟩ := hsound.trimOverflow order
  exact ⟨_, bind_eq_ok.mpr ⟨r, hloop, bind_eq_ok.mpr ⟨c', htrim, rfl⟩⟩, hval⟩

theorem nextPriority (now : Timestamp) (filter : Account → Bool) :
    ∃ result, c.nextPriority scale order now filter = .ok result := by
  rw [CandidateAccounts.nextPriority]
  split
  · exact ⟨_, rfl⟩
  · obtain ⟨entry, hnext⟩ := h.priorities.nextPriority order (now - c.config.cooldown) filter
    rw [hnext]
    cases entry with
    | none | some entry => exact ⟨_, rfl⟩

theorem nextBlocking (filter : BlockHash → Bool) :
    ∃ result, c.nextBlocking filter = .ok result := by
  rw [CandidateAccounts.nextBlocking]
  split
  · exact ⟨_, rfl⟩
  · obtain ⟨hash, hnext⟩ := h.blocking.next filter
    exact ⟨_, bind_eq_ok.mpr ⟨hash, hnext, rfl⟩⟩

/-- Every operation returns, and leaves valid sets. -/
theorem apply (scale : PriorityScale P) (op : CandidateOperation P) :
    ∃ c', c.apply scale op = .ok c' ∧ c'.Valid config := by
  have hfst : ∀ {R : Type} {x : Except CandidatePanic (CandidateAccounts P × R)},
      (∃ r, x = .ok r ∧ r.1.Valid config) →
        ∃ c', (do return (← x).1) = Except.ok c' ∧ c'.Valid config := by
    rintro R x ⟨r, hx, hr⟩
    exact ⟨r.1, bind_eq_ok.mpr ⟨r, hx, rfl⟩, hr⟩
  have hread : ∀ {R : Type} {x : Except CandidatePanic R}, (∃ r, x = .ok r) →
      ∃ c', (do let _ ← x; return c) = Except.ok c' ∧ c'.Valid config := by
    rintro R x ⟨r, hx⟩
    exact ⟨c, bind_eq_ok.mpr ⟨r, hx, rfl⟩, h⟩
  cases op with
  | priorityUp order a => exact hfst (h.priorityUp order a)
  | priorityDown a => exact hfst (h.priorityDown a)
  | prioritySet order a p => exact hfst (h.prioritySet order a p)
  | prioritySetInitial order a => exact hfst (h.prioritySet order a scale.initial)
  | priorityErase a => exact hfst (h.priorityErase a)
  | block order a dependency now => exact hfst (h.block order a dependency now)
  | unblock order a hash => exact hfst (h.unblock order a hash)
  | decayBlocking now => exact hfst (h.decayBlocking now)
  | setLastRequest a now => exact ⟨_, rfl, h.setLastRequest a (some now)⟩
  | resetLastRequest a => exact ⟨_, rfl, h.setLastRequest a none⟩
  | dependencyUpdate order dependency a => exact hfst (h.dependencyUpdate order dependency a)
  | syncDependencies order => exact hfst (h.syncDependencies order)
  | nextPriority order now filter => exact hread (h.nextPriority order now filter)
  | nextBlocking filter => exact hread (h.nextBlocking filter)
  | iterBlocked => exact hread h.blocking.iterByInsertionOrder
  | clear =>
    refine ⟨_, rfl, h.shrink .empty .empty ?_ ?_⟩
    · exact fun a _ => get_empty a
    · exact fun a _ => get_empty a

end Valid

end

/-- No sequence of operations panics. Whatever it is, no account is prioritised and blocked, the
zero account is neither, both sets are within their bounds, and their indexes list exactly the
stored entries under their current keys. -/
theorem run_consistent (scale : PriorityScale P) (config : CandidateAccountsConfig)
    (ops : List (CandidateOperation P)) :
    ∃ c, ops.foldlM (apply scale) (new config) = .ok c ∧
      (∀ a, ¬ (c.prioritized a = true ∧ c.blocked a = true)) ∧
      c.prioritized 0 = false ∧ c.blocked 0 = false ∧
      c.priorities.len ≤ config.prioritiesMax ∧ c.blocking.len ≤ config.blockingMax ∧
      c.priorities.Valid ∧ c.blocking.Valid := by
  obtain ⟨c, hrun, hvalid⟩ := foldlM_ok
    (fun c op _ hc => hc.apply scale op) (Valid.new config)
  refine ⟨c, hrun, fun a => ?_, ?_, ?_, hvalid.priorities_le, hvalid.blocking_le,
    hvalid.priorities, hvalid.blocking⟩
  · rintro ⟨hp, hb⟩
    rw [prioritized, PriorityContainer.contains, Table.contains] at hp
    rw [blocked, BlockingContainer.contains, Table.contains] at hb
    rcases hvalid.disjoint a with hnone | hnone
    · rw [hnone] at hp
      cases hp
    · rw [hnone] at hb
      cases hb
  · rw [prioritized, PriorityContainer.contains, Table.contains, hvalid.zero.1]
    rfl
  · rw [blocked, BlockingContainer.contains, Table.contains, hvalid.zero.2]
    rfl

end RsNano.CandidateAccounts
