import RsNano.Bootstrap.CandidateContainers
import Mathlib.Logic.Relation

/-!
# Expiry of blocked accounts

A blocked account leaves the container together with the accounts that are blocked on it, those
that are blocked on these, and so on. The source keeps a stack of accounts and looks the dependents
up in an index that shrinks while it works, so that a cycle of dependencies ends by itself. What is
removed is the set of the accounts that can be reached from the expired ones.

A run over a container that has already lost some accounts is described relative to the container
at the start: what is gone is closed under dependency, so no path leads through it to an account
that is still there.
-/

namespace RsNano

open Index List

namespace BlockingContainer

variable {c s : BlockingContainer} {a x : Account} {e : BlockingEntry} {root : Account → Prop}
  {removed : ℕ}

/-- The second account is blocked on the first one. -/
def BlockedOn (c : BlockingContainer) (a x : Account) : Prop :=
  ∃ e, c.byAccount.get x = some e ∧ e.dependencyAccount = a

/-- The account can be reached from a blocked account that is one of the given ones. -/
def Dependent (c : BlockingContainer) (root : Account → Prop) (x : Account) : Prop :=
  ∃ a, root a ∧ (∃ e, c.byAccount.get a = some e) ∧ Relation.ReflTransGen c.BlockedOn a x

theorem Dependent.of_root (hroot : root a) (hget : c.byAccount.get a = some e) :
    c.Dependent root a :=
  ⟨a, hroot, ⟨e, hget⟩, .refl⟩

theorem Dependent.tail (h : c.Dependent root a) (hblkd : c.BlockedOn a x) :
    c.Dependent root x := by
  obtain ⟨b, hroot, hst, hpath⟩ := h
  exact ⟨b, hroot, hst, hpath.tail hblkd⟩

variable {root' : Account → Prop}

theorem Dependent.mono (h : c.Dependent root x) (hroot : ∀ a, root a → root' a) :
    c.Dependent root' x := by
  obtain ⟨a, ha, hpath⟩ := h
  exact ⟨a, hroot a ha, hpath⟩

/-- What contains the roots and is closed contains all dependents. -/
theorem Dependent.induction {P : Account → Prop} (h : c.Dependent root x)
    (hroot : ∀ a e, root a → c.byAccount.get a = some e → P a)
    (hstep : ∀ a x, P a → c.BlockedOn a x → P x) : P x := by
  obtain ⟨a, ha, ⟨e, hget⟩, hpath⟩ := h
  induction hpath with
  | refl => exact hroot a e ha hget
  | tail _ hblkd ih => exact hstep _ _ ih hblkd

/-- A container from which the dependents of some accounts have been removed. -/
structure Pruned (c : BlockingContainer) (root : Account → Prop) (s : BlockingContainer)
    (removed : ℕ) : Prop where
  valid : s.Valid
  get_iff : ∀ x e, s.byAccount.get x = some e ↔
    c.byAccount.get x = some e ∧ ¬ c.Dependent root x
  size_eq : s.byAccount.size + removed = c.byAccount.size

theorem Valid.pruned (h : c.Valid) : Pruned c (fun _ => False) c 0 := by
  refine ⟨h, fun x e => ⟨fun hget => ⟨hget, ?_⟩, And.left⟩, rfl⟩
  rintro ⟨a, hfalse, -⟩
  exact hfalse

section

variable (h : Pruned c root s removed)

include h

theorem Pruned.dependent (hst : c.byAccount.get x = some e) (hnone : s.byAccount.get x = none) :
    c.Dependent root x := by
  by_contra hkept
  rw [(h.get_iff x e).mpr ⟨hst, hkept⟩] at hnone
  cases hnone

theorem Pruned.get_of_dependent (hx : c.Dependent root x) : s.byAccount.get x = none := by
  cases hget : s.byAccount.get x with
  | none => rfl
  | some e => exact absurd hx ((h.get_iff x e).mp hget).2

theorem Pruned.get_of_root (hroot : root x) : s.byAccount.get x = none := by
  cases hget : s.byAccount.get x with
  | none => rfl
  | some e =>
    obtain ⟨hst, hkept⟩ := (h.get_iff x e).mp hget
    exact absurd (.of_root hroot hst) hkept

theorem Pruned.keysWithin {s' : BlockingContainer} {removed' : ℕ} (h' : Pruned c root' s' removed')
    (hroot : ∀ a, root a → root' a) : Table.KeysWithin s'.byAccount s.byAccount := by
  intro x hnone
  cases hget : s'.byAccount.get x with
  | none => rfl
  | some e =>
    obtain ⟨hst, hkept⟩ := (h'.get_iff x e).mp hget
    exact absurd ((h.dependent hst hnone).mono hroot) hkept

/-- Further roots that are already gone have no dependents left. -/
theorem Pruned.extend (hroot : ∀ a, root a → root' a)
    (hgone : ∀ a, root' a → s.byAccount.get a = none) : Pruned c root' s removed := by
  refine ⟨h.valid, fun x e => ⟨fun hget => ?_, fun ⟨hst, hkept⟩ => ?_⟩, h.size_eq⟩
  · obtain ⟨hst, hkept⟩ := (h.get_iff x e).mp hget
    refine ⟨hst, fun hdep => hkept ?_⟩
    exact hdep.induction (fun a e hroot' ha => h.dependent ha (hgone a hroot'))
      fun a y ha hblkd => ha.tail hblkd
  · exact (h.get_iff x e).mpr ⟨hst, fun hdep => hkept (hdep.mono hroot)⟩

end

/-- The removal of dependents under way: the roots and the dependents of what is gone are gone or on
the stack. -/
structure Pruning (c : BlockingContainer) (root : Account → Prop) (removed : ℕ)
    (t : BlockingContainer × List Account × ℕ) : Prop where
  valid : t.1.Valid
  within : ∀ {x e}, t.1.byAccount.get x = some e → c.byAccount.get x = some e
  size_eq : t.1.byAccount.size + (removed + t.2.2) = c.byAccount.size
  stack : ∀ {x e}, x ∈ t.2.1 → c.byAccount.get x = some e → c.Dependent root x
  gone : ∀ {x e}, c.byAccount.get x = some e → t.1.byAccount.get x = none → c.Dependent root x
  roots : ∀ {a}, root a → t.1.byAccount.get a = none ∨ a ∈ t.2.1
  closed : ∀ {a x}, t.1.byAccount.get a = none → c.BlockedOn a x →
    (∃ e, c.byAccount.get a = some e) → t.1.byAccount.get x = none ∨ x ∈ t.2.1

theorem Pruning.pruned {r : BlockingContainer × ℕ} (h : Pruning c root removed (r.1, [], r.2)) :
    Pruned c root r.1 (removed + r.2) := by
  refine ⟨h.valid, fun x e => ⟨fun hget => ⟨h.within hget, fun hdep => ?_⟩, ?_⟩, h.size_eq⟩
  · -- the accounts that are gone are closed under dependency
    have hgone : r.1.byAccount.get x = none ∧ ∃ e, c.byAccount.get x = some e :=
      hdep.induction
        (P := fun x => r.1.byAccount.get x = none ∧ ∃ e, c.byAccount.get x = some e)
        (fun a e hroot hget => ⟨(h.roots hroot).resolve_right not_mem_nil, e, hget⟩)
        fun a x ha hblkd => ⟨(h.closed ha.1 hblkd ha.2).resolve_right not_mem_nil,
          hblkd.imp fun _ he => he.1⟩
    rw [hgone.1] at hget
    cases hget
  · rintro ⟨hget, hkept⟩
    cases hr : r.1.byAccount.get x with
    | none => exact absurd (h.gone hget hr) hkept
    | some e' => rw [← h.within hr, hget]

/-- The stack is bounded by the dependents of the entries that are still there. -/
def removeVariant (t : BlockingContainer × List Account × ℕ) : ℕ :=
  t.2.1.length + t.1.byAccount.size * (t.1.byAccount.size + 1)

/-- The accounts a round puts on the stack are those that are blocked on the removed one. -/
theorem Valid.mem_dependents (h : s.Valid) : x ∈ listed s.byDependencyAccount a ↔ s.BlockedOn a x :=
  h.byDependencyAccount.lists.mem_iff.trans keyOf_eq_some

/-- The account on top of the stack is removed, or was not there. -/
theorem Pruning.pop {c1 c2 : BlockingContainer} {stack added : List Account} {count count' : ℕ}
    (h : Pruning c root removed (c1, x :: stack, count)) (hval : c2.Valid)
    (hdel : c2.byAccount = c1.byAccount.del x)
    (hsize : c2.byAccount.size + (removed + count') = c.byAccount.size)
    (hadded : ∀ y, y ∈ added ↔ (∃ e, c1.byAccount.get x = some e) ∧ c2.BlockedOn x y) :
    Pruning c root removed (c2, added ++ stack, count') := by
  have hget : ∀ {y e}, c2.byAccount.get y = some e → c1.byAccount.get y = some e := by
    intro y e hy
    rw [hdel] at hy
    exact (Table.get_of_get_del hy).2
  have hgone : ∀ {y}, c1.byAccount.get y = none ∨ y ∈ x :: stack →
      c2.byAccount.get y = none ∨ y ∈ added ++ stack := by
    intro y hy
    by_cases hyx : y = x
    · rw [hdel, hyx, Table.get_del_self]
      exact .inl rfl
    · rw [hdel, Table.get_del_of_ne _ hyx]
      exact hy.imp_right fun hmem =>
        mem_append_right _ ((mem_cons.mp hmem).resolve_left hyx)
  refine ⟨hval, fun hy => h.within (hget hy), hsize, fun {y e} hy hst => ?_,
    fun {y e} hst hy => ?_, fun hroot => hgone (h.roots hroot),
    fun {a y} ha hblkd hst => ?_⟩
  · rcases mem_append.mp hy with hnew | hold
    · obtain ⟨⟨ex, hx⟩, ey, hy2, hdep⟩ := (hadded y).mp hnew
      exact (h.stack mem_cons_self (h.within hx)).tail ⟨ey, h.within (hget hy2), hdep⟩
    · exact h.stack (mem_cons_of_mem _ hold) hst
  · by_cases hyx : y = x
    · subst hyx
      exact h.stack mem_cons_self hst
    · rw [hdel, Table.get_del_of_ne _ hyx] at hy
      exact h.gone hst hy
  · cases ha1 : c1.byAccount.get a with
    | none => exact hgone (h.closed ha1 hblkd hst)
    | some ea =>
      -- the account was removed just now, so its dependents that are left are on the stack
      obtain rfl : a = x := by
        by_contra hne
        rw [hdel, Table.get_del_of_ne _ hne, ha1] at ha
        cases ha
      cases hy : c2.byAccount.get y with
      | none => exact .inl rfl
      | some ey =>
        obtain ⟨e, he, hdep⟩ := hblkd
        rw [h.within (hget hy)] at he
        obtain rfl := Option.some.inj he
        exact .inr (mem_append_left _ ((hadded y).mpr ⟨⟨ea, ha1⟩, ey, hy, hdep⟩))

theorem Pruning.step {t : BlockingContainer × List Account × ℕ} (h : Pruning c root removed t) :
    ∃ x, removeStep t = .ok x ∧
      Sum.elim (fun t' => Pruning c root removed t' ∧ removeVariant t' < removeVariant t)
        (fun r => Pruned c root r.1 (removed + r.2)) x := by
  obtain ⟨c1, stack, count⟩ := t
  cases stack with
  | nil => exact ⟨.inr (c1, count), rfl, h.pruned⟩
  | cons x stack =>
    obtain ⟨c2, hrem, hval, hdel⟩ := h.valid.removeAccount x
    cases hget : c1.byAccount.get x with
    | none =>
      rw [hget] at hrem
      have hsame : c2.byAccount = c1.byAccount := hdel.trans (Table.del_of_get_none hget)
      refine ⟨.inl (c2, stack, count), bind_eq_ok.mpr ⟨_, hrem, rfl⟩, ?_, ?_⟩
      · have hnew : ∀ y, y ∈ [] ↔ (∃ e, c1.byAccount.get x = some e) ∧ c2.BlockedOn x y := by
          rw [hget]
          simp
        exact h.pop hval hdel (hsame ▸ h.size_eq) hnew
      · simp only [removeVariant, hsame, length_cons]
        omega
    | some entry =>
      rw [hget] at hrem
      have hsize : c2.byAccount.size + 1 = c1.byAccount.size := by
        rw [hdel]
        exact Table.size_del_of_some hget
      refine ⟨.inl (c2, _, count + 1), bind_eq_ok.mpr ⟨_, hrem, rfl⟩, ?_, ?_⟩
      · refine h.pop hval hdel ?_ fun y => ?_
        · have := h.size_eq
          dsimp only at this
          omega
        · rw [mem_reverse, h.valid.account_eq hget, hval.mem_dependents, hget]
          exact (and_iff_right ⟨entry, rfl⟩).symm
      · have hle := hval.byDependencyAccount.length_le entry.account
        have hmul : (c2.byAccount.size + 1) * (c2.byAccount.size + 1 + 1) =
            c2.byAccount.size * (c2.byAccount.size + 1) + 2 * (c2.byAccount.size + 1) := by
          ring
        simp only [removeVariant, ← hsize, length_append, length_reverse, length_cons]
        omega

/-- Removing an account with its dependents returns, whatever the dependencies are. -/
theorem Pruned.removeAccountAndDependents (h : Pruned c root s removed) (a : Account) :
    ∃ r, s.removeAccountAndDependents a = .ok r ∧
      Pruned c (fun x => root x ∨ x = a) r.1 (removed + r.2) := by
  refine Loop.run_of_variant (P := Pruning c (fun x => root x ∨ x = a) removed) removeVariant
    (fun _ t ht => ht.step) ⟨h.valid, fun hget => ((h.get_iff _ _).mp hget).1, h.size_eq,
      fun hx hst => ?_, fun hst hx => (h.dependent hst hx).mono fun _ => .inl,
      fun {x} hroot => ?_, fun {x y} hx hblkd hst => ?_⟩ ?_
  · exact .of_root (.inr (mem_singleton.mp hx)) hst
  · rcases hroot with hroot | rfl
    · exact .inl (h.get_of_root hroot)
    · exact .inr mem_cons_self
  · obtain ⟨e, hst⟩ := hst
    exact .inl (h.get_of_dependent ((h.dependent hst hx).tail hblkd))
  · simp only [removeVariant, length_singleton]
    omega

/-- What the removal of the oldest entry leaves. -/
theorem Valid.removeOldest_pruned (h : c.Valid) :
    ∃ r, c.removeOldest = .ok r ∧ Pruned c (fun x => c.sequenced.head? = some x) r.1 r.2 := by
  rw [removeOldest]
  cases hhead : c.sequenced.head? with
  | none => exact ⟨(c, 0), rfl, h.pruned.extend (fun _ => False.elim) fun a ha => nomatch ha⟩
  | some oldest =>
    obtain ⟨r, hrem, hr⟩ := h.pruned.removeAccountAndDependents oldest
    rw [Nat.zero_add] at hr
    refine ⟨r, hrem, hr.extend (fun a ha => ?_) fun a ha => hr.get_of_root (.inr ?_)⟩
    · rw [ha.resolve_left id]
    · exact (Option.some.inj ha).symm

/-- Removing the oldest entry makes the container smaller. -/
theorem Valid.removeOldest (h : c.Valid) (hlen : 0 < c.len) :
    ∃ r, c.removeOldest = .ok r ∧ r.1.Valid ∧ Table.KeysWithin r.1.byAccount c.byAccount ∧
      r.1.len < c.len := by
  obtain ⟨r, hrem, hr⟩ := h.removeOldest_pruned
  obtain ⟨oldest, rest, hcons⟩ := exists_cons_of_length_pos hlen
  obtain ⟨e, hget⟩ := h.sequenced.mem_iff.mp (hcons ▸ mem_cons_self)
  have hin := h.pruned.keysWithin hr fun _ => False.elim
  refine ⟨r, hrem, hr.valid, hin, ?_⟩
  rw [hr.valid.len_eq, h.len_eq]
  refine hin.size_lt (hr.get_of_root ?_) hget
  rw [hcons, head?_cons]

/-- The account was blocked before the cutoff. -/
def Expired (c : BlockingContainer) (cutoff : Timestamp) (a : Account) : Prop :=
  ∃ e, c.byAccount.get a = some e ∧ e.added < cutoff

/-- The accounts of one timestamp are removed one after the other. -/
theorem Pruned.removeAll (h : Pruned c root s removed) (accounts : List Account) :
    ∃ r, accounts.foldlM (fun (s : BlockingContainer × ℕ) account => do
        let (c, count) ← s.1.removeAccountAndDependents account
        return (c, s.2 + count)) (s, removed) = .ok r ∧
      Pruned c (fun x => root x ∨ x ∈ accounts) r.1 r.2 := by
  refine foldlM_prefix_ok (P := fun done (r : BlockingContainer × ℕ) =>
    Pruned c (fun x => root x ∨ x ∈ done) r.1 r.2) [] ?_ ?_
  · rintro ⟨s1, removed1⟩ before a - - h1
    obtain ⟨r, hrem, hr⟩ := h1.removeAccountAndDependents a
    refine ⟨(r.1, removed1 + r.2), bind_eq_ok.mpr ⟨r, hrem, rfl⟩, ?_⟩
    simpa only [mem_append, mem_singleton, or_assoc] using hr
  · simpa only [not_mem_nil, or_false] using h

/-- Some of the expired accounts have been removed with their dependents. -/
def Expiring (c : BlockingContainer) (cutoff : Timestamp) (t : BlockingContainer × ℕ) : Prop :=
  ∃ root, (∀ a, root a → c.Expired cutoff a) ∧ Pruned c root t.1 t.2

variable {cutoff : Timestamp}

section

variable (hhead : ∀ timestamp, (s.byTimestamp.sortedKeys (· ≤ ·)).head? = some timestamp →
  cutoff ≤ timestamp)

include hhead

/-- The entries that are left when no timestamp is before the cutoff are not expired. -/
theorem Valid.le_added (h : s.Valid) (hget : s.byAccount.get x = some e) : cutoff ≤ e.added := by
  obtain ⟨accounts, haccs, -⟩ := h.byTimestamp.get_of_key (keyOf_of_get hget)
  have hmem := (Table.mem_sortedKeys (· ≤ ·)).mpr ⟨accounts, haccs⟩
  obtain ⟨timestamp, rest, hkeys⟩ := exists_cons_of_ne_nil (ne_nil_of_mem hmem)
  have hfst : (s.byTimestamp.sortedKeys (· ≤ ·)).head? = some timestamp := by
    rw [hkeys, head?_cons]
  exact (hhead timestamp hfst).trans (Table.head_sortedKeys_le (· ≤ ·) hfst haccs)

/-- The loop ends when nothing is left that has expired. -/
theorem Expiring.pruned (h : Expiring c cutoff (s, removed)) :
    Pruned c (c.Expired cutoff) s removed := by
  obtain ⟨root, hroot, hpruned⟩ := h
  refine hpruned.extend hroot fun a ⟨e, hst, hadded⟩ => ?_
  cases hget : s.byAccount.get a with
  | none => rfl
  | some e' =>
    have hle := hpruned.valid.le_added hhead hget
    rw [((hpruned.get_iff a e').mp hget).1] at hst
    obtain rfl := Option.some.inj hst
    exact absurd hadded (not_lt.mpr hle)

end

/-- One round removes all entries with the first timestamp. -/
theorem Expiring.step {t : BlockingContainer × ℕ} (h : Expiring c cutoff t) :
    ∃ x, removeOlderStep cutoff t = .ok x ∧
      Sum.elim (fun t' => Expiring c cutoff t' ∧ t'.1.byAccount.size < t.1.byAccount.size)
        (fun r => Pruned c (c.Expired cutoff) r.1 r.2) x := by
  obtain ⟨s, removed⟩ := t
  rw [removeOlderStep]
  cases hhead : (s.byTimestamp.sortedKeys (· ≤ ·)).head? with
  | none =>
    refine ⟨.inr (s, removed), rfl, h.pruned fun timestamp htime => ?_⟩
    rw [hhead] at htime
    cases htime
  | some timestamp =>
    by_cases hcutoff : cutoff ≤ timestamp
    · refine ⟨.inr (s, removed), if_pos hcutoff, h.pruned fun timestamp' htime => ?_⟩
      rw [hhead] at htime
      exact Option.some.inj htime ▸ hcutoff
    · obtain ⟨root, hroot, hpruned⟩ := h
      obtain ⟨accounts, haccs⟩ := (Table.mem_sortedKeys (· ≤ ·)).mp (mem_of_head? hhead)
      have hst : ∀ a ∈ accounts, ∃ e, s.byAccount.get a = some e ∧ e.added = timestamp :=
        fun a ha => keyOf_eq_some.mp (hpruned.valid.byTimestamp.lists.key_of_mem haccs ha)
      obtain ⟨r, hfold, hr⟩ := hpruned.removeAll accounts
      refine ⟨.inl r, ?_, ⟨_, fun a ha => ha.elim (hroot a) fun hmem => ?_, hr⟩, ?_⟩
      · dsimp only
        rw [if_neg hcutoff, listed_of_get haccs]
        exact bind_eq_ok.mpr ⟨r, hfold, rfl⟩
      · obtain ⟨a, rest, hcons⟩ := exists_cons_of_ne_nil (hpruned.valid.byTimestamp.ne_nil haccs)
        have ha : a ∈ accounts := hcons ▸ mem_cons_self
        obtain ⟨e, hget, -⟩ := hst a ha
        exact (hpruned.keysWithin hr fun _ => .inl).size_lt (hr.get_of_root (.inr ha)) hget
      · obtain ⟨e, hget, hadded⟩ := hst a hmem
        exact ⟨e, ((hpruned.get_iff a e).mp hget).1, hadded ▸ not_le.mp hcutoff⟩

theorem Valid.removeOlderThan_pruned (h : c.Valid) (cutoff : Timestamp) :
    ∃ r, c.removeOlderThan cutoff = .ok r ∧ Pruned c (c.Expired cutoff) r.1 r.2 :=
  Loop.run_of_variant (P := Expiring c cutoff) (fun t => t.1.byAccount.size)
    (fun _ _ ht => ht.step) ⟨_, fun _ => False.elim, h.pruned⟩ (Nat.lt_succ_self _)

theorem Valid.removeOlderThan (h : c.Valid) (cutoff : Timestamp) :
    ∃ r, c.removeOlderThan cutoff = .ok r ∧ r.1.Valid ∧
      Table.KeysWithin r.1.byAccount c.byAccount := by
  obtain ⟨r, hrem, hr⟩ := h.removeOlderThan_pruned cutoff
  exact ⟨r, hrem, hr.valid, h.pruned.keysWithin hr fun _ => False.elim⟩

/-- Old entries, and the oldest entry, leave with exactly the accounts that can be reached from
them; the indexes stay coherent and the result is the number of removed entries. -/
theorem expiry_closure (h : c.Valid) (cutoff : Timestamp) :
    (∃ r, c.removeOlderThan cutoff = .ok r ∧ r.1.Valid ∧
      (∀ x e, r.1.byAccount.get x = some e → cutoff ≤ e.added) ∧
      (∀ x e, r.1.byAccount.get x = some e ↔
        c.byAccount.get x = some e ∧ ¬ c.Dependent (c.Expired cutoff) x) ∧
      r.1.byAccount.size + r.2 = c.byAccount.size) ∧
    ∃ r, c.removeOldest = .ok r ∧ r.1.Valid ∧
      (∀ x e, r.1.byAccount.get x = some e ↔
        c.byAccount.get x = some e ∧ ¬ c.Dependent (fun a => c.sequenced.head? = some a) x) ∧
      r.1.byAccount.size + r.2 = c.byAccount.size := by
  constructor
  · obtain ⟨r, hremove, hr⟩ := h.removeOlderThan_pruned cutoff
    refine ⟨r, hremove, hr.valid, fun x e hget => ?_, hr.get_iff, hr.size_eq⟩
    obtain ⟨hstored, hkept⟩ := (hr.get_iff x e).mp hget
    by_contra hlt
    exact hkept (.of_root ⟨e, hstored, not_le.mp hlt⟩ hstored)
  · obtain ⟨r, hremove, hr⟩ := h.removeOldest_pruned
    exact ⟨r, hremove, hr.valid, hr.get_iff, hr.size_eq⟩

/-- Two accounts that are blocked on each other and one that is blocked on itself. -/
def devCycle : BlockingContainer :=
  (((⟨∅, [], ∅, ∅, ∅⟩ : BlockingContainer).insert ⟨1, 11, 2, 0⟩).1.insert ⟨2, 12, 1, 10⟩).1.insert
    ⟨3, 13, 3, 10⟩ |>.1

theorem valid_devCycle : devCycle.Valid := by
  refine (Valid.insert (Valid.insert (Valid.insert Valid.empty ?_).1 ?_).1 ?_).1
  · rfl
  · decide +kernel
  · decide +kernel

/-- The younger account of the cycle expires with the older one. -/
theorem expiry_closure_devCycle : devCycle.Valid ∧
    ∃ r, devCycle.removeOlderThan 5 = .ok r ∧ r.1.byAccount.get 2 = none ∧
      ∀ x e, r.1.byAccount.get x = some e → 5 ≤ e.added := by
  obtain ⟨⟨r, hremove, -, hadded, hiff, -⟩, -⟩ := expiry_closure valid_devCycle 5
  refine ⟨valid_devCycle, r, hremove, ?_, hadded⟩
  have hexpired : devCycle.Dependent (devCycle.Expired 5) 2 :=
    (Dependent.of_root (e := ⟨1, 11, 2, 0⟩) ⟨⟨1, 11, 2, 0⟩, by decide +kernel, by decide⟩
      (by decide +kernel)).tail ⟨⟨2, 12, 1, 10⟩, by decide +kernel, rfl⟩
  cases hget : r.1.byAccount.get 2 with
  | none => rfl
  | some e => exact absurd hexpired ((hiff 2 e).mp hget).2

end BlockingContainer

end RsNano
