import Mathlib.Data.Finmap
import Mathlib.Algebra.GroupWithZero.Nat
import Mathlib.Algebra.BigOperators.Group.Multiset.Basic
import Mathlib.Data.Multiset.Count
import Mathlib.Algebra.Order.BigOperators.Group.Multiset
import Mathlib.Algebra.Order.Group.Nat
import Mathlib.Data.Multiset.Sort

/-!
# Finite tables

A key-value table as an extensional finite map. The operations are the ones a database
table or a hash map offers: `get`, an overwriting `put`, an idempotent `del`, an update and a
filter of all records, the record count, and a sum over all records. Two tables with the same
lookups are equal, so an update sequence that restores every lookup restores the table.

A table has no order. Where a program iterates over a hash map, the order is one more input:
a list of keys that satisfies `IsOrder`. A sorted store lists its keys in a fixed order.

The sums are taken in `ℕ`. Bounds on machine words belong to the callers.
-/

namespace RsNano

universe u v

open Multiset

/-- A finite map from keys to values. -/
def Table (K : Type u) (V : Type v) := Finmap fun _ : K => V

namespace Table

variable {K : Type u} {V : Type v}

/-- The table without records. -/
def empty : Table K V := (∅ : Finmap fun _ : K => V)

instance : EmptyCollection (Table K V) := ⟨empty⟩

instance : Inhabited (Table K V) := ⟨empty⟩

/-- The number of records. -/
def size (t : Table K V) : ℕ := card (Finmap.entries t)

/-- The sum of a weight over all records. -/
def sumBy (f : K → V → ℕ) (t : Table K V) : ℕ := ((Finmap.entries t).map fun e => f e.1 e.2).sum

/-- The keys in a given order, as an iterator over a sorted store lists them. -/
def sortedKeys (t : Table K V) (r : K → K → Prop) [DecidableRel r] [IsTrans K r]
    [Std.Antisymm r] [Std.Total r] : List K :=
  (Finmap.keys t).val.sort r

/-- The number of values that satisfy a test. -/
def count (p : V → Bool) (t : Table K V) : ℕ := (Finmap.entries t).countP fun e => p e.2 = true

/-- Update all records. -/
def mapValues {W : Type v} (f : K → V → W) (t : Table K V) : Table K W where
  entries := (Finmap.entries t).map fun e => ⟨e.1, f e.1 e.2⟩
  nodupKeys := by
    rw [← nodup_keys, keys, map_map]
    exact (Finmap.nodupKeys t).nodup_keys

/-- Keep the records that satisfy a test. -/
def retain (p : K → V → Bool) (t : Table K V) : Table K V where
  entries := (Finmap.entries t).filter fun e => p e.1 e.2 = true
  nodupKeys := by
    rw [← nodup_keys]
    exact nodup_of_le (map_le_map (filter_le _ _)) (Finmap.nodupKeys t).nodup_keys

/-- The list has every key of the table once: it is an order in which the table can be
iterated. -/
def IsOrder (t : Table K V) (order : List K) : Prop :=
  (order : Multiset K) = keys (Finmap.entries t)

variable {t : Table K V} {W : Type v} {order : List K}

theorem card_keys (t : Table K V) : (Finmap.keys t).card = t.size := card_map _ _

/-- Summing one for each record counts the records. -/
theorem sumBy_one (t : Table K V) : (t.sumBy fun _ _ => 1) = t.size := by
  rw [sumBy, map_const', sum_replicate]
  exact Nat.mul_one _

/-- An update of all records keeps their number. -/
@[simp] theorem size_mapValues (f : K → V → W) (t : Table K V) : (t.mapValues f).size = t.size :=
  card_map _ _

/-- A sum over updated records. -/
theorem sumBy_mapValues (f : K → V → W) (g : K → W → ℕ) (t : Table K V) :
    (t.mapValues f).sumBy g = t.sumBy fun k v => g k (f k v) := by
  rw [sumBy, mapValues, map_map]
  rfl

/-- An order has no key twice. -/
theorem IsOrder.nodup (h : t.IsOrder order) : order.Nodup := by
  rw [← coe_nodup, h]
  exact (Finmap.nodupKeys t).nodup_keys

/-- An order is as long as the table. -/
theorem IsOrder.length_eq (h : t.IsOrder order) : order.length = t.size := by
  rw [← coe_card, h, keys, card_map, size]

/-- An update of all records keeps the keys. -/
theorem IsOrder.mapValues (h : t.IsOrder order) (f : K → V → W) :
    (t.mapValues f).IsOrder order := by
  rw [IsOrder, Table.mapValues, keys, map_map]
  exact h

/-- Updating all values to ones that pass fewer tests does not raise a count. -/
theorem count_mapValues_le {f : K → V → V} {p : V → Bool}
    (hle : ∀ k v, p (f k v) = true → p v = true) : (t.mapValues f).count p ≤ t.count p := by
  rw [count, mapValues, countP_map, count, countP_eq_card_filter]
  exact card_le_card (monotone_filter_right _ fun e h => hle e.1 e.2 h)

/-- Keeping some records does not raise a count. -/
theorem count_retain_le (q : K → V → Bool) (t : Table K V) (p : V → Bool) :
    (t.retain q).count p ≤ t.count p :=
  countP_le_of_le _ (filter_le _ _)

/-- A stronger test passes fewer values. -/
theorem count_le_count {p q : V → Bool} (h : ∀ v, p v = true → q v = true) :
    t.count p ≤ t.count q := by
  rw [count, count, countP_eq_card_filter, countP_eq_card_filter]
  exact card_le_card (monotone_filter_right _ fun e hp => h e.2 hp)

variable [DecidableEq K]

instance [DecidableEq V] : DecidableEq (Table K V) :=
  inferInstanceAs (DecidableEq (Finmap fun _ : K => V))

/-- The value stored under a key. -/
def get (t : Table K V) (k : K) : Option V := Finmap.lookup k t

/-- Whether a key has a record. -/
def contains (t : Table K V) (k : K) : Bool := (t.get k).isSome

/-- Store a value, replacing an older one under the same key. -/
def put (t : Table K V) (k : K) (v : V) : Table K V := Finmap.insert k v t

/-- Remove the record of a key, if there is one. -/
def del (t : Table K V) (k : K) : Table K V := Finmap.erase k t

/-- Whether some record satisfies a test. -/
def any (p : K → V → Bool) (t : Table K V) : Bool :=
  decide (0 < (Finmap.entries t).countP fun e => p e.1 e.2 = true)

instance (t : Table K V) (order : List K) : Decidable (t.IsOrder order) :=
  inferInstanceAs (Decidable ((order : Multiset K) = keys (Finmap.entries t)))

variable {k k' : K} {v : V} {keys : List K}

/-- Tables are determined by their lookups. -/
theorem ext_get {s : Table K V} (h : ∀ k, s.get k = t.get k) : s = t := Finmap.ext_lookup h

variable (t v)

/-- Storing under one key leaves every other key alone. -/
theorem get_put_of_ne (h : k' ≠ k) : (t.put k v).get k' = t.get k' := Finmap.lookup_insert_of_ne t h

/-- Removing one key leaves every other key alone. -/
theorem get_del_of_ne (h : k' ≠ k) : (t.del k).get k' = t.get k' := Finmap.lookup_erase_ne h

variable (k k')

/-- Nothing is stored in the empty table. -/
@[simp] theorem get_empty : (∅ : Table K V).get k = none := Finmap.lookup_empty k

/-- A stored value is read back. -/
@[simp] theorem get_put_self : (t.put k v).get k = some v := Finmap.lookup_insert t

/-- The lookups after a `put`, in one equation. -/
theorem get_put : (t.put k v).get k' = if k' = k then some v else t.get k' := by
  split
  · next h => rw [h, get_put_self]
  · next h => exact get_put_of_ne t v h

/-- A removed key has no record. -/
@[simp] theorem get_del_self : (t.del k).get k = none := Finmap.lookup_erase k t

/-- The lookups after a `del`, in one equation. -/
theorem get_del : (t.del k).get k' = if k' = k then none else t.get k' := by
  split
  · next h => rw [h, get_del_self]
  · next h => exact get_del_of_ne t h

/-- Storing after a removal of the same key is storing. -/
theorem put_del : (t.del k).put k v = t.put k v := by
  apply ext_get
  intro k'
  rw [get_put, get_put]
  split
  · rfl
  · next h => exact get_del_of_ne t h

variable {t k k' v}

/-- What is read after a `put` is the new record or an older one under another key. -/
theorem eq_or_of_get_put {w : V} (h : (t.put k v).get k' = some w) :
    (k' = k ∧ w = v) ∨ (k' ≠ k ∧ t.get k' = some w) := by
  rw [get_put] at h
  split at h
  · next hk => exact .inl ⟨hk, (Option.some.inj h).symm⟩
  · next hk => exact .inr ⟨hk, h⟩

/-- What holds of the new record and of the older ones holds of every record after a `put`. -/
theorem forall_get_put {P : K → V → Prop} (hold : ∀ {k' w}, t.get k' = some w → P k' w)
    (hnew : P k v) {w : V} (h : (t.put k v).get k' = some w) : P k' w := by
  rcases eq_or_of_get_put h with ⟨rfl, rfl⟩ | ⟨-, h⟩
  · exact hnew
  · exact hold h

theorem eq_of_get_put_empty {w : V} (h : ((∅ : Table K V).put k v).get k' = some w) :
    k' = k ∧ w = v := by
  rcases eq_or_of_get_put h with heq | ⟨-, h⟩
  · exact heq
  · cases h

/-- A record with a property after a `put` is the new one or one under another key. -/
theorem exists_get_put {P : V → Prop} : (∃ w, (t.put k v).get k' = some w ∧ P w) ↔
    (k' = k ∧ P v) ∨ (k' ≠ k ∧ ∃ w, t.get k' = some w ∧ P w) := by
  by_cases hk : k' = k
  · simp [hk]
  · simp [hk, get_put_of_ne _ _ hk]

/-- A fresh record leaves the records already there alone. -/
theorem get_put_of_get (v : V) {w : V} (hnew : t.get k = none) (h : t.get k' = some w) :
    (t.put k v).get k' = some w := by
  rw [get_put_of_ne]
  · exact h
  · rintro rfl
    rw [hnew] at h
    cases h

/-- A key absent after a `del` of another key was absent before. -/
theorem get_of_get_del (h : (t.del k).get k' = some v) : k' ≠ k ∧ t.get k' = some v := by
  rw [get_del] at h
  split at h
  · contradiction
  · next hne => exact ⟨hne, h⟩

/-- A record with a property after a `del` is under another key. -/
theorem exists_get_del {P : V → Prop} : (∃ w, (t.del k).get k' = some w ∧ P w) ↔
    k' ≠ k ∧ ∃ w, t.get k' = some w ∧ P w := by
  by_cases hk : k' = k
  · simp [hk]
  · simp [hk, get_del_of_ne _ hk]

/-- Removing a fresh record restores the table. -/
theorem del_put_of_get_none (v : V) (h : t.get k = none) : (t.put k v).del k = t := by
  apply ext_get
  intro k'
  rw [get_del, get_put]
  split
  · next hk => rw [hk, h]
  · rfl

/-- Writing back the value that is stored changes nothing. -/
theorem put_of_get (h : t.get k = some v) : t.put k v = t := by
  apply ext_get
  intro k'
  rw [get_put]
  split
  · next hk => rw [hk, h]
  · rfl

/-- Writing a record changes nothing exactly when it is there already. -/
theorem put_eq_self_iff : t.put k v = t ↔ t.get k = some v := by
  refine ⟨fun h => ?_, put_of_get⟩
  rw [← h, get_put_self]

/-- Deleting a record that has been written restores the table exactly when there was none. -/
theorem del_put_eq_self_iff : (t.put k v).del k = t ↔ t.get k = none := by
  refine ⟨fun h => ?_, del_put_of_get_none v⟩
  rw [← h, get_del_self]

/-- A fresh record is added to the records already there. -/
theorem entries_put (v : V) (h : t.get k = none) :
    Finmap.entries (t.put k v) = ⟨k, v⟩ ::ₘ Finmap.entries t :=
  Finmap.entries_insert_of_notMem (Finmap.lookup_eq_none.mp h)

/-- A stored record can be split off the others. -/
theorem entries_of_get (h : t.get k = some v) :
    Finmap.entries t = ⟨k, v⟩ ::ₘ Finmap.entries (t.del k) := by
  rw [← entries_put v (get_del_self t k), put_del, put_of_get h]

/-- A fresh record grows the table by one. -/
theorem size_put_of_none (v : V) (h : t.get k = none) : (t.put k v).size = t.size + 1 := by
  rw [size, entries_put v h, card_cons, size]

/-- Removing a stored record shrinks the table by one. -/
theorem size_del_of_some (h : t.get k = some v) : (t.del k).size + 1 = t.size := by
  rw [size, size, entries_of_get h, card_cons]

/-- Replacing a stored record keeps the number of records. -/
theorem size_put_of_some (w : V) (h : t.get k = some v) : (t.put k w).size = t.size := by
  rw [← put_del, size_put_of_none w (get_del_self t k), size_del_of_some h]

/-- A table with a record is not empty. -/
theorem size_pos_of_get (h : t.get k = some v) : 0 < t.size := by
  have := size_del_of_some h
  omega

/-- A fresh record adds its weight. -/
theorem sumBy_put_of_none (v : V) (f : K → V → ℕ) (h : t.get k = none) :
    (t.put k v).sumBy f = f k v + t.sumBy f := by
  rw [sumBy, entries_put v h, map_cons, sum_cons, sumBy]

/-- Removing a stored record takes its weight away. -/
theorem sumBy_del_of_some (f : K → V → ℕ) (h : t.get k = some v) :
    f k v + (t.del k).sumBy f = t.sumBy f := by
  rw [sumBy, sumBy, entries_of_get h, map_cons, sum_cons]

/-- Replacing a stored record exchanges the weights. -/
theorem sumBy_put_of_some (w : V) (f : K → V → ℕ) (h : t.get k = some v) :
    (t.put k w).sumBy f + f k v = f k w + t.sumBy f := by
  have hdel := sumBy_del_of_some f h
  rw [← put_del, sumBy_put_of_none w f (get_del_self t k)]
  omega

/-- One record weighs at most the whole table. -/
theorem le_sumBy (f : K → V → ℕ) (h : t.get k = some v) : f k v ≤ t.sumBy f := by
  have := sumBy_del_of_some f h
  omega

/-- Membership of a record in the entry multiset is a lookup. -/
theorem mem_entries_iff : (⟨k, v⟩ : Sigma fun _ : K => V) ∈ Finmap.entries t ↔ t.get k = some v :=
  Finmap.lookup_eq_some_iff.symm

/-- Membership of a key in the keys is a lookup. -/
theorem mem_keys_iff : k ∈ Finmap.keys t ↔ ∃ v, t.get k = some v :=
  Finmap.mem_keys.trans Finmap.mem_iff

/-- The lookups after an update of all records. -/
@[simp] theorem get_mapValues (f : K → V → W) (t : Table K V) (k : K) :
    (t.mapValues f).get k = (t.get k).map (f k) := by
  apply Option.ext
  intro w
  rw [← mem_entries_iff, mapValues, mem_map, Option.map_eq_some_iff]
  constructor
  · rintro ⟨⟨k', v⟩, hmem, heq⟩
    cases heq
    exact ⟨v, mem_entries_iff.mp hmem, rfl⟩
  · rintro ⟨v, hget, rfl⟩
    exact ⟨⟨k, v⟩, mem_entries_iff.mpr hget, rfl⟩

/-- Tables whose records correspond are updated to the same table. -/
theorem mapValues_congr {t' : Table K V} {f : K → V → W}
    (h : ∀ {k v}, t.get k = some v → ∃ v', t'.get k = some v' ∧ f k v' = f k v)
    (h' : ∀ {k v}, t'.get k = some v → ∃ v', t.get k = some v' ∧ f k v' = f k v) :
    t.mapValues f = t'.mapValues f := by
  refine ext_get fun k => Option.ext fun w => ?_
  rw [get_mapValues, get_mapValues, Option.map_eq_some_iff, Option.map_eq_some_iff]
  constructor
  · rintro ⟨v, hv, rfl⟩
    exact h hv
  · rintro ⟨v, hv, rfl⟩
    exact h' hv

/-- The records that a filter keeps. -/
theorem get_retain_eq_some {p : K → V → Bool} :
    (t.retain p).get k = some v ↔ t.get k = some v ∧ p k v = true := by
  rw [← mem_entries_iff, retain, mem_filter, mem_entries_iff]

/-- An order has exactly the keys of the table. -/
theorem IsOrder.mem_iff (h : t.IsOrder order) : k ∈ order ↔ ∃ v, t.get k = some v := by
  rw [← mem_keys_iff, ← mem_coe, h]
  rfl

/-- A sum over the table is a sum along any order of it. -/
theorem IsOrder.sum_eq (h : t.IsOrder order) (f : K → V → ℕ) :
    (order.map fun k => ((t.get k).map (f k)).getD 0).sum = t.sumBy f := by
  rw [← sum_coe, ← map_coe, h, keys, map_map]
  refine congrArg sum (map_congr rfl ?_)
  rintro ⟨k, v⟩ hmem
  change ((t.get k).map (f k)).getD 0 = f k v
  rw [mem_entries_iff.mp hmem]
  rfl

/-- A sum over the selected records, along any order of the table. -/
theorem IsOrder.sum_filter (h : t.IsOrder order) (p : V → Bool) (f : V → ℕ) :
    (((order.filterMap t.get).filter p).map f).sum =
      t.sumBy fun _ v => if p v = true then f v else 0 := by
  rw [← h.sum_eq]
  clear h
  induction order with
  | nil => rfl
  | cons k order ih =>
    rw [List.filterMap_cons, List.map_cons, List.sum_cons, ← ih]
    cases t.get k with
    | none => exact (zero_add _).symm
    | some v =>
      dsimp only [Option.map_some, Option.getD_some]
      rw [List.filter_cons]
      split
      · rw [List.map_cons, List.sum_cons]
      · rw [zero_add]

/-- Distinct keys of a table are not more than its records. -/
theorem length_le_size (hnd : keys.Nodup) (hkeys : ∀ k ∈ keys, ∃ v, t.get k = some v) :
    keys.length ≤ t.size := by
  rw [← List.toFinset_card_of_nodup hnd, ← card_keys]
  exact Finset.card_le_card fun k hk => mem_keys_iff.mpr (hkeys k (List.mem_toFinset.mp hk))

/-- A sum is monotone in the weights of the records. -/
theorem sumBy_le_sumBy {f g : K → V → ℕ} (h : ∀ k v, t.get k = some v → f k v ≤ g k v) :
    t.sumBy f ≤ t.sumBy g :=
  sum_map_le_sum_map _ _ fun e he => h e.1 e.2 (mem_entries_iff.mp he)

/-- A sum depends on the weights of the records only. -/
theorem sumBy_congr {f g : K → V → ℕ} (h : ∀ k v, t.get k = some v → f k v = g k v) :
    t.sumBy f = t.sumBy g :=
  (sumBy_le_sumBy fun k v hget => (h k v hget).le).antisymm
    (sumBy_le_sumBy fun k v hget => (h k v hget).ge)

/-- `any` finds a record exactly when one satisfies the test. -/
theorem any_iff {p : K → V → Bool} : t.any p = true ↔ ∃ k v, t.get k = some v ∧ p k v = true := by
  rw [any, decide_eq_true_iff, countP_pos]
  constructor
  · rintro ⟨⟨k, v⟩, hmem, hp⟩
    exact ⟨k, v, mem_entries_iff.mp hmem, hp⟩
  · rintro ⟨k, v, hget, hp⟩
    exact ⟨⟨k, v⟩, mem_entries_iff.mpr hget, hp⟩

/-- Any measure of the keys of a table has a strict bound. -/
theorem exists_bound (t : Table K V) (f : K → ℕ) : ∃ n, ∀ k v, t.get k = some v → f k < n := by
  refine ⟨t.sumBy (fun k _ => f k) + 1, fun k v h => ?_⟩
  have := le_sumBy (fun k (_ : V) => f k) h
  omega

/-- A record that is not there needs no removal. -/
theorem del_of_get_none (h : t.get k = none) : t.del k = t := by
  apply ext_get
  intro k'
  rw [get_del]
  split
  · next heq => rw [heq, h]
  · rfl

/-- A fresh record counts if it passes the test. -/
theorem count_put_of_none (v : V) (p : V → Bool) (h : t.get k = none) :
    (t.put k v).count p = t.count p + if p v = true then 1 else 0 := by
  rw [count, entries_put v h, countP_cons, count]

/-- A removal does not raise a count. -/
theorem count_del_le (t : Table K V) (k : K) (p : V → Bool) : (t.del k).count p ≤ t.count p := by
  cases h : t.get k with
  | none => rw [del_of_get_none h]
  | some v =>
    rw [count, count, entries_of_get h, countP_cons]
    exact Nat.le_add_right _ _

/-- A write raises a count by one at most, and only if its value passes the test. -/
theorem count_put_le_add (t : Table K V) (k : K) (v : V) (p : V → Bool) :
    (t.put k v).count p ≤ t.count p + if p v = true then 1 else 0 := by
  rw [← put_del, count_put_of_none v p (get_del_self t k)]
  exact Nat.add_le_add_right (count_del_le t k p) _

/-- Replacing a value by one that passes fewer tests does not raise a count. -/
theorem count_put_le {w : V} (p : V → Bool) (h : t.get k = some v) (hle : p w = true → p v = true) :
    (t.put k w).count p ≤ t.count p := by
  rw [← put_del, count_put_of_none w p (get_del_self t k), count, count, entries_of_get h,
    countP_cons]
  by_cases hw : p w = true
  · rw [if_pos hw, if_pos (hle hw)]
  · rw [if_neg hw]
    exact Nat.add_le_add_left (Nat.zero_le _) _

/-- Distinct keys that are exactly those of a table are an order of it. -/
theorem IsOrder.of_nodup (hnd : keys.Nodup) (hkeys : ∀ k, k ∈ keys ↔ ∃ v, t.get k = some v) :
    t.IsOrder keys := by
  refine (Multiset.Nodup.ext (coe_nodup.mpr hnd) (Finmap.nodupKeys t).nodup_keys).mpr fun k => ?_
  rw [mem_coe, hkeys, ← mem_keys_iff]
  rfl

/-- A new key comes last in an order. -/
theorem IsOrder.put (h : t.IsOrder keys) (hnew : t.get k = none) :
    (t.put k v).IsOrder (keys ++ [k]) := by
  rw [IsOrder, entries_put v hnew, Multiset.keys, Multiset.map_cons, ← Multiset.keys, ← h,
    Multiset.cons_coe, Multiset.coe_eq_coe]
  exact List.perm_append_singleton k keys

/-- A changed record keeps its place in an order. -/
theorem IsOrder.put_of_some (h : t.IsOrder keys) (hget : t.get k = some v) (w : V) :
    (t.put k w).IsOrder keys := by
  refine IsOrder.of_nodup h.nodup fun k' => ?_
  rw [h.mem_iff, get_put]
  split
  · next hk => exact ⟨fun _ => ⟨w, rfl⟩, fun _ => ⟨v, hk ▸ hget⟩⟩
  · rfl

/-- Several keys are removed. -/
theorem get_foldl_del (t : Table K V) (keys : List K) (k : K) :
    (keys.foldl del t).get k = if k ∈ keys then none else t.get k := by
  induction keys generalizing t with
  | nil => rfl
  | cons k' keys ih =>
    rw [List.foldl_cons, ih, get_del]
    by_cases hk : k = k'
    · simp [hk]
    · simp [hk]

/-- A removed key leaves the order of the others. -/
theorem IsOrder.del (h : t.IsOrder keys) (k : K) : (t.del k).IsOrder (keys.filter (· ≠ k)) := by
  refine IsOrder.of_nodup (h.nodup.filter _) fun k' => ?_
  rw [List.mem_filter, h.mem_iff, decide_eq_true_iff]
  constructor
  · rintro ⟨⟨v, hget⟩, hne⟩
    exact ⟨v, (get_del_of_ne t hne).trans hget⟩
  · rintro ⟨v, hget⟩
    obtain ⟨hne, hold⟩ := get_of_get_del hget
    exact ⟨⟨v, hold⟩, hne⟩

/-- Every key of the first table is one of the second. -/
def KeysWithin (s t : Table K V) : Prop := ∀ k, t.get k = none → s.get k = none

namespace KeysWithin

variable {s t u : Table K V} {k : K} {v : V}

theorem refl (t : Table K V) : KeysWithin t t := fun _ h => h

theorem trans (h : KeysWithin s t) (h' : KeysWithin t u) : KeysWithin s u :=
  fun k hk => h k (h' k hk)

theorem del (t : Table K V) (k : K) : KeysWithin (t.del k) t := by
  intro k' h
  rw [get_del, h, ite_self]

theorem put (w : V) (hget : t.get k = some v) : KeysWithin (t.put k w) t := by
  intro k' h
  rw [get_put_of_ne _ _ (fun heq => by rw [heq, hget] at h; cases h)]
  exact h

theorem exists_get (h : KeysWithin s t) (hget : s.get k = some v) : ∃ w, t.get k = some w := by
  cases ht : t.get k with
  | none =>
    rw [h k ht] at hget
    cases hget
  | some w => exact ⟨w, rfl⟩

/-- Fewer keys make a smaller table. -/
theorem size_le (h : KeysWithin s t) : s.size ≤ t.size := by
  rw [← card_keys, ← card_keys]
  refine Finset.card_le_card fun k hk => ?_
  obtain ⟨v, hget⟩ := mem_keys_iff.mp hk
  exact mem_keys_iff.mpr (h.exists_get hget)

/-- A key that is gone makes the table strictly smaller. -/
theorem size_lt (h : KeysWithin s t) (hnone : s.get k = none) (hget : t.get k = some v) :
    s.size < t.size := by
  have hdel : KeysWithin s (t.del k) := by
    intro k' hk'
    by_cases hk : k' = k
    · rw [hk, hnone]
    · rw [get_del_of_ne _ hk] at hk'
      exact h k' hk'
  have := hdel.size_le
  have := size_del_of_some hget
  omega

end KeysWithin

end Table

end RsNano
