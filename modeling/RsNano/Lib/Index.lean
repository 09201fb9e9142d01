import RsNano.Lib.Table
import Mathlib.Logic.Function.Basic
import Mathlib.Data.List.Perm.Subperm

/-!
# Secondary indexes

A table of records can have an index: a second table that lists, under each value of some field,
the keys of the records with that value. The list of a value is dropped with its last key, so that
no list is empty. An index is exact for an assignment of values to keys; storing a record, removing
one and changing its field update the assignment at one key.
-/

namespace RsNano

universe u v w

open List Function Table

namespace Index

variable {K : Type u} {A : Type v}

/-- The value that the record of a key has in a field. -/
def keyOf [DecidableEq A] {V : Type w} (f : V → K) (t : Table A V) (a : A) : Option K :=
  (t.get a).map f

section

variable [DecidableEq A] {V : Type w} {f : V → K} {t : Table A V} {a : A} {v : V}

theorem keyOf_put : keyOf f (t.put a v) = update (keyOf f t) a (some (f v)) := by
  funext a'
  rw [keyOf, get_put, update_apply]
  split
  · rfl
  · rfl

theorem keyOf_del : keyOf f (t.del a) = update (keyOf f t) a none := by
  funext a'
  rw [keyOf, get_del, update_apply]
  split
  · rfl
  · rfl

/-- A change of a record that keeps the field keeps the values. -/
theorem keyOf_put_of_eq {w : V} (hget : t.get a = some v) (hfield : f w = f v) :
    keyOf f (t.put a w) = keyOf f t := by
  rw [keyOf_put, hfield]
  refine update_eq_self_iff.mpr ?_
  rw [keyOf, hget]
  rfl

theorem keyOf_of_get (hget : t.get a = some v) : keyOf f t a = some (f v) := by
  rw [keyOf, hget]
  rfl

theorem keyOf_eq_some {k : K} : keyOf f t a = some k ↔ ∃ v, t.get a = some v ∧ f v = k :=
  Option.map_eq_some_iff

end

variable [DecidableEq K]

/-- The keys listed under a value. -/
def listed (t : Table K (List A)) (k : K) : List A := (t.get k).getD []

/-- List a key behind the others with its value. -/
def push (t : Table K (List A)) (k : K) (a : A) : Table K (List A) := t.put k (listed t k ++ [a])

variable [DecidableEq A]

/-- Take a key out of a list that has it, and drop the list with its last key. -/
def withdraw (t : Table K (List A)) (k : K) (l : List A) (a : A) : Table K (List A) :=
  if 1 < l.length then t.put k (l.filter (· ≠ a)) else t.del k

end Index

open Index

variable {K : Type u} {A : Type v} [DecidableEq K] {t : Table K (List A)} {key : A → Option K}
  {k : K} {a : A} {l : List A}

namespace Index

theorem listed_of_get (hget : t.get k = some l) : listed t k = l := by
  rw [listed, hget]
  rfl

theorem get_of_mem_listed (hmem : a ∈ listed t k) : ∃ l, t.get k = some l ∧ a ∈ l := by
  rw [listed] at hmem
  cases hget : t.get k with
  | none =>
    rw [hget] at hmem
    cases hmem
  | some l =>
    rw [hget] at hmem
    exact ⟨l, rfl, hmem⟩

theorem listed_put (k' : K) : listed (t.put k l) k' = if k' = k then l else listed t k' := by
  rw [listed, get_put]
  split
  · rfl
  · rfl

variable [DecidableEq A]

/-- A list that is dropped is as good as an empty one. -/
theorem listed_withdraw (hmem : a ∈ l) (k' : K) :
    listed (withdraw t k l a) k' = if k' = k then l.filter (· ≠ a) else listed t k' := by
  rw [withdraw]
  by_cases hlen : 1 < l.length
  · rw [if_pos hlen, listed_put]
  · obtain ⟨x, rfl⟩ : ∃ x, l = [x] := by
      have := length_pos_of_mem hmem
      exact length_eq_one_iff.mp (by omega)
    obtain rfl := mem_singleton.mp hmem
    rw [if_neg hlen, listed, get_del]
    split
    · simp
    · rfl

/-- The two cases of a withdrawal can be told apart by a list of one key. -/
theorem withdraw_eq (hmem : a ∈ l) :
    withdraw t k l a = if l.length = 1 then t.del k else t.put k (l.filter (· ≠ a)) := by
  have := length_pos_of_mem hmem
  rw [withdraw]
  by_cases hone : l.length = 1
  · rw [if_neg (by omega), if_pos hone]
  · rw [if_pos (by omega), if_neg hone]

/-- The two cases of a withdrawal can be told apart by what is left. -/
theorem withdraw_eq_of_nodup (hmem : a ∈ l) (hnd : l.Nodup) :
    withdraw t k l a =
      if (l.filter (· ≠ a)).isEmpty then t.del k else t.put k (l.filter (· ≠ a)) := by
  have hlen : (l.filter (· ≠ a)).length + 1 = l.length := by
    have herase : l.erase a = l.filter (· ≠ a) := by
      rw [hnd.erase_eq_filter]
      refine filter_congr fun x _ => ?_
      rw [Bool.eq_iff_iff, bne_iff_ne, decide_eq_true_iff]
    have := length_pos_of_mem hmem
    rw [← herase, length_erase_of_mem hmem]
    omega
  rw [withdraw]
  by_cases hone : 1 < l.length
  · rw [if_pos hone, if_neg]
    rw [isEmpty_iff_length_eq_zero]
    omega
  · rw [if_neg hone, if_pos]
    rw [isEmpty_iff_length_eq_zero]
    omega

end Index

/-- The table lists the keys under their values. -/
def Lists (t : Table K (List A)) (key : A → Option K) : Prop :=
  ∀ k a, a ∈ listed t k ↔ key a = some k

namespace Lists

variable (h : Lists t key)

include h

theorem mem_iff : a ∈ listed t k ↔ key a = some k := h k a

theorem not_mem_of_fresh (hnew : key a = none) : a ∉ listed t k := by
  rw [h.mem_iff, hnew]
  exact nofun

theorem key_of_mem (hget : t.get k = some l) (hmem : a ∈ l) : key a = some k := by
  refine h.mem_iff.mp ?_
  rw [listed_of_get hget]
  exact hmem

theorem mem_of_key (hkey : key a = some k) (hget : t.get k = some l) : a ∈ l := by
  rw [← listed_of_get hget]
  exact h.mem_iff.mpr hkey

variable [DecidableEq A]

/-- A new key is listed under its value. -/
theorem put (hnew : key a = none) (hl : ∀ a', a' ∈ l ↔ a' = a ∨ a' ∈ listed t k) :
    Lists (t.put k l) (update key a (some k)) := by
  intro k' a'
  rw [listed_put, update_apply]
  by_cases ha : a' = a
  · rw [if_pos ha, ha]
    split
    · next hk => exact ⟨fun _ => by rw [hk], fun _ => (hl a).mpr (.inl rfl)⟩
    · next hk =>
      exact ⟨fun hmem => absurd hmem (h.not_mem_of_fresh hnew),
        fun heq => absurd (Option.some.inj heq).symm hk⟩
  · rw [if_neg ha, ← h.mem_iff]
    split
    · next hk => rw [hl, or_iff_right ha, hk]
    · rfl

/-- A key that is taken out of its list has no value. -/
theorem withdraw (hkey : key a = some k) (hget : t.get k = some l) :
    Lists (Index.withdraw t k l a) (update key a none) := by
  intro k' a'
  rw [listed_withdraw (h.mem_of_key hkey hget), update_apply]
  by_cases ha : a' = a
  · rw [if_pos ha, ha]
    refine ⟨fun hmem => absurd hmem ?_, nofun⟩
    split
    · simp
    · next hk =>
      rw [h.mem_iff, hkey]
      exact fun heq => hk (Option.some.inj heq).symm
  · rw [if_neg ha, ← h.mem_iff]
    split
    · next hk =>
      rw [hk, listed_of_get hget]
      simp [ha]
    · rfl

end Lists

/-- The table lists every key exactly once, under its value, and has no empty list. -/
structure Indexes (t : Table K (List A)) (key : A → Option K) : Prop where
  lists : Lists t key
  nodup : ∀ k, (listed t k).Nodup
  ne_nil : ∀ {k l}, t.get k = some l → l ≠ []

namespace Indexes

theorem empty : Indexes (∅ : Table K (List A)) fun _ => none where
  lists := by
    intro k a
    rw [listed, get_empty]
    exact ⟨fun h => absurd h not_mem_nil, fun h => nomatch h⟩
  nodup k := by
    rw [listed, get_empty]
    exact nodup_nil
  ne_nil h := by
    cases h

/-- A list is not longer than the table of the records. -/
theorem length_le [DecidableEq A] {V : Type w} {f : V → K} {records : Table A V}
    (h : Indexes t (keyOf f records)) (k : K) : (listed t k).length ≤ records.size := by
  refine length_le_size (h.nodup k) fun a ha => ?_
  obtain ⟨v, hget, -⟩ := keyOf_eq_some.mp (h.lists.mem_iff.mp ha)
  exact ⟨v, hget⟩

variable (h : Indexes t key)

include h

theorem nodup_of_get (hget : t.get k = some l) : l.Nodup := by
  rw [← listed_of_get hget]
  exact h.nodup k

theorem get_of_key (hkey : key a = some k) : ∃ l, t.get k = some l ∧ a ∈ l :=
  get_of_mem_listed (h.lists.mem_iff.mpr hkey)

/-- The lists of some values are dropped together with their keys. -/
theorem restrict {t' : Table K (List A)} {key' : A → Option K} (p : K → Prop)
    (ht : ∀ k l, t'.get k = some l ↔ t.get k = some l ∧ p k)
    (hkey : ∀ a k, key' a = some k ↔ key a = some k ∧ p k) : Indexes t' key' := by
  have hlist : ∀ k a, a ∈ listed t' k ↔ a ∈ listed t k ∧ p k := by
    intro k a
    constructor
    · intro hmem
      obtain ⟨l, hget, ha⟩ := get_of_mem_listed hmem
      rw [listed_of_get ((ht k l).mp hget).1]
      exact ⟨ha, ((ht k l).mp hget).2⟩
    · rintro ⟨hmem, hp⟩
      obtain ⟨l, hget, ha⟩ := get_of_mem_listed hmem
      rw [listed_of_get ((ht k l).mpr ⟨hget, hp⟩)]
      exact ha
  refine ⟨fun k a => ?_, fun k => ?_, fun {k l} hget => h.ne_nil ((ht k l).mp hget).1⟩
  · rw [hlist, h.lists.mem_iff, hkey]
  · cases hget : t'.get k with
    | none =>
      rw [listed, hget]
      exact nodup_nil
    | some l =>
      rw [listed_of_get hget]
      exact h.nodup_of_get ((ht k l).mp hget).1

variable [DecidableEq A]

theorem put (hnew : key a = none) (hl : ∀ a', a' ∈ l ↔ a' = a ∨ a' ∈ listed t k) (hnd : l.Nodup) :
    Indexes (t.put k l) (update key a (some k)) where
  lists := h.lists.put hnew hl
  nodup k' := by
    rw [listed_put]
    split
    · exact hnd
    · exact h.nodup k'
  ne_nil := forall_get_put h.ne_nil (ne_nil_of_mem ((hl a).mpr (.inl rfl)))

theorem push (hnew : key a = none) : Indexes (Index.push t k a) (update key a (some k)) := by
  refine h.put hnew (fun a' => ?_) ?_
  · rw [mem_append, mem_singleton, or_comm]
  · rw [nodup_append]
    refine ⟨h.nodup k, nodup_singleton a, fun x hx y hy heq => ?_⟩
    rw [heq, mem_singleton.mp hy] at hx
    exact h.lists.not_mem_of_fresh hnew hx

theorem withdraw (hkey : key a = some k) (hget : t.get k = some l) :
    Indexes (Index.withdraw t k l a) (update key a none) where
  lists := h.lists.withdraw hkey hget
  nodup k' := by
    rw [listed_withdraw (h.lists.mem_of_key hkey hget)]
    split
    · exact (h.nodup_of_get hget).filter _
    · exact h.nodup k'
  ne_nil := by
    intro k' l' hget'
    rw [Index.withdraw] at hget'
    split at hget'
    · next hlen =>
      rcases eq_or_of_get_put hget' with ⟨-, rfl⟩ | ⟨-, hold⟩
      · intro hnil
        have hsubset : l ⊆ [a] := by
          intro x hx
          have hx' := filter_eq_nil_iff.mp hnil x hx
          rw [mem_singleton]
          simpa using hx'
        have hle := (subperm_of_subset (h.nodup_of_get hget) hsubset).length_le
        rw [length_singleton] at hle
        omega
      · exact h.ne_nil hold
    · exact h.ne_nil (get_of_get_del hget').2

omit h in
/-- A key that was taken out is listed under another value. -/
theorem relist (h : Indexes t (update key a none)) :
    Indexes (Index.push t k a) (update key a (some k)) := by
  have hpush := h.push (k := k) (update_self _ _ _)
  rwa [update_idem] at hpush

end Indexes

end RsNano
