import RsNano.Lib.Table

/-!
# Tables that are filled in order

A sorted store can be filled by appending: a record is only accepted behind the last key. Records
can also be numbered in the order in which they arrive, with one table from keys to numbers and one
from numbers to values.
-/

namespace RsNano

universe u v

open List Table

variable {K : Type u} {V : Type v} [DecidableEq K]

/-- Two elements of a list stand in the relation in one of the two orders. -/
theorem rel_or_rel_of_pairwise {A : Type*} {R : A → A → Prop} {l : List A} (h : l.Pairwise R)
    {a b : A} (ha : a ∈ l) (hb : b ∈ l) (hne : a ≠ b) : R a b ∨ R b a := by
  have : Std.Symm fun a b => R a b ∨ R b a := ⟨fun _ _ => Or.symm⟩
  exact (h.imp .inl : l.Pairwise fun a b => R a b ∨ R b a).forall ha hb hne

variable {p : K → Bool} {v : V} {k : K}

omit [DecidableEq K] in
/-- The elements that pass a test come first in a sorted list if the test is passed by all elements
before them. -/
theorem takeWhile_eq_filter {R : K → K → Prop} {l : List K} (h : l.Pairwise R)
    (hp : ∀ a b, R a b → p b = true → p a = true) : l.takeWhile p = l.filter p := by
  induction l with
  | nil => rfl
  | cons a l ih =>
    rw [pairwise_cons] at h
    rw [takeWhile_cons, filter_cons, ih h.2]
    split
    · rfl
    · next ha =>
      exact (filter_eq_nil_iff.mpr fun b hb hpass => ha (hp a b (h.1 b hb) hpass)).symm

omit [DecidableEq K] in
/-- The elements that pass a test come last in a sorted list if the test is passed by all elements
behind them. -/
theorem dropWhile_eq_filter {R : K → K → Prop} {l : List K} {q : K → Bool} (h : l.Pairwise R)
    (hp : ∀ a b, R a b → p a = true → p b = true) (hq : ∀ a, q a = !p a) :
    l.dropWhile q = l.filter p := by
  induction l with
  | nil => rfl
  | cons a l ih =>
    rw [pairwise_cons] at h
    rw [dropWhile_cons, hq]
    cases ha : p a with
    | false => simp [ha, ih h.2]
    | true =>
      have hall : l.filter p = l := filter_eq_self.mpr fun b hb => hp a b (h.1 b hb) ha
      simp [ha, hall]

namespace Table

variable (r : K → K → Prop) [DecidableRel r]

/-- Write a record behind all others, if its key comes last. -/
def append (t : Table K V) (k : K) (v : V) : Option (Table K V) :=
  if ∀ k' ∈ Finmap.keys t, r k' k ∧ k' ≠ k then some (t.put k v) else none

variable {t : Table K V} {k : K}

theorem append_eq_put (v : V) (h : ∀ k' w, t.get k' = some w → r k' k ∧ k' ≠ k) :
    t.append r k v = some (t.put k v) := by
  refine if_pos fun k' hk' => ?_
  obtain ⟨w, hw⟩ := mem_keys_iff.mp hk'
  exact h k' w hw

variable [IsTrans K r] [Std.Antisymm r] [Std.Total r]

theorem mem_sortedKeys : k ∈ t.sortedKeys r ↔ ∃ v, t.get k = some v := by
  rw [sortedKeys, Multiset.mem_sort, ← mem_keys_iff]
  rfl

theorem sortedKeys_empty : (∅ : Table K V).sortedKeys r = [] := by
  refine eq_nil_iff_forall_not_mem.mpr fun k hk => ?_
  obtain ⟨v, hv⟩ := (mem_sortedKeys r).mp hk
  cases hv

omit [DecidableEq K] in
theorem length_sortedKeys (t : Table K V) : (t.sortedKeys r).length = t.size := by
  rw [sortedKeys, Multiset.length_sort]
  exact card_keys t

omit [DecidableEq K] in
/-- The keys of a table are listed in strictly ascending order. -/
theorem pairwise_sortedKeys (t : Table K V) :
    (t.sortedKeys r).Pairwise fun k k' => r k k' ∧ k ≠ k' := by
  have hsort : (t.sortedKeys r).Pairwise r := Multiset.pairwise_sort _ _
  have hnd : (t.sortedKeys r).Nodup := by
    rw [sortedKeys, ← Multiset.coe_nodup, Multiset.sort_eq]
    exact (Finmap.keys t).nodup
  exact hsort.and hnd

/-- The first key is the least one. -/
theorem head_sortedKeys_le {k' : K} (hhead : (t.sortedKeys r).head? = some k)
    (hget : t.get k' = some v) : r k k' := by
  obtain ⟨rest, hrest⟩ := head?_eq_some_iff.mp hhead
  have hmem := (mem_sortedKeys r).mpr ⟨v, hget⟩
  have hsort := pairwise_sortedKeys r t
  rw [hrest] at hmem hsort
  rcases mem_cons.mp hmem with rfl | hrest'
  · exact (Std.Total.total k' k').elim id id
  · exact (rel_of_pairwise_cons hsort hrest').1

/-- A strictly ascending list of exactly the keys is the list of the sorted keys. -/
theorem sortedKeys_eq {keys : List K} (hsort : keys.Pairwise fun k k' => r k k' ∧ k ≠ k')
    (hmem : ∀ k, k ∈ keys ↔ ∃ v, t.get k = some v) : t.sortedKeys r = keys := by
  have hperm : (t.sortedKeys r).Perm keys := by
    refine (perm_ext_iff_of_nodup ?_ (hsort.imp And.right)).mpr fun k => ?_
    · exact (pairwise_sortedKeys r t).imp And.right
    · rw [mem_sortedKeys, hmem]
  refine hperm.eq_of_pairwise (fun k k' _ _ hr hr' => Std.Antisymm.antisymm k k' hr.1 hr'.1)
    (pairwise_sortedKeys r t) hsort

/-- A key behind all others comes last. -/
theorem sortedKeys_put (v : V) (h : ∀ k' w, t.get k' = some w → r k' k ∧ k' ≠ k) :
    (t.put k v).sortedKeys r = t.sortedKeys r ++ [k] := by
  refine sortedKeys_eq r ?_ fun k' => ?_
  · refine pairwise_append.mpr ⟨pairwise_sortedKeys r t, pairwise_singleton _ _, ?_⟩
    intro k' hk' k'' hk''
    obtain ⟨w, hw⟩ := (mem_sortedKeys r).mp hk'
    rw [mem_singleton.mp hk'']
    exact h k' w hw
  · rw [mem_append, mem_sortedKeys, get_put]
    by_cases hk : k' = k
    · simp [hk]
    · simp [hk]

/-- A removed key leaves the others in their order. -/
theorem sortedKeys_del (t : Table K V) (k : K) :
    (t.del k).sortedKeys r = (t.sortedKeys r).filter (· ≠ k) := by
  refine sortedKeys_eq r ((pairwise_sortedKeys r t).filter _) fun k' => ?_
  rw [mem_filter, mem_sortedKeys, get_del]
  by_cases hk : k' = k
  · simp [hk]
  · simp [hk]

omit [DecidableEq K] in
/-- The keys that pass a test come first if the test is passed by all keys before them. -/
theorem takeWhile_sortedKeys (t : Table K V) (hp : ∀ k k', r k k' → p k' = true → p k = true) :
    (t.sortedKeys r).takeWhile p = (t.sortedKeys r).filter p :=
  takeWhile_eq_filter (pairwise_sortedKeys r t) fun k k' hr => hp k k' hr.1

end Table

/-- A table that holds the given keys with the values of a function. -/
def Listed (keys : List K) (g : K → V) (t : Table K V) : Prop :=
  ∀ k, t.get k = if k ∈ keys then some (g k) else none

namespace Listed

variable {keys : List K} {g : K → V} {t : Table K V}

theorem empty (g : K → V) : Listed [] g ∅ := fun k => by
  rw [get_empty, if_neg not_mem_nil]

theorem put (h : Listed keys g t) (k : K) : Listed (keys ++ [k]) g (t.put k (g k)) := by
  intro k'
  rw [get_put, h k']
  by_cases hk : k' = k
  · rw [if_pos hk, if_pos (mem_append_right _ (mem_singleton.mpr hk)), hk]
  · have hmem : k' ∈ keys ++ [k] ↔ k' ∈ keys := by
      rw [mem_append, mem_singleton, or_iff_left hk]
    rw [if_neg hk, if_congr hmem rfl rfl]

theorem mem_of_get (h : Listed keys g t) (hget : t.get k = some v) : k ∈ keys := by
  rw [h k] at hget
  by_contra hk
  rw [if_neg hk] at hget
  cases hget

end Listed

/-- Keys that are numbered in their order, and the values under their numbers. -/
structure Numbered (keys : List K) (g : K → V) (index : Table K ℕ) (data : Table ℕ V) : Prop where
  index : ∀ k, index.get k = if k ∈ keys then some (keys.idxOf k) else none
  data : ∀ i, data.get i = keys[i]?.map g

namespace Numbered

variable {keys : List K} {g : K → V} {index : Table K ℕ} {data : Table ℕ V}

theorem empty (g : K → V) : Numbered [] g ∅ ∅ := ⟨Listed.empty _, fun i => get_empty i⟩

variable (h : Numbered keys g index data)

include h

/-- The next key gets the next number. -/
theorem put (hk : k ∉ keys) :
    Numbered (keys ++ [k]) g (index.put k keys.length) (data.put keys.length (g k)) := by
  refine ⟨fun k' => ?_, fun i => ?_⟩
  · rw [get_put, h.index k']
    by_cases hk' : k' = k
    · subst hk'
      rw [if_pos rfl, if_pos (mem_append_right _ (mem_singleton.mpr rfl)),
        idxOf_append_of_notMem hk, idxOf_cons_self]
      rfl
    · by_cases hmem : k' ∈ keys
      · rw [if_neg hk', if_pos hmem, if_pos (mem_append_left _ hmem), idxOf_append_of_mem hmem]
      · have hnot : k' ∉ keys ++ [k] := by
          rw [mem_append, mem_singleton]
          exact not_or.mpr ⟨hmem, hk'⟩
        rw [if_neg hk', if_neg hmem, if_neg hnot]
  · rw [get_put, h.data i]
    by_cases hi : i = keys.length
    · rw [if_pos hi, hi, getElem?_append_right (Nat.le_refl _), Nat.sub_self]
      rfl
    · rw [if_neg hi]
      by_cases hlt : i < keys.length
      · rw [getElem?_append_left hlt]
      · have hge : (keys ++ [k]).length ≤ i := by
          rw [length_append, length_singleton]
          omega
        rw [getElem?_eq_none (Nat.le_of_not_lt hlt), getElem?_eq_none hge]

variable {i : ℕ}

theorem mem_of_get (hget : index.get k = some i) : k ∈ keys ∧ i = keys.idxOf k := by
  have hk : k ∈ keys := Listed.mem_of_get h.index hget
  rw [h.index k, if_pos hk] at hget
  exact ⟨hk, (Option.some.inj hget).symm⟩

/-- The value of a key is found under its number. -/
theorem data_idxOf (hk : k ∈ keys) : data.get (keys.idxOf k) = some (g k) := by
  rw [h.data, getElem?_eq_getElem (idxOf_lt_length_of_mem hk), getElem_idxOf]
  rfl

/-- Different keys have different numbers. -/
theorem index_injective {k' : K} (hget : index.get k = some i) (hget' : index.get k' = some i) :
    k = k' := by
  obtain ⟨hk, rfl⟩ := h.mem_of_get hget
  obtain ⟨-, hidx⟩ := h.mem_of_get hget'
  exact (idxOf_inj hk).mp hidx

/-- Every number is the number of a key. -/
theorem exists_index (hnd : keys.Nodup) (hget : data.get i = some v) :
    ∃ k, index.get k = some i := by
  rw [h.data, Option.map_eq_some_iff] at hget
  obtain ⟨k, hk, -⟩ := hget
  obtain ⟨hi, rfl⟩ := List.getElem?_eq_some_iff.mp hk
  refine ⟨keys[i], ?_⟩
  rw [h.index, if_pos (List.getElem_mem hi), List.Nodup.idxOf_getElem hnd i hi]

theorem lt_of_data (hget : data.get i = some v) : i < keys.length := by
  rw [h.data, Option.map_eq_some_iff] at hget
  obtain ⟨k, hk, -⟩ := hget
  exact (List.getElem?_eq_some_iff.mp hk).1

end Numbered

/-- Every key has a number below the next one, and its value stands under its number. -/
structure Joined {W : Type*} (g : V → W) (values : Table K V) (index : Table K ℕ)
    (data : Table ℕ W) (next : ℕ) : Prop where
  keys : ∀ k, (index.get k).isSome = (values.get k).isSome
  value : ∀ {k id v}, index.get k = some id → values.get k = some v → data.get id = some (g v)
  injective : ∀ {k k' id}, index.get k = some id → index.get k' = some id → k = k'
  onto : ∀ {id w}, data.get id = some w → ∃ k, index.get k = some id
  lt : ∀ {k id}, index.get k = some id → id < next

namespace Joined

variable {W : Type*} {g : V → W} {values : Table K V} {index : Table K ℕ} {data : Table ℕ W}
  {next n : ℕ}

theorem empty (g : V → W) (n : ℕ) : Joined g (∅ : Table K V) ∅ ∅ n := by
  constructor <;> simp

variable (h : Joined g values index data next)

include h

/-- A number leads to the value of its key. -/
theorem exists_value {id : ℕ} (hid : index.get k = some id) :
    ∃ v, values.get k = some v ∧ data.get id = some (g v) := by
  obtain ⟨v, hv⟩ := Option.isSome_iff_exists.mp ((h.keys k).symm.trans (by simp [hid]))
  exact ⟨v, hv, h.value hid hv⟩

theorem mono (hlt : ∀ {id w}, data.get id = some w → id < n) : Joined g values index data n where
  keys := h.keys
  value := h.value
  injective := h.injective
  onto := h.onto
  lt hid := by
    obtain ⟨v, -, hv⟩ := h.exists_value hid
    exact hlt hv

/-- A new key gets the next number. -/
theorem put (v : V) (hnew : index.get k = none) :
    Joined g (values.put k v) (index.put k next) (data.put next (g v)) (next + 1) := by
  obtain ⟨hkeys, hvalue, hinjective, honto, hlt⟩ := h
  constructor <;> simp only [get_put] <;> grind

theorem del {id : ℕ} (hid : index.get k = some id) :
    Joined g (values.del k) (index.del k) (data.del id) next := by
  obtain ⟨hkeys, hvalue, hinjective, honto, hlt⟩ := h
  constructor <;> simp only [get_del] <;> grind

end Joined

end RsNano
