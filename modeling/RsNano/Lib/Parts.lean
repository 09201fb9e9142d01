import RsNano.Lib.Numbering
import Mathlib.Algebra.BigOperators.Group.Finset.Piecewise

/-!
# Sums that are computed in parts

The records of a table are divided into parts, every part is summed by itself, and the sums are
merged in some order. Merging is exact when all parts are added up. It is not when a merged value
is dropped below a floor: a small part that comes first is lost. `floored_iff` says exactly when
the order does not matter.
-/

namespace RsNano

universe u v

open List

namespace Table

variable {K : Type u} {V : Type v}

/-- The sums of the parts add up to the whole. -/
theorem sum_sumBy_part {ι : Type*} [DecidableEq ι] (t : Table K V) (f : K → V → ℕ) (part : K → ι)
    {order : List ι} (hnd : order.Nodup) (hpart : ∀ k, part k ∈ order) :
    (order.map fun i => t.sumBy fun k v => if part k = i then f k v else 0).sum = t.sumBy f := by
  have hone : ∀ k v, (order.map fun i => if part k = i then f k v else 0).sum = f k v := by
    intro k v
    rw [← sum_toFinset _ hnd, Finset.sum_ite_eq, if_pos (mem_toFinset.mpr (hpart k))]
  have hswap := Multiset.sum_map_sum_map (order : Multiset ι) (Finmap.entries t)
    (f := fun i e => if part e.1 = i then f e.1 e.2 else 0)
  refine hswap.trans (congrArg Multiset.sum (Multiset.map_congr rfl fun e _ => ?_))
  exact hone e.1 e.2

variable [DecidableEq K] (r : K → K → Prop) [DecidableRel r] [IsTrans K r] [Std.Antisymm r]
  [Std.Total r]

theorem isOrder_sortedKeys (t : Table K V) : t.IsOrder (t.sortedKeys r) :=
  .of_nodup ((pairwise_sortedKeys r t).imp fun h => h.2) fun _ => mem_sortedKeys r

/-- A sum along the selected records of a sorted store. -/
theorem sum_filterMap_sortedKeys (t : Table K V) (p : K → Bool) (f : K → V → ℕ) :
    (((((t.sortedKeys r).filter p).filterMap fun k => (t.get k).map fun v => (k, v)).map
      fun x => f x.1 x.2).sum) = t.sumBy fun k v => if p k = true then f k v else 0 := by
  rw [← (t.isOrder_sortedKeys r).sum_eq]
  induction t.sortedKeys r with
  | nil => rfl
  | cons k keys ih =>
    rw [map_cons, sum_cons, ← ih, filter_cons]
    by_cases hk : p k = true
    · rw [if_pos hk, filterMap_cons]
      cases t.get k with
      | none => exact (Nat.zero_add _).symm
      | some v => simp [hk]
    · rw [if_neg hk]
      cases t.get k with
      | none => exact (Nat.zero_add _).symm
      | some v => simp [hk]

end Table

/-! ### Merging above a floor -/

/-- A sum that is kept if it is not zero and not below the floor. -/
def floored (floor n : ℕ) : Option ℕ := if n < floor ∨ n = 0 then none else some n

/-- Add a part to a kept sum, and drop the result below the floor. -/
def mergeFloored (floor : ℕ) (kept : Option ℕ) (part : ℕ) : Option ℕ :=
  if part = 0 then kept else floored floor (kept.getD 0 + part)

variable {floor : ℕ} {parts : List ℕ}

theorem floored_getD_le (floor n : ℕ) : (floored floor n).getD 0 ≤ n := by
  rw [floored]
  split
  · exact Nat.zero_le n
  · exact Nat.le_refl n

theorem floored_of_le {n : ℕ} (hpos : n ≠ 0) (h : floor ≤ n) : floored floor n = some n :=
  if_neg (by omega)

/-- What is kept never exceeds the parts. -/
theorem foldl_mergeFloored_le (floor : ℕ) (parts : List ℕ) (kept : Option ℕ) :
    (parts.foldl (mergeFloored floor) kept).getD 0 ≤ kept.getD 0 + parts.sum := by
  induction parts generalizing kept with
  | nil => exact Nat.le_refl _
  | cons part parts ih =>
    rw [sum_cons]
    refine (ih _).trans ?_
    rw [mergeFloored]
    split
    · omega
    · have := floored_getD_le floor (kept.getD 0 + part)
      omega

/-- Once a sum is kept, every part is added to it. -/
theorem foldl_mergeFloored_some {n : ℕ} (hpos : n ≠ 0) (h : floor ≤ n) :
    parts.foldl (mergeFloored floor) (some n) = some (n + parts.sum) := by
  induction parts generalizing n with
  | nil => rfl
  | cons part parts ih =>
    rw [foldl_cons, sum_cons, ← Nat.add_assoc]
    have hstep : mergeFloored floor (some n) part = some (n + part) := by
      rw [mergeFloored]
      split
      · next hzero => rw [hzero, Nat.add_zero]
      · exact floored_of_le (by omega) (by rw [Option.getD_some]; omega)
    rw [hstep]
    exact ih (by omega) (by omega)

/-- Nothing is lost where every part is zero or reaches the floor. -/
theorem foldl_mergeFloored_none (h : ∀ part ∈ parts, part = 0 ∨ floor ≤ part) :
    parts.foldl (mergeFloored floor) none = floored floor parts.sum := by
  induction parts with
  | nil => exact (if_pos (.inr rfl)).symm
  | cons part parts ih =>
    rw [foldl_cons, sum_cons]
    by_cases hzero : part = 0
    · rw [hzero, Nat.zero_add]
      exact ih fun p hp => h p (mem_cons_of_mem _ hp)
    · have hle := (h part mem_cons_self).resolve_left hzero
      rw [mergeFloored, if_neg hzero, Option.getD_none, Nat.zero_add,
        floored_of_le hzero hle, foldl_mergeFloored_some hzero hle,
        floored_of_le (by omega) (by omega)]

/-- A sum below the floor is never kept. -/
theorem foldl_mergeFloored_of_lt (h : parts.sum < floor) :
    parts.foldl (mergeFloored floor) none = none := by
  induction parts with
  | nil => rfl
  | cons part parts ih =>
    rw [sum_cons] at h
    have hstep : mergeFloored floor none part = none := by
      rw [mergeFloored]
      split
      · rfl
      · exact if_pos (.inl (by rw [Option.getD_none]; omega))
    rw [foldl_cons, hstep]
    exact ih (by omega)

/-- The sum is kept, or not, whatever the order of the items, exactly when no part of a sum that
reaches the floor is below it. -/
theorem floored_iff {ι : Type*} [DecidableEq ι] (floor : ℕ) (items : List ι) (part : ι → ℕ) :
    (∀ order, List.Perm order items →
      (order.map part).foldl (mergeFloored floor) none = floored floor (items.map part).sum) ↔
      (floor ≤ (items.map part).sum → ∀ i ∈ items, part i = 0 ∨ floor ≤ part i) := by
  constructor
  · intro h hfloor i hi
    by_contra hsmall
    rw [not_or] at hsmall
    have hperm := perm_cons_erase hi
    generalize items.erase i = rest at hperm
    -- the small part is merged first, and lost
    have hres := h (i :: rest) hperm.symm
    have hsum : (items.map part).sum = part i + (rest.map part).sum := by
      rw [(hperm.map part).sum_eq, map_cons, sum_cons]
    have hstep : mergeFloored floor none (part i) = none := by
      rw [mergeFloored, if_neg hsmall.1]
      exact if_pos (.inl (by rw [Option.getD_none]; omega))
    rw [map_cons, foldl_cons, hstep, floored_of_le (by omega) hfloor] at hres
    have hle := foldl_mergeFloored_le floor (rest.map part) none
    rw [hres, Option.getD_some, Option.getD_none] at hle
    omega
  · intro h order hperm
    have hsum := (hperm.map part).sum_eq
    rw [← hsum]
    by_cases hfloor : floor ≤ (items.map part).sum
    · refine foldl_mergeFloored_none fun p hp => ?_
      obtain ⟨i, hi, rfl⟩ := mem_map.mp hp
      exact h hfloor i (hperm.mem_iff.mp hi)
    · have hlt : (order.map part).sum < floor := by omega
      rw [foldl_mergeFloored_of_lt hlt]
      exact (if_pos (.inl hlt)).symm

end RsNano
