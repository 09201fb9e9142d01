import Mathlib.Data.List.Dedup
import Mathlib.Data.List.DropRight
import Mathlib.Data.List.Perm.Subperm

/-!
# The recent part of a history

A history lists items that have a key, the newest last. Its recent part is the longest suffix with
at most a given number of different keys. It can be computed item by item, from the recent part of
the history so far, and its keys are the most recent ones of the whole history. Its length is not
bounded by the number of keys, because items of one key may follow each other.
-/

namespace RsNano.Recent

open List

variable {A K : Type*} [DecidableEq K] (key : A → K) {n : ℕ} {l l' : List A}

/-- The different keys of a history, in the order of their last items. -/
def keys (l : List A) : List K := (l.map key).dedup

/-- The recent part of a history with at most `n` different keys. -/
def window (n : ℕ) : List A → List A
  | [] => []
  | a :: l => if n < (keys key (a :: l)).length then window n l else a :: l

variable {key}

theorem mem_keys {k : K} : k ∈ keys key l ↔ ∃ a ∈ l, key a = k := by
  rw [keys, mem_dedup, mem_map]

theorem keys_cons (a : A) (l : List A) :
    keys key (a :: l) = if key a ∈ keys key l then keys key l else key a :: keys key l := by
  rw [keys, map_cons, dedup_cons']
  rfl

/-- More items have more keys. -/
theorem length_keys_le (h : l ⊆ l') : (keys key l).length ≤ (keys key l').length := by
  refine (subperm_of_subset (nodup_dedup _) fun k hk => ?_).length_le
  obtain ⟨a, ha, hkey⟩ := mem_keys.mp hk
  exact mem_keys.mpr ⟨a, h ha, hkey⟩

theorem window_cons (a : A) (l : List A) :
    window key n (a :: l) = if n < (keys key (a :: l)).length then window key n l else a :: l :=
  rfl

theorem window_cons_of_lt {a : A} (h : n < (keys key (a :: l)).length) :
    window key n (a :: l) = window key n l := by
  rw [window_cons, if_pos h]

/-- A history with few keys is recent as a whole. -/
theorem window_eq_self (h : (keys key l).length ≤ n) : window key n l = l := by
  cases l with
  | nil => rfl
  | cons a l => rw [window_cons, if_neg (Nat.not_lt.mpr h)]

theorem window_suffix (n : ℕ) (l : List A) : window key n l <:+ l := by
  induction l with
  | nil => exact suffix_rfl
  | cons a l ih =>
    rw [window_cons]
    split
    · exact ih.trans (suffix_cons a l)
    · exact suffix_rfl

theorem length_keys_window (n : ℕ) (l : List A) : (keys key (window key n l)).length ≤ n := by
  induction l with
  | nil => exact Nat.zero_le n
  | cons a l ih =>
    rw [window_cons]
    split
    · exact ih
    · next h => exact Nat.not_lt.mp h

/-- The recent part is the longest suffix with few keys. -/
theorem suffix_window {w : List A} (hsuffix : w <:+ l) (hkeys : (keys key w).length ≤ n) :
    w <:+ window key n l := by
  induction l with
  | nil => exact hsuffix
  | cons a l ih =>
    rw [window_cons]
    split
    · next h =>
      rcases suffix_cons_iff.mp hsuffix with rfl | hsuffix
      · exact absurd hkeys (Nat.not_le.mpr h)
      · exact ih hsuffix
    · exact hsuffix

/-- The recent part of a longer history is found from the recent part of the shorter one. -/
theorem window_append (n : ℕ) (l l' : List A) :
    window key n (window key n l ++ l') = window key n (l ++ l') := by
  induction l with
  | nil => rfl
  | cons a l ih =>
    by_cases h : n < (keys key (a :: l)).length
    · have hmore : n < (keys key (a :: (l ++ l'))).length :=
        Nat.lt_of_lt_of_le h (length_keys_le (subset_append_left (a :: l) l'))
      rw [window_cons_of_lt h, cons_append, window_cons_of_lt hmore, ih]
    · rw [window_eq_self (Nat.not_lt.mp h)]

/-- The keys of the recent part are the most recent keys. -/
theorem keys_window (n : ℕ) (l : List A) : keys key (window key n l) = (keys key l).rtake n := by
  induction l with
  | nil => exact (rtake_nil n).symm
  | cons a l ih =>
    by_cases h : n < (keys key (a :: l)).length
    · rw [window_cons_of_lt h, ih]
      rw [keys_cons] at h ⊢
      split
      · rfl
      · next hnew =>
        rw [if_neg hnew] at h
        rw [rtake, rtake, length_cons, Nat.sub_add_comm (Nat.lt_succ_iff.mp h), drop_succ_cons]
    · have hle := Nat.not_lt.mp h
      rw [window_eq_self hle, rtake, Nat.sub_eq_zero_of_le hle, drop_zero]

end RsNano.Recent
