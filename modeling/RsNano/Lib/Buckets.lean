import Mathlib.Data.List.Sort
import Mathlib.Algebra.BigOperators.Fin

/-!
# Buckets

A fixed number of ordered sets, kept as lists without duplicates. Elements are added to one
bucket and removed from one bucket; what is in the buckets, and how many elements there are
altogether, follows from the calls. The buckets stay sorted.
-/

namespace RsNano.Buckets

open Function

variable {n : ℕ} {X : Type*} [DecidableEq X] {before : X → X → Prop} [DecidableRel before]

/-- Add an element to the bucket with the given index, at its place in the order. -/
def insert (before : X → X → Prop) [DecidableRel before] (b : Fin n → List X) (i : Fin n) (x : X) :
    Fin n → List X :=
  Function.update b i (if x ∈ b i then b i else (b i).orderedInsert before x)

/-- Remove an element from the bucket with the given index. -/
def remove (b : Fin n → List X) (i : Fin n) (x : X) : Fin n → List X :=
  Function.update b i ((b i).erase x)

omit [DecidableEq X] in
/-- The number of elements of all buckets. -/
def total (b : Fin n → List X) : ℕ := ∑ i, (b i).length

variable {b : Fin n → List X} {i : Fin n}

/-- What is in a bucket after an insertion. -/
theorem mem_insert {j : Fin n} {x y : X} :
    y ∈ insert before b i x j ↔ (j = i ∧ y = x) ∨ y ∈ b j := by
  rw [insert]
  by_cases hj : j = i
  · subst hj
    rw [update_self]
    split
    · next hx =>
      constructor
      · exact Or.inr
      · rintro (⟨-, rfl⟩ | hy)
        · exact hx
        · exact hy
    · simp
  · simp [hj]

/-- What is in a bucket after a removal. -/
theorem mem_remove (hnd : ∀ i, (b i).Nodup) {j : Fin n} {x y : X} :
    y ∈ remove b i x j ↔ ¬ (j = i ∧ y = x) ∧ y ∈ b j := by
  rw [remove]
  by_cases hj : j = i
  · subst hj
    rw [update_self, (hnd j).mem_erase_iff]
    simp
  · simp [hj]

/-- Insertions make no duplicates. -/
theorem nodup_insert (hnd : ∀ i, (b i).Nodup) (i : Fin n) (x : X) (j : Fin n) :
    (insert before b i x j).Nodup := by
  refine (forall_update_iff b fun _ l => l.Nodup).mpr ⟨?_, fun j _ => hnd j⟩ j
  split
  · exact hnd i
  · next hx =>
    rw [(List.perm_orderedInsert before x (b i)).nodup_iff]
    exact List.nodup_cons.mpr ⟨hx, hnd i⟩

/-- Removals make no duplicates. -/
theorem nodup_remove (hnd : ∀ i, (b i).Nodup) (i : Fin n) (x : X) (j : Fin n) :
    (remove b i x j).Nodup :=
  (forall_update_iff b fun _ l => l.Nodup).mpr ⟨(hnd i).erase x, fun j _ => hnd j⟩ j

/-- Insertions keep the buckets sorted. -/
theorem pairwise_insert [Std.Total before] [IsTrans X before] (hsort : ∀ i, (b i).Pairwise before)
    (i : Fin n) (x : X) (j : Fin n) : (insert before b i x j).Pairwise before := by
  refine (forall_update_iff b fun _ l => l.Pairwise before).mpr ⟨?_, fun j _ => hsort j⟩ j
  split
  · exact hsort i
  · exact (hsort i).orderedInsert x (b i)

omit [DecidableRel before] in
/-- Removals keep the buckets sorted. -/
theorem pairwise_remove (hsort : ∀ i, (b i).Pairwise before) (i : Fin n) (x : X) (j : Fin n) :
    (remove b i x j).Pairwise before :=
  (forall_update_iff b fun _ l => l.Pairwise before).mpr
    ⟨(hsort i).sublist List.erase_sublist, fun j _ => hsort j⟩ j

omit [DecidableEq X] in
/-- The number of elements after the update of one bucket. -/
theorem total_update (b : Fin n → List X) (i : Fin n) (l : List X) :
    total (update b i l) + (b i).length = total b + l.length := by
  have hupd : (fun j => (update b i l j).length) = update (fun j => (b j).length) i l.length := by
    funext j
    by_cases hj : j = i
    · subst hj
      simp
    · simp [hj]
  have hspl := Finset.sum_update_of_mem (Finset.mem_univ i) (fun j => (b j).length) (b i).length
  rw [update_eq_self] at hspl
  rw [total, hupd, Finset.sum_update_of_mem (Finset.mem_univ i), total]
  omega

/-- A new element counts once. -/
theorem total_insert {x : X} (hnew : x ∉ b i) : total (insert before b i x) = total b + 1 := by
  have h := total_update b i (if x ∈ b i then b i else (b i).orderedInsert before x)
  rw [if_neg hnew, List.orderedInsert_length] at h
  rw [insert, if_neg hnew]
  omega

/-- A removed element counted once. -/
theorem total_remove {x : X} (hmem : x ∈ b i) : total (remove b i x) + 1 = total b := by
  have h := total_update b i ((b i).erase x)
  have hpos := List.length_pos_of_mem hmem
  rw [List.length_erase_of_mem hmem] at h
  rw [remove]
  omega

end RsNano.Buckets
