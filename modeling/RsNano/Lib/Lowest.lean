import Mathlib.Data.Finset.Max
import Mathlib.Data.Finset.Lattice.Lemmas

/-!
# The lowest elements of a finite set

The elements of a set are compared by a key. An element is among the `n` lowest ones if fewer than
`n` elements have a smaller key. The lowest elements can be kept while the set grows: what has been
dropped once cannot come back.
-/

namespace RsNano

open Finset

variable {A : Type*} {key : A → ℕ} {n : ℕ} {s t : Finset A} {a b : A}

def lowest (key : A → ℕ) (n : ℕ) (s : Finset A) : Finset A :=
  {a ∈ s | (s.filter (key · < key a)).card < n}

theorem mem_lowest : a ∈ lowest key n s ↔ a ∈ s ∧ (s.filter (key · < key a)).card < n := mem_filter

/-- The lowest elements are closed downwards. -/
theorem mem_lowest_of_le (hb : b ∈ lowest key n s) (ha : a ∈ s) (hle : key a ≤ key b) :
    a ∈ lowest key n s := by
  refine mem_lowest.mpr ⟨ha, lt_of_le_of_lt (card_le_card fun x hx => ?_) (mem_lowest.mp hb).2⟩
  simp only [mem_filter] at hx ⊢
  exact ⟨hx.1, hx.2.trans_le hle⟩

theorem lowest_eq_self (hcard : s.card ≤ n) : lowest key n s = s := by
  refine filter_true_of_mem fun a ha => lt_of_lt_of_le (card_lt_card ?_) hcard
  refine filter_ssubset.mpr ⟨a, ha, ?_⟩
  exact lt_irrefl _

variable [DecidableEq A]

/-- Below an element that was dropped there are enough lower ones. -/
theorem le_card_of_not_mem_lowest (hb : b ∈ s) (hdrop : b ∉ lowest key n s) :
    n ≤ ((lowest key n s).filter (key · < key b)).card := by
  -- below the first element that was dropped everything is kept
  obtain ⟨c, hc, hmin⟩ := (s \ lowest key n s).exists_min_image key ⟨b, mem_sdiff.mpr ⟨hb, hdrop⟩⟩
  obtain ⟨hcs, hclow⟩ := mem_sdiff.mp hc
  have hcnt : n ≤ (s.filter (key · < key c)).card :=
    not_lt.mp fun hlt => hclow (mem_lowest.mpr ⟨hcs, hlt⟩)
  refine hcnt.trans (card_le_card fun x hx => ?_)
  obtain ⟨hxs, hxc⟩ := mem_filter.mp hx
  have hcb := hmin b (mem_sdiff.mpr ⟨hb, hdrop⟩)
  refine mem_filter.mpr ⟨?_, hxc.trans_le hcb⟩
  by_contra hx
  exact absurd (hmin x (mem_sdiff.mpr ⟨hxs, hx⟩)) (not_le.mpr hxc)

/-- What has been dropped makes no difference when the set grows. -/
theorem lowest_union (s t : Finset A) :
    lowest key n (lowest key n s ∪ t) = lowest key n (s ∪ t) := by
  have hsub : lowest key n s ∪ t ⊆ s ∪ t := union_subset_union_left (filter_subset _ _)
  ext a
  constructor
  · intro ha
    obtain ⟨hmem, hcnt⟩ := mem_lowest.mp ha
    refine mem_lowest.mpr ⟨hsub hmem, lt_of_le_of_lt (card_le_card fun b hb => ?_) hcnt⟩
    obtain ⟨hbmem, hba⟩ := mem_filter.mp hb
    refine mem_filter.mpr ⟨?_, hba⟩
    rcases mem_union.mp hbmem with hbs | hbt
    · by_contra hdrop
      have hblow : b ∉ lowest key n s := fun h => hdrop (mem_union_left _ h)
      have hle := le_card_of_not_mem_lowest hbs hblow
      refine absurd hcnt (not_lt.mpr (hle.trans (card_le_card fun x hx => ?_)))
      obtain ⟨hx, hxb⟩ := mem_filter.mp hx
      exact mem_filter.mpr ⟨mem_union_left _ hx, hxb.trans hba⟩
    · exact mem_union_right _ hbt
  · intro ha
    obtain ⟨hmem, hcnt⟩ := mem_lowest.mp ha
    refine mem_lowest.mpr ⟨?_, lt_of_le_of_lt (card_le_card (filter_subset_filter _ hsub)) hcnt⟩
    rcases mem_union.mp hmem with has | hat
    · refine mem_union_left _ (mem_lowest.mpr ⟨has, lt_of_le_of_lt ?_ hcnt⟩)
      exact card_le_card (filter_subset_filter _ subset_union_left)
    · exact mem_union_right _ hat

/-- The largest element is dropped when there are too many. -/
theorem lowest_erase (hb : b ∈ s) (hmax : ∀ a ∈ s, key a ≤ key b) (hkey : Function.Injective key)
    (hcard : n < s.card) : lowest key n (s.erase b) = lowest key n s := by
  have hfilter : ∀ a ∈ s, (s.erase b).filter (key · < key a) = s.filter (key · < key a) := by
    intro a ha
    rw [filter_erase, erase_eq_of_notMem]
    exact fun hmem => absurd (mem_filter.mp hmem).2 (not_lt.mpr (hmax a ha))
  have hlast : s.filter (key · < key b) = s.erase b := by
    ext a
    rw [mem_filter, mem_erase]
    refine ⟨fun h => ⟨fun heq => absurd h.2 (heq ▸ lt_irrefl _), h.1⟩, fun h => ⟨h.2, ?_⟩⟩
    exact lt_of_le_of_ne (hmax a h.2) fun heq => h.1 (hkey heq)
  ext a
  rw [mem_lowest, mem_lowest, mem_erase]
  constructor
  · rintro ⟨⟨-, ha⟩, hcnt⟩
    exact ⟨ha, hfilter a ha ▸ hcnt⟩
  · rintro ⟨ha, hcnt⟩
    refine ⟨⟨?_, ha⟩, (hfilter a ha).symm ▸ hcnt⟩
    rintro rfl
    rw [hlast, card_erase_of_mem ha] at hcnt
    omega

end RsNano
