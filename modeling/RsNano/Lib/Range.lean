import RsNano.Lib.Numbering

/-!
# Range reads of a sorted store

A cursor is positioned at the first key that is not below a start key and reads records in the
order of their keys. What it reads is determined by the records alone: two strictly ascending lists
with the same records are equal.
-/

namespace RsNano

universe u v

open List

variable {K : Type u} {V : Type v} [DecidableEq K] (r : K → K → Prop) [DecidableRel r]
  [IsTrans K r] [Std.Antisymm r] [Std.Total r]

/-- The order of the numbers of keys. -/
abbrev NumberLe (number : K → ℕ) (x y : K) : Prop := number x ≤ number y

instance (number : K → ℕ) : IsTrans K (NumberLe number) := ⟨fun _ _ _ h h' => Nat.le_trans h h'⟩

instance (number : K → ℕ) : Std.Total (NumberLe number) :=
  ⟨fun x y => Nat.le_total (number x) (number y)⟩

namespace Table

/-- The records in the order of their keys, from a key on. -/
def range (t : Table K V) (start : K) : List (K × V) :=
  ((t.sortedKeys r).filter (r start ·)).filterMap fun k => (t.get k).map fun v => (k, v)

variable {t : Table K V} {start next : K} {p : K × V → Bool} {x : K × V} {rest : List (K × V)}

theorem mem_range : x ∈ t.range r start ↔ t.get x.1 = some x.2 ∧ r start x.1 := by
  simp only [range, mem_filterMap, mem_filter, mem_sortedKeys, decide_eq_true_eq,
    Option.map_eq_some_iff]
  constructor
  · rintro ⟨k, ⟨-, hr⟩, v, hget, rfl⟩
    exact ⟨hget, hr⟩
  · rintro ⟨hget, hr⟩
    exact ⟨x.1, ⟨⟨x.2, hget⟩, hr⟩, x.2, hget, rfl⟩

theorem pairwise_range (t : Table K V) (start : K) :
    (t.range r start).Pairwise fun x y => r x.1 y.1 ∧ x.1 ≠ y.1 := by
  refine List.Pairwise.filterMap _ (fun k k' hr x hx y hy => ?_)
    ((pairwise_sortedKeys r t).filter _)
  obtain ⟨v, -, rfl⟩ := Option.map_eq_some_iff.mp hx
  obtain ⟨w, -, rfl⟩ := Option.map_eq_some_iff.mp hy
  exact hr

omit [DecidableEq K] [DecidableRel r] [IsTrans K r] [Std.Total r] in
/-- Strictly ascending lists with the same records are equal. -/
theorem eq_of_mem_iff {l l' : List (K × V)} (h : l.Pairwise fun x y => r x.1 y.1 ∧ x.1 ≠ y.1)
    (h' : l'.Pairwise fun x y => r x.1 y.1 ∧ x.1 ≠ y.1) (hmem : ∀ x, x ∈ l ↔ x ∈ l') : l = l' := by
  have hne : ∀ {x y : K × V}, (r x.1 y.1 ∧ x.1 ≠ y.1) → x ≠ y := fun hr heq => hr.2 (by rw [heq])
  have hperm := (perm_ext_iff_of_nodup (h.imp hne) (h'.imp hne)).mpr hmem
  exact hperm.eq_of_pairwise
    (fun x y _ _ hr hr' => absurd (Std.Antisymm.antisymm _ _ hr.1 hr'.1) hr.2) h h'

/-- Behind the first of the records that pass a test come the others. -/
theorem filter_range_next (h : (t.range r start).filter p = x :: rest)
    (hnext : ∀ k, r next k ↔ r x.1 k ∧ x.1 ≠ k) : (t.range r next).filter p = rest := by
  have hsort := (pairwise_range r t start).filter p
  have hmem : ∀ y, y ∈ x :: rest ↔ (t.get y.1 = some y.2 ∧ r start y.1) ∧ p y = true := by
    intro y
    rw [← h, mem_filter, mem_range]
  rw [h, pairwise_cons] at hsort
  refine eq_of_mem_iff r ((pairwise_range r t next).filter p) hsort.2 fun y => ?_
  rw [mem_filter, mem_range, hnext]
  constructor
  · rintro ⟨⟨hget, hr, hne⟩, hp⟩
    have hbeg : r start y.1 := IsTrans.trans _ _ _ ((hmem x).mp mem_cons_self).1.2 hr
    rcases mem_cons.mp ((hmem y).mpr ⟨⟨hget, hbeg⟩, hp⟩) with rfl | hrest
    · exact absurd rfl hne
    · exact hrest
  · intro hy
    have hpass := (hmem y).mp (mem_cons_of_mem _ hy)
    exact ⟨⟨hpass.1.1, hsort.1 y hy⟩, hpass.2⟩

/-- A cursor that reads on from an earlier key finds what one that is positioned anew finds. -/
theorem dropWhile_range (h : r start next) :
    ((t.range r start).dropWhile fun x => !decide (r next x.1)) = t.range r next := by
  rw [dropWhile_eq_filter (p := fun x => r next x.1) (pairwise_range r t start)
    (fun x y hr hx => decide_eq_true (IsTrans.trans _ _ _ (of_decide_eq_true hx) hr.1))
    fun _ => rfl]
  refine eq_of_mem_iff r ((pairwise_range r t start).filter _) (pairwise_range r t next) fun x => ?_
  rw [mem_filter, mem_range, mem_range, decide_eq_true_iff]
  exact ⟨fun hx => ⟨hx.1.1, hx.2⟩, fun hx => ⟨⟨hx.1, IsTrans.trans _ _ _ h hx.2⟩, hx.2⟩⟩

end Table

end RsNano
