import RsNano.Ledger.Initialize

/-!
# Parallel traversal of a table

Every worker has a range of account numbers. It positions a cursor at the first key that is not
below the start of its range and reads on until a key is not below the end; the last worker reads to
the end of the table. The ranges have no gaps and no overlaps, so every record is visited by one
worker, once.
-/

namespace RsNano

variable {V : Type} {n i : ℕ} {a : Account}

/-- What the range iterator of the store returns. -/
def lmdbRange (t : Table Account V) (s : Split) : List (Account × V) :=
  (((t.sortedKeys U256.byteLe).dropWhile fun account => account.number.toNat < s.start).takeWhile
    fun account => s.isLast ∨ account.number.toNat < s.end).filterMap fun account =>
      (t.get account).map fun v => (account, v)

theorem lmdbRange_eq (t : Table Account V) (s : Split) : lmdbRange t s = iterRange t s := by
  have hsort := Table.pairwise_sortedKeys U256.byteLe t
  have hnot : ∀ a : Account,
      decide (a.number.toNat < s.start) = !decide (s.start ≤ a.number.toNat) := by
    intro a
    rw [Bool.eq_iff_iff, Bool.not_eq_true', decide_eq_true_iff, decide_eq_false_iff_not, Nat.not_le]
  have hbeg := dropWhile_eq_filter hsort
    (fun a b hr ha => decide_eq_true ((of_decide_eq_true ha).trans hr.1)) hnot
  have hend := takeWhile_eq_filter (p := fun account => s.isLast ∨ account.number.toNat < s.end)
    (hsort.filter fun account => s.start ≤ account.number.toNat) fun a b hr hb =>
      decide_eq_true ((of_decide_eq_true hb).imp_right (lt_of_le_of_lt hr.1))
  rw [lmdbRange, hbeg, hend, List.filter_filter]
  congr 1
  refine List.filter_congr fun a _ => ?_
  simp [Split.contains, Bool.and_comm]

/-- The worker that reads an account. -/
def workerOf (threadCount : ℕ) (account : Account) : ℕ :=
  min (account.number.toNat / ((2 ^ 256 - 1) / threadCount)) (threadCount - 1)

theorem workerOf_lt (hn : 0 < n) (a : Account) : workerOf n a < n := by
  rw [workerOf]
  omega

/-- Every account is in the range of one worker. -/
theorem contains_ofIndex_iff (hn : 0 < n) (hle : n < 2 ^ 64) (hi : i < n) :
    (Split.ofIndex n i).contains a = true ↔ workerOf n a = i := by
  have hsize : 0 < (2 ^ 256 - 1) / n := Nat.div_pos (by omega) hn
  rw [Split.contains, Split.ofIndex, workerOf]
  generalize (2 ^ 256 - 1) / n = size at hsize
  generalize a.number.toNat = k
  have hlow : size * i ≤ k ↔ i ≤ k / size := by
    rw [Nat.le_div_iff_mul_le hsize, Nat.mul_comm]
  have hhigh : k < size * (i + 1) ↔ k / size < i + 1 := by
    rw [Nat.div_lt_iff_lt_mul hsize, Nat.mul_comm]
  simp only [decide_eq_true_eq, hlow, hhigh]
  omega

theorem mem_lmdbRange {t : Table Account V} {s : Split} {x : Account × V} :
    x ∈ lmdbRange t s ↔ t.get x.1 = some x.2 ∧ s.contains x.1 = true := by
  rw [lmdbRange_eq, iterRange, List.mem_filterMap]
  constructor
  · rintro ⟨account, hmem, hget⟩
    obtain ⟨v, hv, rfl⟩ := Option.map_eq_some_iff.mp hget
    exact ⟨hv, (List.mem_filter.mp hmem).2⟩
  · rintro ⟨hget, hhas⟩
    refine ⟨x.1, List.mem_filter.mpr ⟨(Table.mem_sortedKeys _).mpr ⟨_, hget⟩, hhas⟩, ?_⟩
    rw [hget, Option.map_some]

theorem nodup_lmdbRange (t : Table Account V) (s : Split) : (lmdbRange t s).Nodup := by
  rw [lmdbRange_eq]
  refine List.Nodup.filterMap (fun a b x ha hb => ?_)
    (List.Nodup.filter _ ((Table.pairwise_sortedKeys U256.byteLe t).imp And.right))
  obtain ⟨v, -, rfl⟩ := Option.map_eq_some_iff.mp ha
  obtain ⟨w, -, heq⟩ := Option.map_eq_some_iff.mp hb
  exact (congrArg Prod.fst heq).symm

/-- Every record is visited by exactly one worker, which visits it once, and nothing else is
visited. The ends of the ranges are account numbers. -/
theorem forEachPar_once (t : Table Account V) (hn : 1 ≤ n) (hle : n < 2 ^ 64) :
    (∀ i < n, (Split.ofIndex n i).end < 2 ^ 256) ∧
      (∀ i < n, (lmdbRange t (.ofIndex n i)).Nodup ∧
        ∀ x ∈ lmdbRange t (.ofIndex n i), t.get x.1 = some x.2) ∧
      ∀ a v, t.get a = some v → ∃! i, i < n ∧ (a, v) ∈ lmdbRange t (.ofIndex n i) := by
  refine ⟨fun i hi => ?_, fun i _ => ⟨nodup_lmdbRange t _, fun x hx => (mem_lmdbRange.mp hx).1⟩,
    fun a v hget => ⟨workerOf n a, ⟨workerOf_lt hn a, ?_⟩, ?_⟩⟩
  · have hmul := Nat.mul_le_mul_left ((2 ^ 256 - 1) / n) (Nat.succ_le_of_lt hi)
    exact lt_of_le_of_lt (hmul.trans (Nat.div_mul_le_self _ _)) (by decide)
  · exact mem_lmdbRange.mpr ⟨hget, (contains_ofIndex_iff hn hle (workerOf_lt hn a)).mpr rfl⟩
  · rintro i ⟨hi, hmem⟩
    exact ((contains_ofIndex_iff hn hle hi).mp (mem_lmdbRange.mp hmem).2).symm

/-- The largest account is visited by one of three workers. -/
theorem forEachPar_once_max : ∃! i, i < 3 ∧
    ((⟨BitVec.allOnes 256⟩ : Account), 7) ∈
      lmdbRange ((∅ : Table Account ℕ).put ⟨BitVec.allOnes 256⟩ 7) (.ofIndex 3 i) :=
  (forEachPar_once _ (by decide) (by decide)).2.2 _ _ (Table.get_put_self _ _ _)

end RsNano
