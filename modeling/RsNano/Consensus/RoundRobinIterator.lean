import RsNano.Lib.RoundRobin
import RsNano.Consensus.ActiveElectionsRun

/-!
# The round robin iteration over the elections

The elections are visited bucket by bucket in turn, from the highest bucket to the lowest. The
iterator goes through the sorted sets and looks up every election by its root. What it yields
follows from the agreement of the buckets with the elections, whatever the vote router knows.
-/

namespace RsNano

namespace RootContainer

open RoundRobin List Entry

/-- The buckets that the iterator goes through, which are those with an election. -/
def bucketIters (rc : RootContainer) : List (List BucketEntry) :=
  ((List.finRange bucketCount).map rc.buckets).reverse.filter fun bucket => !bucket.isEmpty

/-- All entries in the order of the iteration; `none` if it does not end with the given fuel. -/
def iter (rc : RootContainer) (fuel : ℕ) : Option (List Entry) :=
  (start rc.bucketIters).collect (fun item => rc.byRoot.get item.root) fuel fuel

/-- The buckets are sorted sets that describe exactly the contained elections. -/
structure Indexed (rc : RootContainer) : Prop where
  keyed : ∀ {root entry}, rc.byRoot.get root = some entry → entry.root = root
  bucketed : ∀ {x i}, x ∈ rc.buckets i ↔
    ∃ entry, rc.byRoot.get x.root = some entry ∧ entry.priority = x.priority ∧ entry.bucket = i
  nodup : ∀ i, (rc.buckets i).Nodup
  sorted : ∀ i, (rc.buckets i).Pairwise BucketEntry.before

variable {rootOf : BlockHash → QualifiedRoot} {rc : RootContainer}

/-- The buckets of a coherent container describe its elections. -/
theorem Coherent.indexed (h : rc.Coherent rootOf) : rc.Indexed :=
  ⟨fun hget => (h.keyed hget).1, h.bucketed, h.nodup, h.sorted⟩

/-- Every bucket with an election is visited, the highest first. -/
theorem bucketIters_eq (rc : RootContainer) :
    rc.bucketIters = ((finRange bucketCount).reverse.filter
      fun i => !(rc.buckets i).isEmpty).map rc.buckets := by
  rw [bucketIters, ← map_reverse, filter_map]
  rfl

/-- The items that the iterator goes through are those of all buckets. -/
theorem mem_rounds_bucketIters (rc : RootContainer) {x : BucketEntry} :
    x ∈ rounds rc.bucketIters ↔ ∃ i, x ∈ rc.buckets i := by
  rw [mem_rounds, bucketIters_eq]
  simp only [mem_map, mem_filter, mem_reverse, mem_finRange, true_and]
  constructor
  · rintro ⟨l, ⟨i, -, rfl⟩, hx⟩
    exact ⟨i, hx⟩
  · rintro ⟨i, hx⟩
    refine ⟨rc.buckets i, ⟨i, ?_, rfl⟩, hx⟩
    rw [isEmpty_eq_false_iff_exists_mem.mpr ⟨x, hx⟩]
    rfl

namespace Indexed

/-- An item of a bucket belongs to one entry. -/
theorem get_of_mem (h : rc.Indexed) {x : BucketEntry} {i : Fin bucketCount}
    (hx : x ∈ rc.buckets i) :
    ∃ entry, rc.byRoot.get x.root = some entry ∧ entry.bucketEntry = x ∧ entry.bucket = i := by
  obtain ⟨entry, hget, hprio, hbkt⟩ := h.bucketed.mp hx
  refine ⟨entry, hget, ?_, hbkt⟩
  rw [bucketEntry, h.keyed hget, hprio]

/-- The bucket of an item's election tells the visited buckets apart. -/
theorem separates (h : rc.Indexed) :
    RoundRobin.Separates (fun x => rc.findBucket x.root) rc.bucketIters := by
  rw [bucketIters_eq]
  refine separates_map ((nodup_reverse.mpr (nodup_finRange _)).filter _)
    (Option.some_injective _) ?_
  intro i x hx
  obtain ⟨entry, hget, -, rfl⟩ := h.get_of_mem hx
  rw [findBucket, hget]
  rfl

/-- The items of a bucket come in the order of their time priority. -/
theorem pairwise_time (h : rc.Indexed) :
    (rounds rc.bucketIters).Pairwise fun x y =>
      rc.findBucket x.root = rc.findBucket y.root → x.priority.time.cmp y.priority.time ≠ .lt := by
  refine h.separates.pairwise_rounds fun l hl => ?_
  rw [bucketIters_eq, mem_map] at hl
  obtain ⟨i, -, rfl⟩ := hl
  exact (h.sorted i).imp BucketEntry.before.time

/-- No item comes twice. -/
theorem nodup_rounds (h : rc.Indexed) : (rounds rc.bucketIters).Nodup := by
  refine h.separates.nodup_rounds fun l hl => ?_
  rw [bucketIters_eq, mem_map] at hl
  obtain ⟨i, -, rfl⟩ := hl
  exact h.nodup i

end Indexed

/-! ### From the items to their elections -/

/-- The entries of all items, in the order of the iteration. -/
structure Yields (rc : RootContainer) (entries : List Entry) : Prop where
  items : entries.map bucketEntry = rounds rc.bucketIters
  get : ∀ entry ∈ entries, rc.byRoot.get entry.root = some entry

/-- The iteration ends, and it yields the entries of the items one after the other. -/
theorem Indexed.iter_eq_some (h : rc.Indexed) :
    ∃ entries, rc.Yields entries ∧ ∃ n, ∀ fuel ≥ n, rc.iter fuel = some entries := by
  set items := rounds rc.bucketIters with hitems
  have hget : ∀ x ∈ items, ∃ entry,
      rc.byRoot.get x.root = some entry ∧ entry.bucketEntry = x := by
    intro x hx
    obtain ⟨i, hi⟩ := (mem_rounds_bucketIters rc).mp hx
    obtain ⟨entry, hget, heq, -⟩ := h.get_of_mem hi
    exact ⟨entry, hget, heq⟩
  refine ⟨items.filterMap fun item => rc.byRoot.get item.root, ⟨?_, ?_⟩,
    max (2 * rc.bucketIters.length + 1) (items.length + 1), ?_⟩
  · rw [map_filterMap]
    refine (filterMap_congr fun x hx => ?_).trans filterMap_some
    obtain ⟨entry, hent, heq⟩ := hget x hx
    rw [hent, Option.map_some, heq]
  · intro entry hent
    obtain ⟨x, -, hx⟩ := mem_filterMap.mp hent
    rw [h.keyed hx]
    exact hx
  · intro fuel hfuel
    have hrest : (start rc.bucketIters).rest = items := rest_start _
    rw [← hrest]
    rw [← hrest] at hget hfuel
    refine (ready_start _).collect ?_ ?_ ?_
    · intro x hx
      obtain ⟨entry, hent, -⟩ := hget x hx
      rw [hent]
      rfl
    · exact (Nat.lt_succ_self _).trans_le ((le_max_left _ _).trans hfuel)
    · exact (Nat.lt_succ_self _).trans_le ((le_max_right _ _).trans hfuel)

namespace Yields

variable {entries : List Entry}

theorem findBucket_eq (hy : rc.Yields entries) {entry : Entry} (hent : entry ∈ entries) :
    rc.findBucket entry.bucketEntry.root = some entry.bucket := by
  change (rc.byRoot.get entry.root).map bucket = _
  rw [hy.get entry hent]
  rfl

variable (hy : rc.Yields entries) (h : rc.Indexed)

include hy h

/-- Every contained election is yielded, and no other. -/
theorem get_iff (root : QualifiedRoot) (entry : Entry) :
    rc.get root = some entry ↔ entry ∈ entries ∧ entry.root = root := by
  constructor
  · intro hent
    obtain rfl := h.keyed hent
    have hmem : entry.bucketEntry ∈ entries.map bucketEntry := by
      rw [hy.items, mem_rounds_bucketIters]
      exact ⟨entry.bucket, h.bucketed.mpr ⟨entry, hent, rfl, rfl⟩⟩
    obtain ⟨found, hfound, heq⟩ := mem_map.mp hmem
    have hgot := hy.get found hfound
    rw [show found.root = entry.root from congrArg BucketEntry.root heq] at hgot
    obtain rfl : found = entry := Option.some_inj.mp (hgot.symm.trans hent)
    exact ⟨hfound, rfl⟩
  · rintro ⟨hent, rfl⟩
    exact hy.get entry hent

/-- No election is yielded twice. -/
theorem nodup_root : (entries.map root).Nodup := by
  have hnd := h.nodup_rounds
  rw [← hy.items] at hnd
  refine hnd.of_map.map_on fun a ha b hb hroot => ?_
  have hget := hy.get a ha
  rw [hroot, hy.get b hb] at hget
  exact (Option.some_inj.mp hget).symm

/-- The elections of a bucket are yielded in the order of their time priority. -/
theorem pairwise_time :
    entries.Pairwise fun a b =>
      a.bucket = b.bucket → a.priority.time.cmp b.priority.time ≠ .lt := by
  have htime := h.pairwise_time
  rw [← hy.items, pairwise_map] at htime
  refine htime.imp_of_mem fun ha hb hab hsame => hab ?_
  rw [hy.findBucket_eq ha, hy.findBucket_eq hb, hsame]

/-- Between two neighbours of a bucket no bucket has two elections. -/
theorem nodup_between {before between after : List Entry} {x y : Entry}
    (hents : entries = before ++ x :: (between ++ y :: after)) (hxy : x.bucket = y.bucket)
    (hbtw : ∀ entry ∈ between, entry.bucket ≠ x.bucket) : (between.map bucket).Nodup := by
  have hmem : ∀ entry, entry = x ∨ entry = y ∨ entry ∈ between →
      rc.findBucket entry.bucketEntry.root = some entry.bucket := by
    intro entry hent
    refine hy.findBucket_eq ?_
    rw [hents, mem_append, mem_cons, mem_append, mem_cons]
    tauto
  have hrounds : rounds rc.bucketIters = before.map bucketEntry ++
      x.bucketEntry :: (between.map bucketEntry ++ y.bucketEntry :: after.map bucketEntry) := by
    rw [← hy.items, hents, map_append, map_cons, map_append, map_cons]
  have hkeys : ((between.map bucketEntry).map fun item => rc.findBucket item.root) =
      (between.map bucket).map some := by
    rw [map_map, map_map]
    exact map_congr_left fun entry hent => hmem entry (.inr (.inr hent))
  have hnd := h.separates.nodup_between hrounds
    (by rw [hmem x (.inl rfl), hmem y (.inr (.inl rfl)), hxy])
    (by
      intro item hitem hsame
      obtain ⟨entry, hent, rfl⟩ := mem_map.mp hitem
      rw [hmem entry (.inr (.inr hent)), hmem x (.inl rfl)] at hsame
      exact hbtw entry hent (Option.some_inj.mp hsame))
  rw [hkeys] at hnd
  exact hnd.of_map

end Yields

end RootContainer

/-! ### The containers of a run -/

namespace ActiveElectionsContainer

variable {rootOf : BlockHash → QualifiedRoot} {aec : ActiveElectionsContainer}

/-- Without elections and without items there is nothing to describe. -/
theorem Emptied.indexed (h : aec.Emptied) : aec.roots.Indexed where
  keyed hget := nomatch (h.get _).symm.trans hget
  bucketed := by
    intro x i
    rw [h.buckets i, h.get x.root]
    simp
  nodup i := by
    rw [h.buckets i]
    exact List.nodup_nil
  sorted i := by
    rw [h.buckets i]
    exact List.Pairwise.nil

/-- The buckets describe the elections after every run, also when it stops the container. -/
theorem run_indexed {debugAssertions : Bool} {confirmationCache maxElections baseLatency : ℕ}
    (hrun : Run debugAssertions rootOf (fun _ _ => True)
      (new confirmationCache maxElections baseLatency) aec) : aec.roots.Indexed := by
  rcases run_counted_or_emptied hrun with h | h
  · exact h.coherent.indexed
  · exact h.indexed

end ActiveElectionsContainer

namespace RootContainer

variable {rc : RootContainer}

/-- The iteration over the elections ends and yields every election once. The elections of one
bucket come in descending time priority, and between two neighbours of one bucket there is at most
one election of every other bucket. -/
theorem iter_roundRobin (h : rc.Indexed) :
    ∃ entries, (∃ n, ∀ fuel ≥ n, rc.iter fuel = some entries) ∧
      (∀ root entry, rc.get root = some entry ↔ entry ∈ entries ∧ entry.root = root) ∧
      (entries.map Entry.root).Nodup ∧
      (entries.Pairwise fun a b =>
        a.bucket = b.bucket → a.priority.time.cmp b.priority.time ≠ .lt) ∧
      ∀ before x between y after, entries = before ++ x :: (between ++ y :: after) →
        x.bucket = y.bucket → (∀ entry ∈ between, entry.bucket ≠ x.bucket) →
        ∀ bucket, (between.map Entry.bucket).count bucket ≤ 1 := by
  obtain ⟨entries, hy, hiter⟩ := h.iter_eq_some
  refine ⟨entries, hiter, hy.get_iff h, hy.nodup_root h, hy.pairwise_time h, ?_⟩
  intro before x between y after hentries hxy hbetween
  exact List.nodup_iff_count_le_one.mp (hy.nodup_between h hentries hxy hbetween)

open ActiveElectionsContainer in
/-- An election of the dev network is visited once. -/
theorem iter_devStarted :
    devStarted.len = 1 ∧ devStarted.roots.Indexed ∧
      ∃ entries, (∃ n, ∀ fuel ≥ n, devStarted.roots.iter fuel = some entries) ∧
        (∀ root entry, devStarted.roots.get root = some entry ↔
          entry ∈ entries ∧ entry.root = root) ∧
        (entries.map Entry.root).Nodup := by
  have hindexed : devStarted.roots.Indexed := run_indexed (run_devStarted trivial)
  obtain ⟨entries, hiter, hget, hnodup, -⟩ := iter_roundRobin hindexed
  exact ⟨by decide +kernel, hindexed, entries, hiter, hget, hnodup⟩

end RootContainer

end RsNano
