import RsNano.Consensus.VoteCacheRun

/-!
# The ranking of the vote cache

`VoteCache::top` should rank the cached blocks by final tally and then by tally. Its comparison
compares the final tally of one entry with itself, so it ranks by tally only. The blocks with at
least the minimum tally are listed exactly, and they are ranked as they should if more tally never
goes with less final tally.
-/

namespace RsNano

open Index CacheEntryCollection List

/-- What `VoteCache::top` reports of an entry. -/
def CacheEntry.toTop (e : CacheEntry) : TopEntry := ⟨e.hash, e.tally, e.finalTally⟩

namespace VoteCache

variable {c : CacheEntryCollection} {setOrder : Amount → List BlockHash → List BlockHash}
  {minTally : Amount} {hash hash' : BlockHash} {e e' : CacheEntry}

theorem compare_ne_gt {a b : Amount} : compare a b ≠ .gt ↔ a ≤ b := by
  change compareOfLessAndEq a b ≠ .gt ↔ a ≤ b
  rw [compareOfLessAndEq]
  split
  · next hlt => exact iff_of_true nofun (BitVec.le_of_lt hlt)
  · next hlt =>
    split
    · next heq => exact iff_of_true nofun (heq ▸ BitVec.le_refl a)
    · next hne =>
      exact iff_of_false (fun h => h rfl) fun hle => hlt (BitVec.lt_of_le_ne hle hne)

/-- The final tally is compared with itself, so that only the tally counts. -/
theorem compareTop_ne_gt {a b : TopEntry} : compareTop a b ≠ .gt ↔ b.tally ≤ a.tally := by
  have hself : compare b.finalTally b.finalTally = .eq := Std.ReflOrd.compare_self
  rw [compareTop, hself, if_pos rfl, compare_ne_gt]

/-- The entries by descending tally. -/
def entriesByTally (c : CacheEntryCollection)
    (setOrder : Amount → List BlockHash → List BlockHash) : List CacheEntry :=
  (hashesByTally c setOrder).filterMap c.byHash.get

theorem pairwise_entriesByTally {R : CacheEntry → CacheEntry → Prop}
    (h : (hashesByTally c setOrder).Pairwise fun hash hash' => ∀ e e',
      c.byHash.get hash = some e → c.byHash.get hash' = some e' → R e e') :
    (entriesByTally c setOrder).Pairwise R := by
  rw [entriesByTally, pairwise_filterMap]
  exact h.imp fun hrel e he e' he' => hrel e e' he he'

/-- The loop stops at the first entry below the minimum. -/
theorem collectTop_ok {hashes : List BlockHash}
    (hst : ∀ hash ∈ hashes, ∃ e, c.byHash.get hash = some e) (minTally : Amount) :
    collectTop c minTally hashes = .ok
      (((hashes.filterMap c.byHash.get).takeWhile fun e => minTally ≤ e.tally).map
        CacheEntry.toTop) := by
  induction hashes with
  | nil => rfl
  | cons hash hashes ih =>
    obtain ⟨e, hget⟩ := hst hash mem_cons_self
    rw [collectTop, hget, filterMap_cons_some hget, takeWhile_cons]
    dsimp only
    by_cases hlt : e.tally < minTally
    · rw [if_pos hlt, if_neg (by simpa using hlt)]
      rfl
    · rw [if_neg hlt, if_pos (by simpa using hlt), ih fun hash' h =>
        hst hash' (mem_cons_of_mem hash h)]
      rfl

/-- What `VoteCache::top` reports after a cleanup, if one is due. -/
def ranking (c : CacheEntryCollection) (minTally : Amount)
    (setOrder : Amount → List BlockHash → List BlockHash) : List TopEntry :=
  ((entriesByTally c setOrder).filter fun e => minTally ≤ e.tally).map CacheEntry.toTop

/-- The results are ordered by descending final tally, and by descending tally among equal ones. -/
def Ranked (results : List TopEntry) : Prop :=
  results.Pairwise fun a b =>
    b.finalTally < a.finalTally ∨ b.finalTally = a.finalTally ∧ b.tally ≤ a.tally

section

variable (h : c.Coherent) (hperm : ∀ tally l, (setOrder tally l).Perm l)

include h hperm

theorem mem_setOrder {tally : Amount} : hash ∈ setOrder tally (listed c.byTally tally) ↔
      ∃ e, c.byHash.get hash = some e ∧ e.tally = tally := by
  rw [(hperm tally _).mem_iff, h.byTally.lists.mem_iff, keyOf_eq_some]

theorem mem_hashesByTally : hash ∈ hashesByTally c setOrder ↔ ∃ e, c.byHash.get hash = some e := by
  rw [hashesByTally, mem_flatMap]
  constructor
  · rintro ⟨tally, -, hmem⟩
    obtain ⟨e, hget, -⟩ := (mem_setOrder h hperm).mp hmem
    exact ⟨e, hget⟩
  · rintro ⟨e, hget⟩
    obtain ⟨hashes, hhs, -⟩ := h.byTally.get_of_key (keyOf_of_get hget)
    exact ⟨e.tally, (Table.mem_sortedKeys (· ≥ ·)).mpr ⟨hashes, hhs⟩,
      (mem_setOrder h hperm).mpr ⟨e, hget, rfl⟩⟩

/-- A relation holds along the hashes if it holds inside the sets and from higher to lower
tallies. -/
theorem pairwise_hashesByTally {R : BlockHash → BlockHash → Prop}
    (hset : ∀ tally, (setOrder tally (listed c.byTally tally)).Pairwise R)
    (hlower : ∀ {hash hash' e e'}, c.byHash.get hash = some e → c.byHash.get hash' = some e' →
    e'.tally < e.tally → R hash hash') : (hashesByTally c setOrder).Pairwise R := by
  refine pairwise_flatMap.mpr ⟨fun tally _ => hset tally, ?_⟩
  refine (Table.pairwise_sortedKeys (· ≥ ·) c.byTally).imp fun {tally tally'} hlt => ?_
  intro hash hmem hash' hmem'
  obtain ⟨e, hget, rfl⟩ := (mem_setOrder h hperm).mp hmem
  obtain ⟨e', hget', rfl⟩ := (mem_setOrder h hperm).mp hmem'
  exact hlower hget hget' (BitVec.lt_of_le_ne hlt.1 (Ne.symm hlt.2))

theorem nodup_hashesByTally : (hashesByTally c setOrder).Nodup := by
  refine pairwise_hashesByTally h hperm (fun tally => ?_) ?_
  · exact (hperm tally _).nodup_iff.mpr (h.byTally.nodup tally)
  · rintro hash _ e e' hget hget' hlt rfl
    rw [Option.some.inj (hget.symm.trans hget')] at hlt
    exact BitVec.lt_irrefl _ hlt

theorem descending_entriesByTally :
    (entriesByTally c setOrder).Pairwise fun e e' => e'.tally ≤ e.tally := by
  refine pairwise_entriesByTally (pairwise_hashesByTally h hperm (fun tally => ?_) ?_)
  · refine pairwise_of_forall_mem_list fun hash hmem hash' hmem' e e' hget hget' => ?_
    obtain ⟨e1, h1, rfl⟩ := (mem_setOrder h hperm).mp hmem
    obtain ⟨e1', h1', heq⟩ := (mem_setOrder h hperm).mp hmem'
    rw [← Option.some.inj (h1.symm.trans hget), ← Option.some.inj (h1'.symm.trans hget'), heq]
    exact BitVec.le_refl _
  · intro hash hash' e e' hget hget' hlt e1 e1' h1 h1'
    rw [← Option.some.inj (hget.symm.trans h1), ← Option.some.inj (hget'.symm.trans h1')]
    exact BitVec.le_of_lt hlt

theorem mem_entriesByTally :
    e ∈ entriesByTally c setOrder ↔ ∃ hash, c.byHash.get hash = some e := by
  rw [entriesByTally, mem_filterMap]
  constructor
  · rintro ⟨hash, -, hget⟩
    exact ⟨hash, hget⟩
  · rintro ⟨hash, hget⟩
    exact ⟨hash, (mem_hashesByTally h hperm).mpr ⟨e, hget⟩, hget⟩

/-- The entries are listed by descending tally, so that the sorting does not move them. -/
theorem collectTop_hashesByTally (minTally : Amount) :
    collectTop c minTally (hashesByTally c setOrder) = .ok (ranking c minTally setOrder) ∧
      (ranking c minTally setOrder).insertionSort (fun a b => compareTop a b ≠ .gt) =
        ranking c minTally setOrder := by
  have hdesc := descending_entriesByTally h hperm
  constructor
  · rw [collectTop_ok fun hash hmem => (mem_hashesByTally h hperm).mp hmem, ranking,
      ← entriesByTally, takeWhile_eq_filter hdesc]
    intro e e' hle hmin
    rw [decide_eq_true_iff] at hmin ⊢
    exact BitVec.le_trans hmin hle
  · refine List.Pairwise.insertionSort_eq (pairwise_map.mpr ?_)
    exact (hdesc.filter _).imp fun hle => compareTop_ne_gt.mpr hle

theorem mem_ranking {t : TopEntry} :
    t ∈ ranking c minTally setOrder ↔
      ∃ hash e, c.byHash.get hash = some e ∧ minTally ≤ e.tally ∧ e.toTop = t := by
  simp only [ranking, mem_map, mem_filter, mem_entriesByTally h hperm, decide_eq_true_iff]
  constructor
  · rintro ⟨e, ⟨⟨hash, hget⟩, hmin⟩, htop⟩
    exact ⟨hash, e, hget, hmin, htop⟩
  · rintro ⟨hash, e, hget, hmin, htop⟩
    exact ⟨e, ⟨⟨hash, hget⟩, hmin⟩, htop⟩

theorem nodup_ranking : (ranking c minTally setOrder).Nodup := by
  have hhs : (entriesByTally c setOrder).Pairwise fun e e' => e.hash ≠ e'.hash := by
    refine pairwise_entriesByTally ((nodup_hashesByTally h hperm).imp ?_)
    intro hash hash' hne e e' hget hget' heq
    rw [h.hash_eq hget, h.hash_eq hget'] at heq
    exact hne heq
  refine pairwise_map.mpr ((hhs.filter _).imp fun hne heq => hne ?_)
  exact congrArg TopEntry.hash heq

/-- Entries of which more tally never goes with less final tally are ranked. -/
theorem ranked_ranking (hmono : ∀ hash e hash' e', c.byHash.get hash = some e → c.byHash.get hash'
    = some e' → minTally ≤ e.tally → minTally ≤ e'.tally → e'.tally ≤ e.tally → e'.finalTally ≤
    e.finalTally) : Ranked (ranking c minTally setOrder) := by
  refine pairwise_map.mpr (List.Pairwise.imp_of_mem ?_
    ((descending_entriesByTally h hperm).filter _))
  intro e e' hmem hmem' hle
  obtain ⟨hent, hmin⟩ := mem_filter.mp hmem
  obtain ⟨hent', hmin'⟩ := mem_filter.mp hmem'
  obtain ⟨hash, hget⟩ := (mem_entriesByTally h hperm).mp hent
  obtain ⟨hash', hget'⟩ := (mem_entriesByTally h hperm).mp hent'
  have hfin := hmono hash e hash' e' hget hget' (of_decide_eq_true hmin)
    (of_decide_eq_true hmin') hle
  by_cases heq : e'.finalTally = e.finalTally
  · exact .inr ⟨heq, hle⟩
  · exact .inl (BitVec.lt_of_le_ne hfin heq)

/-- An entry with more tally and less final tally than another one is ranked before it. -/
theorem not_ranked_ranking (hget : c.byHash.get hash = some e)
    (hget' : c.byHash.get hash' = some e') (hmin : minTally ≤ e'.tally) (hlt : e'.tally < e.tally)
    (hfin : e.finalTally < e'.finalTally) : ¬ Ranked (ranking c minTally setOrder) := by
  intro hranked
  have hmem : e.toTop ∈ ranking c minTally setOrder :=
    (mem_ranking h hperm).mpr ⟨hash, e, hget, BitVec.le_trans hmin (BitVec.le_of_lt hlt), rfl⟩
  have hmem' : e'.toTop ∈ ranking c minTally setOrder :=
    (mem_ranking h hperm).mpr ⟨hash', e', hget', hmin, rfl⟩
  have hne : e.toTop ≠ e'.toTop := fun heq =>
    BitVec.ne_of_lt hfin (congrArg TopEntry.finalTally heq)
  have hdesc : (ranking c minTally setOrder).Pairwise fun a b => b.tally ≤ a.tally :=
    pairwise_map.mpr ((descending_entriesByTally h hperm).filter _)
  rcases rel_or_rel_of_pairwise (hranked.and hdesc) hmem hmem' hne with hrel | hrel
  · rcases hrel.1 with hbelow | heq
    · exact BitVec.lt_irrefl _ (BitVec.lt_trans hbelow hfin)
    · exact BitVec.ne_of_lt hfin heq.1.symm
  · exact BitVec.lt_irrefl _ (Std.lt_of_le_of_lt hrel.2 hlt)

end

/-- The entry is still there after the cleanup, if one is due. -/
def remains (s : VoteCache) (now : ℕ) (clock : BlockHash → ℕ) (e : CacheEntry) : Bool :=
  !(s.isCleanupDue now && s.isOld clock e)

theorem top_ok {s : VoteCache} (h : s.cache.Coherent) {order : List BlockHash}
    (hord : s.cache.byHash.IsOrder order) (hperm : ∀ tally l, (setOrder tally l).Perm l)
    (minTally : Amount) (now : ℕ) (clock : BlockHash → ℕ) (cleanedAt : ℕ) :
    ∃ s', s.top minTally now order clock cleanedAt setOrder =
        .ok (ranking s'.cache minTally setOrder, s') ∧ s'.cache.Coherent ∧
      ∀ hash e, s'.cache.byHash.get hash = some e ↔
        s.cache.byHash.get hash = some e ∧ s.remains now clock e = true := by
  have hcoll : ∀ s' : VoteCache, s'.cache.Coherent → (do
      let results ← collectTop s'.cache minTally (hashesByTally s'.cache setOrder)
      return (results.insertionSort fun a b => compareTop a b ≠ .gt, s')) =
        (.ok (ranking s'.cache minTally setOrder, s') : Except VoteCachePanic _) := by
    intro s' hs'
    obtain ⟨hcoll, hsort⟩ := collectTop_hashesByTally hs' hperm minTally
    rw [hcoll]
    change Except.ok ((ranking s'.cache minTally setOrder).insertionSort _, s') = _
    rw [hsort]
  by_cases hdue : s.isCleanupDue now = true
  · obtain ⟨cache, hcleanup, hcoh, hents, -⟩ := cleanup_ok h hord clock
    refine ⟨{ s with cache, lastCleanup := cleanedAt }, ?_, hcoh, fun hash e => ?_⟩
    · rw [top, if_pos hdue, hcleanup]
      exact hcoll { s with cache, lastCleanup := cleanedAt } hcoh
    · rw [hents, remains, hdue, Bool.true_and, Bool.not_eq_true']
  · refine ⟨s, ?_, h, fun hash e => ?_⟩
    · rw [top, if_neg hdue]
      exact hcoll s h
    · rw [Bool.not_eq_true] at hdue
      rw [remains, hdue, Bool.false_and, Bool.not_false, and_iff_left rfl]

/-- The results are exactly the entries with at least the minimum tally that remain in the
cache. -/
def ListsExactly (s : VoteCache) (now : ℕ) (clock : BlockHash → ℕ) (minTally : Amount)
    (results : List TopEntry) : Prop :=
  results.Nodup ∧ ∀ t, t ∈ results ↔ ∃ hash e, s.cache.byHash.get hash = some e ∧
    s.remains now clock e = true ∧ minTally ≤ e.tally ∧ e.toTop = t

theorem frontOrder_perm (first : BlockHash) (tally : Amount) (hashes : List BlockHash) :
    (frontOrder first tally hashes).Perm hashes := by
  rw [frontOrder]
  split
  · next hmem => exact (perm_cons_erase hmem).symm
  · rfl

/-- A hash that comes first in its set does not come behind one with at most its tally. -/
theorem pairwise_frontOrder (h : c.Coherent) (hget : c.byHash.get hash = some e)
    (hget' : c.byHash.get hash' = some e') (hle : e'.tally ≤ e.tally) :
    (hashesByTally c (frontOrder hash)).Pairwise fun x y => ¬ (x = hash' ∧ y = hash) := by
  refine pairwise_hashesByTally h (frontOrder_perm hash) (fun tally => ?_) ?_
  · have hnd := h.byTally.nodup tally
    rw [frontOrder]
    split
    · next hmem =>
      have hoth : ∀ y ∈ (listed c.byTally tally).erase hash, y ≠ hash := fun y hy =>
        ((hnd.mem_erase_iff).mp hy).1
      refine pairwise_cons.mpr ⟨fun y hy heq => hoth y hy heq.2, ?_⟩
      exact pairwise_of_forall_mem_list fun x _ y hy heq => hoth y hy heq.2
    · next hmem =>
      refine pairwise_of_forall_mem_list fun x _ y hy heq => hmem ?_
      rw [← heq.2]
      exact hy
  · rintro x y ex ey hx hy hlt ⟨rfl, rfl⟩
    rw [Option.some.inj (hx.symm.trans hget'), Option.some.inj (hy.symm.trans hget)] at hlt
    exact BitVec.lt_irrefl _ (Std.lt_of_lt_of_le hlt hle)

/-- Of two entries in a ranking, the one that comes first in its set and has at least the tally of
the other has at least its final tally. -/
theorem Ranked.finalTally_le (h : c.Coherent)
    (hranked : Ranked (ranking c minTally (frontOrder hash)))
    (hget : c.byHash.get hash = some e) (hget' : c.byHash.get hash' = some e')
    (hmin : minTally ≤ e.tally) (hmin' : minTally ≤ e'.tally) (hle : e'.tally ≤ e.tally) :
    e'.finalTally ≤ e.finalTally := by
  by_cases heq : e = e'
  · rw [heq]
    exact BitVec.le_refl _
  have hmem : ∀ {x ex}, c.byHash.get x = some ex → minTally ≤ ex.tally →
      ex ∈ (entriesByTally c (frontOrder hash)).filter fun e => minTally ≤ e.tally := fun hx hle =>
    mem_filter.mpr ⟨(mem_entriesByTally h (frontOrder_perm hash)).mpr ⟨_, hx⟩, decide_eq_true hle⟩
  have hbef : (entriesByTally c (frontOrder hash)).Pairwise fun x y => ¬ (x = e' ∧ y = e) := by
    refine pairwise_entriesByTally ((pairwise_frontOrder h hget hget' hle).imp ?_)
    rintro x y hnot ex ey hx hy ⟨rfl, rfl⟩
    refine hnot ⟨?_, ?_⟩
    · rw [← h.hash_eq hx, h.hash_eq hget']
    · rw [← h.hash_eq hy, h.hash_eq hget]
  have hboth := (pairwise_map.mp hranked).and (hbef.filter _)
  rcases rel_or_rel_of_pairwise hboth (hmem hget hmin) (hmem hget' hmin') heq with hrel | hrel
  · rcases hrel.1 with hlt | hfin
    · exact BitVec.le_of_lt hlt
    · exact BitVec.le_of_eq hfin.1
  · exact absurd ⟨rfl, rfl⟩ hrel.2

/-- The cached blocks are ranked as they should, whatever the order of the sets is, exactly if more
tally never goes with less final tally. -/
theorem top_ranked_iff (s : VoteCache) (h : s.cache.Coherent) (minTally : Amount) (now : ℕ)
    (order : List BlockHash) (horder : s.cache.byHash.IsOrder order) (clock : BlockHash → ℕ)
    (cleanedAt : ℕ) :
    (∀ setOrder, (∀ tally hashes, (setOrder tally hashes).Perm hashes) → ∃ results s',
      s.top minTally now order clock cleanedAt setOrder = .ok (results, s') ∧
        s.ListsExactly now clock minTally results ∧ Ranked results) ↔
    ∀ hash e hash' e', s.cache.byHash.get hash = some e → s.cache.byHash.get hash' = some e' →
      s.remains now clock e = true → s.remains now clock e' = true → minTally ≤ e.tally →
        minTally ≤ e'.tally → e'.tally ≤ e.tally → e'.finalTally ≤ e.finalTally := by
  constructor
  · intro htop hash e hash' e' hget hget' hremains hremains' hmin hmin' hle
    obtain ⟨results, s1, hs1, -, hranked⟩ := htop (frontOrder hash) (frontOrder_perm hash)
    obtain ⟨s', hs', hcoherent, hentries⟩ :=
      top_ok h horder (frontOrder_perm hash) minTally now clock cleanedAt
    obtain ⟨rfl, -⟩ := Prod.mk.inj (Except.ok.inj (hs1.symm.trans hs'))
    exact hranked.finalTally_le hcoherent ((hentries hash e).mpr ⟨hget, hremains⟩)
      ((hentries hash' e').mpr ⟨hget', hremains'⟩) hmin hmin' hle
  · intro hmono setOrder hperm
    obtain ⟨s', hs', hcoherent, hentries⟩ :=
      top_ok h horder hperm minTally now clock cleanedAt
    refine ⟨_, s', hs', ⟨nodup_ranking hcoherent hperm, fun t => ?_⟩, ?_⟩
    · simp only [mem_ranking hcoherent hperm, hentries, and_assoc]
    · refine ranked_ranking hcoherent hperm ?_
      intro hash e hash' e' hget hget' hmin hmin' hle
      obtain ⟨hstored, hremains⟩ := (hentries hash e).mp hget
      obtain ⟨hstored', hremains'⟩ := (hentries hash' e').mp hget'
      exact hmono hash e hash' e' hstored hstored' hremains hremains' hmin hmin' hle

/-- A vote of a second representative for another block, which is final. -/
def devFinalVote : Vote := ⟨BitVec.allOnes 64, ⟨2⟩, 0, [⟨2⟩]⟩

/-- A cache for two blocks and two voters after some votes. -/
def devCache (votes : List (Vote × Amount)) : Except VoteCachePanic VoteCache :=
  applyAll ⟨2, 2, 100⟩ 0 (votes.map fun v => .insert v.1 v.2 ∅ [] fun _ => 0)

/-- The cache exists, is coherent and passes a test. -/
theorem devCache_ok (votes : List (Vote × Amount)) (test : VoteCache → Bool)
    (hcnt : castCount (votes.map fun v => .insert v.1 v.2 ∅ [] fun _ => 0) ≤ 2 ^ 64)
    (htest : (devCache votes).toOption.any test = true) :
    ∃ s, devCache votes = .ok s ∧ s.cache.Coherent ∧ test s = true := by
  have hfits : ∀ op ∈ votes.map fun v => Operation.insert v.1 v.2 ∅ [] fun _ => 0, op.Fits := by
    intro op hop
    obtain ⟨v, -, rfl⟩ := mem_map.mp hop
    exact (by decide : (∅ : Table BlockHash (Except VoteError Unit)).IsOrder [])
  have hmax : 0 < (⟨2, 2, 100⟩ : VoteCacheConfig).maxVoters := by decide
  obtain ⟨s, hs, hval, -⟩ := applyAll_ok 0 hfits (.inl hmax) hcnt
  change devCache votes = .ok s at hs
  rw [hs] at htest
  exact ⟨s, hs, hval.coherent, htest⟩

theorem top_devVote : ∃ s, devCache [(devVote, 10)] = .ok s ∧ s.cache.Coherent ∧
    s.cache.byHash.IsOrder [⟨1⟩] ∧
    ∀ setOrder, (∀ tally hashes, (setOrder tally hashes).Perm hashes) → ∃ results s',
      s.top 5 0 [⟨1⟩] (fun _ => 0) 0 setOrder = .ok (results, s') ∧
        s.ListsExactly 0 (fun _ => 0) 5 results ∧ Ranked results := by
  obtain ⟨s, hs, hcoherent, htest⟩ :=
    devCache_ok [(devVote, 10)] (fun s => s.cache.byHash.IsOrder [⟨1⟩]) (by decide)
      (by decide +kernel)
  have horder : s.cache.byHash.IsOrder [⟨1⟩] := of_decide_eq_true htest
  refine ⟨s, hs, hcoherent, horder, (top_ranked_iff s hcoherent 5 0 _ horder (fun _ => 0) 0).mpr ?_⟩
  intro hash e hash' e' hget hget' _ _ _ _ _
  obtain rfl : hash = ⟨1⟩ := List.mem_singleton.mp (horder.mem_iff.mpr ⟨e, hget⟩)
  obtain rfl : hash' = ⟨1⟩ := List.mem_singleton.mp (horder.mem_iff.mpr ⟨e', hget'⟩)
  rw [Option.some.inj (hget.symm.trans hget')]
  exact BitVec.le_refl _

/-- A block with a tally of ten without final votes is ranked before one with a final tally of
five. -/
theorem top_devFinalVote_misranked : ∃ s, devCache [(devVote, 10), (devFinalVote, 5)] = .ok s ∧
    s.cache.Coherent ∧ s.cache.byHash.IsOrder [⟨1⟩, ⟨2⟩] ∧
    ∀ setOrder, (∀ tally hashes, (setOrder tally hashes).Perm hashes) → ∃ results s',
      s.top 0 0 [⟨1⟩, ⟨2⟩] (fun _ => 0) 0 setOrder = .ok (results, s') ∧ ¬ Ranked results := by
  obtain ⟨s, hs, hcoherent, htest⟩ := devCache_ok [(devVote, 10), (devFinalVote, 5)] (fun s =>
    s.cache.byHash.IsOrder [⟨1⟩, ⟨2⟩] && !s.isCleanupDue 0 &&
      (s.cache.byHash.get ⟨1⟩).any (fun e => e.tally = 10 ∧ e.finalTally = 0) &&
        (s.cache.byHash.get ⟨2⟩).any (fun e => e.tally = 5 ∧ e.finalTally = 5))
    (by decide) (by decide +kernel)
  simp only [Bool.and_eq_true, Option.any_eq_true, decide_eq_true_eq] at htest
  obtain ⟨⟨⟨horder, hdue⟩, e, hget, htally, hfinal⟩, e', hget', htally', hfinal'⟩ := htest
  refine ⟨s, hs, hcoherent, horder, fun setOrder hperm => ?_⟩
  obtain ⟨s', htop, hcoherent', hentries⟩ :=
    top_ok hcoherent horder hperm 0 0 (fun _ => 0) 0
  have hremains : ∀ e, s.remains 0 (fun _ => 0) e = true := by
    intro e
    rw [Bool.not_eq_true'] at hdue
    rw [remains, hdue]
    rfl
  refine ⟨_, s', htop, not_ranked_ranking hcoherent' hperm
    ((hentries _ e).mpr ⟨hget, hremains e⟩) ((hentries _ e').mpr ⟨hget', hremains e'⟩) ?_ ?_ ?_⟩
  · exact BitVec.le_def.mpr (Nat.zero_le _)
  · rw [htally, htally']
    decide
  · rw [hfinal, hfinal']
    decide

end VoteCache

end RsNano
