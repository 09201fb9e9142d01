import RsNano.Ledger.ParallelTraversal

/-!
# Rebuilding the cached weights

The workers divide the accounts among them, so that the counters and the sums of their weights are
those of the whole table. The cached weight of a representative is not always: every merge drops a
weight below the limit, also the first part of a weight that reaches it. The rebuilt cache is right
for every order of the workers exactly when no worker has such a part.
-/

namespace RsNano

open Ledger List Table AccountInfo Nat

/-- The balances that the account records give to a representative. -/
def delegatedSum (accounts : Table Account AccountInfo) (representative : PublicKey) : ℕ :=
  accounts.sumBy fun _ info => (info.share representative).toNat

/-- The balances that one worker finds for a representative. -/
def chunkSum (accounts : Table Account AccountInfo) (threadCount i : ℕ)
    (representative : PublicKey) : ℕ :=
  ((iterRange accounts (.ofIndex threadCount i)).map fun x =>
    (x.2.share representative).toNat).sum

variable {order : List ℕ}

section

variable {n i : ℕ}

/-- What one worker sums up. -/
theorem sum_iterRange_ofIndex {V : Type} (t : Table Account V) (f : Account → V → ℕ) (hn : 0 < n)
    (hle : n < 2 ^ 64) (hi : i < n) :
    ((iterRange t (.ofIndex n i)).map fun x => f x.1 x.2).sum =
      t.sumBy fun k v => if workerOf n k = i then f k v else 0 := by
  rw [iterRange, sum_filterMap_sortedKeys]
  refine sumBy_congr fun k v _ => ?_
  simp only [contains_ofIndex_iff hn hle hi]

/-- What is summed up by the workers is the sum over the table. -/
theorem sum_iterRange {V : Type} (t : Table Account V) (f : Account → V → ℕ) (hn : 0 < n)
    (hle : n < 2 ^ 64) (hord : order.Perm (range n)) :
    (order.map fun i =>
      ((iterRange t (.ofIndex n i)).map fun x => f x.1 x.2).sum).sum = t.sumBy f := by
  have hchunk : ∀ i ∈ order, ((iterRange t (.ofIndex n i)).map fun x => f x.1 x.2).sum =
      t.sumBy fun k v => if workerOf n k = i then f k v else 0 := by
    intro i hi
    exact sum_iterRange_ofIndex t f hn hle (mem_range.mp (hord.mem_iff.mp hi))
  rw [map_congr_left hchunk]
  refine sum_sumBy_part t f (workerOf n) (hord.nodup_iff.mpr nodup_range) fun k => ?_
  exact hord.mem_iff.mpr (mem_range.mpr (workerOf_lt hn k))

end

/-! ### One worker -/

theorem weightRecord_getD (w : Amount) : (weightRecord w).getD 0 = w := by
  rw [weightRecord]
  split
  · next hzero => exact hzero.symm
  · rfl

theorem ofNat_eq_zero_iff {w : ℕ} (h : w < 2 ^ 128) : BitVec.ofNat 128 w = 0 ↔ w = 0 := by
  rw [← BitVec.toNat_inj, BitVec.toNat_ofNat, mod_eq_of_lt h]
  rfl

/-- The cache record of a sum of balances. -/
theorem cachedRecord_ofNat {w : ℕ} (h : w < 2 ^ 128) (minWeight : Amount) :
    cachedRecord minWeight (BitVec.ofNat 128 w) =
      (floored minWeight.toNat w).map (BitVec.ofNat 128) := by
  have hlt : BitVec.ofNat 128 w < minWeight ↔ w < minWeight.toNat := by
    rw [BitVec.lt_def, BitVec.toNat_ofNat, mod_eq_of_lt h]
  rw [cachedRecord, floored, if_congr (or_congr hlt (ofNat_eq_zero_iff h)) rfl rfl]
  split
  · rfl
  · rfl

/-- A worker sums up the balances of every representative. -/
theorem ofChunk_get (chunk : List (Account × AccountInfo)) (r : PublicKey)
    (h : (chunk.map fun x => (x.2.share r).toNat).sum < 2 ^ 128) :
    (ChunkTotals.ofChunk chunk).repWeights.get r =
      weightRecord (BitVec.ofNat 128 (chunk.map fun x => (x.2.share r).toNat).sum) := by
  -- generalised over the totals so far, of which the worker starts with none
  suffices hfold : ∀ (totals : ChunkTotals) (w : ℕ),
      totals.repWeights.get r = weightRecord (BitVec.ofNat 128 w) →
      w + (chunk.map fun x => (x.2.share r).toNat).sum < 2 ^ 128 →
      (chunk.foldl (fun totals x => totals.add x.2) totals).repWeights.get r =
        weightRecord (BitVec.ofNat 128 (w + (chunk.map fun x => (x.2.share r).toNat).sum)) by
    have := hfold ⟨0, 0, ∅⟩ 0 (by rw [get_empty]; rfl) (by rwa [zero_add])
    rwa [zero_add] at this
  clear h
  induction chunk with
  | nil => exact fun totals w hget _ => hget
  | cons x chunk ih =>
    intro totals w hget hlt
    rw [map_cons, sum_cons] at hlt ⊢
    rw [← add_assoc]
    refine ih (totals.add x.2) (w + (x.2.share r).toNat) ?_ (by omega)
    rw [ChunkTotals.add]
    by_cases hzero : x.2.balance = 0
    · have hshare : (x.2.share r).toNat = 0 := by
        rw [share, hzero, ite_self]
        rfl
      rw [if_pos hzero, hshare]
      exact hget
    rw [if_neg hzero]
    by_cases hr : r = x.2.representative
    · have hshare : x.2.share r = x.2.balance := if_pos hr.symm
      have hpos : x.2.balance.toNat ≠ 0 := fun hnat => hzero (BitVec.eq_of_toNat_eq hnat)
      rw [hshare] at hlt ⊢
      rw [← hr, get_put_self, hget, weightRecord_getD, weightRecord, if_neg,
        BitVec.ofNat_add, BitVec.ofNat_toNat, BitVec.setWidth_eq]
      rw [ofNat_eq_zero_iff (by omega)]
      omega
    · have hshare : x.2.share r = 0 := if_neg fun heq => hr heq.symm
      rw [get_put_of_ne _ _ hr, hshare]
      exact hget

section

variable {l : Ledger} {other : Table PublicKey Amount} {order : List PublicKey} {r : PublicKey}

/-- The cache record of a weight to which another is added. -/
def mergedRecord (minWeight : Amount) (cached other : Option Amount) : Option Amount :=
  match other with
  | none => cached
  | some amount => cachedRecord minWeight (cached.getD 0 + amount)

theorem copyFrom_cons (l : Ledger) (other : Table PublicKey Amount) (r' : PublicKey)
    (order : List PublicKey) :
    ∃ l1 : Ledger, l.copyFrom other (r' :: order) = l1.copyFrom other order ∧
      l1.minWeight = l.minWeight ∧
      ∀ r, l1.repWeightCache.get r = if r = r' then
        mergedRecord l.minWeight (l.repWeightCache.get r) (other.get r)
        else l.repWeightCache.get r := by
  rw [copyFrom, foldl_cons]
  refine ⟨_, rfl, ?_, fun r => ?_⟩
  · cases other.get r' with
    | none => rfl
    | some amount => exact putCache_minWeight _ _
  · cases hoth : other.get r' with
    | none =>
      dsimp only
      split
      · next heq => rw [heq, hoth, mergedRecord]
      · rfl
    | some amount =>
      rw [putCache_get]
      split
      · next heq => rw [heq, hoth, mergedRecord]
      · rfl

/-- The weights are copied to the cache, and to nothing else. -/
theorem copyFrom_frame (l : Ledger) (other : Table PublicKey Amount) (order : List PublicKey) :
    ∃ cache, l.copyFrom other order = { l with repWeightCache := cache } := by
  induction order generalizing l with
  | nil => exact ⟨l.repWeightCache, rfl⟩
  | cons r order ih =>
    rw [copyFrom, foldl_cons]
    cases other.get r with
    | none => exact ih l
    | some amount =>
      dsimp only
      obtain ⟨cache, hcache⟩ :
          ∃ cache, l.putCache r ((l.repWeightCache.get r).getD 0 + amount) =
            { l with repWeightCache := cache } := by
        rw [putCache]
        split
        · exact ⟨_, rfl⟩
        · exact ⟨_, rfl⟩
      rw [hcache]
      exact ih _

theorem copyFrom_minWeight : (l.copyFrom other order).minWeight = l.minWeight := by
  obtain ⟨cache, hcopy⟩ := copyFrom_frame l other order
  rw [hcopy]

theorem copyFrom_get_of_notMem (hr : r ∉ order) :
    (l.copyFrom other order).repWeightCache.get r = l.repWeightCache.get r := by
  induction order generalizing l with
  | nil => rfl
  | cons r' order ih =>
    obtain ⟨l1, hstep, -, hget⟩ := copyFrom_cons l other r' order
    rw [mem_cons, not_or] at hr
    rw [hstep, ih hr.2, hget, if_neg hr.1]

/-- A worker adds every one of its weights to the cache. -/
theorem copyFrom_get (hord : other.IsOrder order) (r : PublicKey) :
    (l.copyFrom other order).repWeightCache.get r =
      mergedRecord l.minWeight (l.repWeightCache.get r) (other.get r) := by
  have hnd := hord.nodup
  by_cases hr : r ∈ order
  · clear hord
    induction order generalizing l with
    | nil => cases hr
    | cons r' order ih =>
      obtain ⟨l1, hstep, hmin, hget⟩ := copyFrom_cons l other r' order
      rw [nodup_cons] at hnd
      by_cases heq : r = r'
      · rw [hstep, copyFrom_get_of_notMem (heq ▸ hnd.1), hget, if_pos heq]
      · rw [hstep, ih hnd.2 ((mem_cons.mp hr).resolve_left heq), hget, if_neg heq, hmin]
  · have hnone : other.get r = none := by
      cases hget : other.get r with
      | none => rfl
      | some amount => exact absurd (hord.mem_iff.mpr ⟨amount, hget⟩) hr
    rw [copyFrom_get_of_notMem hr, hnone, mergedRecord]

end

/-! ### All workers -/

namespace Ledger

variable {l : Ledger} {n : ℕ} {r : PublicKey} {schedule : Schedule}

/-- The cached weight of a representative, as a number. -/
def CachesSum (l : Ledger) (r : PublicKey) (kept : Option ℕ) : Prop :=
  l.repWeightCache.get r = kept.map (BitVec.ofNat 128)

theorem CachesSum.getD {kept : Option ℕ} (h : l.CachesSum r kept) :
    (l.repWeightCache.get r).getD 0 = BitVec.ofNat 128 (kept.getD 0) := by
  rw [h]
  cases kept with
  | none | some w => rfl

/-- Adding the weights of one worker is merging its part. -/
theorem CachesSum.addChunk {kept : Option ℕ} (h : l.CachesSum r kept)
    {chunk : List (Account × AccountInfo)} {order : List PublicKey}
    (hord : (ChunkTotals.ofChunk chunk).repWeights.IsOrder order)
    (hlt : kept.getD 0 + (chunk.map fun x => (x.2.share r).toNat).sum < 2 ^ 128) :
    (l.addChunk (.ofChunk chunk) order).CachesSum r (mergeFloored l.minWeight.toNat kept
      (chunk.map fun x => (x.2.share r).toNat).sum) := by
  have hget := ofChunk_get chunk r (by omega)
  generalize (chunk.map fun x => (x.2.share r).toNat).sum = part at hlt hget
  rw [CachesSum, Ledger.addChunk, copyFrom_get hord, hget, mergeFloored]
  by_cases hpart : part = 0
  · rw [if_pos hpart, weightRecord, if_pos ((ofNat_eq_zero_iff (by omega)).mpr hpart)]
    exact h
  · rw [if_neg hpart, weightRecord, if_neg (mt (ofNat_eq_zero_iff (by omega)).mp hpart),
      mergedRecord, ← cachedRecord_ofNat hlt, BitVec.ofNat_add, ← h.getD]

/-- The workers merge their parts one after the other. -/
theorem CachesSum.foldl_addChunk {weights : ℕ → List PublicKey}
    (hws : ∀ i, (l.chunkTotals n i).repWeights.IsOrder (weights i)) {acc : Ledger}
    {kept : Option ℕ} (hmin : acc.minWeight = l.minWeight) (h : acc.CachesSum r kept)
    (hlt : kept.getD 0 + (order.map fun i => chunkSum l.account n i r).sum < 2 ^ 128) :
    (order.foldl (fun acc i => acc.addChunk (l.chunkTotals n i) (weights i)) acc).CachesSum r
      ((order.map fun i => chunkSum l.account n i r).foldl
        (mergeFloored l.minWeight.toNat) kept) := by
  induction order generalizing acc kept with
  | nil => exact h
  | cons i order ih =>
    rw [map_cons, sum_cons] at hlt
    have hle := foldl_mergeFloored_le l.minWeight.toNat [chunkSum l.account n i r] kept
    rw [foldl_cons, foldl_nil, sum_singleton] at hle
    have hrest : (mergeFloored l.minWeight.toNat kept (chunkSum l.account n i r)).getD 0 +
        (order.map fun i => chunkSum l.account n i r).sum < 2 ^ 128 := by omega
    refine ih (copyFrom_minWeight.trans hmin) ?_ hrest
    rw [← hmin]
    refine h.addChunk (hws i) ?_
    change kept.getD 0 + chunkSum l.account n i r < 2 ^ 128
    omega

theorem foldl_confirmed (f : ℕ → ℕ) (order : List ℕ) :
    order.foldl (fun acc i => { acc with confirmedCount := acc.confirmedCount + f i }) l =
      { l with confirmedCount := l.confirmedCount + (order.map f).sum } := by
  induction order generalizing l with
  | nil => rfl
  | cons i order ih =>
    rw [foldl_cons, ih, map_cons, sum_cons, ← add_assoc]

variable (hn : 0 < n) (hle : n < 2 ^ 64)
include hn hle

theorem sum_chunkSum (accounts : Table Account AccountInfo) (r : PublicKey)
    (hord : order.Perm (range n)) :
    (order.map fun i => chunkSum accounts n i r).sum = delegatedSum accounts r :=
  sum_iterRange accounts (fun _ info => (info.share r).toNat) hn hle hord

theorem chunkSum_eq (accounts : Table Account AccountInfo) (r : PublicKey) {i : ℕ} (hi : i < n) :
    chunkSum accounts n i r =
      accounts.sumBy fun a info => if workerOf n a = i then (info.share r).toNat else 0 :=
  sum_iterRange_ofIndex accounts (fun _ info => (info.share r).toNat) hn hle hi

/-- The rebuilt weight of a representative. -/
theorem generateCache_cachesSum (hcache : l.repWeightCache = ∅)
    (hsum : delegatedSum l.account r < 2 ^ 128) (hsched : schedule.Complete l n) :
    (l.generateCache n schedule).CachesSum r
      ((schedule.accounts.map fun i => chunkSum l.account n i r).foldl
        (mergeFloored l.minWeight.toNat) none) := by
  rw [generateCache, foldl_confirmed]
  refine CachesSum.foldl_addChunk hsched.weights rfl ?_ ?_
  · rw [CachesSum, hcache]
    rfl
  · rw [sum_chunkSum hn hle _ _ hsched.accounts, Option.getD_none, zero_add]
    exact hsum

omit hn hle in
/-- Numbers that fit are told apart by their words. -/
private theorem map_ofNat_inj {x y : Option ℕ} (hx : x.getD 0 < 2 ^ 128) (hy : y.getD 0 < 2 ^ 128)
    (h : x.map (BitVec.ofNat 128) = y.map (BitVec.ofNat 128)) : x = y := by
  cases x with
  | none =>
    cases y with
    | none => rfl
    | some w => cases h
  | some v =>
    cases y with
    | none => cases h
    | some w =>
      have hnat := congrArg BitVec.toNat (Option.some.inj h)
      rw [Option.getD_some] at hx hy
      rw [BitVec.toNat_ofNat, BitVec.toNat_ofNat, mod_eq_of_lt hx, mod_eq_of_lt hy] at hnat
      rw [hnat]

omit hn hle in
theorem ensureGenesis_caches (c : LedgerConstants) (l : Ledger) :
    (l.ensureGenesis c).repWeightCache = l.repWeightCache ∧
      (l.ensureGenesis c).minWeight = l.minWeight := by
  rw [ensureGenesis]
  split
  · exact ⟨rfl, rfl⟩
  · exact ⟨rfl, rfl⟩

/-- The workers add their results in the given order, and iterate their weights in the order of
the keys. -/
def sortedSchedule (l : Ledger) (threadCount : ℕ) (order : List ℕ) : Schedule where
  accounts := order
  weights i := (l.chunkTotals threadCount i).repWeights.sortedKeys U256.byteLe
  heights := List.range threadCount

omit hn hle in
theorem sortedSchedule_complete (l : Ledger) (hord : order.Perm (range n)) :
    (sortedSchedule l n order).Complete l n :=
  ⟨hord, fun _ => isOrder_sortedKeys _ _, .refl _⟩

/-- Where no weight overflows, the cache is rebuilt to the sums of the balances, without those
below the limit, for every schedule of the workers exactly when no worker finds a nonzero part
below the limit of a weight that reaches it. -/
theorem initialize_weights_iff (c : LedgerConstants) (l : Ledger) (hcache : l.repWeightCache = ∅)
    (hsum : ∀ r, delegatedSum (l.ensureGenesis c).account r < 2 ^ 128) :
    (∀ schedule : Schedule, schedule.Complete (l.ensureGenesis c) n → ∀ r,
      (l.initializeLedger c n schedule).repWeightCache.get r =
        if delegatedSum (l.ensureGenesis c).account r < l.minWeight.toNat ∨
          delegatedSum (l.ensureGenesis c).account r = 0 then none
        else some (BitVec.ofNat 128 (delegatedSum (l.ensureGenesis c).account r))) ↔
      ∀ r, l.minWeight.toNat ≤ delegatedSum (l.ensureGenesis c).account r →
        ∀ i < n, chunkSum (l.ensureGenesis c).account n i r = 0 ∨
          l.minWeight.toNat ≤ chunkSum (l.ensureGenesis c).account n i r := by
  obtain ⟨hcache', hmin⟩ := ensureGenesis_caches c l
  rw [hcache] at hcache'
  simp only [initializeLedger, ← hmin]
  clear hcache hmin
  generalize l.ensureGenesis c = tables at hsum hcache'
  have hrebuilt := fun (schedule : Schedule) (h : schedule.Complete tables n) r =>
    generateCache_cachesSum hn hle hcache' (hsum r) h
  have hexpected : ∀ r, (if delegatedSum tables.account r < tables.minWeight.toNat ∨
      delegatedSum tables.account r = 0 then none
      else some (BitVec.ofNat 128 (delegatedSum tables.account r))) =
      (floored tables.minWeight.toNat (delegatedSum tables.account r)).map (BitVec.ofNat 128) := by
    intro r
    rw [floored]
    split
    · rfl
    · rfl
  have htotal := fun r => sum_chunkSum hn hle tables.account r (List.Perm.refl _)
  constructor
  · intro h r
    have hiff := floored_iff tables.minWeight.toNat (List.range n)
      fun i => chunkSum tables.account n i r
    rw [htotal r] at hiff
    intro hfloor i hi
    refine hiff.mp (fun order horder => ?_) hfloor i (List.mem_range.mpr hi)
    have hschedule := sortedSchedule_complete tables horder
    have hr := h _ hschedule r
    rw [hrebuilt _ hschedule r, hexpected r] at hr
    refine map_ofNat_inj ?_ ?_ hr
    · have hkept := foldl_mergeFloored_le tables.minWeight.toNat
        (order.map fun i => chunkSum tables.account n i r) none
      rw [Option.getD_none, zero_add, sum_chunkSum hn hle _ _ horder] at hkept
      exact hkept.trans_lt (hsum r)
    · exact (floored_getD_le _ _).trans_lt (hsum r)
  · intro h schedule hschedule r
    rw [hrebuilt schedule hschedule r, hexpected r, ← htotal r]
    refine congrArg _ ((floored_iff _ _ _).mpr (fun hfloor i hi => ?_) _ hschedule.accounts)
    rw [htotal r] at hfloor
    exact h r hfloor i (List.mem_range.mp hi)

omit hn hle

/-- The accounts with the numbers one and `2 ^ 255` give five and ten raw to the representative
with the number seven. -/
def devTwoHalves (minWeight : Amount) : Ledger :=
  let info : Amount → AccountInfo := fun balance => ⟨⟨1⟩, ⟨7⟩, ⟨1⟩, balance, 0, 1, .epoch0⟩
  { Ledger.empty minWeight with
    account := ((∅ : Table _ _).put ⟨1⟩ (info 5)).put ⟨1#256 <<< 255⟩ (info 10) }

theorem devTwoHalves_sumBy (minWeight : Amount) (f : Account → AccountInfo → ℕ) :
    (devTwoHalves minWeight).account.sumBy f =
      f ⟨1#256 <<< 255⟩ ⟨⟨1⟩, ⟨7⟩, ⟨1⟩, 10, 0, 1, .epoch0⟩ +
        f ⟨1⟩ ⟨⟨1⟩, ⟨7⟩, ⟨1⟩, 5, 0, 1, .epoch0⟩ := by
  rfl

/-- With two workers and a limit of six, the five raw of the first half are lost if they come
first. -/
theorem exists_lost_part :
    delegatedSum (devTwoHalves 6).account ⟨7⟩ = 15 ∧
      (∃ schedule : Schedule,
        schedule.Complete ((devTwoHalves 6).ensureGenesis devConstants) 2 ∧
        ((devTwoHalves 6).initializeLedger devConstants 2 schedule).repWeightCache.get ⟨7⟩ =
          some 10) ∧
      ∃ schedule : Schedule,
        schedule.Complete ((devTwoHalves 6).ensureGenesis devConstants) 2 ∧
        ((devTwoHalves 6).initializeLedger devConstants 2 schedule).repWeightCache.get ⟨7⟩ =
          some 15 := by
  have htables : (devTwoHalves 6).ensureGenesis devConstants = devTwoHalves 6 :=
    if_neg (by decide +kernel)
  have hsum : delegatedSum (devTwoHalves 6).account ⟨7⟩ = 15 := by
    decide +kernel
  have hfirst : chunkSum (devTwoHalves 6).account 2 0 ⟨7⟩ = 5 := by
    rw [chunkSum_eq (by decide) (by decide) _ _ (by decide)]
    decide +kernel
  have hsecond : chunkSum (devTwoHalves 6).account 2 1 ⟨7⟩ = 10 := by
    rw [chunkSum_eq (by decide) (by decide) _ _ (by decide)]
    decide +kernel
  have hrebuilt : ∀ schedule : Schedule, schedule.Complete (devTwoHalves 6) 2 →
      ((devTwoHalves 6).initializeLedger devConstants 2 schedule).repWeightCache.get ⟨7⟩ =
        ((schedule.accounts.map fun i => chunkSum (devTwoHalves 6).account 2 i ⟨7⟩).foldl
          (mergeFloored 6) none).map (BitVec.ofNat 128) := by
    intro schedule hschedule
    rw [initializeLedger, htables]
    exact generateCache_cachesSum (by decide) (by decide) rfl (by rw [hsum]; decide) hschedule
  refine ⟨hsum, ⟨sortedSchedule (devTwoHalves 6) 2 [0, 1], ?_, ?_⟩,
    ⟨sortedSchedule (devTwoHalves 6) 2 [1, 0], ?_, ?_⟩⟩
  · exact sortedSchedule_complete _ (by decide)
  · rw [hrebuilt _ (sortedSchedule_complete _ (by decide)), sortedSchedule]
    rw [List.map_cons, List.map_cons, hfirst, hsecond]
    decide
  · exact sortedSchedule_complete _ (by decide)
  · rw [hrebuilt _ (sortedSchedule_complete _ (by decide)), sortedSchedule]
    rw [List.map_cons, List.map_cons, hfirst, hsecond]
    decide

/-- With a limit of five, nothing is lost. -/
theorem initialize_weights_iff_devTwoHalves :
    delegatedSum (devTwoHalves 5).account ⟨7⟩ = 15 ∧
      ∀ schedule : Schedule,
        schedule.Complete ((devTwoHalves 5).ensureGenesis devConstants) 2 →
          ((devTwoHalves 5).initializeLedger devConstants 2 schedule).repWeightCache.get ⟨7⟩ =
            some 15 := by
  have htables : (devTwoHalves 5).ensureGenesis devConstants = devTwoHalves 5 :=
    if_neg (by decide +kernel)
  have hsum : delegatedSum (devTwoHalves 5).account ⟨7⟩ = 15 := by
    decide +kernel
  refine ⟨hsum, fun schedule hschedule => ?_⟩
  have hweights := (initialize_weights_iff (by decide) (by decide) devConstants
    (devTwoHalves 5) rfl (fun r => by
      rw [htables, delegatedSum, devTwoHalves_sumBy, share, share]
      split
      · decide
      · decide)).mpr (fun r hfloor i hi => by
        rw [htables]
        rw [chunkSum_eq (by decide) (by decide) _ _ hi, devTwoHalves_sumBy]
        simp only [share]
        by_cases hr : (⟨7⟩ : PublicKey) = r
        · split <;> split <;> decide
        · split <;> split <;> decide) schedule hschedule ⟨7⟩
  rw [hweights]
  decide +kernel

end Ledger

end RsNano
