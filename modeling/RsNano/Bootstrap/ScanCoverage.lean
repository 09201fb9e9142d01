import RsNano.Bootstrap.FrontierHeadRun
import RsNano.Lib.Index
import RsNano.Lib.Machine

/-!
# Coverage of the frontier scan

The heads divide the accounts from one on, up to the largest account, which no head covers. The
ranges never change. A response goes to the head whose range contains the start of the query, and
moves the next account of this head forward or back to its start.
-/

namespace RsNano

open Table List FrontierHead Index U256 Nat

/-! ### One head -/

namespace FrontierHead

variable {h h' : FrontierHead}

/-- The next account is within the range, and every candidate is behind it. -/
structure InRange (h : FrontierHead) : Prop where
  start_le : h.start.number ≤ h.next.number
  lt_end : h.next.number < h.end.number
  candidate : ∀ a, h.candidates.get a = some () → h.next.number < a.number

/-- The head when it decides whether to move on: its candidates were there before, are behind the
next account, or are the end. -/
theorem exists_gathered (h : FrontierHead) (response : List Frontier) : ∃ candidates,
    (({ h with requestsCompleted := h.requestsCompleted + 1 } : FrontierHead).insertCandidates
      response).trimCandidates.wrapAroundIfNoCandidatesFound =
        { h with requestsCompleted := h.requestsCompleted + 1, candidates } ∧
      ∀ a, candidates.get a = some () →
        h.candidates.get a = some () ∨ h.next.number < a.number ∨ a = h.end := by
  obtain ⟨candidates, heq, hset⟩ := h.exists_trimmed response
  have hmem : ∀ a, candidates.get a = some () →
      h.candidates.get a = some () ∨ h.next.number < a.number := by
    intro a ha
    have hlow : a ∈ h.considered response := hset ▸ mem_keys_iff.mpr ⟨(), ha⟩
    rw [considered_eq, mem_lowest, Finset.mem_union] at hlow
    refine hlow.1.imp (fun hold => ?_) fun hnew => (mem_above.mp hnew).2
    obtain ⟨⟨⟩, hget⟩ := mem_keys_iff.mp hold
    exact hget
  rw [heq, wrapAroundIfNoCandidatesFound]
  split
  · refine ⟨_, rfl, fun a ha => ?_⟩
    rcases eq_or_of_get_put ha with ⟨rfl, -⟩ | ⟨-, hold⟩
    · exact .inr (.inr rfl)
    · exact (hmem a hold).imp_right .inl
  · exact ⟨_, rfl, fun a ha => (hmem a ha).imp_right .inl⟩

/-- The next account moves forward, or back to the start. -/
def Moves (h h' : FrontierHead) : Prop := h.next.number < h'.next.number ∨ h'.next = h.start

theorem advance_spec (hh : h.InRange) (hcands : h.candidates.size ≠ 0) :
    h.advance.InRange ∧ Moves h h.advance := by
  have hbeg : h.start.number < h.end.number := by
    have hle := hh.start_le
    have hlt := hh.lt_end
    bv_omega
  have hemp : ∀ next : Account, h.start.number ≤ next.number → next.number < h.end.number →
      next = h.nextStartAccount → h.advance.InRange := by
    rintro next hle hlt rfl
    exact ⟨hle, hlt, fun a ha => by cases ha⟩
  obtain ⟨last, hmem, hlast, -⟩ := candidateSet_popLast hcands
  obtain ⟨⟨⟩, hget⟩ := mem_keys_iff.mp hmem
  have hbehind := hh.candidate last hget
  by_cases hend : h.end.number ≤ last.number
  · have hnext : h.nextStartAccount = h.start := by
      rw [nextStartAccount, hlast]
      exact if_pos hend
    exact ⟨hemp h.start (BitVec.le_refl _) hbeg hnext.symm, .inr hnext⟩
  · have hnext : h.nextStartAccount = last := by
      rw [nextStartAccount, hlast]
      exact if_neg hend
    have hle := hh.start_le
    refine ⟨hemp last (by bv_omega) (BitVec.not_le.mp hend) hnext.symm, .inl ?_⟩
    change h.next.number < h.nextStartAccount.number
    rw [hnext]
    exact hbehind

/-- A response keeps the range; the next account stays, moves forward or goes back to the start. -/
theorem process_spec (hh : h.InRange) (response : List Frontier) :
    (h.process response).1.InRange ∧ (h.process response).1.start = h.start ∧
      (h.process response).1.end = h.end ∧
      ((h.process response).1.next = h.next ∨ Moves h (h.process response).1) := by
  obtain ⟨candidates, heq, hmem⟩ := exists_gathered h response
  have h1 : InRange { h with requestsCompleted := h.requestsCompleted + 1, candidates } := by
    refine ⟨hh.start_le, hh.lt_end, fun a ha => ?_⟩
    rcases hmem a ha with hold | hbehind | rfl
    · exact hh.candidate a hold
    · exact hbehind
    · exact hh.lt_end
  rw [process, heq]
  split
  · next hadv =>
    obtain ⟨h2, hmoves⟩ := advance_spec h1 (of_decide_eq_true hadv).2
    exact ⟨h2, rfl, rfl, .inr hmoves⟩
  · exact ⟨h1, rfl, rfl, .inl rfl⟩

end FrontierHead

/-! ### The ranges -/

namespace HeadsContainer

/-- The size of all ranges but the first and the last. -/
def rangeSize (p : ℕ) : ℕ := maxNumber / p + 1

def startNumber (p i : ℕ) : ℕ := if i = 0 then 1 else rangeSize p * i

def endNumber (p i : ℕ) : ℕ := if i = p - 1 then maxNumber else rangeSize p * (i + 1)

section

variable {p i j a : ℕ}

theorem lt_rangeSize_mul (hp : 1 ≤ p) : maxNumber < rangeSize p * p := by
  rw [mul_comm]
  exact lt_mul_div_succ maxNumber hp

/-- The last range starts below the largest account. -/
theorem rangeSize_mul_lt (hp : 2 ≤ p) (hlt : p < 2 ^ 64) (hi : i ≤ p - 1) :
    rangeSize p * i < maxNumber := by
  have hsquare : p * p ≤ maxNumber := by
    have hmul : p * p ≤ 2 ^ 64 * 2 ^ 64 := Nat.mul_le_mul hlt.le hlt.le
    rw [maxNumber]
    omega
  have hquotient : p ≤ maxNumber / p := (Nat.le_div_iff_mul_le (by omega)).mpr hsquare
  have hproduct : maxNumber / p * p ≤ maxNumber := Nat.div_mul_le_self _ _
  obtain ⟨n, rfl⟩ : ∃ n, p = n + 1 := ⟨p - 1, by omega⟩
  calc rangeSize (n + 1) * i
      ≤ rangeSize (n + 1) * n := Nat.mul_le_mul_left _ (by omega)
    _ = maxNumber / (n + 1) * n + n := by rw [rangeSize, Nat.add_mul, Nat.one_mul]
    _ < maxNumber := by
      rw [Nat.mul_succ] at hproduct
      omega

theorem one_le_startNumber (p i : ℕ) : 1 ≤ startNumber p i := by
  rw [startNumber]
  split
  · exact le_rfl
  · exact Nat.mul_pos (Nat.succ_pos _) (by omega)

/-- A range ends where the next one starts. -/
theorem endNumber_eq (hi : i + 1 < p) : endNumber p i = startNumber p (i + 1) := by
  rw [endNumber, startNumber, if_neg (by omega), if_neg (by omega)]

theorem startNumber_lt_endNumber (hlt : p < 2 ^ 64) (hi : i < p) :
    startNumber p i < endNumber p i ∧ endNumber p i ≤ maxNumber := by
  have hmax : 1 < maxNumber := by decide
  by_cases hp : p = 1
  · obtain rfl : i = 0 := by omega
    rw [startNumber, endNumber, if_pos rfl, if_pos (by omega)]
    exact ⟨hmax, le_rfl⟩
  · have hbelow := rangeSize_mul_lt (by omega) hlt (show i ≤ p - 1 by omega)
    rw [startNumber, endNumber]
    by_cases hlast : i = p - 1
    · rw [if_pos hlast]
      refine ⟨?_, le_rfl⟩
      split
      · exact hmax
      · exact hbelow
    · rw [if_neg hlast]
      refine ⟨?_, (rangeSize_mul_lt (by omega) hlt (by omega)).le⟩
      have hsize : 1 < rangeSize p := by
        by_contra hle
        have hone : rangeSize p ≤ 1 := by omega
        have hmul := Nat.mul_le_mul_right p hone
        have hcover := lt_rangeSize_mul (show 1 ≤ p by omega)
        have hfar : 2 ^ 64 < maxNumber := by decide
        omega
      split
      · next hzero =>
        rw [hzero, Nat.mul_one]
        exact hsize
      · exact Nat.mul_lt_mul_of_pos_left (Nat.lt_succ_self i) (by omega)

/-- Ranges do not overlap. -/
theorem endNumber_le_startNumber (hij : i < j) (hj : j < p) : endNumber p i ≤ startNumber p j := by
  rw [endNumber, startNumber, if_neg (by omega), if_neg (by omega)]
  exact mul_le_mul_left _ hij

/-- Every number from one on and below the largest account is in a range. -/
theorem exists_range (hp : 1 ≤ p) (hpos : 1 ≤ a) (ha : a < maxNumber) :
    ∃ i < p, startNumber p i ≤ a ∧ a < endNumber p i := by
  have hsize : 0 < rangeSize p := succ_pos _
  have hi : a / rangeSize p < p := by
    rw [div_lt_iff_lt_mul hsize, mul_comm]
    exact ha.trans (lt_rangeSize_mul hp)
  refine ⟨a / rangeSize p, hi, ?_, ?_⟩
  · rw [startNumber]
    split
    · exact hpos
    · exact mul_div_le a (rangeSize p)
  · rw [endNumber]
    split
    · exact ha
    · exact lt_mul_div_succ a hsize

end

/-! ### The container -/

variable {c c' : HeadsContainer} {k : Account} {h h' : FrontierHead}

/-- The starts of the heads that sent their last request at the given time. -/
def waiting (c : HeadsContainer) (t : Timestamp) : List Account := (c.byTimestamp.get t).getD []

/-- Every head is found under its start, and exactly there under its time. -/
structure Indexed (c : HeadsContainer) : Prop where
  start_eq : ∀ {k h}, c.byStart.get k = some h → h.start = k
  mem_waiting : ∀ {t k}, k ∈ c.waiting t ↔ ∃ h, c.byStart.get k = some h ∧ h.lastRequestSent = t

/-- The head contains the account in its range. -/
def Contains (h : FrontierHead) (a : Account) : Prop :=
  h.start.number ≤ a.number ∧ a.number < h.end.number

/-- The heads divide the accounts from one on and below the largest one. -/
structure Divides (t : Table Account FrontierHead) : Prop where
  start_eq : ∀ {k h}, t.get k = some h → h.start = k
  nonempty : ∀ {k h}, t.get k = some h → Contains h k
  covers : ∀ {a : Account}, (∃ k h, t.get k = some h ∧ Contains h a) ↔
    1 ≤ a.number.toNat ∧ a.number.toNat < 2 ^ 256 - 1
  disjoint : ∀ {k k' h h' a}, t.get k = some h → t.get k' = some h' → Contains h a →
    Contains h' a → k = k'
  consecutive : ∀ {k h}, t.get k = some h →
    h.end.number.toNat = 2 ^ 256 - 1 ∨ ∃ h', t.get h.end = some h'

theorem pushBack_eq (hnew : c.byStart.get h.start = none) :
    c.pushBack h = { c with
      byStart := c.byStart.put h.start h
      sequenced := c.sequenced ++ [h.start]
      byTimestamp := c.byTimestamp.put h.lastRequestSent
        (c.waiting h.lastRequestSent ++ [h.start]) } := by
  rw [pushBack, hnew]
  rfl

theorem Indexed.lists (hc : c.Indexed) : Lists c.byTimestamp (keyOf lastRequestSent c.byStart) :=
  fun _ _ => hc.mem_waiting.trans keyOf_eq_some.symm

theorem Indexed.of_lists (hbeg : ∀ {k h}, c.byStart.get k = some h → h.start = k)
    (hlists : Lists c.byTimestamp (keyOf lastRequestSent c.byStart)) :
    c.Indexed :=
  ⟨hbeg, hlists.mem_iff.trans keyOf_eq_some⟩

theorem Indexed.pushBack (hc : c.Indexed) (hnew : c.byStart.get h.start = none) :
    (c.pushBack h).Indexed := by
  rw [pushBack_eq hnew]
  apply Indexed.of_lists
  · exact forall_get_put hc.start_eq rfl
  · rw [keyOf_put]
    refine hc.lists.put ?_ fun k => ?_
    · rw [keyOf, hnew]
      rfl
    · rw [mem_append, mem_singleton, or_comm]
      rfl

/-- A head that is changed is moved to its new time. -/
theorem Indexed.modify (hc : c.Indexed) {f : FrontierHead → FrontierHead}
    (hget : c.byStart.get k = some h) (hbeg : (f h).start = h.start) :
    ∃ c', c.modify k f = .ok c' ∧ c'.byStart = c.byStart.put k (f h) ∧ c'.Indexed := by
  have hkey : ∀ {k' h'}, (c.byStart.put k (f h)).get k' = some h' → h'.start = k' :=
    forall_get_put hc.start_eq (hbeg.trans (hc.start_eq hget))
  by_cases htime : (f h).lastRequestSent = h.lastRequestSent
  · refine ⟨{ c with byStart := c.byStart.put k (f h) }, ?_, rfl, Indexed.of_lists hkey ?_⟩
    · rw [HeadsContainer.modify, hget]
      exact if_pos htime
    · rw [keyOf_put_of_eq hget htime]
      exact hc.lists
  · have htimeOf := keyOf_of_get (f := lastRequestSent) hget
    obtain ⟨accounts, haccs, hmem⟩ := get_of_mem_listed (hc.lists.mem_iff.mpr htimeOf)
    -- the head leaves its old list and joins the new one
    have hrem := hc.lists.withdraw htimeOf haccs
    rw [withdraw_eq hmem] at hrem
    generalize hkept : (if accounts.length = 1 then c.byTimestamp.del h.lastRequestSent
      else c.byTimestamp.put h.lastRequestSent (accounts.filter (· ≠ k))) = removed at hrem
    refine ⟨{ c with
      byStart := c.byStart.put k (f h)
      byTimestamp := removed.put (f h).lastRequestSent
        ((removed.get (f h).lastRequestSent).getD [] ++ [k]) }, ?_, rfl,
      Indexed.of_lists hkey ?_⟩
    · rw [HeadsContainer.modify, hget]
      simp only [if_neg htime, haccs, hkept]
    · rw [keyOf_put]
      have hadded := hrem.put
        (l := (removed.get (f h).lastRequestSent).getD [] ++ [k]) (Function.update_self _ _ _)
        fun k' => by
          rw [mem_append, mem_singleton, or_comm]
          rfl
      rwa [Function.update_idem] at hadded

/-- A head that keeps its range keeps the division. -/
theorem Divides.put {t : Table Account FrontierHead} (ht : Divides t) (hget : t.get k = some h)
    (hbeg : h'.start = h.start) (hend : h'.end = h.end) : Divides (t.put k h') := by
  have hmem : ∀ {a}, Contains h' a ↔ Contains h a := by simp [Contains, hbeg, hend]
  have hold : ∀ {k1 h1}, (t.put k h').get k1 = some h1 →
      ∃ h0, t.get k1 = some h0 ∧ h1.start = h0.start ∧ h1.end = h0.end := by
    intro k1 h1 h1get
    rcases eq_or_of_get_put h1get with ⟨rfl, rfl⟩ | ⟨-, h0get⟩
    · exact ⟨h, hget, hbeg, hend⟩
    · exact ⟨h1, h0get, rfl, rfl⟩
  refine ⟨forall_get_put ht.start_eq (hbeg.trans (ht.start_eq hget)),
    forall_get_put ht.nonempty (hmem.mpr (ht.nonempty hget)), fun {a} => ?_,
    fun h1get h2get h1a h2a => ?_, fun h1get => ?_⟩
  · simp only [exists_get_put, ← ht.covers]
    exact exists_congr fun k1 => by by_cases hk : k1 = k <;> simp [hk, hget, hmem]
  · obtain ⟨h01, h01get, hs1, he1⟩ := hold h1get
    obtain ⟨h02, h02get, hs2, he2⟩ := hold h2get
    rw [Contains, hs1, he1] at h1a
    rw [Contains, hs2, he2] at h2a
    exact ht.disjoint h01get h02get h1a h2a
  · obtain ⟨h0, h0get, -, he⟩ := hold h1get
    rw [he]
    refine (ht.consecutive h0get).imp_right ?_
    rintro ⟨h2, h2get⟩
    by_cases hk : h0.end = k
    · exact ⟨h', hk ▸ get_put_self _ _ _⟩
    · exact ⟨h2, (get_put_of_ne _ _ hk).trans h2get⟩

/-- The last start that is not behind an account is that of the head that contains it. -/
theorem Divides.findFirst (hc : Divides c.byStart) {a : Account} (hget : c.byStart.get k = some h)
    (ha : Contains h a) : c.findFirstLessThanOrEqualTo a = some k := by
  have hkey := hc.start_eq hget
  have hle : byteLe k a := by
    have := ha.1
    rw [hkey] at this
    exact BitVec.le_def.mp this
  have hmem : k ∈ (c.byStart.sortedKeys byteLe).filter (byteLe · a) :=
    mem_filter.mpr ⟨(mem_sortedKeys byteLe).mpr ⟨h, hget⟩, decide_eq_true hle⟩
  have hsort : ((c.byStart.sortedKeys byteLe).filter (byteLe · a)).Pairwise
      byteLe :=
    ((pairwise_sortedKeys byteLe c.byStart).imp And.left).filter _
  have hklast := hsort.rel_getLast hmem
  have hlast := getLast_mem (ne_nil_of_mem hmem)
  rw [findFirstLessThanOrEqualTo, getLast?_eq_some_getLast (ne_nil_of_mem hmem)]
  generalize getLast _ _ = last at hklast hlast
  obtain ⟨hkeys, hlastle⟩ := mem_filter.mp hlast
  obtain ⟨h', hget'⟩ := (mem_sortedKeys byteLe).mp hkeys
  have hin : Contains h last := by
    have hend := BitVec.lt_def.mp ha.2
    have hle' : last.number.toNat ≤ a.number.toNat := of_decide_eq_true hlastle
    refine ⟨?_, BitVec.lt_def.mpr (by omega)⟩
    rw [hkey]
    exact BitVec.le_def.mpr hklast
  rw [hc.disjoint hget hget' hin (hc.nonempty hget')]

/-! ### The heads that are created -/

theorem checked_ok {n : ℕ} (hn : n ≤ maxNumber) : checked n = .ok ⟨BitVec.ofNat 256 n⟩ :=
  if_pos (by rw [maxNumber] at hn; omega)

theorem toNat_ofNat {n : ℕ} (hn : n ≤ maxNumber) : (BitVec.ofNat 256 n).toNat = n := by
  rw [maxNumber] at hn
  exact mod_eq_of_lt (by omega)

/-- The head of the given index. -/
def headAt (config : FrontierScanConfig) (i : ℕ) : FrontierHead :=
  .new ⟨BitVec.ofNat 256 (startNumber config.parallelism i)⟩
    ⟨BitVec.ofNat 256 (endNumber config.parallelism i)⟩ config

variable {config : FrontierScanConfig} {i j : ℕ}

section

variable (hlt : config.parallelism < 2 ^ 64) (hi : i < config.parallelism)

include hlt hi

theorem createHead_ok : createHead config i = .ok (headAt config i) := by
  have hone : (1 : ℕ) ≤ maxNumber := by decide
  rw [createHead, headAt]
  by_cases hp : config.parallelism = 1
  · obtain rfl : i = 0 := by omega
    rw [hp]
    rfl
  · have hmul : ∀ {j}, j ≤ config.parallelism - 1 → rangeSize config.parallelism * j ≤ maxNumber :=
      fun hj => (rangeSize_mul_lt (by omega) hlt hj).le
    have hsize : rangeSize config.parallelism ≤ maxNumber := by
      have := hmul (show 1 ≤ config.parallelism - 1 by omega)
      omega
    have hbeg : (if i = 0 then checked 1
        else .ok ⟨BitVec.ofNat 256 (rangeSize config.parallelism * i)⟩) =
        .ok ⟨BitVec.ofNat 256 (startNumber config.parallelism i)⟩ := by
      rw [startNumber]
      split
      · exact checked_ok hone
      · rfl
    have hend' : (if i = config.parallelism - 1 then checked maxNumber
        else checked (rangeSize config.parallelism * i + rangeSize config.parallelism)) =
        .ok ⟨BitVec.ofNat 256 (endNumber config.parallelism i)⟩ := by
      rw [endNumber]
      split
      · exact checked_ok le_rfl
      · next hne => exact checked_ok (hmul (show i + 1 ≤ config.parallelism - 1 by omega))
    rw [if_neg hp]
    dsimp only
    rw [← rangeSize, checked_ok hsize, checked_ok (hmul (show i ≤ _ by omega)), hend']
    simp only [bind, Except.bind, hbeg]
    rfl

theorem toNat_headAt :
    (headAt config i).start.number.toNat = startNumber config.parallelism i ∧
      (headAt config i).end.number.toNat = endNumber config.parallelism i := by
  obtain ⟨hrng, hend⟩ := startNumber_lt_endNumber hlt hi
  exact ⟨toNat_ofNat (by omega), toNat_ofNat hend⟩

theorem contains_headAt {a : Account} : Contains (headAt config i) a ↔
      startNumber config.parallelism i ≤ a.number.toNat ∧
        a.number.toNat < endNumber config.parallelism i := by
  obtain ⟨hbeg, hend⟩ := toNat_headAt hlt hi
  rw [Contains, BitVec.le_def, BitVec.lt_def, hbeg, hend]

/-- An account is in one range at most. -/
theorem eq_of_contains_headAt (hj : j < config.parallelism) {a : Account}
    (ha : Contains (headAt config i) a) (ha' : Contains (headAt config j) a) : i = j := by
  rw [contains_headAt hlt hi] at ha
  rw [contains_headAt hlt hj] at ha'
  rcases lt_trichotomy i j with hij | hij | hij
  · have := endNumber_le_startNumber hij hj
    omega
  · exact hij
  · have := endNumber_le_startNumber hij hi
    omega

theorem contains_headAt_start : Contains (headAt config i) (headAt config i).start := by
  rw [contains_headAt hlt hi, (toNat_headAt hlt hi).1]
  exact ⟨le_rfl, (startNumber_lt_endNumber hlt hi).1⟩

theorem start_headAt_inj (hj : j < config.parallelism)
    (heq : (headAt config i).start = (headAt config j).start) : i = j := by
  have hbeg := contains_headAt_start hlt hj
  rw [← heq] at hbeg
  exact eq_of_contains_headAt hlt hi hj (contains_headAt_start hlt hi) hbeg

end

/-- The heads of the first indexes are created, each under its start. -/
theorem foldlM_pushBack_ok (hlt : config.parallelism < 2 ^ 64) {n : ℕ}
    (hn : n ≤ config.parallelism) :
    ∃ c, (range n).foldlM (fun c i => do return c.pushBack (← createHead config i))
        (⟨config, [], ∅, ∅⟩ : HeadsContainer) = .ok c ∧ c.Indexed ∧ c.byStart.size = n ∧
      ∀ k h, c.byStart.get k = some h ↔
        ∃ i < n, k = (headAt config i).start ∧ h = headAt config i := by
  induction n with
  | zero => exact ⟨⟨config, [], ∅, ∅⟩, rfl, ⟨nofun, by simp [waiting]⟩, rfl, by simp⟩
  | succ n ih =>
    obtain ⟨c, hfold, hidx, hsize, hget⟩ := ih (by omega)
    have hnew : c.byStart.get (headAt config n).start = none := by
      cases hold : c.byStart.get (headAt config n).start with
      | none => rfl
      | some h =>
        obtain ⟨i, hi, heq, -⟩ := (hget _ _).mp hold
        have := start_headAt_inj hlt (by omega) (by omega) heq
        omega
    refine ⟨c.pushBack (headAt config n), ?_, hidx.pushBack hnew, ?_, ?_⟩
    · rw [range_succ, foldlM_append, hfold]
      simp only [foldlM_cons, foldlM_nil, createHead_ok hlt (show n < _ by omega)]
      rfl
    · rw [pushBack_eq hnew]
      exact (size_put_of_none _ hnew).trans (congrArg (· + 1) hsize)
    · intro k h
      rw [pushBack_eq hnew]
      grind [get_put]

/-- The created heads divide the accounts. -/
theorem divides_of_heads (hp : 1 ≤ config.parallelism) (hlt : config.parallelism < 2 ^ 64)
    (hget : ∀ k h, c.byStart.get k = some h ↔
      ∃ i < config.parallelism, k = (headAt config i).start ∧ h = headAt config i) :
    Divides c.byStart := by
  refine ⟨?_, ?_, ?_, ?_, ?_⟩
  · intro k h hk
    obtain ⟨i, -, rfl, rfl⟩ := (hget k h).mp hk
    rfl
  · intro k h hk
    obtain ⟨i, hi, rfl, rfl⟩ := (hget k h).mp hk
    exact contains_headAt_start hlt hi
  · intro a
    constructor
    · rintro ⟨k, h, hk, ha⟩
      obtain ⟨i, hi, rfl, rfl⟩ := (hget k h).mp hk
      obtain ⟨hle, hbelow⟩ := (contains_headAt hlt hi).mp ha
      have hpos := one_le_startNumber config.parallelism i
      have hend := (startNumber_lt_endNumber hlt hi).2
      rw [maxNumber] at hend
      omega
    · rintro ⟨hpos, hbelow⟩
      obtain ⟨i, hi, hrng⟩ := exists_range hp hpos (show _ < maxNumber from hbelow)
      exact ⟨_, headAt config i, (hget _ _).mpr ⟨i, hi, rfl, rfl⟩,
        (contains_headAt hlt hi).mpr hrng⟩
  · intro k k' h h' a hk hk' ha ha'
    obtain ⟨i, hi, rfl, rfl⟩ := (hget k h).mp hk
    obtain ⟨j, hj, rfl, rfl⟩ := (hget k' h').mp hk'
    rw [eq_of_contains_headAt hlt hi hj ha ha']
  · intro k h hk
    obtain ⟨i, hi, rfl, rfl⟩ := (hget k h).mp hk
    by_cases hlast : i = config.parallelism - 1
    · left
      rw [(toNat_headAt hlt hi).2, endNumber, if_pos hlast]
      rfl
    · right
      refine ⟨headAt config (i + 1), (hget _ _).mpr ⟨i + 1, by omega, ?_, rfl⟩⟩
      rw [headAt, headAt, new, new, endNumber_eq (by omega)]

end HeadsContainer

/-! ### Runs -/

namespace FrontierScan

open HeadsContainer

variable {s s' : FrontierScan}

/-- The heads are indexed, divide the accounts and are within their ranges. -/
structure Scanning (s : FrontierScan) : Prop where
  indexed : s.heads.Indexed
  divides : Divides s.heads.byStart
  inRange : ∀ {k h}, s.heads.byStart.get k = some h → h.InRange

/-- At most one head changes: it keeps its range, and its next account stays or moves. -/
structure Updates (s s' : FrontierScan) (k : Account) (h h' : FrontierHead) : Prop where
  get : s.heads.byStart.get k = some h
  put : s'.heads.byStart = s.heads.byStart.put k h'
  start : h'.start = h.start
  «end» : h'.end = h.end
  inRange : h'.InRange
  next : h'.next = h.next ∨ FrontierHead.Moves h h'

theorem Scanning.updates (hs : s.Scanning) {k : Account} {h h' : FrontierHead}
    (hupd : Updates s s' k h h') (hidx : s'.heads.Indexed) : s'.Scanning := by
  refine ⟨hidx, ?_, ?_⟩
  · rw [hupd.put]
    exact hs.divides.put hupd.get hupd.start hupd.end
  · rw [hupd.put]
    exact forall_get_put hs.inRange hupd.inRange

theorem nextAccountLoop_ok {heads : HeadsContainer} (now : Timestamp) {starts : List Account}
    (hbegs : ∀ k ∈ starts, ∃ h, heads.byStart.get k = some h) :
    nextAccountLoop heads now starts = .ok (0, 0) ∨
      ∃ k h, heads.byStart.get k = some h ∧
        nextAccountLoop heads now starts = .ok (h.next, h.start) := by
  induction starts with
  | nil => exact .inl rfl
  | cons k starts ih =>
    obtain ⟨h, hget⟩ := hbegs k mem_cons_self
    simp only [nextAccountLoop, hget]
    split
    · exact .inr ⟨k, h, hget, rfl⟩
    · exact ih fun k' hk' => hbegs k' (mem_cons_of_mem _ hk')

/-- A request is sent for the next account of a head, or none is sent. -/
theorem Scanning.next_ok (hs : s.Scanning) (now : Timestamp) :
    s.next now = .ok (0, s) ∨ ∃ k h s', Updates s s' k h (h.requestSent now) ∧
      s.next now = .ok (h.next, s') ∧ h.next ≠ 0 ∧ s'.Scanning := by
  have hbegs : ∀ k ∈ s.heads.orderedByTimestamp, ∃ h, s.heads.byStart.get k = some h := by
    intro k hk
    obtain ⟨t, -, hmem⟩ := mem_flatMap.mp hk
    obtain ⟨h, hget, -⟩ := hs.indexed.mem_waiting.mp hmem
    exact ⟨h, hget⟩
  rcases nextAccountLoop_ok now hbegs with hnone | ⟨k, h, hget, hfound⟩
  · left
    rw [next, nextAccount, hnone]
    rfl
  · right
    have hrng := hs.inRange hget
    have hkey := hs.divides.start_eq hget
    have hne : h.next ≠ 0 := by
      intro hzero
      have hpos := (hs.divides.covers.mp ⟨k, h, hget, hs.divides.nonempty hget⟩).1
      have hle := BitVec.le_def.mp hrng.start_le
      rw [hkey, hzero] at hle
      change k.number.toNat ≤ 0 at hle
      omega
    obtain ⟨heads, hmod, hput, hidx⟩ := hs.indexed.modify (f := (·.requestSent now)) hget rfl
    have hupd : Updates s ⟨heads⟩ k h (h.requestSent now) :=
      ⟨hget, hput, rfl, rfl, ⟨hrng.start_le, hrng.lt_end, hrng.candidate⟩, .inl rfl⟩
    refine ⟨k, h, ⟨heads⟩, hupd, ?_, hne, hs.updates hupd hidx⟩
    rw [next, nextAccount, hfound]
    simp only [bind, Except.bind, hne, ne_eq, not_false_eq_true, if_true, requestSent, hkey,
      hmod, pure, Except.pure]

/-- A response goes to the head that contains the start of the query. -/
theorem Scanning.process_ok (hs : s.Scanning) {start : Account} (response : List Frontier)
    (hbeg : 1 ≤ start.number.toNat ∧ start.number.toNat < 2 ^ 256 - 1) :
    ∃ k h s', Contains h start ∧ Updates s s' k h (h.process response).1 ∧
      s.process start response = .ok ((h.process response).2, s') ∧ s'.Scanning := by
  obtain ⟨k, h, hget, hmem⟩ := hs.divides.covers.mpr hbeg
  obtain ⟨hrng, hsame, hend, hmoves⟩ := process_spec (hs.inRange hget) response
  obtain ⟨heads, hmod, hput, hidx⟩ :=
    hs.indexed.modify (f := fun head => (head.process response).1) hget hsame
  have hupd : Updates s ⟨heads⟩ k h (h.process response).1 :=
    ⟨hget, hput, hsame, hend, hrng, hmoves⟩
  refine ⟨k, h, ⟨heads⟩, hmem, hupd, ?_, hs.updates hupd hidx⟩
  simp only [process, hs.divides.findFirst hget hmem, hget, Option.elim_some, hmod, bind,
    Except.bind, pure, Except.pure]

end FrontierScan

/-- A scan and the starts of the queries that it has sent. -/
structure ScanHistory where
  scan : FrontierScan
  queries : List Account

namespace ScanHistory

open HeadsContainer

inductive Operation
  | next (now : Timestamp)
  | process (start : Account) (response : List Frontier)

/-- Only answers to queries are processed, as often and as late as they come. -/
def Allowed (s : ScanHistory) : Operation → Prop
  | .next _ => True
  | .process start _ => start ∈ s.queries

def apply (s : ScanHistory) : Operation → Except FrontierScanPanic ScanHistory
  | .next now => do
    let (account, scan) ← s.scan.next now
    return ⟨scan, if account = 0 then s.queries else account :: s.queries⟩
  | .process start response => do
    let (_, scan) ← s.scan.process start response
    return { s with scan }

variable {s s' : ScanHistory}

/-- The scan is in order, and the queries started within the ranges. -/
structure Consistent (s : ScanHistory) : Prop where
  scanning : s.scan.Scanning
  query : ∀ start ∈ s.queries, 1 ≤ start.number.toNat ∧ start.number.toNat < 2 ^ 256 - 1

/-- The heads keep their ranges, and their next accounts stay, move forward or go back to the
start. -/
def Progress (s s' : ScanHistory) : Prop :=
  ∀ k, match s.scan.heads.byStart.get k with
    | none => s'.scan.heads.byStart.get k = none
    | some h => ∃ h', s'.scan.heads.byStart.get k = some h' ∧ h'.start = h.start ∧ h'.end = h.end ∧
        (h'.next = h.next ∨ h.next.number < h'.next.number ∨ h'.next = h.start)

theorem Progress.refl (s : ScanHistory) : Progress s s := by
  intro k
  cases hget : s.scan.heads.byStart.get k with
  | none => rfl
  | some h => exact ⟨h, rfl, rfl, rfl, .inl rfl⟩

theorem Progress.of_updates {k : Account} {h h' : FrontierHead}
    (hupd : FrontierScan.Updates s.scan s'.scan k h h') : Progress s s' := by
  intro k1
  rw [hupd.put]
  by_cases hk : k1 = k
  · subst hk
    rw [hupd.get, get_put_self]
    exact ⟨h', rfl, hupd.start, hupd.end, hupd.next⟩
  · rw [get_put_of_ne _ _ hk]
    exact Progress.refl s k1

/-- Every operation returns and keeps the scan in order. -/
theorem Consistent.apply_ok (hs : s.Consistent) {op : Operation} (hop : s.Allowed op) :
    ∃ s', s.apply op = .ok s' ∧ s'.Consistent ∧ Progress s s' := by
  cases op with
  | next now =>
    rcases hs.scanning.next_ok now with hnone | ⟨k, h, scan, hupd, hnext, hne, hscan⟩
    · refine ⟨s, ?_, hs, Progress.refl s⟩
      simp only [apply, hnone, bind, Except.bind, pure, Except.pure, if_true]
    · refine ⟨⟨scan, h.next :: s.queries⟩, ?_, ⟨hscan, ?_⟩, Progress.of_updates hupd⟩
      · simp only [apply, hnext, bind, Except.bind, pure, Except.pure, hne, if_false]
      · intro start hbeg
        cases mem_cons.mp hbeg with
        | inl heq =>
          have hrng := hs.scanning.inRange hupd.get
          exact heq ▸ hs.scanning.divides.covers.mp ⟨k, h, hupd.get, hrng.start_le, hrng.lt_end⟩
        | inr hmem => exact hs.query start hmem
  | process start response =>
    obtain ⟨k, h, scan, -, hupd, hproc, hscan⟩ :=
      hs.scanning.process_ok response (hs.query start hop)
    refine ⟨{ s with scan }, ?_, ⟨hscan, hs.query⟩, Progress.of_updates hupd⟩
    simp only [apply, hproc, bind, Except.bind, pure, Except.pure]

/-- The ranges of a table of heads. -/
def ranges (t : Table Account FrontierHead) (k : Account) : Option (Account × Account) :=
  (t.get k).map fun h => (h.start, h.end)

theorem Progress.ranges_eq (h : Progress s s') (k : Account) :
    ranges s'.scan.heads.byStart k = ranges s.scan.heads.byStart k := by
  have hk := h k
  rw [ranges, ranges]
  cases hget : s.scan.heads.byStart.get k with
  | none =>
    rw [hget] at hk
    rw [hk]
  | some head =>
    rw [hget] at hk
    obtain ⟨head', hget', hbeg, hend, -⟩ := hk
    rw [hget', Option.map_some, Option.map_some, hbeg, hend]

/-- For every number of heads: the created heads divide the accounts, and in every run the ranges
stay, each next account stays in its range, every operation returns, a response changes the head
whose range contains the start of the query and no other, and a next account changes only forward
or back to the start. -/
theorem run_coverage (config : FrontierScanConfig) (hp : 1 ≤ config.parallelism)
    (hlt : config.parallelism < 2 ^ 64) :
    ∃ heads, withHeads config = .ok heads ∧ heads.byStart.size = config.parallelism ∧
      Divides heads.byStart ∧
      (config.parallelism < 2 ^ 64 - 1 → FrontierScan.new config = .ok ⟨heads⟩) ∧
      ∀ s, Machine.Run apply Allowed ⟨⟨heads⟩, []⟩ s →
        (∀ k, ranges s.scan.heads.byStart k = ranges heads.byStart k) ∧
        (∀ k h, s.scan.heads.byStart.get k = some h →
          h.start.number ≤ h.next.number ∧ h.next.number < h.end.number) ∧
        (∀ start ∈ s.queries, ∀ response, ∃ k h scan, s.scan.heads.byStart.get k = some h ∧
          Contains h start ∧ s.scan.process start response = .ok ((h.process response).2, scan) ∧
          scan.heads.byStart = s.scan.heads.byStart.put k (h.process response).1) ∧
        ∀ op, s.Allowed op → ∃ s', s.apply op = .ok s' ∧ Progress s s' := by
  obtain ⟨heads, hheads, hindexed, hsize, hget⟩ := foldlM_pushBack_ok hlt le_rfl
  rw [← withHeads] at hheads
  have hdivides := divides_of_heads hp hlt hget
  have hinitial : Consistent ⟨⟨heads⟩, []⟩ := by
    refine ⟨⟨hindexed, hdivides, fun {k h} hk => ?_⟩, nofun⟩
    obtain ⟨i, hi, -, rfl⟩ := (hget k h).mp hk
    exact ⟨BitVec.le_refl _, (contains_headAt_start hlt hi).2, fun a ha => by cases ha⟩
  have hnew : config.parallelism < 2 ^ 64 - 1 → FrontierScan.new config = .ok ⟨heads⟩ := by
    intro hbelow
    rw [FrontierScan.new, if_pos (by omega), hheads]
    rfl
  refine ⟨heads, hheads, hsize, hdivides, hnew, fun s hrun => ?_⟩
  obtain ⟨hs, hranges⟩ : s.Consistent ∧
      ∀ k, ranges s.scan.heads.byStart k = ranges heads.byStart k := by
    refine hrun.invariant_of_ok (P := fun s => s.Consistent ∧
      ∀ k, ranges s.scan.heads.byStart k = ranges heads.byStart k) ⟨hinitial, fun k => rfl⟩ ?_
    intro s op hs hop
    obtain ⟨s1, hok, hs1, hprogress⟩ := hs.1.apply_ok hop
    exact ⟨s1, hok, hs1, fun k => (hprogress.ranges_eq k).trans (hs.2 k)⟩
  refine ⟨hranges, ?_, ?_, ?_⟩
  · intro k h hk
    have hrange := hs.scanning.inRange hk
    exact ⟨hrange.start_le, hrange.lt_end⟩
  · intro start hstart response
    obtain ⟨k, h, scan, hcontains, hupdate, hprocess, -⟩ :=
      hs.scanning.process_ok response (hs.query start hstart)
    exact ⟨k, h, scan, hupdate.get, hcontains, hprocess, hupdate.put⟩
  · intro op hop
    obtain ⟨s', hok, -, hprogress⟩ := hs.apply_ok hop
    exact ⟨s', hok, hprogress⟩

/-- The default number of heads. -/
theorem run_coverage_default :
    ∃ heads, withHeads ⟨128, 4, 1000, 5000000000⟩ = .ok heads ∧ heads.byStart.size = 128 ∧
      Divides heads.byStart ∧ FrontierScan.new ⟨128, 4, 1000, 5000000000⟩ = .ok ⟨heads⟩ := by
  obtain ⟨heads, hheads, hsize, hdivides, hnew, -⟩ :=
    run_coverage ⟨128, 4, 1000, 5000000000⟩ (by decide) (by decide)
  exact ⟨heads, hheads, hsize, hdivides, hnew (by decide)⟩

end ScanHistory

end RsNano
