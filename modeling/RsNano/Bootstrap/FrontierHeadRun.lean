import RsNano.Bootstrap.FrontierScan
import RsNano.Lib.Lowest

/-!
# The candidates of a frontier head

A head that has not moved on holds the lowest of the accounts behind its next account that were
reported since it last moved, as many as are configured. When it moves on, no reported account
between the old and the new position has been left out.

The number of responses after which a head without candidates gives up is twice the consideration
count, as a 64-bit word. From a count of `2 ^ 63` on this wraps, and the head takes its end for a
candidate without moving on.
-/

namespace RsNano.FrontierHead

open Table List Frontier

variable {h h' : FrontierHead} {reported : List Account} {response : List Frontier} {a : Account}

def key (a : Account) : ℕ := a.number.toNat

theorem key_injective : Function.Injective key :=
  fun _ _ heq => U256.ext (BitVec.eq_of_toNat_eq heq)

def candidateSet (h : FrontierHead) : Finset Account := Finmap.keys h.candidates

/-- The accounts behind a position. -/
def above (next : Account) (accounts : List Account) : Finset Account :=
  {a ∈ accounts.toFinset | key next < key a}

theorem mem_above {next : Account} {accounts : List Account} :
    a ∈ above next accounts ↔ a ∈ accounts ∧ key next < key a := by
  rw [above, Finset.mem_filter, mem_toFinset]

theorem above_append (next : Account) (accounts accounts' : List Account) :
    above next (accounts ++ accounts') = above next accounts ∪ above next accounts' := by
  rw [above, toFinset_append, Finset.filter_union, above, above]

/-- The largest candidate is dropped. -/
theorem candidateSet_popLast (hsize : h.candidates.size ≠ 0) : ∃ last ∈ h.candidateSet,
    h.lastCandidate = some last ∧ (∀ a ∈ h.candidateSet, key a ≤ key last) ∧
      h.popLast.candidateSet = h.candidateSet.erase last := by
  have hsort := pairwise_sortedKeys U256.byteLe h.candidates
  cases hlast : h.lastCandidate with
  | none =>
    rw [← length_sortedKeys U256.byteLe, getLast?_eq_none_iff.mp hlast] at hsize
    exact absurd rfl hsize
  | some last =>
    obtain ⟨keys, hkeys⟩ := getLast?_eq_some_iff.mp hlast
    have hmem := (mem_sortedKeys U256.byteLe).mp (mem_of_getLast? hlast)
    refine ⟨last, mem_keys_iff.mpr hmem, rfl, fun a ha => ?_, ?_⟩
    · have ha := (mem_sortedKeys U256.byteLe).mpr (mem_keys_iff.mp ha)
      rw [hkeys] at ha hsort
      rcases mem_append.mp ha with ha | ha
      · exact ((pairwise_append.mp hsort).2.2 a ha last mem_cons_self).1
      · rw [mem_singleton.mp ha]
    · ext x
      rw [popLast, hlast, candidateSet, candidateSet, Finset.mem_erase, mem_keys_iff,
        mem_keys_iff, get_del]
      by_cases hx : x = last
      · simp [hx]
      · simp [hx]

variable (h response)

theorem candidateSet_insertCandidates :
    (h.insertCandidates response).candidateSet =
      h.candidateSet ∪ above h.next (response.map account) := by
  rw [insertCandidates, candidateSet, candidateSet]
  generalize h.candidates = candidates
  induction response generalizing candidates with
  | nil => simp [above]
  | cons frontier response ih =>
    rw [foldl_cons, ih]
    ext x
    simp only [Finset.mem_union, mem_keys_iff, mem_above, map_cons, mem_cons]
    split
    · next hlt =>
      rw [get_put]
      by_cases hx : x = frontier.account
      · simp [hx, key, BitVec.lt_def.mp hlt]
      · simp [hx]
    · next hlt =>
      by_cases hx : x = frontier.account
      · simp [hx, key, BitVec.lt_def.not.mp hlt]
      · simp [hx]

theorem popLast_eq : h.popLast = { h with candidates := h.popLast.candidates } := by
  rw [popLast]
  cases h.lastCandidate <;> rfl

theorem card_candidateSet : h.candidateSet.card = h.candidates.size := Multiset.card_map _ _

/-- Trimming keeps the lowest candidates, and changes nothing else. -/
theorem trimCandidates_eq :
    h.trimCandidates = { h with candidates := h.trimCandidates.candidates } ∧
      h.trimCandidates.candidateSet = lowest key h.config.candidates h.candidateSet := by
  rw [trimCandidates]
  generalize hn : h.candidates.size - h.config.candidates = n
  induction n generalizing h with
  | zero =>
    refine ⟨rfl, (lowest_eq_self (s := h.candidateSet) ?_).symm⟩
    rw [card_candidateSet]
    omega
  | succ n ih =>
    obtain ⟨last, hmem, -, hmax, herase⟩ := candidateSet_popLast (h := h) (by omega)
    have hcard := Finset.card_erase_of_mem hmem
    rw [← herase, card_candidateSet, card_candidateSet] at hcard
    have hcfg : h.popLast.config = h.config := by rw [popLast_eq]
    obtain ⟨heq, hset⟩ := ih h.popLast (by rw [hcfg]; omega)
    rw [Function.iterate_succ_apply, hset, hcfg, herase]
    refine ⟨heq.trans (by rw [popLast_eq]), lowest_erase hmem hmax key_injective ?_⟩
    rw [card_candidateSet]
    omega

/-- The candidates when the head decides whether to move on. -/
def considered (h : FrontierHead) (response : List Frontier) : Finset Account :=
  (({ h with requestsCompleted := h.requestsCompleted + 1 } : FrontierHead).insertCandidates
    response).trimCandidates.candidateSet

theorem considered_eq :
    h.considered response = lowest key h.config.candidates
      (h.candidateSet ∪ above h.next (response.map account)) := by
  rw [considered, (trimCandidates_eq _).2, candidateSet_insertCandidates]
  rfl

theorem exists_trimmed :
    ∃ candidates,
    (({ h with requestsCompleted := h.requestsCompleted + 1 } : FrontierHead).insertCandidates
      response).trimCandidates =
        { h with requestsCompleted := h.requestsCompleted + 1, candidates } ∧
      Finmap.keys candidates = h.considered response :=
  ⟨_, (trimCandidates_eq _).1, rfl⟩

variable {h response}

/-- The head after a response that does not move it. -/
structure Gathered (h : FrontierHead) (response : List Frontier) (h' : FrontierHead) : Prop where
  start : h'.start = h.start
  next : h'.next = h.next
  config : h'.config = h.config
  candidateSet : h'.candidateSet = h.considered response

/-- The head after a response that moves it: forward to the last candidate, or back to the
start. -/
structure Advanced (h : FrontierHead) (response : List Frontier) (h' : FrontierHead) : Prop where
  start : h'.start = h.start
  next : h'.next = h.start ∨ h'.next ∈ h.considered response
  config : h'.config = h.config
  candidateSet : h'.candidateSet = ∅

/-- The head moves to a candidate, or back to the start, also where the end is the only one. -/
theorem nextStartAccount_cases (hsize : h.candidates.size ≠ 0) :
    (h.nextStartAccount = h.start ∨ h.nextStartAccount ∈ h.candidateSet) ∧
      (h.candidateSet = {h.end} → h.nextStartAccount = h.start) := by
  obtain ⟨last, hmem, hlast, -⟩ := candidateSet_popLast hsize
  have heq : h.nextStartAccount = if h.end.number ≤ last.number then h.start else last := by
    rw [nextStartAccount, hlast]
    rfl
  rw [heq]
  refine ⟨?_, fun hend => ?_⟩
  · split
    · exact .inl rfl
    · exact .inr hmem
  · rw [hend, Finset.mem_singleton] at hmem
    exact if_pos (hmem ▸ BitVec.le_refl _)

/-- What a response does, where the number of responses does not wrap. -/
theorem process_cases (hcnt : h.config.considerationCount < 2 ^ 63) (response : List Frontier) :
    ((h.process response).2 = false ∧ Gathered h response (h.process response).1) ∨
      ((h.process response).2 = true ∧ Advanced h response (h.process response).1) := by
  obtain ⟨candidates, heq, hset⟩ := h.exists_trimmed response
  rw [process, heq, wrapAroundIfNoCandidatesFound]
  by_cases hwrap : h.config.considerationCount * 2 % 2 ^ 64 ≤ h.requestsCompleted + 1 ∧
      candidates.size = 0
  · have hend : Finmap.keys (candidates.put h.end ()) = {h.end} := by
      ext x
      rw [mem_keys_iff, get_put]
      have hnone : candidates.get x = none :=
        Option.eq_none_iff_forall_ne_some.mpr fun _ hx =>
          (size_pos_of_get hx).ne' hwrap.2
      by_cases hx : x = h.end
      · simp [hx]
      · simp [hx, hnone]
    have hsize : (candidates.put h.end ()).size ≠ 0 := (size_pos_of_get (get_put_self _ _ _)).ne'
    have hadv : h.config.considerationCount ≤ h.requestsCompleted + 1 := by omega
    rw [if_pos hwrap]
    split
    · exact .inr ⟨rfl, rfl, .inl ((nextStartAccount_cases hsize).2 hend), rfl, rfl⟩
    · next hstay => exact absurd (decide_eq_true ⟨hadv, hsize⟩) hstay
  · rw [if_neg hwrap]
    split
    · next hgo =>
      have hcases := (nextStartAccount_cases (of_decide_eq_true hgo).2).1
      exact .inr ⟨rfl, rfl, hset ▸ hcases, rfl, rfl⟩
    · exact .inl ⟨rfl, rfl, rfl, rfl, hset⟩

/-- A head that has been used since its creation, with the accounts that were reported since it
last moved. -/
inductive Reports (h0 : FrontierHead) : List Account → FrontierHead → Prop
  | created : Reports h0 [] h0
  | requestSent {reported : List Account} {h : FrontierHead} (hrun : Reports h0 reported h)
      (now : Timestamp) : Reports h0 reported (h.requestSent now)
  | gather {reported : List Account} {h : FrontierHead} {response : List Frontier}
      (hrun : Reports h0 reported h) (hstay : (h.process response).2 = false) :
      Reports h0 (reported ++ response.map account) (h.process response).1
  | advance {reported : List Account} {h : FrontierHead} {response : List Frontier}
      (hrun : Reports h0 reported h) (hmove : (h.process response).2 = true) :
      Reports h0 [] (h.process response).1

/-- The candidates are the lowest of the reported accounts. -/
structure Gathers (config : FrontierScanConfig) (reported : List Account) (h : FrontierHead) :
    Prop where
  config : h.config = config
  start_le : key h.start ≤ key h.next
  candidateSet : h.candidateSet = lowest key h.config.candidates (above h.next reported)

variable {start «end» : Account} {config : FrontierScanConfig}

theorem Gathers.considered (hh : Gathers config reported h) (response : List Frontier) :
    h.considered response = lowest key h.config.candidates
      (above h.next (reported ++ response.map account)) := by
  rw [considered_eq, hh.candidateSet, lowest_union, above_append]

/-- Every step keeps the lowest of the reported accounts. -/
theorem Reports.gathers (hcnt : config.considerationCount < 2 ^ 63)
    (hrun : Reports (new start «end» config) reported h) : Gathers config reported h := by
  induction hrun with
  | created => exact ⟨rfl, le_rfl, rfl⟩
  | requestSent _ now ih => exact ⟨ih.config, ih.start_le, ih.candidateSet⟩
  | @gather reported h response _ hstay ih =>
    rcases process_cases (ih.config ▸ hcnt) response with ⟨-, hg⟩ | ⟨hmove, -⟩
    · refine ⟨hg.config.trans ih.config, ?_, ?_⟩
      · rw [hg.start, hg.next]
        exact ih.start_le
      · rw [hg.candidateSet, ih.considered, hg.config, hg.next]
    · cases hstay.symm.trans hmove
  | @advance reported h response _ hmove ih =>
    rcases process_cases (ih.config ▸ hcnt) response with ⟨hstay, -⟩ | ⟨-, ha⟩
    · cases hstay.symm.trans hmove
    · refine ⟨ha.config.trans ih.config, ?_, ?_⟩
      · rw [ha.start]
        rcases ha.next with heq | hmem
        · rw [heq]
        · rw [ih.considered] at hmem
          exact ih.start_le.trans (mem_above.mp (mem_lowest.mp hmem).1).2.le
      · rw [ha.candidateSet]
        simp [above, lowest]

/-- Between two moves a head holds exactly the lowest of the reported accounts behind its next
account. When it moves, every reported account up to its new position is among the candidates. -/
theorem run_candidates (hcount : config.considerationCount < 2 ^ 63)
    (hrun : Reports (new start «end» config) reported h) :
    h.candidateSet = lowest key config.candidates (above h.next reported) ∧
      ∀ response, h.considered response = lowest key config.candidates
          (above h.next (reported ++ response.map account)) ∧
        ((h.process response).2 = true →
          ∀ a ∈ reported ++ response.map account, key h.next < key a →
            key a ≤ key (h.process response).1.next → a ∈ h.considered response) := by
  have hg := hrun.gathers hcount
  have hlimit : h.config.candidates = config.candidates := by rw [hg.config]
  refine ⟨hlimit ▸ hg.candidateSet, fun response =>
    ⟨hlimit ▸ hg.considered response, fun hmove a ha hlt hle => ?_⟩⟩
  rcases process_cases (hg.config ▸ hcount) response with ⟨hstay, -⟩ | ⟨-, hadvanced⟩
  · cases hstay.symm.trans hmove
  · rcases hadvanced.next with heq | hmem
    · rw [heq] at hle
      exact absurd (hlt.trans_le hle) (not_lt.mpr hg.start_le)
    · rw [hg.considered] at hmem ⊢
      exact mem_lowest_of_le hmem (mem_above.mpr ⟨ha, hlt⟩) hle

/-- Two accounts are reported, and there is room for both. -/
theorem run_candidates_dev : ∃ h, Reports (new ⟨1⟩ ⟨9⟩ ⟨1, 2, 2, 0⟩) [⟨5⟩, ⟨3⟩] h ∧
    h.candidateSet = lowest key 2 (above h.next [⟨5⟩, ⟨3⟩]) := by
  have hstay : ((new ⟨1⟩ ⟨9⟩ ⟨1, 2, 2, 0⟩).process [⟨⟨5⟩, 0⟩, ⟨⟨3⟩, 0⟩]).2 = false := by
    decide +kernel
  have hrun := Reports.created.gather hstay
  exact ⟨_, hrun, (run_candidates (by decide) hrun).1⟩

/-- A head with a count of `2 ^ 63` takes its end for a candidate, although nothing has been
reported and it does not move. -/
theorem candidates_devWrapped :
    ∃ h, Reports (new ⟨1⟩ ⟨9⟩ ⟨1, 2 ^ 63, 2, 0⟩) [] h ∧ ⟨9⟩ ∈ h.candidateSet := by
  have hstay : ((new ⟨1⟩ ⟨9⟩ ⟨1, 2 ^ 63, 2, 0⟩).process []).2 = false := by decide +kernel
  exact ⟨_, Reports.created.gather hstay, by decide +kernel⟩

end RsNano.FrontierHead
