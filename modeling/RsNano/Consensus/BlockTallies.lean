import RsNano.Lib.Tally
import RsNano.Lib.Table
import RsNano.Lib.Loop
import RsNano.Types.Block

/-!
# Block tallies

The tallies of the candidate blocks of an election, by descending weight. The source keeps them
in an array of ten entries; here they are a list that carries the bound. An eleventh entry is a
panic, as in the source.

Times are nanoseconds of the steady clock and durations are natural numbers of nanoseconds.
-/

namespace RsNano

open Tally

/-- `Timestamp::elapsed`, which truncates to 64 bits. -/
def Timestamp.elapsed (start now : Timestamp) : ℕ :=
  let difference := now - start
  if -2 ^ 127 ≤ difference ∧ difference < 2 ^ 127 then (difference % 2 ^ 64).toNat else 0

/-- Milliseconds since the epoch, a `u64`. -/
abbrev UnixMillisTimestamp := BitVec 64

/-- `UnixMillisTimestamp::MAX`, the timestamp of final votes. -/
def UnixMillisTimestamp.max : UnixMillisTimestamp := BitVec.allOnes 64

/-- The last vote of a representative in an election. -/
structure VoteSummary where
  voter : PublicKey
  voteCreated : UnixMillisTimestamp
  voteReceived : Timestamp
  hash : BlockHash
  weight : Amount
  deriving DecidableEq

def VoteSummary.isFinalVote (vote : VoteSummary) : Bool :=
  vote.voteCreated = UnixMillisTimestamp.max

/-- The places where an election can panic. -/
inductive ElectionPanic
  | notACandidate
  | tooManyTallies
  | noLowestTally
  | noSecondLowestTally
  | winnerNotACandidate
  | voteNotFound
  deriving DecidableEq, Repr

/-- The maximum number of candidate blocks. -/
def Election.maxBlocks : ℕ := 10

/-- The tally per block, at most one for each possible candidate. -/
structure BlockTallies where
  entries : List (BlockHash × Amount)
  length_le : entries.length ≤ Election.maxBlocks
  deriving DecidableEq

namespace BlockTallies

def new : BlockTallies := ⟨[], Nat.zero_le _⟩

variable (t : BlockTallies)

def len : ℕ := t.entries.length

def winner : Option (BlockHash × Amount) := t.entries.head?

def lowest : Option (BlockHash × Amount) := t.entries.getLast?

/-- `iter().rev().nth(1)`. -/
def secondLowest : Option (BlockHash × Amount) := t.entries.reverse[1]?

def get (hash : BlockHash) : Amount := Tally.get t.entries hash

def contains (hash : BlockHash) : Bool := Tally.contains t.entries hash

def sum : Amount := (t.entries.map Prod.snd).foldl (· + ·) 0

def remove (hash : BlockHash) : BlockTallies :=
  ⟨Tally.remove t.entries hash, (Tally.remove_sublist _ _).length_le.trans t.length_le⟩

/-- The first tally is ahead of the second one by the delta. -/
def checkQuorum (quorumDelta : Amount) : Bool :=
  let first := ((t.entries[0]?).map Prod.snd).getD 0
  let second := ((t.entries[1]?).map Prod.snd).getD 0
  quorumDelta ≤ first - second

def insertUnsorted (hash : BlockHash) (tally : Amount) :
    Except ElectionPanic BlockTallies :=
  if h : t.len = Election.maxBlocks then .error .tooManyTallies
  else .ok ⟨t.entries ++ [(hash, tally)], by
    have := t.length_le
    rw [len] at h
    rw [List.length_append, List.length_singleton]
    omega⟩

def sortByDescendingTally : BlockTallies := ⟨rank t.entries, (length_rank _).le.trans t.length_le⟩

/-- Count one vote. -/
def count (vote : VoteSummary) : Except ElectionPanic BlockTallies :=
  if t.contains vote.hash then
    .ok ⟨addTo vote.hash vote.weight t.entries, (length_addTo _ _ _).le.trans t.length_le⟩
  else t.insertUnsorted vote.hash vote.weight

/-- Count all votes, in the order in which they are iterated. -/
def calculate (votes : List VoteSummary) : Except ElectionPanic BlockTallies := do
  let t ← votes.foldlM count new
  return t.sortByDescendingTally

def insert (hash : BlockHash) (tally : Amount) :
    Except ElectionPanic BlockTallies := do
  let t ← t.insertUnsorted hash tally
  return t.sortByDescendingTally

/-- The tallies are distinct and descend. -/
structure Ordered (t : BlockTallies) : Prop where
  nodup : (keys t.entries).Nodup
  ranked : Tally.Ranked t.entries

variable {t t' : BlockTallies} {hash : BlockHash} {tally : Amount}

theorem contains_iff : t.contains hash = true ↔ hash ∈ Tally.keys t.entries := Tally.contains_iff

/-- The sum of all tallies. -/
theorem sum_eq : t.sum = total t.entries := by
  rw [sum, total, List.sum_eq_foldl]

/-- There is a lowest tally if there is one at all. -/
theorem lowest_eq_some (h : 1 ≤ t.len) : ∃ x, t.lowest = some x :=
  ⟨_, List.getLast?_eq_some_getLast (List.ne_nil_of_length_pos h)⟩

/-- There is a second lowest tally if there are two. -/
theorem secondLowest_eq_some (h : 2 ≤ t.len) : ∃ x, t.secondLowest = some x := by
  refine ⟨_, List.getElem?_eq_getElem ?_⟩
  rw [List.length_reverse]
  exact h

/-- An entry is added exactly when there is space. -/
theorem insertUnsorted_eq_ok :
    t.insertUnsorted hash tally = .ok t' ↔
      t.len < Election.maxBlocks ∧ t'.entries = t.entries ++ [(hash, tally)] := by
  rw [insertUnsorted]
  split
  · next h => simp [h]
  · next h =>
    have hlt : t.len < Election.maxBlocks := Nat.lt_of_le_of_ne t.length_le h
    simp only [Except.ok.injEq, hlt, true_and]
    constructor
    · rintro rfl
      rfl
    · intro heq
      obtain ⟨entries, hle⟩ := t'
      subst heq
      rfl

/-- An entry is inserted exactly when there is space. -/
theorem insert_eq_ok :
    t.insert hash tally = .ok t' ↔
      t.len < Election.maxBlocks ∧ t'.entries = rank (t.entries ++ [(hash, tally)]) := by
  simp only [insert, bind_eq_ok, insertUnsorted_eq_ok, pure_eq_ok]
  constructor
  · rintro ⟨t1, ⟨hlt, heq⟩, rfl⟩
    exact ⟨hlt, congrArg rank heq⟩
  · rintro ⟨hlt, heq⟩
    have hle : (t.entries ++ [(hash, tally)]).length ≤ Election.maxBlocks := by
      rw [List.length_append]
      exact hlt
    refine ⟨⟨t.entries ++ [(hash, tally)], hle⟩, ⟨hlt, rfl⟩, ?_⟩
    obtain ⟨entries, hle'⟩ := t'
    subst heq
    rfl

/-- A vote is counted exactly when its block is listed or there is space. -/
theorem count_eq_ok {vote : VoteSummary} :
    t.count vote = .ok t' ↔
      (vote.hash ∈ Tally.keys t.entries ∨ t.len < Election.maxBlocks) ∧
        t'.entries = Tally.count t.entries vote.hash vote.weight := by
  rw [count, Tally.count]
  split
  · next h =>
    have hkey := contains_iff.mp h
    rw [if_pos (Tally.contains_iff.mpr hkey)]
    simp only [Except.ok.injEq, hkey, true_or, true_and]
    constructor
    · rintro rfl
      rfl
    · intro heq
      obtain ⟨entries, hle⟩ := t'
      subst heq
      rfl
  · next h =>
    have hkey := contains_iff.not.mp h
    rw [if_neg (Tally.contains_iff.not.mpr hkey), insertUnsorted_eq_ok]
    simp only [hkey, false_or]

/-- A vote as a key with a weight. -/
def ballot (vote : VoteSummary) : BlockHash × Amount := (vote.hash, vote.weight)

/-- The keys of the votes are their hashes. -/
theorem keys_map_ballot (votes : List VoteSummary) :
    keys (votes.map ballot) = votes.map VoteSummary.hash := by
  simp [keys, ballot, Function.comp_def]

/-- Counting all votes, if there is space for them. -/
theorem entries_of_foldlM_count {votes : List VoteSummary} (h : votes.foldlM count t = .ok t') :
    t'.entries = countAll t.entries (votes.map ballot) := by
  induction votes generalizing t with
  | nil =>
    cases h
    rfl
  | cons vote votes ih =>
    rw [List.foldlM_cons, bind_eq_ok] at h
    obtain ⟨t1, hcnt, h⟩ := h
    rw [ih h, (count_eq_ok.mp hcnt).2]
    rfl

/-- The calculated tallies are the ranked count of the votes. -/
theorem entries_of_calculate {votes : List VoteSummary} (h : calculate votes = .ok t) :
    t.entries = rank (countAll [] (votes.map ballot)) := by
  simp only [calculate, bind_eq_ok, pure_eq_ok] at h
  obtain ⟨t1, hfold, rfl⟩ := h
  exact congrArg rank (entries_of_foldlM_count hfold)

section

variable {V : Type} {candidates : Table BlockHash V} {votes : List VoteSummary}
  (hsize : candidates.size ≤ Election.maxBlocks)
  (hvotes : ∀ vote ∈ votes, ∃ b, candidates.get vote.hash = some b)

include hsize hvotes

/-- There is space for votes for the candidates of a small table. -/
theorem foldlM_count_ok (hnd : (Tally.keys t.entries).Nodup)
    (ht : ∀ hash ∈ Tally.keys t.entries, ∃ b, candidates.get hash = some b) :
    ∃ t', votes.foldlM count t = .ok t' := by
  induction votes generalizing t with
  | nil => exact ⟨t, rfl⟩
  | cons vote votes ih =>
    have hnd' := Tally.nodup_keys_count (k := vote.hash) (w := vote.weight) hnd
    have ht' : ∀ hash ∈ Tally.keys (Tally.count t.entries vote.hash vote.weight),
        ∃ b, candidates.get hash = some b := by
      intro hash hmem
      rcases Tally.mem_keys_count.mp hmem with rfl | hmem
      · exact hvotes vote List.mem_cons_self
      · exact ht hash hmem
    have hlen := (Table.length_le_size hnd' ht').trans hsize
    rw [Tally.keys, List.length_map] at hlen
    have hcnt : t.count vote = .ok ⟨Tally.count t.entries vote.hash vote.weight, hlen⟩ := by
      refine count_eq_ok.mpr ⟨?_, rfl⟩
      by_contra hfull
      rw [not_or] at hfull
      rw [Tally.count, if_neg (Tally.contains_iff.not.mpr hfull.1), List.length_append,
        List.length_singleton] at hlen
      exact hfull.2 hlen
    obtain ⟨t', h⟩ := ih (t := ⟨_, hlen⟩) (fun v hv => hvotes v (List.mem_cons_of_mem _ hv))
      hnd' ht'
    exact ⟨t', by rw [List.foldlM_cons, hcnt]; exact h⟩

/-- Votes for the candidates of a small table are counted without panic. -/
theorem calculate_ok : ∃ t, calculate votes = .ok t := by
  obtain ⟨t, h⟩ := foldlM_count_ok (t := new) hsize hvotes List.nodup_nil (by
    intro hash hmem
    cases hmem)
  exact ⟨t.sortByDescendingTally, by rw [calculate, h]; rfl⟩

end

section

variable {votes : List VoteSummary} (h : calculate votes = .ok t)

include h

/-- The calculated tallies are distinct and descend. -/
theorem ordered_of_calculate : t.Ordered := by
  have heq := entries_of_calculate h
  refine ⟨?_, heq ▸ ranked_rank _⟩
  rw [heq, (keys_rank_perm _).nodup_iff]
  exact nodup_keys_countAll List.nodup_nil

/-- The calculated tallies are those of the blocks with votes. -/
theorem mem_keys_of_calculate :
    hash ∈ keys t.entries ↔ ∃ vote ∈ votes, vote.hash = hash := by
  rw [entries_of_calculate h, (keys_rank_perm _).mem_iff, mem_keys_countAll,
    keys_map_ballot, List.mem_map]
  simp [keys]

/-- The calculated tally of a block is the weight of the votes for it. -/
theorem get_of_calculate (hash : BlockHash) :
    t.get hash = ((votes.filter fun vote => vote.hash = hash).map VoteSummary.weight).sum := by
  have hnd : (Tally.keys (Tally.countAll [] (votes.map ballot))).Nodup :=
    Tally.nodup_keys_countAll List.nodup_nil
  rw [get, entries_of_calculate h, Tally.get_rank hnd, Tally.get_countAll, List.filter_map,
    List.map_map]
  exact zero_add _

/-- The calculated tallies add up to the weight of all votes. -/
theorem sum_of_calculate : t.sum = (votes.map VoteSummary.weight).sum := by
  rw [sum_eq, entries_of_calculate h, total_rank, total_countAll, List.map_map]
  exact zero_add _

end

/-- There is nothing to order in the beginning. -/
theorem ordered_new : new.Ordered := ⟨List.nodup_nil, List.Pairwise.nil⟩

/-- The tally of a new block is put in order. -/
theorem Ordered.insert (ht : t.Ordered) (hnew : hash ∉ keys t.entries)
    (h : t.insert hash tally = .ok t') : t'.Ordered := by
  have heq := (insert_eq_ok.mp h).2
  refine ⟨?_, heq ▸ ranked_rank _⟩
  rw [heq, (keys_rank_perm _).nodup_iff]
  simp only [keys, List.map_append, List.map_cons, List.map_nil]
  exact List.nodup_append_comm.mp (List.nodup_cons.mpr ⟨hnew, ht.nodup⟩)

/-- The tallies after an insertion are the old ones and the new one. -/
theorem mem_keys_insert (h : t.insert hash tally = .ok t') {x : BlockHash} :
    x ∈ keys t'.entries ↔ x = hash ∨ x ∈ keys t.entries := by
  rw [(insert_eq_ok.mp h).2, (keys_rank_perm _).mem_iff]
  simp [keys, or_comm]

/-- The tallies stay in order when one is removed. -/
theorem Ordered.remove (ht : t.Ordered) (hash : BlockHash) : (t.remove hash).Ordered :=
  ⟨((Tally.remove_sublist _ hash).map Prod.fst).nodup ht.nodup,
    ht.ranked.sublist (Tally.remove_sublist _ _)⟩

end BlockTallies

end RsNano
