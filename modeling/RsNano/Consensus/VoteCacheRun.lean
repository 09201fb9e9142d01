import RsNano.Consensus.VoteCacheInvariant

/-!
# Sequences of vote cache operations

Votes are inserted, entries are erased, the cache is cleared and old entries are cleaned up, in any
sequence. The indexes stay exact, the size stays bounded and the entry that was inserted first goes
first, unless no voters are allowed: then the first vote panics.
-/

namespace RsNano

open Index CacheEntryCollection List

namespace VoteCache

/-- The operations, with the orders in which hash maps are iterated and the readings of the
clock. -/
inductive Operation
  | insert (vote : Vote) (repWeight : Amount) (results : Table BlockHash (Except VoteError Unit))
      (order : List BlockHash) (clock : ℕ → ℕ)
  | erase (hash : BlockHash)
  | clear
  | cleanup (order : Table BlockHash CacheEntry → List BlockHash) (clock : BlockHash → ℕ)

namespace Operation

/-- The orders are orders of the hash maps. -/
def Fits : Operation → Prop
  | insert _ _ results order _ => results.IsOrder order
  | cleanup order _ => ∀ entries : Table BlockHash CacheEntry, entries.IsOrder (order entries)
  | _ => True

/-- The hashes for which a vote is cached. -/
def hashes : Operation → List BlockHash
  | insert vote _ results order _ => acceptedHashes vote results order
  | _ => []

end Operation

def apply (s : VoteCache) : Operation → Except VoteCachePanic VoteCache
  | .insert vote repWeight results order clock => s.insert vote repWeight results order clock
  | .erase hash => Prod.snd <$> s.erase hash
  | .clear => .ok s.clear
  | .cleanup order clock => s.cleanup (order s.cache.byHash) clock

/-- A sequence of operations on a new cache. -/
def applyAll (config : VoteCacheConfig) (start : ℕ) (ops : List Operation) :
    Except VoteCachePanic VoteCache :=
  ops.foldlM apply (.new config start)

/-- New hashes come last and push out the first ones, and removed hashes leave the others in their
order. -/
def KeepsOrder (s s' : VoteCache) : Operation → Prop
  | .insert vote _ results order _ =>
    s'.stored = (acceptedHashes vote results order).foldl (enqueue s.config.maxSize) s.stored
  | .erase hash => s'.stored = s.stored.filter (· ≠ hash)
  | .clear => s'.stored = []
  | .cleanup _ clock => s'.stored = s.stored.filter fun hash =>
      !(s.cache.byHash.get hash).any (s.isOld clock)

variable {s : VoteCache} {count : ℕ} {config : VoteCacheConfig} {op : Operation}

/-- The number of votes that a sequence of operations caches. -/
def castCount (ops : List Operation) : ℕ := (ops.flatMap Operation.hashes).length

theorem castCount_append (ops : List Operation) (op : Operation) :
    castCount (ops ++ [op]) = castCount ops + op.hashes.length := by
  simp [castCount]

theorem castCount_le {p ops : List Operation} (h : p <+: ops) : castCount p ≤ castCount ops := by
  obtain ⟨-, rfl⟩ := h
  rw [castCount, castCount, flatMap_append, length_append]
  exact Nat.le_add_right _ _

/-- One operation. -/
theorem Valid.apply_ok (h : s.Valid count) (hfits : op.Fits)
    (hmax : 0 < s.config.maxVoters ∨ op.hashes = [])
    (hcnt : count + op.hashes.length ≤ 2 ^ 64) :
    ∃ s', s.apply op = .ok s' ∧ s'.Valid (count + op.hashes.length) ∧ s'.config = s.config ∧
      KeepsOrder s s' op := by
  cases op with
  | insert vote repWeight results order clock =>
    exact h.insertHashes_ok vote repWeight clock hmax 0 hcnt
  | erase hash =>
    obtain ⟨removed, cache, hrem, hcoh, hst, hdel, hin⟩ := removeByHash_ok h.coherent hash
    refine ⟨{ s with cache }, ?_, ?_, rfl, hst⟩
    · exact map_eq_ok.mpr ⟨_, bind_eq_ok.mpr ⟨(removed, cache), hrem, rfl⟩, rfl⟩
    · refine h.restrict hcoh (fun hget => ?_) hin
      rw [hdel] at hget
      exact (Table.get_of_get_del hget).2
  | clear =>
    refine ⟨s.clear, rfl, h.restrict .empty nofun fun _ _ => rfl, rfl, ?_⟩
    rw [KeepsOrder, VoteCache.stored, CacheEntryCollection.stored, clear, empty]
    rw [Table.sortedKeys_empty]
    rfl
  | cleanup order clock => exact h.cleanup (hfits _) clock

/-- A sequence of operations. -/
theorem applyAll_ok (start : ℕ) {ops : List Operation} (hfits : ∀ op ∈ ops, op.Fits)
    (hmax : 0 < config.maxVoters ∨ ∀ op ∈ ops, op.hashes = []) (hcnt : castCount ops ≤ 2 ^ 64) :
    ∃ s, applyAll config start ops = .ok s ∧ s.Valid (castCount ops) ∧ s.config = config := by
  induction ops using reverseRecOn with
  | nil => exact ⟨.new config start, rfl, .new config start, rfl⟩
  | append_singleton ops op ih =>
    rw [castCount_append] at hcnt ⊢
    have hsub : ∀ {op'}, op' ∈ ops → op' ∈ ops ++ [op] := fun h => mem_append_left [op] h
    have hlast : op ∈ ops ++ [op] := mem_append_right ops (mem_singleton_self op)
    obtain ⟨s, hs, hval, hcfg⟩ := ih (fun op' h => hfits op' (hsub h))
      (hmax.imp_right fun hnone op' h => hnone op' (hsub h)) (by omega)
    obtain ⟨s', hs', hval', hcfg', -⟩ := hval.apply_ok (hfits op hlast)
      (hmax.imp (fun hpos => hcfg ▸ hpos) fun hnone => hnone op hlast) hcnt
    refine ⟨s', ?_, hval', hcfg'.trans hcfg⟩
    rw [applyAll, foldlM_append]
    exact bind_eq_ok.mpr ⟨s, hs, bind_eq_ok.mpr ⟨s', hs', rfl⟩⟩

/-! ### A cache without voters -/

/-- Without voters the first vote panics. -/
theorem insertImpl_noVoters (hcache : s.cache = .empty) (hmax : s.config.maxVoters = 0)
    (vote : Vote) (hash : BlockHash) (weight : Amount) (now : ℕ) :
    s.insertImpl vote hash weight now = .error .noVoters := by
  have hmin : OrderedVoters.empty.minWeight = none := by
    rw [OrderedVoters.minWeight, OrderedVoters.empty, Table.sortedKeys_empty]
    rfl
  have himpl : CacheEntry.voteImpl .empty vote weight 0 = .error .noVoters := by
    rw [CacheEntry.voteImpl]
    rw [hmin]
    rfl
  have hvote : (CacheEntry.new s.nextId hash now).vote vote weight 0 now = .error .noVoters := by
    rw [CacheEntry.vote, CacheEntry.new, himpl]
    rfl
  rw [insertImpl, hcache, hmax, hvote]
  rfl

theorem apply_noVoters (hcache : s.cache = .empty) (hmax : s.config.maxVoters = 0)
    (hhs : op.hashes ≠ []) : s.apply op = .error .noVoters := by
  cases op with
  | insert vote repWeight results order clock =>
    obtain ⟨hash, rest, heq⟩ := exists_cons_of_ne_nil hhs
    change acceptedHashes vote results order = hash :: rest at heq
    rw [apply, VoteCache.insert, heq, zipIdx_cons, foldlM_cons]
    dsimp only
    rw [insertImpl_noVoters hcache hmax]
    rfl
  | erase hash | clear | cleanup order clock => exact absurd rfl hhs

/-- An empty cache stays empty without votes. -/
theorem apply_empty (hcache : s.cache = .empty) (hfits : op.Fits) (hhs : op.hashes = []) :
    ∃ s', s.apply op = .ok s' ∧ s'.cache = .empty ∧ s'.config = s.config := by
  cases op with
  | insert vote repWeight results order clock =>
    change acceptedHashes vote results order = [] at hhs
    refine ⟨s, ?_, hcache, rfl⟩
    rw [apply, VoteCache.insert, hhs]
    rfl
  | erase hash =>
    refine ⟨{ s with cache := .empty }, ?_, rfl, rfl⟩
    rw [apply, erase, hcache]
    rfl
  | clear => exact ⟨s.clear, rfl, rfl, rfl⟩
  | cleanup order clock =>
    have hord : order s.cache.byHash = [] := by
      refine length_eq_zero_iff.mp ((hfits s.cache.byHash).length_eq.trans ?_)
      rw [hcache]
      rfl
    refine ⟨s, ?_, hcache, rfl⟩
    rw [apply, hord]
    rfl

theorem applyAll_empty (config : VoteCacheConfig) (start : ℕ) {ops : List Operation}
    (hfits : ∀ op ∈ ops, op.Fits) (hhs : ∀ op ∈ ops, op.hashes = []) :
    ∃ s, applyAll config start ops = .ok s ∧ s.cache = .empty ∧ s.config = config :=
  foldlM_ok (P := fun s : VoteCache => s.cache = .empty ∧ s.config = config)
    (fun s op hop hs => by
      obtain ⟨s', happ, hcache, hcfg⟩ := apply_empty hs.1 (hfits op hop) (hhs op hop)
      exact ⟨s', happ, hcache, hcfg.trans hs.2⟩) ⟨rfl, rfl⟩

/-- The cache stays coherent, bounded and first in first out exactly if voters are allowed or no
vote is ever cached. -/
theorem applyAll_coherent_iff (config : VoteCacheConfig) (start : ℕ) (ops : List Operation)
    (hfits : ∀ op ∈ ops, op.Fits) (hcount : castCount ops ≤ 2 ^ 64) :
    (∀ p, p <+: ops → ∃ s, applyAll config start p = .ok s ∧ s.cache.Coherent ∧
      s.size ≤ config.maxSize ∧ ∀ op, p ++ [op] <+: ops →
        ∃ s', s.apply op = .ok s' ∧ KeepsOrder s s' op) ↔
    0 < config.maxVoters ∨ ∀ op ∈ ops, op.hashes = [] := by
  constructor
  · intro hcoherent
    by_contra hmax
    rw [not_or, not_forall] at hmax
    obtain ⟨hzero, op, hop⟩ := hmax
    rw [Classical.not_imp] at hop
    obtain ⟨first, hfirst⟩ : ∃ first, ops.find? (fun op => op.hashes ≠ []) = some first := by
      rw [← Option.isSome_iff_exists, List.find?_isSome]
      exact ⟨op, hop.1, decide_eq_true hop.2⟩
    obtain ⟨hhashes, before, after, rfl, hbefore⟩ := List.find?_eq_some_iff_append.mp hfirst
    have hmem : ∀ {op'}, op' ∈ before → op' ∈ before ++ first :: after := fun h =>
      List.mem_append_left _ h
    obtain ⟨s, hs, hcache, hconfig⟩ := applyAll_empty config start
      (fun op' h => hfits op' (hmem h)) fun op' h => by simpa using hbefore op' h
    obtain ⟨s1, hs1, -, -, hnext⟩ := hcoherent before (List.prefix_append _ _)
    obtain rfl : s = s1 := Except.ok.inj (hs.symm.trans hs1)
    obtain ⟨s', happly, -⟩ := hnext first ⟨after, by simp⟩
    have hnone : s.config.maxVoters = 0 := by
      rw [hconfig]
      omega
    have hpanic : s.apply first = .error .noVoters :=
      apply_noVoters hcache hnone (of_decide_eq_true hhashes)
    exact nomatch happly.symm.trans hpanic
  · intro hmax p hp
    have hle := castCount_le hp
    obtain ⟨s, hs, hvalid, hconfig⟩ := applyAll_ok start (fun op h => hfits op (hp.subset h))
      (hmax.imp_right fun hnone op h => hnone op (hp.subset h)) (hle.trans hcount)
    refine ⟨s, hs, hvalid.coherent, hconfig ▸ hvalid.size_le, fun op hop => ?_⟩
    have hmem : op ∈ ops := hop.subset (List.mem_append_right p (List.mem_singleton_self op))
    have hle' := castCount_le hop
    rw [castCount_append] at hle'
    obtain ⟨s', happly, -, -, horder⟩ := hvalid.apply_ok (hfits op hmem)
      (hmax.imp (fun hpos => hconfig ▸ hpos) fun hnone => hnone op hmem) (hle'.trans hcount)
    exact ⟨s', happly, horder⟩

/-- A vote of one representative for a block. -/
def devVote : Vote := ⟨16, ⟨1⟩, 0, [⟨1⟩]⟩

/-- A vote is cached, the entry is erased and the cache is cleared. -/
def devOperations : List Operation := [.insert devVote 10 ∅ [] fun _ => 0, .erase ⟨1⟩, .clear]

theorem applyAll_devOperations : (∀ op ∈ devOperations, op.Fits) ∧
    castCount devOperations ≤ 2 ^ 64 ∧ ∀ p, p <+: devOperations →
      ∃ s, applyAll ⟨2, 2, 100⟩ 0 p = .ok s ∧ s.cache.Coherent ∧ s.size ≤ 2 ∧
        ∀ op, p ++ [op] <+: devOperations → ∃ s', s.apply op = .ok s' ∧ KeepsOrder s s' op := by
  have hfits : ∀ op ∈ devOperations, op.Fits := by
    intro op hop
    simp only [devOperations, List.mem_cons, List.not_mem_nil, or_false] at hop
    rcases hop with rfl | rfl | rfl
    · exact (by decide : (∅ : Table BlockHash (Except VoteError Unit)).IsOrder [])
    · trivial
    · trivial
  have hcount : castCount devOperations ≤ 2 ^ 64 := by decide
  exact ⟨hfits, hcount,
    (applyAll_coherent_iff ⟨2, 2, 100⟩ 0 devOperations hfits hcount).mpr (Or.inl (by decide))⟩

/-- A cache for no voters panics at the first vote. -/
theorem apply_devVote_panics :
    apply (.new ⟨2, 0, 100⟩ 0) (.insert devVote 10 ∅ [] fun _ => 0) = .error .noVoters :=
  apply_noVoters rfl rfl (by decide)

end VoteCache

end RsNano
