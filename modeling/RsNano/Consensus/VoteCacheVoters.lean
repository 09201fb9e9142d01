import RsNano.Consensus.VoteCache
import RsNano.Lib.Numbering

/-!
# The voters of a vote cache entry

The representatives are listed exactly under the weights of their votes. An entry never has as many
voters as it may have: a new voter who would fill it makes all voters with the lowest weight go,
which can be several, and can be the new voter.
-/

namespace RsNano

open Index OrderedVoters Table Option

namespace OrderedVoters

/-- The voters are stored under their representatives and listed under their weights. -/
structure Coherent (v : OrderedVoters) : Prop where
  representative_eq : ∀ {rep e}, v.byRepresentative.get rep = some e → e.representative = rep
  byWeight : Indexes v.byWeight (keyOf VoterEntry.weight v.byRepresentative)

variable {v : OrderedVoters} {rep : PublicKey} {e : VoterEntry}

theorem Coherent.empty : empty.Coherent := ⟨nofun, Indexes.empty⟩

theorem removeByWeight_indexes {byWeight : Table Amount (List PublicKey)}
    {key : PublicKey → Option Amount} {weight : Amount} (h : Indexes byWeight key)
    (hkey : key rep = some weight) :
    Indexes (removeByWeight byWeight weight rep) (Function.update key rep none) := by
  obtain ⟨reps, hget, -⟩ := h.get_of_key hkey
  rw [removeByWeight, hget]
  exact h.withdraw hkey hget

theorem len_insert (hfresh : v.find e.representative = none) : (v.insert e).len = v.len + 1 :=
  size_put_of_none e hfresh

theorem find_insert (v : OrderedVoters) (e : VoterEntry) (rep : PublicKey) :
    (v.insert e).find rep = if rep = e.representative then some e else v.find rep :=
  get_put _ _ _ _

variable (h : v.Coherent)

include h

namespace Coherent

theorem insert (hfresh : v.find e.representative = none) : (v.insert e).Coherent := by
  rw [find] at hfresh
  refine ⟨forall_get_put h.representative_eq rfl, ?_⟩
  rw [OrderedVoters.insert, hfresh]
  rw [keyOf_put]
  refine h.byWeight.push ?_
  rw [keyOf, hfresh]
  rfl

theorem modify (hget : v.find rep = some e) (vote : Vote) (weight : Amount) :
    (v.modify rep vote weight).Coherent ∧
      (v.modify rep vote weight).byRepresentative =
        v.byRepresentative.put rep { e with vote, weight } := by
  rw [find] at hget
  rw [OrderedVoters.modify, hget]
  dsimp only
  refine ⟨⟨fun hget' => ?_, ?_⟩, rfl⟩
  · have hrep : e.representative = rep := h.representative_eq hget
    exact forall_get_put (v := { e with vote, weight }) h.representative_eq hrep hget'
  · split
    · have hrem := removeByWeight_indexes h.byWeight (keyOf_of_get hget)
      rw [keyOf_put]
      exact hrem.relist
    · next hsame =>
      rw [keyOf_put_of_eq hget (not_not.mp hsame).symm]
      exact h.byWeight

/-- The lowest weight is that of some voter and of no voter more than it. -/
theorem minWeight_spec {weight : Amount} (hmin : v.minWeight = some weight) :
    (∃ rep e, v.find rep = some e ∧ e.weight = weight) ∧
      ∀ rep e, v.find rep = some e → weight ≤ e.weight := by
  constructor
  · obtain ⟨reps, hreps⟩ := (mem_sortedKeys (· ≤ ·)).mp (List.mem_of_mem_head? hmin)
    obtain ⟨rep, hrep⟩ := List.exists_mem_of_ne_nil reps (h.byWeight.ne_nil hreps)
    obtain ⟨e, he, hwt⟩ := keyOf_eq_some.mp (h.byWeight.lists.key_of_mem hreps hrep)
    exact ⟨rep, e, he, hwt⟩
  · intro rep e he
    obtain ⟨reps, hreps, -⟩ := h.byWeight.get_of_key (keyOf_of_get he)
    exact head_sortedKeys_le (· ≤ ·) hmin hreps

theorem exists_minWeight (hget : v.find rep = some e) :
    ∃ weight, v.minWeight = some weight := by
  obtain ⟨reps, hreps, -⟩ := h.byWeight.get_of_key (keyOf_of_get hget)
  have hmem := (mem_sortedKeys (· ≤ ·)).mpr ⟨reps, hreps⟩
  rw [minWeight]
  cases hkeys : v.byWeight.sortedKeys (· ≤ ·) with
  | nil =>
    rw [hkeys] at hmem
    cases hmem
  | cons weight rest => exact ⟨weight, rfl⟩

variable {weight : Amount} (hmin : v.minWeight = some weight)

include hmin

/-- All voters with the lowest weight are removed. -/
theorem find_removeLowestWeight (rep : PublicKey) (e : VoterEntry) :
    v.removeLowestWeight.find rep = some e ↔ v.find rep = some e ∧ weight < e.weight := by
  have hle := (h.minWeight_spec hmin).2
  rw [removeLowestWeight, hmin]
  dsimp only [find]
  rw [get_foldl_del]
  split
  · next hmem =>
    refine ⟨fun hnone => (by cases hnone), ?_⟩
    rintro ⟨hget, hlt⟩
    have hkey := h.byWeight.lists.mem_iff.mp hmem
    rw [keyOf_of_get hget] at hkey
    rw [some.inj hkey] at hlt
    exact absurd hlt (BitVec.lt_irrefl weight)
  · next hmem =>
    refine ⟨fun hget => ⟨hget, ?_⟩, And.left⟩
    refine BitVec.lt_of_le_ne (hle rep e hget) fun heq => hmem ?_
    rw [h.byWeight.lists.mem_iff, keyOf_of_get hget, heq]

theorem removeLowestWeight : v.removeLowestWeight.Coherent := by
  have hfind := h.find_removeLowestWeight hmin
  have hle := (h.minWeight_spec hmin).2
  refine ⟨fun hget => h.representative_eq ((hfind _ _).mp hget).1, ?_⟩
  refine h.byWeight.restrict (· ≠ weight) (fun w reps => ?_) fun rep w => ?_
  · rw [OrderedVoters.removeLowestWeight, hmin]
    rw [get_del]
    split
    · next heq => exact ⟨fun hnone => (by cases hnone), fun h => absurd heq h.2⟩
    · next hne => exact ⟨fun hget => ⟨hget, hne⟩, And.left⟩
  · rw [keyOf_eq_some, keyOf_eq_some]
    constructor
    · rintro ⟨e, he, rfl⟩
      obtain ⟨hget, hlt⟩ := (hfind rep e).mp he
      exact ⟨⟨e, hget, rfl⟩, (BitVec.ne_of_lt hlt).symm⟩
    · rintro ⟨⟨e, hget, rfl⟩, hne⟩
      exact ⟨e, (hfind rep e).mpr ⟨hget, BitVec.lt_of_le_ne (hle rep e hget) (Ne.symm hne)⟩, rfl⟩

theorem len_removeLowestWeight : v.removeLowestWeight.len < v.len := by
  have hfind := h.find_removeLowestWeight hmin
  obtain ⟨rep, e, he, hwt⟩ := (h.minWeight_spec hmin).1
  have hin : Table.KeysWithin v.removeLowestWeight.byRepresentative v.byRepresentative := by
    intro rep' hnone
    refine eq_none_iff_forall_ne_some.mpr fun e' he' => ?_
    exact nomatch hnone.symm.trans ((hfind rep' e').mp he').1
  refine hin.size_lt ?_ he
  refine eq_none_iff_forall_ne_some.mpr fun e' he' => ?_
  obtain ⟨hold, hlt⟩ := (hfind rep e').mp he'
  obtain rfl : e = e' := some.inj (he.symm.trans hold)
  rw [hwt] at hlt
  exact BitVec.lt_irrefl weight hlt

end Coherent

end OrderedVoters

namespace CacheEntry

variable {voters : OrderedVoters} {maxVoters : ℕ} {vote : Vote} {weight : Amount}

/-- The voters after a vote of a new voter, if there is room for another one. -/
def withNewVoter (voters : OrderedVoters) (vote : Vote) (weight : Amount) (maxVoters : ℕ) :
    OrderedVoters :=
  if maxVoters ≤ voters.len + 1 then
    (voters.insert ⟨vote.voter, weight, vote⟩).removeLowestWeight
  else voters.insert ⟨vote.voter, weight, vote⟩

theorem voteImpl_of_fresh (hlen : voters.len < maxVoters)
    (hfresh : voters.find vote.voter = none) (weight : Amount) :
    voteImpl voters vote weight maxVoters =
      .ok (true, withNewVoter voters vote weight maxVoters) := by
  have hlen' := len_insert (e := ⟨vote.voter, weight, vote⟩) hfresh
  rw [voteImpl, hfresh]
  dsimp only
  rw [if_pos hlen]
  rw [hlen']
  rfl

theorem voteImpl_of_find {existing : VoterEntry} (hfind : voters.find vote.voter = some existing)
    (weight : Amount) (maxVoters : ℕ) :
    ∃ updated, voteImpl voters vote weight maxVoters = .ok (updated,
      if existing.vote.unixTimestamp < vote.unixTimestamp then
        voters.modify vote.voter vote weight else voters) := by
  rw [voteImpl, hfind]
  dsimp only
  split
  · exact ⟨_, rfl⟩
  · exact ⟨_, rfl⟩

theorem coherent_withNewVoter (h : voters.Coherent) (hlen : voters.len < maxVoters)
    (hfresh : voters.find vote.voter = none) :
    (withNewVoter voters vote weight maxVoters).Coherent ∧
      (withNewVoter voters vote weight maxVoters).len < maxVoters := by
  have hins := h.insert (e := ⟨vote.voter, weight, vote⟩) hfresh
  have hlen' := len_insert (e := ⟨vote.voter, weight, vote⟩) hfresh
  rw [withNewVoter]
  split
  · obtain ⟨lowest, hmin⟩ := hins.exists_minWeight ((find_insert _ _ _).trans (if_pos rfl))
    have := hins.len_removeLowestWeight hmin
    exact ⟨hins.removeLowestWeight hmin, by omega⟩
  · exact ⟨hins, by omega⟩

/-- A vote returns, keeps the weights listed and leaves room for another voter. -/
theorem voteImpl_ok (h : voters.Coherent) (hlen : voters.len < maxVoters) (vote : Vote)
    (weight : Amount) : ∃ updated voters',
      voteImpl voters vote weight maxVoters = .ok (updated, voters') ∧ voters'.Coherent ∧
        voters'.len < maxVoters := by
  cases hfind : voters.find vote.voter with
  | none => exact ⟨true, _, voteImpl_of_fresh hlen hfind weight, coherent_withNewVoter h hlen hfind⟩
  | some existing =>
    obtain ⟨updated, himpl⟩ := voteImpl_of_find hfind weight maxVoters
    refine ⟨updated, _, himpl, ?_⟩
    split
    · obtain ⟨hmod, hents⟩ := h.modify hfind vote weight
      refine ⟨hmod, ?_⟩
      rw [len, hents, size_put_of_some _ hfind]
      exact hlen
    · exact ⟨h, hlen⟩

/-- A vote changes the voters, and the tally with them if they are counted anew. -/
theorem vote_of_voteImpl {e : CacheEntry} {updated : Bool} {voters' : OrderedVoters}
    (h : voteImpl e.voters vote weight maxVoters = .ok (updated, voters')) (now : ℕ) :
    ∃ e', e.vote vote weight maxVoters now = .ok (updated, e') ∧ e'.voters = voters' ∧
      e'.id = e.id ∧ e'.hash = e.hash := by
  rw [CacheEntry.vote, h]
  cases updated with
  | true | false => exact ⟨_, rfl, rfl, rfl, rfl⟩

/-! ### Evictions -/

/-- A vote with the weight of its representative, and the time at which it is cast. -/
structure CastVote where
  vote : Vote
  repWeight : Amount
  now : ℕ

def cast (maxVoters : ℕ) (e : CacheEntry) (c : CastVote) : Except VoteCachePanic CacheEntry :=
  Prod.snd <$> e.vote c.vote c.repWeight maxVoters c.now

/-- A sequence of votes. -/
def castAll (maxVoters : ℕ) (e : CacheEntry) (casts : List CastVote) :
    Except VoteCachePanic CacheEntry :=
  casts.foldlM (cast maxVoters) e

/-- If the vote of a new voter is stored, then it evicts at most one voter, only from a full entry,
and that voter has the lowest weight of all and less than the new one. -/
def EvictsFairly (maxVoters : ℕ) (e : CacheEntry) (c : CastVote) (e' : CacheEntry) : Prop :=
  e.voters.find c.vote.voter = none → e'.voters.find c.vote.voter ≠ none →
    ∀ rep x, e.voters.find rep = some x → e'.voters.find rep = none →
      maxVoters ≤ e.voters.len ∧ x.weight < c.repWeight ∧
        (∀ rep' x', e.voters.find rep' = some x' → x.weight ≤ x'.weight) ∧
        ∀ rep', e.voters.find rep' ≠ none → e'.voters.find rep' = none → rep' = rep

/-- The vote does not fill the entry, or it has the lowest weight. -/
def LeavesRoom (maxVoters : ℕ) (e : CacheEntry) (c : CastVote) : Prop :=
  e.voters.find c.vote.voter ≠ none ∨ e.voters.len + 1 < maxVoters ∨
    ∀ rep x, e.voters.find rep = some x → c.repWeight ≤ x.weight

variable {e e' : CacheEntry} {c : CastVote}

section

variable (h : e.voters.Coherent) (hlen : e.voters.len < maxVoters)
  (hfresh : e.voters.find c.vote.voter = none) (hcast : e.cast maxVoters c = .ok e')

include hlen

include h in
theorem cast_ok (c : CastVote) :
    ∃ e', e.cast maxVoters c = .ok e' ∧ e'.voters.Coherent ∧ e'.voters.len < maxVoters := by
  obtain ⟨updated, voters, himpl, hcoh, hlen'⟩ := voteImpl_ok h hlen c.vote c.repWeight
  obtain ⟨e', hvote, rfl, -⟩ := vote_of_voteImpl himpl c.now
  exact ⟨e', map_eq_ok.mpr ⟨(updated, e'), hvote, rfl⟩, hcoh, hlen'⟩

include hcast

include hfresh in
theorem voters_cast_of_fresh : e'.voters = withNewVoter e.voters c.vote c.repWeight maxVoters := by
  obtain ⟨e2, hvote, hvoters, -⟩ := vote_of_voteImpl
    (voteImpl_of_fresh hlen hfresh c.repWeight) c.now
  obtain ⟨⟨updated, e3⟩, hvote', rfl⟩ := map_eq_ok.mp hcast
  obtain ⟨-, rfl⟩ := Prod.mk.inj (Except.ok.inj (hvote.symm.trans hvote'))
  exact hvoters

include h

include hfresh in
/-- What is left when a new voter fills the entry: the voters above the lowest weight. -/
theorem exists_lowest (hroom : maxVoters ≤ e.voters.len + 1) :
    ∃ lowest,
      (lowest = c.repWeight ∨ ∃ rep x, e.voters.find rep = some x ∧ x.weight = lowest) ∧
      (∀ rep x, e.voters.find rep = some x → lowest ≤ x.weight ∧
        (e'.voters.find rep = none ↔ x.weight = lowest)) ∧
      (e'.voters.find c.vote.voter ≠ none ↔ lowest < c.repWeight) := by
  have hins := h.insert (e := ⟨c.vote.voter, c.repWeight, c.vote⟩) hfresh
  have hfind := find_insert e.voters ⟨c.vote.voter, c.repWeight, c.vote⟩
  have hnew := (hfind c.vote.voter).trans (if_pos rfl)
  have hoth : ∀ rep x, e.voters.find rep = some x →
      (e.voters.insert ⟨c.vote.voter, c.repWeight, c.vote⟩).find rep = some x := by
    intro rep x hx
    rw [hfind, if_neg]
    · exact hx
    · rintro rfl
      exact nomatch hx.symm.trans hfresh
  obtain ⟨lowest, hmin⟩ := hins.exists_minWeight hnew
  obtain ⟨⟨rep, x, hx, hwt⟩, hle⟩ := hins.minWeight_spec hmin
  have hleft := hins.find_removeLowestWeight hmin
  have hgone : ∀ rep x, (e.voters.insert ⟨c.vote.voter, c.repWeight, c.vote⟩).find rep = some x →
      (e'.voters.find rep = none ↔ x.weight = lowest) := by
    intro rep x hx
    rw [voters_cast_of_fresh hlen hfresh hcast, withNewVoter, if_pos hroom,
      eq_none_iff_forall_ne_some]
    constructor
    · intro hnone
      by_contra hne
      exact hnone x ((hleft rep x).mpr ⟨hx, BitVec.lt_of_le_ne (hle rep x hx) (Ne.symm hne)⟩)
    · rintro rfl x' hx'
      obtain ⟨hold, hlt⟩ := (hleft rep x').mp hx'
      obtain rfl : x = x' := some.inj (hx.symm.trans hold)
      exact BitVec.lt_irrefl _ hlt
  refine ⟨lowest, ?_, fun rep x hx => ⟨hle rep x (hoth rep x hx), hgone rep x (hoth rep x hx)⟩, ?_⟩
  · rw [hfind] at hx
    split at hx
    · obtain rfl := some.inj hx
      exact .inl hwt.symm
    · exact .inr ⟨rep, x, hx, hwt⟩
  · rw [ne_eq, hgone _ _ hnew]
    exact ⟨fun hne => BitVec.lt_of_le_ne (hle _ _ hnew) (Ne.symm hne),
      fun hlt => (BitVec.ne_of_lt hlt).symm⟩

/-- A vote that fills the entry evicts voters although the entry was not full. -/
theorem evictsFairly_iff : EvictsFairly maxVoters e c e' ↔ LeavesRoom maxVoters e c := by
  by_cases hfresh : e.voters.find c.vote.voter = none
  · by_cases hroom : e.voters.len + 1 < maxVoters
    · refine iff_of_true (fun _ _ rep x hx hgone => ?_) (.inr (.inl hroom))
      rw [voters_cast_of_fresh hlen hfresh hcast, withNewVoter, if_neg (by omega),
        find_insert] at hgone
      split at hgone
      · cases hgone
      · exact nomatch hx.symm.trans hgone
    · obtain ⟨lowest, hlow, hold, hnew⟩ := exists_lowest h hlen hfresh hcast (by omega)
      constructor
      · intro hfair
        refine .inr (.inr fun rep x hx => BitVec.not_lt.mp fun hlt => ?_)
        have hst : lowest < c.repWeight := Std.lt_of_le_of_lt (hold rep x hx).1 hlt
        obtain rfl | ⟨rep0, x0, hx0, hwt⟩ := hlow
        · exact BitVec.lt_irrefl _ hst
        · have hgone := (hold rep0 x0 hx0).2.mpr hwt
          have := (hfair hfresh (hnew.mpr hst) rep0 x0 hx0 hgone).1
          omega
      · rintro (hfind | hlt | hle)
        · exact absurd hfresh hfind
        · exact absurd hlt hroom
        · intro _ hst
          have hlt := hnew.mp hst
          obtain rfl | ⟨rep0, x0, hx0, rfl⟩ := hlow
          · exact absurd hlt (BitVec.lt_irrefl _)
          · exact absurd hlt (BitVec.not_lt.mpr (hle rep0 x0 hx0))
  · exact iff_of_true (fun hnone => absurd hnone hfresh) (.inl hfresh)

end

theorem castAll_ok (id : BitVec 64) (hash : BlockHash) (start : ℕ) (hmax : 0 < maxVoters)
    (casts : List CastVote) : ∃ e, castAll maxVoters (.new id hash start) casts = .ok e ∧
      e.voters.Coherent ∧ e.voters.len < maxVoters :=
  foldlM_ok (P := fun e : CacheEntry => e.voters.Coherent ∧ e.voters.len < maxVoters)
    (fun _ c _ he => cast_ok he.1 he.2 c) ⟨.empty, hmax⟩

/-- The votes of an entry evict as they should exactly if no vote of a new voter fills it, unless
that vote has the lowest weight. The number of voters is bounded in any case. -/
theorem castAll_evictsFairly_iff (id : BitVec 64) (hash : BlockHash) (start : ℕ) (maxVoters : ℕ)
    (hmax : 2 ≤ maxVoters) (casts : List CastVote) :
    (∀ p c, p ++ [c] <+: casts → ∃ e e', castAll maxVoters (.new id hash start) p = .ok e ∧
      e.cast maxVoters c = .ok e' ∧ e'.voters.len ≤ maxVoters ∧ EvictsFairly maxVoters e c e') ↔
    ∀ p c, p ++ [c] <+: casts → ∀ e, castAll maxVoters (.new id hash start) p = .ok e →
      LeavesRoom maxVoters e c := by
  constructor
  · intro hfair p c hp e he
    obtain ⟨e1, hcasts, hcoherent, hlen⟩ := castAll_ok id hash start (by omega : 0 < maxVoters) p
    obtain rfl : e1 = e := Except.ok.inj (hcasts.symm.trans he)
    obtain ⟨e2, e', hcasts', hcast, -, hfair⟩ := hfair p c hp
    obtain rfl : e1 = e2 := Except.ok.inj (hcasts.symm.trans hcasts')
    exact (evictsFairly_iff hcoherent hlen hcast).mp hfair
  · intro hroom p c hp
    obtain ⟨e, hcasts, hcoherent, hlen⟩ := castAll_ok id hash start (by omega : 0 < maxVoters) p
    obtain ⟨e', hcast, -, hlen'⟩ := cast_ok hcoherent hlen c
    exact ⟨e, e', hcasts, hcast, Nat.le_of_lt hlen',
      (evictsFairly_iff hcoherent hlen hcast).mpr (hroom p c hp e hcasts)⟩

/-- A vote of the representative with the given number. -/
def devCast (rep : ℕ) (weight : Amount) : CastVote := ⟨⟨16, ⟨rep⟩, 0, [⟨1⟩]⟩, weight, 0⟩

theorem castAll_devCast : 2 ≤ 3 ∧ ∀ p c, p ++ [c] <+: [devCast 1 10, devCast 2 20] →
    ∃ e e', castAll 3 (.new 0 ⟨1⟩ 0) p = .ok e ∧ e.cast 3 c = .ok e' ∧ e'.voters.len ≤ 3 ∧
      EvictsFairly 3 e c e' := by
  refine ⟨by decide, (castAll_evictsFairly_iff 0 ⟨1⟩ 0 3 (by decide) _).mpr ?_⟩
  have hfirst : (castAll 3 (.new 0 ⟨1⟩ 0) [devCast 1 10]).map (·.voters.len) = .ok 1 := by
    decide +kernel
  rintro p c hp e he
  refine .inr (.inl ?_)
  rcases p with _ | ⟨a, _ | ⟨b, p⟩⟩
  · obtain rfl := Except.ok.inj he
    decide
  · obtain rfl : a = devCast 1 10 := (List.cons_prefix_cons.mp hp).1
    rw [he] at hfirst
    have hlen : e.voters.len = 1 := Except.ok.inj hfirst
    rw [hlen]
    decide
  · have := hp.length_le
    simp at this

/-- Two voters with equal weights leave an entry for three when another voter arrives. -/
theorem cast_devCast_evicts : ∃ e e',
    castAll 3 (.new 0 ⟨1⟩ 0) [devCast 1 10, devCast 2 10] = .ok e ∧
      e.cast 3 (devCast 3 20) = .ok e' ∧ e.voters.len = 2 ∧ e'.voters.find ⟨1⟩ = none ∧
        e'.voters.find ⟨2⟩ = none ∧ ¬ EvictsFairly 3 e (devCast 3 20) e' := by
  have htest : ((castAll 3 (.new 0 ⟨1⟩ 0) [devCast 1 10, devCast 2 10]).map fun e =>
      decide (e.voters.len = 2 ∧ e.voters.find ⟨3⟩ = none ∧
        (e.voters.find ⟨1⟩).map VoterEntry.weight = some 10 ∧
        (e.voters.find ⟨2⟩).map VoterEntry.weight = some 10 ∧
        e.voters.byRepresentative.any (fun _ x => x.weight ≠ 10) = false)).toOption =
      some true := by
    decide +kernel
  obtain ⟨e, hcasts, htest⟩ := exists_eq_ok htest
  obtain ⟨hlen, hfresh, hfirst, hsecond, hall⟩ := of_decide_eq_true htest
  obtain ⟨x, hx, hweight⟩ := map_eq_some_iff.mp hfirst
  obtain ⟨y, hy, hweight'⟩ := map_eq_some_iff.mp hsecond
  obtain ⟨e1, hcasts', hcoherent, hroom⟩ := castAll_ok 0 ⟨1⟩ 0 (by decide : 0 < 3)
    [devCast 1 10, devCast 2 10]
  obtain rfl : e = e1 := Except.ok.inj (hcasts.symm.trans hcasts')
  obtain ⟨e', hcast, -⟩ := cast_ok hcoherent hroom (devCast 3 20)
  obtain ⟨lowest, hlowest, hold, -⟩ := exists_lowest hcoherent hroom hfresh hcast (by omega)
  have hten : lowest = 10 := by
    obtain rfl | ⟨rep, z, hz, rfl⟩ := hlowest
    · exact absurd (hweight ▸ (hold ⟨1⟩ x hx).1) (by decide)
    · by_contra hne
      rw [Table.any_iff.mpr ⟨rep, z, hz, decide_eq_true hne⟩] at hall
      cases hall
  refine ⟨e, e', hcasts, hcast, hlen, (hold ⟨1⟩ x hx).2.mpr (hweight.trans hten.symm),
    (hold ⟨2⟩ y hy).2.mpr (hweight'.trans hten.symm), ?_⟩
  rw [evictsFairly_iff hcoherent hroom hcast]
  rintro (hfind | hlt | hle)
  · exact hfind hfresh
  · omega
  · exact absurd (hweight ▸ hle ⟨1⟩ x hx) (by decide)

end CacheEntry

end RsNano
