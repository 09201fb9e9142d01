import RsNano.Consensus.VoteCacheVoters

/-!
# The indexes of the vote cache

The hashes of the entries are listed by id and by tally, each under the id and the current tally of
its entry. Ids grow with every new entry, so the list by id is a queue: a new entry comes last, and
the first one goes when there are too many.

An entry without voters cannot refuse a vote by weight, which is a panic. It happens if no voters
are allowed at all, and then with the first vote. Ids come again after `2 ^ 64` entries, so the
results are about fewer.
-/

namespace RsNano

open Index List Table Function

namespace CacheEntryCollection

/-- The entries are stored under their hashes, and listed exactly under their ids and under their
tallies. -/
structure Coherent (c : CacheEntryCollection) : Prop where
  hash_eq : ∀ {hash e}, c.byHash.get hash = some e → e.hash = hash
  sequential : ∀ {id hash},
    c.sequential.get id = some hash ↔ ∃ e, c.byHash.get hash = some e ∧ e.id = id
  byTally : Indexes c.byTally (keyOf CacheEntry.tally c.byHash)

variable {c : CacheEntryCollection} {hash : BlockHash} {e e' : CacheEntry}

/-! ### Tallies -/

section

variable {byTally : Table Amount (List BlockHash)} {key : BlockHash → Option Amount}
  {tally : Amount}

theorem removeByTally_ok (h : Indexes byTally key) (hkey : key hash = some tally) :
    ∃ byTally', removeByTally byTally hash tally = .ok byTally' ∧
      Indexes byTally' (update key hash none) := by
  obtain ⟨hashes, hget, hmem⟩ := h.get_of_key hkey
  refine ⟨withdraw byTally tally hashes hash, ?_, h.withdraw hkey hget⟩
  rw [removeByTally, hget, withdraw_eq hmem]
  exact (apply_ite ..).symm

theorem addByTally_indexes (h : Indexes byTally key) (hkey : key hash = none) (tally : Amount) :
    Indexes (addByTally byTally hash tally) (update key hash (some tally)) :=
  h.put hkey (fun _ => mem_insert_iff) (h.nodup tally).insert

theorem updateTally_ok (h : Indexes byTally key) (hkey : key hash = some tally)
    (newTally : Amount) : ∃ byTally', updateTally byTally hash tally newTally = .ok byTally' ∧
      Indexes byTally' (update key hash (some newTally)) := by
  rw [updateTally]
  split
  · next heq =>
    refine ⟨byTally, rfl, ?_⟩
    rw [← heq, ← hkey, update_eq_self]
    exact h
  · obtain ⟨byTally', hrem, hidx⟩ := removeByTally_ok h hkey
    have hnone : update key hash none hash = none := by rw [update_self]
    have hadd := addByTally_indexes hidx hnone newTally
    rw [update_idem] at hadd
    exact ⟨addByTally byTally' hash newTally, bind_eq_ok.mpr ⟨byTally', hrem, rfl⟩, hadd⟩

end

/-! ### Entries -/

theorem Coherent.empty : CacheEntryCollection.empty.Coherent where
  hash_eq := nofun
  sequential := ⟨nofun, fun ⟨_, h, _⟩ => nomatch h⟩
  byTally := Indexes.empty

theorem length_stored (c : CacheEntryCollection) : c.stored.length = c.len := by
  rw [len, ← length_sortedKeys (· ≤ ·)]
  refine filterMap_length_eq_length.mpr fun id hid => ?_
  obtain ⟨hash, hget⟩ := (mem_sortedKeys (· ≤ ·)).mp hid
  rw [hget]
  rfl

/-- A new entry with the highest id comes last. -/
theorem stored_insert (hnew : ∀ id hash, c.sequential.get id = some hash → id < e.id) :
    (c.insert e).stored = c.stored ++ [e.hash] := by
  rw [stored, CacheEntryCollection.insert]
  rw [sortedKeys_put, filterMap_append]
  · congr 1
    · refine filterMap_congr fun id hid => get_put_of_ne _ _ ?_
      rintro rfl
      obtain ⟨hash, hget⟩ := (mem_sortedKeys (· ≤ ·)).mp hid
      exact BitVec.lt_irrefl _ (hnew _ hash hget)
    · simp
  · intro id hash hget
    exact ⟨BitVec.le_of_lt (hnew id hash hget), BitVec.ne_of_lt (hnew id hash hget)⟩

variable (h : c.Coherent) (hget : c.byHash.get hash = some e)

include h

include hget in
theorem Coherent.get_id : c.sequential.get e.id = some hash := h.sequential.mpr ⟨e, hget, rfl⟩

include hget in
/-- An entry is changed and listed under its new tally. -/
theorem Coherent.modifyByHash (hid : e'.id = e.id) (hhash : e'.hash = e.hash)
    {f : CacheEntry → Except VoteCachePanic CacheEntry} (hf : f e = .ok e') :
    ∃ c', c.modifyByHash hash f = .ok (true, c') ∧ c'.Coherent ∧
      c'.byHash = c.byHash.put hash e' ∧ c'.sequential = c.sequential := by
  have hsame : e'.hash = hash := hhash.trans (h.hash_eq hget)
  obtain ⟨byTally, hupd, hidx⟩ := updateTally_ok h.byTally (keyOf_of_get hget) e'.tally
  refine ⟨{ c with byHash := c.byHash.put hash e', byTally }, ?_, ⟨?_, ?_, ?_⟩, rfl, rfl⟩
  · rw [CacheEntryCollection.modifyByHash, hget]
    refine bind_eq_ok.mpr ⟨e', hf, bind_eq_ok.mpr ⟨byTally, ?_, rfl⟩⟩
    rw [hsame]
    exact hupd
  · exact forall_get_put h.hash_eq hsame
  · intro id hash'
    refine h.sequential.trans (Iff.trans ?_ exists_get_put.symm)
    grind
  · rw [keyOf_put]
    exact hidx

/-- An entry with a new hash and a new id is added. -/
theorem Coherent.insert (hnew : c.byHash.get e.hash = none) (hid : c.sequential.get e.id = none) :
    (c.insert e).Coherent where
  hash_eq := forall_get_put h.hash_eq rfl
  sequential {id hash} := by
    refine Iff.trans ?_ exists_get_put.symm
    rw [← h.sequential]
    change (c.sequential.put _ _).get id = some hash ↔ _
    grind [get_put, h.sequential]
  byTally := by
    rw [CacheEntryCollection.insert, keyOf_put]
    refine addByTally_indexes h.byTally ?_ e.tally
    rw [keyOf, hnew]
    rfl

include hget in
/-- An entry is removed from the table and from both lists. -/
theorem Coherent.remove :
    ∃ byTally, removeByTally c.byTally hash e.tally = .ok byTally ∧
      (⟨c.sequential.del e.id, c.byHash.del hash, byTally⟩ : CacheEntryCollection).Coherent := by
  obtain ⟨byTally, hrem, hidx⟩ := removeByTally_ok h.byTally (keyOf_of_get hget)
  refine ⟨byTally, hrem, fun hget' => h.hash_eq (get_of_get_del hget').2, ?_, ?_⟩
  · intro id hash'
    refine Iff.trans ?_ exists_get_del.symm
    have hid := h.get_id hget
    grind [get_del, h.sequential]
  · rw [keyOf_del]
    exact hidx

/-! ### The queue of the entries -/

theorem mem_stored : hash ∈ c.stored ↔ ∃ e, c.byHash.get hash = some e := by
  rw [stored, mem_filterMap]
  constructor
  · rintro ⟨id, -, hget⟩
    obtain ⟨e, he, -⟩ := h.sequential.mp hget
    exact ⟨e, he⟩
  · rintro ⟨e, he⟩
    have hget := h.get_id he
    exact ⟨e.id, (mem_sortedKeys (· ≤ ·)).mpr ⟨hash, hget⟩, hget⟩

/-- Different ids belong to different hashes. -/
theorem Coherent.id_inj {id id' : BitVec 64} (hget : c.sequential.get id = some hash)
    (hget' : c.sequential.get id' = some hash) : id = id' := by
  obtain ⟨e, he, rfl⟩ := h.sequential.mp hget
  obtain ⟨e', he', rfl⟩ := h.sequential.mp hget'
  rw [Option.some.inj (he.symm.trans he')]

theorem nodup_stored : c.stored.Nodup := by
  have hnd := (pairwise_sortedKeys (· ≤ ·) c.sequential).imp And.right
  exact List.Nodup.filterMap (fun id id' hash hget hget' => h.id_inj hget hget') hnd

include hget in
/-- A removed entry leaves the others in their order. -/
theorem stored_del {byHash : Table BlockHash CacheEntry} {byTally : Table Amount (List BlockHash)} :
    (⟨c.sequential.del e.id, byHash, byTally⟩ : CacheEntryCollection).stored =
      c.stored.filter (· ≠ hash) := by
  rw [stored, stored]
  rw [sortedKeys_del, filter_filterMap, filterMap_filter]
  refine filterMap_congr fun id hid => ?_
  obtain ⟨hash', hhash'⟩ := (mem_sortedKeys (· ≤ ·)).mp hid
  by_cases hid : id = e.id
  · rw [hid, h.get_id hget]
    simp [Option.filter]
  · have hne : hash' ≠ hash := by
      rintro rfl
      exact hid (h.id_inj hhash' (h.get_id hget))
    rw [if_pos (decide_eq_true hid), get_del_of_ne _ hid, hhash']
    simp [Option.filter, hne]

/-- Removing an entry by its hash. -/
theorem removeByHash_ok (hash : BlockHash) :
    ∃ removed c', c.removeByHash hash = .ok (removed, c') ∧ c'.Coherent ∧
      c'.stored = c.stored.filter (· ≠ hash) ∧ c'.byHash = c.byHash.del hash ∧
        KeysWithin c'.sequential c.sequential := by
  rw [removeByHash]
  cases hget : c.byHash.get hash with
  | none =>
    refine ⟨none, c, rfl, h, ?_, (del_of_get_none hget).symm, .refl _⟩
    refine (filter_eq_self.mpr fun hash' hmem => decide_eq_true ?_).symm
    rintro rfl
    obtain ⟨e, he⟩ := (mem_stored h).mp hmem
    exact nomatch he.symm.trans hget
  | some e =>
    obtain ⟨byTally, hrem, hcoh⟩ := h.remove hget
    exact ⟨some e, _, bind_eq_ok.mpr ⟨byTally, hrem, rfl⟩, hcoh, stored_del h hget, rfl, .del _ _⟩

/-- The entry with the lowest id goes first. -/
theorem popFront_ok {rest : List BlockHash} (hst : c.stored = hash :: rest) :
    ∃ e c', c.popFront = .ok (some e, c') ∧ e.hash = hash ∧ c'.Coherent ∧ c'.stored = rest ∧
      c'.byHash = c.byHash.del hash ∧ KeysWithin c'.sequential c.sequential := by
  have hnd := nodup_stored h
  rw [hst, nodup_cons] at hnd
  obtain ⟨id, ids, hkeys, hid⟩ : ∃ id ids, c.sequential.sortedKeys (· ≤ ·) = id :: ids ∧
      c.sequential.get id = some hash := by
    cases hkeys : c.sequential.sortedKeys (· ≤ ·) with
    | nil =>
      rw [stored, hkeys] at hst
      cases hst
    | cons id ids =>
      obtain ⟨hash', hget⟩ := (mem_sortedKeys (· ≤ ·)).mp (hkeys ▸ mem_cons_self)
      rw [stored, hkeys, filterMap_cons_some hget] at hst
      rw [(cons.inj hst).1] at hget
      exact ⟨id, ids, rfl, hget⟩
  obtain ⟨e, hget, rfl⟩ := h.sequential.mp hid
  obtain ⟨byTally, hrem, hcoh⟩ := h.remove hget
  refine ⟨e, ⟨c.sequential.del e.id, c.byHash.del hash, byTally⟩, ?_, h.hash_eq hget, hcoh, ?_,
    rfl, .del _ _⟩
  · rw [popFront, hkeys]
    dsimp only [head?_cons]
    rw [hid]
    dsimp only
    rw [hget]
    exact bind_eq_ok.mpr ⟨byTally, hrem, rfl⟩
  · rw [stored_del h hget, hst, filter_cons_of_neg (by simp)]
    refine filter_eq_self.mpr fun hash' hmem => decide_eq_true ?_
    rintro rfl
    exact hnd.1 hmem

/-- Entries are removed one after the other. -/
theorem removeHashes_ok (hashes : List BlockHash) :
    ∃ c', hashes.foldlM (fun c hash => Prod.snd <$> c.removeByHash hash) c = .ok c' ∧
      c'.Coherent ∧ (∀ hash e, c'.byHash.get hash = some e ↔
        c.byHash.get hash = some e ∧ hash ∉ hashes) ∧
      c'.stored = c.stored.filter (· ∉ hashes) ∧
      KeysWithin c'.sequential c.sequential := by
  induction hashes generalizing c with
  | nil =>
    exact ⟨c, rfl, h, by simp, by simp, .refl _⟩
  | cons hash hashes ih =>
    obtain ⟨removed, c1, hrem, hcoh, hst, hdel, hin⟩ := removeByHash_ok h hash
    obtain ⟨c2, hfold, hcoh2, hents2, hst2, hin2⟩ := ih hcoh
    refine ⟨c2, ?_, hcoh2, fun hash' e => ?_, ?_, hin2.trans hin⟩
    · exact bind_eq_ok.mpr ⟨c1, map_eq_ok.mpr ⟨(removed, c1), hrem, rfl⟩, hfold⟩
    · rw [hents2, hdel, get_del]
      grind
    · rw [hst2, hst, filter_filter]
      exact filter_congr fun hash' _ => by simp [Bool.and_comm]

end CacheEntryCollection

namespace VoteCache

open CacheEntryCollection

variable {s : VoteCache} {count : ℕ} {hash : BlockHash} {e : CacheEntry}

/-- The hashes of the entries, the one that was inserted first at the front. -/
def stored (s : VoteCache) : List BlockHash := s.cache.stored

/-- The queue after a vote for a hash: a new hash comes last, and the first one goes if there are
too many. -/
def enqueue (maxSize : ℕ) (queue : List BlockHash) (hash : BlockHash) : List BlockHash :=
  if hash ∈ queue then queue
  else if maxSize < queue.length + 1 then (queue ++ [hash]).tail
  else queue ++ [hash]

/-- The order of a set in which a given hash comes first. -/
def frontOrder (first : BlockHash) (_ : Amount) (hashes : List BlockHash) : List BlockHash :=
  if first ∈ hashes then first :: hashes.erase first else hashes

/-- A cleanup removes exactly the old entries. -/
theorem cleanup_ok (h : s.cache.Coherent) {order : List BlockHash}
    (hord : s.cache.byHash.IsOrder order) (clock : BlockHash → ℕ) :
    ∃ cache, s.cleanup order clock = .ok { s with cache } ∧ cache.Coherent ∧
      (∀ hash e, cache.byHash.get hash = some e ↔
        s.cache.byHash.get hash = some e ∧ s.isOld clock e = false) ∧
      cache.stored = s.stored.filter (fun hash =>
        !(s.cache.byHash.get hash).any (s.isOld clock)) ∧
      KeysWithin cache.sequential s.cache.sequential := by
  obtain ⟨cache, hfold, hcoh, hents, hst, hin⟩ := removeHashes_ok h
    (((order.filterMap s.cache.byHash.get).filter (s.isOld clock)).map CacheEntry.hash)
  have hdel : ∀ {hash e}, s.cache.byHash.get hash = some e →
      (hash ∉ ((order.filterMap s.cache.byHash.get).filter (s.isOld clock)).map
        CacheEntry.hash ↔ s.isOld clock e = false) := by
    intro hash e hget
    rw [← Bool.not_eq_true, not_iff_not]
    simp only [mem_map, mem_filter, mem_filterMap]
    constructor
    · rintro ⟨e', ⟨⟨hash', -, hget'⟩, hold⟩, heq⟩
      obtain rfl : hash' = hash := (h.hash_eq hget').symm.trans heq
      rw [Option.some.inj (hget.symm.trans hget')]
      exact hold
    · intro hold
      exact ⟨e, ⟨⟨hash, hord.mem_iff.mpr ⟨e, hget⟩, hget⟩, hold⟩, h.hash_eq hget⟩
  refine ⟨cache, bind_eq_ok.mpr ⟨cache, hfold, rfl⟩, hcoh, fun hash e => ?_, ?_, hin⟩
  · rw [hents]
    exact ⟨fun hget => ⟨hget.1, (hdel hget.1).mp hget.2⟩,
      fun hget => ⟨hget.1, (hdel hget.1).mpr hget.2⟩⟩
  · refine hst.trans (filter_congr fun hash hmem => ?_)
    obtain ⟨e, hget⟩ := (mem_stored h).mp hmem
    rw [hget, Option.any_some, Bool.eq_iff_iff, decide_eq_true_iff, hdel hget, Bool.not_eq_true']

/-- The cache after at most `count` new entries. -/
structure Valid (count : ℕ) (s : VoteCache) : Prop where
  coherent : s.cache.Coherent
  voters : ∀ {hash e}, s.cache.byHash.get hash = some e →
    e.voters.Coherent ∧ e.voters.len < s.config.maxVoters
  numbered : ∃ n ≤ count, s.nextId = BitVec.ofNat 64 n ∧
    ∀ {id hash}, s.cache.sequential.get id = some hash → id.toNat < n
  size_le : s.size ≤ s.config.maxSize

namespace Valid

theorem new (config : VoteCacheConfig) (now : ℕ) : (VoteCache.new config now).Valid 0 where
  coherent := .empty
  voters := nofun
  numbered := ⟨0, Nat.le_refl 0, rfl, nofun⟩
  size_le := Nat.zero_le _

variable (h : s.Valid count)

include h

theorem mono {count' : ℕ} (hle : count ≤ count') : s.Valid count' := by
  obtain ⟨n, hn, hids⟩ := h.numbered
  exact { h with numbered := ⟨n, hn.trans hle, hids⟩ }

/-- Fewer than `2 ^ 64` ids are below the next one. -/
theorem lt_nextId (hcnt : count < 2 ^ 64) {id : BitVec 64}
    (hget : s.cache.sequential.get id = some hash) : id < s.nextId := by
  obtain ⟨n, hn, hnext, hlt⟩ := h.numbered
  rw [hnext, BitVec.lt_def, BitVec.toNat_ofNat, Nat.mod_eq_of_lt (by omega)]
  exact hlt hget

/-- A cache with fewer entries stays valid. -/
theorem restrict {cache : CacheEntryCollection} (hcoh : cache.Coherent)
    (hents : ∀ {hash e}, cache.byHash.get hash = some e → s.cache.byHash.get hash = some e)
    (hin : KeysWithin cache.sequential s.cache.sequential) :
    Valid count { s with cache } where
  coherent := hcoh
  voters hget := h.voters (hents hget)
  numbered := by
    obtain ⟨n, hn, hnext, hlt⟩ := h.numbered
    refine ⟨n, hn, hnext, fun hget => ?_⟩
    obtain ⟨hash, hold⟩ := hin.exists_get hget
    exact hlt hold
  size_le := hin.size_le.trans h.size_le

/-- A vote for a cached hash. -/
theorem insertImpl_of_get (hget : s.cache.byHash.get hash = some e) (vote : Vote) (weight : Amount)
    (now : ℕ) :
    ∃ s', s.insertImpl vote hash weight now = .ok s' ∧ s'.Valid count ∧
      s'.config = s.config ∧ s'.stored = s.stored := by
  obtain ⟨hvoters, hroom⟩ := h.voters hget
  obtain ⟨updated, voters, himpl, hvoters', hroom'⟩ :=
    CacheEntry.voteImpl_ok hvoters hroom vote weight
  obtain ⟨e', hvote, rfl, hid, hhash⟩ := CacheEntry.vote_of_voteImpl himpl now
  obtain ⟨cache, hmod, hcoh, hents, hseq⟩ :=
    h.coherent.modifyByHash hget hid hhash
      (f := fun existing => Prod.snd <$> existing.vote vote weight s.config.maxVoters now)
      (map_eq_ok.mpr ⟨(updated, e'), hvote, rfl⟩)
  refine ⟨{ s with cache }, ?_, ⟨hcoh, ?_, ?_, ?_⟩, rfl, ?_⟩
  · exact bind_eq_ok.mpr ⟨(true, cache), hmod, rfl⟩
  · rw [hents]
    exact forall_get_put h.voters ⟨hvoters', hroom'⟩
  · obtain ⟨n, hn, hnext, hlt⟩ := h.numbered
    refine ⟨n, hn, hnext, fun hget' => ?_⟩
    rw [hseq] at hget'
    exact hlt hget'
  · rw [size, len, hseq]
    exact h.size_le
  · rw [VoteCache.stored, CacheEntryCollection.stored, hseq]
    rfl

/-- The cache with a new entry, before the oldest one goes. -/
theorem insert_new (hcnt : count < 2 ^ 64) (hnew : s.cache.byHash.get e.hash = none)
    (hid : e.id = s.nextId) :
    (s.cache.insert e).Coherent ∧ (s.cache.insert e).stored = s.stored ++ [e.hash] ∧
      ∃ n ≤ count + 1, s.nextId + 1 = BitVec.ofNat 64 n ∧
        ∀ {id hash}, (s.cache.insert e).sequential.get id = some hash → id.toNat < n := by
  have hlt : ∀ id hash, s.cache.sequential.get id = some hash → id < e.id := by
    intro id hash hget
    rw [hid]
    exact h.lt_nextId hcnt hget
  refine ⟨h.coherent.insert hnew ?_, stored_insert hlt, ?_⟩
  · refine Option.eq_none_iff_forall_ne_some.mpr fun hash hget => ?_
    exact BitVec.lt_irrefl _ (hlt _ hash hget)
  · obtain ⟨n, hn, hnext, hold⟩ := h.numbered
    refine ⟨n + 1, Nat.succ_le_succ hn, ?_, fun hget => ?_⟩
    · bv_omega
    · rcases eq_or_of_get_put hget with ⟨rfl, -⟩ | ⟨-, hget⟩
      · rw [hid, hnext, BitVec.toNat_ofNat, Nat.mod_eq_of_lt (by omega)]
        exact Nat.lt_succ_self n
      · exact Nat.lt_succ_of_lt (hold hget)

/-- A vote for a new hash. -/
theorem insertImpl_of_fresh (hcnt : count < 2 ^ 64) (hmax : 0 < s.config.maxVoters)
    (hnew : s.cache.byHash.get hash = none) (vote : Vote) (weight : Amount) (now : ℕ) :
    ∃ s', s.insertImpl vote hash weight now = .ok s' ∧ s'.Valid (count + 1) ∧
      s'.config = s.config ∧ s'.stored = if s.config.maxSize < s.stored.length + 1 then
        (s.stored ++ [hash]).tail else s.stored ++ [hash] := by
  obtain ⟨updated, voters, himpl, hvoters, hroom⟩ := CacheEntry.voteImpl_ok .empty hmax vote weight
  obtain ⟨e, hvote, rfl, hid, hhash⟩ := CacheEntry.vote_of_voteImpl
    (e := CacheEntry.new s.nextId hash now) himpl now
  obtain rfl : e.hash = hash := hhash
  obtain ⟨hcoh, hst, n, hn, hnext, hlt⟩ := h.insert_new hcnt hnew hid
  have hmod : s.cache.modifyByHash e.hash (fun existing =>
      Prod.snd <$> existing.vote vote weight s.config.maxVoters now) = .ok (false, s.cache) := by
    rw [modifyByHash, hnew]
  have hlen : (s.cache.insert e).len = s.stored.length + 1 := by
    rw [← length_stored, hst, length_append, length_singleton]
  have hents : ∀ {hash' e'}, (s.cache.insert e).byHash.get hash' = some e' →
      e'.voters.Coherent ∧ e'.voters.len < s.config.maxVoters :=
    forall_get_put h.voters ⟨hvoters, hroom⟩
  by_cases hover : s.config.maxSize < s.stored.length + 1
  · obtain ⟨first, rest, hqueue⟩ := exists_cons_of_ne_nil
      (append_ne_nil_of_right_ne_nil s.stored (cons_ne_nil e.hash []))
    rw [hqueue] at hst
    obtain ⟨popped, cache, hpop, -, hcoh', hrest, hdel, hin⟩ := popFront_ok hcoh hst
    refine ⟨{ s with cache, nextId := s.nextId + 1 }, ?_,
      ⟨hcoh', ?_, ⟨n, hn, hnext, ?_⟩, ?_⟩, rfl, ?_⟩
    · refine bind_eq_ok.mpr ⟨(false, s.cache), hmod, bind_eq_ok.mpr ⟨(updated, e), hvote, ?_⟩⟩
      dsimp only
      rw [if_pos (hlen ▸ hover), hpop]
      rfl
    · intro hash' e' hget
      rw [hdel] at hget
      exact hents (get_of_get_del hget).2
    · intro id hash' hget
      obtain ⟨hash'', hold⟩ := hin.exists_get hget
      exact hlt hold
    · have hsize : s.stored.length ≤ s.config.maxSize := by
        rw [VoteCache.stored, length_stored]
        exact h.size_le
      have hlength := congrArg length hqueue
      rw [length_append, length_singleton, length_cons] at hlength
      rw [size, ← length_stored, hrest]
      dsimp only
      omega
    · rw [if_pos hover, hqueue]
      exact hrest
  · refine ⟨{ s with cache := s.cache.insert e, nextId := s.nextId + 1 }, ?_,
      ⟨hcoh, hents, ⟨n, hn, hnext, hlt⟩, ?_⟩, rfl, ?_⟩
    · refine bind_eq_ok.mpr ⟨(false, s.cache), hmod, bind_eq_ok.mpr ⟨(updated, e), hvote, ?_⟩⟩
      dsimp only
      rw [if_neg (hlen ▸ hover)]
      rfl
    · rw [size, hlen]
      exact Nat.not_lt.mp hover
    · rw [if_neg hover]
      exact hst

theorem insertImpl_ok (hcnt : count < 2 ^ 64) (hmax : 0 < s.config.maxVoters) (vote : Vote)
    (hash : BlockHash) (weight : Amount) (now : ℕ) :
    ∃ s', s.insertImpl vote hash weight now = .ok s' ∧ s'.Valid (count + 1) ∧
      s'.config = s.config ∧ s'.stored = enqueue s.config.maxSize s.stored hash := by
  rw [enqueue]
  cases hget : s.cache.byHash.get hash with
  | some e =>
    obtain ⟨s', hins, hval, hcfg, hst⟩ := h.insertImpl_of_get hget vote weight now
    have hmem : hash ∈ s.stored := (mem_stored h.coherent).mpr ⟨e, hget⟩
    rw [if_pos hmem]
    exact ⟨s', hins, hval.mono (Nat.le_succ count), hcfg, hst⟩
  | none =>
    have hnew : hash ∉ s.stored := by
      intro hmem
      obtain ⟨e, he⟩ := (mem_stored h.coherent).mp hmem
      exact nomatch he.symm.trans hget
    rw [if_neg hnew]
    exact h.insertImpl_of_fresh hcnt hmax hget vote weight now

/-- A vote is cached for one hash after the other. -/
theorem insertHashes_ok (vote : Vote) (weight : Amount) (clock : ℕ → ℕ) {hashes : List BlockHash}
    (hmax : 0 < s.config.maxVoters ∨ hashes = []) (i : ℕ) (hcnt : count + hashes.length ≤ 2 ^ 64) :
    ∃ s', (hashes.zipIdx i).foldlM
        (fun s (hash, i) => s.insertImpl vote hash weight (clock i)) s = .ok s' ∧
      s'.Valid (count + hashes.length) ∧ s'.config = s.config ∧
        s'.stored = hashes.foldl (enqueue s.config.maxSize) s.stored := by
  induction hashes generalizing s count i with
  | nil => exact ⟨s, rfl, h, rfl, rfl⟩
  | cons hash hashes ih =>
    have hpos := hmax.resolve_right (cons_ne_nil hash hashes)
    rw [length_cons] at hcnt ⊢
    obtain ⟨s1, hins, hval, hcfg, hst⟩ := h.insertImpl_ok (by omega) hpos vote hash weight (clock i)
    obtain ⟨s2, hfold, hval2, hcfg2, hst2⟩ := ih hval (Or.inl (hcfg ▸ hpos)) (i + 1) (by omega)
    refine ⟨s2, ?_, hval2.mono (by omega), hcfg2.trans hcfg, ?_⟩
    · exact bind_eq_ok.mpr ⟨s1, hins, hfold⟩
    · rw [hst2, hst, hcfg]
      rfl

theorem cleanup {order : List BlockHash} (hord : s.cache.byHash.IsOrder order)
    (clock : BlockHash → ℕ) :
    ∃ s', s.cleanup order clock = .ok s' ∧ s'.Valid count ∧ s'.config = s.config ∧
      s'.stored = s.stored.filter fun hash =>
        !(s.cache.byHash.get hash).any (s.isOld clock) := by
  obtain ⟨cache, hcleanup, hcoh, hents, hst, hin⟩ := cleanup_ok h.coherent hord clock
  exact ⟨{ s with cache }, hcleanup,
    h.restrict hcoh (fun hget => ((hents _ _).mp hget).1) hin, rfl, hst⟩

end Valid

end VoteCache

end RsNano
