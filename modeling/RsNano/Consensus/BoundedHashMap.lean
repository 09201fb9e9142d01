import RsNano.Lib.Recent
import RsNano.Lib.Table
import RsNano.Types.Basic

/-!
# The bounded hash map

`BoundedHashMap::insert` stores a value under its key and lists the key behind a queue of all
insertions, together with the number of the insertion. While there are more entries than allowed,
the queue is shortened from the front, and an entry goes with its own insertion only.

The queue is therefore the longest recent part of the insertions that has at most `max_len`
different keys. The entries are the most recent keys with their last values, but the queue has no
bound: insertions under a stored key make it longer and never shorten it.

Numbers of insertions wrap at 64 bits, as in the source.
-/

namespace RsNano

open List Prod

/-- A map of at most `maxLen` entries, with the queue of its insertions. -/
structure BoundedHashMap (K V : Type) where
  maxLen : ℕ
  entries : Table K (V × BitVec 64)
  sequential : List (K × BitVec 64)
  nextId : BitVec 64

namespace BoundedHashMap

/-- The queue is empty while there are too many entries. -/
inductive Panic
  | queueEmpty
  deriving DecidableEq, Repr

variable {K V : Type} [DecidableEq K]

/-- `BoundedHashMap::new`. -/
def new (maxLen : ℕ) : BoundedHashMap K V := ⟨maxLen, ∅, [], 1⟩

variable (m : BoundedHashMap K V)

def len : ℕ := m.entries.size

/-- Remove the entry of a key if it comes from the given insertion. -/
def removeIfCurrent (entries : Table K (V × BitVec 64)) (key : K) (idToRemove : BitVec 64) :
    Table K (V × BitVec 64) :=
  match entries.get key with
  | some (_, id) => if id = idToRemove then entries.del key else entries
  | none => entries

/-- The loop of an insertion, over the queue. -/
def evict (maxLen : ℕ) (entries : Table K (V × BitVec 64)) :
    List (K × BitVec 64) → Except Panic (Table K (V × BitVec 64) × List (K × BitVec 64))
  | [] => if maxLen < entries.size then .error .queueEmpty else .ok (entries, [])
  | (key, id) :: rest =>
    if maxLen < entries.size then evict maxLen (removeIfCurrent entries key id) rest
    else .ok (entries, (key, id) :: rest)

theorem evict_of_le {maxLen : ℕ} {entries : Table K (V × BitVec 64)} (h : entries.size ≤ maxLen)
    (sequential : List (K × BitVec 64)) :
    evict maxLen entries sequential = .ok (entries, sequential) := by
  cases sequential with
  | nil | cons e rest => rw [evict, if_neg (Nat.not_lt.mpr h)]

/-- `BoundedHashMap::insert`, with the value that was stored under the key before. -/
def insert (key : K) (value : V) :
    Except Panic (Option V × BoundedHashMap K V) := do
  let result := m.entries.get key
  let entries := m.entries.put key (value, m.nextId)
  let (entries, sequential) ← evict m.maxLen entries (m.sequential ++ [(key, m.nextId)])
  return (result.map fst, { m with entries, sequential, nextId := m.nextId + 1 })

def get (key : K) : Option V := (m.entries.get key).map fst

def containsKey (key : K) : Bool := m.entries.contains key

theorem insert_of_evict {m : BoundedHashMap K V} {k : K} {v : V}
    {entries : Table K (V × BitVec 64)} {sequential : List (K × BitVec 64)}
    (hevict : evict m.maxLen (m.entries.put k (v, m.nextId)) (m.sequential ++ [(k, m.nextId)]) =
      .ok (entries, sequential)) :
    m.insert k v = .ok (m.get k, { m with entries, sequential, nextId := m.nextId + 1 }) := by
  rw [insert]
  simp only [hevict]
  rfl

/-- The number of elements in the map and in the queue together. -/
def total : ℕ := m.entries.size + m.sequential.length

/-- A sequence of insertions into an empty map. -/
def insertAll (maxLen : ℕ) (inserts : List (K × V)) : Except Panic (BoundedHashMap K V) :=
  inserts.foldlM (fun m kv => snd <$> m.insert kv.1 kv.2) (new maxLen)

/-! ### Windows of insertions -/

/-- Insertions with their numbers, if `next` is the number of the next one. -/
def numbered (next : BitVec 64) : List (K × V) → List (K × V × BitVec 64)
  | [] => []
  | (k, v) :: w => (k, v, next - BitVec.ofNat 64 (w.length + 1)) :: numbered next w

/-- The last item of a key in a history. -/
def lastOf {B : Type} (l : List (K × B)) (k : K) : Option B :=
  ((l.filter fun e => e.1 = k).getLast?).map snd

section

variable {B : Type} {next : BitVec 64} {w : List (K × V)} {k : K}

omit [DecidableEq K] in
theorem map_fst_numbered (next : BitVec 64) (w : List (K × V)) :
    (numbered next w).map fst = w.map fst := by
  induction w with
  | nil => rfl
  | cons e w ih =>
    rw [numbered, map_cons, ih]
    rfl

omit [DecidableEq K] in
/-- The next insertion gets the next number and leaves the others theirs. -/
theorem numbered_append (next : BitVec 64) (w : List (K × V)) (k : K) (v : V) :
    numbered (next + 1) (w ++ [(k, v)]) = numbered next w ++ [(k, v, next)] := by
  induction w with
  | nil =>
    change [(k, v, next + 1 - 1)] = [(k, v, next)]
    rw [BitVec.add_sub_cancel]
  | cons e w ih =>
    have hid : next + 1 - BitVec.ofNat 64 ((w ++ [(k, v)]).length + 1) =
        next - BitVec.ofNat 64 (w.length + 1) := by
      rw [length_append, length_singleton]
      bv_omega
    rw [cons_append, numbered, ih, hid]
    rfl

omit [DecidableEq K] in
/-- The number of an insertion is its distance from the next number. -/
theorem exists_of_mem_numbered {e : K × V × BitVec 64} (h : e ∈ numbered next w) :
    ∃ i < w.length, e.2.2 = next - BitVec.ofNat 64 (i + 1) := by
  induction w with
  | nil => cases h
  | cons x w ih =>
    rcases mem_cons.mp h with rfl | h
    · exact ⟨w.length, Nat.lt_succ_self _, rfl⟩
    · obtain ⟨i, hi, hid⟩ := ih h
      exact ⟨i, Nat.lt_succ_of_lt hi, hid⟩

omit [DecidableEq K] in
/-- Fewer than `2 ^ 64` insertions before another one have other numbers. -/
theorem ne_of_mem_numbered {e : K × V × BitVec 64} (h : e ∈ numbered next w)
    (hlen : w.length < 2 ^ 64) : e.2.2 ≠ next - BitVec.ofNat 64 (w.length + 1) := by
  obtain ⟨i, hi, hid⟩ := exists_of_mem_numbered h
  bv_omega

theorem lastOf_append (l : List (K × B)) (e : K × B) (k : K) :
    lastOf (l ++ [e]) k = if k = e.1 then some e.2 else lastOf l k := by
  rw [lastOf, filter_append]
  by_cases hk : e.1 = k
  · rw [if_pos hk.symm, filter_cons_of_pos (by simpa using hk), filter_nil, getLast?_concat]
    rfl
  · rw [if_neg (Ne.symm hk), filter_cons_of_neg (by simpa using hk), filter_nil, append_nil]
    rfl

/-- An older item counts only if its key does not come again. -/
theorem lastOf_cons (e : K × B) (l : List (K × B)) (k : K) :
    lastOf (e :: l) k = (lastOf l k).or (if e.1 = k then some e.2 else none) := by
  rw [lastOf, lastOf]
  by_cases hk : e.1 = k
  · rw [filter_cons_of_pos (by simpa using hk), if_pos hk, getLast?_cons]
    cases (l.filter fun e => e.1 = k).getLast? <;> rfl
  · rw [filter_cons_of_neg (by simpa using hk), if_neg hk, Option.or_none]

theorem lastOf_eq_none {l : List (K × B)} : lastOf l k = none ↔ k ∉ l.map fst := by
  rw [lastOf, Option.map_eq_none_iff, getLast?_eq_none_iff, filter_eq_nil_iff, mem_map]
  constructor
  · rintro h ⟨e, he, rfl⟩
    exact h e he (decide_eq_true rfl)
  · intro h e he hk
    exact h ⟨e, he, of_decide_eq_true hk⟩

theorem mem_of_lastOf {l : List (K × B)} {b : B} (h : lastOf l k = some b) : (k, b) ∈ l := by
  obtain ⟨e, hlast, rfl⟩ := Option.map_eq_some_iff.mp h
  have hmem := mem_filter.mp (mem_of_getLast? hlast)
  obtain rfl := of_decide_eq_true hmem.2
  exact hmem.1

/-- The value of the last insertion does not depend on the numbers. -/
theorem lastOf_numbered (next : BitVec 64) (w : List (K × V)) (k : K) :
    (lastOf (numbered next w) k).map fst = lastOf w k := by
  induction w with
  | nil => rfl
  | cons e w ih =>
    rw [numbered, lastOf_cons, lastOf_cons, ← ih]
    cases lastOf (numbered next w) k with
    | some b => rfl
    | none => by_cases hk : e.1 = k <;> simp [hk]

/-- The last item of a key that a suffix has is in the suffix. -/
theorem lastOf_of_suffix {l l' : List (K × B)} (h : l <:+ l') (hk : k ∈ l.map fst) :
    lastOf l' k = lastOf l k := by
  obtain ⟨d, rfl⟩ := h
  induction d with
  | nil => rfl
  | cons e d ih =>
    rw [cons_append, lastOf_cons, ih]
    cases hl : lastOf l k with
    | none => exact absurd hk (lastOf_eq_none.mp hl)
    | some b => rfl

end

/-! ### What an insertion keeps -/

/-- The map holds the insertions of a window: the queue lists them and the entries are the last
ones of their keys. -/
structure Holds (next : BitVec 64) (w : List (K × V)) (entries : Table K (V × BitVec 64))
    (sequential : List (K × BitVec 64)) : Prop where
  queue : sequential = (numbered next w).map fun e => (e.1, e.2.2)
  stored : ∀ k, entries.get k = lastOf (numbered next w) k

variable {maxLen : ℕ} {next : BitVec 64} {w : List (K × V)} {entries : Table K (V × BitVec 64)}
  {sequential : List (K × BitVec 64)}

/-- The different keys of insertions. -/
abbrev keys (w : List (K × V)) : List K := Recent.keys fst w

/-- The recent insertions, with at most `maxLen` different keys. -/
abbrev window (maxLen : ℕ) (w : List (K × V)) : List (K × V) := Recent.window fst maxLen w

namespace Holds

theorem empty : Holds (K := K) (V := V) next [] ∅ [] := ⟨rfl, fun _ => rfl⟩

/-- The oldest insertion is dropped, with its entry if its key does not come again. -/
theorem pop {e : K × V} (h : Holds next (e :: w) entries sequential)
    (hlen : w.length < 2 ^ 64) : ∃ id rest, sequential = (e.1, id) :: rest ∧
      Holds next w (removeIfCurrent entries e.1 id) rest := by
  refine ⟨next - BitVec.ofNat 64 (w.length + 1), _, h.queue, rfl, fun k => ?_⟩
  have hget := h.stored
  simp only [numbered, lastOf_cons] at hget
  rw [removeIfCurrent, hget e.1]
  cases hlast : lastOf (numbered next w) e.1 with
  | some b =>
    have hne := ne_of_mem_numbered (mem_of_lastOf hlast) hlen
    rw [Option.some_or]
    dsimp only
    rw [if_neg hne, hget k]
    by_cases hk : e.1 = k
    · rw [← hk, hlast, Option.some_or]
    · rw [if_neg hk, Option.or_none]
  | none =>
    rw [Option.none_or, if_pos rfl]
    dsimp only
    rw [if_pos rfl, Table.get_del, hget k]
    by_cases hk : e.1 = k
    · rw [if_pos hk.symm, ← hk, hlast]
    · rw [if_neg (Ne.symm hk), if_neg hk, Option.or_none]

variable (h : Holds next w entries sequential)

include h

theorem size_eq : entries.size = (keys w).length := by
  refine (Table.IsOrder.of_nodup (nodup_dedup _) fun k => ?_).length_eq.symm
  rw [h.stored, ← Option.ne_none_iff_exists', ne_eq, lastOf_eq_none, not_not, map_fst_numbered,
    mem_dedup]

theorem length_eq : sequential.length = w.length := by
  rw [h.queue, length_map, ← length_map fst, map_fst_numbered, length_map]

/-- A new insertion comes behind the others. -/
theorem push (k : K) (v : V) :
    Holds (next + 1) (w ++ [(k, v)]) (entries.put k (v, next)) (sequential ++ [(k, next)]) where
  queue := by
    rw [numbered_append, map_append, ← h.queue]
    rfl
  stored k' := by
    rw [numbered_append, lastOf_append, Table.get_put, h.stored]

/-- The loop keeps the recent insertions. -/
theorem evict (maxLen : ℕ) (hlen : w.length ≤ 2 ^ 64) :
    ∃ entries' sequential',
      BoundedHashMap.evict maxLen entries sequential = .ok (entries', sequential') ∧
        Holds next (window maxLen w) entries' sequential' := by
  induction w generalizing entries sequential with
  | nil =>
    have hsize : entries.size = 0 := h.size_eq
    exact ⟨entries, sequential, evict_of_le (by omega) sequential, h⟩
  | cons e w ih =>
    obtain ⟨id, rest, rfl, hpop⟩ := h.pop (Nat.lt_of_succ_le hlen)
    rw [BoundedHashMap.evict, h.size_eq, window, Recent.window]
    split
    · exact ih hpop (Nat.le_of_succ_le hlen)
    · exact ⟨entries, _, rfl, h⟩

end Holds

/-- The map holds the recent ones of the insertions that were made. -/
structure Represents (m : BoundedHashMap K V) (maxLen : ℕ) (inserts : List (K × V)) : Prop where
  maxLen_eq : m.maxLen = maxLen
  holds : Holds m.nextId (window maxLen inserts) m.entries m.sequential

/-- The stored keys are the most recent ones, at most `maxLen`, with their last values. -/
def KeepsRecent (m : BoundedHashMap K V) (maxLen : ℕ) (inserts : List (K × V)) : Prop :=
  ∀ k, m.get k = if k ∈ (keys inserts).rtake maxLen then lastOf inserts k else none

variable {m : BoundedHashMap K V} {inserts : List (K × V)} {n : ℕ}

namespace Represents

variable (h : m.Represents maxLen inserts)

include h

theorem insert (hlen : (window maxLen inserts).length < 2 ^ 64) (k : K) (v : V) :
    ∃ m', m.insert k v = .ok (m.get k, m') ∧ m'.Represents maxLen (inserts ++ [(k, v)]) := by
  have hle : (window maxLen inserts ++ [(k, v)]).length ≤ 2 ^ 64 := by
    rw [length_append]
    exact hlen
  obtain ⟨entries, sequential, hevict, hhold⟩ := (h.holds.push k v).evict maxLen hle
  rw [window, Recent.window_append] at hhold
  rw [← h.maxLen_eq] at hevict
  exact ⟨_, insert_of_evict hevict, h.maxLen_eq, hhold⟩

theorem total_eq :
    m.total = (keys (window maxLen inserts)).length + (window maxLen inserts).length := by
  rw [total, h.holds.size_eq, h.holds.length_eq]

theorem keepsRecent : m.KeepsRecent maxLen inserts := by
  intro k
  rw [get, h.holds.stored, lastOf_numbered, ← Recent.keys_window]
  split
  · next hk =>
    exact (lastOf_of_suffix (Recent.window_suffix maxLen inserts) (mem_dedup.mp hk)).symm
  · next hk => exact lastOf_eq_none.mpr fun hmem => hk (mem_dedup.mpr hmem)

end Represents

theorem insertAll_append (maxLen : ℕ) (inserts : List (K × V)) (k : K) (v : V) :
    insertAll maxLen (inserts ++ [(k, v)]) =
      insertAll maxLen inserts >>= fun m => snd <$> m.insert k v := by
  rw [insertAll, foldlM_append]
  simp only [foldlM_cons, foldlM_nil, bind_pure]
  rfl

theorem insertAll_append_of_ok {m' : BoundedHashMap K V} {e : K × V}
    (hm : insertAll maxLen inserts = .ok m) (hins : m.insert e.1 e.2 = .ok (m.get e.1, m')) :
    insertAll maxLen (inserts ++ [e]) = .ok m' := by
  rw [insertAll_append, hm]
  change snd <$> m.insert e.1 e.2 = _
  rw [hins]
  rfl

/-- As long as numbers do not come again in the queue, the map represents the insertions. -/
theorem represents_insertAll (maxLen : ℕ) (inserts : List (K × V))
    (hlen : ∀ p, p <+: inserts → p ≠ inserts → (window maxLen p).length < 2 ^ 64) :
    ∃ m, insertAll maxLen inserts = .ok m ∧ m.Represents maxLen inserts := by
  induction inserts using reverseRecOn with
  | nil => exact ⟨new maxLen, rfl, rfl, Holds.empty⟩
  | append_singleton inserts e ih =>
    have hprefix : inserts <+: inserts ++ [e] := prefix_append inserts [e]
    have hne : ∀ p, p <+: inserts → p ≠ inserts ++ [e] := by
      rintro p hp rfl
      have := hp.length_le
      rw [length_append, length_singleton] at this
      omega
    obtain ⟨m, hm, hrep⟩ := ih fun p hp _ => hlen p (hp.trans hprefix) (hne p hp)
    obtain ⟨m', hins, hrep'⟩ := hrep.insert (hlen inserts hprefix (hne inserts prefix_rfl)) e.1 e.2
    exact ⟨m', insertAll_append_of_ok hm hins, hrep'⟩

/-- The queue itself tells that numbers do not come again in it. -/
theorem represents_of_total (maxLen : ℕ) (inserts : List (K × V))
    (h : ∀ p, p <+: inserts → ∃ m, insertAll maxLen p = .ok m ∧ m.total < 2 ^ 64) :
    ∃ m, insertAll maxLen inserts = .ok m ∧ m.Represents maxLen inserts := by
  induction inserts using reverseRecOn with
  | nil => exact ⟨new maxLen, rfl, rfl, Holds.empty⟩
  | append_singleton inserts e ih =>
    have hprefix : inserts <+: inserts ++ [e] := prefix_append inserts [e]
    obtain ⟨m, hm, hrep⟩ := ih fun p hp => h p (hp.trans hprefix)
    obtain ⟨m', hm', htotal⟩ := h inserts hprefix
    obtain rfl : m = m' := Except.ok.inj (hm.symm.trans hm')
    rw [hrep.total_eq] at htotal
    obtain ⟨m', hins, hrep'⟩ := hrep.insert (by omega) e.1 e.2
    exact ⟨m', insertAll_append_of_ok hm hins, hrep'⟩

/-- Insertions under different keys are not more than their keys. -/
theorem length_le_of_nodup (hnd : (inserts.map fst).Nodup) (hw : w <:+: inserts)
    (hkeys : (keys w).length ≤ maxLen) : (keys w).length + w.length ≤ 2 * maxLen := by
  have hsame : keys w = w.map fst := dedup_eq_self.mpr ((hw.sublist.map fst).nodup hnd)
  rw [hsame, length_map] at hkeys ⊢
  omega

/-- The elements of the map and its queue stay below a bound exactly if no run of insertions with
at most `maxLen` different keys is too long. The keys and their values are then the most recent
ones. -/
theorem insertAll_total_le_iff (bound : ℕ → ℕ) (maxLen : ℕ) (inserts : List (K × V))
    (hbound : bound maxLen < 2 ^ 64) :
    (∀ p, p <+: inserts → ∃ m, insertAll maxLen p = .ok m ∧ m.total ≤ bound maxLen ∧
      m.KeepsRecent maxLen p) ↔
    ∀ w, w <:+: inserts → (keys w).length ≤ maxLen →
      (keys w).length + w.length ≤ bound maxLen := by
  constructor
  · intro h w hw hkeys
    obtain ⟨d, r, rfl⟩ := hw
    have hprefix : d ++ w <+: d ++ w ++ r := List.prefix_append (d ++ w) r
    obtain ⟨m, hm, hrep⟩ := represents_of_total maxLen (d ++ w) fun p hp => by
      obtain ⟨m, hm, htotal, -⟩ := h p (hp.trans hprefix)
      exact ⟨m, hm, by omega⟩
    obtain ⟨m', hm', htotal, -⟩ := h (d ++ w) hprefix
    obtain rfl : m = m' := Except.ok.inj (hm.symm.trans hm')
    rw [hrep.total_eq] at htotal
    have hsuffix : w <:+ window maxLen (d ++ w) :=
      Recent.suffix_window (List.suffix_append d w) hkeys
    have hlen := hsuffix.length_le
    have hkeys' : (keys w).length ≤ (keys (window maxLen (d ++ w))).length :=
      Recent.length_keys_le hsuffix.subset
    omega
  · intro h p hp
    have hwindow : ∀ q, q <+: inserts →
        (keys (window maxLen q)).length + (window maxLen q).length ≤ bound maxLen := by
      intro q hq
      have hsuffix : window maxLen q <:+ q := Recent.window_suffix maxLen q
      exact h _ (hsuffix.isInfix.trans hq.isInfix) (Recent.length_keys_window maxLen q)
    obtain ⟨m, hm, hrep⟩ := represents_insertAll maxLen p fun q hq _ => by
      have := hwindow q (hq.trans hp)
      omega
    refine ⟨m, hm, ?_, hrep.keepsRecent⟩
    rw [hrep.total_eq]
    exact hwindow p hp

/-- Three hashes in a map of two. -/
def devInserts : List (BlockHash × Timestamp) := [(⟨1⟩, 0), (⟨2⟩, 1), (⟨3⟩, 2)]

theorem insertAll_devInserts : 2 * 2 < 2 ^ 64 ∧ ∀ p, p <+: devInserts → ∃ m,
    insertAll 2 p = .ok m ∧ m.total ≤ 2 * 2 ∧ m.KeepsRecent 2 p := by
  have hnodup : (devInserts.map fst).Nodup := by decide
  refine ⟨by decide, ?_⟩
  exact (insertAll_total_le_iff (fun maxLen => 2 * maxLen) 2 devInserts (by decide)).mpr
    fun w hw => length_le_of_nodup hnodup hw

/-- Insertions under one key only make the queue longer. -/
theorem insertAll_replicate (k : K) (v : V) (count : ℕ) :
    ∃ m, insertAll 1 (replicate count (k, v)) = .ok m ∧ m.maxLen = 1 ∧
      m.sequential.length = count ∧ ∀ k', k' ≠ k → m.entries.get k' = none := by
  induction count with
  | zero => exact ⟨new 1, rfl, rfl, rfl, fun _ _ => rfl⟩
  | succ count ih =>
    obtain ⟨m, hm, hmax, hlen, hnone⟩ := ih
    have hord : (m.entries.put k (v, m.nextId)).IsOrder [k] := by
      refine .of_nodup (nodup_singleton k) fun k' => ?_
      rw [Table.get_put]
      by_cases hk : k' = k
      · simp [hk]
      · simp [hk, hnone k' hk]
    have hle : (m.entries.put k (v, m.nextId)).size ≤ m.maxLen := by
      rw [← hord.length_eq, hmax, length_singleton]
    have hins := insert_of_evict (evict_of_le hle (m.sequential ++ [(k, m.nextId)]))
    rw [replicate_succ']
    refine ⟨_, insertAll_append_of_ok hm hins, hmax, ?_, ?_⟩
    · rw [length_append, hlen, length_singleton]
    · intro k' hk
      rw [Table.get_put_of_ne _ _ hk]
      exact hnone k' hk

/-- No bound that depends on `maxLen` only limits the queue. -/
theorem insertAll_total_unbounded : ¬ ∃ bound : ℕ → ℕ, ∀ maxLen
    (inserts : List (BlockHash × Timestamp)), ∃ m, insertAll maxLen inserts = .ok m ∧
      m.total ≤ bound maxLen := by
  rintro ⟨bound, h⟩
  obtain ⟨m, hm, hle⟩ := h 1 (List.replicate (bound 1 + 1) (⟨1⟩, 0))
  obtain ⟨m', hm', -, hlen, -⟩ :=
    insertAll_replicate (⟨1⟩ : BlockHash) (0 : Timestamp) (bound 1 + 1)
  obtain rfl : m = m' := Except.ok.inj (hm.symm.trans hm')
  rw [total] at hle
  omega

end BoundedHashMap

end RsNano
