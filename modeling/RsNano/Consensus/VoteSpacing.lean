import RsNano.Consensus.BlockTallies
import RsNano.Lib.Index
import RsNano.Lib.Numbering

/-!
# Vote spacing

`VoteSpacing` remembers for which blocks votes were generated recently, so that votes for
competing blocks of one root have a minimum distance in time. Entries have numbers and are listed
under their root and under their time; the sets of numbers are lists, because nothing depends on
the order of their elements. Numbers of entries wrap at 64 bits, as in the source.

Old entries are trimmed only when a vote is flagged, and a vote for a root that has an entry
changes the time of the entry and keeps its hash. If every flag follows a check that passed, the
hash is the flagged one. The entries are then the last flags of their roots, except those that had
expired when the last flag was made.
-/

namespace RsNano

namespace VoteSpacing

open Index

/-- A vote that was flagged. -/
structure Entry where
  root : Root
  hash : BlockHash
  timestamp : Timestamp
  deriving DecidableEq

/-- The places where the container can panic. -/
inductive Panic
  | entryNotFound
  | rootNotFound
  deriving DecidableEq, Repr

/-- The entries by number, with the numbers by root and by time. -/
structure EntryContainer where
  entries : Table (BitVec 64) Entry
  byRoot : Table Root (List (BitVec 64))
  byTime : Table Timestamp (List (BitVec 64))
  nextId : BitVec 64

namespace EntryContainer

/-- `EntryContainer::new`. -/
def new : EntryContainer := ⟨∅, ∅, ∅, 0⟩

def insert (c : EntryContainer) (entry : Entry) : EntryContainer where
  entries := c.entries.put c.nextId entry
  byRoot := c.byRoot.put entry.root ((listed c.byRoot entry.root).insert c.nextId)
  byTime := push c.byTime entry.timestamp c.nextId
  nextId := c.nextId + 1

/-- Remove an entry that is trimmed from the table and from the index by root. -/
def trimEntry (c : EntryContainer) (id : BitVec 64) : Except Panic EntryContainer :=
  match c.entries.get id with
  | none => .error .entryNotFound
  | some entry =>
    match c.byRoot.get entry.root with
    | none => .error .rootNotFound
    | some ids =>
      let rest := ids.filter (· ≠ id)
      .ok { c with
        entries := c.entries.del id
        byRoot := if rest.isEmpty then c.byRoot.del entry.root else c.byRoot.put entry.root rest }

/-- The times up to the cutoff, the oldest first. -/
def expiredTimes (c : EntryContainer) (cutoff : Timestamp) : List Timestamp :=
  (c.byTime.sortedKeys (· ≤ ·)).takeWhile (· ≤ cutoff)

/-- `EntryContainer::trim`. -/
def trim (c : EntryContainer) (cutoff : Timestamp) : Except Panic EntryContainer := do
  let toRemove := c.expiredTimes cutoff
  let c ← (toRemove.flatMap (listed c.byTime)).foldlM trimEntry c
  return { c with byTime := toRemove.foldl Table.del c.byTime }

/-- `remove_from_time_index`. -/
def removeFromTimeIndex (time : Timestamp) (id : BitVec 64)
    (idsByTime : Table Timestamp (List (BitVec 64))) : Table Timestamp (List (BitVec 64)) :=
  match idsByTime.get time with
  | some ids =>
    if ids.length = 1 then idsByTime.del time else idsByTime.put time (ids.filter (· ≠ id))
  | none => idsByTime

/-- `change_time_for_entry`. -/
def changeTimeForEntry (time : Timestamp) (c : EntryContainer) (id : BitVec 64) : EntryContainer :=
  match c.entries.get id with
  | some entry =>
    { c with
      entries := c.entries.put id { entry with timestamp := time }
      byTime := push (removeFromTimeIndex entry.timestamp id c.byTime) time id }
  | none => c

/-- `EntryContainer::change_time_for_root`. -/
def changeTimeForRoot (c : EntryContainer) (root : Root) (time : Timestamp) :
    EntryContainer × Bool :=
  match c.byRoot.get root with
  | some ids => (ids.foldl (changeTimeForEntry time) c, true)
  | none => (c, false)

/-- Whether a test holds for all entries with the given numbers. -/
def all (c : EntryContainer) (test : Entry → Bool) : List (BitVec 64) → Except Panic Bool
  | [] => .ok true
  | id :: ids =>
    match c.entries.get id with
    | none => .error .entryNotFound
    | some entry => if test entry then c.all test ids else .ok false

end EntryContainer

end VoteSpacing

/-- The recently flagged votes. -/
structure VoteSpacing where
  delay : ℕ
  recent : VoteSpacing.EntryContainer

namespace VoteSpacing

open Index

def new (delay : ℕ) : VoteSpacing := ⟨delay, .new⟩

/-- `VoteSpacing::votable`. -/
def votable (s : VoteSpacing) (root : Root) (hash : BlockHash) (now : Timestamp) :
    Except Panic Bool :=
  s.recent.all (fun item => hash = item.hash ∨ s.delay ≤ item.timestamp.elapsed now)
    (listed s.recent.byRoot root)

/-- `VoteSpacing::flag`. -/
def flag (s : VoteSpacing) (root : Root) (hash : BlockHash) (now : Timestamp) :
    Except Panic VoteSpacing := do
  let recent ← s.recent.trim (now - s.delay)
  let (recent, changed) := recent.changeTimeForRoot root now
  return { s with recent := if changed then recent else recent.insert ⟨root, hash, now⟩ }

def len (s : VoteSpacing) : ℕ := s.recent.entries.size

/-! ### What the container operations do -/

variable {count : ℕ}

namespace EntryContainer

/-- The entries are listed exactly under their roots and under their times, and a root has at
most one entry. -/
structure Coherent (c : EntryContainer) : Prop where
  byRoot : Indexes c.byRoot (keyOf Entry.root c.entries)
  byTime : Indexes c.byTime (keyOf Entry.timestamp c.entries)
  unique : ∀ {id id' e e'}, c.entries.get id = some e → c.entries.get id' = some e' →
    e.root = e'.root → id = id'

/-- The entry is stored. -/
def Holds (c : EntryContainer) (e : Entry) : Prop := ∃ id, c.entries.get id = some e

variable {c : EntryContainer} {e : Entry} {id : BitVec 64} {cutoff : Timestamp}

theorem trimEntry_ok (h : Indexes c.byRoot (keyOf Entry.root c.entries))
    (hget : c.entries.get id = some e) : ∃ c', c.trimEntry id = .ok c' ∧
      Indexes c'.byRoot (keyOf Entry.root c'.entries) ∧ c'.entries = c.entries.del id ∧
        c'.byTime = c.byTime ∧ c'.nextId = c.nextId := by
  obtain ⟨ids, hids, hmem⟩ := h.get_of_key (keyOf_of_get hget)
  have hidx := h.withdraw (keyOf_of_get hget) hids
  rw [withdraw_eq_of_nodup hmem (h.nodup_of_get hids), ← keyOf_del] at hidx
  refine ⟨⟨c.entries.del id, _, c.byTime, c.nextId⟩, ?_, hidx, rfl, rfl, rfl⟩
  rw [trimEntry, hget]
  dsimp only
  rw [hids]
  rfl

variable {ids : List (BitVec 64)}

/-- Entries with different numbers are trimmed together. -/
theorem trimEntries_ok (h : Indexes c.byRoot (keyOf Entry.root c.entries)) (hnd : ids.Nodup)
    (hget : ∀ id ∈ ids, ∃ e, c.entries.get id = some e) :
    ∃ c', ids.foldlM trimEntry c = .ok c' ∧ Indexes c'.byRoot (keyOf Entry.root c'.entries) ∧
      (∀ id, c'.entries.get id = if id ∈ ids then none else c.entries.get id) ∧
        c'.byTime = c.byTime ∧ c'.nextId = c.nextId := by
  refine foldlM_prefix_ok (P := fun done (c' : EntryContainer) =>
    Indexes c'.byRoot (keyOf Entry.root c'.entries) ∧
      (∀ id, c'.entries.get id = if id ∈ done then none else c.entries.get id) ∧
      c'.byTime = c.byTime ∧ c'.nextId = c.nextId) [] ?_ ⟨h, fun _ => rfl, rfl, rfl⟩
  rintro c' before id after hids ⟨hidx, hents, htime, hnext⟩
  rw [List.nil_append] at hids
  rw [hids] at hnd hget
  have hnew : id ∉ before := fun hmem =>
    (List.nodup_append.mp hnd).2.2 id hmem id List.mem_cons_self rfl
  obtain ⟨e, he⟩ := hget id (List.mem_append_right before List.mem_cons_self)
  have hst : c'.entries.get id = some e := by rw [hents, if_neg hnew, he]
  obtain ⟨c2, hc2, hidx2, hents2, htime2, hnext2⟩ := trimEntry_ok hidx hst
  refine ⟨c2, hc2, hidx2, fun id' => ?_, htime2.trans htime, hnext2.trans hnext⟩
  rw [hents2, Table.get_del, hents]
  by_cases heq : id' = id
  · simp [heq]
  · simp [heq]

theorem mem_expiredTimes {time : Timestamp} :
    time ∈ c.expiredTimes cutoff ↔ (∃ ids, c.byTime.get time = some ids) ∧ time ≤ cutoff := by
  have hfilter := Table.takeWhile_sortedKeys (· ≤ ·) c.byTime (p := (· ≤ cutoff))
    fun first second hle hsnd => by
      rw [decide_eq_true_iff] at hsnd ⊢
      exact hle.trans hsnd
  rw [expiredTimes, hfilter, List.mem_filter, Table.mem_sortedKeys, decide_eq_true_iff]

theorem nodup_expiredTimes (c : EntryContainer) (cutoff : Timestamp) :
    (c.expiredTimes cutoff).Nodup :=
  ((Table.pairwise_sortedKeys (· ≤ ·) c.byTime).imp And.right).sublist
    (List.takeWhile_sublist _)

/-- Trimming leaves exactly the entries after the cutoff. -/
theorem trim_ok (h : c.Coherent) (cutoff : Timestamp) : ∃ c', c.trim cutoff = .ok c' ∧
    c'.Coherent ∧ c'.nextId = c.nextId ∧
      ∀ id e, c'.entries.get id = some e ↔ c.entries.get id = some e ∧ cutoff < e.timestamp := by
  have hexp : ∀ id, id ∈ (c.expiredTimes cutoff).flatMap (listed c.byTime) ↔
      ∃ e, c.entries.get id = some e ∧ e.timestamp ≤ cutoff := by
    intro id
    rw [List.mem_flatMap]
    constructor
    · rintro ⟨time, htime, hmem⟩
      obtain ⟨e, he, rfl⟩ := keyOf_eq_some.mp (h.byTime.lists.mem_iff.mp hmem)
      exact ⟨e, he, (mem_expiredTimes.mp htime).2⟩
    · rintro ⟨e, he, hle⟩
      obtain ⟨ids, hids, -⟩ := h.byTime.get_of_key (keyOf_of_get he)
      exact ⟨e.timestamp, mem_expiredTimes.mpr ⟨⟨ids, hids⟩, hle⟩,
        h.byTime.lists.mem_iff.mpr (keyOf_of_get he)⟩
  have hnd : ((c.expiredTimes cutoff).flatMap (listed c.byTime)).Nodup := by
    refine List.nodup_flatMap.mpr ⟨fun time _ => h.byTime.nodup time, ?_⟩
    refine (nodup_expiredTimes c cutoff).imp fun {time time'} hne id hid hid' => hne ?_
    have := h.byTime.lists.mem_iff.mp hid
    exact Option.some.inj (this.symm.trans (h.byTime.lists.mem_iff.mp hid'))
  obtain ⟨c1, hc1, hroot, hents, htime, hnext⟩ :=
    trimEntries_ok h.byRoot hnd fun id hid => ((hexp id).mp hid).imp fun _ he => he.1
  have hst : ∀ id e, c1.entries.get id = some e ↔
      c.entries.get id = some e ∧ cutoff < e.timestamp := by
    intro id e
    rw [hents]
    split
    · next hid =>
      obtain ⟨e', he', hle⟩ := (hexp id).mp hid
      refine ⟨fun hnone => (by cases hnone), ?_⟩
      rintro ⟨he, hlt⟩
      obtain rfl : e' = e := Option.some.inj (he'.symm.trans he)
      exact absurd hlt (not_lt.mpr hle)
    · next hid =>
      refine ⟨fun he => ⟨he, not_le.mp fun hle => hid ((hexp id).mpr ⟨e, he, hle⟩)⟩, And.left⟩
  refine ⟨{ c1 with byTime := (c.expiredTimes cutoff).foldl Table.del c1.byTime },
    bind_eq_ok.mpr ⟨c1, hc1, rfl⟩, ⟨hroot, ?_, ?_⟩, hnext, hst⟩
  · refine h.byTime.restrict (cutoff < ·) (fun time ids => ?_) fun id time => ?_
    · rw [htime, Table.get_foldl_del]
      split
      · next hmem =>
        exact ⟨fun hnone => (by cases hnone),
          fun hget => absurd hget.2 (not_lt.mpr (mem_expiredTimes.mp hmem).2)⟩
      · next hmem =>
        refine ⟨fun hget => ⟨hget, not_le.mp fun hle => hmem ?_⟩, And.left⟩
        exact mem_expiredTimes.mpr ⟨⟨ids, hget⟩, hle⟩
    · simp only [keyOf_eq_some, hst]
      constructor
      · rintro ⟨e, ⟨he, hlt⟩, rfl⟩
        exact ⟨⟨e, he, rfl⟩, hlt⟩
      · rintro ⟨⟨e, he, rfl⟩, hlt⟩
        exact ⟨e, ⟨he, hlt⟩, rfl⟩
  · intro id id' e e' hid hid' hsame
    exact h.unique ((hst id e).mp hid).1 ((hst id' e').mp hid').1 hsame

/-- A root that is listed has exactly one entry. -/
theorem Coherent.eq_singleton (h : c.Coherent) {root : Root} (hget : c.byRoot.get root = some ids) :
    ∃ id e, ids = [id] ∧ c.entries.get id = some e ∧ e.root = root := by
  have hent : ∀ id ∈ ids, ∃ e, c.entries.get id = some e ∧ e.root = root := fun id hid =>
    keyOf_eq_some.mp (h.byRoot.lists.key_of_mem hget hid)
  cases ids with
  | nil => exact absurd rfl (h.byRoot.ne_nil hget)
  | cons id rest =>
    obtain ⟨e, he, hroot⟩ := hent id List.mem_cons_self
    refine ⟨id, e, ?_, he, hroot⟩
    cases rest with
    | nil => rfl
    | cons id' rest =>
      obtain ⟨e', he', hroot'⟩ := hent id' (List.mem_cons_of_mem id List.mem_cons_self)
      have hsame := h.unique he he' (hroot.trans hroot'.symm)
      have hnd := List.nodup_cons.mp (h.byRoot.nodup_of_get hget)
      rw [hsame] at hnd
      exact absurd List.mem_cons_self hnd.1

theorem Coherent.changeTimeForEntry (h : c.Coherent) (hget : c.entries.get id = some e)
    (time : Timestamp) : (changeTimeForEntry time c id).Coherent ∧
      (changeTimeForEntry time c id).entries = c.entries.put id { e with timestamp := time } := by
  rw [EntryContainer.changeTimeForEntry, hget]
  dsimp only
  refine ⟨⟨?_, ?_, ?_⟩, rfl⟩
  · rw [keyOf_put_of_eq (w := { e with timestamp := time }) hget rfl]
    exact h.byRoot
  · obtain ⟨ids, hids, hmem⟩ := h.byTime.get_of_key (keyOf_of_get hget)
    have hwithdraw := h.byTime.withdraw (keyOf_of_get hget) hids
    rw [withdraw_eq hmem] at hwithdraw
    rw [removeFromTimeIndex, hids, keyOf_put]
    exact hwithdraw.relist
  · intro id1 id2 e1 e2 h1 h2 hroot
    rcases Table.eq_or_of_get_put h1 with ⟨rfl, rfl⟩ | ⟨-, hold1⟩
    · rcases Table.eq_or_of_get_put h2 with ⟨rfl, rfl⟩ | ⟨-, hold2⟩
      · rfl
      · exact h.unique hget hold2 hroot
    · rcases Table.eq_or_of_get_put h2 with ⟨rfl, rfl⟩ | ⟨-, hold2⟩
      · exact h.unique hold1 hget hroot
      · exact h.unique hold1 hold2 hroot

theorem Coherent.insert (h : c.Coherent) (hnew : c.entries.get c.nextId = none)
    (hroot : c.byRoot.get e.root = none) : (c.insert e).Coherent := by
  have hnone : ∀ {V : Type} (f : Entry → V), keyOf f c.entries c.nextId = none := by
    intro V f
    rw [keyOf, hnew]
    rfl
  have hoth : ∀ {id e'}, c.entries.get id = some e' → e'.root ≠ e.root := by
    intro id e' hget heq
    obtain ⟨ids, hids, -⟩ := h.byRoot.get_of_key (keyOf_of_get hget)
    rw [heq, hroot] at hids
    cases hids
  refine ⟨?_, ?_, ?_⟩
  · rw [EntryContainer.insert, keyOf_put]
    exact h.byRoot.put (hnone _) (fun _ => List.mem_insert_iff) (h.byRoot.nodup _).insert
  · rw [EntryContainer.insert, keyOf_put]
    exact h.byTime.push (hnone _)
  · intro id1 id2 e1 e2 h1 h2 hsame
    rcases Table.eq_or_of_get_put h1 with ⟨rfl, rfl⟩ | ⟨-, hold1⟩
    · rcases Table.eq_or_of_get_put h2 with ⟨rfl, rfl⟩ | ⟨-, hold2⟩
      · rfl
      · exact absurd hsame.symm (hoth hold2)
    · rcases Table.eq_or_of_get_put h2 with ⟨rfl, rfl⟩ | ⟨-, hold2⟩
      · exact absurd hsame (hoth hold1)
      · exact h.unique hold1 hold2 hsame

/-- The entries come from at most `count` insertions. -/
def Numbered (count : ℕ) (c : EntryContainer) : Prop :=
  ∃ n ≤ count, c.nextId = BitVec.ofNat 64 n ∧ ∀ id e, c.entries.get id = some e → id.toNat < n

theorem Numbered.fresh (h : c.Numbered count) (hcnt : count < 2 ^ 64) :
    c.entries.get c.nextId = none := by
  obtain ⟨n, hn, hnext, hlt⟩ := h
  refine Option.eq_none_iff_forall_ne_some.mpr fun e he => ?_
  have := hlt c.nextId e he
  rw [hnext, BitVec.toNat_ofNat] at this
  omega

theorem Numbered.mono (h : c.Numbered count) : c.Numbered (count + 1) := by
  obtain ⟨n, hn, hids⟩ := h
  exact ⟨n, Nat.le_succ_of_le hn, hids⟩

theorem Numbered.insert (h : c.Numbered count) (hcnt : count < 2 ^ 64) :
    (c.insert e).Numbered (count + 1) := by
  obtain ⟨n, hn, hnext, hlt⟩ := h
  refine ⟨n + 1, Nat.succ_le_succ hn, ?_, fun id e' hget => ?_⟩
  · rw [EntryContainer.insert]
    bv_omega
  · rcases Table.eq_or_of_get_put hget with ⟨rfl, rfl⟩ | ⟨-, hold⟩
    · rw [hnext, BitVec.toNat_ofNat, Nat.mod_eq_of_lt (by omega)]
      exact Nat.lt_succ_self n
    · exact Nat.lt_succ_of_lt (hlt id e' hold)

theorem Numbered.put (h : c.Numbered count) (hget : c.entries.get id = some e) (e' : Entry)
    {c' : EntryContainer} (hents : c'.entries = c.entries.put id e')
    (hnext : c'.nextId = c.nextId) : c'.Numbered count := by
  obtain ⟨n, hn, hid, hlt⟩ := h
  refine ⟨n, hn, hnext.trans hid, fun id' e'' hget' => ?_⟩
  rw [hents] at hget'
  exact Table.forall_get_put (hlt _ _) (hlt id e hget) hget'

/-- Writing the only entry of a root leaves the entries of the others. -/
theorem holds_put {c' : EntryContainer} {new : Entry} (hents : c'.entries = c.entries.put id new)
    (hiff : ∀ id' e', c.entries.get id' = some e' → (e'.root = new.root ↔ id' = id)) (e : Entry) :
    c'.Holds e ↔ e = new ∨ (e.root ≠ new.root ∧ c.Holds e) := by
  rw [Holds, hents]
  constructor
  · rintro ⟨id', hget⟩
    rcases Table.eq_or_of_get_put hget with ⟨-, rfl⟩ | ⟨hne, hold⟩
    · exact .inl rfl
    · exact .inr ⟨fun hroot => hne ((hiff id' e hold).mp hroot), id', hold⟩
  · rintro (rfl | ⟨hroot, id', hold⟩)
    · exact ⟨id, Table.get_put_self _ _ _⟩
    · refine ⟨id', ?_⟩
      rw [Table.get_put_of_ne _ _ fun heq => hroot ((hiff id' e hold).mpr heq)]
      exact hold

/-- A test is made for all entries, unless one fails it before. -/
theorem all_ok (test : Entry → Bool) (hget : ∀ id ∈ ids, ∃ e, c.entries.get id = some e) :
    ∃ b, c.all test ids = .ok b ∧
      (b = true ↔ ∀ id ∈ ids, ∀ e, c.entries.get id = some e → test e = true) := by
  induction ids with
  | nil => exact ⟨true, rfl, iff_of_true rfl nofun⟩
  | cons id ids ih =>
    obtain ⟨e, he⟩ := hget id List.mem_cons_self
    rw [all, he]
    dsimp only
    by_cases htest : test e = true
    · obtain ⟨b, hb, hiff⟩ := ih fun id' hid' => hget id' (List.mem_cons_of_mem id hid')
      refine ⟨b, by rw [if_pos htest, hb], ?_⟩
      rw [hiff, List.forall_mem_cons, and_iff_right]
      intro e' he'
      obtain rfl : e = e' := Option.some.inj (he.symm.trans he')
      exact htest
    · refine ⟨false, by rw [if_neg htest], iff_of_false nofun fun h => htest ?_⟩
      exact h id List.mem_cons_self e he

end EntryContainer

open EntryContainer

variable {s : VoteSpacing} {root : Root} {hash : BlockHash} {now : Timestamp}

/-- A check passes if every entry of the root is for the same block or old enough. -/
theorem votable_ok (h : s.recent.Coherent) (root : Root) (hash : BlockHash) (now : Timestamp) :
    ∃ b, s.votable root hash now = .ok b ∧ (b = true ↔ ∀ e, s.recent.Holds e → e.root = root →
      hash = e.hash ∨ s.delay ≤ e.timestamp.elapsed now) := by
  have hlist : ∀ id e, s.recent.entries.get id = some e →
      (id ∈ listed s.recent.byRoot root ↔ e.root = root) := by
    intro id e he
    rw [h.byRoot.lists.mem_iff, keyOf_of_get he, Option.some.injEq]
  have hst : ∀ id ∈ listed s.recent.byRoot root, ∃ e, s.recent.entries.get id = some e :=
    fun id hid => (keyOf_eq_some.mp (h.byRoot.lists.mem_iff.mp hid)).imp fun _ => And.left
  obtain ⟨b, hb, hiff⟩ := all_ok
    (fun item => hash = item.hash ∨ s.delay ≤ item.timestamp.elapsed now) hst
  refine ⟨b, hb, hiff.trans ⟨?_, ?_⟩⟩
  · rintro hall e ⟨id, he⟩ hroot
    exact of_decide_eq_true (hall id ((hlist id e he).mpr hroot) e he)
  · intro hall id hid e he
    exact decide_eq_true (hall e ⟨id, he⟩ ((hlist id e he).mp hid))

/-- A flag replaces the entry of its root, if the entry is old or for the same block, and drops the
old entries of the others. -/
theorem flag_ok (h : s.recent.Coherent) (hnum : s.recent.Numbered count) (hcnt : count < 2 ^ 64)
    (hsame : ∀ e, s.recent.Holds e → e.root = root → now - s.delay < e.timestamp → hash = e.hash) :
    ∃ s', s.flag root hash now = .ok s' ∧ s'.delay = s.delay ∧ s'.recent.Coherent ∧
      s'.recent.Numbered (count + 1) ∧ ∀ e, s'.recent.Holds e ↔ e = ⟨root, hash, now⟩ ∨
        (e.root ≠ root ∧ s.recent.Holds e ∧ now - s.delay < e.timestamp) := by
  obtain ⟨c, hc, hcoh, hnext, hst⟩ := trim_ok h (now - s.delay)
  have hnum' : c.Numbered count := by
    obtain ⟨n, hn, hid, hlt⟩ := hnum
    exact ⟨n, hn, hnext.trans hid, fun id e he => hlt id e ((hst id e).mp he).1⟩
  have hheld : ∀ e, c.Holds e ↔ s.recent.Holds e ∧ now - s.delay < e.timestamp := by
    intro e
    simp only [EntryContainer.Holds, hst, exists_and_right]
  simp only [← hheld]
  cases hroot : c.byRoot.get root with
  | some ids =>
    obtain ⟨id, e, rfl, he, hroot'⟩ := hcoh.eq_singleton hroot
    obtain ⟨hchg, hents⟩ := hcoh.changeTimeForEntry he now
    have hhash : hash = e.hash := hsame e ⟨id, ((hst id e).mp he).1⟩ hroot' ((hst id e).mp he).2
    refine ⟨⟨s.delay, changeTimeForEntry now c id⟩, ?_, rfl, hchg, ?_, ?_⟩
    · refine bind_eq_ok.mpr ⟨c, hc, ?_⟩
      rw [changeTimeForRoot, hroot]
      rfl
    · refine (hnum'.put he _ hents ?_).mono
      rw [changeTimeForEntry, he]
    · have hnew : { e with timestamp := now } = (⟨root, hash, now⟩ : Entry) := by
        rw [hroot', ← hhash]
      rw [hnew] at hents
      refine holds_put hents fun id' e' he' => ⟨fun heq => ?_, ?_⟩
      · exact hcoh.unique he' he (heq.trans hroot'.symm)
      · rintro rfl
        obtain rfl : e' = e := Option.some.inj (he'.symm.trans he)
        exact hroot'
  | none =>
    refine ⟨⟨s.delay, c.insert ⟨root, hash, now⟩⟩, ?_, rfl,
      hcoh.insert (hnum'.fresh hcnt) hroot, hnum'.insert hcnt, ?_⟩
    · refine bind_eq_ok.mpr ⟨c, hc, ?_⟩
      rw [changeTimeForRoot, hroot]
      rfl
    · have hents : (c.insert ⟨root, hash, now⟩).entries =
          c.entries.put c.nextId ⟨root, hash, now⟩ := rfl
      refine holds_put hents fun id' e' he' => iff_of_false ?_ ?_
      · rintro rfl
        obtain ⟨ids, hids, -⟩ := hcoh.byRoot.get_of_key (keyOf_of_get he')
        cases hids.symm.trans hroot
      · rintro rfl
        cases he'.symm.trans (hnum'.fresh hcnt)

end VoteSpacing

end RsNano
