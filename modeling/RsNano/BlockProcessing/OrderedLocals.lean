import RsNano.Lib.Index
import RsNano.Lib.Numbering
import RsNano.Lib.Trace
import RsNano.Ledger.DevNetwork

/-!
# The blocks of the local block broadcaster

The node keeps the blocks it has created in three indexes: by hash, in the order of insertion and by
the time of the next broadcast. A block that is inserted while it is already there gets a new place
in the sequence, but the index by time keeps its old time as well. The indexes agree in exactly
those runs in which this never happens.

The closures of `modify_entry` and `retain` are arbitrary functions, and the order in which `retain`
visits the hash map is an argument. Instants are nanoseconds.
-/

namespace RsNano

open Index Machine List

structure LocalEntry where
  block : Block
  lastBroadcast : Option Timestamp
  nextBroadcast : Timestamp
  rebroadcasts : BitVec 32
  deriving DecidableEq

/-- The `unwrap` calls of the container. -/
inductive LocalsPanic
  | entryMissing
  | timeMissing
  deriving DecidableEq, Repr

/-- Take a hash out of the list of its time, and drop the list with its last hash. -/
def removeByNextBroadcast (map : Table Timestamp (List BlockHash)) (next : Timestamp)
    (hash : BlockHash) : Except LocalsPanic (Table Timestamp (List BlockHash)) :=
  match map.get next with
  | none => .error .timeMissing
  | some hashes => .ok (withdraw map next hashes hash)

structure OrderedLocals where
  byHash : Table BlockHash LocalEntry
  sequenced : List BlockHash
  byNextBroadcast : Table Timestamp (List BlockHash)
  deriving DecidableEq

namespace OrderedLocals

def empty : OrderedLocals := ⟨∅, [], ∅⟩

variable (c : OrderedLocals)

def len : ℕ := c.sequenced.length

def contains (hash : BlockHash) : Bool := c.byHash.contains hash

def pushBack (entry : LocalEntry) : OrderedLocals where
  byHash := c.byHash.put entry.block.hash entry
  sequenced :=
    (match c.byHash.get entry.block.hash with
      | none => c.sequenced
      | some old => c.sequenced.filter (· ≠ old.block.hash)) ++ [entry.block.hash]
  byNextBroadcast := push c.byNextBroadcast entry.nextBroadcast entry.block.hash

/-- The entries of the listed hashes, up to the first one that is not due. -/
def takeDue (byHash : Table BlockHash LocalEntry) (upperBound : Timestamp) :
    List BlockHash → Except LocalsPanic (List LocalEntry)
  | [] => .ok []
  | hash :: hashes =>
    match byHash.get hash with
    | none => .error .entryMissing
    | some entry =>
      if entry.nextBroadcast ≤ upperBound then
        (takeDue byHash upperBound hashes).map (entry :: ·)
      else .ok []

/-- The hashes in the order of their next broadcast. -/
def hashesByTime : List BlockHash :=
  (c.byNextBroadcast.sortedKeys (· ≤ ·)).flatMap (listed c.byNextBroadcast)

def iterByNextBroadcast (upperBound : Timestamp) : Except LocalsPanic (List LocalEntry) :=
  takeDue c.byHash upperBound c.hashesByTime

def modifyEntry (hash : BlockHash) (f : LocalEntry → LocalEntry) :
    Except LocalsPanic OrderedLocals :=
  match c.byHash.get hash with
  | none => .ok c
  | some old =>
    let byHash := c.byHash.put hash (f old)
    if (f old).nextBroadcast = old.nextBroadcast then .ok { c with byHash }
    else do
      let byNextBroadcast ← removeByNextBroadcast c.byNextBroadcast old.nextBroadcast hash
      return { c with
        byHash, byNextBroadcast := push byNextBroadcast (f old).nextBroadcast hash }

def popFront : Except LocalsPanic (OrderedLocals × Option LocalEntry) :=
  match c.sequenced with
  | [] => .ok (c, none)
  | hash :: sequenced =>
    match c.byHash.get hash with
    | none => .error .entryMissing
    | some entry => do
      let byNextBroadcast ← removeByNextBroadcast c.byNextBroadcast entry.nextBroadcast hash
      return ({ byHash := c.byHash.del hash, sequenced, byNextBroadcast }, some entry)

/-- Remove an entry that is found under its hash from all indexes. -/
def removeEntry (hash : BlockHash) (entry : LocalEntry) : Except LocalsPanic OrderedLocals := do
  let byNextBroadcast ← removeByNextBroadcast c.byNextBroadcast entry.nextBroadcast hash
  return {
    byHash := c.byHash.del hash
    sequenced := c.sequenced.filter (· ≠ hash)
    byNextBroadcast }

def remove (hash : BlockHash) : Except LocalsPanic (OrderedLocals × Bool) :=
  match c.byHash.get hash with
  | none => .ok (c, false)
  | some entry => (c.removeEntry hash entry).map (·, true)

/-- One visit of `retain`; the closure is told the hash that is visited. -/
def retainStep (keep : BlockHash → LocalEntry → Bool) (c : OrderedLocals) (hash : BlockHash) :
    Except LocalsPanic OrderedLocals :=
  match c.byHash.get hash with
  | none => .ok c
  | some entry => if keep hash entry then .ok c else c.removeEntry hash entry

def retain (keep : BlockHash → LocalEntry → Bool) (order : List BlockHash) :
    Except LocalsPanic OrderedLocals :=
  order.foldlM (retainStep keep) c

/-- The calls that change the container. -/
inductive Operation
  | pushBack (entry : LocalEntry)
  | modifyEntry (hash : BlockHash) (f : LocalEntry → LocalEntry)
  | remove (hash : BlockHash)
  | popFront
  | retain (keep : BlockHash → LocalEntry → Bool) (order : List BlockHash)

variable (c : OrderedLocals)

def apply : Operation → Except LocalsPanic OrderedLocals
  | .pushBack entry => .ok (c.pushBack entry)
  | .modifyEntry hash f => c.modifyEntry hash f
  | .remove hash => (c.remove hash).map Prod.fst
  | .popFront => c.popFront.map Prod.fst
  | .retain keep order => c.retain keep order

/-- The hash map is visited in an order of its hashes. -/
def Allowed : Operation → Prop
  | .retain _ order => c.byHash.IsOrder order
  | _ => True

/-- A block is inserted only while it is not there. -/
def Fresh : Operation → Prop
  | .pushBack entry => c.contains entry.block.hash = false
  | _ => True

instance (c : OrderedLocals) : DecidablePred c.Allowed
  | .retain _ order => inferInstanceAs (Decidable (c.byHash.IsOrder order))
  | .pushBack _ | .modifyEntry _ _ | .remove _ | .popFront => .isTrue trivial

instance (c : OrderedLocals) : DecidablePred c.Fresh
  | .pushBack entry => inferInstanceAs (Decidable (c.contains entry.block.hash = false))
  | .modifyEntry _ _ | .remove _ | .popFront | .retain _ _ => .isTrue trivial

variable {hash : BlockHash} {entry : LocalEntry}

theorem removeByNextBroadcast_ok {map : Table Timestamp (List BlockHash)}
    {key : BlockHash → Option Timestamp} {next : Timestamp} (h : Indexes map key)
    (hkey : key hash = some next) :
    ∃ map', removeByNextBroadcast map next hash = .ok map' ∧
      Indexes map' (Function.update key hash none) := by
  obtain ⟨hashes, hget, -⟩ := h.get_of_key hkey
  refine ⟨withdraw map next hashes hash, ?_, h.withdraw hkey hget⟩
  rw [removeByNextBroadcast, hget]

variable {c}

/-- The three indexes have the same hashes, each once and under the time of its entry. -/
structure Coherent (c : OrderedLocals) : Prop where
  sequenced : c.byHash.IsOrder c.sequenced
  byNextBroadcast :
    Indexes c.byNextBroadcast (keyOf LocalEntry.nextBroadcast c.byHash)

theorem coherent_empty : empty.Coherent := by
  refine ⟨rfl, ?_⟩
  exact Indexes.empty

theorem takeDue_ok {byHash : Table BlockHash LocalEntry} {hashes : List BlockHash}
    (h : ∀ hash ∈ hashes, ∃ entry, byHash.get hash = some entry) (upperBound : Timestamp) :
    ∃ entries, takeDue byHash upperBound hashes = .ok entries := by
  induction hashes with
  | nil => exact ⟨[], rfl⟩
  | cons hash hashes ih =>
    obtain ⟨entry, hget⟩ := h hash mem_cons_self
    obtain ⟨entries, hents⟩ := ih fun hash' hmem => h hash' (mem_cons_of_mem _ hmem)
    rw [takeDue, hget]
    by_cases hdue : entry.nextBroadcast ≤ upperBound
    · refine ⟨entry :: entries, (if_pos hdue).trans ?_⟩
      rw [hents]
      rfl
    · exact ⟨[], if_neg hdue⟩

section

variable (h : c.Coherent)

include h

namespace Coherent

theorem pushBack (hnew : c.byHash.get entry.block.hash = none) :
    (c.pushBack entry).Coherent := by
  rw [OrderedLocals.pushBack, hnew]
  refine ⟨h.sequenced.put hnew, ?_⟩
  rw [keyOf_put]
  refine h.byNextBroadcast.push ?_
  rw [keyOf, hnew]
  rfl

theorem removeEntry (hget : c.byHash.get hash = some entry) :
    ∃ c', c.removeEntry hash entry = .ok c' ∧ c'.Coherent := by
  obtain ⟨map, hrem, hidx⟩ := removeByNextBroadcast_ok h.byNextBroadcast (keyOf_of_get hget)
  refine ⟨_, bind_eq_ok.mpr ⟨map, hrem, rfl⟩, h.sequenced.del hash, ?_⟩
  rw [keyOf_del]
  exact hidx

theorem modifyEntry (hash : BlockHash) (f : LocalEntry → LocalEntry) :
    ∃ c', c.modifyEntry hash f = .ok c' ∧ c'.Coherent := by
  rw [OrderedLocals.modifyEntry]
  cases hget : c.byHash.get hash with
  | none => exact ⟨c, rfl, h⟩
  | some old =>
    have hseq : (c.byHash.put hash (f old)).IsOrder c.sequenced :=
      h.sequenced.put_of_some hget (f old)
    by_cases hsame : (f old).nextBroadcast = old.nextBroadcast
    · refine ⟨_, if_pos hsame, hseq, ?_⟩
      rw [keyOf_put_of_eq hget hsame]
      exact h.byNextBroadcast
    · obtain ⟨map, hrem, hidx⟩ := removeByNextBroadcast_ok h.byNextBroadcast (keyOf_of_get hget)
      refine ⟨_, (if_neg hsame).trans (bind_eq_ok.mpr ⟨map, hrem, rfl⟩), hseq, ?_⟩
      rw [keyOf_put]
      exact hidx.relist

theorem remove (hash : BlockHash) :
    ∃ c', c.remove hash = .ok (c', c.contains hash) ∧ c'.Coherent := by
  rw [OrderedLocals.remove, contains, Table.contains]
  cases hget : c.byHash.get hash with
  | none => exact ⟨c, rfl, h⟩
  | some entry =>
    obtain ⟨c', hrem, hc'⟩ := h.removeEntry hget
    refine ⟨c', ?_, hc'⟩
    change (c.removeEntry hash entry).map (·, true) = _
    rw [hrem]
    rfl

theorem popFront :
    ∃ c', c.popFront = .ok (c', c.sequenced.head?.bind c.byHash.get) ∧ c'.Coherent := by
  rw [OrderedLocals.popFront]
  cases hseq : c.sequenced with
  | nil => exact ⟨c, rfl, h⟩
  | cons hash sequenced =>
    have hnd := h.sequenced.nodup
    have hmem := h.sequenced.mem_iff (k := hash)
    rw [hseq] at hnd hmem
    obtain ⟨entry, hget⟩ := hmem.mp mem_cons_self
    obtain ⟨map, hrem, hidx⟩ := removeByNextBroadcast_ok h.byNextBroadcast (keyOf_of_get hget)
    refine ⟨⟨c.byHash.del hash, sequenced, map⟩, ?_, ?_, ?_⟩
    · dsimp only
      rw [head?_cons, Option.bind_some, hget]
      exact bind_eq_ok.mpr ⟨map, hrem, rfl⟩
    · have hord := h.sequenced.del hash
      rw [hseq, filter_cons_of_neg (by simp)] at hord
      have hkept : sequenced.filter (· ≠ hash) = sequenced := by
        refine filter_eq_self.mpr fun x hx => ?_
        rw [decide_eq_true_iff]
        rintro rfl
        exact (nodup_cons.mp hnd).1 hx
      rw [hkept] at hord
      exact hord
    · rw [keyOf_del]
      exact hidx

theorem retain (keep : BlockHash → LocalEntry → Bool) (order : List BlockHash) :
    ∃ c', c.retain keep order = .ok c' ∧ c'.Coherent := by
  refine foldlM_ok (fun c hash _ hc => ?_) h
  rw [retainStep]
  cases hget : c.byHash.get hash with
  | none => exact ⟨c, rfl, hc⟩
  | some entry =>
    by_cases hkeep : keep hash entry = true
    · exact ⟨c, if_pos hkeep, hc⟩
    · obtain ⟨c', hrem, hc'⟩ := hc.removeEntry hget
      exact ⟨c', (if_neg hkeep).trans hrem, hc'⟩

theorem iterByNextBroadcast (upperBound : Timestamp) :
    ∃ entries, c.iterByNextBroadcast upperBound = .ok entries := by
  refine takeDue_ok (fun hash hmem => ?_) upperBound
  obtain ⟨time, -, hlist⟩ := mem_flatMap.mp hmem
  obtain ⟨entry, hget, -⟩ := keyOf_eq_some.mp (h.byNextBroadcast.lists.mem_iff.mp hlist)
  exact ⟨entry, hget⟩

/-- A fresh operation returns and keeps the indexes coherent. -/
theorem apply {op : Operation} (hnew : c.Fresh op) :
    ∃ c', c.apply op = .ok c' ∧ c'.Coherent := by
  cases op with
  | pushBack entry =>
    have hget := Option.isNone_iff_eq_none.mp (Option.isSome_eq_false_iff.mp hnew)
    exact ⟨_, rfl, h.pushBack hget⟩
  | modifyEntry hash f => exact h.modifyEntry hash f
  | remove hash =>
    obtain ⟨c', hrem, hc'⟩ := h.remove hash
    exact ⟨c', map_eq_ok.mpr ⟨_, hrem, rfl⟩, hc'⟩
  | popFront =>
    obtain ⟨c', hpop, hc'⟩ := h.popFront
    exact ⟨c', map_eq_ok.mpr ⟨_, hpop, rfl⟩, hc'⟩
  | retain keep order => exact h.retain keep order

/-- A block that is inserted once more is listed twice in the index by time. -/
theorem not_coherent_pushBack (hpresent : c.contains entry.block.hash = true) :
    ¬ (c.pushBack entry).Coherent := by
  intro hc
  obtain ⟨old, hold⟩ := Option.isSome_iff_exists.mp hpresent
  have hmem := h.byNextBroadcast.lists.mem_iff.mpr (keyOf_of_get hold)
  have hnd := hc.byNextBroadcast.nodup entry.nextBroadcast
  have hlist := hc.byNextBroadcast.lists old.nextBroadcast entry.block.hash
  rw [OrderedLocals.pushBack, push, listed_put] at hnd hlist
  rw [if_pos rfl, nodup_append] at hnd
  rw [keyOf_put, Function.update_self] at hlist
  by_cases hsame : old.nextBroadcast = entry.nextBroadcast
  · rw [hsame] at hmem
    exact hnd.2.2 _ hmem _ mem_cons_self rfl
  · rw [if_neg hsame] at hlist
    exact hsame (Option.some.inj (hlist.mp hmem)).symm

end Coherent

/-- The indexes are coherent, and neither the iteration nor an operation panics. -/
structure Sound (c : OrderedLocals) : Prop where
  coherent : c.Coherent
  iterates : ∀ upperBound, ∃ entries, c.iterByNextBroadcast upperBound = .ok entries
  returns : ∀ op, c.Allowed op → ∃ c', c.apply op = .ok c'

theorem Coherent.sound : c.Sound where
  coherent := h
  iterates := h.iterByNextBroadcast
  returns op _ := by
    by_cases hnew : c.Fresh op
    · obtain ⟨c', happ, -⟩ := h.apply hnew
      exact ⟨c', happ⟩
    · cases op with
      | pushBack entry => exact ⟨_, rfl⟩
      | _ => exact absurd trivial hnew

end

/-- An operation keeps the container sound exactly if it is fresh. -/
theorem Sound.apply_iff (h : c.Sound) {op : Operation} {c' : OrderedLocals}
    (hok : c.apply op = .ok c') : c'.Sound ↔ c.Fresh op := by
  constructor
  · intro hc'
    cases op with
    | pushBack entry =>
      cases hok
      by_contra hpresent
      exact h.coherent.not_coherent_pushBack (Bool.eq_true_of_not_eq_false hpresent) hc'.coherent
    | _ => trivial
  · intro hnew
    obtain ⟨c1, hok1, hc1⟩ := h.coherent.apply hnew
    cases hok.symm.trans hok1
    exact hc1.sound

/-- The container is sound throughout a run exactly if no block of it is inserted twice. -/
theorem trace_sound_iff {steps : List (Transition OrderedLocals Operation)}
    (h : Trace apply Allowed empty steps c) :
    (c.Sound ∧ ∀ x ∈ steps, x.before.Sound) ↔ ∀ x ∈ steps, x.before.Fresh x.operation :=
  h.forall_iff coherent_empty.sound fun _ hs _ hok => hs.apply_iff hok

/-- An entry of the dev network. -/
def devEntry (block : Block) (nextBroadcast : Timestamp) : LocalEntry :=
  ⟨block, none, nextBroadcast, 0⟩

/-- Two blocks are inserted, the first one is broadcast again later, and the second one leaves. -/
theorem trace_sound_dev :
    ∃ steps c, Trace apply Allowed empty steps c ∧ steps.length = 4 ∧
      (c.Sound ∧ ∀ x ∈ steps, x.before.Sound) := by
  have h0 : Trace apply Allowed empty [] empty := .nil
  have h1 := h0.result (.pushBack (devEntry (.state devSend) 1)) (by decide) rfl
  have h2 := h1.result (.pushBack (devEntry (.state devOpen) 1)) (by decide) rfl
  have h3 := h2.result (.modifyEntry devSend.hash fun e => { e with nextBroadcast := 2 })
    (by decide) (by decide +kernel)
  have h4 := h3.result (.remove devOpen.hash) (by decide) (by decide +kernel)
  refine ⟨_, _, h4, rfl, (trace_sound_iff h4).mpr ?_⟩
  simp only [List.nil_append, List.cons_append, List.forall_mem_cons]
  refine ⟨by decide +kernel, by decide +kernel, trivial, trivial, fun x hx => ?_⟩
  exact absurd hx List.not_mem_nil

/-- The iteration panics at a hash that is only listed. -/
theorem iterByNextBroadcast_eq_error (hnone : ∀ hash, c.byHash.get hash = none) {time : Timestamp}
    (hmem : hash ∈ listed c.byNextBroadcast time) (upperBound : Timestamp) :
    c.iterByNextBroadcast upperBound = .error .entryMissing := by
  obtain ⟨hashes, hget, -⟩ := get_of_mem_listed hmem
  have hlist : hash ∈ c.hashesByTime :=
    mem_flatMap.mpr ⟨time, (Table.mem_sortedKeys _).mpr ⟨hashes, hget⟩, hmem⟩
  rw [iterByNextBroadcast]
  cases hall : c.hashesByTime with
  | nil =>
    rw [hall] at hlist
    cases hlist
  | cons first rest => rw [takeDue, hnone]

/-- A block of the dev network is inserted at two times and then removed. Its first time stays in
the index, and the iteration panics. -/
theorem iterByNextBroadcast_devTwice :
    ∃ steps c, Trace apply Allowed empty steps c ∧
      steps.map Transition.operation =
        [.pushBack (devEntry (.state devSend) 1), .pushBack (devEntry (.state devSend) 2),
          .remove devSend.hash] ∧
      c.contains devSend.hash = false ∧ devSend.hash ∈ listed c.byNextBroadcast 1 ∧
      c.iterByNextBroadcast 1 = .error .entryMissing := by
  have h0 : Trace apply Allowed empty [] empty := .nil
  have h1 := h0.result (.pushBack (devEntry (.state devSend) 1)) (by decide) rfl
  have h2 := h1.result (.pushBack (devEntry (.state devSend) 2)) (by decide) rfl
  have h3 := h2.result (.remove devSend.hash) (by decide) (by decide +kernel)
  have hempty : ((result apply (result apply (result apply empty
      (.pushBack (devEntry (.state devSend) 1))) (.pushBack (devEntry (.state devSend) 2)))
      (.remove devSend.hash)).byHash) = ∅ := by decide +kernel
  have hlisted : devSend.hash ∈ listed (result apply (result apply (result apply empty
      (.pushBack (devEntry (.state devSend) 1))) (.pushBack (devEntry (.state devSend) 2)))
      (.remove devSend.hash)).byNextBroadcast 1 := by decide +kernel
  refine ⟨_, _, h3, rfl, by decide +kernel, hlisted, ?_⟩
  refine iterByNextBroadcast_eq_error (fun hash => ?_) hlisted 1
  rw [hempty, Table.get_empty]

end OrderedLocals

end RsNano
