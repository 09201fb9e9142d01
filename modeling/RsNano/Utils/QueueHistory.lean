import RsNano.Utils.FairQueue

/-!
# Histories of the fair queue

The total length is the sum of the queue lengths. With an item left, the search of the cursor ends
at a queue that is not empty: it visits the sources behind the cursor and then, from the first one
on, all sources. So every run returns, and its history fits the queues.
-/

namespace RsNano.FairQueue

open List Table Function

section

variable {S : Type*} [LinearOrder S] {keys before after : List S} {key : S}

/-- The keys from a given one on are the end of a sorted list. -/
theorem filter_le_suffix (hsort : keys.Pairwise (· < ·)) (current : S) :
    keys.filter (current ≤ ·) <:+ keys := by
  rw [← dropWhile_eq_filter hsort (fun x y hlt hx => decide_eq_true
    ((of_decide_eq_true hx).trans hlt.le)) fun _ => rfl]
  exact dropWhile_suffix _

/-- From a key of the list on there are this key and those behind it. -/
theorem filter_le_append_cons (hsort : (before ++ key :: after).Pairwise (· < ·)) :
    (before ++ key :: after).filter (key ≤ ·) = key :: after := by
  obtain ⟨-, hafter, hbef⟩ := pairwise_append.mp hsort
  have hnil : before.filter (key ≤ ·) = [] := by
    refine filter_eq_nil_iff.mpr fun x hx => ?_
    have hlt := hbef x hx key mem_cons_self
    simpa using hlt
  have hself : (key :: after).filter (key ≤ ·) = key :: after := by
    refine filter_eq_self.mpr fun x hx => ?_
    cases mem_cons.mp hx with
    | inl heq => exact decide_eq_true heq.ge
    | inr hmem => exact decide_eq_true ((pairwise_cons.mp hafter).1 x hmem).le
  rw [filter_append, hnil, hself, nil_append]

end

variable {S T : Type*} [LinearOrder S] {q q' : FairQueue S T}

/-- What waits in the queue of a source. -/
def contents (q : FairQueue S T) (source : S) : List T :=
  ((q.queues.get source).map Entry.requests).getD []

variable {key : S} {rest : List S} {trace : List (QueueEvent S T)}

theorem mem_keys : key ∈ q.keys ↔ ∃ e, q.queues.get key = some e := mem_sortedKeys (· ≤ ·)

theorem mem_keys_of_contents (h : q.contents key ≠ []) : key ∈ q.keys := by
  refine mem_keys.mpr (Option.isSome_iff_exists.mp ?_)
  by_contra hnone
  simp [contents, Option.not_isSome_iff_eq_none.mp hnone] at h

theorem sorted_keys (q : FairQueue S T) : q.keys.Pairwise (· < ·) :=
  (pairwise_sortedKeys (· ≤ ·) q.queues).imp fun h => lt_of_le_of_ne h.1 h.2

theorem length_keys (q : FairQueue S T) : q.keys.length = q.queues.size :=
  length_sortedKeys (· ≤ ·) q.queues

/-! ### The search of the cursor -/

/-- The sources behind the cursor. -/
def behind (q : FairQueue S T) : List S :=
  match q.currentQueueKey with
  | some current => (q.keys.filter (current ≤ ·)).tail
  | none => []

/-- The cursor moves to the given key. -/
def moveTo (q : FairQueue S T) (key : S) : FairQueue S T := { q with currentQueueKey := some key }

theorem behind_suffix (q : FairQueue S T) : q.behind <:+ q.keys := by
  rw [behind]
  split
  · exact (tail_suffix _).trans (filter_le_suffix q.sorted_keys _)
  · exact nil_suffix

/-- The cursor at a key is followed by the keys behind it. -/
theorem behind_eq {before after : List S} (hkeys : q.keys = before ++ key :: after)
    (hcur : q.currentQueueKey = some key) : q.behind = after := by
  have hsort := q.sorted_keys
  rw [hkeys] at hsort
  rw [behind, hcur]
  simp only [hkeys, filter_le_append_cons hsort, tail_cons]

/-- The cursor goes to the first of the sources behind it and all sources, and stays there if the
queue is not empty. -/
theorem seekStep_eq (h : q.behind ++ q.keys = key :: rest) :
    q.seekStep =
      .ok (if (q.contents key).isEmpty then .inl (q.moveTo key) else .inr (q.moveTo key)) := by
  have hnextKey : q.nextKey = q.behind.head? := by
    rw [nextKey, behind]
    cases q.currentQueueKey <;> rfl
  have hnext : (q.nextKey <|> q.keys.head?) = some key := by
    rw [hnextKey]
    simpa using congrArg head? h
  have hmem : key ∈ q.behind ++ q.keys := h ▸ mem_cons_self
  obtain ⟨e, hget⟩ := mem_keys.mp ((mem_append.mp hmem).elim (q.behind_suffix.mem ·) id)
  rw [keys] at hnext
  rw [seekStep, hnext]
  simp [hget, contents, Entry.isEmpty, moveTo]

/-- The sources that the cursor visits next are still the same after a step. -/
theorem behind_moveTo (h : q.behind ++ q.keys = key :: rest) :
    ∃ others, (q.moveTo key).behind ++ q.keys = rest ++ others := by
  cases hbehind : q.behind with
  | nil =>
    rw [hbehind] at h
    have hkeys : (q.moveTo key).keys = [] ++ key :: rest := h
    exact ⟨q.keys, congrArg (· ++ q.keys) (behind_eq hkeys rfl)⟩
  | cons key' after =>
    obtain ⟨before, hkeys⟩ := q.behind_suffix
    rw [hbehind] at h hkeys
    obtain ⟨rfl, rfl⟩ := cons_eq_cons.mp h
    refine ⟨[], ?_⟩
    rw [behind_eq (q := q.moveTo key') hkeys.symm rfl, append_nil]
    rfl

/-- The search ends at the first source whose queue is not empty. -/
theorem run_seekStep {visited : List S} {fuel i : ℕ}
    (h : q.behind ++ q.keys = visited ++ key :: rest) (hemp : ∀ k ∈ visited, q.contents k = [])
    (hitem : q.contents key ≠ []) (hfuel : visited.length < fuel) :
    Loop.run FairQueuePanic.outOfFuel (fun _ => seekStep) fuel i q = .ok (q.moveTo key) := by
  induction visited generalizing q rest fuel i with
  | nil =>
    obtain ⟨fuel, rfl⟩ := Nat.exists_eq_add_of_lt hfuel
    refine Loop.run_succ_eq_ok.mpr (.inl ?_)
    rw [seekStep_eq h]
    simp [hitem]
  | cons k visited ih =>
    obtain ⟨fuel, rfl⟩ := Nat.exists_eq_add_of_lt hfuel
    obtain ⟨others, hothers⟩ := behind_moveTo h
    refine Loop.run_succ_eq_ok.mpr (.inr ⟨q.moveTo k, ?_, ?_⟩)
    · rw [seekStep_eq h]
      simp [hemp k mem_cons_self]
    · rw [length_cons]
      exact ih (hothers.trans (append_assoc _ _ _))
        (fun k hk => hemp k (mem_cons_of_mem _ hk)) hitem (by omega)

/-- With an item left, the cursor goes to the first source whose queue is not empty. -/
theorem seekNext_ok (hitem : ∃ source, q.contents source ≠ []) :
    ∃ visited key rest, q.behind ++ q.keys = visited ++ key :: rest ∧
      (∀ k ∈ visited, q.contents k = []) ∧ q.contents key ≠ [] ∧
      q.seekNext = .ok { q with counter := 0, currentQueueKey := some key } := by
  obtain ⟨source, hsrc⟩ := hitem
  have hmem : source ∈ q.behind ++ q.keys := List.mem_append_right _ (mem_keys_of_contents hsrc)
  obtain ⟨key, hfind⟩ := Option.isSome_iff_exists.mp
    (List.find?_isSome (p := fun k => !(q.contents k).isEmpty).mpr
      ⟨source, hmem, by simpa using hsrc⟩)
  obtain ⟨hkey, visited, rest, hord, hemp⟩ := List.find?_eq_some_iff_append.mp hfind
  simp only [Bool.not_eq_true', List.isEmpty_eq_false_iff, Bool.not_not,
    List.isEmpty_iff] at hkey hemp
  refine ⟨visited, key, rest, hord, hemp, hkey, ?_⟩
  refine run_seekStep hord hemp hkey ?_
  have hlen := congrArg List.length hord
  have hbehind := q.behind_suffix.length_le
  have hkeys := q.length_keys
  simp only [List.length_append, List.length_cons] at hlen
  omega

/-! ### The operations -/

/-- The total length is the sum of the queue lengths. -/
def Counted (q : FairQueue S T) : Prop := q.totalLen = q.sumQueueLen

theorem contents_eq_of_get {source : S} {e : Entry T} (hget : q.queues.get source = some e) :
    q.contents source = e.requests := by
  rw [contents, hget]
  rfl

/-- What a queue is after its queue for one source was written. -/
theorem contents_put (source : S) (e : Entry T) (hq' : q'.queues = q.queues.put source e) :
    q'.contents = update q.contents source e.requests := by
  funext s
  rw [contents, hq', get_put]
  by_cases hs : s = source
  · rw [if_pos hs, hs, update_self]
    rfl
  · rw [if_neg hs, update_of_ne hs]
    rfl

section

variable {key : S} {e : Entry T} {item : T} {rest : List T}
  (hkey : q.currentQueueKey = some key) (hget : q.queues.get key = some e)
  (hreqs : e.requests = item :: rest)

include hkey hget hreqs

/-- Taking the item under the cursor. -/
theorem popCurrent_eq : q.popCurrent = .ok (some (key, item), { q with
      queues := q.queues.put key { e with requests := rest }
      counter := q.counter + 1
      totalLen := q.totalLen - 1 }) := by
  simp only [popCurrent, hkey, hget, Entry.pop, hreqs]

theorem popCurrent_ok (hq : q.Counted) :
    ∃ q', q.popCurrent = .ok (some (key, item), q') ∧ q'.Counted ∧
      q'.contents = update q.contents key rest ∧ q'.totalLen + 1 = q.totalLen := by
  have hsum := sumBy_put_of_some { e with requests := rest } (fun _ e => e.len) hget
  have hle := le_sumBy (fun _ e => e.len) hget
  have hlen : e.len = rest.length + 1 := by rw [Entry.len, hreqs, length_cons]
  rw [Counted, sumQueueLen] at hq
  refine ⟨_, popCurrent_eq hkey hget hreqs, ?_, ?_, ?_⟩
  · change q.totalLen - 1 = (q.queues.put key { e with requests := rest }).sumBy _
    simp only [Entry.len] at hsum hlen hq ⊢
    omega
  · exact contents_put key { e with requests := rest } rfl
  · change q.totalLen - 1 + 1 = q.totalLen
    omega

end

/-- A push writes the queue of its source, with one more item if there is room. -/
theorem push_eq (q : FairQueue S T) (source : S) (item : T) : ∃ (e : Entry T) (added : Bool),
    q.push source item = ({ q with
      queues := q.queues.put source e
      totalLen := q.totalLen + added.toNat }, added) ∧
    e.requests = q.contents source ++ (if added then [item] else []) ∧
    ∀ e0, q.queues.get source = some e0 → e.priority = e0.priority := by
  generalize hent : (q.queues.get source).getD
    (.new (q.maxSizeQuery source) (q.priorityQuery source)) = entry
  have hcts : entry.requests = q.contents source := by
    rw [← hent, contents]
    cases q.queues.get source <;> rfl
  have hprio : ∀ e0, q.queues.get source = some e0 → entry.priority = e0.priority := by
    intro e0 hget
    rw [← hent, hget, Option.getD_some]
  by_cases hfull : entry.requests.length < entry.maxSize
  · refine ⟨{ entry with requests := entry.requests ++ [item] }, true, ?_, ?_, hprio⟩
    · rw [push, hent]
      simp only [Entry.push, if_pos hfull]
      rfl
    · rw [hcts, if_pos rfl]
  · refine ⟨entry, false, ?_, ?_, hprio⟩
    · rw [push, hent]
      simp only [Entry.push, if_neg hfull]
      rfl
    · rw [hcts, if_neg nofun, append_nil]

theorem fits_push (htrace : Fits trace q.contents) (source : S) (item : T) :
    Fits (trace ++ if (q.push source item).2 then [.pushed source item] else [])
      (q.push source item).1.contents := by
  obtain ⟨e, added, hpush, hreqs, -⟩ := q.push_eq source item
  rw [hpush, contents_put source e rfl, hreqs]
  cases added with
  | true => exact htrace.push source item
  | false => simpa using htrace

section

variable (hq : q.Counted) (htrace : Fits trace q.contents)

include hq

theorem exists_item_of_pos (hpos : q.totalLen ≠ 0) : ∃ source, q.contents source ≠ [] := by
  by_contra hnone
  have hall : ∀ source e, q.queues.get source = some e → e.len = 0 := by
    intro source e hget
    by_contra hne
    refine hnone ⟨source, fun hemp => hne ?_⟩
    rw [contents_eq_of_get hget] at hemp
    rw [Entry.len, hemp, length_nil]
  refine hpos (hq.trans ?_)
  rw [sumQueueLen, sumBy_congr hall]
  exact Multiset.sum_map_zero

/-- Where `next` takes its item: the cursor stays while the priority allows it, or goes to the first
source whose queue is not empty. -/
theorem exists_cursor (hpos : q.totalLen ≠ 0) :
    ∃ key counter e,
    q.next = popCurrent { q with currentQueueKey := some key, counter } ∧
      q.queues.get key = some e ∧ e.requests ≠ [] ∧
      (q.currentQueueKey = some key ∧ counter = q.counter ∧ q.counter < e.priority ∨
        counter = 0 ∧ ∃ visited rest, q.behind ++ q.keys = visited ++ key :: rest ∧
          ∀ k ∈ visited, q.contents k = []) := by
  rw [next, if_neg hpos]
  by_cases hseek : q.shouldSeek = true
  · obtain ⟨visited, key, rest, hord, hemp, hitem, hrun⟩ := seekNext_ok (exists_item_of_pos hq hpos)
    cases hget : q.queues.get key with
    | none => simp [contents, hget] at hitem
    | some e =>
      rw [contents_eq_of_get hget] at hitem
      refine ⟨key, 0, e, ?_, hget, hitem, .inr ⟨rfl, visited, rest, hord, hemp⟩⟩
      rw [if_pos hseek, hrun]
      rfl
  · rw [if_neg hseek]
    rw [shouldSeek] at hseek
    cases hkey : q.currentQueueKey with
    | none => simp [hkey] at hseek
    | some key =>
      cases hget : q.queues.get key with
      | none => simp [hkey, hget] at hseek
      | some e =>
        simp only [hkey, hget, Bool.or_eq_true, decide_eq_true_eq, not_or, Entry.isEmpty,
          List.isEmpty_iff, not_le] at hseek
        refine ⟨key, q.counter, e, ?_, hget, hseek.1, .inl ⟨rfl, rfl, hseek.2⟩⟩
        rw [← hkey]
        rfl

/-- `next` returns an item exactly if there is one, from the front of its queue. -/
theorem next_ok :
    (q.totalLen = 0 ∧ q.next = .ok (none, q)) ∨
      ∃ source item rest q', q.next = .ok (some (source, item), q') ∧ q'.Counted ∧
        q.contents source = item :: rest ∧
        q'.contents = update q.contents source rest ∧ q'.totalLen + 1 = q.totalLen := by
  by_cases hzero : q.totalLen = 0
  · exact .inl ⟨hzero, if_pos hzero⟩
  · obtain ⟨key, counter, e, hnext, hget, hne, -⟩ := exists_cursor hq hzero
    obtain ⟨item, rest, hreqs⟩ := exists_cons_of_ne_nil hne
    obtain ⟨q', hpop, hq', hcts, hlen⟩ := popCurrent_ok
      (q := { q with currentQueueKey := some key, counter }) rfl hget hreqs hq
    refine .inr ⟨key, item, rest, q', hnext.trans hpop, hq', ?_, hcts, hlen⟩
    rw [contents_eq_of_get hget, hreqs]

theorem counted_push (source : S) (item : T) : (q.push source item).1.Counted := by
  rw [Counted, sumQueueLen] at hq
  obtain ⟨e, added, hpush, hreqs, -⟩ := q.push_eq source item
  have hsum : (q.queues.put source e).sumBy (fun _ e => e.len) + (q.contents source).length =
      e.len + q.queues.sumBy (fun _ e => e.len) := by
    cases hget : q.queues.get source with
    | none => simp [contents, hget, sumBy_put_of_none _ _ hget]
    | some old =>
      rw [contents_eq_of_get hget]
      exact sumBy_put_of_some e (fun _ e => e.len) hget
  have hlen : e.len = (q.contents source).length + added.toNat := by
    rw [Entry.len, hreqs]
    cases added <;> simp
  rw [hpush]
  change q.totalLen + added.toNat = (q.queues.put source e).sumBy _
  omega

include htrace

theorem nextBatchLoop_ok {count : ℕ} (hle : count ≤ q.totalLen) (result : List (S × T)) :
    ∃ items q', nextBatchLoop count result q = .ok (result ++ items, q') ∧ q'.Counted ∧
      items.length = count ∧ q'.totalLen + count = q.totalLen ∧
      Fits (trace ++ items.map fun x => .returned x.1 x.2) q'.contents := by
  induction count generalizing q trace result with
  | zero =>
    refine ⟨[], q, ?_, hq, rfl, rfl, ?_⟩
    · rw [append_nil]
      rfl
    · rw [map_nil, append_nil]
      exact htrace
  | succ count ih =>
    obtain ⟨hzero, -⟩ | ⟨source, item, rest, q1, hnext, hq1, hcts, hupd, hlen⟩ := next_ok hq
    · omega
    · have htrace1 := htrace.pop hcts
      rw [← hupd] at htrace1
      obtain ⟨items, q2, hloop, hq2, hlength, hlen2, htrace2⟩ :=
        ih hq1 htrace1 (by omega) (result ++ [(source, item)])
      refine ⟨(source, item) :: items, q2, ?_, hq2, ?_, by omega, ?_⟩
      · rw [nextBatchLoop, hnext, append_cons]
        exact hloop
      · rw [length_cons, hlength]
      · rw [map_cons, append_cons]
        exact htrace2

/-- A batch has as many items as there are, up to the given number. -/
theorem nextBatch_ok (maxCount : ℕ) :
    ∃ items q', q.nextBatch maxCount = .ok (items, q') ∧ q'.Counted ∧
      items.length = min q.len maxCount ∧ q'.len + items.length = q.len ∧
      Fits (trace ++ items.map fun x => .returned x.1 x.2) q'.contents := by
  obtain ⟨items, q', hloop, hq', hlength, hlen, htrace'⟩ :=
    nextBatchLoop_ok hq htrace (Nat.min_le_left q.len maxCount) []
  refine ⟨items, q', hloop, hq', hlength, ?_, htrace'⟩
  rw [hlength]
  exact hlen

theorem remove_ok (key : S) :
    ∃ q', q.remove key = .ok q' ∧ q'.Counted ∧ Fits (trace ++ [.removed key]) q'.contents := by
  have hfits := htrace.remove key
  rw [Counted, sumQueueLen] at hq
  cases hget : q.queues.get key with
  | none =>
    refine ⟨q, ?_, hq, ?_⟩
    · rw [remove, hget]
    · have hnil : q.contents key = [] := by rw [contents, hget]; rfl
      rw [← hnil, update_eq_self] at hfits
      exact hfits
  | some e =>
    have hsum := sumBy_del_of_some (fun _ e => e.len) hget
    have hremd : q.remove key = .ok { q with
        queues := q.queues.del key
        totalLen := q.totalLen - e.len
        currentQueueKey := none } := by
      simp only [remove, hget]
      rw [if_neg (by omega)]
    refine ⟨_, hremd, ?_, ?_⟩
    · change q.totalLen - e.len = (q.queues.del key).sumBy _
      omega
    · have hcts : (FairQueue.contents { q with
          queues := q.queues.del key
          totalLen := q.totalLen - e.len
          currentQueueKey := none }) = update q.contents key [] := by
        funext s
        rw [contents, get_del]
        by_cases hs : s = key
        · rw [if_pos hs, hs, update_self]
          rfl
        · rw [if_neg hs, update_of_ne hs]
          rfl
      rw [hcts]
      exact hfits

/-! ### Runs -/

/-- The operations that change a queue. -/
inductive Operation (S T : Type*)
  | push (source : S) (item : T)
  | next
  | nextBatch (maxCount : ℕ)
  | remove (key : S)
  | clear

/-- Perform an operation, and say what can be observed. -/
def apply (q : FairQueue S T) :
    Operation S T → Except FairQueuePanic (FairQueue S T × List (QueueEvent S T))
  | .push source item =>
    let (q, added) := q.push source item
    .ok (q, if added then [.pushed source item] else [])
  | .next => do
    let (item, q) ← q.next
    return (q, item.toList.map fun x => .returned x.1 x.2)
  | .nextBatch maxCount => do
    let (items, q) ← q.nextBatch maxCount
    return (q, items.map fun x => .returned x.1 x.2)
  | .remove key => do
    let q ← q.remove key
    return (q, [.removed key])
  | .clear => .ok (q.clear, [.cleared])

/-- Perform operations one after the other, with the history so far. -/
def run : List (Operation S T) → FairQueue S T → List (QueueEvent S T) →
    Except FairQueuePanic (FairQueue S T × List (QueueEvent S T))
  | [], q, trace => .ok (q, trace)
  | op :: ops, q, trace => do
    let (q, events) ← q.apply op
    run ops q (trace ++ events)

/-- Every operation returns, and keeps the total length and the history right. -/
theorem apply_ok (op : Operation S T) :
    ∃ q' events, q.apply op = .ok (q', events) ∧ q'.Counted ∧
      Fits (trace ++ events) q'.contents := by
  cases op with
  | push source item => exact ⟨_, _, rfl, counted_push hq source item, fits_push htrace source item⟩
  | next =>
    obtain ⟨-, hnext⟩ | ⟨source, item, rest, q1, hnext, hq1, hcts, hupd, -⟩ := next_ok hq
    · refine ⟨q, [], ?_, hq, ?_⟩
      · rw [apply, hnext]
        rfl
      · rw [append_nil]
        exact htrace
    · refine ⟨q1, [.returned source item], ?_, hq1, ?_⟩
      · rw [apply, hnext]
        rfl
      · rw [hupd]
        exact htrace.pop hcts
  | nextBatch maxCount =>
    obtain ⟨items, q1, hbatch, hq1, -, -, htrace1⟩ := nextBatch_ok hq htrace maxCount
    refine ⟨q1, _, ?_, hq1, htrace1⟩
    rw [apply, hbatch]
    rfl
  | remove key =>
    obtain ⟨q1, hrem, hq1, htrace1⟩ := remove_ok hq htrace key
    refine ⟨q1, _, ?_, hq1, htrace1⟩
    rw [apply, hrem]
    rfl
  | clear => exact ⟨q.clear, _, rfl, rfl, Fits.clear trace⟩

theorem run_ok (ops : List (Operation S T)) :
    ∃ q' trace', run ops q trace = .ok (q', trace') ∧ q'.Counted ∧ Fits trace' q'.contents := by
  induction ops generalizing q trace with
  | nil => exact ⟨q, trace, rfl, hq, htrace⟩
  | cons op ops ih =>
    obtain ⟨q1, events, happ, hq1, htrace1⟩ := apply_ok hq htrace op
    obtain ⟨q2, trace2, hrun, hq2, htrace2⟩ := ih hq1 htrace1
    refine ⟨q2, trace2, ?_, hq2, htrace2⟩
    rw [run, happ]
    exact hrun

end

/-- Every run returns. After it the length is the sum of the queue lengths, `next` returns an item
exactly if the length is not zero, and a batch takes the items it should, all of them if it may.
For each source, and since its queue was last dropped, the pushed items are those that were
returned, in the order in which they were pushed, and those that still wait. -/
theorem run_fair (maxSizeQuery priorityQuery : S → ℕ) (ops : List (Operation S T)) :
    ∃ q trace, run ops (new maxSizeQuery priorityQuery) [] = .ok (q, trace) ∧
      q.len = q.sumQueueLen ∧
      (∃ item q', q.next = .ok (item, q') ∧ (item.isSome = true ↔ 0 < q.len)) ∧
      (∀ maxCount, ∃ items q', q.nextBatch maxCount = .ok (items, q') ∧
        items.length = min q.len maxCount ∧ q'.len + items.length = q.len) ∧
      ∀ source, pushedItems source trace = returnedItems source trace ++ q.contents source := by
  have hnew : (new maxSizeQuery priorityQuery : FairQueue S T).Counted := rfl
  obtain ⟨q, trace, hrun, hq, htrace⟩ := run_ok hnew Fits.nil ops
  refine ⟨q, trace, hrun, hq, ?_, ?_, htrace⟩
  · obtain ⟨hzero, hnext⟩ | ⟨source, item, -, q1, hnext, -, -, -, hlen⟩ := next_ok hq
    · refine ⟨none, q, hnext, ?_⟩
      rw [len, hzero]
      exact ⟨nofun, nofun⟩
    · refine ⟨some (source, item), q1, hnext, fun _ => ?_, fun _ => rfl⟩
      rw [len]
      omega
  · intro maxCount
    obtain ⟨items, q', hbatch, -, hlength, hlen, -⟩ := nextBatch_ok hq htrace maxCount
    exact ⟨items, q', hbatch, hlength, hlen⟩

end RsNano.FairQueue
