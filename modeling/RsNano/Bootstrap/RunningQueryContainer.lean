import RsNano.Bootstrap.RunningQuery
import RsNano.Lib.Index
import RsNano.Lib.Machine

/-!
# The running queries

Queries are found by id, by account and by hash, and in the order in which they were sent. The
indexes agree in every run, also when an id is used again: its old query is taken out of all of
them first.
-/

namespace RsNano

open Index Machine Table

/-- The `unreachable!` branches and the `unwrap` calls of the container. -/
inductive QueriesPanic
  | unreachable
  | queryMissing
  deriving DecidableEq, Repr

structure RunningQueryContainer where
  byId : Table (BitVec 64) RunningQuery
  byAccount : Table Account (List (BitVec 64))
  byHash : Table BlockHash (List (BitVec 64))
  sequenced : List (BitVec 64)

/-- The common part of `remove_by_account` and `remove_by_hash`. -/
def removeId {K : Type} [DecidableEq K] (index : Table K (List (BitVec 64))) (id : BitVec 64)
    (k : K) : Except QueriesPanic (Table K (List (BitVec 64))) :=
  match index.get k with
  | some ids => .ok (if ids.length = 1 then index.del k else index.put k (ids.filter (· ≠ id)))
  | none => .error .unreachable

namespace RunningQueryContainer

def empty : RunningQueryContainer := ⟨∅, ∅, ∅, []⟩

variable (c : RunningQueryContainer)

/-- An id that is listed in an index has a query. -/
def query (id : BitVec 64) : Except QueriesPanic RunningQuery :=
  match c.byId.get id with
  | some query => .ok query
  | none => .error .queryMissing

def iterIds (ids : Option (List (BitVec 64))) : Except QueriesPanic (List RunningQuery) :=
  (ids.getD []).mapM c.query

def countByAccount (account : Account) (source : QuerySource) : Except QueriesPanic ℕ := do
  return ((← c.iterIds (c.byAccount.get account)).filter (·.source = source)).length

def removeByAccount (id : BitVec 64) (account : Account) :
    Except QueriesPanic RunningQueryContainer := do
  return { c with byAccount := ← removeId c.byAccount id account }

def removeByHash (id : BitVec 64) (hash : BlockHash) :
    Except QueriesPanic RunningQueryContainer := do
  return { c with byHash := ← removeId c.byHash id hash }

def removeInternal (id : BitVec 64) (account : Account) (hash : BlockHash) :
    Except QueriesPanic RunningQueryContainer := do
  let c ← c.removeByAccount id account
  let c ← c.removeByHash id hash
  return { c with sequenced := c.sequenced.filter (· ≠ id) }

def remove (id : BitVec 64) : Except QueriesPanic (Option RunningQuery × RunningQueryContainer) :=
  match c.byId.get id with
  | none => .ok (none, c)
  | some tag => do
    let c ← { c with byId := c.byId.del id }.removeInternal id tag.account tag.hash
    return (some tag, c)

def front : Except QueriesPanic (Option RunningQuery) :=
  match c.sequenced with
  | [] => .ok none
  | id :: _ => (c.query id).map some

def popFront : Except QueriesPanic (Option RunningQuery × RunningQueryContainer) :=
  match c.sequenced with
  | [] => .ok (none, c)
  | id :: rest => do
    let result ← c.query id
    let c : RunningQueryContainer := { c with byId := c.byId.del id, sequenced := rest }
    let c ← c.removeByAccount id result.account
    let c ← c.removeByHash id result.hash
    return (some result, c)

def insert (query : RunningQuery) : Except QueriesPanic RunningQueryContainer := do
  let old := c.byId.get query.id
  let c := { c with byId := c.byId.put query.id query }
  let c ←
    match old with
    | some old => c.removeInternal old.id old.account old.hash
    | none => .ok c
  return { c with
    byAccount := push c.byAccount query.account query.id
    byHash := push c.byHash query.hash query.id
    sequenced := c.sequenced ++ [query.id] }

inductive Operation
  | insert (query : RunningQuery)
  | remove (id : BitVec 64)
  | popFront

def apply : Operation → Except QueriesPanic RunningQueryContainer
  | .insert query => c.insert query
  | .remove id => (c.remove id).map Prod.snd
  | .popFront => c.popFront.map Prod.snd

/-- Every index lists the ids of the stored queries once, under the right key. -/
structure Coherent : Prop where
  id : ∀ {i q}, c.byId.get i = some q → q.id = i
  byAccount : Indexes c.byAccount (keyOf RunningQuery.account c.byId)
  byHash : Indexes c.byHash (keyOf RunningQuery.hash c.byId)
  sequenced : c.byId.IsOrder c.sequenced

variable {c} {id : BitVec 64} {q : RunningQuery}

theorem removeId_ok {K : Type} [DecidableEq K] {t : Table K (List (BitVec 64))}
    {key : BitVec 64 → Option K} {k : K} (h : Indexes t key) (hkey : key id = some k) :
    ∃ t', removeId t id k = .ok t' ∧ Indexes t' (Function.update key id none) := by
  obtain ⟨ids, hget, hmem⟩ := h.get_of_key hkey
  refine ⟨withdraw t k ids id, ?_, h.withdraw hkey hget⟩
  rw [removeId, hget, withdraw_eq hmem]

/-- The query of an id can be taken out of both indexes by key. -/
theorem Coherent.removed (h : c.Coherent) (hget : c.byId.get id = some q) :
    ∃ byAccount byHash, removeId c.byAccount id q.account = .ok byAccount ∧
      removeId c.byHash id q.hash = .ok byHash ∧
      Coherent ⟨c.byId.del id, byAccount, byHash, c.sequenced.filter (· ≠ id)⟩ := by
  obtain ⟨byAccount, hacc, hidx⟩ := removeId_ok h.byAccount (keyOf_of_get hget)
  obtain ⟨byHash, hhash, hidx'⟩ := removeId_ok h.byHash (keyOf_of_get hget)
  rw [← keyOf_del] at hidx hidx'
  exact ⟨byAccount, byHash, hacc, hhash, fun hdel => h.id (get_of_get_del hdel).2,
    hidx, hidx', h.sequenced.del id⟩

theorem Coherent.pushed (h : c.Coherent) (hnew : c.byId.get q.id = none) :
    Coherent ⟨c.byId.put q.id q, push c.byAccount q.account q.id, push c.byHash q.hash q.id,
      c.sequenced ++ [q.id]⟩ := by
  have hkey : ∀ {K : Type} (f : RunningQuery → K), keyOf f c.byId q.id = none := by
    simp [keyOf, hnew]
  refine ⟨forall_get_put h.id rfl, ?_, ?_, h.sequenced.put hnew⟩
  · rw [keyOf_put]
    exact h.byAccount.push (hkey _)
  · rw [keyOf_put]
    exact h.byHash.push (hkey _)

/-- No operation panics, and every operation keeps the indexes. -/
theorem Coherent.apply (h : c.Coherent) (op : Operation) :
    ∃ c', c.apply op = .ok c' ∧ c'.Coherent := by
  cases op with
  | insert q =>
    cases hget : c.byId.get q.id with
    | none => exact ⟨_, by simp [RunningQueryContainer.apply, insert, hget], h.pushed hget⟩
    | some old =>
      obtain ⟨byAccount, byHash, hacc, hhash, hrem⟩ := h.removed hget
      refine ⟨_, ?_, hrem.pushed (get_del_self _ _)⟩
      simp [RunningQueryContainer.apply, insert, hget, h.id hget, removeInternal, removeByAccount,
        removeByHash, hacc, hhash, put_del]
  | remove id =>
    cases hget : c.byId.get id with
    | none => exact ⟨c, by simp [RunningQueryContainer.apply, remove, hget, Except.map], h⟩
    | some q =>
      obtain ⟨byAccount, byHash, hacc, hhash, hrem⟩ := h.removed hget
      refine ⟨_, ?_, hrem⟩
      simp [RunningQueryContainer.apply, remove, hget, removeInternal, removeByAccount,
        removeByHash, hacc, hhash, map_eq_ok]
  | popFront =>
    cases hids : c.sequenced with
    | nil => exact ⟨c, by simp [RunningQueryContainer.apply, popFront, hids, Except.map], h⟩
    | cons id rest =>
      have hmem : id ∈ c.sequenced := by simp [hids]
      obtain ⟨q, hget⟩ := h.sequenced.mem_iff.mp hmem
      obtain ⟨byAccount, byHash, hacc, hhash, hrem⟩ := h.removed hget
      have hnd := h.sequenced.nodup
      have hrest : c.sequenced.filter (· ≠ id) = rest := by
        rw [hids] at hnd ⊢
        simp [List.filter_eq_self]
        grind
      rw [hrest] at hrem
      refine ⟨_, ?_, hrem⟩
      simp [RunningQueryContainer.apply, popFront, hids, query, hget, removeByAccount,
        removeByHash, hacc, hhash, map_eq_ok]

/-- The queries of stored ids, of which a test selects as many as there are ids that pass it. -/
theorem mapM_query {ids : List (BitVec 64)} (hids : ∀ i ∈ ids, ∃ q, c.byId.get i = some q)
    (p : RunningQuery → Bool) : ∃ qs, ids.mapM c.query = .ok qs ∧
      (qs.filter p).length = (ids.filter fun i => (c.byId.get i).any p).length := by
  induction ids with
  | nil => exact ⟨[], rfl, rfl⟩
  | cons i ids ih =>
    obtain ⟨q, hget⟩ := hids i List.mem_cons_self
    obtain ⟨qs, hqs, hlen⟩ := ih fun i hi => hids i (List.mem_cons_of_mem _ hi)
    refine ⟨q :: qs, by simp [query, hget, hqs], ?_⟩
    simp only [List.filter_cons, hget, Option.any_some]
    split <;> simp [hlen]

/-- In every run no operation panics, the indexes list exactly the stored queries, each of them
once, and the counts by account and source are exact. -/
theorem run_exact (h : Run apply (fun _ _ => True) empty c) :
    (∀ op, ∃ c', c.apply op = .ok c') ∧ (∃ q, c.front = .ok q) ∧ c.Coherent ∧
    ∀ a source, ∃ ids : List (BitVec 64), c.countByAccount a source = .ok ids.length ∧ ids.Nodup ∧
      ∀ i, i ∈ ids ↔ ∃ q, c.byId.get i = some q ∧ q.account = a ∧ q.source = source := by
  have hc : c.Coherent :=
    h.invariant_of_ok ⟨nofun, .empty, .empty, rfl⟩ fun hc _ => hc.apply _
  refine ⟨fun op => (hc.apply op).imp fun _ => And.left, ?_, hc, fun a source => ?_⟩
  · cases hids : c.sequenced with
    | nil => exact ⟨none, by simp [front, hids]⟩
    | cons id rest =>
      obtain ⟨q, hget⟩ := hc.sequenced.mem_iff.mp (hids ▸ List.mem_cons_self : id ∈ c.sequenced)
      exact ⟨some q, by simp [front, hids, query, hget, Except.map]⟩
  · have hmem i : i ∈ listed c.byAccount a ↔ _ := hc.byAccount.lists.mem_iff.trans keyOf_eq_some
    obtain ⟨qs, hqs, hlen⟩ := mapM_query (fun i hi => ((hmem i).mp hi).imp fun _ => And.left)
      fun q => q.source = source
    refine ⟨(listed c.byAccount a).filter fun i => (c.byId.get i).any (·.source = source), ?_,
      (hc.byAccount.nodup a).filter _, fun i => ?_⟩
    · rw [countByAccount, iterIds, ← listed, hqs, ← hlen]
      rfl
    · rw [List.mem_filter, hmem]
      cases c.byId.get i <;> simp

/-- A query for the given account. -/
def devQuery (account : Account) : RunningQuery :=
  ⟨1, .priority, .blocksByAccount, 0, account, 0, 1, 0, 0⟩

/-- The id of a query is used again for another account. -/
theorem run_exact_devQuery : ∃ c, Run apply (fun _ _ => True) empty c ∧
    c.countByAccount 2 .priority = .ok 1 ∧ c.Coherent := by
  obtain ⟨c, hops, htest⟩ : ∃ c, [.insert (devQuery 1), .insert (devQuery 2)].foldlM apply empty =
      .ok c ∧ decide ((c.countByAccount 2 .priority).toOption = some 1) = true :=
    exists_eq_ok (by decide +kernel)
  have hrun := Run.of_foldlM hops fun _ _ _ => trivial
  obtain ⟨-, -, hc, hcount⟩ := run_exact hrun
  obtain ⟨ids, hids, -⟩ := hcount 2 .priority
  refine ⟨c, hrun, ?_, hc⟩
  rw [hids] at htest ⊢
  exact congrArg Except.ok (Option.some.inj (of_decide_eq_true htest))

end RunningQueryContainer

end RsNano
