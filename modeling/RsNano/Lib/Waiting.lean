import RsNano.Lib.Table

/-!
# Entries that wait for an answer

A request is sent under a key and something is kept until the answer to the key arrives. Several
requests may have one key. The table keeps one entry for each key, so a request displaces the
entry of an earlier one, and the first answer takes the entry. Displaced entries are recorded in
a history variable.
-/

namespace RsNano

universe u v

/-- Entries by key, the keys of requests that are not answered, and the displaced entries. -/
structure Waiting (K : Type u) (V : Type v) where
  entries : Table K V
  outstanding : List K
  displaced : List V

namespace Waiting

variable {K : Type u} {V : Type v} [DecidableEq K] {w : Waiting K V} {k k' : K} {v v' : V}

/-- Nothing waits. -/
def empty : Waiting K V := ⟨∅, [], []⟩

instance : EmptyCollection (Waiting K V) := ⟨empty⟩

/-- Keep an entry and send its request. -/
def request (w : Waiting K V) (k : K) (v : V) : Waiting K V where
  entries := w.entries.put k v
  outstanding := k :: w.outstanding
  displaced := w.displaced ++ (w.entries.get k).toList

/-- Keep an entry whose request cannot be sent, and remove it again. -/
def requestFailed (w : Waiting K V) (k : K) : Waiting K V where
  entries := w.entries.del k
  outstanding := w.outstanding
  displaced := w.displaced ++ (w.entries.get k).toList

/-- The entry goes to the answer. -/
def answer (w : Waiting K V) (k : K) : Waiting K V where
  entries := w.entries.del k
  outstanding := w.outstanding.erase k
  displaced := w.displaced

/-- Every entry has a request that is not answered. -/
def Answerable (w : Waiting K V) : Prop := ∀ k v, w.entries.get k = some v → k ∈ w.outstanding

theorem Answerable.request (h : w.Answerable) (k : K) (v : V) : (w.request k v).Answerable := by
  intro k' v' hget
  exact Table.forall_get_put (fun hold => List.mem_cons_of_mem _ (h _ _ hold))
    List.mem_cons_self hget

theorem Answerable.requestFailed (h : w.Answerable) (k : K) : (w.requestFailed k).Answerable :=
  fun k' v' hget => h k' v' (Table.get_of_get_del hget).2

theorem Answerable.answer (h : w.Answerable) (k : K) : (w.answer k).Answerable := by
  intro k' v' hget
  obtain ⟨hne, hget⟩ := Table.get_of_get_del hget
  exact (List.mem_erase_of_ne hne).mpr (h k' v' hget)

variable {P : Type*} {f : V → Option P} {p : P}

/-- The entry of a key holds a token. -/
def Holds (f : V → Option P) (w : Waiting K V) (k : K) (p : P) : Prop :=
  ∃ v, w.entries.get k = some v ∧ f v = some p

/-- The tokens of displaced entries. -/
def displacedTokens (f : V → Option P) (w : Waiting K V) : List P := w.displaced.filterMap f

/-- The entry of a key is exchanged: its token is `put` now, and the token that it held is taken
out or displaced. -/
structure Exchanged (f : V → Option P) (w w' : Waiting K V) (k : K) (put taken : Option P) :
    Prop where
  answerable : w.Answerable → w'.Answerable
  holds_iff : ∀ k' p, w'.Holds f k' p ↔ k' = k ∧ p ∈ put ∨ k' ≠ k ∧ w.Holds f k' p
  held : ∀ p ∈ taken, w.Holds f k p
  old : ∀ p, w.Holds f k p → p ∈ w'.displacedTokens f ∨ p ∈ taken
  displaced : ∀ p ∈ w.displacedTokens f, p ∈ w'.displacedTokens f

/-- A request displaces the token of the entry that was there. -/
theorem mem_displacedTokens_append :
    p ∈ (w.displaced ++ (w.entries.get k).toList).filterMap f ↔
      p ∈ w.displacedTokens f ∨ w.Holds f k p := by
  simp [Holds, displacedTokens]

theorem exchanged_request {put : Option P} (hput : f v = put) :
    Exchanged f w (w.request k v) k put none := by
  subst hput
  refine ⟨fun h => h.request k v, fun k' p => ?_, nofun, fun p hp => .inl ?_, fun p hp => ?_⟩
  · by_cases hk : k' = k
    · subst hk
      simp [Holds, request]
    · simp [Holds, request, Table.get_put_of_ne _ _ hk, hk]
  · exact mem_displacedTokens_append.mpr (.inr hp)
  · exact mem_displacedTokens_append.mpr (.inl hp)

theorem holds_del (w' : Waiting K V) (h : w'.entries = w.entries.del k) :
    w'.Holds f k' p ↔ k' ≠ k ∧ w.Holds f k' p := by
  by_cases hk : k' = k
  · subst hk
    simp [Holds, h]
  · simp [Holds, h, Table.get_del_of_ne _ hk, hk]

theorem exchanged_requestFailed : Exchanged f w (w.requestFailed k) k none none := by
  refine ⟨fun h => h.requestFailed k, fun k' p => ?_, nofun, fun p hp => .inl ?_, fun p hp => ?_⟩
  · simp [holds_del (w.requestFailed k) rfl]
  · exact mem_displacedTokens_append.mpr (.inr hp)
  · exact mem_displacedTokens_append.mpr (.inl hp)

theorem exchanged_answer : Exchanged f w (w.answer k) k none ((w.entries.get k).bind f) := by
  refine ⟨fun h => h.answer k, fun k' p => ?_, fun p hp => ?_, fun p hp => .inr ?_, fun p hp => hp⟩
  · simp [holds_del (w.answer k) rfl]
  · exact Option.bind_eq_some_iff.mp hp
  · exact Option.bind_eq_some_iff.mpr hp

end Waiting

end RsNano
