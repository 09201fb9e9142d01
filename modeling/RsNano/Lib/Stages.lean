import Mathlib.Logic.Function.Basic
import RsNano.Lib.Table

/-!
# Items in two stages

Every owner has at most one item in front, and the items in front wait or are being processed. Both
stages are tables from items to owners. `Staged` says that an entry of a table is the front item of
its owner, in one table at most. It does not say that every front item has an entry: an item that
two owners have in front takes the entry of the other. Where the front items are kept apart,
`Tracked` says that each of them has exactly one entry.
-/

namespace RsNano

open Table Function

variable {A K : Type*} [DecidableEq A] [DecidableEq K]

/-- The entries of both tables are front items, and those of one owner are in one table. -/
structure Staged (front : A → Option K) (waiting processing : Table K A) : Prop where
  front_of_waiting : ∀ {k a}, waiting.get k = some a → front a = some k
  front_of_processing : ∀ {k a}, processing.get k = some a → front a = some k
  exclusive : ∀ {k a}, waiting.get k = some a → processing.get k ≠ some a

/-- Every front item has an entry, and no two owners have the same one. -/
structure Tracked (front : A → Option K) (waiting processing : Table K A) : Prop
    extends Staged front waiting processing where
  tracked : ∀ {k a}, front a = some k → waiting.get k = some a ∨ processing.get k = some a
  apart : ∀ {k a a'}, front a = some k → front a' = some k → a = a'

variable {front : A → Option K} {waiting processing : Table K A} {a : A} {k : K}

namespace Staged

omit [DecidableEq A] in
theorem empty : Staged (fun _ : A => (none : Option K)) ∅ ∅ := ⟨nofun, nofun, nofun⟩

omit [DecidableEq K] in
/-- The other owners keep their front items if one is taken back. -/
theorem update_none_of_ne {k' : K} {a' : A} (ha : front a = some k) (hk : k' ≠ k)
    (ha' : front a' = some k') : update front a none a' = some k' := by
  rw [update_of_ne]
  · exact ha'
  · rintro rfl
    exact hk (Option.some.inj (ha'.symm.trans ha))

/-- An owner without a front item gets one, which waits. -/
theorem offer (h : Staged (update front a none) waiting processing) (k : K) :
    Staged (update front a (some k)) (waiting.put k a) processing := by
  have hoth : ∀ {k' a'}, update front a none a' = some k' →
      a' ≠ a ∧ update front a (some k) a' = some k' := by
    intro k' a' ha'
    by_cases hne : a' = a
    · rw [hne, update_self] at ha'
      cases ha'
    · rw [update_of_ne hne] at ha' ⊢
      exact ⟨hne, ha'⟩
  refine ⟨forall_get_put (fun hold => (hoth (h.front_of_waiting hold)).2) (update_self _ _ _),
    fun hget => (hoth (h.front_of_processing hget)).2, 
    forall_get_put h.exclusive fun hget => (hoth (h.front_of_processing hget)).1 rfl⟩

variable (h : Staged front waiting processing)

include h

/-- The front item of an owner is taken back, wherever it is. -/
theorem withdraw (ha : front a = some k) :
    Staged (update front a none) (waiting.del k) (processing.del k) := by
  refine ⟨?_, ?_, ?_⟩
  · intro k' a' hget
    obtain ⟨hk, hold⟩ := get_of_get_del hget
    exact update_none_of_ne ha hk (h.front_of_waiting hold)
  · intro k' a' hget
    obtain ⟨hk, hold⟩ := get_of_get_del hget
    exact update_none_of_ne ha hk (h.front_of_processing hold)
  · intro k' a' hget hget'
    exact h.exclusive (get_of_get_del hget).2 (get_of_get_del hget').2

omit [DecidableEq A] in
/-- A waiting item is processed. -/
theorem start (hk : waiting.get k = some a) :
    Staged front (waiting.del k) (processing.put k a) := by
  refine ⟨?_, ?_, ?_⟩
  · intro k' a' hget
    exact h.front_of_waiting (get_of_get_del hget).2
  · exact forall_get_put h.front_of_processing (h.front_of_waiting hk)
  · intro k' a' hget hget'
    obtain ⟨hne, hold⟩ := get_of_get_del hget
    rw [get_put_of_ne _ _ hne] at hget'
    exact h.exclusive hold hget'

/-- An item has been processed. -/
theorem finish (hk : processing.get k = some a) :
    Staged (update front a none) waiting (processing.del k) := by
  have ha := h.front_of_processing hk
  refine ⟨?_, ?_, ?_⟩
  · intro k' a' hget
    have hne : a' ≠ a := by
      rintro rfl
      cases ha.symm.trans (h.front_of_waiting hget)
      exact h.exclusive hget hk
    exact (update_of_ne hne _ _).trans (h.front_of_waiting hget)
  · intro k' a' hget
    obtain ⟨hk', hold⟩ := get_of_get_del hget
    exact update_none_of_ne ha hk' (h.front_of_processing hold)
  · intro k' a' hget hget'
    exact h.exclusive hget (get_of_get_del hget').2

end Staged

namespace Tracked

omit [DecidableEq A] in
theorem empty : Tracked (fun _ : A => (none : Option K)) ∅ ∅ := ⟨Staged.empty, nofun, nofun⟩

theorem offer (h : Tracked (update front a none) waiting processing)
    (hk : ∀ a', a' ≠ a → front a' ≠ some k) :
    Tracked (update front a (some k)) (waiting.put k a) processing := by
  have hcases : ∀ {k' a'}, update front a (some k) a' = some k' →
      (a' = a ∧ k' = k) ∨ (k' ≠ k ∧ update front a none a' = some k') := by
    intro k' a' ha'
    by_cases heq : a' = a
    · rw [heq, update_self] at ha'
      exact .inl ⟨heq, (Option.some.inj ha').symm⟩
    · rw [update_of_ne heq] at ha' ⊢
      refine .inr ⟨?_, ha'⟩
      rintro rfl
      exact hk a' heq ha'
  refine ⟨h.toStaged.offer k, ?_, ?_⟩
  · intro k' a' ha'
    rcases hcases ha' with ⟨rfl, rfl⟩ | ⟨hne, hold⟩
    · exact .inl (get_put_self _ _ _)
    · rw [get_put_of_ne _ _ hne]
      exact h.tracked hold
  · intro k' a1 a2 h1 h2
    rcases hcases h1 with ⟨rfl, rfl⟩ | ⟨hne, hold⟩
    · rcases hcases h2 with ⟨rfl, -⟩ | ⟨hne, -⟩
      · rfl
      · exact absurd rfl hne
    · rcases hcases h2 with ⟨-, rfl⟩ | ⟨-, hold'⟩
      · exact absurd rfl hne
      · exact h.apart hold hold'

variable (h : Tracked front waiting processing)

include h

/-- What an owner has in front after that of another one is taken back. -/
theorem eq_of_update_none (ha : front a = some k) {k' : K}
    {a' : A} (ha' : update front a none a' = some k') : k' ≠ k ∧ front a' = some k' := by
  by_cases hne : a' = a
  · rw [hne, update_self] at ha'
    cases ha'
  · rw [update_of_ne hne] at ha'
    refine ⟨?_, ha'⟩
    rintro rfl
    exact hne (h.apart ha' ha)

theorem withdraw (ha : front a = some k) :
    Tracked (update front a none) (waiting.del k) (processing.del k) := by
  refine ⟨h.toStaged.withdraw ha, ?_, ?_⟩
  · intro k' a' ha'
    obtain ⟨hk, hold⟩ := h.eq_of_update_none ha ha'
    rw [get_del_of_ne _ hk, get_del_of_ne _ hk]
    exact h.tracked hold
  · intro k' a1 a2 h1 h2
    exact h.apart (h.eq_of_update_none ha h1).2 (h.eq_of_update_none ha h2).2

omit [DecidableEq A] in
theorem start (hk : waiting.get k = some a) :
    Tracked front (waiting.del k) (processing.put k a) := by
  refine ⟨h.toStaged.start hk, ?_, h.apart⟩
  intro k' a' ha'
  by_cases heq : k' = k
  · subst heq
    right
    rw [get_put_self, h.apart (h.front_of_waiting hk) ha']
  · rw [get_del_of_ne _ heq, get_put_of_ne _ _ heq]
    exact h.tracked ha'

theorem finish (hk : processing.get k = some a) :
    Tracked (update front a none) waiting (processing.del k) := by
  have ha := h.front_of_processing hk
  refine ⟨h.toStaged.finish hk, ?_, ?_⟩
  · intro k' a' ha'
    obtain ⟨hk', hold⟩ := h.eq_of_update_none ha ha'
    rw [get_del_of_ne _ hk']
    exact h.tracked hold
  · intro k' a1 a2 h1 h2
    exact h.apart (h.eq_of_update_none ha h1).2 (h.eq_of_update_none ha h2).2

end Tracked

end RsNano
