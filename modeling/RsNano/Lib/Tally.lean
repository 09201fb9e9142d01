import Mathlib.Data.List.Sort
import Mathlib.Algebra.BigOperators.Group.List.Basic
import Mathlib.Tactic.Tauto

/-!
# Tallies

A tally is a list of keys with a weight for each. Weighted votes are counted into it one by one:
a vote for a listed key adds to its weight, and a vote for another key is appended. Ranking
sorts by descending weight and keeps the order of equal weights.

Counting needs addition only and says nothing about order, so that the weights may be machine
words whose addition wraps.
-/

namespace RsNano.Tally

open List

variable {K W : Type*}

/-- The keys of a tally. -/
def keys (t : List (K × W)) : List K := t.map Prod.fst

/-- The sum of all weights. -/
def total [Zero W] [Add W] (t : List (K × W)) : W := (t.map Prod.snd).sum

section

variable [DecidableEq K]

/-- The weight of a key, zero for a key that is not listed. -/
def get [Zero W] (t : List (K × W)) (k : K) : W := ((t.find? fun e => e.1 = k).map Prod.snd).getD 0

/-- Whether a key is listed. -/
def contains (t : List (K × W)) (k : K) : Bool := t.any fun e => e.1 = k

/-- Add to the weight of a listed key. -/
def addTo [Add W] (k : K) (w : W) : List (K × W) → List (K × W)
  | [] => []
  | e :: t => if e.1 = k then (e.1, e.2 + w) :: t else e :: addTo k w t

/-- Count one vote. -/
def count [Add W] (t : List (K × W)) (k : K) (w : W) : List (K × W) :=
  if contains t k then addTo k w t else t ++ [(k, w)]

/-- Count votes one after the other. -/
def countAll [Add W] (t votes : List (K × W)) : List (K × W) :=
  votes.foldl (fun t vote => count t vote.1 vote.2) t

variable {t t' votes : List (K × W)} {k k' : K} {w : W}

/-- A key is listed when it is among the keys. -/
theorem contains_iff : contains t k = true ↔ k ∈ keys t := by
  simp [contains, keys]

/-- The weight of the key of the first entry. -/
theorem get_cons [Zero W] (e : K × W) (t : List (K × W)) (k : K) :
    get (e :: t) k = if e.1 = k then e.2 else get t k := by
  simp only [get, find?_cons]
  by_cases h : e.1 = k
  · simp [h]
  · simp [h]

/-- The weight of a key does not depend on the order of distinct keys. -/
theorem get_perm [Zero W] (h : t.Perm t') (hnd : (keys t).Nodup) (k : K) :
    get t k = get t' k := by
  induction h with
  | nil => rfl
  | cons e _ ih => rw [get_cons, get_cons, ih (nodup_cons.mp hnd).2]
  | swap a b t =>
    have hne : b.1 ≠ a.1 := fun heq =>
      (nodup_cons.mp hnd).1 (mem_cons.mpr (.inl heq))
    rw [get_cons, get_cons, get_cons, get_cons]
    by_cases hb : b.1 = k
    · rw [if_pos hb, if_neg fun ha => hne (hb.trans ha.symm), if_pos hb]
    · rw [if_neg hb, if_neg hb]
  | trans h _ ih ih' =>
    rw [ih hnd]
    exact ih' ((h.map Prod.fst).nodup_iff.mp hnd)

/-- Adding to a key lists no other key. -/
@[simp] theorem keys_addTo [Add W] (k : K) (w : W) (t : List (K × W)) :
    keys (addTo k w t) = keys t := by
  induction t with
  | nil => rfl
  | cons e t ih =>
    rw [addTo]
    split
    · rfl
    · simp only [keys, map_cons] at ih ⊢
      rw [ih]

/-- Adding to a key keeps the length. -/
@[simp] theorem length_addTo [Add W] (k : K) (w : W) (t : List (K × W)) :
    (addTo k w t).length = t.length := by
  have h := congrArg length (keys_addTo k w t)
  simpa [keys] using h

/-- Counting lists the key and loses none. -/
theorem mem_keys_count [Add W] : k' ∈ keys (count t k w) ↔ k' = k ∨ k' ∈ keys t := by
  rw [count]
  split
  · next h =>
    rw [contains_iff] at h
    rw [keys_addTo]
    constructor
    · exact .inr
    · rintro (rfl | h')
      · exact h
      · exact h'
  · simp [keys, or_comm]

/-- Counting keeps the keys distinct. -/
theorem nodup_keys_count [Add W] (h : (keys t).Nodup) : (keys (count t k w)).Nodup := by
  rw [count]
  split
  · rw [keys_addTo]
    exact h
  · next hnot =>
    rw [contains_iff] at hnot
    simp only [keys, map_append, map_cons, map_nil]
    exact nodup_append_comm.mp (nodup_cons.mpr ⟨hnot, h⟩)

/-- Exactly the keys that were listed or voted for are listed. -/
theorem mem_keys_countAll [Add W] : k ∈ keys (countAll t votes) ↔ k ∈ keys votes ∨ k ∈ keys t := by
  induction votes generalizing t with
  | nil => simp [countAll, keys]
  | cons vote votes ih =>
    change k ∈ keys (countAll (count t vote.1 vote.2) votes) ↔ k ∈ vote.1 :: keys votes ∨ k ∈ keys t
    rw [ih, mem_keys_count, mem_cons]
    tauto

/-- Counting votes keeps the keys distinct. -/
theorem nodup_keys_countAll [Add W] (h : (keys t).Nodup) : (keys (countAll t votes)).Nodup := by
  induction votes generalizing t with
  | nil => exact h
  | cons vote votes ih => exact ih (nodup_keys_count h)

variable [AddCommMonoid W] (t votes k k' w)

/-- A vote counts for its key only. -/
theorem get_count : get (count t k w) k' = get t k' + if k' = k then w else 0 := by
  rw [count]
  split
  · next h =>
    rw [contains_iff] at h
    induction t with
    | nil => cases h
    | cons e t ih =>
      rw [addTo]
      by_cases heq : e.1 = k
      · rw [if_pos heq, get_cons, get_cons]
        by_cases hk : k' = k
        · simp [heq, hk]
        · simp [heq, hk, Ne.symm hk]
      · have hmem : k ∈ keys t := by
          rcases mem_cons.mp h with rfl | h
          · exact absurd rfl heq
          · exact h
        rw [if_neg heq, get_cons, get_cons, ih hmem]
        by_cases hk : e.1 = k'
        · simp [hk, show k' ≠ k from fun h => heq (hk.trans h)]
        · simp [hk]
  · next h =>
    rw [contains_iff] at h
    induction t with
    | nil =>
      by_cases hk : k' = k
      · simp [hk, get]
      · simp [hk, Ne.symm hk, get]
    | cons e t ih =>
      simp only [keys, map_cons, mem_cons, not_or] at h
      rw [cons_append, get_cons, get_cons, ih h.2]
      by_cases hk : e.1 = k'
      · simp [hk, show k' ≠ k from fun hkk => h.1 (hkk.symm.trans hk.symm)]
      · simp [hk]

/-- A vote counts once in the total. -/
theorem total_count : total (count t k w) = total t + w := by
  rw [count]
  split
  · next h =>
    rw [contains_iff] at h
    induction t with
    | nil => cases h
    | cons e t ih =>
      rw [addTo]
      by_cases heq : e.1 = k
      · rw [if_pos heq]
        simp only [total, map_cons, sum_cons]
        rw [add_right_comm]
      · have hmem : k ∈ keys t := by
          rcases mem_cons.mp h with rfl | h
          · exact absurd rfl heq
          · exact h
        have ih := ih hmem
        rw [if_neg heq]
        simp only [total, map_cons, sum_cons] at ih ⊢
        rw [ih, add_assoc]
  · simp [total]

/-- The weight of a key is the sum of the votes for it. -/
theorem get_countAll :
    get (countAll t votes) k =
      get t k + ((votes.filter fun vote => vote.1 = k).map Prod.snd).sum := by
  induction votes generalizing t with
  | nil => simp [countAll]
  | cons vote votes ih =>
    change get (countAll (count t vote.1 vote.2) votes) k = _
    rw [ih, get_count, add_assoc]
    by_cases h : vote.1 = k
    · simp [h]
    · simp [h, Ne.symm h]

/-- The total is the sum of all votes. -/
theorem total_countAll : total (countAll t votes) = total t + (votes.map Prod.snd).sum := by
  induction votes generalizing t with
  | nil => simp [countAll]
  | cons vote votes ih =>
    change total (countAll (count t vote.1 vote.2) votes) = _
    rw [ih, total_count, add_assoc, map_cons, sum_cons]

end

section

variable [DecidableEq K]

/-- Take the entry of a key out. -/
def remove (t : List (K × W)) (k : K) : List (K × W) := t.eraseP fun e => e.1 = k

/-- What remains is in the old order. -/
theorem remove_sublist (t : List (K × W)) (k : K) : (remove t k).Sublist t := eraseP_sublist

/-- A removed key is not listed any more. -/
theorem not_mem_keys_remove {t : List (K × W)} {k : K} (h : (keys t).Nodup) :
    k ∉ keys (remove t k) := by
  induction t with
  | nil => simp [remove, keys]
  | cons e t ih =>
    have hnd := nodup_cons.mp h
    rw [remove, eraseP_cons]
    by_cases heq : e.1 = k
    · subst heq
      simp only [decide_true, cond_true]
      exact hnd.1
    · simp only [heq, decide_false, cond_false]
      intro hmem
      rcases mem_cons.mp hmem with rfl | hmem
      · exact heq rfl
      · exact ih hnd.2 hmem

end

variable [LE W]

/-- The weights descend. -/
def Ranked (t : List (K × W)) : Prop := t.Pairwise fun a b => b.2 ≤ a.2

variable [DecidableLE W]

/-- Sort by descending weight, in the old order where the weights are equal. -/
def rank (t : List (K × W)) : List (K × W) := t.insertionSort fun a b => b.2 ≤ a.2

variable (t : List (K × W))

/-- Ranking only reorders. -/
theorem rank_perm : (rank t).Perm t := perm_insertionSort _ t

/-- Ranking keeps the length. -/
@[simp] theorem length_rank : (rank t).length = t.length := (rank_perm t).length_eq

/-- Ranking keeps the keys. -/
theorem keys_rank_perm : (keys (rank t)).Perm (keys t) := (rank_perm t).map Prod.fst

/-- Ranking keeps the total. -/
theorem total_rank [AddCommMonoid W] : total (rank t) = total t :=
  ((rank_perm t).map Prod.snd).sum_eq

/-- Ranking keeps the weight of every key. -/
theorem get_rank [DecidableEq K] [Zero W] {t : List (K × W)} (hnd : (keys t).Nodup) (k : K) :
    get (rank t) k = get t k :=
  get_perm (rank_perm t) ((keys_rank_perm t).nodup_iff.mpr hnd) k

variable [Std.IsLinearPreorder W]

/-- Ranking ranks. -/
theorem ranked_rank : Ranked (rank t) := by
  exact pairwise_insertionSort _ t

omit [DecidableLE W] in
/-- No key of a ranked tally weighs more than the first one. -/
theorem Ranked.get_le [DecidableEq K] [Zero W] (hzero : ∀ w : W, 0 ≤ w) {e : K × W}
    {t : List (K × W)} (h : Ranked (e :: t)) (k : K) : get (e :: t) k ≤ e.2 := by
  rw [get]
  cases hfind : (e :: t).find? fun x => decide (x.1 = k) with
  | none => exact hzero e.2
  | some x =>
    rcases mem_cons.mp (mem_of_find?_eq_some hfind) with rfl | hx
    · exact Std.le_refl _
    · exact (pairwise_cons.mp h).1 x hx

end RsNano.Tally
