import RsNano.Ledger.Store

/-!
# Linked block tables

A block table is linked when every record has its own hash as key, every block that names a
predecessor has it in the table, one below it in the same account, and an account has at most
one block at each height. These are facts about the block table alone; what the account table
says about it comes later.

A linked table stays linked when a block is added on top of a chain and when a block without
successor is removed. In a linked table the walk along the previous links and the search for
a representative both end.
-/

namespace RsNano

open Ledger Table

/-- Previous links lead down the chain of an account, one height at a time. -/
structure Linked (t : Table BlockHash SavedBlock) : Prop where
  hash_eq : ∀ {h sb}, t.get h = some sb → sb.hash = h
  previous : ∀ {h sb}, t.get h = some sb → sb.previous ≠ 0 →
    ∃ p, t.get sb.previous = some p ∧ p.account = sb.account ∧ sb.height = p.height + 1
  first : ∀ {h sb}, t.get h = some sb → sb.previous = 0 →
    sb.height = 1 ∧ sb.block.isOpen = true
  unique : ∀ {h h' sb sb'}, t.get h = some sb → t.get h' = some sb' →
    sb.account = sb'.account → sb.height = sb'.height → h = h'
  legacy_epoch : ∀ {h sb}, t.get h = some sb → sb.block.isLegacy = true → sb.epoch = .epoch0

namespace Linked

variable {t t' : Table BlockHash SavedBlock} {h : BlockHash} {sb : SavedBlock}

section

variable (ht : Linked t) (hget : t.get h = some sb)

include ht hget

/-- A stored hash is not zero. -/
theorem hash_ne_zero : h ≠ 0 := by
  rw [← ht.hash_eq hget]
  exact sb.block.hash_ne_zero

/-- Heights start at one. -/
theorem height_pos : 1 ≤ sb.height := by
  by_cases hprev : sb.previous = 0
  · rw [(ht.first hget hprev).1]
  · obtain ⟨p, -, -, hht⟩ := ht.previous hget hprev
    omega

/-- A block at height one has no predecessor. -/
theorem previous_eq_zero (hone : sb.height = 1) : sb.previous = 0 := by
  by_contra hprev
  obtain ⟨p, hp, -, hht⟩ := ht.previous hget hprev
  have := ht.height_pos hp
  omega

/-- Two blocks with the same predecessor are one. -/
theorem eq_of_previous_eq {h' : BlockHash} {sb' : SavedBlock} (hget' : t.get h' = some sb')
    (hprev : sb.previous ≠ 0) (heq : sb.previous = sb'.previous) : h = h' := by
  obtain ⟨p, hp, hacc, hht⟩ := ht.previous hget hprev
  obtain ⟨p', hp', hacc', hht'⟩ := ht.previous hget' (heq ▸ hprev)
  rw [← heq, hp] at hp'
  cases hp'
  exact ht.unique hget hget' (hacc.symm.trans hacc') (by omega)

end

/-- A block on top of its chain can be added. -/
theorem put (ht : Linked t) {nb : SavedBlock} (hnew : t.get nb.hash = none)
    (hprevious : nb.previous ≠ 0 →
      ∃ p, t.get nb.previous = some p ∧ p.account = nb.account ∧ nb.height = p.height + 1)
    (hfst : nb.previous = 0 → nb.height = 1 ∧ nb.block.isOpen = true)
    (htop : ∀ h sb, t.get h = some sb → sb.account = nb.account → sb.height < nb.height)
    (hleg : nb.block.isLegacy = true → nb.epoch = .epoch0) : Linked (t.put nb.hash nb) := by
  refine ⟨?_, ?_, ?_, ?_, ?_⟩
  · exact forall_get_put ht.hash_eq rfl
  · intro h sb hget hprev
    rcases eq_or_of_get_put hget with ⟨rfl, rfl⟩ | ⟨-, hold⟩
    · obtain ⟨p, hp, hp'⟩ := hprevious hprev
      exact ⟨p, get_put_of_get _ hnew hp, hp'⟩
    · obtain ⟨p, hp, hp'⟩ := ht.previous hold hprev
      exact ⟨p, get_put_of_get _ hnew hp, hp'⟩
  · exact forall_get_put ht.first hfst
  · intro h h' sb sb' hget hget' hacc hht
    rcases eq_or_of_get_put hget with ⟨rfl, rfl⟩ | ⟨-, hold⟩ <;>
      rcases eq_or_of_get_put hget' with ⟨rfl, rfl⟩ | ⟨-, hold'⟩
    · rfl
    · have := htop _ _ hold' hacc.symm
      omega
    · have := htop _ _ hold hacc
      omega
    · exact ht.unique hold hold' hacc hht
  · exact forall_get_put ht.legacy_epoch hleg

/-- A block that no block names as its predecessor can be removed. -/
theorem del (ht : Linked t) (hlast : ∀ h' sb', t.get h' = some sb' → sb'.previous ≠ h) :
    Linked (t.del h) := by
  refine ⟨?_, ?_, ?_, ?_, ?_⟩
  · intro h' sb hget
    exact ht.hash_eq (get_of_get_del hget).2
  · intro h' sb hget hprev
    have hold := (get_of_get_del hget).2
    obtain ⟨p, hp, hp'⟩ := ht.previous hold hprev
    exact ⟨p, by rw [get_del_of_ne _ (hlast h' sb hold)]; exact hp, hp'⟩
  · intro h' sb hget
    exact ht.first (get_of_get_del hget).2
  · intro h1 h2 sb1 sb2 hget1 hget2
    exact ht.unique (get_of_get_del hget1).2 (get_of_get_del hget2).2
  · intro h' sb hget
    exact ht.legacy_epoch (get_of_get_del hget).2

/-- Every block is found from a block above it in its chain. -/
theorem exists_at_height (ht : Linked t) {n : ℕ} (hn : 1 ≤ n) (hget : t.get h = some sb)
    (hle : n ≤ sb.height) : ∃ h' sb', t.get h' = some sb' ∧ sb'.account = sb.account ∧
      sb'.height = n := by
  obtain ⟨k, hk⟩ := Nat.exists_eq_add_of_le hle
  induction k generalizing h sb with
  | zero => exact ⟨h, sb, hget, rfl, by omega⟩
  | succ k ih =>
    have hprev : sb.previous ≠ 0 := by
      intro hzero
      have := (ht.first hget hzero).1
      omega
    obtain ⟨p, hp, hacc, hht⟩ := ht.previous hget hprev
    obtain ⟨h', sb', hget', hacc', hn'⟩ := ih hp (by omega) (by omega)
    exact ⟨h', sb', hget', hacc'.trans hacc, hn'⟩

end Linked

section

/-- Follow the previous links for a number of blocks, from the given one downwards. -/
def followPrevious (t : Table BlockHash SavedBlock) : ℕ → BlockHash → Option (List SavedBlock)
  | 0, _ => some []
  | n + 1, h => do
    let sb ← t.get h
    let rest ← followPrevious t n sb.previous
    return sb :: rest

variable {t : Table BlockHash SavedBlock} {h : BlockHash} {sb : SavedBlock}

/-- In a linked table the walk from a block passes exactly the blocks below it, one for each
height, and ends at a block without predecessor. -/
theorem Linked.followPrevious_eq (ht : Linked t) (hget : t.get h = some sb) :
    ∃ chain, followPrevious t sb.height h = some chain ∧ chain.length = sb.height ∧
      (∀ (i : ℕ) b, chain[i]? = some b →
        t.get b.hash = some b ∧ b.account = sb.account ∧ b.height + i = sb.height) ∧
      ∃ first, chain.getLast? = some first ∧ first.previous = 0 := by
  obtain ⟨n, hn⟩ : ∃ n, sb.height = n + 1 := ⟨sb.height - 1, by have := ht.height_pos hget; omega⟩
  rw [hn]
  induction n generalizing h sb with
  | zero =>
    have hprev := ht.previous_eq_zero hget hn
    refine ⟨[sb], by simp [followPrevious, hget], rfl, ?_, sb, rfl, hprev⟩
    intro i b hi
    obtain rfl : i = 0 := by
      have := (List.getElem?_eq_some_iff.mp hi).1
      simpa using this
    obtain rfl : sb = b := by simpa using hi
    exact ⟨by rw [ht.hash_eq hget]; exact hget, rfl, hn⟩
  | succ n ih =>
    have hprev : sb.previous ≠ 0 := by
      intro hzero
      have := (ht.first hget hzero).1
      omega
    obtain ⟨p, hp, hacc, hht⟩ := ht.previous hget hprev
    obtain ⟨chain, hchain, hlen, hall, first, hlast, hfst⟩ := ih hp (by omega)
    refine ⟨sb :: chain, ?_, by simp [hlen], ?_, first, ?_, hfst⟩
    · rw [followPrevious, hget]
      simp [hchain]
    · intro i b hi
      cases i with
      | zero =>
        obtain rfl : sb = b := by simpa using hi
        exact ⟨by rw [ht.hash_eq hget]; exact hget, rfl, hn⟩
      | succ i =>
        obtain ⟨hb, hbaccount, hbheight⟩ := hall i b (by simpa using hi)
        exact ⟨hb, hbaccount.trans hacc, by omega⟩
    · rw [List.getLast?_cons, hlast]
      rfl

end

variable {t t' : Table BlockHash SavedBlock} {h : BlockHash} {sb : SavedBlock}

/-- A search step that finds something does so in every larger table. -/
theorem findRepStep_of_subset (hsub : ∀ h sb, t.get h = some sb → t'.get h = some sb)
    (hst : ∃ sb, t.get h = some sb) :
    findRepStep t' h = findRepStep t h := by
  obtain ⟨sb, hget⟩ := hst
  simp only [findRepStep, hget, hsub h sb hget]

/-- A representative block that is found is found in every larger table, with more steps. -/
theorem findRepBlock_of_subset (hsub : ∀ h sb, t.get h = some sb → t'.get h = some sb)
    {fuel fuel' : ℕ} (hfuel : fuel ≤ fuel') {r : BlockHash} (hne : r ≠ 0)
    (hrun : findRepBlock t fuel h = .ok r) : findRepBlock t' fuel' h = .ok r := by
  unfold findRepBlock at hrun
  refine Loop.run_mono hfuel ?_
  clear hfuel
  generalize 0 = start at hrun
  induction fuel generalizing h start with
  | zero => cases hrun
  | succ fuel ih =>
    have hst : ∃ sb, t.get h = some sb := by
      cases hget : t.get h with
      | none =>
        -- a search that leaves the table returns the zero hash
        rcases Loop.run_succ_eq_ok.mp hrun with hr | ⟨s, hs, -⟩
        · simp only [findRepStep, hget, Except.ok.injEq, Sum.inr.injEq] at hr
          exact absurd hr.symm hne
        · simp [findRepStep, hget] at hs
      | some sb => exact ⟨sb, rfl⟩
    have hsame := findRepStep_of_subset hsub hst
    rw [Loop.run_succ_eq_ok] at hrun ⊢
    rw [hsame]
    rcases hrun with hr | ⟨s, hs, hrest⟩
    · exact .inl hr
    · exact .inr ⟨s, hs, ih (start + 1) hrest⟩

/-- The search from a block without representative goes on at its predecessor. -/
theorem findRepBlock_previous (hget : t.get h = some sb)
    (hnone : sb.block.representativeField = none) {fuel : ℕ} {r : BlockHash}
    (hrun : findRepBlock t fuel sb.previous = .ok r) :
    findRepBlock t (fuel + 1) h = .ok r := by
  have hbody : findRepStep t h = .ok (.inl sb.previous) := by
    cases hblk : sb.block <;>
      simp_all [findRepStep, Block.representativeField, SavedBlock.previous, Block.previous]
  refine Loop.run_succ_eq_ok.mpr (.inr ⟨sb.previous, hbody, ?_⟩)
  rw [Loop.run_index fuel _ 0]
  exact hrun

/-- The search from a block with a representative ends there. -/
theorem findRepBlock_self (hget : t.get h = some sb)
    (hsome : sb.block.representativeField.isSome = true) (fuel : ℕ) :
    findRepBlock t (fuel + 1) h = .ok sb.hash := by
  refine Loop.run_succ_eq_ok.mpr (.inl ?_)
  cases hblk : sb.block <;> simp_all [findRepStep, Block.representativeField]

/-- In a linked table the search for a representative ends within the height of its start, at
a block that has one. -/
theorem Linked.findRepBlock_ok (ht : Linked t) (hget : t.get h = some sb) {fuel : ℕ}
    (hfuel : sb.height ≤ fuel) : ∃ r rb, findRepBlock t fuel h = .ok r ∧
      t.get r = some rb ∧ rb.block.representativeField.isSome = true := by
  induction fuel generalizing h sb with
  | zero =>
    have := ht.height_pos hget
    omega
  | succ fuel ih =>
    cases hrep : sb.block.representativeField with
    | some rep =>
      have hsome : sb.block.representativeField.isSome = true := by rw [hrep]; rfl
      refine ⟨sb.hash, sb, findRepBlock_self hget hsome fuel, ?_, hsome⟩
      rw [ht.hash_eq hget]
      exact hget
    | none =>
      have hne : sb.previous ≠ 0 := by
        intro hzero
        have := Block.representativeField_of_isOpen (ht.first hget hzero).2
        simp [hrep] at this
      obtain ⟨p, hp, -, hht⟩ := ht.previous hget hne
      obtain ⟨r, rb, hrun, hr⟩ := ih hp (by omega)
      exact ⟨r, rb, findRepBlock_previous hget hrep hrun, hr⟩

end RsNano
