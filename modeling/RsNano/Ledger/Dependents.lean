import RsNano.Ledger.Reversible

/-!
# The dependency graph

A block depends on its previous block and on the send that it receives. A new block depends on
older blocks only, so the graph has a rank that grows along every dependency; it is what makes
the search of the roll-back end. The blocks that are not confirmed are closed upwards in the
graph, and so is whatever a roll-back removes.
-/

namespace RsNano

/-- The second block follows the first, or receives it. -/
def DependsOn (c : LedgerConstants) (t : Table BlockHash SavedBlock) (x y : BlockHash) : Prop :=
  x ≠ 0 ∧ ∃ sb, t.get y = some sb ∧ (sb.previous = x ∨ sb.receivedSend c = some x)

/-- The block itself and everything that depends on it, directly or not. -/
def Dependents (c : LedgerConstants) (t : Table BlockHash SavedBlock) :
    BlockHash → BlockHash → Prop :=
  Relation.ReflTransGen (DependsOn c t)

/-- The rank grows along every dependency. -/
def Ranked (c : LedgerConstants) (t : Table BlockHash SavedBlock) (rank : BlockHash → ℕ) : Prop :=
  ∀ {x y}, DependsOn c t x y → rank x < rank y

section

variable {c : LedgerConstants} {t t' : Table BlockHash SavedBlock} {x y : BlockHash}
  {rank : BlockHash → ℕ}

section

variable (hsub : ∀ {h sb}, t'.get h = some sb → t.get h = some sb)

include hsub

/-- A dependency in a part of the ledger is one in the whole. -/
theorem DependsOn.mono (h : DependsOn c t' x y) : DependsOn c t x y := by
  obtain ⟨hne, sb, hsb, hdep⟩ := h
  exact ⟨hne, sb, hsub hsb, hdep⟩

/-- What depends on a block in a part of the ledger does so in the whole. -/
theorem Dependents.mono (h : Dependents c t' x y) : Dependents c t x y :=
  Relation.ReflTransGen.mono (fun _ _ => DependsOn.mono hsub) x y h

/-- A rank of the whole ledger ranks its parts. -/
theorem Ranked.mono (h : Ranked c t rank) : Ranked c t' rank := fun hdep => h (hdep.mono hsub)

end

/-- The rank does not shrink towards dependents. -/
theorem Ranked.le (hrank : Ranked c t rank) (h : Dependents c t x y) : rank x ≤ rank y := by
  induction h with
  | refl => exact le_rfl
  | tail _ hstep ih => exact ih.trans (hrank hstep).le

end

namespace Ledger

variable {c : LedgerConstants} {minWeight : Amount} {l l' : Ledger} {x y : BlockHash}

/-- What a block depends on is in the ledger. -/
theorem Receivables.get_of_dependsOn (hr : l.Receivables c) (hl : l.Chained)
    (h : DependsOn c l.block x y) : ∃ sb, l.block.get x = some sb := by
  obtain ⟨hne, sb, hsb, rfl | hrecv⟩ := h
  · obtain ⟨p, hp, -⟩ := hl.linked.previous hsb hne
    exact ⟨p, hp⟩
  · obtain ⟨source, hsrc, -⟩ := hr.received hsb hrecv
    exact ⟨source, hsrc⟩

/-- A part of the ledger without a block has none of its dependents. -/
theorem Reversible.get_dependents (hrev : l'.Reversible c)
    (hsub : ∀ {h sb}, l'.block.get h = some sb → l.block.get h = some sb)
    (h : Dependents c l.block x y) (hx : l'.block.get x = none) : l'.block.get y = none := by
  induction h with
  | refl => exact hx
  | tail _ hstep ih =>
    by_contra hsome
    obtain ⟨sb, hsb⟩ := Option.ne_none_iff_exists'.mp hsome
    obtain ⟨hne, sb', hsb', hdep⟩ := hstep
    cases (hsub hsb).symm.trans hsb'
    obtain ⟨z, hz⟩ := hrev.receivables.get_of_dependsOn hrev.chained ⟨hne, sb, hsb, hdep⟩
    cases ih.symm.trans hz

/-- What depends on an unconfirmed block is unconfirmed. -/
theorem Cemented.not_confirmed_of_dependents (hc : l.Cemented c)
    (h : Dependents c l.block x y) (hx : ¬ l.Confirmed x) : ¬ l.Confirmed y := by
  induction h with
  | refl => exact hx
  | tail _ hstep ih =>
    rintro ⟨sb, hsb, hle⟩
    obtain ⟨hne, sb', hsb', hdep⟩ := hstep
    cases hsb.symm.trans hsb'
    refine ih (hc.closed hsb hle ((hc.dependents hsb _).mpr ⟨hne, ?_⟩))
    exact hdep.imp_left Eq.symm

/-- The blocks of an account depend on the ones below them. -/
theorem Chained.dependents_of_height_le (hl : l.Chained) {lower upper : SavedBlock}
    (hlower : l.block.get x = some lower) (hupper : l.block.get y = some upper)
    (hacc : upper.account = lower.account) (hle : lower.height ≤ upper.height) :
    Dependents c l.block x y := by
  obtain ⟨n, hn⟩ := Nat.exists_eq_add_of_le hle
  induction n generalizing y upper with
  | zero =>
    obtain rfl := hl.linked.unique hupper hlower hacc hn
    exact .refl
  | succ n ih =>
    have hprev : upper.previous ≠ 0 := by
      intro hzero
      have hone := (hl.linked.first hupper hzero).1
      have hpos := hl.linked.height_pos hlower
      omega
    obtain ⟨p, hp, hpacc, hht⟩ := hl.linked.previous hupper hprev
    have hbelow := ih hp (hpacc.trans hacc) (by omega) (by omega)
    exact hbelow.tail ⟨hprev, upper, hupper, Or.inl rfl⟩

/-- The genesis block depends on nothing. -/
theorem ranked_genesis : Ranked c (genesis c minWeight).block fun _ => 0 := by
  rintro x y ⟨hne, sb, hsb, hdep⟩
  rcases hdep with hprev | hrecv
  · obtain ⟨-, rfl⟩ := genesis_block_get.mp hsb
    exact absurd hprev.symm hne
  · cases (genesis_receivedSend hsb).symm.trans hrecv

/-- A new block gets a rank above all others. -/
theorem Receivables.ranked_extends (hr : l.Receivables c) (hl : l.Chained) {nb : SavedBlock}
    (he : Extends c l nb l') {rank : BlockHash → ℕ} (hrank : Ranked c l.block rank) :
    ∃ rank', Ranked c l'.block rank' := by
  obtain ⟨n, hn⟩ := l.block.exists_bound rank
  refine ⟨fun h => if h = nb.hash then n else rank h, ?_⟩
  rintro x y ⟨hne, sb, hsb, hdep⟩
  rcases he.eq_or_get hsb with ⟨rfl, rfl⟩ | hold
  · obtain ⟨z, hz⟩ := he.get_dependent ((he.dependents x).mpr ⟨hne, hdep.imp_left Eq.symm⟩)
    have hx : x ≠ sb.hash := by
      rintro rfl
      cases he.fresh.symm.trans hz
    simp only [if_neg hx, if_true]
    exact hn x z hz
  · have hdepends : DependsOn c l.block x y := ⟨hne, sb, hold, hdep⟩
    obtain ⟨z, hz⟩ := hr.get_of_dependsOn hl hdepends
    have hx : x ≠ nb.hash := by
      rintro rfl
      cases he.fresh.symm.trans hz
    have hy : y ≠ nb.hash := by
      rintro rfl
      cases he.fresh.symm.trans hold
    simp only [if_neg hx, if_neg hy]
    exact hrank hdepends

/-- The blocks whose insertion keeps the ledger reversible. -/
def KeepsReversible (c : LedgerConstants) (l : Ledger) (b : Block) : Prop :=
  ¬ raisesUnderEpochLink c l b ∧ ¬ sendsNothing l b

instance (c : LedgerConstants) (l : Ledger) (b : Block) : Decidable (KeepsReversible c l b) :=
  inferInstanceAs (Decidable (_ ∧ _))

/-- Without sends of nothing and raises under an epoch link, insertions from genesis give
reversible ledgers with a ranked dependency graph. -/
theorem InsertRun.reversible (h : InsertRun c (KeepsReversible c) (genesis c minWeight) l) :
    l.Reversible c ∧ l.supply = 2 ^ 128 - 1 ∧ ∃ rank, Ranked c l.block rank := by
  induction h with
  | refl => exact ⟨Reversible.genesis_ledger, supply_genesis, _, ranked_genesis⟩
  | tail _ hstep ih =>
    obtain ⟨b, ⟨hraise, hsend⟩, hb⟩ := hstep
    obtain ⟨hrev, hsup, rank, hrank⟩ := ih
    obtain ⟨nb, -, he⟩ := hb.extends_ledger hrev.chained hrev.receivables.genesis
    obtain ⟨hrev', hsame⟩ := hrev.inserts (by rw [hsup]; omega) hraise hsend hb
    exact ⟨hrev', hsame.trans hsup, hrev.receivables.ranked_extends hrev.chained he hrank⟩

end Ledger

end RsNano
