import RsNano.Consensus.VoteSpacing

/-!
# Runs of the vote spacing

The vote generator checks whether a vote is due and flags it when it was generated. Checks and
flags are made with times that never decrease, and every flag directly follows a check of the same
vote that passed. Then flags for competing blocks keep their distance, and the entries are the
current flags: the last ones of their roots that had not expired when the last flag was made.

Numbers of entries come again after `2 ^ 64` flags, so the results are about fewer.
-/

namespace RsNano.VoteSpacing

open Index List Int

/-- A sequence of checks and flags, with the flags made, the last time and the state. -/
inductive Run (delay : ℕ) : List Entry → Timestamp → VoteSpacing → Prop
  | new (now : Timestamp) : Run delay [] now (.new delay)
  | votable {flags before s root hash now passed} (hrun : Run delay flags before s)
      (htime : before ≤ now) (hcheck : s.votable root hash now = .ok passed) : Run delay flags now s
  | flag {flags before s root hash checked now s'} (hrun : Run delay flags before s)
      (hchecked : before ≤ checked) (hcheck : s.votable root hash checked = .ok true)
      (htime : checked ≤ now) (hflag : s.flag root hash now = .ok s') :
      Run delay (flags ++ [⟨root, hash, now⟩]) now s'

/-- The flags of competing blocks are at least the delay apart. -/
def Spaced (delay : ℕ) (flags : List Entry) : Prop :=
  flags.Pairwise fun f g =>
    f.root = g.root → f.hash ≠ g.hash → f.timestamp ≤ g.timestamp - (delay : ℤ)

/-- The last flag of a root. -/
def lastFor (root : Root) (flags : List Entry) : Option Entry :=
  (flags.filter fun f => f.root = root).getLast?

/-- The flag is the last one of its root, and it had not expired when the last of all flags was
made. -/
def Current (delay : ℕ) (flags : List Entry) (f : Entry) : Prop :=
  lastFor f.root flags = some f ∧
    ∀ last, flags.getLast? = some last → f = last ∨ last.timestamp - delay < f.timestamp

variable {delay : ℕ} {flags : List Entry} {now : Timestamp} {s : VoteSpacing} {f next : Entry}

theorem lastFor_append (root : Root) (flags : List Entry) (next : Entry) :
    lastFor root (flags ++ [next]) = if next.root = root then some next else lastFor root flags := by
  rw [lastFor, filter_append]
  split
  · next h =>
    rw [filter_cons_of_pos (by simpa using h), filter_nil, getLast?_concat]
  · next h =>
    rw [filter_cons_of_neg (by simpa using h), filter_nil, append_nil]
    rfl

theorem mem_of_lastFor {root : Root} (h : lastFor root flags = some f) :
    f ∈ flags ∧ f.root = root := by
  have hmem := mem_filter.mp (mem_of_getLast? h)
  exact ⟨hmem.1, of_decide_eq_true hmem.2⟩

/-- The last flag of a root comes behind the others of the root. -/
theorem rel_lastFor {R : Entry → Entry → Prop} {last : Entry} (h : flags.Pairwise R)
    (hlast : lastFor f.root flags = some last) (hf : f ∈ flags) : f = last ∨ R f last := by
  obtain ⟨before, hbef⟩ := getLast?_eq_some_iff.mp hlast
  have hpair := h.sublist (filter_sublist (p := fun g => g.root = f.root))
  have hmem : f ∈ flags.filter fun g => g.root = f.root := mem_filter.mpr ⟨hf, decide_eq_true rfl⟩
  rw [hbef] at hpair hmem
  rcases mem_append.mp hmem with hmem | hmem
  · exact .inr ((pairwise_append.mp hpair).2.2 f hmem last (mem_singleton_self last))
  · exact .inl (mem_singleton.mp hmem)

/-- A root with a flag has a last one. -/
theorem exists_lastFor (h : f ∈ flags) : ∃ last, lastFor f.root flags = some last := by
  refine Option.ne_none_iff_exists'.mp fun hnone => ?_
  rw [lastFor, getLast?_eq_none_iff, filter_eq_nil_iff] at hnone
  exact hnone f h (decide_eq_true rfl)

/-- A new flag is current, and of the others those of other roots that have not expired. -/
theorem current_append (hle : ∀ g ∈ flags, g.timestamp ≤ next.timestamp) (f : Entry) :
    Current delay (flags ++ [next]) f ↔ f = next ∨
      (f.root ≠ next.root ∧ Current delay flags f ∧ next.timestamp - delay < f.timestamp) := by
  rw [Current, lastFor_append, getLast?_concat]
  constructor
  · rintro ⟨hlast, hunexpired⟩
    split at hlast
    · exact .inl (Option.some.inj hlast).symm
    · next hroot =>
      obtain rfl | hlt := hunexpired next rfl
      · exact absurd rfl hroot
      · refine .inr ⟨Ne.symm hroot, ⟨hlast, fun last hlast' => .inr ?_⟩, hlt⟩
        exact lt_of_le_of_lt (sub_le_sub_right (hle last (mem_of_getLast? hlast')) delay) hlt
  · rintro (rfl | ⟨hroot, hcur, hlt⟩)
    · rw [if_pos rfl]
      exact ⟨rfl, fun last hlast => .inl (Option.some.inj hlast)⟩
    · rw [if_neg (Ne.symm hroot)]
      refine ⟨hcur.1, fun last hlast => .inr ?_⟩
      rw [← Option.some.inj hlast]
      exact hlt

/-- Time that has elapsed has passed. -/
theorem le_of_le_elapsed {start now : ℤ} {duration : ℕ} (hle : start ≤ now)
    (h : duration ≤ Timestamp.elapsed start now) : start ≤ now - duration := by
  have hmod : ∀ difference : ℤ, 0 ≤ difference → difference % 2 ^ 64 ≤ difference := by
    intro difference hnonneg
    omega
  have helapsed : (Timestamp.elapsed start now : ℤ) ≤ now - start := by
    rw [Timestamp.elapsed]
    split
    · rw [toNat_of_nonneg (emod_nonneg _ (by decide))]
      exact hmod _ (sub_nonneg_of_le hle)
    · exact sub_nonneg_of_le hle
  omega

/-- What holds after checks and flags. -/
structure Kept (delay : ℕ) (flags : List Entry) (now : Timestamp) (s : VoteSpacing) : Prop where
  delay_eq : s.delay = delay
  coherent : s.recent.Coherent
  numbered : s.recent.Numbered flags.length
  holds : ∀ f, s.recent.Holds f ↔ Current delay flags f
  le_now : ∀ f ∈ flags, f.timestamp ≤ now
  sorted : flags.Pairwise fun f g => f.timestamp ≤ g.timestamp
  spaced : Spaced delay flags

namespace Kept

theorem new (delay : ℕ) (now : Timestamp) : Kept delay [] now (.new delay) where
  delay_eq := rfl
  coherent := ⟨Indexes.empty, Indexes.empty, nofun⟩
  numbered := ⟨0, Nat.le_refl 0, rfl, nofun⟩
  holds _ := iff_of_false nofun nofun
  le_now := nofun
  sorted := .nil
  spaced := .nil

theorem mono {now' : Timestamp} (h : Kept delay flags now s) (hle : now ≤ now') :
    Kept delay flags now' s :=
  { h with le_now := fun f hf => (h.le_now f hf).trans hle }

/-- A vote that may be flagged is far enough from the competing flags of its root. -/
theorem spaced_append (h : Kept delay flags now s) (hle : now ≤ next.timestamp)
    (hsame : ∀ f, s.recent.Holds f → f.root = next.root →
      next.timestamp - delay < f.timestamp → next.hash = f.hash) :
    Spaced delay (flags ++ [next]) := by
  refine pairwise_append.mpr ⟨h.spaced, pairwise_singleton _ _, fun g hg f hf => ?_⟩
  rw [mem_singleton.mp hf]
  intro hroot hhash
  obtain ⟨last, hlast⟩ := exists_lastFor hg
  have hlastroot := (mem_of_lastFor hlast).2
  by_cases hlasthash : last.hash = next.hash
  · obtain rfl | hrel := rel_lastFor h.spaced hlast hg
    · exact absurd hlasthash hhash
    · have hge := (h.le_now last (mem_of_lastFor hlast).1).trans hle
      have hgap := hrel hlastroot.symm (fun heq => hhash (heq.trans hlasthash))
      exact hgap.trans (sub_le_sub_right hge delay)
  · have hexp : last.timestamp ≤ next.timestamp - (delay : ℤ) := by
      refine not_lt.mp fun hlt => hlasthash ?_
      refine (hsame last ((h.holds last).mpr ⟨hlastroot ▸ hlast, fun l hl => .inr ?_⟩)
        (hlastroot.trans hroot) hlt).symm
      have hge := (h.le_now l (mem_of_getLast? hl)).trans hle
      exact lt_of_le_of_lt (sub_le_sub_right hge delay) hlt
    obtain rfl | hrel := rel_lastFor h.sorted hlast hg
    · exact hexp
    · exact hrel.trans hexp

/-- A flag that follows a check of its vote. -/
theorem flag {root : Root} {hash : BlockHash} {checked now' : Timestamp}
    (h : Kept delay flags now s) (hlen : flags.length < 2 ^ 64) (hchecked : now ≤ checked)
    (hchk : s.votable root hash checked = .ok true) (htime : checked ≤ now') :
    ∃ s', s.flag root hash now' = .ok s' ∧ Kept delay (flags ++ [⟨root, hash, now'⟩]) now' s' := by
  have hle := hchecked.trans htime
  obtain ⟨passed, hpass, hiff⟩ := votable_ok h.coherent root hash checked
  obtain rfl : true = passed := Except.ok.inj (hchk.symm.trans hpass)
  have hsame : ∀ f, s.recent.Holds f → f.root = root → now' - s.delay < f.timestamp →
      hash = f.hash := by
    intro f hf hroot hlt
    have hfnow := h.le_now f (mem_of_lastFor ((h.holds f).mp hf).1).1
    refine (hiff.mp rfl f hf hroot).resolve_right fun helapsed => ?_
    have hgap := le_of_le_elapsed (hfnow.trans hchecked) helapsed
    exact absurd hlt (not_lt.mpr (hgap.trans (sub_le_sub_right htime s.delay)))
  obtain ⟨s', hflag, hdelay, hcoh, hnum, hhold⟩ := flag_ok h.coherent h.numbered hlen hsame
  have hlenow : ∀ f ∈ flags, f.timestamp ≤ now' := fun f hf => (h.le_now f hf).trans hle
  rw [h.delay_eq] at hsame hhold
  refine ⟨s', hflag, hdelay.trans h.delay_eq, hcoh, ?_, fun f => ?_, ?_, ?_,
    h.spaced_append hle hsame⟩
  · rw [length_append]
    exact hnum
  · rw [hhold, current_append hlenow, h.holds]
  · intro f hf
    rcases mem_append.mp hf with hf | hf
    · exact hlenow f hf
    · rw [mem_singleton.mp hf]
  · refine pairwise_append.mpr ⟨h.sorted, pairwise_singleton _ _, fun f hf g hg => ?_⟩
    rw [mem_singleton.mp hg]
    exact hlenow f hf

end Kept

theorem Run.kept (h : Run delay flags now s) (hlen : flags.length ≤ 2 ^ 64) :
    Kept delay flags now s := by
  induction h with
  | new now => exact .new delay now
  | votable _ htime _ ih => exact (ih hlen).mono htime
  | flag _ hchecked hchk htime hflag ih =>
    rw [length_append, length_singleton] at hlen
    obtain ⟨s', hflag', hkept⟩ := (ih (by omega)).flag (by omega) hchecked hchk htime
    obtain rfl := Except.ok.inj (hflag.symm.trans hflag')
    exact hkept

/-- A vote can be flagged at once if the flags of its root are for the same block or old enough. -/
theorem Run.append (h : Run delay flags now s) (root : Root) (hash : BlockHash) (time : Timestamp)
    (hlen : flags.length < 2 ^ 64) (htime : now ≤ time)
    (hflags : ∀ f ∈ flags, f.root = root → hash = f.hash ∨ delay ≤ f.timestamp.elapsed time) :
    ∃ s', Run delay (flags ++ [⟨root, hash, time⟩]) time s' := by
  have hkept := h.kept (Nat.le_of_lt hlen)
  obtain ⟨passed, hpass, hiff⟩ := votable_ok hkept.coherent root hash time
  obtain rfl : passed = true := by
    refine hiff.mpr fun f hf hroot => ?_
    rw [hkept.delay_eq]
    exact hflags f (mem_of_lastFor ((hkept.holds f).mp hf).1).1 hroot
  obtain ⟨s', hflag, -⟩ := hkept.flag hlen htime hpass (le_refl time)
  exact ⟨s', .flag h htime hpass (le_refl time) hflag⟩

/-- Flags for competing blocks keep their distance, and the indexes list exactly the current flags.
No check panics, and no flag that follows its check. -/
theorem run_spaced (h : Run delay flags now s) (hlen : flags.length ≤ 2 ^ 64) :
    Spaced delay flags ∧ s.recent.Coherent ∧
      (∀ f, s.recent.Holds f ↔ Current delay flags f) ∧
      (∀ root hash time, ∃ passed, s.votable root hash time = .ok passed) ∧
      (flags.length < 2 ^ 64 → ∀ root hash checked time, now ≤ checked → checked ≤ time →
        s.votable root hash checked = .ok true → ∃ s', s.flag root hash time = .ok s') := by
  have hkept := h.kept hlen
  refine ⟨hkept.spaced, hkept.coherent, hkept.holds, fun root hash time => ?_, ?_⟩
  · obtain ⟨passed, hpassed, -⟩ := votable_ok hkept.coherent root hash time
    exact ⟨passed, hpassed⟩
  · intro hlt root hash checked time hchecked htime hcheck
    obtain ⟨s', hflag, -⟩ := hkept.flag hlt hchecked hcheck htime
    exact ⟨s', hflag⟩

/-- A block, a competing one after the delay, and the same one again. -/
def devFlags : List Entry := [⟨⟨1⟩, ⟨2⟩, 0⟩, ⟨⟨1⟩, ⟨3⟩, 10⟩, ⟨⟨1⟩, ⟨3⟩, 11⟩]

theorem run_devFlags : ∃ s, Run 10 devFlags 11 s ∧ devFlags.length ≤ 2 ^ 64 ∧
    Spaced 10 devFlags ∧ s.recent.Coherent ∧ s.recent.Holds ⟨⟨1⟩, ⟨3⟩, 11⟩ := by
  have h0 : Run 10 [] 0 (.new 10) := .new 0
  obtain ⟨s1, h1⟩ := h0.append ⟨1⟩ ⟨2⟩ 0 (by decide) (by decide) (by decide)
  obtain ⟨s2, h2⟩ := h1.append ⟨1⟩ ⟨3⟩ 10 (by decide) (by decide) (by decide)
  obtain ⟨s3, h3⟩ := h2.append ⟨1⟩ ⟨3⟩ 11 (by decide) (by decide) (by decide)
  obtain ⟨hspaced, hcoherent, hholds, -⟩ := run_spaced h3 (by decide)
  refine ⟨s3, h3, by decide, hspaced, hcoherent, (hholds _).mpr ⟨rfl, ?_⟩⟩
  intro last hlast
  exact .inl (Option.some.inj hlast)

/-- A flag that has not expired can be gone, because a later one of its root replaced it, and a flag
that has expired can still be there, because nothing was flagged since. -/
theorem holds_ne_unexpired :
    (∃ flags now s f, Run 10 flags now s ∧ f ∈ flags ∧ now - 10 < f.timestamp ∧
      ¬ s.recent.Holds f) ∧
    ∃ flags now s f, Run 10 flags now s ∧ f ∈ flags ∧ f.timestamp ≤ now - 10 ∧
      s.recent.Holds f := by
  have h0 : Run 10 [] 0 (.new 10) := .new 0
  obtain ⟨s1, h1⟩ := h0.append ⟨1⟩ ⟨2⟩ 0 (by decide) (by decide) (by decide)
  obtain ⟨s2, h2⟩ := h1.append ⟨1⟩ ⟨2⟩ 1 (by decide) (by decide) (by decide)
  constructor
  · refine ⟨_, 1, s2, ⟨⟨1⟩, ⟨2⟩, 0⟩, h2, by decide, by decide, fun hholds => ?_⟩
    have hcurrent := (((h2.kept (by decide)).holds _).mp hholds).1
    revert hcurrent
    decide
  · have hkept := h1.kept (by decide)
    obtain ⟨passed, hpassed, -⟩ := votable_ok hkept.coherent ⟨1⟩ ⟨3⟩ 20
    have hlater := h1.votable (by decide : (0 : Timestamp) ≤ 20) hpassed
    refine ⟨_, 20, s1, ⟨⟨1⟩, ⟨2⟩, 0⟩, hlater, by decide, by decide, (hkept.holds _).mpr ⟨rfl, ?_⟩⟩
    intro last hlast
    exact .inl (Option.some.inj hlast)

end RsNano.VoteSpacing
