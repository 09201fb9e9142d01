import RsNano.Lib.BoundedStack
import RsNano.Ledger.Dependents

/-!
# The progress of the cementer

The cementer walks down the unconfirmed dependencies of its target. Its stack is bounded and
forgets where it came from, so a call may end before the target is confirmed; but every call
confirms something, and only blocks that the target depends on. Repeated calls therefore confirm
the target, if this is possible at all: if the dependencies of the target are in the ledger and
do not go round in circles. `Ledger.Cementable` is this condition.
-/

namespace RsNano.Ledger

open BlockCementer BoundedStack List

/-- The block is confirmed, or it is in the ledger and its dependencies are cementable. -/
inductive Cementable (c : LedgerConstants) (l : Ledger) : BlockHash → Prop
  | confirmed {x : BlockHash} (h : l.Confirmed x) : Cementable c l x
  | block {x : BlockHash} {sb : SavedBlock} (hget : l.block.get x = some sb)
      (hdeps : ∀ d ∈ (sb.dependentBlocks c).iter, Cementable c l d) : Cementable c l x

variable {c : LedgerConstants} {l l' : Ledger} {maxBlocks : ℕ} {s s' : BlockCementer}
  {hash target x : BlockHash} {block : SavedBlock}

/-- The dependencies of a cementable block are cementable. -/
theorem Cementable.of_dependents (hc : l.Cemented c) (h : Dependents c l.block x target)
    (htgt : Cementable c l target) : Cementable c l x := by
  induction h with
  | refl => exact htgt
  | tail _ hstep ih =>
    obtain ⟨hne, sb, hsb, hdep⟩ := hstep
    have hmem := (hc.dependents hsb _).mpr ⟨hne, hdep.imp_left Eq.symm⟩
    refine ih ?_
    cases htgt with
    | confirmed hconf =>
      obtain ⟨sb', hsb', hle⟩ := hconf
      cases hsb.symm.trans hsb'
      exact .confirmed (hc.closed hsb hle hmem)
    | block hget hdeps =>
      cases hsb.symm.trans hget
      exact hdeps _ hmem

/-! ### One iteration -/

/-- The unconfirmed dependencies are pushed on a bounded stack. -/
theorem foldl_pushDependent (deps stack : List BlockHash) :
    deps.foldl (BlockCementer.pushDependent l maxBlocks) stack =
      pushAll (fun d => !BlockCementer.isConfirmed l d) maxBlocks stack deps := by
  congr 1
  funext stack d
  cases hd : BlockCementer.isConfirmed l d with
  | true => simp [BlockCementer.pushDependent, hd]
  | false => simp [BlockCementer.pushDependent, hd, push]

/-- A block leaves the stack when its dependencies are confirmed; it is cemented if it was not
confirmed. -/
theorem iterate_of_confirmed (hget : l.block.get hash = some block)
    (hdeps : ∀ d ∈ (block.dependentBlocks c).iter, BlockCementer.isConfirmed l d = true)
    (maxBlocks : ℕ) (rest : List BlockHash) (result : List SavedBlock) :
    BlockCementer.iterate c maxBlocks l ⟨hash :: rest, result⟩ hash =
      .ok (if BlockCementer.isConfirmed l hash = false then
        (BlockCementer.cement l block, ⟨rest, block :: result⟩) else (l, ⟨rest, result⟩)) := by
  have hstack : (block.dependentBlocks c).iter.foldl (BlockCementer.pushDependent l maxBlocks)
      (hash :: rest) = hash :: rest := by
    rw [foldl_pushDependent]
    exact pushAll_eq_self fun d hd => by simp [hdeps d hd]
  simp only [BlockCementer.iterate, hget, hstack, head?_cons, if_true, tail_cons]
  split
  · rfl
  · rfl

/-- A block with unconfirmed dependencies stays on the stack below one of them, or is
forgotten. -/
theorem iterate_of_unconfirmed (hget : l.block.get hash = some block)
    (hoth : hash ∉ (block.dependentBlocks c).iter) (hlimit : 1 ≤ maxBlocks)
    (hdep : ∃ d ∈ (block.dependentBlocks c).iter, BlockCementer.isConfirmed l d = false)
    (stack : List BlockHash) (result : List SavedBlock) :
    ∃ d rest, d ∈ (block.dependentBlocks c).iter ∧ BlockCementer.isConfirmed l d = false ∧
      pushAll (fun d => !BlockCementer.isConfirmed l d) maxBlocks stack
        (block.dependentBlocks c).iter = d :: rest ∧
      BlockCementer.iterate c maxBlocks l ⟨stack, result⟩ hash = .ok (l, ⟨d :: rest, result⟩) := by
  obtain ⟨d, hd, hconf, htop⟩ := head?_pushAll hlimit stack
    (p := fun d => !BlockCementer.isConfirmed l d) (by simpa using hdep)
  obtain ⟨rest, hrest⟩ := head?_eq_some_iff.mp htop
  have hne : d ≠ hash := by
    rintro rfl
    exact hoth hd
  refine ⟨d, rest, hd, by simpa using hconf, hrest, ?_⟩
  simp [BlockCementer.iterate, hget, foldl_pushDependent, hrest, hne]

/-- The body of the loop when nothing is refreshed. -/
theorem loopBody_of_iterate {rest : List BlockHash} {result : List SavedBlock}
    (target : BlockHash) (i : ℕ)
    (h : iterate c maxBlocks l ⟨hash :: rest, result⟩ hash = .ok (l', s')) :
    loopBody c target maxBlocks (fun _ => none) i (l, ⟨hash :: rest, result⟩) =
      .ok (if maxBlocks ≤ s'.result.length then .inr (l', s') else .inl (l', s')) := by
  refine bind_eq_ok.mpr ⟨(l', s'), h, ?_⟩
  by_cases hle : maxBlocks ≤ s'.result.length
  · rw [if_pos hle]
    exact if_pos (.inr hle)
  · rw [if_neg hle]
    refine if_neg ?_
    simpa using hle

/-- Cementing a block confirms this block and nothing else. -/
theorem Cemented.confirmed_cement_iff (hc : l.Cemented c) (hl : l.Chained)
    (hblk : l.block.get hash = some block) (hconf : BlockCementer.isConfirmed l hash = false)
    (hdeps : ∀ d ∈ (block.dependentBlocks c).iter, l.Confirmed d) :
    (BlockCementer.cement l block).Confirmed x ↔ l.Confirmed x ∨ x = hash := by
  have hsucc := hc.height_succ hl hblk hconf hdeps
  constructor
  · rintro ⟨sb, hsb, hle⟩
    have hget : l.block.get x = some sb := hsb
    rw [confirmedHeight_cement] at hle
    split at hle
    · next hacc =>
      rcases Nat.lt_or_ge (l.confirmedHeight sb.account) sb.height with hlt | hold
      · right
        rw [hacc] at hlt
        exact hl.linked.unique hget hblk hacc (by omega)
      · exact .inl ⟨sb, hget, hold⟩
    · exact .inl ⟨sb, hget, hle⟩
  · rintro (hx | rfl)
    · exact (keepsConfirmed_cement (by omega)).confirmed hx
    · refine ⟨block, hblk, ?_⟩
      rw [confirmedHeight_cement, if_pos rfl]

/-! ### One call -/

/-- Every block of the list has its dependencies in the given set or before it in the list. -/
def InOrder (c : LedgerConstants) (P : BlockHash → Prop) : List SavedBlock → Prop
  | [] => True
  | b :: bs =>
    (∀ d ∈ (b.dependentBlocks c).iter, P d) ∧ InOrder c (fun x => P x ∨ x = b.hash) bs

/-- A larger set keeps the order. -/
theorem InOrder.mono {P Q : BlockHash → Prop} {bs : List SavedBlock} (h : InOrder c P bs)
    (hPQ : ∀ x, P x → Q x) : InOrder c Q bs := by
  induction bs generalizing P Q with
  | nil => trivial
  | cons b bs ih =>
    exact ⟨fun d hd => hPQ d (h.1 d hd), ih h.2 fun x hx => hx.imp_left (hPQ x)⟩

/-- A list can be continued with one that is in order after it. -/
theorem InOrder.append {P : BlockHash → Prop} {bs bs' : List SavedBlock} (h : InOrder c P bs)
    (h' : InOrder c (fun x => P x ∨ x ∈ bs.map SavedBlock.hash) bs') : InOrder c P (bs ++ bs') := by
  induction bs generalizing P with
  | nil => exact h'.mono fun x hx => hx.elim id (fun hx => by cases hx)
  | cons b bs ih =>
    refine ⟨h.1, ih h.2 (h'.mono fun x hx => ?_)⟩
    rw [map_cons, mem_cons, ← or_assoc] at hx
    exact hx

/-- The blocks that were confirmed for a target between two states, in this order. -/
structure Confirms (c : LedgerConstants) (l : Ledger) (target : BlockHash) (l' : Ledger)
    (added : List SavedBlock) : Prop where
  chained : l'.Chained
  cemented : l'.Cemented c
  block_eq : l'.block = l.block
  confirmed_iff : ∀ x, l'.Confirmed x ↔ l.Confirmed x ∨ x ∈ added.map SavedBlock.hash
  stored : ∀ b ∈ added, l.block.get b.hash = some b
  unconfirmed : ∀ b ∈ added, ¬ l.Confirmed b.hash
  needed : ∀ b ∈ added, Dependents c l.block b.hash target
  nodup : (added.map SavedBlock.hash).Nodup
  inOrder : InOrder c l.Confirmed added

namespace Confirms

variable {l'' : Ledger} {added added' : List SavedBlock}

/-- Nothing is confirmed at the start. -/
theorem start (hl : l.Chained) (hc : l.Cemented c) : Confirms c l target l [] :=
  ⟨hl, hc, rfl, by simp, by simp, by simp, by simp, by simp, trivial⟩

/-- What is confirmed one after the other. -/
theorem trans (h : Confirms c l target l' added) (h' : Confirms c l' target l'' added') :
    Confirms c l target l'' (added ++ added') := by
  refine ⟨h'.chained, h'.cemented, h'.block_eq.trans h.block_eq, ?_, ?_, ?_, ?_, ?_, ?_⟩
  · intro x
    rw [h'.confirmed_iff, h.confirmed_iff, map_append, mem_append, or_assoc]
  · intro b hb
    rcases mem_append.mp hb with hb | hb
    · exact h.stored b hb
    · exact h.block_eq ▸ h'.stored b hb
  · intro b hb
    rcases mem_append.mp hb with hb | hb
    · exact h.unconfirmed b hb
    · exact fun hold => h'.unconfirmed b hb ((h.confirmed_iff _).mpr (.inl hold))
  · intro b hb
    rcases mem_append.mp hb with hb | hb
    · exact h.needed b hb
    · exact h.block_eq ▸ h'.needed b hb
  · rw [map_append, nodup_append']
    refine ⟨h.nodup, h'.nodup, fun x hx hx' => ?_⟩
    obtain ⟨b, hb, rfl⟩ := mem_map.mp hx'
    exact h'.unconfirmed b hb ((h.confirmed_iff _).mpr (.inr hx))
  · exact h.inOrder.append (h'.inOrder.mono fun x hx => (h.confirmed_iff x).mp hx)

/-- One block with confirmed dependencies is cemented. -/
theorem cement (hl : l.Chained) (hc : l.Cemented c) (hget : l.block.get hash = some block)
    (hconf : ¬ l.Confirmed hash) (hdeps : ∀ d ∈ (block.dependentBlocks c).iter, l.Confirmed d)
    (hneeded : Dependents c l.block hash target) :
    Confirms c l target (BlockCementer.cement l block) [block] := by
  have hfalse : BlockCementer.isConfirmed l hash = false := by
    rw [← Bool.not_eq_true, hl.isConfirmed_iff]
    exact hconf
  obtain rfl := hl.linked.hash_eq hget
  refine ⟨hl.withFinality _ _ _, (hc.cement hl hget hfalse hdeps).1, rfl, ?_, ?_, ?_, ?_,
    nodup_singleton _, hdeps, trivial⟩
  · intro x
    rw [hc.confirmed_cement_iff hl hget hfalse hdeps, map_singleton, mem_singleton]
  · simpa using hget
  · simpa using hconf
  · simpa using hneeded

end Confirms

/-- What holds during a call for a target, in terms of the ledger before it. -/
structure Confirming (c : LedgerConstants) (l₀ : Ledger) (target : BlockHash) (maxBlocks : ℕ)
    (l : Ledger) (s : BlockCementer) : Prop extends
    Confirms c l₀ target l s.result.reverse where
  stack : ∀ x ∈ s.stack, Dependents c l₀.block x target
  stack_length : s.stack.length ≤ maxBlocks
  result_length : s.result.length ≤ maxBlocks
  started : ¬ l₀.Confirmed target → s.result = [] →
    ∃ top rest, s.stack = top :: rest ∧ ¬ l.Confirmed top

variable (hl : l.Chained) (hc : l.Cemented c) (hlimit : 1 ≤ maxBlocks)

namespace Confirming

variable {l₀ : Ledger} {rest : List BlockHash} {result : List SavedBlock}

/-- What a block on the stack depends on is a dependency of the target. -/
theorem dependents (h : Confirming c l₀ target maxBlocks l s) (hx : x ∈ s.stack)
    (hget : l.block.get x = some block) {d : BlockHash}
    (hd : d ∈ (block.dependentBlocks c).iter) : Dependents c l₀.block d target := by
  obtain ⟨hne, hdep⟩ := (h.cemented.dependents hget d).mp hd
  rw [h.block_eq] at hget
  exact .head ⟨hne, block, hget, hdep.imp_left Eq.symm⟩ (h.stack x hx)

section

variable (h : Confirming c l₀ target maxBlocks l ⟨hash :: rest, result⟩)

include h

/-- A confirmed block leaves the stack. -/
theorem pop (hconf : l.Confirmed hash) : Confirming c l₀ target maxBlocks l ⟨rest, result⟩ := by
  refine ⟨h.toConfirms, fun x hx => h.stack x (mem_cons_of_mem _ hx),
    (Nat.le_succ _).trans h.stack_length, h.result_length, fun htgt hnone => ?_⟩
  obtain ⟨top, rest', hstack, htop⟩ := h.started htgt hnone
  cases hstack
  exact absurd hconf htop

/-- Unconfirmed dependencies are pushed. -/
theorem push (hget : l.block.get hash = some block) {d : BlockHash} {stack : List BlockHash}
    (hd : BlockCementer.isConfirmed l d = false)
    (hstack : pushAll (fun d => !BlockCementer.isConfirmed l d) maxBlocks (hash ::
    rest) (block.dependentBlocks c).iter = d :: stack) :
    Confirming c l₀ target maxBlocks l ⟨d :: stack, result⟩ := by
  refine ⟨h.toConfirms, ?_, ?_, h.result_length, fun _ _ => ⟨d, stack, rfl, fun hconf => ?_⟩⟩
  · intro x hx
    rw [← hstack] at hx
    rcases mem_of_mem_pushAll hx with hx | ⟨hx, -⟩
    · exact h.stack x hx
    · exact h.dependents mem_cons_self hget hx
  · rw [← hstack]
    exact length_pushAll_le _ h.stack_length
  · cases hd.symm.trans (h.chained.isConfirmed_iff.mpr hconf)

/-- A block with confirmed dependencies is cemented. -/
theorem cement (hget : l.block.get hash = some block) (hconf : ¬ l.Confirmed hash)
    (hdeps : ∀ d ∈ (block.dependentBlocks c).iter, l.Confirmed d)
    (hroom : result.length < maxBlocks) :
    Confirming c l₀ target maxBlocks (cement l block) ⟨rest, block :: result⟩ := by
  have hneeded := h.stack hash mem_cons_self
  rw [← h.block_eq] at hneeded
  refine ⟨?_, fun x hx => h.stack x (mem_cons_of_mem _ hx),
    (Nat.le_succ _).trans h.stack_length, hroom, fun _ hnone => by cases hnone⟩
  rw [reverse_cons]
  exact h.toConfirms.trans (.cement h.chained h.cemented hget hconf hdeps hneeded)

include hlimit

/-- What an iteration does with the block on top of the stack: it leaves the stack, it is cemented,
or an unconfirmed dependency comes on top. -/
theorem iterate_cases (hget : l.block.get hash = some block) :
    (l.Confirmed hash ∧ BlockCementer.iterate c maxBlocks l ⟨hash :: rest, result⟩ hash =
        .ok (l, ⟨rest, result⟩)) ∨
      (¬ l.Confirmed hash ∧ (∀ d ∈ (block.dependentBlocks c).iter, l.Confirmed d) ∧
        BlockCementer.iterate c maxBlocks l ⟨hash :: rest, result⟩ hash =
          .ok (BlockCementer.cement l block, ⟨rest, block :: result⟩)) ∨
      (¬ l.Confirmed hash ∧ ∃ d stack, d ∈ (block.dependentBlocks c).iter ∧ ¬ l.Confirmed d ∧
        Confirming c l₀ target maxBlocks l ⟨d :: stack, result⟩ ∧
        BlockCementer.iterate c maxBlocks l ⟨hash :: rest, result⟩ hash =
          .ok (l, ⟨d :: stack, result⟩)) := by
  have hiff : ∀ {x}, BlockCementer.isConfirmed l x = true ↔ l.Confirmed x :=
    h.chained.isConfirmed_iff
  by_cases hdeps : ∀ d ∈ (block.dependentBlocks c).iter, l.Confirmed d
  · have hiter := iterate_of_confirmed hget (fun d hd => hiff.mpr (hdeps d hd)) maxBlocks rest
      result
    by_cases hconf : l.Confirmed hash
    · refine .inl ⟨hconf, hiter.trans ?_⟩
      rw [if_neg (by rw [hiff.mpr hconf]; decide)]
    · refine .inr (.inl ⟨hconf, hdeps, hiter.trans ?_⟩)
      rw [if_pos (Bool.not_eq_true _ ▸ hiff.not.mpr hconf)]
  · have hconf : ¬ l.Confirmed hash := by
      rintro ⟨sb, hsb, hle⟩
      cases hget.symm.trans hsb
      exact hdeps fun d hd => h.cemented.closed hget hle hd
    obtain ⟨d, stack, hd, hfalse, hstack, hiter⟩ := iterate_of_unconfirmed hget
      (h.cemented.other hget) hlimit (by simpa [← hiff] using hdeps) (hash :: rest) result
    exact .inr (.inr ⟨hconf, d, stack, hd, by simp [← hiff, hfalse],
      h.push hget hfalse hstack, hiter⟩)

/-- An iteration keeps the invariant of a call. -/
theorem iterate (hroom : result.length < maxBlocks)
    (hok : BlockCementer.iterate c maxBlocks l ⟨hash :: rest, result⟩ hash = .ok (l', s')) :
    Confirming c l₀ target maxBlocks l' s' := by
  obtain ⟨block, hget⟩ : ∃ block, l.block.get hash = some block := by
    cases hget : l.block.get hash with
    | none => simp [BlockCementer.iterate, hget] at hok
    | some block => exact ⟨block, rfl⟩
  rcases h.iterate_cases hlimit hget with ⟨hconf, heq⟩ | ⟨hconf, hdeps, heq⟩ |
    ⟨hconf, d, stack, -, -, hnext, heq⟩
  · cases heq.symm.trans hok
    exact h.pop hconf
  · cases heq.symm.trans hok
    exact h.cement hget hconf hdeps hroom
  · cases heq.symm.trans hok
    exact hnext

end

include hlimit

/-- The body of the loop keeps the invariant; it ends the loop when the stack is empty or enough is
confirmed. -/
theorem loopBody (h : Confirming c l₀ target maxBlocks l s)
    (hroom : s.result.length < maxBlocks) {i : ℕ}
    {y : (Ledger × BlockCementer) ⊕ (Ledger × BlockCementer)}
    (hok : loopBody c target maxBlocks (fun _ => none) i (l, s) = .ok y) :
    y.elim
      (fun x => Confirming c l₀ target maxBlocks x.1 x.2 ∧ x.2.result.length < maxBlocks)
      (fun r => Confirming c l₀ target maxBlocks r.1 r.2 ∧
        (r.2.stack = [] ∨ maxBlocks ≤ r.2.result.length)) := by
  obtain ⟨stack, result⟩ := s
  cases stack with
  | nil =>
    cases hok
    exact ⟨h, .inl rfl⟩
  | cons hash rest =>
    obtain ⟨⟨l1, s1⟩, hiter, hy⟩ := bind_eq_ok.mp hok
    have hnext := h.iterate hlimit hroom hiter
    dsimp only at hy
    split at hy
    · next hdone =>
      cases hy
      exact ⟨hnext, .inr (hdone.resolve_left (by simp))⟩
    · next hdone =>
      cases hy
      exact ⟨hnext, Nat.lt_of_not_le fun hle => hdone (.inr hle)⟩

/-- A call gets from an unconfirmed block on top of the stack to one that it cements: the way down
the dependencies ends. -/
theorem returns_of_cementable {x : BlockHash} (hx : Cementable c l₀ x) {i : ℕ}
    {rest : List BlockHash} (h : Confirming c l₀ target maxBlocks l ⟨x :: rest, result⟩) (hconf : ¬ l.Confirmed x)
    (hroom : result.length < maxBlocks)
    (hrest : ∀ l' s', Confirming c l₀ target maxBlocks l' s' →
      s'.result.length = result.length + 1 → s'.result.length < maxBlocks → ∀ i,
      ∃ r, Loop.Returns .outOfFuel (BlockCementer.loopBody c target maxBlocks fun _ => none) i
        (l', s') r) :
    ∃ r, Loop.Returns .outOfFuel (BlockCementer.loopBody c target maxBlocks fun _ => none) i
      (l, ⟨x :: rest, result⟩) r := by
  induction hx generalizing i rest with
  | confirmed hold => exact absurd ((h.confirmed_iff _).mpr (.inl hold)) hconf
  | @block x block hget hdeps ih =>
    rw [← h.block_eq] at hget
    rcases h.iterate_cases hlimit hget with ⟨hold, -⟩ | ⟨-, hall, heq⟩ |
      ⟨-, d, stack, hd, hopen, hnext, heq⟩
    · exact absurd hold hconf
    · have hbody := loopBody_of_iterate target i heq
      by_cases hdone : maxBlocks ≤ result.length + 1
      · rw [if_pos (by exact hdone)] at hbody
        exact ⟨_, .of_done hbody⟩
      · rw [if_neg (by exact hdone)] at hbody
        obtain ⟨r, hr⟩ := hrest _ _ (h.cement hget hconf hall hroom) rfl (Nat.lt_of_not_le hdone)
          (i + 1)
        exact ⟨r, .of_step hbody hr⟩
    · have hbody := loopBody_of_iterate target i heq
      rw [if_neg (Nat.not_le.mpr hroom)] at hbody
      obtain ⟨r, hr⟩ := ih d hd hnext hopen
      exact ⟨r, .of_step hbody hr⟩

/-- A call for a cementable target returns. The outer induction is on the blocks that can still be
confirmed, the inner one on the stack, whose confirmed blocks are taken off. -/
theorem returns (htgt : Cementable c l₀ target) (hc : l₀.Cemented c)
    (room : ℕ) {i : ℕ} (h : Confirming c l₀ target maxBlocks l s)
    (hroom : s.result.length < maxBlocks) (hle : maxBlocks ≤ s.result.length + room) :
    ∃ r, Loop.Returns .outOfFuel (BlockCementer.loopBody c target maxBlocks fun _ => none) i
      (l, s) r := by
  induction room generalizing i l s with
  | zero => omega
  | succ room ih =>
    obtain ⟨stack, result⟩ := s
    induction stack generalizing i with
    | nil => exact ⟨_, .of_done rfl⟩
    | cons x rest ihstack =>
      by_cases hconf : l.Confirmed x
      · have ⟨block, hget, _⟩ := hconf
        rcases h.iterate_cases hlimit hget with ⟨-, heq⟩ | ⟨hopen, -⟩ | ⟨hopen, -⟩
        · have hbody := loopBody_of_iterate target i heq
          rw [if_neg (Nat.not_le.mpr hroom)] at hbody
          obtain ⟨r, hr⟩ := ihstack (h.pop hconf) hroom hle
          exact ⟨r, .of_step hbody hr⟩
        · exact absurd hconf hopen
        · exact absurd hconf hopen
      · refine returns_of_cementable hlimit (htgt.of_dependents hc (h.stack x mem_cons_self))
          h hconf hroom fun l' s' h' hlen hroom' i => ih h' hroom' ?_
        change maxBlocks ≤ result.length + (room + 1) at hle
        omega

include hl hc

/-- The start of a call. -/
theorem start : Confirming c l target maxBlocks l ⟨[target], []⟩ := by
  refine ⟨.start hl hc, ?_, hlimit, Nat.zero_le _, ?_⟩
  · intro x hx
    rw [mem_singleton.mp hx]
    exact .refl
  · intro hunconf _
    exact ⟨target, [], rfl, hunconf⟩

end Confirming

/-- The stack of a call is bounded, also after each push and before its bottom is forgotten. -/
def StackBounded (c : LedgerConstants) (l : Ledger) (target : BlockHash) (maxBlocks : ℕ) : Prop :=
  ∀ i l' s, Loop.Reaches (loopBody c target maxBlocks fun _ => none) 0
      (l, ⟨[target], []⟩) i (l', s) →
    s.stack.length ≤ maxBlocks + 1 ∧
    ∀ hash block before d, s.stack.head? = some hash → l'.block.get hash = some block →
      before ++ [d] <+: (block.dependentBlocks c).iter →
      (d :: before.foldl (pushDependent l' maxBlocks) s.stack).length ≤ maxBlocks + 1

include hl hc hlimit

/-- Every call keeps its stack bounded. -/
theorem stackBounded : StackBounded c l target maxBlocks := by
  intro i l' s hrchs
  have hst : Confirming c l target maxBlocks l' s := by
    refine (hrchs.invariant (P := fun _ x => Confirming c l target maxBlocks x.1 x.2 ∧
      x.2.result.length < maxBlocks) ?_ ⟨.start hl hc hlimit, hlimit⟩).1
    rintro i ⟨l1, s1⟩ x ⟨h1, hroom⟩ hbody
    exact h1.loopBody hlimit hroom hbody
  refine ⟨hst.stack_length.trans (Nat.le_succ _), fun hash block before d _ _ _ => ?_⟩
  rw [foldl_pushDependent]
  exact Nat.succ_le_succ (length_pushAll_le _ hst.stack_length)

/-- What a call returns. -/
theorem confirm_spec {fuel : ℕ}
    (h : BlockCementer.confirm c fuel (fun _ => none) target maxBlocks l = .ok (l', s)) :
    Confirms c l target l' s.result.reverse ∧ s.result.length ≤ maxBlocks ∧
      (¬ l.Confirmed target → s.result ≠ []) := by
  have hend : Confirming c l target maxBlocks l' s ∧
      (s.stack = [] ∨ maxBlocks ≤ s.result.length) := by
    refine Loop.run_invariant (P := fun _ x => Confirming c l target maxBlocks x.1 x.2 ∧
        x.2.result.length < maxBlocks)
      (Q := fun r => Confirming c l target maxBlocks r.1 r.2 ∧
        (r.2.stack = [] ∨ maxBlocks ≤ r.2.result.length)) ?_ ⟨.start hl hc hlimit, hlimit⟩ h
    rintro i ⟨l1, s1⟩ y ⟨h1, hroom⟩ hbody
    exact h1.loopBody hlimit hroom hbody
  obtain ⟨hst, hdone⟩ := hend
  refine ⟨hst.toConfirms, hst.result_length, fun htgt hnone => ?_⟩
  obtain ⟨top, rest, hstack, -⟩ := hst.started htgt hnone
  rcases hdone with hemp | hfull
  · cases hstack.symm.trans hemp
  · rw [hnone] at hfull
    exact absurd (hlimit.trans hfull) (by decide)

/-- A call for a cementable target returns. -/
theorem Cementable.confirm (h : Cementable c l target) :
    ∃ l' s n, ∀ fuel, n ≤ fuel →
      BlockCementer.confirm c fuel (fun _ => none) target maxBlocks l = .ok (l', s) := by
  obtain ⟨⟨l', s⟩, n, hn⟩ := Confirming.returns hlimit h hc maxBlocks
    (.start hl hc hlimit) hlimit (Nat.le_add_left _ _)
  exact ⟨l', s, n, hn⟩

end RsNano.Ledger
