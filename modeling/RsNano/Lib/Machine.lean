import Mathlib.Logic.Relation
import RsNano.Lib.Loop

/-!
# Runs of a state machine

A machine performs operations on a state, and an operation can panic. A run is a finite sequence
of operations that return, each of them allowed in the state it meets.
-/

namespace RsNano.Machine

variable {State Operation Panic : Type*} {apply : State → Operation → Except Panic State}
  {allowed : State → Operation → Prop} {s s' : State} {op : Operation}

/-- The states are connected by a run. -/
def Run (apply : State → Operation → Except Panic State) (allowed : State → Operation → Prop) :
    State → State → Prop :=
  Relation.ReflTransGen fun s s' => ∃ op, allowed s op ∧ apply s op = .ok s'

/-- The state after an operation, unchanged if the operation panics. -/
def result (apply : State → Operation → Except Panic State) (s : State) (op : Operation) : State :=
  (apply s op).toOption.getD s

theorem apply_eq_result (hok : (apply s op).toOption.isSome = true) :
    apply s op = .ok (Machine.result apply s op) := by
  cases hop : apply s op with
  | error panic =>
    rw [hop] at hok
    cases hok
  | ok s' =>
    rw [Machine.result, hop]
    rfl

/-- One more operation of a run, given by its result. -/
theorem Run.result (h : Run apply allowed s s') (hallow : allowed s' op)
    (hok : (apply s' op).toOption.isSome = true) :
    Run apply allowed s (Machine.result apply s' op) :=
  h.tail ⟨op, hallow, apply_eq_result hok⟩

/-- A run stays one where more is allowed. -/
theorem Run.mono {allowed' : State → Operation → Prop} (h : Run apply allowed s s')
    (hallow : ∀ s op, allowed s op → allowed' s op) : Run apply allowed' s s' := by
  refine Relation.ReflTransGen.mono ?_ s s' h
  rintro s s' ⟨op, hop, happ⟩
  exact ⟨op, hallow s op hop, happ⟩

/-- What every allowed operation keeps is kept by a run. -/
theorem Run.invariant {P : State → Prop} (h : Run apply allowed s s') (hs : P s)
    (hstep : ∀ {s op s'}, P s → allowed s op → apply s op = .ok s' → P s') : P s' := by
  induction h with
  | refl => exact hs
  | tail _ hlast ih =>
    obtain ⟨op, hallow, hop⟩ := hlast
    exact hstep ih hallow hop

/-- What is kept by every allowed operation, all of which return, is kept by a run. -/
theorem Run.invariant_of_ok {P : State → Prop} (h : Run apply allowed s s') (hs : P s)
    (hstep : ∀ {s op}, P s → allowed s op → ∃ s', apply s op = .ok s' ∧ P s') : P s' := by
  refine h.invariant hs fun hp hallow hop => ?_
  obtain ⟨_, hop', hp'⟩ := hstep hp hallow
  cases hop.symm.trans hop'
  exact hp'

/-- A list of operations that return, each allowed in every state, is a run. -/
theorem Run.of_foldlM {ops : List Operation} (hops : ops.foldlM apply s = .ok s')
    (hallow : ∀ op ∈ ops, ∀ s, allowed s op) : Run apply allowed s s' := by
  induction ops generalizing s with
  | nil =>
    cases hops
    exact .refl
  | cons op ops ih =>
    obtain ⟨s1, hop, hrest⟩ := bind_eq_ok.mp hops
    refine .head ⟨op, hallow op List.mem_cons_self s, hop⟩ (ih hrest fun op' h => ?_)
    exact hallow op' (List.mem_cons_of_mem _ h)

end RsNano.Machine
