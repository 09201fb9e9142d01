import RsNano.Lib.Machine
import Mathlib.Data.List.Basic

/-!
# Traces of a state machine

A run only connects two states. A trace also records the transitions between them, so that
statements about the past of a state can be made: `Since P Q` says that a transition satisfied `P`
and that all states from then on satisfy `Q`.
-/

namespace RsNano.Machine

open List

variable {State Operation Panic : Type*}

/-- An operation with the states before and after it. -/
structure Transition (State Operation : Type*) where
  before : State
  operation : Operation
  after : State

/-- The transitions of a run, the last one at the end. -/
inductive Trace (apply : State → Operation → Except Panic State)
    (allowed : State → Operation → Prop) (start : State) :
    List (Transition State Operation) → State → Prop
  | nil : Trace apply allowed start [] start
  | snoc {steps : List (Transition State Operation)} {s s' : State} {op : Operation}
      (h : Trace apply allowed start steps s) (hallow : allowed s op)
      (hok : apply s op = .ok s') : Trace apply allowed start (steps ++ [⟨s, op, s'⟩]) s'

variable {apply : State → Operation → Except Panic State} {allowed : State → Operation → Prop}
  {start s : State} {steps : List (Transition State Operation)}

/-- A trace is a run. -/
theorem Trace.run (h : Trace apply allowed start steps s) : Run apply allowed start s := by
  induction h with
  | nil => exact .refl
  | snoc _ hallow hok ih => exact ih.tail ⟨_, hallow, hok⟩

/-- One more transition, given by its result. -/
theorem Trace.result (h : Trace apply allowed start steps s) (op : Operation)
    (hallow : allowed s op) (hok : (apply s op).toOption.isSome = true) :
    Trace apply allowed start (steps ++ [⟨s, op, Machine.result apply s op⟩])
      (Machine.result apply s op) :=
  h.snoc hallow (apply_eq_result hok)

/-- A property that a step keeps exactly under a condition holds throughout a trace exactly if all
its steps meet the condition. -/
theorem Trace.forall_iff {P : State → Prop} {C : State → Operation → Prop}
    (h : Trace apply allowed start steps s) (hbeg : P start)
    (hstep : ∀ {earlier s op s'}, Trace apply allowed start earlier s → P s → allowed s op →
      apply s op = .ok s' → (P s' ↔ C s op)) :
    (P s ∧ ∀ x ∈ steps, P x.before) ↔ ∀ x ∈ steps, C x.before x.operation := by
  induction h with
  | nil =>
    exact ⟨fun _ x hx => absurd hx not_mem_nil, fun _ => ⟨hbeg, fun x hx => absurd hx not_mem_nil⟩⟩
  | snoc h hallow hok ih =>
    simp only [forall_mem_append, forall_mem_singleton, ← ih]
    constructor
    · rintro ⟨hs', hbef, hs⟩
      exact ⟨⟨hs, hbef⟩, (hstep h hs hallow hok).mp hs'⟩
    · rintro ⟨⟨hs, hbef⟩, hc⟩
      exact ⟨(hstep h hs hallow hok).mpr hc, hbef, hs⟩

/-- The condition held at some transition, and the property has held since. -/
def Since (P : Transition State Operation → Prop) (Q : State → Prop)
    (steps : List (Transition State Operation)) : Prop :=
  ∃ earlier step later, steps = earlier ++ step :: later ∧ P step ∧ ∀ x ∈ step :: later, Q x.after

variable {P : Transition State Operation → Prop} {Q : State → Prop}

/-- The last transition satisfies the condition, or the property is still kept by it. -/
theorem since_snoc {x : Transition State Operation} :
    Since P Q (steps ++ [x]) ↔ Q x.after ∧ (P x ∨ Since P Q steps) := by
  constructor
  · rintro ⟨earlier, step, later, heq, hstep, hlater⟩
    rcases later.eq_nil_or_concat' with rfl | ⟨later, y, rfl⟩
    · obtain ⟨-, hx⟩ := append_inj' heq rfl
      cases hx
      exact ⟨hlater x mem_cons_self, .inl hstep⟩
    · rw [← cons_append, ← append_assoc] at heq
      obtain ⟨rfl, hy⟩ := append_inj' heq rfl
      cases hy
      refine ⟨hlater x (by simp), .inr ⟨earlier, step, later, rfl, hstep, fun z hz => ?_⟩⟩
      exact hlater z (mem_append_left [x] hz)
  · rintro ⟨hx, hstep | ⟨earlier, step, later, rfl, hstep, hlater⟩⟩
    · exact ⟨steps, x, [], rfl, hstep, by simpa using hx⟩
    · refine ⟨earlier, step, later ++ [x], by simp, hstep, fun z hz => ?_⟩
      rw [← cons_append, mem_append, mem_singleton] at hz
      rcases hz with hz | rfl
      · exact hlater z hz
      · exact hx

end RsNano.Machine
