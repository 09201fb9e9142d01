import Mathlib.Data.List.Basic
import Mathlib.Data.Nat.Notation
import Mathlib.Tactic.TypeStar

/-!
# Decoders of chunked streams

A decoder reads a stream that arrives in chunks. One step either waits for more input, or
consumes some of it and perhaps emits a value. Input that follows does not change what a step
does, and every step makes progress. The values that such a decoder emits do not depend on how
its input is split: feeding it chunk by chunk is running it on their concatenation.
-/

namespace RsNano

/-- A decoder with states `σ` that turns input elements `α` into values `β`. -/
structure Decoder (σ α β : Type*) where
  step : σ → List α → Option (Option β × σ × List α)
  rank : σ → List α → ℕ
  step_append : ∀ {s xs o s' ys}, step s xs = some (o, s', ys) →
    ∀ zs, step s (xs ++ zs) = some (o, s', ys ++ zs)
  step_rank : ∀ {s xs o s' ys}, step s xs = some (o, s', ys) → rank s' ys < rank s xs

namespace Decoder

variable {σ α β : Type*}

/-- The decoder emits these values from its input and then waits. -/
inductive Runs (d : Decoder σ α β) : σ → List α → List β → σ → List α → Prop
  | wait {s xs} (h : d.step s xs = none) : Runs d s xs [] s xs
  | step {s xs o s' ys os t zs} (h : d.step s xs = some (o, s', ys)) (rest : Runs d s' ys os t zs) :
      Runs d s xs (o.toList ++ os) t zs

/-- The decoder gets its input in chunks and emits these values. -/
inductive Feeds (d : Decoder σ α β) : σ → List α → List (List α) → List β → σ → List α → Prop
  | nil {s xs} : Feeds d s xs [] [] s xs
  | cons {s xs c s' ys cs t zs os os'} (h : Runs d s (xs ++ c) os s' ys)
      (rest : Feeds d s' ys cs os' t zs) : Feeds d s xs (c :: cs) (os ++ os') t zs

variable {d : Decoder σ α β} {s s' t : σ} {xs ys ws : List α} {os os' : List β}

/-- Every input is decoded until the decoder waits. -/
theorem exists_runs (d : Decoder σ α β) (s : σ) (xs : List α) : ∃ os t zs, d.Runs s xs os t zs := by
  induction hn : d.rank s xs using Nat.strongRecOn generalizing s xs with
  | ind n ih =>
    cases hstep : d.step s xs with
    | none => exact ⟨[], s, xs, .wait hstep⟩
    | some p =>
      obtain ⟨o, s', ys⟩ := p
      obtain ⟨os, t, zs, hruns⟩ := ih _ (hn ▸ d.step_rank hstep) s' ys rfl
      exact ⟨o.toList ++ os, t, zs, .step hstep hruns⟩

namespace Runs

/-- A run ends where the decoder waits. -/
theorem waits (h : d.Runs s xs os t ys) : d.step t ys = none := by
  induction h with
  | wait h => exact h
  | step _ _ ih => exact ih

/-- The run of an input is unique. -/
theorem unique {t' : σ} (h : d.Runs s xs os t ys) (h' : d.Runs s xs os' t' ws) :
    os = os' ∧ t = t' ∧ ys = ws := by
  induction h generalizing os' with
  | wait h =>
    cases h' with
    | wait => exact ⟨rfl, rfl, rfl⟩
    | step hstep => cases h.symm.trans hstep
  | step h _ ih =>
    cases h' with
    | wait hwait => cases h.symm.trans hwait
    | step hstep hrest =>
      cases h.symm.trans hstep
      obtain ⟨rfl, rfl, rfl⟩ := ih hrest
      exact ⟨rfl, rfl, rfl⟩

/-- Input that arrives later continues the run. -/
theorem append (h : d.Runs s xs os s' ys) {zs : List α} (h' : d.Runs s' (ys ++ zs) os' t ws) :
    d.Runs s (xs ++ zs) (os ++ os') t ws := by
  induction h with
  | wait => exact h'
  | step hstep _ ih =>
    rw [List.append_assoc]
    exact .step (d.step_append hstep zs) (ih h')

end Runs

/-- Feeding chunks to a waiting decoder is running it on all of them at once. -/
theorem feeds_iff_runs (hwait : d.step s xs = none) {cs : List (List α)} :
    d.Feeds s xs cs os t ys ↔ d.Runs s (xs ++ cs.flatten) os t ys := by
  induction cs generalizing s xs os with
  | nil =>
    rw [List.flatten_nil, List.append_nil]
    constructor
    · intro h
      cases h
      exact .wait hwait
    · intro h
      obtain ⟨rfl, rfl, rfl⟩ := h.unique (.wait hwait)
      exact .nil
  | cons c cs ih =>
    rw [List.flatten_cons, ← List.append_assoc]
    constructor
    · intro h
      cases h with
      | cons hruns hrest => exact hruns.append ((ih hruns.waits).mp hrest)
    · intro h
      obtain ⟨os1, s1, ys1, hruns⟩ := d.exists_runs s (xs ++ c)
      obtain ⟨os2, t2, ys2, hrest⟩ := d.exists_runs s1 (ys1 ++ cs.flatten)
      obtain ⟨rfl, rfl, rfl⟩ := h.unique (hruns.append hrest)
      exact .cons hruns ((ih hruns.waits).mpr hrest)

end Decoder

end RsNano
