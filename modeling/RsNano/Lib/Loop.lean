import Mathlib.Tactic.TypeStar
import Mathlib.Data.Nat.Notation

/-!
# Fallible loops

A loop whose body can fail, continue with a new state, or return. `Loop.run` gives it a
number of steps and fails when they are used up, so that it is structurally recursive and
can be evaluated. The body sees the index of its iteration; this is how a loop reads a clock.

The rules are the partial-correctness rule (`run_invariant`), the total-correctness rule
(`run_of_variant`), monotonicity in the number of steps, and `run_of_reaches`, which turns a chain
of iterations into an equation between runs where no variant is at hand.
-/

namespace RsNano

section

universe u

variable {ε : Type*} {α β : Type u} {x : Except ε α}

/-- A sequence of two computations returns exactly when both do. -/
@[simp] theorem bind_eq_ok {f : α → Except ε β} {b : β} :
    (x >>= f) = .ok b ↔ ∃ a, x = .ok a ∧ f a = .ok b := by
  cases x with
  | error e =>
    constructor
    · intro h
      cases h
    · rintro ⟨a, h, -⟩
      cases h
  | ok a => exact ⟨fun h => ⟨a, rfl, h⟩, fun ⟨_, ha, h⟩ => by cases ha; exact h⟩

/-- A check followed by a computation returns exactly when both do. -/
theorem seq_eq_ok {x : Except ε PUnit} {y : Except ε β} {b : β} :
    (x >>= fun _ => y) = .ok b ↔ x = .ok ⟨⟩ ∧ y = .ok b := by
  rw [bind_eq_ok]
  exact ⟨fun ⟨_, hx, hy⟩ => ⟨hx, hy⟩, fun ⟨hx, hy⟩ => ⟨⟨⟩, hx, hy⟩⟩

/-- Returning a value is succeeding with it. -/
@[simp] theorem pure_eq_ok {a b : α} : (pure a : Except ε α) = .ok b ↔ a = b :=
  ⟨fun h => by cases h; rfl, fun h => by rw [h]; rfl⟩

/-- A mapped result comes from a result. -/
theorem map_eq_ok {f : α → β} {b : β} : x.map f = .ok b ↔ ∃ a, x = .ok a ∧ f a = b := by
  cases x with
  | error e | ok a => simp [Except.map]

/-- A computation that succeeds does so with any treatment of its errors. -/
theorem mapError_eq_ok {δ : Type*} {f : ε → δ} {a : α} : x.mapError f = .ok a ↔ x = .ok a := by
  cases x with
  | error e => exact ⟨nofun, nofun⟩
  | ok b => exact ⟨fun h => by cases h; rfl, fun h => by cases h; rfl⟩

/-- A fold whose steps all succeed and keep an invariant succeeds and keeps it. -/
theorem foldlM_ok {ι : Type*} {P : α → Prop} {f : α → ι → Except ε α} {l : List ι} {a : α}
    (hstep : ∀ a i, i ∈ l → P a → ∃ a', f a i = .ok a' ∧ P a') (ha : P a) :
    ∃ a', l.foldlM f a = .ok a' ∧ P a' := by
  induction l generalizing a with
  | nil => exact ⟨a, rfl, ha⟩
  | cons i l ih =>
    obtain ⟨a1, hf, ha1⟩ := hstep a i List.mem_cons_self ha
    obtain ⟨a2, hfold, ha2⟩ := ih (fun a i hi => hstep a i (List.mem_cons_of_mem _ hi)) ha1
    refine ⟨a2, ?_, ha2⟩
    exact bind_eq_ok.mpr ⟨a1, hf, hfold⟩

/-- A fold whose steps all succeed and keep an invariant of the items done so far. -/
theorem foldlM_prefix_ok {ι : Type*} {P : List ι → α → Prop} {f : α → ι → Except ε α}
    {l : List ι} {a : α} (done : List ι)
    (hstep : ∀ a before i after, done ++ l = before ++ i :: after → P before a →
      ∃ a', f a i = .ok a' ∧ P (before ++ [i]) a')
    (ha : P done a) : ∃ a', l.foldlM f a = .ok a' ∧ P (done ++ l) a' := by
  induction l generalizing a done with
  | nil =>
    refine ⟨a, rfl, ?_⟩
    rwa [List.append_nil]
  | cons i l ih =>
    obtain ⟨a1, hf, ha1⟩ := hstep a done i l rfl ha
    have hassoc : done ++ [i] ++ l = done ++ i :: l := by rw [List.append_assoc]; rfl
    obtain ⟨a2, hfold, ha2⟩ := ih (done ++ [i]) (by rw [hassoc]; exact hstep) ha1
    rw [hassoc] at ha2
    refine ⟨a2, ?_, ha2⟩
    exact bind_eq_ok.mpr ⟨a1, hf, hfold⟩

/-- A result that passes a test exists when the computation followed by the test says so. -/
theorem exists_eq_ok {p : α → Bool} (h : (x.map p).toOption = some true) :
    ∃ a, x = .ok a ∧ p a = true := by
  cases x with
  | error e => cases h
  | ok a => exact ⟨a, rfl, Option.some.inj h⟩

end

namespace Loop

variable {ε σ ρ : Type*} {exhausted : ε} {body : ℕ → σ → Except ε (σ ⊕ ρ)}

/-- Run a loop for at most `fuel` iterations, the first of which has index `i`. -/
def run (exhausted : ε) (body : ℕ → σ → Except ε (σ ⊕ ρ)) : ℕ → ℕ → σ → Except ε ρ
  | 0, _, _ => .error exhausted
  | fuel + 1, i, s =>
    match body i s with
    | .error e => .error e
    | .ok (.inr r) => .ok r
    | .ok (.inl s') => run exhausted body fuel (i + 1) s'

/-- A chain of iterations that all continue. -/
inductive Reaches (body : ℕ → σ → Except ε (σ ⊕ ρ)) : ℕ → σ → ℕ → σ → Prop
  | refl (i : ℕ) (s : σ) : Reaches body i s i s
  | step {i j : ℕ} {s s' t : σ} (h : body i s = .ok (.inl s'))
      (rest : Reaches body (i + 1) s' j t) : Reaches body i s j t

variable {i j fuel : ℕ} {s t : σ} {r : ρ}

/-- Chains of iterations can be joined. -/
theorem Reaches.trans {k : ℕ} {u : σ} (h : Reaches body i s j t) (h' : Reaches body j t k u) :
    Reaches body i s k u := by
  induction h with
  | refl => exact h'
  | step hstep _ ih => exact .step hstep (ih h')

/-- What every iteration preserves holds after a chain of iterations. -/
theorem Reaches.invariant {P : ℕ → σ → Prop}
    (hbody : ∀ i s s', P i s → body i s = .ok (.inl s') → P (i + 1) s') (hP : P i s)
    (h : Reaches body i s j t) : P j t := by
  induction h with
  | refl => exact hP
  | step hstep _ ih => exact ih (hbody _ _ _ hP hstep)

/-- The index counts the iterations. -/
theorem Reaches.le (h : Reaches body i s j t) : i ≤ j := by
  induction h with
  | refl => exact Nat.le_refl _
  | step _ _ ih => exact Nat.le_of_succ_le ih

/-- A chain that comes back to its index is empty. -/
theorem Reaches.eq (h : Reaches body i s i t) : t = s := by
  cases h with
  | refl => rfl
  | step _ rest => exact absurd rest.le (Nat.not_succ_le_self i)

theorem run_succ (fuel i : ℕ) (s : σ) :
    run exhausted body (fuel + 1) i s =
      match body i s with
      | .error e => .error e
      | .ok (.inr r) => .ok r
      | .ok (.inl s') => run exhausted body fuel (i + 1) s' :=
  rfl

/-- A loop that returns does so in one iteration, or continues with fewer steps. -/
theorem run_succ_eq_ok :
    run exhausted body (fuel + 1) i s = .ok r ↔
      body i s = .ok (.inr r) ∨
        ∃ s', body i s = .ok (.inl s') ∧ run exhausted body fuel (i + 1) s' = .ok r := by
  rw [run_succ]
  cases body i s with
  | error e => simp
  | ok x => cases x <;> simp

/-- A body that ignores its index can start at any. -/
theorem run_index {body : σ → Except ε (σ ⊕ ρ)} (fuel i j : ℕ) (s : σ) :
    run exhausted (fun _ => body) fuel i s = run exhausted (fun _ => body) fuel j s := by
  induction fuel generalizing i j s with
  | zero => rfl
  | succ fuel ih =>
    rw [run_succ, run_succ]
    split
    · rfl
    · rfl
    · exact ih (i + 1) (j + 1) _

/-- Partial correctness: what every iteration preserves holds when the loop returns. -/
theorem run_invariant {P : ℕ → σ → Prop} {Q : ρ → Prop}
    (hbody : ∀ i s x, P i s → body i s = .ok x → Sum.elim (P (i + 1)) Q x) (hP : P i s)
    (hrun : run exhausted body fuel i s = .ok r) : Q r := by
  induction fuel generalizing i s with
  | zero => cases hrun
  | succ fuel ih =>
    rcases run_succ_eq_ok.mp hrun with hr | ⟨s', hs', hrest⟩
    · exact hbody i s (.inr r) hP hr
    · exact ih (hbody i s (.inl s') hP hs') hrest

/-- Total correctness: a loop whose iterations preserve an invariant and decrease a variant returns
within as many steps. -/
theorem run_of_variant {P : σ → Prop} {Q : ρ → Prop} (variant : σ → ℕ)
    (hbody : ∀ i s, P s → ∃ x, body i s = .ok x ∧ Sum.elim (fun s' => P s' ∧ variant s' < variant s)
    Q x) (hP : P s) (hfuel : variant s < fuel) :
    ∃ r, run exhausted body fuel i s = .ok r ∧ Q r := by
  induction fuel generalizing i s with
  | zero => exact absurd hfuel (Nat.not_lt_zero _)
  | succ fuel ih =>
    obtain ⟨x, hx, hnext⟩ := hbody i s hP
    cases x with
    | inr r => exact ⟨r, run_succ_eq_ok.mpr (.inl hx), hnext⟩
    | inl s' =>
      obtain ⟨hP', hlt⟩ := hnext
      obtain ⟨r, hrun, hr⟩ := ih hP' (by omega)
      exact ⟨r, run_succ_eq_ok.mpr (.inr ⟨s', hx, hrun⟩), hr⟩

/-- A loop fails when its steps are used up or an iteration fails. -/
theorem exists_of_run_eq_error {e : ε} (h : run exhausted body fuel i s = .error e) :
    e = exhausted ∨ ∃ j t, Reaches body i s j t ∧ body j t = .error e := by
  induction fuel generalizing i s with
  | zero =>
    cases h
    exact .inl rfl
  | succ fuel ih =>
    rw [run_succ] at h
    split at h
    · next hbody =>
      cases h
      exact .inr ⟨i, s, .refl i s, hbody⟩
    · cases h
    · next s' hbody =>
      refine (ih h).imp_right ?_
      rintro ⟨j, t, hreach, herr⟩
      exact ⟨j, t, .step hbody hreach, herr⟩

/-- More steps do not change a result. -/
theorem run_mono {fuel' : ℕ} (hle : fuel ≤ fuel') (hrun : run exhausted body fuel i s = .ok r) :
    run exhausted body fuel' i s = .ok r := by
  induction fuel generalizing fuel' i s with
  | zero => cases hrun
  | succ fuel ih =>
    obtain ⟨fuel', rfl⟩ : ∃ n, fuel' = n + 1 := ⟨fuel' - 1, by omega⟩
    rw [run_succ_eq_ok] at hrun ⊢
    rcases hrun with hr | ⟨s', hs', hrest⟩
    · exact .inl hr
    · exact .inr ⟨s', hs', ih (by omega) hrest⟩

/-- With enough steps the loop returns the given result. -/
def Returns (exhausted : ε) (body : ℕ → σ → Except ε (σ ⊕ ρ)) (i : ℕ) (s : σ) (r : ρ) : Prop :=
  ∃ n, ∀ fuel, n ≤ fuel → run exhausted body fuel i s = .ok r

/-- A loop returns when its body does. -/
theorem Returns.of_done (h : body i s = .ok (.inr r)) : Returns exhausted body i s r := by
  refine ⟨1, fun fuel hfuel => ?_⟩
  obtain ⟨fuel, rfl⟩ : ∃ n, fuel = n + 1 := ⟨fuel - 1, by omega⟩
  exact run_succ_eq_ok.mpr (.inl h)

/-- A loop returns what it returns after one iteration. -/
theorem Returns.of_step {s' : σ} (h : body i s = .ok (.inl s'))
    (h' : Returns exhausted body (i + 1) s' r) : Returns exhausted body i s r := by
  obtain ⟨n, hn⟩ := h'
  refine ⟨n + 1, fun fuel hfuel => ?_⟩
  obtain ⟨fuel, rfl⟩ : ∃ m, fuel = m + 1 := ⟨fuel - 1, by omega⟩
  exact run_succ_eq_ok.mpr (.inr ⟨s', h, hn fuel (by omega)⟩)

/-- If a chain of iterations ends in a state from which the loop returns, the loop returns. -/
theorem run_of_reaches (h : Reaches body i s j t) (hdone : body j t = .ok (.inr r)) :
    Returns exhausted body i s r := by
  induction h with
  | refl => exact .of_done hdone
  | step hstep _ ih => exact .of_step hstep (ih hdone)

end Loop

end RsNano
