import Mathlib.Data.List.Infix
import Mathlib.Data.List.Induction

/-!
# Bounded stacks

A stack with the top first that forgets its bottom when it grows beyond a limit. Pushing those
elements of a list that pass a test keeps the limit, and the last of them is on top.
-/

namespace RsNano.BoundedStack

open List

variable {α : Type*} {limit : ℕ} {stack : List α} {p : α → Bool} {x y : α}

/-- Push an element, and forget the bottom when the stack is too long. -/
def push (limit : ℕ) (stack : List α) (x : α) : List α :=
  if limit < (x :: stack).length then (x :: stack).dropLast else x :: stack

/-- Push the elements of a list that pass the test. -/
def pushAll (p : α → Bool) (limit : ℕ) (stack : List α) (xs : List α) : List α :=
  xs.foldl (fun stack x => if p x then push limit stack x else stack) stack

/-- A push keeps the limit. -/
theorem length_push_le (h : stack.length ≤ limit) : (push limit stack x).length ≤ limit := by
  rw [push]
  split
  · rw [length_dropLast]
    exact h
  · next hle => exact not_lt.mp hle

/-- A push adds one element. -/
theorem mem_of_mem_push (h : y ∈ push limit stack x) : y = x ∨ y ∈ stack := by
  rw [push] at h
  split at h
  · exact mem_cons.mp (mem_of_mem_dropLast h)
  · exact mem_cons.mp h

/-- The new element is on top. -/
theorem head?_push (hlim : 1 ≤ limit) : (push limit stack x).head? = some x := by
  rw [push]
  split
  · next hlt =>
    cases stack with
    | nil => exact absurd hlt (not_lt.mpr hlim)
    | cons y stack => rfl
  · rfl

/-- Nothing is pushed when no element passes the test. -/
theorem pushAll_eq_self {xs : List α} (h : ∀ x ∈ xs, p x = false) :
    pushAll p limit stack xs = stack := by
  induction xs with
  | nil => rfl
  | cons x xs ih =>
    rw [pushAll, foldl_cons, if_neg (by simp [h x mem_cons_self])]
    exact ih fun y hy => h y (mem_cons_of_mem x hy)

/-- One more element of a list is pushed after the others. -/
theorem pushAll_concat (xs : List α) :
    pushAll p limit stack (xs ++ [x]) =
      if p x then push limit (pushAll p limit stack xs) x else pushAll p limit stack xs := by
  rw [pushAll, foldl_concat]
  rfl

/-- Pushing a list keeps the limit. -/
theorem length_pushAll_le (xs : List α) (h : stack.length ≤ limit) :
    (pushAll p limit stack xs).length ≤ limit := by
  induction xs using reverseRecOn with
  | nil => exact h
  | append_singleton xs x ih =>
    rw [pushAll_concat]
    split
    · exact length_push_le ih
    · exact ih

/-- Pushing a list adds only elements that pass the test. -/
theorem mem_of_mem_pushAll {xs : List α} (h : y ∈ pushAll p limit stack xs) :
    y ∈ stack ∨ y ∈ xs ∧ p y = true := by
  induction xs using reverseRecOn with
  | nil => exact .inl h
  | append_singleton xs x ih =>
    have hrest : y ∈ pushAll p limit stack xs → y ∈ stack ∨ y ∈ xs ++ [x] ∧ p y = true := by
      intro hy
      exact (ih hy).imp_right (And.imp_left (mem_append_left [x]))
    rw [pushAll_concat] at h
    split at h
    · next hx =>
      rcases mem_of_mem_push h with rfl | hy
      · exact .inr ⟨by simp, hx⟩
      · exact hrest hy
    · exact hrest h

/-- When some element passes the test, one that does is on top. -/
theorem head?_pushAll (hlim : 1 ≤ limit) (stack : List α) {xs : List α} (h : ∃ x ∈ xs, p x = true) :
    ∃ y ∈ xs, p y = true ∧ (pushAll p limit stack xs).head? = some y := by
  induction xs using reverseRecOn with
  | nil =>
    obtain ⟨x, hx, -⟩ := h
    cases hx
  | append_singleton xs x ih =>
    rw [pushAll_concat]
    by_cases hx : p x = true
    · exact ⟨x, by simp, hx, by rw [if_pos hx]; exact head?_push hlim⟩
    · obtain ⟨z, hz, hpz⟩ := h
      have hold : z ∈ xs := by
        rcases mem_append.mp hz with hz | hz
        · exact hz
        · exact absurd (mem_singleton.mp hz ▸ hpz) hx
      obtain ⟨y, hy, hpy, htop⟩ := ih ⟨z, hold, hpz⟩
      exact ⟨y, mem_append_left [x] hy, hpy, by rw [if_neg hx]; exact htop⟩

end RsNano.BoundedStack
