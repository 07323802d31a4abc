import Mathlib.Data.Option.Basic

/-!
# Following a partial function

A partial function leads from a point to the next one or to nowhere. A pursuit follows it for a bounded
number of steps until it meets its goal; it meets it exactly if some number of steps within the bound
leads there (`pursues_iff`), whether the way ends, comes back to the goal or runs into a circle that
misses it.
-/

set_option autoImplicit false

namespace OpenDB.Library

universe u

variable {α : Type u} {f : α → Option α} {goal x y : α} {n : Nat}

/-- The point that a number of steps leads to. -/
def steps (f : α → Option α) : Nat → α → Option α
  | 0, x => some x
  | n + 1, x => (f x).bind (steps f n)

@[simp] theorem steps_zero : steps f 0 x = some x := rfl

theorem steps_succ (h : f x = some y) : steps f (n + 1) x = steps f n y := by
  simp [steps, h]

theorem steps_succ_of_none (h : f x = none) : steps f (n + 1) x = none := by
  simp [steps, h]

variable [DecidableEq α]

/-- The goal is met within the number of steps, the first of which is made in any case. -/
def pursues (f : α → Option α) (goal : α) : Nat → α → Bool
  | 0, _ => false
  | n + 1, x =>
    match f x with
    | none => false
    | some y => decide (y = goal) || pursues f goal n y

theorem pursues_succ (h : f x = some y) :
    pursues f goal (n + 1) x = (decide (y = goal) || pursues f goal n y) := by
  simp [pursues, h]

theorem pursues_succ_of_none (h : f x = none) : pursues f goal (n + 1) x = false := by
  simp [pursues, h]

/-- A pursuit succeeds exactly if some number of steps, at least one and at most its bound, leads to
the goal. -/
theorem pursues_iff :
    pursues f goal n x = true ↔ ∃ k, 1 ≤ k ∧ k ≤ n ∧ steps f k x = some goal := by
  induction n generalizing x with
  | zero =>
    constructor
    · intro h
      cases h
    · rintro ⟨k, hpos, hle, -⟩
      omega
  | succ n ih =>
    cases hx : f x with
    | none =>
      rw [pursues_succ_of_none hx]
      refine iff_of_false Bool.false_ne_true ?_
      rintro ⟨k, hpos, -, hk⟩
      obtain ⟨k, rfl⟩ := Nat.exists_eq_add_one.2 hpos
      rw [steps_succ_of_none hx] at hk
      cases hk
    | some y =>
      rw [pursues_succ hx, Bool.or_eq_true, decide_eq_true_eq, ih]
      constructor
      · rintro (rfl | ⟨k, hpos, hle, hk⟩)
        · exact ⟨1, Nat.le_refl 1, by omega, by rw [steps_succ hx, steps_zero]⟩
        · exact ⟨k + 1, by omega, by omega, by rw [steps_succ hx, hk]⟩
      · rintro ⟨k, hpos, hle, hk⟩
        obtain ⟨k, rfl⟩ := Nat.exists_eq_add_one.2 hpos
        rw [steps_succ hx] at hk
        -- the goal is met at once, or later on the way from the next point
        rcases Nat.eq_zero_or_pos k with rfl | hlater
        · exact Or.inl (Option.some.inj hk)
        · exact Or.inr ⟨k, hlater, by omega, hk⟩

end OpenDB.Library
