import Mathlib.Algebra.BigOperators.Fin
import Mathlib.Algebra.Order.BigOperators.Group.Finset
import OpenDB.Library.Trace

/-!
# Pools of threads

The threads of a pool are each in a phase. What they amount to together is a sum over their phases
(`total`), and a thread that goes on changes the sum by what its own phases are worth (`total_update`).

A run can be led to an end when from every state that is not the end some step leads closer to it
(`Run.exists_of_measure`).
-/

set_option autoImplicit false

namespace OpenDB.Library

universe u v

/-! ## Sums over phases -/

section

variable {φ : Type u} {n : Nat} {w : Fin n → φ} {f : φ → Nat}

/-- What the threads are worth together. -/
def total (f : φ → Nat) (w : Fin n → φ) : Nat := ∑ i, f (w i)

theorem total_update (f : φ → Nat) (w : Fin n → φ) (i : Fin n) (p : φ) :
    total f (Function.update w i p) + f (w i) = total f w + f p := by
  -- both sums without the thread that goes on
  have hafter : total f (Function.update w i p) =
      f p + ∑ j ∈ Finset.univ.erase i, f (w j) := by
    rw [total, ← Finset.add_sum_erase _ _ (Finset.mem_univ i), Function.update_self]
    congr 1
    exact Finset.sum_congr rfl fun j hj => by rw [Function.update_of_ne (Finset.ne_of_mem_erase hj)]
  have hbefore : total f w = f (w i) + ∑ j ∈ Finset.univ.erase i, f (w j) :=
    (Finset.add_sum_erase _ _ (Finset.mem_univ i)).symm
  omega

theorem le_total (f : φ → Nat) (w : Fin n → φ) (i : Fin n) : f (w i) ≤ total f w :=
  Finset.single_le_sum (f := fun i => f (w i)) (fun _ _ => Nat.zero_le _) (Finset.mem_univ i)

theorem total_eq_zero (h : ∀ i, f (w i) = 0) : total f w = 0 :=
  Finset.sum_eq_zero fun i _ => h i

theorem total_le (h : ∀ p, f p ≤ 1) (w : Fin n → φ) : total f w ≤ n := by
  have hsum := Finset.sum_le_card_nsmul Finset.univ (fun i => f (w i)) 1 fun i _ => h (w i)
  simpa [total] using hsum

end

/-! ## Runs that are led to an end -/

namespace Run

variable {σ : Type u} {ε : Type v} {next : σ → ε → Option σ} {s t : σ}

theorem trans {s₁ s₂ s₃ : σ} {first second : List (σ × ε)} (h : Run next s₁ first s₂)
    (hrest : Run next s₂ second s₃) : Run next s₁ (first ++ second) s₃ := by
  induction hrest with
  | nil =>
    rw [List.append_nil]
    exact h
  | snoc _ hstep ih =>
    rw [← List.append_assoc]
    exact ih.snoc hstep

/-- Steps that keep an invariant and lead closer to the end reach it. -/
theorem exists_of_measure {I Done : σ → Prop} (measure : σ → Nat)
    (hstep : ∀ s, I s → ¬ Done s → ∃ e s', next s e = some s' ∧ I s' ∧ measure s' < measure s)
    (hs : I s) : ∃ trace t, Run next s trace t ∧ Done t ∧ I t := by
  induction hm : measure s using Nat.strongRecOn generalizing s with
  | ind m ih =>
    by_cases hdone : Done s
    · exact ⟨[], s, .nil, hdone, hs⟩
    · obtain ⟨e, s', hnext, hs', hlt⟩ := hstep s hs hdone
      obtain ⟨trace, t, hrun, hend, ht⟩ := ih (measure s') (hm ▸ hlt) hs' rfl
      exact ⟨_, t, (Run.nil.snoc hnext).trans hrun, hend, ht⟩

end Run

end OpenDB.Library
