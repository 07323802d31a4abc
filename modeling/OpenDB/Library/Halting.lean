import Mathlib.Computability.StateTransition

/-!
# Halting

A transition function halts from a state if finitely many steps lead to a state that has no next one. A
state and what it leads to halt together (`halts_iff`), and a state that leads to itself does not halt
(`not_halts_of_fixed`).
-/

set_option autoImplicit false

namespace OpenDB.Library

open StateTransition

universe u

variable {σ : Type u} {f : σ → Option σ} {a b : σ}

def Halts (f : σ → Option σ) (a : σ) : Prop := (eval f a).Dom

theorem halts_of_none (h : f a = none) : Halts f a :=
  Part.dom_iff_mem.2 ⟨a, mem_eval.2 ⟨.refl, h⟩⟩

theorem halts_iff_of_reaches (h : Reaches f a b) : Halts f a ↔ Halts f b := by
  rw [Halts, Halts, reaches_eval h]

theorem halts_iff (h : f a = some b) : Halts f a ↔ Halts f b :=
  halts_iff_of_reaches (.single h)

theorem not_halts_of_fixed (h : f a = some a) : ¬ Halts f a := by
  have hstays : ∀ b, Reaches f a b → b = a := by
    intro b hreach
    induction hreach with
    | refl => rfl
    | tail _ hstep ih =>
      rw [ih] at hstep
      exact Option.some.inj (hstep.symm.trans h)
  intro hhalts
  obtain ⟨b, hb⟩ := Part.dom_iff_mem.1 hhalts
  obtain ⟨hreach, hend⟩ := mem_eval.1 hb
  rw [hstays b hreach, h] at hend
  cases hend

end OpenDB.Library
