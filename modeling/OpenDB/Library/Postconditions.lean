import OpenDB.Library.FaultState

/-!
# Postconditions with a part for faults

`EndsIn x s Q E` says how a run of `x` from `s` ends: in a result and a state of which `Q` holds, or in
a fault and a state of which `E` holds. A computation is taken apart by `EndsIn.bind`: what the first
part hands over is enough for the second, and both leave the same behind when they fault. Read from
right to left it computes the weakest condition on the state to start from, and nothing is lost
(`EndsIn.bind_iff`).
-/

set_option autoImplicit false

namespace OpenDB.Library

universe u

variable {ε σ α β : Type u}

/-- What holds when a run from `s` ends: `Q` of a result and its state, `E` of a fault and its
state. -/
def EndsIn (x : EStateM ε σ α) (s : σ) (Q : α → σ → Prop) (E : ε → σ → Prop) : Prop :=
  match x.run s with
  | .ok a t => Q a t
  | .error e t => E e t

namespace EndsIn

variable {x : EStateM ε σ α} {f : α → EStateM ε σ β} {s t : σ} {a : α} {e : ε}
  {Q Q' : α → σ → Prop} {R : β → σ → Prop} {E E' : ε → σ → Prop}

theorem of_ok (h : EndsIn x s Q E) (hrun : x.run s = .ok a t) : Q a t := by
  rw [EndsIn, hrun] at h
  exact h

theorem of_error (h : EndsIn x s Q E) (hrun : x.run s = .error e t) : E e t := by
  rw [EndsIn, hrun] at h
  exact h

theorem of_run_ok (hrun : x.run s = .ok a t) (h : Q a t) : EndsIn x s Q E := by
  rw [EndsIn, hrun]
  exact h

theorem of_run_error (hrun : x.run s = .error e t) (h : E e t) : EndsIn x s Q E := by
  rw [EndsIn, hrun]
  exact h

/-- What is run is all that counts. -/
theorem of_run_eq {y : EStateM ε σ α} (hrun : x.run s = y.run t) (h : EndsIn y t Q E) :
    EndsIn x s Q E := by
  rw [EndsIn, hrun]
  exact h

/-- The rule of consequence. -/
theorem mono (h : EndsIn x s Q E) (hQ : ∀ a t, Q a t → Q' a t) (hE : ∀ e t, E e t → E' e t) :
    EndsIn x s Q' E' := by
  unfold EndsIn at h ⊢
  cases hrun : x.run s with
  | ok a t =>
    rw [hrun] at h
    exact hQ a t h
  | error e t =>
    rw [hrun] at h
    exact hE e t h

theorem imp (h : EndsIn x s Q E) (hQ : ∀ a t, Q a t → Q' a t) : EndsIn x s Q' E :=
  h.mono hQ fun _ _ => id

/-- The rule of sequence. -/
theorem bind (h : EndsIn x s Q E) (hnext : ∀ a t, Q a t → EndsIn (f a) t R E) :
    EndsIn (x >>= f) s R E := by
  unfold EndsIn at h ⊢
  rw [EStateM.run_bind]
  cases hrun : x.run s with
  | ok a t =>
    rw [hrun] at h
    exact hnext a t h
  | error e t =>
    rw [hrun] at h
    exact h

theorem bind_iff : EndsIn (x >>= f) s R E ↔ EndsIn x s (fun a t => EndsIn (f a) t R E) E := by
  refine ⟨fun h => ?_, fun h => h.bind fun _ _ => id⟩
  unfold EndsIn at h ⊢
  rw [EStateM.run_bind] at h
  cases hrun : x.run s with
  | ok a t =>
    rw [hrun] at h
    exact h
  | error e t =>
    rw [hrun] at h
    exact h

theorem bind_of_ok (hrun : x.run s = .ok a t) (h : EndsIn (f a) t R E) : EndsIn (x >>= f) s R E :=
  bind_iff.2 (of_run_ok hrun h)

theorem bind_of_error (hrun : x.run s = .error e t) (h : E e t) : EndsIn (x >>= f) s R E :=
  bind_iff.2 (of_run_error hrun h)

theorem pure (h : Q a s) : EndsIn (Pure.pure a) s Q E := h

theorem throw (h : E e s) : EndsIn (MonadExcept.throw e) s Q E := h

/-- What follows may depend on the state as it is. -/
theorem get_bind {f : σ → EStateM ε σ α} (h : EndsIn (f s) s Q E) :
    EndsIn (MonadState.get >>= f) s Q E := h

theorem set_bind {f : PUnit → EStateM ε σ α} (h : EndsIn (f ⟨⟩) t Q E) :
    EndsIn (MonadStateOf.set t >>= f) s Q E := h

theorem modify_bind {g : σ → σ} {f : PUnit → EStateM ε σ α} (h : EndsIn (f ⟨⟩) (g s) Q E) :
    EndsIn (modify g >>= f) s Q E := h

/-- A run whose result is thrown away or changed by a function ends alike. -/
theorem thenPure {g : α → β} (h : EndsIn x s (fun a t => R (g a) t) E) :
    EndsIn (x >>= fun a => Pure.pure (g a)) s R E :=
  h.bind fun _ _ hQ => hQ

end EndsIn

end OpenDB.Library
