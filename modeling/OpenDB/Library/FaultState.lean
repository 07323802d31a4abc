import Mathlib.Tactic

/-!
# State that survives a fault

`EStateM ε σ` runs a computation on a state and ends either in a result or in a fault; in both cases
the state it has reached is kept, as the memory and the files of a program keep what was written
before an exception. The lemmas here take a run of a composed computation apart.
-/

set_option autoImplicit false

namespace OpenDB.Library

universe u

variable {ε σ α β : Type u}

/-- A fault ends the run in the state it is raised in. -/
@[simp] theorem run_throw_eq (e : ε) (s : σ) :
    EStateM.run (throw e : EStateM ε σ α) s = .error e s := rfl

@[simp] theorem run_map_eq (f : α → β) (x : EStateM ε σ α) (s : σ) :
    (f <$> x).run s =
      match x.run s with
      | .ok a t => .ok (f a) t
      | .error e t => .error e t := by
  rw [map_eq_pure_bind, EStateM.run_bind]
  cases x.run s <;> rfl

/-- A computation that only reads the state. -/
def reading (f : σ → Except ε α) : EStateM ε σ α := fun s =>
  match f s with
  | .ok a => .ok a s
  | .error e => .error e s

theorem run_reading_ok {f : σ → Except ε α} {s : σ} {a : α} (h : f s = .ok a) :
    (reading f).run s = .ok a s := by
  simp [reading, EStateM.run, h]

theorem run_reading_error {f : σ → Except ε α} {s : σ} {e : ε} (h : f s = .error e) :
    (reading f).run s = .error e s := by
  simp [reading, EStateM.run, h]

/-- The state a run ends in, with or without a fault. -/
def endState : EStateM.Result ε σ α → σ
  | .ok _ s => s
  | .error _ s => s

@[simp] theorem endState_ok (a : α) (s : σ) :
    endState (.ok a s : EStateM.Result ε σ α) = s := rfl

@[simp] theorem endState_error (e : ε) (s : σ) :
    endState (.error e s : EStateM.Result ε σ α) = s := rfl

theorem endState_reading (f : σ → Except ε α) (s : σ) : endState ((reading f).run s) = s := by
  simp only [reading, EStateM.run]
  cases f s <;> rfl

/-- A composed run that ends in a result passes through a result of its first part. -/
theorem run_bind_eq_ok {x : EStateM ε σ α} {f : α → EStateM ε σ β} {s s' : σ} {b : β} :
    (x >>= f).run s = .ok b s' ↔ ∃ a t, x.run s = .ok a t ∧ (f a).run t = .ok b s' := by
  rw [EStateM.run_bind]
  cases x.run s with
  | ok a t => simp
  | error e t => simp

/-- A composed run that ends in a fault faults in its first or in its second part. -/
theorem run_bind_eq_error {x : EStateM ε σ α} {f : α → EStateM ε σ β} {s s' : σ} {e : ε} :
    (x >>= f).run s = .error e s' ↔
      x.run s = .error e s' ∨ ∃ a t, x.run s = .ok a t ∧ (f a).run t = .error e s' := by
  rw [EStateM.run_bind]
  cases x.run s with
  | ok a t => simp
  | error e t => simp

/-- A value that is returned is the value of a run that ends in a result. -/
theorem exists_run_of_run' {x : EStateM ε σ α} {s : σ} {a : α} (h : x.run' s = some a) :
    ∃ t, x.run s = .ok a t := by
  delta EStateM.run' at h
  cases hrun : x.run s with
  | ok b t =>
    rw [hrun] at h
    cases h
    exact ⟨t, rfl⟩
  | error e t =>
    rw [hrun] at h
    cases h

/-- The same of computations without a state. -/
theorem except_bind_eq_ok {x : Except ε α} {f : α → Except ε β} {b : β} :
    (x >>= f) = .ok b ↔ ∃ a, x = .ok a ∧ f a = .ok b := by
  cases x with
  | ok a => simp [Bind.bind, Except.bind]
  | error e => simp [Bind.bind, Except.bind]

/-- A read hands on what it has read and the state as it is. -/
theorem run_reading_bind_eq_ok {f : σ → Except ε α} {g : α → EStateM ε σ β} {s s' : σ} {b : β} :
    (reading f >>= g).run s = .ok b s' ↔ ∃ a, f s = .ok a ∧ (g a).run s = .ok b s' := by
  rw [EStateM.run_bind]
  cases hf : f s with
  | ok a =>
    rw [run_reading_ok hf]
    simp
  | error e =>
    rw [run_reading_error hf]
    simp

theorem run_reading_bind_eq_error {f : σ → Except ε α} {g : α → EStateM ε σ β} {s s' : σ} {e : ε} :
    (reading f >>= g).run s = .error e s' ↔
      (f s = .error e ∧ s' = s) ∨ ∃ a, f s = .ok a ∧ (g a).run s = .error e s' := by
  rw [EStateM.run_bind]
  cases hf : f s with
  | ok a =>
    rw [run_reading_ok hf]
    simp
  | error e =>
    rw [run_reading_error hf]
    simp [eq_comm]

/-- Rule of consequence for sequencing: what the first part establishes of its end state on a fault,
and what the second part establishes from every state the first part can hand over, holds of the
state the whole run ends in. -/
theorem endState_bind {x : EStateM ε σ α} {f : α → EStateM ε σ β} {s : σ} {P : σ → Prop}
    (hfault : ∀ e t, x.run s = .error e t → P t)
    (hnext : ∀ a t, x.run s = .ok a t → P (endState ((f a).run t))) :
    P (endState ((x >>= f).run s)) := by
  rw [EStateM.run_bind]
  cases hx : x.run s with
  | ok a t => exact hnext a t hx
  | error e t => exact hfault e t hx

/-- A computation preserves a property of the state, also when it faults. -/
def Preserves (P : σ → Prop) (x : EStateM ε σ α) : Prop := ∀ s, P s → P (endState (x.run s))

namespace Preserves

variable {P : σ → Prop}

theorem pure (a : α) : Preserves P (Pure.pure a : EStateM ε σ α) := fun _ h => h

theorem throw (e : ε) : Preserves P (MonadExcept.throw e : EStateM ε σ α) := fun _ h => h

theorem reading (f : σ → Except ε α) : Preserves P (reading f) := by
  intro s h
  rw [endState_reading]
  exact h

theorem modify {g : σ → σ} (hg : ∀ s, P s → P (g s)) :
    Preserves P (modify g : EStateM ε σ PUnit) := hg

theorem bind {x : EStateM ε σ α} {f : α → EStateM ε σ β} (hx : Preserves P x)
    (hf : ∀ a, Preserves P (f a)) : Preserves P (x >>= f) := by
  intro s h
  have hfirst := hx s h
  rw [EStateM.run_bind]
  cases hrun : x.run s with
  | ok a t =>
    rw [hrun] at hfirst
    exact hf a t hfirst
  | error e t =>
    rw [hrun] at hfirst
    exact hfirst

/-- What follows may depend on the state as it is. -/
theorem get_bind {f : σ → EStateM ε σ α} (hf : ∀ s, P s → P (endState ((f s).run s))) :
    Preserves P (MonadState.get >>= f) := hf

theorem of_ok {x : EStateM ε σ α} (hx : Preserves P x) {s s' : σ} {a : α} (h : P s)
    (hrun : x.run s = .ok a s') : P s' := by
  have hend := hx s h
  rwa [hrun] at hend

theorem of_error {x : EStateM ε σ α} (hx : Preserves P x) {s s' : σ} {e : ε} (h : P s)
    (hrun : x.run s = .error e s') : P s' := by
  have hend := hx s h
  rwa [hrun] at hend

end Preserves

end OpenDB.Library
