import OpenDB.Library.FaultState

/-!
# Programs that call services

A program over a set of calls: it returns, it throws, or it makes a call and goes on with what the
call returns or with the exception the call throws. What a call does to a state is given by a
handler, so that one program can be run alone (`Program.run`) or call by call (`Program.step`). A
handler may block; a run that meets a call that blocks does not end.

`Program.Spec` says which calls a program can make and what it can return. A property that the calls
keep holds at the end of a run (`Program.run_of_uses`), and the calls that a run has made
(`Program.record`) are among them. `Program.Leaves` says what a program leaves of an account that its
calls change, whatever they return.
-/

set_option autoImplicit false

namespace OpenDB.Library

/-- Programs over the calls `C`; the call `c` returns an `R c`, exceptions are of type `ε`. -/
inductive Program (C : Type) (R : C → Type) (ε : Type) (α : Type) where
  | pure (a : α)
  | throw (e : ε)
  | call (c : C) (next : R c → Program C R ε α) (fault : ε → Program C R ε α)

namespace Program

variable {C : Type} {R : C → Type} {ε α β γ σ : Type}

def bind (p : Program C R ε α) (f : α → Program C R ε β) : Program C R ε β :=
  match p with
  | .pure a => f a
  | .throw e => .throw e
  | .call c next fault => .call c (fun r => (next r).bind f) fun e => (fault e).bind f

/-- The program with its exceptions handled. -/
def handled (p : Program C R ε α) (f : ε → Program C R ε α) : Program C R ε α :=
  match p with
  | .pure a => .pure a
  | .throw e => f e
  | .call c next fault => .call c (fun r => (next r).handled f) fun e => (fault e).handled f

instance : Monad (Program C R ε) where
  pure := .pure
  bind := bind

theorem bind_pure_eq (p : Program C R ε α) : p.bind .pure = p := by
  induction p with
  | pure a => rfl
  | throw e => rfl
  | call c next fault ihnext ihfault =>
    rw [bind]
    exact congrArg₂ (Program.call c) (funext ihnext) (funext ihfault)

theorem bind_bind (p : Program C R ε α) (f : α → Program C R ε β) (g : β → Program C R ε γ) :
    (p.bind f).bind g = p.bind fun a => (f a).bind g := by
  induction p with
  | pure a => rfl
  | throw e => rfl
  | call c next fault ihnext ihfault =>
    rw [bind, bind, bind]
    exact congrArg₂ (Program.call c) (funext ihnext) (funext ihfault)

instance : LawfulMonad (Program C R ε) :=
  LawfulMonad.mk' _ (fun p => bind_pure_eq p) (fun _ _ => rfl) fun p f g => bind_bind p f g

instance : MonadExceptOf ε (Program C R ε) where
  throw := .throw
  tryCatch := handled

/-- The program that makes one call. -/
def perform (c : C) : Program C R ε (R c) := .call c .pure .throw

/-- What a call does to a state: nothing comes back as long as it blocks. -/
abbrev Handler (C : Type) (R : C → Type) (ε σ : Type) :=
  (c : C) → σ → Option (EStateM.Result ε σ (R c))

/-- One call; a program that has ended, or whose call blocks, does not step. -/
def step (h : Handler C R ε σ) : Program C R ε α → σ → Option (Program C R ε α × σ)
  | .call c next fault, s =>
    match h c s with
    | none => none
    | some (.ok r s') => some (next r, s')
    | some (.error e s') => some (fault e, s')
  | _, _ => none

/-- The whole program, if no call blocks. -/
def run (h : Handler C R ε σ) : Program C R ε α → σ → Option (EStateM.Result ε σ α)
  | .pure a, s => some (.ok a s)
  | .throw e, s => some (.error e s)
  | .call c next fault, s =>
    match h c s with
    | none => none
    | some (.ok r s') => (next r).run h s'
    | some (.error e s') => (fault e).run h s'

/-- A call and what came back from it. -/
abbrev Entry (C : Type) (R : C → Type) (ε : Type) := Σ c : C, Except ε (R c)

/-- The calls of a run, up to its end or to the call that blocks. -/
def record (h : Handler C R ε σ) : Program C R ε α → σ → List (Entry C R ε)
  | .pure _, _ => []
  | .throw _, _ => []
  | .call c next fault, s =>
    match h c s with
    | none => []
    | some (.ok r s') => ⟨c, .ok r⟩ :: (next r).record h s'
    | some (.error e s') => ⟨c, .error e⟩ :: (fault e).record h s'

variable {h : Handler C R ε σ} {p : Program C R ε α} {s s' : σ}

@[simp] theorem run_pure (a : α) : run h (.pure a) s = some (.ok a s) := rfl

@[simp] theorem run_pure_eq (a : α) :
    run h (Pure.pure a : Program C R ε α) s = some (.ok a s) := rfl

@[simp] theorem run_throw (e : ε) :
    run h (.throw e : Program C R ε α) s = some (.error e s) := rfl

@[simp] theorem run_perform (c : C) : run h (perform c) s = h c s := by
  rw [perform, run]
  rcases h c s with _ | (_ | _) <;> rfl

theorem run_bind (p : Program C R ε α) (f : α → Program C R ε β) (s : σ) :
    run h (p >>= f) s =
      match run h p s with
      | none => none
      | some (.ok a t) => run h (f a) t
      | some (.error e t) => some (.error e t) := by
  show run h (p.bind f) s = _
  induction p generalizing s with
  | pure a => rfl
  | throw e => rfl
  | call c next fault ihnext ihfault =>
    rw [bind, run, run]
    rcases h c s with _ | (⟨r, t⟩ | ⟨e, t⟩)
    · rfl
    · exact ihnext r t
    · exact ihfault e t

theorem run_tryCatch (p : Program C R ε α) (f : ε → Program C R ε α) (s : σ) :
    run h (tryCatch p f) s =
      match run h p s with
      | none => none
      | some (.ok a t) => some (.ok a t)
      | some (.error e t) => run h (f e) t := by
  show run h (p.handled f) s = _
  induction p generalizing s with
  | pure a => rfl
  | throw e => rfl
  | call c next fault ihnext ihfault =>
    rw [handled, run, run]
    rcases h c s with _ | (⟨r, t⟩ | ⟨e, t⟩)
    · rfl
    · exact ihnext r t
    · exact ihfault e t

/-- The first part of a composed program that returns. -/
theorem run_bind_ok {f : α → Program C R ε β} {a : α} (hp : run h p s = some (.ok a s')) :
    run h (p >>= f) s = run h (f a) s' := by
  rw [run_bind, hp]

/-- The first part of a composed program that throws. -/
theorem run_bind_error {f : α → Program C R ε β} {e : ε} (hp : run h p s = some (.error e s')) :
    run h (p >>= f) s = some (.error e s') := by
  rw [run_bind, hp]

/-- Both parts of a composed program that returns do. -/
theorem exists_run_of_bind {f : α → Program C R ε β} {b : β} {t : σ}
    (hpf : run h (p >>= f) s = some (.ok b t)) :
    ∃ a u, run h p s = some (.ok a u) ∧ run h (f a) u = some (.ok b t) := by
  rw [run_bind] at hpf
  rcases hp : run h p s with _ | (⟨a, u⟩ | ⟨e, u⟩)
  · rw [hp] at hpf
    cases hpf
  · rw [hp] at hpf
    exact ⟨a, u, rfl, hpf⟩
  · rw [hp] at hpf
    cases hpf

theorem record_bind (p : Program C R ε α) (f : α → Program C R ε β) (s : σ) :
    record h (p >>= f) s = record h p s ++
      match run h p s with
      | some (.ok a t) => record h (f a) t
      | _ => [] := by
  show record h (p.bind f) s = _
  induction p generalizing s with
  | pure a => rfl
  | throw e => rfl
  | call c next fault ihnext ihfault =>
    rw [bind, record, record, run]
    rcases h c s with _ | (⟨r, t⟩ | ⟨e, t⟩)
    · rfl
    · exact congrArg _ (ihnext r t)
    · exact congrArg _ (ihfault e t)

theorem record_bind_ok {f : α → Program C R ε β} {a : α} (hp : run h p s = some (.ok a s')) :
    record h (p >>= f) s = record h p s ++ record h (f a) s' := by
  rw [record_bind, hp]

theorem record_perform_ok {c : C} {r : R c} (hc : h c s = some (.ok r s')) :
    record h (perform c) s = [⟨c, .ok r⟩] := by
  rw [perform, record, hc]
  rfl

/-! ## Specifications -/

/-- Whatever its calls return, the program only makes calls in `A` and only returns results in `Q`. -/
def Spec (A : C → Prop) (Q : α → Prop) : Program C R ε α → Prop
  | .pure a => Q a
  | .throw _ => True
  | .call c next fault => A c ∧ (∀ r, (next r).Spec A Q) ∧ ∀ e, (fault e).Spec A Q

/-- The program only makes calls in `A`. -/
abbrev Uses (A : C → Prop) (p : Program C R ε α) : Prop := p.Spec A fun _ => True

variable {A : C → Prop} {Q : α → Prop}

theorem Spec.mono {A' : C → Prop} {Q' : α → Prop} (hp : p.Spec A Q) (hA : ∀ c, A c → A' c)
    (hQ : ∀ a, Q a → Q' a) : p.Spec A' Q' := by
  induction p with
  | pure a => exact hQ a hp
  | throw e => trivial
  | call c next fault ihnext ihfault =>
    exact ⟨hA c hp.1, fun r => ihnext r (hp.2.1 r), fun e => ihfault e (hp.2.2 e)⟩

theorem spec_pure {a : α} (ha : Q a) : Spec A Q (Pure.pure a : Program C R ε α) := ha

theorem spec_throw (e : ε) : Spec A Q (throw e : Program C R ε α) := trivial

theorem uses_pure (a : α) : Uses A (Pure.pure a : Program C R ε α) := trivial

theorem uses_perform {c : C} (hc : A c) : Uses A (perform c : Program C R ε (R c)) :=
  ⟨hc, fun _ => trivial, fun _ => trivial⟩

theorem spec_bind {f : α → Program C R ε β} {Q' : β → Prop} (hp : p.Spec A Q)
    (hf : ∀ a, Q a → (f a).Spec A Q') : (p >>= f).Spec A Q' := by
  show (p.bind f).Spec A Q'
  induction p with
  | pure a => exact hf a hp
  | throw e => trivial
  | call c next fault ihnext ihfault =>
    exact ⟨hp.1, fun r => ihnext r (hp.2.1 r), fun e => ihfault e (hp.2.2 e)⟩

theorem uses_bind {f : α → Program C R ε β} {Q' : β → Prop} (hp : p.Uses A)
    (hf : ∀ a, (f a).Spec A Q') : (p >>= f).Spec A Q' :=
  spec_bind hp fun a _ => hf a

theorem spec_tryCatch {f : ε → Program C R ε α} (hp : p.Spec A Q) (hf : ∀ e, (f e).Spec A Q) :
    (tryCatch p f).Spec A Q := by
  show (p.handled f).Spec A Q
  induction p with
  | pure a => exact hp
  | throw e => exact hf e
  | call c next fault ihnext ihfault =>
    exact ⟨hp.1, fun r => ihnext r (hp.2.1 r), fun e => ihfault e (hp.2.2 e)⟩

/-- The calls of a run are among the calls of the program. -/
theorem Spec.record (hp : p.Spec A Q) (s : σ) : ∀ x ∈ p.record h s, A x.1 := by
  induction p generalizing s with
  | pure a =>
    intro x hx
    cases hx
  | throw e =>
    intro x hx
    cases hx
  | call c next fault ihnext ihfault =>
    rw [Program.record]
    rcases h c s with _ | (⟨r, t⟩ | ⟨e, t⟩)
    · intro x hx
      cases hx
    · intro x hx
      rcases List.mem_cons.1 hx with rfl | hx
      · exact hp.1
      · exact ihnext r (hp.2.1 r) t x hx
    · intro x hx
      rcases List.mem_cons.1 hx with rfl | hx
      · exact hp.1
      · exact ihfault e (hp.2.2 e) t x hx

/-- What every call of a program keeps, its run keeps; if none of them blocks, the run ends. -/
theorem run_of_uses {P : σ → Prop}
    (hcall : ∀ c, A c → ∀ s, P s → ∃ r, h c s = some r ∧ P (endState r))
    (hp : p.Uses A) (hs : P s) : ∃ r, run h p s = some r ∧ P (endState r) := by
  induction p generalizing s with
  | pure a => exact ⟨_, rfl, hs⟩
  | throw e => exact ⟨_, rfl, hs⟩
  | call c next fault ihnext ihfault =>
    obtain ⟨r, hr, hend⟩ := hcall c hp.1 s hs
    rw [run, hr]
    cases r with
    | ok a t => exact ihnext a (hp.2.1 a) hend
    | error e t => exact ihfault e (hp.2.2 e) hend

/-! ## Accounts -/

/-- The calls that return change an account as `upd` says; where the program returns, the account is
in `Q`. -/
def Leaves {γ : Type} (upd : (c : C) → R c → γ → γ) (Q : α → γ → Prop) :
    Program C R ε α → γ → Prop
  | .pure a, g => Q a g
  | .throw _, _ => True
  | .call c next fault, g =>
    (∀ r, (next r).Leaves upd Q (upd c r g)) ∧ ∀ e, (fault e).Leaves upd Q g

section

variable {γ : Type} {upd : (c : C) → R c → γ → γ} {Q : α → γ → Prop} {g : γ}

theorem leaves_pure {a : α} (h : Q a g) : Leaves upd Q (Pure.pure a : Program C R ε α) g := h

theorem leaves_perform {c : C} {Q : R c → γ → Prop} (h : ∀ r, Q r (upd c r g)) :
    Leaves upd Q (perform c : Program C R ε (R c)) g := ⟨h, fun _ => trivial⟩

theorem leaves_bind {f : α → Program C R ε β} {Q' : β → γ → Prop} (hp : p.Leaves upd Q g)
    (hf : ∀ a g', Q a g' → (f a).Leaves upd Q' g') : (p >>= f).Leaves upd Q' g := by
  show (p.bind f).Leaves upd Q' g
  induction p generalizing g with
  | pure a => exact hf a g hp
  | throw e => trivial
  | call c next fault ihnext ihfault =>
    exact ⟨fun r => ihnext r (hp.1 r), fun e => ihfault e (hp.2 e)⟩

/-- Calls that do not change the account leave it as it is. -/
theorem leaves_of_uses (hcall : ∀ c, A c → ∀ r g, upd c r g = g) (hp : p.Uses A) :
    p.Leaves upd (fun _ g' => g' = g) g := by
  induction p with
  | pure a => rfl
  | throw e => trivial
  | call c next fault ihnext ihfault =>
    refine ⟨fun r => ?_, fun e => ihfault e (hp.2.2 e)⟩
    rw [hcall c hp.1]
    exact ihnext r (hp.2.1 r)

end

end Program

end OpenDB.Library
