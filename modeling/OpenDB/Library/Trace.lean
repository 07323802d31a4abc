import Mathlib.Data.List.Basic

/-!
# Runs of a step function

A step function takes a state and an event to the next state, if the event can happen. A run keeps
the pairs of state and event it went through, so that conditions on its steps can be stated. An
invariant that every step keeps holds at the end of every run (`Run.invariant`), and one that only
the good steps keep at the end of every run of good steps (`Run.invariant_of_forall`).
-/

set_option autoImplicit false

namespace OpenDB.Library

universe u v

variable {σ : Type u} {ε : Type v}

/-- The runs from an initial state, with the states before their steps. -/
inductive Run (next : σ → ε → Option σ) (init : σ) : List (σ × ε) → σ → Prop where
  | nil : Run next init [] init
  | snoc {trace : List (σ × ε)} {s s' : σ} {e : ε} (hrun : Run next init trace s)
      (hstep : next s e = some s') : Run next init (trace ++ [(s, e)]) s'

/-- The pairs of state and event that a list of events goes through, and where it ends. -/
def follow (next : σ → ε → Option σ) : List ε → σ → List (σ × ε) × Option σ
  | [], s => ([], some s)
  | e :: es, s =>
    match next s e with
    | none => ([(s, e)], none)
    | some s' => ((s, e) :: (follow next es s').1, (follow next es s').2)

namespace Run

variable {next : σ → ε → Option σ} {init : σ} {trace : List (σ × ε)} {s s' : σ}

/-- A run goes on with a list of events. -/
theorem append_follow {es : List ε} (h : Run next init trace s)
    (hes : (follow next es s).2 = some s') :
    Run next init (trace ++ (follow next es s).1) s' := by
  induction es generalizing s trace with
  | nil =>
    cases hes
    rw [follow, List.append_nil]
    exact h
  | cons e es ih =>
    rw [follow] at hes ⊢
    cases hstep : next s e with
    | none =>
      rw [hstep] at hes
      cases hes
    | some s₁ =>
      rw [hstep] at hes
      have hrest := ih (h.snoc hstep) hes
      rw [List.append_assoc] at hrest
      exact hrest

theorem of_follow {es : List ε} (hes : (follow next es init).2 = some s') :
    Run next init (follow next es init).1 s' :=
  nil.append_follow hes

theorem invariant {P : σ → Prop} (hinit : P init)
    (hkeep : ∀ s e s', P s → next s e = some s' → P s') (h : Run next init trace s) : P s := by
  induction h with
  | nil => exact hinit
  | snoc hrun hstep ih => exact hkeep _ _ _ ih hstep

/-- A step from the invariant that is as it should be is good and keeps the invariant. So are all steps
of a run that are as they should be. -/
theorem invariant_and_forall_of_forall {I : σ → Prop} {Good C : σ → ε → Prop} (hinit : I init)
    (hkeep : ∀ s e s', I s → next s e = some s' → C s e → Good s e ∧ I s')
    (h : Run next init trace s) (hsteps : ∀ p ∈ trace, C p.1 p.2) :
    I s ∧ ∀ p ∈ trace, Good p.1 p.2 := by
  induction h with
  | nil => exact ⟨hinit, fun p hp => absurd hp List.not_mem_nil⟩
  | @snoc trace s s' e hrun hstep ih =>
    have hs := ih fun p hp => hsteps p (List.mem_append_left _ hp)
    have hlast := hsteps (s, e) (List.mem_append_right _ List.mem_cons_self)
    obtain ⟨hgood, hs'⟩ := hkeep s e s' hs.1 hstep hlast
    refine ⟨hs', fun p hp => ?_⟩
    rcases List.mem_append.1 hp with hp | hp
    · exact hs.2 p hp
    · rw [List.mem_singleton.1 hp]
      exact hgood

/-- An invariant that a step keeps unless it is bad. -/
theorem invariant_of_forall {P : σ → Prop} {B : σ → ε → Prop} (hinit : P init)
    (hkeep : ∀ s e s', P s → next s e = some s' → ¬ B s e → P s') (h : Run next init trace s)
    (hgood : ∀ p ∈ trace, ¬ B p.1 p.2) : P s :=
  (h.invariant_and_forall_of_forall (C := fun s e => ¬ B s e) hinit
    (fun s e s' hs hstep hb => ⟨trivial, hkeep s e s' hs hstep hb⟩) hgood).1

/-- What the invariant gives of every step holds of all steps of a run. -/
theorem invariant_and_forall {I : σ → Prop} {Good : σ → ε → Prop} (hinit : I init)
    (hkeep : ∀ s e s', I s → next s e = some s' → Good s e ∧ I s') (h : Run next init trace s) :
    I s ∧ ∀ p ∈ trace, Good p.1 p.2 :=
  h.invariant_and_forall_of_forall (C := fun _ _ => True) hinit
    (fun s e s' hs hstep _ => hkeep s e s' hs hstep) fun _ _ => trivial

/-- When the bad steps are exactly the ones that break `P`, all states of a run have `P` if and only
if none of its steps is bad. The step lemma may use an invariant `I` of its own. -/
theorem forall_iff {I P : σ → Prop} {Bad : σ → ε → Prop} (hinv : I init) (hinit : P init)
    (hkeep : ∀ s e s', I s → P s → next s e = some s' → I s' ∧ (P s' ↔ ¬ Bad s e))
    (h : Run next init trace s) :
    ((∀ p ∈ trace, P p.1) ∧ P s) ↔ ∀ p ∈ trace, ¬ Bad p.1 p.2 := by
  -- the invariant comes along as long as the states have `P`
  suffices hboth : (((∀ p ∈ trace, P p.1) ∧ P s) ↔ ∀ p ∈ trace, ¬ Bad p.1 p.2) ∧
      (((∀ p ∈ trace, P p.1) ∧ P s) → I s) from hboth.1
  induction h with
  | nil =>
    refine ⟨⟨fun _ p hp => absurd hp List.not_mem_nil, fun _ => ⟨fun p hp => ?_, hinit⟩⟩, fun _ => hinv⟩
    exact absurd hp List.not_mem_nil
  | @snoc trace s s' e hrun hstep ih =>
    simp only [List.forall_mem_append, List.forall_mem_singleton]
    constructor
    · constructor
      · rintro ⟨hall, hs'⟩
        have hkept := hkeep s e s' (ih.2 hall) hall.2 hstep
        exact ⟨ih.1.1 hall, hkept.2.1 hs'⟩
      · rintro ⟨hgood, hlast⟩
        have hall := ih.1.2 hgood
        have hkept := hkeep s e s' (ih.2 hall) hall.2 hstep
        exact ⟨hall, hkept.2.2 hlast⟩
    · rintro ⟨hall, -⟩
      exact (hkeep s e s' (ih.2 hall) hall.2 hstep).1

end Run

end OpenDB.Library
