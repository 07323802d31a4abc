import OpenDB.Library.FaultState

/-!
# Recursive descent

A recursive-descent parser is a computation on a state of which it looks at the text in front of it
only. `Parses v x R N F` relates such a computation to the rule `R` it implements: it ends in a result
exactly where the rule reads one, and what it reports on the way is bounded by two further conditions
on the text, the noise `N` for the results that leave a report behind and `F` for the failures that
leave none. The lemmas compose it along sequencing and along a loop that goes on until its body says
otherwise (`Parses.whileTrue`).
-/

set_option autoImplicit false

namespace OpenDB.Library

variable {ε σ τ α β γ : Type}

/-- What is read: the text in front of it, its result and the text behind it. -/
def Rule (τ α : Type) : Type := List τ → α → List τ → Prop

namespace Rule

/-- Nothing is read. -/
def done (a : α) : Rule τ α := fun s b r => b = a ∧ r = s

/-- One rule after the other. -/
def andThen (R : Rule τ α) (S : α → Rule τ β) : Rule τ β := fun s b r =>
  ∃ a m, R s a m ∧ S a m b r

def never : Rule τ α := fun _ _ _ => False

instance : Monad (Rule τ) where
  pure := done
  bind := andThen

@[simp] theorem pure_iff {a b : α} {s r : List τ} : (pure a : Rule τ α) s b r ↔ b = a ∧ r = s :=
  Iff.rfl

@[simp] theorem bind_iff {R : Rule τ α} {S : α → Rule τ β} {s r : List τ} {b : β} :
    (R >>= S) s b r ↔ ∃ a m, R s a m ∧ S a m b r := Iff.rfl

@[simp] theorem map_iff {R : Rule τ α} {f : α → β} {s r : List τ} {b : β} :
    (f <$> R) s b r ↔ ∃ a, R s a r ∧ b = f a := by
  constructor
  · rintro ⟨a, m, h, rfl, rfl⟩
    exact ⟨a, h, rfl⟩
  · rintro ⟨a, h, rfl⟩
    exact ⟨a, r, h, rfl, rfl⟩

@[simp] theorem not_never {s r : List τ} {a : α} : ¬ (never : Rule τ α) s a r := fun h => h

end Rule

/-- A rule that is taken again and again, with a value that is carried along, until it says what the
result is. -/
inductive Repeat (B : β → Rule τ (β ⊕ γ)) : β → Rule τ γ where
  | done {b : β} {c : γ} {s r : List τ} (h : B b s (.inr c) r) : Repeat B b s c r
  | again {b b' : β} {c : γ} {s m r : List τ} (h : B b s (.inl b') m) (hrest : Repeat B b' m c r) :
      Repeat B b s c r

/-! ## Rules that leave no more than there was -/

/-- The text behind what is read is no longer than the text in front of it. -/
def Rule.Consumes (R : Rule τ α) : Prop := ∀ s a r, R s a r → r.length ≤ s.length

namespace Rule.Consumes

variable {R : Rule τ α} {S : α → Rule τ β}

theorem never : (Rule.never : Rule τ α).Consumes := fun _ _ _ h => h.elim

theorem pure (a : α) : (pure a : Rule τ α).Consumes := by
  rintro s b r ⟨-, rfl⟩
  exact le_rfl

theorem bind (hR : R.Consumes) (hS : ∀ a, (S a).Consumes) : (R >>= S).Consumes := by
  rintro s b r ⟨a, m, hfirst, hsecond⟩
  exact (hS a _ _ _ hsecond).trans (hR _ _ _ hfirst)

theorem ite {c : Prop} [Decidable c] {T : Rule τ α} (hR : R.Consumes) (hT : T.Consumes) :
    (if c then R else T).Consumes := by
  split
  · exact hR
  · exact hT

theorem iterate {B : β → Rule τ (β ⊕ γ)} (hB : ∀ b, (B b).Consumes) (b : β) :
    (Repeat B b).Consumes := by
  intro s c r h
  induction h with
  | done h => exact hB _ _ _ _ h
  | again h _ ih => exact ih.trans (hB _ _ _ _ h)

end Rule.Consumes

/-- Where it goes on, a round of a loop has read something. -/
def Rule.Shrinks (R : Rule τ (β ⊕ γ)) : Prop := ∀ s b r, R s (.inl b) r → r.length < s.length

namespace Rule.Shrinks

theorem never : (Rule.never : Rule τ (β ⊕ γ)).Shrinks := fun _ _ _ h => h.elim

/-- The last round. -/
theorem last (c : γ) : (Pure.pure (.inr c) : Rule τ (β ⊕ γ)).Shrinks := by
  rintro s b r ⟨h, -⟩
  cases h

theorem bind {R : Rule τ α} {S : α → Rule τ (β ⊕ γ)} (hR : R.Consumes) (hS : ∀ a, (S a).Shrinks) :
    (R >>= S).Shrinks := by
  rintro s b r ⟨a, m, hfirst, hsecond⟩
  exact (hS a _ _ _ hsecond).trans_le (hR _ _ _ hfirst)

end Rule.Shrinks

/-! ## Computations that read rules -/

/-- How the state of a parser is looked at: the text in front of it, the states that report the same,
and the failures that are reported. -/
structure Reporting (ε σ τ : Type) where
  view : σ → List τ
  same : σ → σ → Prop
  loud : ε → σ → Prop
  refl : ∀ s, same s s
  trans : ∀ {s t u}, same s t → same t u → same s u

/-- The computation reads the rule: it ends in a result exactly where the rule does, it leaves no
report behind unless `N` allows it, and reports its failure unless `F` excuses that. -/
structure Parses (v : Reporting ε σ τ) (x : EStateM ε σ α) (R : Rule τ α) (N : Rule τ α)
    (F : ε → List τ → Prop) : Prop where
  reads : ∀ s a r, (∃ s', x.run s = .ok a s' ∧ v.view s' = r) ↔ R (v.view s) a r
  keeps : ∀ s a s', x.run s = .ok a s' → v.same s s' ∨ N (v.view s) a (v.view s')
  fails : ∀ s e s', x.run s = .error e s' → v.loud e s' ∨ F e (v.view s)

/-- No failure is excused. -/
def unexcused : ε → List τ → Prop := fun _ _ => False

/-- A computation that reads the rule, and reports its failures and nothing else. -/
abbrev Plain (v : Reporting ε σ τ) (x : EStateM ε σ α) (R : Rule τ α) : Prop :=
  Parses v x R .never unexcused

namespace Parses

variable {v : Reporting ε σ τ} {x : EStateM ε σ α} {f : α → EStateM ε σ β} {R N : Rule τ α}
  {S M : α → Rule τ β} {F : ε → List τ → Prop} {G : α → ε → List τ → Prop}

/-- A result of the computation is read by the rule. -/
theorem sound (h : Parses v x R N F) {s s' : σ} {a : α} (hx : x.run s = .ok a s') :
    R (v.view s) a (v.view s') :=
  (h.reads s a _).1 ⟨s', hx, rfl⟩

/-- What the rule reads the computation reads. -/
theorem complete (h : Parses v x R N F) {s : σ} {a : α} {r : List τ}
    (hR : R (v.view s) a r) : ∃ s', x.run s = .ok a s' ∧ v.view s' = r :=
  (h.reads s a r).2 hR

/-- A rule that is implemented reads a text in one way. -/
theorem unique (h : Parses v x R N F) {s : σ} {a a' : α} {r r' : List τ} (hR : R (v.view s) a r)
    (hR' : R (v.view s) a' r') : a = a' ∧ r = r' := by
  obtain ⟨t, hrun, rfl⟩ := h.complete hR
  obtain ⟨t', hrun', rfl⟩ := h.complete hR'
  rw [hrun] at hrun'
  cases hrun'
  exact ⟨rfl, rfl⟩

/-- What is read without noise leaves no report behind. -/
theorem quiet (h : Parses v x R N F) {s : σ} {a : α} {r : List τ} (hR : R (v.view s) a r)
    (hN : ¬ N (v.view s) a r) : ∃ s', x.run s = .ok a s' ∧ v.view s' = r ∧ v.same s s' := by
  obtain ⟨s', hrun, hview⟩ := h.complete hR
  refine ⟨s', hrun, hview, (h.keeps s a s' hrun).resolve_right ?_⟩
  exact hview ▸ hN

/-- Another way to write the rule, and weaker bounds on the reports. -/
theorem weaken (h : Parses v x R N F) {R' M : Rule τ α} {G : ε → List τ → Prop}
    (hR : ∀ s a r, R s a r ↔ R' s a r) (hnoise : ∀ s a r, R s a r → N s a r → M s a r)
    (hexcused : ∀ e s, F e s → G e s) : Parses v x R' M G where
  reads s a r := (h.reads s a r).trans (hR _ a r)
  keeps s a s' hx := (h.keeps s a s' hx).imp_right (hnoise _ _ _ (h.sound hx))
  fails s e s' hx := (h.fails s e s' hx).imp_right (hexcused _ _)

theorem congr (h : Parses v x R N F) {R' : Rule τ α} (hR : ∀ s a r, R s a r ↔ R' s a r) :
    Parses v x R' N F :=
  h.weaken hR (fun _ _ _ _ hn => hn) fun _ _ he => he

theorem done (a : α) : Plain v (pure a) (pure a) where
  reads s b r := by
    constructor
    · rintro ⟨s', hrun, rfl⟩
      cases hrun
      exact ⟨rfl, rfl⟩
    · rintro ⟨rfl, rfl⟩
      exact ⟨s, rfl, rfl⟩
  keeps s b s' hrun := by
    cases hrun
    exact .inl (v.refl s)
  fails s e s' hrun := by cases hrun

/-- Sequencing. A report may be left by either part, and either part may fail. -/
theorem bind (hx : Parses v x R N F)
    (hf : ∀ a, Parses v (f a) (S a) (M a) (G a)) :
    Parses v (x >>= f) (R >>= S)
      (fun s b r => ∃ a m, R s a m ∧ S a m b r ∧ (N s a m ∨ M a m b r))
      (fun e s => F e s ∨ ∃ a m, R s a m ∧ G a e m) where
  reads s b r := by
    simp only [run_bind_eq_ok]
    constructor
    · rintro ⟨s', ⟨a, t, hrun, hrest⟩, rfl⟩
      exact ⟨a, v.view t, hx.sound hrun, (hf a).sound hrest⟩
    · rintro ⟨a, m, hR, hS⟩
      obtain ⟨t, hrun, rfl⟩ := hx.complete hR
      obtain ⟨s', hrest, hr⟩ := (hf a).complete hS
      exact ⟨s', ⟨a, t, hrun, hrest⟩, hr⟩
  keeps s b s' hrun := by
    obtain ⟨a, t, hrun, hrest⟩ := run_bind_eq_ok.1 hrun
    rcases hx.keeps s a t hrun with hfirst | hfirst
    · rcases (hf a).keeps t b s' hrest with hsecond | hsecond
      · exact .inl (v.trans hfirst hsecond)
      · exact .inr ⟨a, v.view t, hx.sound hrun, (hf a).sound hrest, .inr hsecond⟩
    · exact .inr ⟨a, v.view t, hx.sound hrun, (hf a).sound hrest, .inl hfirst⟩
  fails s e s' hrun := by
    rcases run_bind_eq_error.1 hrun with hfirst | ⟨a, t, hfirst, hsecond⟩
    · exact (hx.fails s e s' hfirst).imp_right .inl
    · exact ((hf a).fails t e s' hsecond).imp_right fun h => .inr ⟨a, v.view t, hx.sound hfirst, h⟩

theorem map (h : Parses v x R N F) (g : α → β) : Parses v (g <$> x) (g <$> R) (g <$> N) F where
  reads s b r := by
    simp only [run_map_eq, Rule.map_iff, ← h.reads]
    constructor
    · rintro ⟨s', hrun, rfl⟩
      cases hx : x.run s with
      | ok a t =>
        rw [hx] at hrun
        cases hrun
        exact ⟨a, ⟨_, rfl, rfl⟩, rfl⟩
      | error e t =>
        rw [hx] at hrun
        cases hrun
    · rintro ⟨a, ⟨s', hx, rfl⟩, rfl⟩
      exact ⟨s', by rw [hx], rfl⟩
  keeps s b s' hrun := by
    rw [run_map_eq] at hrun
    cases hx : x.run s with
    | ok a t =>
      rw [hx] at hrun
      cases hrun
      exact (h.keeps s a _ hx).imp_right fun hN => Rule.map_iff.2 ⟨a, hN, rfl⟩
    | error e t =>
      rw [hx] at hrun
      cases hrun
  fails s e s' hrun := by
    rw [run_map_eq] at hrun
    cases hx : x.run s with
    | ok a t =>
      rw [hx] at hrun
      cases hrun
    | error e t =>
      rw [hx] at hrun
      cases hrun
      exact h.fails s e _ hx

/-- Sequencing of computations that report their failures and nothing else. -/
theorem plainBind (hx : Plain v x R) (hf : ∀ a, Plain v (f a) (S a)) :
    Plain v (x >>= f) (R >>= S) :=
  (hx.bind hf).weaken (fun _ _ _ => Iff.rfl)
    (fun _ _ _ _ ⟨_, _, _, _, hnoise⟩ => hnoise.elim id id)
    (fun _ _ hexcused => hexcused.elim id fun ⟨_, _, _, h⟩ => h)

/-- A test between two computations. -/
theorem ite {c : Prop} [Decidable c] {y : EStateM ε σ α} {T M : Rule τ α}
    {G : ε → List τ → Prop} (hx : Parses v x R N F)
    (hy : Parses v y T M G) :
    Parses v (if c then x else y) (if c then R else T) (if c then N else M)
      (if c then F else G) := by
  split
  · exact hx
  · exact hy

theorem plainIte {c : Prop} [Decidable c] {y : EStateM ε σ α} {T : Rule τ α} (hx : Plain v x R)
    (hy : Plain v y T) : Plain v (if c then x else y) (if c then R else T) := by
  split
  · exact hx
  · exact hy

end Parses

/-! ## Loops -/

section Loop

variable (view : σ → List τ) (exhausted : ε)

/-- At most `n` rounds of a loop. -/
def whileTrueN (body : β → EStateM ε σ (β ⊕ γ)) : Nat → β → EStateM ε σ γ
  | 0, _ => throw exhausted
  | n + 1, b => do
    match ← body b with
    | .inl b' => whileTrueN body n b'
    | .inr c => return c

/-- A loop that goes on until its body says what the result is. Every round that goes on is meant to
read something, so the text bounds the number of rounds. -/
def whileTrue (body : β → EStateM ε σ (β ⊕ γ)) (b : β) : EStateM ε σ γ := fun s =>
  (whileTrueN exhausted body ((view s).length + 1) b).run s

end Loop

namespace Parses

variable {v : Reporting ε σ τ} {exhausted : ε} {body : β → EStateM ε σ (β ⊕ γ)}
  {B N : β → Rule τ (β ⊕ γ)} {F : β → ε → List τ → Prop} {M : β → Rule τ γ}
  {G : β → ε → List τ → Prop}

/-- With a round for every element of the text the loop reads what its body reads again and again. -/
theorem whileTrueN (hbody : ∀ b, Parses v (body b) (B b) (N b) (F b))
    (hshrink : ∀ b, (B b).Shrinks)
    (hnoiseDone : ∀ {b c s r}, B b s (.inr c) r → N b s (.inr c) r → M b s c r)
    (hnoiseAgain : ∀ {b b' c s m r}, B b s (.inl b') m → Repeat B b' m c r →
      N b s (.inl b') m ∨ M b' m c r → M b s c r)
    (hexcusedFirst : ∀ {b e s}, F b e s → G b e s)
    (hexcusedAgain : ∀ {b b' e s m}, B b s (.inl b') m → G b' e m → G b e s)
    (n : Nat) (b : β) {s : σ} (hn : (v.view s).length < n) :
    (∀ c r, (∃ s', (Library.whileTrueN exhausted body n b).run s = .ok c s' ∧ v.view s' = r) ↔
        Repeat B b (v.view s) c r) ∧
      (∀ c s', (Library.whileTrueN exhausted body n b).run s = .ok c s' →
        v.same s s' ∨ M b (v.view s) c (v.view s')) ∧
      ∀ e s', (Library.whileTrueN exhausted body n b).run s = .error e s' →
        v.loud e s' ∨ G b e (v.view s) := by
  induction n generalizing b s with
  | zero => omega
  | succ n ih =>
    rw [Library.whileTrueN, EStateM.run_bind]
    cases hfirst : (body b).run s with
    | error e t =>
      refine ⟨fun c r => ⟨?_, fun h => ?_⟩, ?_, fun e' s' h => ?_⟩
      · rintro ⟨s', hrun, -⟩
        cases hrun
      · cases h with
        | done h =>
          obtain ⟨s', hrun, -⟩ := (hbody b).complete h
          rw [hfirst] at hrun
          cases hrun
        | again h hrest =>
          obtain ⟨s', hrun, -⟩ := (hbody b).complete h
          rw [hfirst] at hrun
          cases hrun
      · rintro c s' hrun
        cases hrun
      · cases h
        exact ((hbody b).fails s e t hfirst).imp_right hexcusedFirst
    | ok step t =>
      have hB := (hbody b).sound hfirst
      -- the rule of the body reads nothing else here
      have honly : ∀ {step' m}, B b (v.view s) step' m → step' = step ∧ m = v.view t := by
        intro step' m h
        obtain ⟨s', hrun, rfl⟩ := (hbody b).complete h
        rw [hfirst] at hrun
        cases hrun
        exact ⟨rfl, rfl⟩
      cases step with
      | inr c =>
        refine ⟨fun c' r => ⟨?_, fun h => ?_⟩, ?_, ?_⟩
        · rintro ⟨s', hrun, rfl⟩
          cases hrun
          exact .done hB
        · cases h with
          | done h =>
            obtain ⟨hc, rfl⟩ := honly h
            cases hc
            exact ⟨t, rfl, rfl⟩
          | again h hrest => cases (honly h).1
        · rintro c' s' hrun
          cases hrun
          exact ((hbody b).keeps s _ t hfirst).imp_right (hnoiseDone hB)
        · rintro e s' hrun
          cases hrun
      | inl b' =>
        have hlt : (v.view t).length < n := by
          have := hshrink b _ _ _ hB
          omega
        obtain ⟨hreads, hkeeps, hfails⟩ := ih b' hlt
        refine ⟨fun c r => ⟨fun h => .again hB ((hreads c r).1 h), fun h => (hreads c r).2 ?_⟩,
          fun c s' hrun => ?_, fun e s' hrun => (hfails e s' hrun).imp_right (hexcusedAgain hB)⟩
        · cases h with
          | done h => cases (honly h).1
          | again h hrest =>
            obtain ⟨hb, rfl⟩ := honly h
            cases hb
            exact hrest
        · have hrest := (hreads c _).1 ⟨s', hrun, rfl⟩
          rcases (hbody b).keeps s _ t hfirst with hsame | hnoise
          · rcases hkeeps c s' hrun with hsame' | hnoise
            · exact .inl (v.trans hsame hsame')
            · exact .inr (hnoiseAgain hB hrest (.inr hnoise))
          · exact .inr (hnoiseAgain hB hrest (.inl hnoise))

/-- A loop reads what its body reads again and again, if every round that goes on reads something. -/
theorem whileTrue (hbody : ∀ b, Parses v (body b) (B b) (N b) (F b))
    (hshrink : ∀ b, (B b).Shrinks)
    (hnoiseDone : ∀ {b c s r}, B b s (.inr c) r → N b s (.inr c) r → M b s c r)
    (hnoiseAgain : ∀ {b b' c s m r}, B b s (.inl b') m → Repeat B b' m c r →
      N b s (.inl b') m ∨ M b' m c r → M b s c r)
    (hexcusedFirst : ∀ {b e s}, F b e s → G b e s)
    (hexcusedAgain : ∀ {b b' e s m}, B b s (.inl b') m → G b' e m → G b e s)
    (b : β) :
    Parses v (Library.whileTrue v.view exhausted body b) (Repeat B b) (M b) (G b) where
  reads _ := (whileTrueN hbody hshrink hnoiseDone hnoiseAgain hexcusedFirst hexcusedAgain _ b
    (Nat.lt_succ_self _)).1
  keeps _ := (whileTrueN hbody hshrink hnoiseDone hnoiseAgain hexcusedFirst hexcusedAgain _ b
    (Nat.lt_succ_self _)).2.1
  fails _ := (whileTrueN hbody hshrink hnoiseDone hnoiseAgain hexcusedFirst hexcusedAgain _ b
    (Nat.lt_succ_self _)).2.2

/-- A loop whose body reports its failures and nothing else. -/
theorem plainWhileTrue (hbody : ∀ b, Plain v (body b) (B b))
    (hshrink : ∀ b, (B b).Shrinks) (b : β) :
    Plain v (Library.whileTrue v.view exhausted body b) (Repeat B b) :=
  whileTrue (M := fun _ => .never) (G := fun _ => unexcused) hbody hshrink
    (fun _ hnoise => hnoise) (fun _ _ hnoise => hnoise.elim id id) (fun h => h) (fun _ h => h) b

end Parses

/-! ## Failures without a report -/

/-- On these texts the computation fails in this way and reports nothing. -/
def FailsSilently (v : Reporting ε σ τ) (x : EStateM ε σ α) (F : ε → List τ → Prop) : Prop :=
  ∀ s e, F e (v.view s) → ∃ s', x.run s = .error e s' ∧ v.same s s'

/-- The texts on which a loop fails: its first round does, or it goes on and fails then. -/
inductive RepeatFails (B : β → Rule τ (β ⊕ γ)) (F : β → ε → List τ → Prop) :
    β → ε → List τ → Prop where
  | first {b : β} {e : ε} {s : List τ} (h : F b e s) : RepeatFails B F b e s
  | again {b b' : β} {e : ε} {s m : List τ} (h : B b s (.inl b') m) (hrest : RepeatFails B F b' e m) :
      RepeatFails B F b e s

namespace FailsSilently

variable {v : Reporting ε σ τ} {x : EStateM ε σ α} {f : α → EStateM ε σ β} {R : Rule τ α}
  {F : ε → List τ → Prop} {G : α → ε → List τ → Prop}

theorem bindLeft (h : FailsSilently v x F) : FailsSilently v (x >>= f) F := by
  intro s e hF
  obtain ⟨s', hrun, hsame⟩ := h s e hF
  exact ⟨s', run_bind_eq_error.2 (.inl hrun), hsame⟩

theorem bindRight {F : ε → List τ → Prop} (hx : Parses v x R .never F)
    (hf : ∀ a, FailsSilently v (f a) (G a)) :
    FailsSilently v (x >>= f) fun e s => ∃ a m, R s a m ∧ G a e m := by
  rintro s e ⟨a, m, hR, hG⟩
  obtain ⟨t, hrun, rfl, hsame⟩ := hx.quiet hR Rule.not_never
  obtain ⟨s', hrest, hsame'⟩ := hf a t e hG
  exact ⟨s', run_bind_eq_error.2 (.inr ⟨a, t, hrun, hrest⟩), v.trans hsame hsame'⟩

theorem map (h : FailsSilently v x F) (g : α → β) : FailsSilently v (g <$> x) F := by
  intro s e hF
  obtain ⟨s', hrun, hsame⟩ := h s e hF
  exact ⟨s', by rw [run_map_eq, hrun], hsame⟩

variable {exhausted : ε} {body : β → EStateM ε σ (β ⊕ γ)} {B : β → Rule τ (β ⊕ γ)}
  {H K : β → ε → List τ → Prop}

theorem whileTrueN (hbody : ∀ b, Parses v (body b) (B b) .never (H b))
    (hshrink : ∀ b, (B b).Shrinks) (hfails : ∀ b, FailsSilently v (body b) (K b)) {b : β} {e : ε}
    {text : List τ} (h : RepeatFails B K b e text) :
    ∀ {n s}, v.view s = text → text.length < n →
      ∃ s', (Library.whileTrueN exhausted body n b).run s = .error e s' ∧ v.same s s' := by
  induction h with
  | first h =>
    rintro n s rfl hn
    obtain ⟨s', hrun, hsame⟩ := hfails _ s _ h
    obtain ⟨k, rfl⟩ : ∃ k, n = k + 1 := ⟨n - 1, by omega⟩
    exact ⟨s', run_bind_eq_error.2 (.inl hrun), hsame⟩
  | again h _ ih =>
    rintro n s rfl hn
    obtain ⟨t, hrun, rfl, hsame⟩ := (hbody _).quiet h Rule.not_never
    obtain ⟨k, rfl⟩ : ∃ k, n = k + 1 := ⟨n - 1, by omega⟩
    have hshorter := hshrink _ _ _ _ h
    obtain ⟨s', hrest, hsame'⟩ := ih (n := k) rfl (by omega)
    exact ⟨s', run_bind_eq_error.2 (.inr ⟨_, t, hrun, hrest⟩), v.trans hsame hsame'⟩

/-- A loop fails without a report where a round of it does. -/
theorem whileTrue (hbody : ∀ b, Parses v (body b) (B b) .never (H b))
    (hshrink : ∀ b, (B b).Shrinks) (hfails : ∀ b, FailsSilently v (body b) (K b)) (b : β) :
    FailsSilently v (Library.whileTrue v.view exhausted body b) (RepeatFails B K b) :=
  fun _ _ h => whileTrueN hbody hshrink hfails h rfl (Nat.lt_succ_self _)

end FailsSilently

end OpenDB.Library
