import OpenDB.Library.RecursiveDescent

/-!
# Rules that do not see blanks

Between its tokens a text has parts that are skipped. Where exactly a rule stops among them is of no
interest, and the rules of a grammar do not agree about it. So a rule is said to read up to what is
skipped (`Rule.Reads`), and rules that do not see these parts (`Rule.Blind`) can be put together without
looking at where one of them has stopped.

`Reads.untilEnd` and `Reads.untilLast` are for the loops over a list that has been written out.
-/

set_option autoImplicit false

namespace OpenDB.Library

universe u

variable {ι : Type u} {τ α β γ : Type} {skip : List τ → List τ}

namespace Rule

/-- The rule reads `a`, and what is left is `r` up to what is skipped. -/
def Reads (skip : List τ → List τ) (R : Rule τ α) (s : List τ) (a : α) (r : List τ) : Prop :=
  ∃ m, R s a m ∧ skip m = skip r

/-- What is skipped in front of a text makes no difference to the rule. -/
def Blind (skip : List τ → List τ) (R : Rule τ α) : Prop :=
  ∀ s s' a r, skip s = skip s' → R s a r → ∃ r', R s' a r' ∧ skip r' = skip r

/-! ## Blind rules -/

namespace Blind

variable {R : Rule τ α} {S : α → Rule τ β}

theorem pure (a : α) : (Pure.pure a : Rule τ α).Blind skip := by
  rintro s s' b r hs ⟨rfl, rfl⟩
  exact ⟨s', ⟨rfl, rfl⟩, hs.symm⟩

theorem bind (hR : R.Blind skip) (hS : ∀ a, (S a).Blind skip) : (R >>= S).Blind skip := by
  rintro s s' b r hs ⟨a, m, hfirst, hsecond⟩
  obtain ⟨m', hfirst', hm⟩ := hR s s' a m hs hfirst
  obtain ⟨r', hsecond', hr⟩ := hS a m m' b r hm.symm hsecond
  exact ⟨r', ⟨a, m', hfirst', hsecond'⟩, hr⟩

theorem iterate {B : β → Rule τ (β ⊕ γ)} (hB : ∀ b, (B b).Blind skip) (b : β) :
    (Repeat B b).Blind skip := by
  intro s s' c r hs h
  induction h generalizing s' with
  | done h =>
    obtain ⟨r', h', hr⟩ := hB _ _ _ _ _ hs h
    exact ⟨r', .done h', hr⟩
  | again h _ ih =>
    -- the rounds behind start from texts that differ in what is skipped
    obtain ⟨m', h', hm⟩ := hB _ _ _ _ _ hs h
    obtain ⟨r', hrest', hr⟩ := ih m' hm.symm
    exact ⟨r', .again h' hrest', hr⟩

end Blind

/-! ## Reading -/

namespace Reads

variable {R : Rule τ α} {S : α → Rule τ β} {s m r : List τ} {a : α} {b : β}

theorem pure (a : α) (s : List τ) : (Pure.pure a : Rule τ α).Reads skip s a s := ⟨s, ⟨rfl, rfl⟩, rfl⟩

theorem of_rule (h : R s a r) : R.Reads skip s a r := ⟨r, h, rfl⟩

theorem congr (hR : R.Blind skip) {s' : List τ} (hs : skip s = skip s') (h : R.Reads skip s a r) :
    R.Reads skip s' a r := by
  obtain ⟨m, hread, hm⟩ := h
  obtain ⟨m', hread', hm'⟩ := hR s s' a m hs hread
  exact ⟨m', hread', hm'.trans hm⟩

theorem bind (hfirst : R.Reads skip s a m) (hS : (S a).Blind skip) (hsecond : (S a).Reads skip m b r) :
    (R >>= S).Reads skip s b r := by
  obtain ⟨m', hread, hm⟩ := hfirst
  obtain ⟨r', hrest, hr⟩ := hsecond.congr hS hm.symm
  exact ⟨r', ⟨a, m', hread, hrest⟩, hr⟩

/-- The first rule stops at the blank in front of what the second one reads. -/
theorem behind (hfirst : R s a m) (hsecond : (S a).Reads skip m b r) : (R >>= S).Reads skip s b r := by
  obtain ⟨r', hrest, hr⟩ := hsecond
  exact ⟨r', ⟨a, m, hfirst, hrest⟩, hr⟩

theorem map {f : α → β} (h : R.Reads skip s a r) : (f <$> R).Reads skip s (f a) r := by
  obtain ⟨m, hread, hm⟩ := h
  exact ⟨m, Rule.map_iff.2 ⟨a, hread, rfl⟩, hm⟩

/-! ## Loops -/

section Loops

variable {B : β → Rule τ (β ⊕ γ)} {c : γ} {d : β}

theorem done (h : (B b).Reads skip s (.inr c) r) : (Repeat B b).Reads skip s c r := by
  obtain ⟨m, hread, hm⟩ := h
  exact ⟨m, .done hread, hm⟩

theorem again (hB : ∀ b, (B b).Blind skip) (h : (B b).Reads skip s (.inl d) m)
    (hrest : (Repeat B d).Reads skip m c r) : (Repeat B b).Reads skip s c r := by
  obtain ⟨m', hread, hm⟩ := h
  obtain ⟨r', hloop, hr⟩ := hrest.congr (.iterate hB d) hm.symm
  exact ⟨r', .again hread hloop, hr⟩

variable {step : β → ι → β} (text : List ι → List τ) (finish : β → γ)

/-- A loop that reads one item in each round, and finds in the last one that there is none. -/
theorem untilEnd (hB : ∀ b, (B b).Blind skip)
    (hmore : ∀ b i rest, (B b).Reads skip (text (i :: rest)) (.inl (step b i)) (text rest))
    (hend : ∀ b, (B b).Reads skip (text []) (.inr (finish b)) r) (items : List ι) (b : β) :
    (Repeat B b).Reads skip (text items) (finish (items.foldl step b)) r := by
  induction items generalizing b with
  | nil => exact .done (hend b)
  | cons i rest ih => exact .again hB (hmore b i rest) (ih (step b i))

/-- A loop that knows behind an item that it was the last one. -/
theorem untilLast (hB : ∀ b, (B b).Blind skip)
    (hmore : ∀ b i j rest,
      (B b).Reads skip (text (i :: j :: rest)) (.inl (step b i)) (text (j :: rest)))
    (hlast : ∀ b i, (B b).Reads skip (text [i]) (.inr (finish (step b i))) r) {items : List ι}
    (hitems : items ≠ []) (b : β) :
    (Repeat B b).Reads skip (text items) (finish (items.foldl step b)) r := by
  induction items generalizing b with
  | nil => exact absurd rfl hitems
  | cons i rest ih =>
    cases rest with
    | nil => exact .done (hlast b i)
    | cons j rest => exact .again hB (hmore b i j rest) (ih (List.cons_ne_nil _ _) (step b i))

end Loops

end Reads

end Rule

end OpenDB.Library
