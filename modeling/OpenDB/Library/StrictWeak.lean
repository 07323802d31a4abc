import OpenDB.Library.Arrangement
import Mathlib.Order.WithBot

/-!
# Strict weak orders

A strict weak order is what a sort needs of its comparison: irreflexive, asymmetric, transitive, and
with a transitive incomparability. A key in a linear order gives one (`StrictWeak.of_key`), also a key
that may be absent and then stands at one end (`StrictWeak.of_nullable`), and so does a second
comparison of what a first one leaves incomparable (`StrictWeak.lex`). A three-way comparison by a key
is oriented and transitive in the same way (`transCmp_of_key`).
-/

set_option autoImplicit false

namespace OpenDB.Library

variable {α β κ : Type*}

/-- Neither is in front of the other. -/
def Incomparable (r : α → α → Prop) (a b : α) : Prop := ¬ r a b ∧ ¬ r b a

structure StrictWeak (r : α → α → Prop) : Prop where
  irrefl : ∀ a, ¬ r a a
  asymm : ∀ a b, r a b → ¬ r b a
  trans : ∀ a b c, r a b → r b c → r a c
  incomparable_trans : ∀ a b c, Incomparable r a b → Incomparable r b c → Incomparable r a c

variable {r s : α → α → Prop} {a b c : α}

theorem Incomparable.symm (h : Incomparable r a b) : Incomparable r b a := ⟨h.2, h.1⟩

namespace StrictWeak

/-- What is in front of `b` is in front of everything incomparable with `b`. -/
theorem trans_incomparable (h : StrictWeak r) (hab : r a b) (hbc : Incomparable r b c) : r a c := by
  by_contra hac
  by_cases hca : r c a
  · exact hbc.2 (h.trans c a b hca hab)
  · exact (h.incomparable_trans a c b ⟨hac, hca⟩ hbc.symm).1 hab

theorem incomparable_trans_left (h : StrictWeak r) (hab : Incomparable r a b) (hbc : r b c) :
    r a c := by
  by_contra hac
  by_cases hca : r c a
  · exact hab.2 (h.trans b c a hbc hca)
  · exact (h.incomparable_trans b a c hab.symm ⟨hac, hca⟩).1 hbc

/-- Of two elements in order, a third one is behind the first or in front of the second. -/
theorem cotrans (h : StrictWeak r) (hac : r a c) : r a b ∨ r b c := by
  by_contra hnot
  obtain ⟨hab, hbc⟩ := not_or.1 hnot
  by_cases hba : r b a
  · exact hbc (h.trans b a c hba hac)
  · exact hbc (h.incomparable_trans_left ⟨hba, hab⟩ hac)

theorem strictWeakOn (h : StrictWeak r) (l : List α) : StrictWeakOn r l :=
  ⟨fun a _ b _ => h.asymm a b, fun _ _ _ _ _ _ hac => h.cotrans hac⟩

/-! ## Constructions -/

theorem of_key [LinearOrder κ] (key : α → κ) : StrictWeak fun a b => key a < key b where
  irrefl _ := lt_irrefl _
  asymm _ _ := lt_asymm
  trans _ _ _ := lt_trans
  incomparable_trans a b c hab hbc := by
    have heq : ∀ x y, Incomparable (fun a b => key a < key b) x y → key x = key y :=
      fun x y h => le_antisymm (not_lt.1 h.2) (not_lt.1 h.1)
    have hac : key a = key c := (heq a b hab).trans (heq b c hbc)
    exact ⟨hac.not_lt, hac.symm.not_lt⟩

/-- No element is in front of another. -/
theorem empty : StrictWeak fun _ _ : α => False where
  irrefl _ := id
  asymm _ _ h := h.elim
  trans _ _ _ h := h.elim
  incomparable_trans _ _ _ _ _ := ⟨id, id⟩

/-- The comparison by a key that may be absent. -/
def NullableLT [LT κ] (front : Bool) : Option κ → Option κ → Prop
  | none, none => False
  | none, some _ => front = true
  | some _, none => front = false
  | some x, some y => x < y

/-- An absent key stands in front of all keys, or behind them. -/
theorem of_nullable [LinearOrder κ] (front : Bool) (key : α → Option κ) :
    StrictWeak fun a b => NullableLT front (key a) (key b) := by
  cases front with
  | true =>
    have hbot : ∀ x y : Option κ, NullableLT true x y ↔
        x.elim (⊥ : WithBot κ) WithBot.some < y.elim ⊥ WithBot.some := by
      intro x y
      cases x <;> cases y <;> simp [NullableLT]
    simp only [hbot]
    exact of_key _
  | false =>
    have htop : ∀ x y : Option κ, NullableLT false x y ↔
        x.elim (⊤ : WithTop κ) WithTop.some < y.elim ⊤ WithTop.some := by
      intro x y
      cases x <;> cases y <;> simp [NullableLT]
    simp only [htop]
    exact of_key _

/-- The second comparison decides between what the first one leaves incomparable. -/
theorem lex (hr : StrictWeak r) (hs : StrictWeak s) :
    StrictWeak fun a b => r a b ∨ (Incomparable r a b ∧ s a b) where
  irrefl a := by
    rintro (h | ⟨-, h⟩)
    · exact hr.irrefl a h
    · exact hs.irrefl a h
  asymm a b := by
    rintro (hab | ⟨hinc, hab⟩) (hba | ⟨hinc', hba⟩)
    · exact hr.asymm a b hab hba
    · exact hinc'.2 hab
    · exact hinc.2 hba
    · exact hs.asymm a b hab hba
  trans a b c := by
    rintro (hab | ⟨hincab, hab⟩) (hbc | ⟨hincbc, hbc⟩)
    · exact Or.inl (hr.trans a b c hab hbc)
    · exact Or.inl (hr.trans_incomparable hab hincbc)
    · exact Or.inl (hr.incomparable_trans_left hincab hbc)
    · exact Or.inr ⟨hr.incomparable_trans a b c hincab hincbc, hs.trans a b c hab hbc⟩
  incomparable_trans a b c hab hbc := by
    -- incomparable here is incomparable for both
    have hboth : ∀ x y, Incomparable (fun a b => r a b ∨ (Incomparable r a b ∧ s a b)) x y →
        Incomparable r x y ∧ Incomparable s x y := by
      rintro x y ⟨hxy, hyx⟩
      have hinc : Incomparable r x y := ⟨fun h => hxy (Or.inl h), fun h => hyx (Or.inl h)⟩
      exact ⟨hinc, fun h => hxy (Or.inr ⟨hinc, h⟩), fun h => hyx (Or.inr ⟨hinc.symm, h⟩)⟩
    obtain ⟨hrab, hsab⟩ := hboth a b hab
    obtain ⟨hrbc, hsbc⟩ := hboth b c hbc
    have hrac := hr.incomparable_trans a b c hrab hrbc
    have hsac := hs.incomparable_trans a b c hsab hsbc
    refine ⟨?_, ?_⟩
    · rintro (h | ⟨-, h⟩)
      · exact hrac.1 h
      · exact hsac.1 h
    · rintro (h | ⟨-, h⟩)
      · exact hrac.2 h
      · exact hsac.2 h

end StrictWeak

/-- The three-way comparison of keys. -/
theorem transCmp_of_key [LinearOrder κ] (key : α → κ) : Std.TransCmp fun a b => cmp (key a) (key b) where
  eq_swap := by
    intro a b
    exact (cmp_swap (key b) (key a)).symm
  isLE_trans := by
    intro a b c hab hbc
    rw [Ordering.isLE_iff_ne_gt] at hab hbc ⊢
    rw [cmp_eq_gt_iff, not_lt] at hab hbc ⊢
    exact hab.trans hbc

end OpenDB.Library
