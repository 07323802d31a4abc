import Mathlib.Data.List.Sort

/-!
# Ordered insertion into a part of a list

`List.orderedInsert r a` puts `a` before the first element it is related to. When the elements in
front are all unrelated and those behind all related, the insertion happens in the middle part and
leaves the rest alone. The relation that decides the position need not be the order the list is
sorted by; it has to agree with it between `a` and the elements of the list.

In a sorted list the first element that passes a test is the least one that does.
-/

set_option autoImplicit false

namespace OpenDB.Library

universe u

variable {α : Type u} {r : α → α → Prop} [DecidableRel r] {R : α → α → Prop}

theorem orderedInsert_append_left {a : α} {l₁ : List α} (h : ∀ b ∈ l₁, ¬ r a b) (l₂ : List α) :
    (l₁ ++ l₂).orderedInsert r a = l₁ ++ l₂.orderedInsert r a := by
  induction l₁ with
  | nil => rfl
  | cons b l₁ ih =>
    rw [List.cons_append, List.orderedInsert_of_not_le r _ (h b List.mem_cons_self),
      ih fun c hc => h c (List.mem_cons_of_mem _ hc), List.cons_append]

theorem orderedInsert_append_right {a : α} (l₁ : List α) {l₂ : List α} (h : ∀ b ∈ l₂, r a b) :
    (l₁ ++ l₂).orderedInsert r a = l₁.orderedInsert r a ++ l₂ := by
  induction l₁ with
  | nil =>
    cases l₂ with
    | nil => rfl
    | cons b l₂ =>
      rw [List.nil_append, List.orderedInsert_cons_of_le r _ (h b List.mem_cons_self)]
      rfl
  | cons b l₁ ih =>
    rw [List.cons_append, List.orderedInsert_cons, List.orderedInsert_cons, ih]
    split_ifs <;> rfl

/-- Insertion by `r` into a list sorted by `R` keeps it sorted when `r` agrees with `R`. -/
theorem pairwise_orderedInsert (htrans : ∀ a b c, R a b → R b c → R a c) {a : α} {l : List α}
    (hl : l.Pairwise R) (hbefore : ∀ b ∈ l, r a b → R a b) (hafter : ∀ b ∈ l, ¬ r a b → R b a) :
    (l.orderedInsert r a).Pairwise R := by
  induction l with
  | nil => exact List.pairwise_singleton _ _
  | cons b l ih =>
    rw [List.pairwise_cons] at hl
    rw [List.orderedInsert_cons]
    split_ifs with hab
    · have hRab := hbefore b List.mem_cons_self hab
      refine List.pairwise_cons.2 ⟨?_, List.pairwise_cons.2 hl⟩
      intro c hc
      rcases List.mem_cons.1 hc with rfl | hc
      · exact hRab
      · exact htrans _ _ _ hRab (hl.1 c hc)
    · refine List.pairwise_cons.2 ⟨?_, ih hl.2 (fun c hc => hbefore c (List.mem_cons_of_mem _ hc))
        fun c hc => hafter c (List.mem_cons_of_mem _ hc)⟩
      intro c hc
      rcases (List.mem_orderedInsert r).1 hc with rfl | hc
      · exact hafter b List.mem_cons_self hab
      · exact hl.1 c hc

/-- The first element of a sorted list that passes a test is the least one. -/
theorem find?_eq_some_iff_least {β : Type} [LinearOrder β] {f : α → β} {p : α → Bool} {l : List α}
    (hsorted : l.Pairwise fun a b => f a < f b) {a : α} :
    l.find? p = some a ↔ a ∈ l ∧ p a = true ∧ ∀ x ∈ l, p x = true → f a ≤ f x := by
  induction l with
  | nil => simp
  | cons b l ih =>
    rw [List.pairwise_cons] at hsorted
    cases hp : p b with
    | true =>
      rw [List.find?_cons_of_pos hp]
      constructor
      · rintro ⟨⟩
        refine ⟨List.mem_cons_self, hp, ?_⟩
        intro x hx _
        rcases List.mem_cons.1 hx with rfl | hx
        · exact le_refl _
        · exact (hsorted.1 x hx).le
      · rintro ⟨hmem, -, hleast⟩
        rcases List.mem_cons.1 hmem with rfl | hmem
        · rfl
        · exact absurd (hleast b List.mem_cons_self hp) (not_le.2 (hsorted.1 a hmem))
    | false =>
      rw [List.find?_cons_of_neg (by simp [hp]), ih hsorted.2]
      constructor
      · rintro ⟨hmem, ha, hleast⟩
        refine ⟨List.mem_cons_of_mem _ hmem, ha, ?_⟩
        intro x hx hpx
        rcases List.mem_cons.1 hx with rfl | hx
        · rw [hp] at hpx
          cases hpx
        · exact hleast x hx hpx
      · rintro ⟨hmem, ha, hleast⟩
        rcases List.mem_cons.1 hmem with rfl | hmem
        · rw [hp] at ha
          cases ha
        · exact ⟨hmem, ha, fun x hx => hleast x (List.mem_cons_of_mem _ hx)⟩

end OpenDB.Library
