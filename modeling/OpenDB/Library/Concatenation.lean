import Mathlib.Data.List.Forall2

/-!
# Concatenations

A list of which every member comes to a list of its own, and these one after the other.
-/

set_option autoImplicit false

namespace OpenDB.Library

variable {α β : Type*} {R : α → β → Prop} {as : List α} {bs : List β} {a : α} {b : β}

/-- A member of the second list of a pairwise relation is related to one of the first. -/
theorem exists_left_of_forall₂ (h : List.Forall₂ R as bs) (hb : b ∈ bs) : ∃ a ∈ as, R a b := by
  induction h with
  | nil => exact absurd hb List.not_mem_nil
  | @cons a b' as bs hab _ ih =>
    rcases List.mem_cons.1 hb with rfl | hb
    · exact ⟨a, List.mem_cons_self, hab⟩
    · obtain ⟨a', ha', hR⟩ := ih hb
      exact ⟨a', List.mem_cons_of_mem _ ha', hR⟩

theorem exists_right_of_forall₂ (h : List.Forall₂ R as bs) (ha : a ∈ as) : ∃ b ∈ bs, R a b :=
  exists_left_of_forall₂ h.flip ha

/-- The lists that the members come to, one after the other. -/
def Concatenates (S : α → List β → Prop) (as : List α) (out : List β) : Prop :=
  ∃ groups, List.Forall₂ S as groups ∧ out = groups.flatten

variable {S : α → List β → Prop} {out : List β}

theorem concatenates_flatMap {f : α → List β} (h : ∀ a ∈ as, S a (f a)) :
    Concatenates S as (as.flatMap f) := by
  refine ⟨as.map f, ?_, rfl⟩
  rw [List.forall₂_map_right_iff, List.forall₂_same]
  exact h

theorem Concatenates.exists_of_mem (h : Concatenates S as out) (hb : b ∈ out) :
    ∃ a ∈ as, ∃ group, S a group ∧ b ∈ group := by
  obtain ⟨groups, hgroups, rfl⟩ := h
  obtain ⟨group, hgroup, hb⟩ := List.mem_flatten.1 hb
  obtain ⟨a, ha, hS⟩ := exists_left_of_forall₂ hgroups hgroup
  exact ⟨a, ha, group, hS, hb⟩

theorem Concatenates.mem_of_group (h : Concatenates S as out) (ha : a ∈ as) :
    ∃ group, S a group ∧ ∀ b ∈ group, b ∈ out := by
  obtain ⟨groups, hgroups, rfl⟩ := h
  obtain ⟨group, hgroup, hS⟩ := exists_right_of_forall₂ hgroups ha
  exact ⟨group, hS, fun b hb => List.mem_flatten.2 ⟨group, hgroup, hb⟩⟩

/-- Lists that the members come to in one way only make up one list. -/
theorem Concatenates.unique (hS : Relator.RightUnique S) {out' : List β} (h : Concatenates S as out)
    (h' : Concatenates S as out') : out = out' := by
  obtain ⟨groups, hgroups, rfl⟩ := h
  obtain ⟨groups', hgroups', rfl⟩ := h'
  rw [hS.forall₂ hgroups hgroups']

end OpenDB.Library
