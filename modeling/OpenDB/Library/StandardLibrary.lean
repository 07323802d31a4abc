import OpenDB.Library.Arrangement

/-!
# What the standard leaves open

Two results that a program sees and the standard does not fix: the order in which a hash table is gone
through, and where `std::sort` leaves elements of which none precedes the other, or all of them if the
comparison is not a strict weak order. A `StandardLibrary` is one choice of both.

What is proved for every `StandardLibrary` holds with any implementation, and there is one for whatever
the standard allows a sort to leave (`sort_leaving`). Runs on fixed data take
`StandardLibrary.inOrder`, which keeps the order that the elements came in.
-/

set_option autoImplicit false

namespace OpenDB.Library

class StandardLibrary where
  /-- The elements in the order of an iterator; the list has them in the order of their insertion. -/
  iterate {α : Type} : List α → List α
  iterate_perm {α : Type} (xs : List α) : (iterate xs).Perm xs
  /-- What `std::sort` leaves of the elements. -/
  sort {α : Type} : (α → α → Bool) → List α → List α
  sort_arranged {α : Type} (before : α → α → Bool) (xs : List α) :
    StrictWeakOn (fun a b => before a b = true) xs →
      (sort before xs).Perm xs ∧ Arranged (fun a b => before a b = true) (sort before xs)

namespace StandardLibrary

/-- Tables in the order of insertion, and a stable sort. -/
instance (priority := low) inOrder : StandardLibrary where
  iterate xs := xs
  iterate_perm := .refl
  sort before xs := xs.insertionSort fun a b => ¬ before b a = true
  sort_arranged _ _ hweak := ⟨List.perm_insertionSort _ _, hweak.arranged_insertionSort⟩

variable {α : Type} {xs : List α}

section

variable [StandardLibrary] {a : α}

@[simp] theorem mem_iterate : a ∈ iterate xs ↔ a ∈ xs := (iterate_perm xs).mem_iff

theorem iterate_singleton : iterate [a] = [a] := List.perm_singleton.1 (iterate_perm [a])

theorem iterate_nil : iterate ([] : List α) = [] := List.perm_nil.1 (iterate_perm [])

end

/-! ## Every sort that is allowed -/

variable {β : Type} {before : α → α → Bool} {out : List α}

/-- What the standard allows `std::sort` to leave. -/
def SortAllowed (before : α → α → Bool) (xs out : List α) : Prop :=
  StrictWeakOn (fun a b => before a b = true) xs →
    out.Perm xs ∧ Arranged (fun a b => before a b = true) out

/-- The library that leaves the given elements wherever the standard allows them, and is like another
one otherwise. -/
@[reducible] noncomputable def leaving (base : StandardLibrary) (given : List β) : StandardLibrary where
  iterate := base.iterate
  iterate_perm := base.iterate_perm
  sort {α} before xs := by
    classical
    exact if h : ∃ out : List α, HEq out given ∧ SortAllowed before xs out then h.choose
      else base.sort before xs
  sort_arranged before xs := by
    split_ifs with h
    · exact h.choose_spec.2
    · exact base.sort_arranged before xs

theorem sort_leaving (base : StandardLibrary) (h : SortAllowed before xs out) :
    (leaving base out).sort before xs = out := by
  have hsome : ∃ out' : List α, HEq out' out ∧ SortAllowed before xs out' := ⟨out, .rfl, h⟩
  refine (dif_pos hsome).trans ?_
  exact eq_of_heq hsome.choose_spec.1

end StandardLibrary

end OpenDB.Library
