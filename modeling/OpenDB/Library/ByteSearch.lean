import Mathlib.Data.List.Basic

/-!
# Searching in byte strings

The search functions of `std::string` on lists: the first occurrence of a text from a position on, and
the first element from a position on that is not one of a set.
-/

set_option autoImplicit false

namespace OpenDB.Library

universe u

variable {α : Type u} [DecidableEq α]

/-- `find`: the first position from `start` on where the text occurs. -/
def findFrom (text l : List α) (start : Nat) : Option Nat :=
  (List.range (l.length + 1)).find? fun i => decide (start ≤ i) && text.isPrefixOf (l.drop i)

/-- `find_first_not_of`. -/
def findFirstNotOf (set l : List α) (start : Nat) : Option Nat :=
  (List.range l.length).find? fun i => decide (start ≤ i) &&
    match l[i]? with
    | none => false
    | some a => !set.contains a

theorem isPrefixOf_of_findFrom {text l : List α} {start i : Nat}
    (h : findFrom text l start = some i) : start ≤ i ∧ text <+: l.drop i := by
  have hi := List.find?_some h
  rw [Bool.and_eq_true, decide_eq_true_eq] at hi
  exact ⟨hi.1, List.isPrefixOf_iff_prefix.1 hi.2⟩

/-- The element at the starting position is found when it is not of the set. -/
theorem findFirstNotOf_self {set l : List α} {i : Nat} {a : α} (ha : l[i]? = some a)
    (hset : a ∉ set) : findFirstNotOf set l i = some i := by
  have hi : i < l.length := (List.getElem?_eq_some_iff.1 ha).1
  rw [findFirstNotOf, List.find?_range_eq_some]
  refine ⟨?_, List.mem_range.2 hi, fun j hj => ?_⟩
  · simp [ha, hset]
  · simp [Nat.not_le.2 hj]

end OpenDB.Library
