import Mathlib.Data.List.Basic

/-!
# Kleene's three-valued logic

The strong connectives of arbitrary arity: a conjunction is true if all its members are, false if one
of them is, and unknown otherwise; a disjunction the other way round. Neither has a true value that a
two-valued evaluation, which takes unknown members for false, would not find (`holds_all`,
`holds_any`).
-/

set_option autoImplicit false

namespace OpenDB.Library

inductive Truth where
  | no | unknown | yes
  deriving DecidableEq, Repr

namespace Truth

def ofBool : Bool → Truth
  | true => yes
  | false => no

/-- The two-valued reading: what is unknown does not hold. -/
def holds : Truth → Bool
  | yes => true
  | unknown => false
  | no => false

def and : Truth → Truth → Truth
  | no, _ => no
  | _, no => no
  | yes, yes => yes
  | _, _ => unknown

def or : Truth → Truth → Truth
  | yes, _ => yes
  | _, yes => yes
  | no, no => no
  | _, _ => unknown

/-- The conjunction of a list; the empty one is true. -/
def all (l : List Truth) : Truth := l.foldr and yes

/-- The disjunction of a list; the empty one is false. -/
def any (l : List Truth) : Truth := l.foldr or no

variable {x y : Truth} {l : List Truth}

@[simp] theorem holds_ofBool (b : Bool) : (ofBool b).holds = b := by cases b <;> rfl

theorem holds_iff : x.holds = true ↔ x = yes := by cases x <;> simp [holds]

@[simp] theorem holds_and (x y : Truth) : (x.and y).holds = (x.holds && y.holds) := by
  cases x <;> cases y <;> rfl

@[simp] theorem holds_or (x y : Truth) : (x.or y).holds = (x.holds || y.holds) := by
  cases x <;> cases y <;> rfl

theorem holds_all : (all l).holds = l.all holds := by
  induction l with
  | nil => rfl
  | cons x l ih =>
    have hcons : all (x :: l) = x.and (all l) := rfl
    rw [hcons, holds_and, ih, List.all_cons]

theorem holds_any : (any l).holds = l.any holds := by
  induction l with
  | nil => rfl
  | cons x l ih =>
    have hcons : any (x :: l) = x.or (any l) := rfl
    rw [hcons, holds_or, ih, List.any_cons]

end Truth

end OpenDB.Library
