import Mathlib.Logic.Function.Basic

/-!
# Multi-version maps

A map that several transactions write to. What a transaction writes is staged for it alone; a commit
makes its staged writes part of the map, an abort forgets them. A staged write is a value, or `none`
for a removal. A transaction reads its own staged write of a key if there is one and otherwise the
committed value.
-/

set_option autoImplicit false

namespace OpenDB.Library

universe u v w

/-- The committed values and the staged writes of every transaction. -/
structure MvccMap (τ : Type u) (κ : Type v) (ν : Type w) where
  committed : κ → Option ν
  staged : τ → κ → Option (Option ν)

namespace MvccMap

variable {τ : Type u} {κ : Type v} {ν : Type w}

def empty : MvccMap τ κ ν := ⟨fun _ => none, fun _ _ => none⟩

/-- A transaction's view of a key. -/
def read (m : MvccMap τ κ ν) (t : τ) (k : κ) : Option ν := (m.staged t k).getD (m.committed k)

variable [DecidableEq τ] [DecidableEq κ]

/-- A write, or a removal, by a transaction. -/
def write (t : τ) (k : κ) (value : Option ν) (m : MvccMap τ κ ν) : MvccMap τ κ ν :=
  { m with staged := fun u l => if u = t ∧ l = k then some value else m.staged u l }

def commit (t : τ) (m : MvccMap τ κ ν) : MvccMap τ κ ν :=
  ⟨m.read t, fun u => if u = t then fun _ => none else m.staged u⟩

def abort (t : τ) (m : MvccMap τ κ ν) : MvccMap τ κ ν :=
  { m with staged := fun u => if u = t then fun _ => none else m.staged u }

end MvccMap

end OpenDB.Library
