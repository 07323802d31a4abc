import OpenDB.Core.LockManager
import OpenDB.Library.StandardLibrary

/-!
# The deadlock detector

A walk along one wait chain: from the table a transaction waits for to the first holder of it that
waits itself, until the chain ends, comes back to the transaction it started from, or has taken 1024
hops. A transaction that waits for nothing is on no chain (`detectCycle_of_not_waiting`).

The source walks hash tables. Where it takes the first entry of several, that is the first one in the
order of the `StandardLibrary`.
-/

set_option autoImplicit false

namespace OpenDB

open OpenDB.Library

namespace LockManager

variable [StandardLibrary]

/-- `waiterResource`: a resource the transaction waits for, or an empty key. -/
def waiterResource (m : LockManager) (txn : UInt64) : ResourceKey :=
  match (StandardLibrary.iterate m.waiters.entries).find? fun e => e.2.any fun w => w.txn == txn with
  | some e => e.1
  | none => ([], [])

/-- `waiterTable`. -/
def waiterTable (m : LockManager) (txn : UInt64) : Bytes := (m.waiterResource txn).1

/-- `getHolders`. -/
def getHolders (m : LockManager) (table : Bytes) : List UInt64 :=
  StandardLibrary.iterate
    ((m.held.entries.filter fun e => e.1.1 = table).flatMap fun e => e.2.holders).dedup

/-- Where the holders of a table lead: back to the origin, to the table one of them waits for, or
nowhere. -/
inductive Hop where
  | closed
  | next (table : Bytes)
  | ended
  deriving DecidableEq

/-- The loop over the holders of a table. -/
def hop (m : LockManager) (origin : UInt64) : List UInt64 → Hop
  | [] => .ended
  | holder :: rest =>
    if holder = origin then .closed
    else if (m.waiterTable holder).isEmpty then m.hop origin rest
    else .next (m.waiterTable holder)

/-- The walk, with the number of hops that are left. -/
def walk (m : LockManager) (origin : UInt64) : Nat → Bytes → Option UInt64
  | 0, _ => none
  | n + 1, table =>
    match m.hop origin (m.getHolders table) with
    | .closed => some origin
    | .next table => m.walk origin n table
    | .ended => none

/-- `DeadlockDetector::detectCycle`. -/
def detectCycle (m : LockManager) (origin : UInt64) : Option UInt64 :=
  if (m.waiterTable origin).isEmpty then none else m.walk origin 1024 (m.waiterTable origin)

variable {m : LockManager} {origin victim : UInt64}

theorem detectCycle_of_not_waiting
    (h : ∀ e ∈ m.waiters.entries, ∀ w ∈ e.2, w.txn ≠ origin) : m.detectCycle origin = none := by
  have hfind : (StandardLibrary.iterate m.waiters.entries).find?
      (fun e => e.2.any fun w => w.txn == origin) = none := by
    rw [List.find?_eq_none]
    intro e he hany
    obtain ⟨w, hw, htxn⟩ := List.any_eq_true.1 hany
    exact h e (StandardLibrary.mem_iterate.1 he) w hw (eq_of_beq htxn)
  rw [detectCycle, waiterTable, waiterResource, hfind]
  rfl

end LockManager

/-- The detector does not sort. -/
theorem detectCycle_leaving (base : StandardLibrary) {β : Type} (given : List β) (m : LockManager)
    (origin : UInt64) :
    @LockManager.detectCycle (StandardLibrary.leaving base given) m origin =
      @LockManager.detectCycle base m origin := by
  have hhop : ∀ holders, @LockManager.hop (StandardLibrary.leaving base given) m origin holders =
      @LockManager.hop base m origin holders := by
    intro holders
    induction holders with
    | nil => rfl
    | cons holder rest ih =>
      refine ite_congr rfl (fun _ => rfl) fun _ => ?_
      exact ite_congr rfl (fun _ => ih) fun _ => rfl
  have hwalk : ∀ n table, @LockManager.walk (StandardLibrary.leaving base given) m origin n table =
      @LockManager.walk base m origin n table := by
    intro n
    induction n with
    | zero => exact fun _ => rfl
    | succ n ih =>
      intro table
      unfold LockManager.walk
      rw [hhop, show @LockManager.getHolders (StandardLibrary.leaving base given) m table =
        @LockManager.getHolders base m table from rfl]
      cases @LockManager.hop base m origin (@LockManager.getHolders base m table) with
      | closed => rfl
      | next table => exact ih table
      | ended => rfl
  exact ite_congr rfl (fun _ => rfl) fun _ => hwalk _ _

end OpenDB
