import OpenDB.Library.AssocList

/-!
# The transaction manager

Transaction ids, the state of every transaction, and the commit sequence. All of it lives in memory:
a new process starts with a new manager, which hands out the same ids and sequence numbers again.
-/

set_option autoImplicit false

namespace OpenDB

open OpenDB.Library

/-- `TransactionManager::State`; a transaction without an entry is `NotFound`. -/
inductive TxnState where
  | active | committed | aborted
  deriving DecidableEq, Repr

structure TransactionManager where
  nextId : UInt64
  commitSeq : UInt64
  states : AssocMap UInt64 TxnState
  deriving DecidableEq

namespace TransactionManager

/-- The manager of a new process. -/
def new : TransactionManager := ⟨0, 0, .empty⟩

/-- `beginTxn`: the id and the manager after. -/
def beginTxn (m : TransactionManager) : UInt64 × TransactionManager :=
  let next := m.nextId + 1
  (next, { m with nextId := next, states := m.states.assign next .active })

/-- `commitTxn`. -/
def commitTxn (m : TransactionManager) (txn : UInt64) : Bool × TransactionManager :=
  if m.states.find txn = some .active then
    (true, { m with commitSeq := m.commitSeq + 1, states := m.states.assign txn .committed })
  else (false, m)

/-- `abortTxn`. -/
def abortTxn (m : TransactionManager) (txn : UInt64) : Bool × TransactionManager :=
  if m.states.find txn = some .active then
    (true, { m with states := m.states.assign txn .aborted })
  else (false, m)

/-- `visibleSeq`. -/
def visibleSeq (m : TransactionManager) : UInt64 := m.commitSeq

/-! ## What the calls do to the states -/

variable {txns : TransactionManager} {txn t : UInt64}

theorem find_abortTxn_of_ne (hne : t ≠ txn) :
    (txns.abortTxn txn).2.states.find t = txns.states.find t := by
  unfold abortTxn
  split_ifs
  · exact AssocMap.find_assign_of_ne _ _ hne
  · rfl

theorem find_commitTxn_of_ne (hne : t ≠ txn) :
    (txns.commitTxn txn).2.states.find t = txns.states.find t := by
  unfold commitTxn
  split_ifs
  · exact AssocMap.find_assign_of_ne _ _ hne
  · rfl

theorem find_beginTxn_self :
    txns.beginTxn.2.states.find txns.beginTxn.1 = some .active :=
  AssocMap.find_assign_self _ _ _

theorem find_abortTxn_self (hactive : txns.states.find txn = some .active) :
    (txns.abortTxn txn).2.states.find txn = some .aborted := by
  rw [abortTxn, if_pos hactive]
  exact AssocMap.find_assign_self _ _ _

end TransactionManager

end OpenDB
