import OpenDB.Core.DeadlockDetector
import OpenDB.Core.TransactionManager
import OpenDB.Library.Program
import OpenDB.Types.Command

/-!
# The services of the core

The calls an executor makes: to the transaction manager, to the lock manager and the deadlock
detector, and to the storage provider with its engine. `StorageProvider` is the contract a store
fulfils, for any type of store; a call of it may throw. `Server` is everything the executors share,
and `Server.handle` is what one call does when nobody else is running: a request for a lock that
somebody else holds then blocks for ever, or until it times out.
-/

set_option autoImplicit false

namespace OpenDB

open OpenDB.Library

inductive LockAcquireResult where
  | granted | timedOut
  deriving DecidableEq, Repr

/-- `IStorageProvider` and its `IStorageEngine`, over a type of stores. -/
structure StorageProvider (σ : Type) where
  scan (txn : UInt64) (table : Bytes) : EStateM Fault σ (List Tuple)
  put (txn : UInt64) (table : Bytes) (key : Value) (row : Tuple) : EStateM Fault σ DbError
  remove (txn : UInt64) (table : Bytes) (key : Value) : EStateM Fault σ DbError
  prepare (txn : UInt64) : EStateM Fault σ DbError
  commit (txn : UInt64) (visibleSeq : UInt64) : EStateM Fault σ DbError
  abort (txn : UInt64) : EStateM Fault σ DbError
  createTable (schema : Schema) : EStateM Fault σ DbError
  dropTable (name : Bytes) : EStateM Fault σ DbError
  alterTable (name : Bytes) (spec : AlterSpec) : EStateM Fault σ DbError
  describeTable (name : Bytes) : EStateM Fault σ (Option Schema)

/-- The calls of an executor. -/
inductive Call where
  | beginTxn
  | commitTxn (txn : UInt64)
  | abortTxn (txn : UInt64)
  | visibleSeq
  | detectCycle (txn : UInt64)
  | acquire (txn : UInt64) (table : Bytes) (mode : LockMode)
  | tryAcquire (txn : UInt64) (table : Bytes) (mode : LockMode)
  | release (txn : UInt64)
  | scan (txn : UInt64) (table : Bytes)
  | put (txn : UInt64) (table : Bytes) (key : Value) (row : Tuple)
  | remove (txn : UInt64) (table : Bytes) (key : Value)
  | prepare (txn : UInt64)
  | commit (txn : UInt64) (visibleSeq : UInt64)
  | abort (txn : UInt64)
  | createTable (schema : Schema)
  | dropTable (name : Bytes)
  | alterTable (name : Bytes) (spec : AlterSpec)
  | describeTable (name : Bytes)
  deriving DecidableEq

/-- What a call returns. -/
abbrev Call.Result : Call → Type
  | .beginTxn => UInt64
  | .commitTxn _ => Bool
  | .abortTxn _ => Bool
  | .visibleSeq => UInt64
  | .detectCycle _ => Option UInt64
  | .acquire _ _ _ => Unit
  | .tryAcquire _ _ _ => LockAcquireResult
  | .release _ => Unit
  | .scan _ _ => List Tuple
  | .put _ _ _ _ => DbError
  | .remove _ _ _ => DbError
  | .prepare _ => DbError
  | .commit _ _ => DbError
  | .abort _ => DbError
  | .createTable _ => DbError
  | .dropTable _ => DbError
  | .alterTable _ _ => DbError
  | .describeTable _ => Option Schema

/-- The code of an executor. -/
abbrev Exec := Program Call Call.Result Fault

/-- The store and the two managers that the executors share. -/
structure Server (σ : Type) where
  store : σ
  txns : TransactionManager
  locks : LockManager
  deriving DecidableEq

namespace Server

variable {σ : Type}

/-- A call of the store. -/
def onStore {α : Type} (s : Server σ) (x : EStateM Fault σ α) :
    Option (EStateM.Result Fault (Server σ) α) :=
  match x.run s.store with
  | .ok a store => some (.ok a { s with store := store })
  | .error e store => some (.error e { s with store := store })

/-- A call of one of the managers. -/
def onManagers {α : Type} (s : Server σ) (a : α) (txns : TransactionManager) (locks : LockManager) :
    Option (EStateM.Result Fault (Server σ) α) :=
  some (.ok a { s with txns := txns, locks := locks })

/-- The lock manager after a bounded wait that has run out. -/
def timedOutLocks (m : LockManager) (txn : UInt64) (table : Bytes) (mode : LockMode) : LockManager :=
  (m.pushWaiter (tableKey table) ⟨txn, mode⟩).forgetWaiter (tableKey table) txn

/-- One call when nobody else runs. -/
def handle [StandardLibrary] (P : StorageProvider σ) :
    Program.Handler Call Call.Result Fault (Server σ)
  | .beginTxn, s => s.onManagers s.txns.beginTxn.1 s.txns.beginTxn.2 s.locks
  | .commitTxn txn, s => s.onManagers (s.txns.commitTxn txn).1 (s.txns.commitTxn txn).2 s.locks
  | .abortTxn txn, s => s.onManagers (s.txns.abortTxn txn).1 (s.txns.abortTxn txn).2 s.locks
  | .visibleSeq, s => s.onManagers s.txns.visibleSeq s.txns s.locks
  | .detectCycle txn, s => s.onManagers (s.locks.detectCycle txn) s.txns s.locks
  | .acquire txn table mode, s =>
    if s.locks.grantable txn (tableKey table) mode then
      s.onManagers () s.txns (s.locks.grant txn (tableKey table) mode)
    else none
  | .tryAcquire txn table mode, s =>
    if s.locks.grantable txn (tableKey table) mode then
      s.onManagers .granted s.txns (s.locks.grant txn (tableKey table) mode)
    else s.onManagers .timedOut s.txns (timedOutLocks s.locks txn table mode)
  | .release txn, s => s.onManagers () s.txns (s.locks.release txn)
  | .scan txn table, s => s.onStore (P.scan txn table)
  | .put txn table key row, s => s.onStore (P.put txn table key row)
  | .remove txn table key, s => s.onStore (P.remove txn table key)
  | .prepare txn, s => s.onStore (P.prepare txn)
  | .commit txn seq, s => s.onStore (P.commit txn seq)
  | .abort txn, s => s.onStore (P.abort txn)
  | .createTable schema, s => s.onStore (P.createTable schema)
  | .dropTable name, s => s.onStore (P.dropTable name)
  | .alterTable name spec, s => s.onStore (P.alterTable name spec)
  | .describeTable name, s => s.onStore (P.describeTable name)

end Server

/-- The calls that go to the store. -/
def Call.OnStore : Call → Prop
  | .scan _ _ | .put _ _ _ _ | .remove _ _ _ | .prepare _ | .commit _ _ | .abort _ => True
  | .createTable _ | .dropTable _ | .alterTable _ _ | .describeTable _ => True
  | _ => False

/-- The calls of a statement between its lock and its end. -/
def Call.OnRows : Call → Prop
  | .scan _ _ | .put _ _ _ _ | .remove _ _ _ | .describeTable _ => True
  | _ => False

theorem Call.OnRows.onStore {c : Call} (hc : c.OnRows) : c.OnStore := by
  cases c <;> first | exact hc | trivial

namespace Server

variable {σ : Type}

/-- Only the store is another. -/
def SameManagers (s t : Server σ) : Prop := t.txns = s.txns ∧ t.locks = s.locks

theorem onStore_managers {α : Type} (s : Server σ) (x : EStateM Fault σ α) :
    ∃ r, s.onStore x = some r ∧ SameManagers s (endState r) := by
  unfold onStore
  cases x.run s.store with
  | ok a store => exact ⟨_, rfl, rfl, rfl⟩
  | error e store => exact ⟨_, rfl, rfl, rfl⟩

/-- A call of the store that returns. -/
theorem onStore_ok {α : Type} {s : Server σ} {x : EStateM Fault σ α} {a : α} {store : σ}
    (hrun : x.run s.store = .ok a store) :
    s.onStore x = some (.ok a { s with store := store }) := by
  rw [onStore, hrun]

theorem handle_onStore [StandardLibrary] (P : StorageProvider σ) {c : Call} (hc : c.OnStore)
    (s : Server σ) :
    ∃ r, handle P c s = some r ∧ SameManagers s (endState r) := by
  cases c with
  | scan txn table => exact onStore_managers s _
  | put txn table key row => exact onStore_managers s _
  | remove txn table key => exact onStore_managers s _
  | prepare txn => exact onStore_managers s _
  | commit txn seq => exact onStore_managers s _
  | abort txn => exact onStore_managers s _
  | createTable schema => exact onStore_managers s _
  | dropTable name => exact onStore_managers s _
  | alterTable name spec => exact onStore_managers s _
  | describeTable name => exact onStore_managers s _
  | _ => exact hc.elim

/-- A program that only calls the store ends, and leaves the managers alone. -/
theorem run_onStore [StandardLibrary] {α : Type} {P : StorageProvider σ} {p : Exec α}
    (hp : p.Uses Call.OnStore) (s : Server σ) : ∃ r, p.run (handle P) s = some r ∧ SameManagers s
    (endState r) := by
  refine Program.run_of_uses (fun c hc t ht => ?_) hp ⟨rfl, rfl⟩
  obtain ⟨r, hr, hsame⟩ := handle_onStore P hc t
  exact ⟨r, hr, hsame.1.trans ht.1, hsame.2.trans ht.2⟩

end Server

/-! ## The calls as programs -/

variable [StandardLibrary]

namespace Exec

/-- One call. -/
def call (c : Call) : Exec c.Result := Program.perform c

def beginTxn : Exec UInt64 := call .beginTxn

def commitTxn (txn : UInt64) : Exec Bool := call (.commitTxn txn)

def abortTxn (txn : UInt64) : Exec Bool := call (.abortTxn txn)

def visibleSeq : Exec UInt64 := call .visibleSeq

def detectCycle (txn : UInt64) : Exec (Option UInt64) := call (.detectCycle txn)

def acquire (txn : UInt64) (table : Bytes) (mode : LockMode) : Exec Unit :=
  call (.acquire txn table mode)

def tryAcquire (txn : UInt64) (table : Bytes) (mode : LockMode) : Exec LockAcquireResult :=
  call (.tryAcquire txn table mode)

def release (txn : UInt64) : Exec Unit := call (.release txn)

def scan (txn : UInt64) (table : Bytes) : Exec (List Tuple) := call (.scan txn table)

def put (txn : UInt64) (table : Bytes) (key : Value) (row : Tuple) : Exec DbError :=
  call (.put txn table key row)

def remove (txn : UInt64) (table : Bytes) (key : Value) : Exec DbError :=
  call (.remove txn table key)

def prepare (txn : UInt64) : Exec DbError := call (.prepare txn)

def commit (txn seq : UInt64) : Exec DbError := call (.commit txn seq)

def abort (txn : UInt64) : Exec DbError := call (.abort txn)

def createTable (schema : Schema) : Exec DbError := call (.createTable schema)

def dropTable (name : Bytes) : Exec DbError := call (.dropTable name)

def alterTable (name : Bytes) (spec : AlterSpec) : Exec DbError :=
  call (.alterTable name spec)

def describeTable (name : Bytes) : Exec (Option Schema) := call (.describeTable name)

/-! ## Runs of the calls to the managers -/

section

variable {σ : Type} {P : StorageProvider σ} {s : Server σ} {txn : UInt64} {table : Bytes}
  {mode : LockMode}

theorem run_beginTxn : beginTxn.run (Server.handle P) s =
    some (.ok s.txns.beginTxn.1 { s with txns := s.txns.beginTxn.2 }) := rfl

theorem run_commitTxn : (commitTxn txn).run (Server.handle P) s =
    some (.ok (s.txns.commitTxn txn).1 { s with txns := (s.txns.commitTxn txn).2 }) := rfl

theorem run_abortTxn : (abortTxn txn).run (Server.handle P) s =
    some (.ok (s.txns.abortTxn txn).1 { s with txns := (s.txns.abortTxn txn).2 }) := rfl

theorem run_visibleSeq :
    visibleSeq.run (Server.handle P) s = some (.ok s.txns.visibleSeq s) := rfl

theorem run_detectCycle :
    (detectCycle txn).run (Server.handle P) s = some (.ok (s.locks.detectCycle txn) s) := rfl

theorem run_release : (release txn).run (Server.handle P) s =
    some (.ok () { s with locks := s.locks.release txn }) := rfl

theorem run_acquire (h : s.locks.grantable txn (tableKey table) mode = true) :
    (acquire txn table mode).run (Server.handle P) s =
      some (.ok () { s with locks := s.locks.grant txn (tableKey table) mode }) := by
  refine (Program.run_perform _).trans ?_
  rw [Server.handle, if_pos h]
  rfl

theorem run_tryAcquire_granted (h : s.locks.grantable txn (tableKey table) mode = true) :
    (tryAcquire txn table mode).run (Server.handle P) s =
      some (.ok .granted { s with locks := s.locks.grant txn (tableKey table) mode }) := by
  refine (Program.run_perform _).trans ?_
  rw [Server.handle, if_pos h]
  rfl

theorem run_tryAcquire_timedOut (h : s.locks.grantable txn (tableKey table) mode = false) :
    (tryAcquire txn table mode).run (Server.handle P) s =
      some (.ok .timedOut { s with locks := Server.timedOutLocks s.locks txn table mode }) := by
  refine (Program.run_perform _).trans ?_
  rw [Server.handle, if_neg (by rw [h]; exact Bool.false_ne_true)]
  rfl

end

end Exec

end OpenDB
