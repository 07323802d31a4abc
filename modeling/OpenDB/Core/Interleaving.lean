import OpenDB.Core.Executors
import OpenDB.Core.AutoCommit

/-!
# Clients of one server

Any number of clients, each with one statement and an executor to run it, over one server. A turn of a
client makes the next call of its program; calls are atomic, since every service has a mutex, but a
request for a lock that cannot be granted leaves the client waiting. A client that waits may look again
at any time, and a bounded wait may run out at any time.

`Disciplined` and `Serializable` are what strict two-phase locking promises: of every turn, that it
touches no table before the lock is there and gives no lock back before the store is done; of the end
of a run, that the store looks as if the statements had run one after another.
-/

set_option autoImplicit false

namespace OpenDB

open OpenDB.Library

variable {ι σ : Type} [DecidableEq ι]

/-- What is left of a statement, and whether its request for a lock is in the wait queue. -/
structure Client where
  program : Exec (List Response)
  waiting : Bool

/-- The server, its clients, and the transactions whose commit or abort in the store has returned. -/
structure System (ι σ : Type) where
  server : Server σ
  clients : ι → Client
  ended : List UInt64

/-- A client goes on, or its wait runs out. -/
inductive Turn (ι : Type) where
  | run (i : ι)
  | timeout (i : ι)
  deriving DecidableEq

/-- A statement and the executor that runs it. -/
structure Statement where
  executor : Executor
  command : Command

variable [StandardLibrary]

def Statement.program (q : Statement) : Exec (List Response) :=
  q.executor.program q.command

/-- The transaction that the call commits or aborts in the store. -/
def Call.ends : Call → List UInt64
  | .commit txn _ => [txn]
  | .abort txn => [txn]
  | _ => []

/-- The wait queue without the client, if it is in it. -/
def LockManager.unqueued (m : LockManager) (waiting : Bool) (key : ResourceKey) (txn : UInt64) :
    LockManager :=
  if waiting then m.dropWaiter key txn else m

/-- A request for the lock of a table, the first time or by a client that waits already: whether it is
granted, and the lock manager after. The kinds of calls differ in a wait that goes on: `acquire` leaves
the wait queue and joins it again. -/
def LockManager.request (m : LockManager) (kind : CallKind) (waiting : Bool) (txn : UInt64)
    (table : Bytes) (mode : LockMode) : Bool × LockManager :=
  let left := m.unqueued waiting (tableKey table) txn
  if m.grantable txn (tableKey table) mode then (true, left.grant txn (tableKey table) mode)
  else if waiting && kind = .tryAcquireKey then (false, m)
  else (false, left.pushWaiter (tableKey table) ⟨txn, mode⟩)

namespace System

/-- The system before its first turn. -/
def start (server : Server σ) (statements : ι → Statement) : System ι σ :=
  ⟨server, fun i => ⟨(statements i).program, false⟩, []⟩

/-- A client has made a call and goes on. -/
def advance (s : System ι σ) (i : ι) (program : Exec (List Response))
    (server : Server σ) : System ι σ :=
  { s with server := server, clients := Function.update s.clients i ⟨program, false⟩ }

/-- A client has asked for a lock, and goes on with `program` if it has been granted. -/
def requested (s : System ι σ) (i : ι) (answer : Bool × LockManager)
    (program : Exec (List Response)) : System ι σ :=
  if answer.1 then s.advance i program { s.server with locks := answer.2 }
  else { s with
    server := { s.server with locks := answer.2 }
    clients := Function.update s.clients i { s.clients i with waiting := true } }

/-- One turn; `none` when the client has ended, or when it has no bounded wait that could run out. -/
def step (P : StorageProvider σ) (s : System ι σ) : Turn ι → Option (System ι σ)
  | .run i =>
    match (s.clients i).program with
    | Program.call (.acquire txn table mode) next _ =>
      some (s.requested i
        (s.server.locks.request .acquireKey (s.clients i).waiting txn table mode) (next ()))
    | Program.call (.tryAcquire txn table mode) next _ =>
      some (s.requested i
        (s.server.locks.request .tryAcquireKey (s.clients i).waiting txn table mode)
        (next .granted))
    | Program.call c next fault =>
      match Server.handle P c s.server with
      | none => none
      | some (.ok r server) => some { s.advance i (next r) server with ended := c.ends ++ s.ended }
      | some (.error e server) => some (s.advance i (fault e) server)
    | _ => none
  | .timeout i =>
    match (s.clients i).program, (s.clients i).waiting with
    | Program.call (.tryAcquire txn table _) next _, true =>
      some (s.advance i (next .timedOut)
        { s.server with locks := s.server.locks.forgetWaiter (tableKey table) txn })
    | _, _ => none

end System

/-! ## What is promised -/

/-- The transaction holds the lock of the resource in exclusive mode. -/
def LockManager.isExclusiveKey (m : LockManager) (txn : UInt64) (key : ResourceKey) : Bool :=
  match m.held.find key with
  | none => false
  | some lock => decide (lock.mode = .exclusive ∧ txn ∈ lock.holders)

/-- The call keeps to strict two-phase locking: rows are read under a lock of their table and written
under an exclusive one, and a transaction that gives up a lock has been committed or aborted in the
store. -/
def Call.Disciplined (m : LockManager) (ended : List UInt64) : Call → Prop
  | .scan txn table => m.isGrantedKey txn (tableKey table) = true
  | .put txn table _ _ => m.isExclusiveKey txn (tableKey table) = true
  | .remove txn table _ => m.isExclusiveKey txn (tableKey table) = true
  | .release txn => (∃ key, m.isGrantedKey txn key = true) → txn ∈ ended
  | _ => True

/-- The call that the client makes next does. -/
def Disciplined (s : System ι σ) : Turn ι → Prop
  | .run i =>
    match (s.clients i).program with
    | Program.call c _ _ => c.Disciplined s.server.locks s.ended
    | _ => True
  | .timeout _ => True

/-- The client has nothing more to do. -/
def Client.Done (c : Client) : Prop :=
  match c.program with
  | Program.call _ _ _ => False
  | _ => True

instance : (c : Client) → Decidable c.Done
  | ⟨Program.pure _, _⟩ => isTrue trivial
  | ⟨Program.throw _, _⟩ => isTrue trivial
  | ⟨Program.call _ _ _, _⟩ => isFalse id

/-- What the client has been shown at the end. -/
def Client.answers (c : Client) : List Response :=
  match c.program with
  | Program.pure answers => answers
  | _ => []

/-- The client has been told that it could not get its lock in time. -/
def Client.TimedOut (c : Client) : Prop :=
  ∃ millis, c.program = Program.pure [.error (lockTimeoutError millis)]

/-- The statements one after another, each of them alone. -/
def serially (P : StorageProvider σ) (statements : ι → Statement) :
    List ι → Server σ → Option (Server σ)
  | [], server => some server
  | i :: order, server =>
    match (statements i).program.run (Server.handle P) server with
    | none => none
    | some r => serially P statements order (endState r)

/-- The store looks as if the statements had run one after another, those apart that could not get
their lock in time. -/
def Serializable (P : StorageProvider σ) (server : Server σ) (statements : ι → Statement)
    (s : System ι σ) : Prop :=
  ∃ order : List ι, order.Nodup ∧ (∀ i, i ∉ order → (s.clients i).TimedOut) ∧
    ∃ t, serially P statements order server = some t ∧ SameView P s.server.store t.store

/-- Strict two-phase locking for a run that has ended up in `s`. -/
def StrictTwoPhaseLocking (P : StorageProvider σ) (server : Server σ) (statements : ι → Statement)
    (trace : List (System ι σ × Turn ι)) (s : System ι σ) : Prop :=
  (∀ p ∈ trace, Disciplined p.1 p.2) ∧
    ((∀ i, (s.clients i).Done) → Serializable P server statements s)

end OpenDB
