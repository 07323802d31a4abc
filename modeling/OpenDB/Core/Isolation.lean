import OpenDB.Core.Executors

/-!
# Stores that isolate transactions

What the contract of a storage engine promises, table by table: a transaction that is the only one
with staged writes in a table works on that table as on a private state; its commit makes the state
the common one, its abort goes back. `Isolation` says this of a provider by relating its store to one
abstract state for every table, together with the transaction that has staged writes there.

`Isolation.effect` is what a statement of the engine loop or of the dispatcher makes of the state of
its table.
-/

set_option autoImplicit false

namespace OpenDB

open OpenDB.Library

variable {σ A : Type}

/-- One component of a family of tables is another. -/
def setTable {β : Type} (f : Bytes → β) (table : Bytes) (b : β) : Bytes → β :=
  fun t => if t = table then b else f t

@[simp] theorem setTable_self {β : Type} (f : Bytes → β) (table : Bytes) (b : β) :
    setTable f table b table = b := if_pos rfl

theorem setTable_of_ne {β : Type} (f : Bytes → β) {table t : Bytes} (b : β) (h : t ≠ table) :
    setTable f table b t = f t := if_neg h

/-- Every table the transaction has written is changed by `f`. -/
def onOwned (txn : UInt64) (owner : Bytes → Option UInt64) (f : A → A) (now : Bytes → A) :
    Bytes → A := fun t => if owner t = some txn then f (now t) else now t

/-- The transaction has no staged writes left. -/
def disown (txn : UInt64) (owner : Bytes → Option UInt64) : Bytes → Option UInt64 :=
  fun t => if owner t = some txn then none else owner t

/-- A provider whose tables are isolated. `rows` to `abort` are the operations on the abstract state of
one table, `Clean` says that nothing is staged in it, and `Rep` relates a store to the states of its
tables and the transaction that has staged writes in each. -/
structure Isolation (P : StorageProvider σ) (A : Type) where
  rows : A → List Tuple
  put : A → Value → Tuple → DbError × A
  remove : A → Value → DbError × A
  commit : A → A
  abort : A → A
  Clean : A → Prop
  Rep : σ → (Bytes → Option UInt64) → (Bytes → A) → Prop
  commit_clean : ∀ {a}, Clean a → commit a = a
  abort_clean : ∀ {a}, Clean a → abort a = a
  clean_of_rep : ∀ {s owner now table}, Rep s owner now → owner table = none → Clean (now table)
  scan_ok : ∀ {s owner now} (txn : UInt64) (table : Bytes), Rep s owner now →
    (owner table = none ∨ owner table = some txn) →
    ∃ s', (P.scan txn table).run s = .ok (rows (now table)) s' ∧ Rep s' owner now
  put_ok : ∀ {s owner now} (txn : UInt64) (table : Bytes) (key : Value) (row : Tuple),
    Rep s owner now → (owner table = none ∨ owner table = some txn) →
    ∃ s', (P.put txn table key row).run s = .ok (put (now table) key row).1 s' ∧
      Rep s' (setTable owner table (some txn)) (setTable now table (put (now table) key row).2)
  remove_ok : ∀ {s owner now} (txn : UInt64) (table : Bytes) (key : Value),
    Rep s owner now → (owner table = none ∨ owner table = some txn) →
    ∃ s', (P.remove txn table key).run s = .ok (remove (now table) key).1 s' ∧
      Rep s' (setTable owner table (some txn)) (setTable now table (remove (now table) key).2)
  prepare_ok : ∀ {s owner now} (txn : UInt64), Rep s owner now →
    ∃ e s', (P.prepare txn).run s = .ok e s' ∧ e.isSentinel = true ∧ Rep s' owner now
  commit_ok : ∀ {s owner now} (txn : UInt64) {seq : UInt64}, Rep s owner now → seq ≠ 0 →
    ∃ e s', (P.commit txn seq).run s = .ok e s' ∧
      Rep s' (disown txn owner) (onOwned txn owner commit now)
  abort_ok : ∀ {s owner now} (txn : UInt64), Rep s owner now →
    ∃ e s', (P.abort txn).run s = .ok e s' ∧
      Rep s' (disown txn owner) (onOwned txn owner abort now)

/-! ## The effect of a statement on its table -/

namespace Isolation

variable {P : StorageProvider σ} (L : Isolation P A)

/-- The write loop on the state of a table: it ends at the first error. -/
def writeAll (write : A → Value → DbError × A) : List Value → A → A
  | [], a => a
  | k :: keys, a =>
    if (write a k).1.isSentinel then writeAll write keys (write a k).2 else (write a k).2

/-- The keys an UPDATE or DELETE finds. -/
def matching (predicate : Predicate) (a : A) : List Value :=
  ((L.rows a).filter predicate.evaluate).filterMap fun row => row.maybeGet idColumn

/-- The state of the table after the writes of a command. -/
def written (cmd : Command) (a : A) : A :=
  match cmd.type, cmd.predicate, cmd.values with
  | .insert, _, some row => (L.put a (insertKey row) row).2
  | .update, some predicate, some values =>
    writeAll (fun a key => L.put a key (values.set idColumn key)) (L.matching predicate a) a
  | .delete, some predicate, _ => writeAll L.remove (L.matching predicate a) a
  | _, _, _ => a

/-- The store refuses the row of an INSERT. -/
def refuses (cmd : Command) (a : A) : Bool :=
  match cmd.type, cmd.values with
  | .insert, some row => !(L.put a (insertKey row) row).1.isSentinel
  | _, _ => false

/-- The state of the table after a statement: the engine loop takes a refused INSERT back. -/
def effect (x : Executor) (cmd : Command) (a : A) : A :=
  if x = .engineLoop ∧ L.refuses cmd a = true then L.abort (L.written cmd a)
  else L.commit (L.written cmd a)

end Isolation

end OpenDB
