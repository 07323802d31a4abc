import OpenDB.Core.StatementAtomicity

/-!
# Commit and release

What the executors do behind a statement that has run: the transaction manager commits, the store
commits under the number it has been given, and the locks are released. The engine loop lets the store
prepare first, and the HTTP front end releases first; if the store accepts all of it they come to the
same end.
-/

set_option autoImplicit false

namespace OpenDB

open OpenDB.Library Exec Program

variable {σ : Type} {P : StorageProvider σ} {s t : Server σ} {cmd : Command}

/-- What a reader finds in a table. -/
def readTable (P : StorageProvider σ) (store : σ) (reader : UInt64) (table : Bytes) :
    Except Fault (List Tuple) :=
  match (P.scan reader table).run store with
  | .ok rows _ => .ok rows
  | .error fault _ => .error fault

/-- No reader can tell the two stores apart. -/
def SameView (P : StorageProvider σ) (a b : σ) : Prop :=
  ∀ reader table, readTable P a reader table = readTable P b reader table

/-- The store prepares, without a change, and commits; `final` is the store after the commit. -/
structure Committed (P : StorageProvider σ) (txn seq : UInt64) (store final : σ) : Prop where
  prepare : ∃ e, (P.prepare txn).run store = .ok e store ∧ e.isSentinel = true
  commit : ∃ e, (P.commit txn seq).run store = .ok e final ∧ e.isSentinel = true

/-- The server after commit and release. -/
def Server.finished (t : Server σ) (txn : UInt64) (final : σ) : Server σ :=
  ⟨final, (t.txns.commitTxn txn).2, t.locks.release txn⟩

section

variable {txn : UInt64} {final : σ}

variable [StandardLibrary]

/-- The commit of the store from a server whose transaction has been marked committed. -/
theorem run_commit_of_committed (h : Committed P txn (t.txns.commitTxn txn).2.visibleSeq t.store final)
    (locks : LockManager) :
    ∃ e, (commit txn (t.txns.commitTxn txn).2.visibleSeq).run (Server.handle P)
        ⟨t.store, (t.txns.commitTxn txn).2, locks⟩ =
      some (.ok e ⟨final, (t.txns.commitTxn txn).2, locks⟩) ∧ e.isSentinel = true := by
  obtain ⟨e, hrun, hok⟩ := h.commit
  refine ⟨e, (run_perform _).trans ?_, hok⟩
  rw [Server.handle, Server.onStore, hrun]

/-- A statement with a result is committed, also when it has an error. -/
theorem EngineLoop.run_autoCommit {rs : ResultSet}
    (h : Committed P txn (t.txns.commitTxn txn).2.visibleSeq t.store final)
    (error : Option DbError) :
    (EngineLoop.autoCommit txn (some rs) error).run (Server.handle P) t =
      some (.ok error (t.finished txn final)) := by
  obtain ⟨e, hprepare, hok⟩ := h.prepare
  have hrun : (prepare txn).run (Server.handle P) t = some (.ok e t) := by
    refine (run_perform _).trans ?_
    rw [Server.handle, Server.onStore, hprepare]
  obtain ⟨e', hcommit, -⟩ := run_commit_of_committed h t.locks
  rw [EngineLoop.autoCommit, EngineLoop.commitPrepared]
  simp only [bind_assoc]
  rw [run_bind_ok hrun, if_pos hok, bind_assoc, run_bind_ok run_commitTxn, bind_assoc,
    run_bind_ok run_visibleSeq, bind_assoc, run_bind_ok hcommit]
  rfl

theorem EngineDispatcher.run_autoCommit
    (h : Committed P txn (t.txns.commitTxn txn).2.visibleSeq t.store final) :
    (EngineDispatcher.autoCommit txn).run (Server.handle P) t =
      some (.ok [] (t.finished txn final)) := by
  obtain ⟨e, hcommit, hok⟩ := run_commit_of_committed h t.locks
  rw [EngineDispatcher.autoCommit]
  rw [run_bind_ok run_commitTxn, run_bind_ok run_visibleSeq, run_bind_ok hcommit,
    run_bind_ok run_release, hok]
  rfl

theorem HttpApi.run_autoCommit_committed {rs : ResultSet}
    (h : Committed P txn (t.txns.commitTxn txn).2.visibleSeq t.store final) :
    (HttpApi.autoCommit txn (.result rs)).run (Server.handle P) t =
      some (.ok (.result rs) (t.finished txn final)) := by
  obtain ⟨e, hcommit, hok⟩ := run_commit_of_committed h (t.locks.release txn)
  unfold HttpApi.autoCommit
  rw [run_bind_ok run_release]
  dsimp only
  rw [run_bind_ok run_commitTxn, run_bind_ok run_visibleSeq, run_bind_ok hcommit, hok]
  rfl

end

end OpenDB
