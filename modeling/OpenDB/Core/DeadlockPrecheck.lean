import Mathlib.Logic.Relation
import OpenDB.Core.Executors
import OpenDB.Core.WaitChains
import OpenDB.Storage.InMemoryStorageProvider

/-!
# The deadlock precheck

Before they ask for the lock of a table, the executors ask the detector for a cycle through the
transaction. They do so before the request is in the wait queue, and the detector starts from what the
transaction waits for in the queue: for a transaction that is not blocked already it finds nothing
(`precheck_finds_nothing`), whatever the request would lead to. Of the requests of such a transaction
that would close a cycle none is reported.

A transaction that has another request blocked, in another session, is reported if its wait leads back
to it. Which holder of a shared table the detector follows is up to a hash table: it finds the cycle
whatever the order of the holders if every way on from the wait leads back, and it finds none if no
way does (`precheck_iff`).
-/

set_option autoImplicit false

namespace OpenDB

open OpenDB.Library Exec Program

/-! ## Requests that would close a cycle -/

namespace LockManager

variable {m : LockManager} {txn : UInt64} {table : Bytes}

/-- The transaction is in the queue of a table that the other one has an exclusive lock on. -/
def ExclusiveWait (m : LockManager) (txn holder : UInt64) : Prop :=
  ∃ table lock, txn ∈ (m.queue (tableKey table)).map Waiter.txn ∧
    m.held.find (tableKey table) = some lock ∧ lock.mode = .exclusive ∧ holder ∈ lock.holders ∧
      holder ≠ txn

/-- If the transaction waited for the table, it would lie on a cycle of exclusive table locks. -/
def WouldClose (m : LockManager) (txn : UInt64) (table : Bytes) : Prop :=
  ∃ lock, m.held.find (tableKey table) = some lock ∧ lock.mode = .exclusive ∧ txn ∉ lock.holders ∧
    ∃ holder ∈ lock.holders, Relation.TransGen m.ExclusiveWait holder txn

/-- Within the number of tables, every way from a table to one that a holder of it waits for leads to a
table of the origin, and none ends before. -/
def Inescapable (m : LockManager) (origin : UInt64) : Nat → Bytes → Prop
  | 0, _ => False
  | n + 1, table =>
    (∃ holder, m.HoldsAt holder table ∧
      (holder = origin ∨ (∃ T, m.WaitsAt holder T) ∧ ∀ T, m.WaitsAt holder T → T ≠ [])) ∧
    ∀ holder T, m.HoldsAt holder table → holder ≠ origin → m.WaitsAt holder T → T ≠ [] →
      m.Inescapable origin n T

/-- The transaction waits already, and every way on from its wait leads back to it within 1024
tables. -/
def Encircled (m : LockManager) (txn : UInt64) : Prop :=
  (∃ table, m.WaitsAt txn table) ∧
    ∀ table, m.WaitsAt txn table → table ≠ [] ∧ m.Inescapable txn 1024 table

theorem WouldClose.not_grantable (h : m.WouldClose txn table) (mode : LockMode) :
    m.grantable txn (tableKey table) mode = false := by
  obtain ⟨lock, hfind, hmode, hother, -⟩ := h
  unfold grantable
  rw [hfind]
  simp [hother, hmode]

variable [StandardLibrary]

/-- Whatever holders come first, the walk is back at the origin. -/
theorem walk_of_inescapable {n : Nat} (h : m.Inescapable txn n table) :
    m.walk txn n table = some txn := by
  -- by the number of tables that are left
  induction n generalizing table with
  | zero => exact absurd h id
  | succ n ih =>
    obtain ⟨⟨holder, hholder, hleads⟩, hon⟩ := h
    rw [walk]
    rcases hop_cases m txn (m.getHolders table) with ⟨-, -, -, -, hhop⟩ |
      ⟨before, after, first, hholders, -, hother, hwaits, hhop⟩ | ⟨hidle, hhop⟩
    · rw [hhop]
    · rw [hhop]
      have hmem : first ∈ m.getHolders table := by
        rw [hholders]
        exact List.mem_append_right _ List.mem_cons_self
      exact ih (hon first _ (mem_getHolders.1 hmem) hother (waitsAt_waiterTable hwaits) hwaits)
    · -- the holder that leads on is not passed over
      obtain ⟨hother, hnone⟩ := hidle holder (mem_getHolders.2 hholder)
      rcases hleads with rfl | ⟨⟨T, hT⟩, hnamed⟩
      · exact absurd rfl hother
      · exact absurd hnone (hnamed _ (waitsAt_waiterTable_of_waitsAt hT))

/-- Whatever wait of the transaction is found first, the detector reports it. -/
theorem Encircled.detectCycle (h : m.Encircled txn) : m.detectCycle txn = some txn := by
  obtain ⟨⟨T, hT⟩, hall⟩ := h
  obtain ⟨hne, hback⟩ := hall _ (waitsAt_waiterTable_of_waitsAt hT)
  rw [LockManager.detectCycle, if_neg (by rwa [List.isEmpty_iff])]
  exact walk_of_inescapable hback

/-- A transaction that is in no wait queue is never found. -/
theorem precheck_finds_nothing (h : ¬ ∃ table, m.WaitsAt txn table) : m.detectCycle txn = none := by
  cases hfound : m.detectCycle txn with
  | none => rfl
  | some victim =>
    have hwaits := (detectCycle_eq_some_iff.1 hfound).2.1
    exact absurd ⟨_, waitsAt_waiterTable hwaits⟩ h

end LockManager

/-! ## What the executors report -/

section

variable {σ : Type} (P : StorageProvider σ) (s : Server σ) (cmd : Command) (txn : UInt64)

variable [StandardLibrary]

/-- The engine loop answers with a deadlock of the transaction. -/
def EngineLoop.ReportsDeadlock : Prop :=
  ∃ t, (EngineLoop.dispatch cmd).run (Server.handle P) s = some (.ok (.error (deadlockError txn)) t)

/-- The dispatcher does, and the session goes on with the transactions it has. -/
def EngineDispatcher.ReportsDeadlock (lockTimeout : Nat) (openTxns : List UInt64) : Prop :=
  ∃ t, (EngineDispatcher.runCommand lockTimeout cmd openTxns).run (Server.handle P) s =
    some (.ok ([.error (deadlockError txn)], openTxns) t)

/-- Both executors do. -/
def ReportDeadlock : Prop :=
  EngineLoop.ReportsDeadlock P s cmd txn ∧
    ∀ lockTimeout openTxns, EngineDispatcher.ReportsDeadlock P s cmd txn lockTimeout openTxns

variable {P s cmd txn}

theorem run_detectCycle_begun :
    (detectCycle txn).run (Server.handle P) s.begun = some (.ok (s.locks.detectCycle txn) s.begun) :=
  Exec.run_detectCycle

theorem run_abortVictim (victim : UInt64) (t : Server σ) :
    ∃ u, (abortVictim victim).run (Server.handle P) t = some (.ok () u) := by
  unfold abortVictim
  rw [run_bind_ok run_abortTxn, run_release]
  exact ⟨_, rfl⟩

/-- A cycle that is found is reported. -/
theorem reportDeadlock_of_found {victim : UInt64} (htxn : cmd.txnId = some txn)
    (hfound : s.locks.detectCycle txn = some victim) : ReportDeadlock P s cmd txn := by
  have hdetect : (detectCycle txn).run (Server.handle P) s.begun = some (.ok (some victim) s.begun) := by
    rw [run_detectCycle_begun, hfound]
  obtain ⟨u, hvictim⟩ := run_abortVictim (P := P) victim s.begun
  constructor
  · unfold EngineLoop.ReportsDeadlock EngineLoop.dispatch
    rw [run_bind_ok run_beginTxn_begun, htxn]
    dsimp only [Option.getD_some]
    rw [run_bind_ok hdetect]
    dsimp only
    rw [run_bind_ok hvictim]
    exact ⟨_, rfl⟩
  · intro lockTimeout openTxns
    unfold EngineDispatcher.ReportsDeadlock EngineDispatcher.runCommand
    rw [run_bind_ok run_beginTxn_begun, htxn]
    dsimp only [Option.getD_some]
    rw [run_bind_ok hdetect]
    dsimp only
    rw [run_bind_ok hvictim]
    exact ⟨_, rfl⟩

/-- When none is found and the lock is not free, the engine loop blocks. -/
theorem run_dispatch_blocked (htxn : cmd.txnId = some txn) (hnone : s.locks.detectCycle txn = none)
    (hlock : s.locks.grantable txn (tableKey cmd.table) cmd.lockMode = false) :
    (EngineLoop.dispatch cmd).run (Server.handle P) s = none := by
  have hdetect : (detectCycle txn).run (Server.handle P) s.begun = some (.ok none s.begun) := by
    rw [run_detectCycle_begun, hnone]
  have hblocks : (acquire txn cmd.table cmd.lockMode).run (Server.handle P) s.begun = none := by
    refine (run_perform _).trans (if_neg ?_)
    show ¬ s.locks.grantable txn (tableKey cmd.table) cmd.lockMode = true
    rw [hlock]
    exact Bool.false_ne_true
  unfold EngineLoop.dispatch
  rw [run_bind_ok run_beginTxn_begun, htxn]
  dsimp only [Option.getD_some]
  rw [run_bind_ok hdetect]
  dsimp only
  rw [run_bind, hblocks]

/-- And the dispatcher waits until its time is up. -/
theorem run_runCommand_blocked (htxn : cmd.txnId = some txn)
    (hnone : s.locks.detectCycle txn = none)
    (hlock : s.locks.grantable txn (tableKey cmd.table) cmd.lockMode = false) (lockTimeout : Nat)
    (openTxns : List UInt64) :
    ∃ t, (EngineDispatcher.runCommand lockTimeout cmd openTxns).run (Server.handle P) s =
      some (.ok ([.error (lockTimeoutError lockTimeout)], openTxns) t) := by
  have hdetect : (detectCycle txn).run (Server.handle P) s.begun = some (.ok none s.begun) := by
    rw [run_detectCycle_begun, hnone]
  unfold EngineDispatcher.runCommand
  rw [run_bind_ok run_beginTxn_begun, htxn]
  dsimp only [Option.getD_some]
  rw [run_bind_ok hdetect]
  dsimp only
  rw [run_bind_ok (run_tryAcquire_timedOut (s := s.begun) hlock)]
  dsimp only
  rw [run_bind_ok run_abortTxn]
  exact ⟨_, rfl⟩

/-- A request that would close a cycle is reported exactly if the detector finds one before it is
made. -/
theorem reportDeadlock_iff (htxn : cmd.txnId = some txn)
    (hclose : s.locks.WouldClose txn cmd.table) :
    ReportDeadlock P s cmd txn ↔ ∃ victim, s.locks.detectCycle txn = some victim := by
  cases hdetect : s.locks.detectCycle txn with
  | some victim => exact iff_of_true (reportDeadlock_of_found htxn hdetect) ⟨victim, rfl⟩
  | none =>
    refine iff_of_false ?_ (by simp)
    rintro ⟨⟨t, hrun⟩, -⟩
    rw [run_dispatch_blocked htxn hdetect (hclose.not_grantable _)] at hrun
    cases hrun

end

/-- A transaction that waits nowhere yet is prechecked if and only if its request would close no cycle.
One that waits already is if the request would close none or every way on from its wait leads back to
it, and only if the request would close none or some way does. -/
theorem precheck_iff [StandardLibrary] {σ : Type} (P : StorageProvider σ) (s : Server σ)
    (cmd : Command) (txn : UInt64) (htxn : cmd.txnId = some txn) :
    ((¬ ∃ table, s.locks.WaitsAt txn table) →
      ((s.locks.WouldClose txn cmd.table → ReportDeadlock P s cmd txn) ↔
        ¬ s.locks.WouldClose txn cmd.table)) ∧
    (¬ s.locks.WouldClose txn cmd.table ∨ s.locks.Encircled txn →
      s.locks.WouldClose txn cmd.table → ReportDeadlock P s cmd txn) ∧
    ((s.locks.WouldClose txn cmd.table → ReportDeadlock P s cmd txn) →
      ¬ s.locks.WouldClose txn cmd.table ∨ s.locks.OnCircle txn) := by
  by_cases hclose : s.locks.WouldClose txn cmd.table
  · rw [reportDeadlock_iff htxn hclose]
    simp only [hclose, not_true_eq_false, forall_const, iff_false, false_or]
    refine ⟨fun hidle => ?_, fun hback => ⟨txn, hback.detectCycle⟩, ?_⟩
    · rintro ⟨victim, hfound⟩
      rw [LockManager.precheck_finds_nothing hidle] at hfound
      cases hfound
    · rintro ⟨victim, hfound⟩
      exact LockManager.onCircle_of_detectCycle hfound
  · simp [hclose]

/-! ## A request that is reported -/

/-- Transactions 1, 2 and 3 have the tables `a`, `b` and `c`; 2 and 3 wait for `a`, and 1 waits for
`b` in another session. -/
def circledLocks : LockManager :=
  ((((((LockManager.new.grant 1 (tableKey (ascii "a")) .exclusive).grant 2 (tableKey (ascii "b"))
    .exclusive).grant 3 (tableKey (ascii "c")) .exclusive).pushWaiter (tableKey (ascii "a"))
      ⟨2, .exclusive⟩).pushWaiter (tableKey (ascii "a")) ⟨3, .exclusive⟩).pushWaiter
        (tableKey (ascii "b")) ⟨1, .exclusive⟩)

theorem circledLocks_wouldClose : circledLocks.WouldClose 1 (ascii "c") := by
  refine ⟨⟨.exclusive, [3]⟩, by decide, rfl, by decide, 3, by decide, Relation.TransGen.single ?_⟩
  exact ⟨ascii "a", ⟨.exclusive, [1]⟩, by decide, by decide, rfl, by decide, by decide⟩

theorem circledLocks_encircled : circledLocks.Encircled 1 := by
  have hwaits : ∀ e ∈ circledLocks.waiters.entries,
      (1 ∈ e.2.map Waiter.txn → e.1.1 = ascii "b") ∧
      (2 ∈ e.2.map Waiter.txn → e.1.1 = ascii "a") := by decide
  have hholds : ∀ e ∈ circledLocks.held.entries,
      (e.1.1 = ascii "a" → e.2.holders = [1]) ∧ (e.1.1 = ascii "b" → e.2.holders = [2]) := by decide
  have hone : ∀ T, circledLocks.WaitsAt 1 T → T = ascii "b" := by
    intro T hT
    obtain ⟨e, he, rfl, hmem⟩ := LockManager.exists_of_waitsAt hT
    exact (hwaits e he).1 hmem
  have htwo : ∀ T, circledLocks.WaitsAt 2 T → T = ascii "a" := by
    intro T hT
    obtain ⟨e, he, rfl, hmem⟩ := LockManager.exists_of_waitsAt hT
    exact (hwaits e he).2 hmem
  have ha : ∀ holder, circledLocks.HoldsAt holder (ascii "a") → holder = 1 := by
    intro holder hholder
    obtain ⟨e, he, hkey, hmem⟩ := LockManager.exists_of_holdsAt hholder
    rw [(hholds e he).1 hkey] at hmem
    exact List.mem_singleton.1 hmem
  have hb : ∀ holder, circledLocks.HoldsAt holder (ascii "b") → holder = 2 := by
    intro holder hholder
    obtain ⟨e, he, hkey, hmem⟩ := LockManager.exists_of_holdsAt hholder
    rw [(hholds e he).2 hkey] at hmem
    exact List.mem_singleton.1 hmem
  refine ⟨⟨ascii "b", tableKey (ascii "b"), rfl, by decide⟩, fun T hT => ?_⟩
  obtain rfl := hone T hT
  refine ⟨by decide, ⟨2, ⟨tableKey (ascii "b"), ⟨.exclusive, [2]⟩, by decide, rfl, by decide⟩,
    Or.inr ⟨⟨ascii "a", tableKey (ascii "a"), rfl, by decide⟩, ?_⟩⟩, ?_⟩
  · intro T hT
    obtain rfl := htwo T hT
    decide
  · intro holder T hholder _ hT _
    obtain rfl := hb holder hholder
    obtain rfl := htwo T hT
    -- the holder of `a` is the transaction itself
    refine ⟨⟨1, ⟨tableKey (ascii "a"), ⟨.exclusive, [1]⟩, by decide, rfl, by decide⟩, Or.inl rfl⟩, ?_⟩
    intro holder T hholder hother
    exact absurd (ha holder hholder) hother

/-- A write of transaction 1 to the table `c`. -/
def circlingInsert : Command := { Command.insert (ascii "c") .empty with txnId := some 1 }

def circledServer : Server InMemoryStore := ⟨InMemory.new, .new, circledLocks⟩

/-- The write closes a second circle through the transaction, and both executors report it. -/
theorem precheck_iff_encircled : circledServer.locks.WouldClose 1 circlingInsert.table ∧
    ReportDeadlock InMemory.provider circledServer circlingInsert 1 :=
  ⟨circledLocks_wouldClose, (precheck_iff InMemory.provider circledServer circlingInsert 1 rfl).2.1
    (Or.inr circledLocks_encircled) circledLocks_wouldClose⟩

/-! ## A request that is not -/

/-- Transaction 1 has the table `a` and transaction 2 the table `b`; transaction 2 waits for `a`. -/
def crossedLocks : LockManager :=
  ((LockManager.new.grant 1 (tableKey (ascii "a")) .exclusive).grant 2 (tableKey (ascii "b"))
    .exclusive).pushWaiter (tableKey (ascii "a")) ⟨2, .exclusive⟩

theorem crossedLocks_wouldClose : crossedLocks.WouldClose 1 (ascii "b") := by
  refine ⟨⟨.exclusive, [2]⟩, by decide, rfl, by decide, 2, by decide, Relation.TransGen.single ?_⟩
  exact ⟨ascii "a", ⟨.exclusive, [1]⟩, by decide, by decide, rfl, by decide, by decide⟩

/-- A write of transaction 1 to the table `b`. -/
def crossingInsert : Command := { Command.insert (ascii "b") .empty with txnId := some 1 }

def crossedServer : Server InMemoryStore := ⟨InMemory.new, .new, crossedLocks⟩

/-- The request that closes the cycle of two transactions is not reported: the engine loop blocks for
ever, and the dispatcher until its wait runs out. -/
theorem closing_request_waits :
    crossedServer.locks.WouldClose 1 crossingInsert.table ∧ crossingInsert.txnId = some 1 ∧
      ¬ ReportDeadlock InMemory.provider crossedServer crossingInsert 1 ∧
      (EngineLoop.dispatch crossingInsert).run (Server.handle InMemory.provider) crossedServer =
        none := by
  have hnone : crossedServer.locks.detectCycle 1 = none := by decide
  have hlock : crossedServer.locks.grantable 1 (tableKey crossingInsert.table)
      crossingInsert.lockMode = false := by decide
  have hblocked : (EngineLoop.dispatch crossingInsert).run (Server.handle InMemory.provider)
      crossedServer = none := run_dispatch_blocked rfl hnone hlock
  refine ⟨crossedLocks_wouldClose, rfl, ?_, hblocked⟩
  rintro ⟨⟨t, hrun⟩, -⟩
  rw [hblocked] at hrun
  cases hrun

end OpenDB
