import OpenDB.Core.HttpLocks
import OpenDB.Core.WriteStatements

/-!
# What a DELETE leaves

The engine loop over the in-memory store, fed with INSERT, UPDATE and DELETE commands that it commits
itself. Between two commands the server is `Orderly`: rows stand under their own `_id`s, no lock is
held, and the two counters of the transaction manager agree, so that the transaction of a command is
committed under its own number.

A DELETE then leaves of every scan the rows that its predicate refuses (`delete_exact`). The numbers are
64 bits wide, and the statement is about fewer than 2^64 commands: as long as none gets the number zero,
nothing is left staged (`Settled`), and every transaction sees the same rows.
-/

set_option autoImplicit false

namespace OpenDB

open OpenDB.Library Exec Program InMemory

/-! ## Runs of the engine loop -/

/-- `EngineLoop::run`: one command after the other, until there are no more. -/
def EngineLoop.run [StandardLibrary] : List Command → Exec (List Response)
  | [] => return []
  | cmd :: cmds => do
    let answer ← EngineLoop.dispatch cmd
    let answers ← EngineLoop.run cmds
    return answer :: answers

/-- An INSERT, UPDATE or DELETE without a transaction of its own; the `_id` of an INSERT is no NaN. -/
structure AutoCommitWrite (cmd : Command) : Prop where
  auto : cmd.txnId = none
  write : cmd.type ≠ .select
  number : cmd.Placeable

/-- What holds between two commands. A version that is still staged is from a transaction zero. -/
structure Orderly (s : Server InMemoryStore) : Prop where
  store : KeyedStore s.store
  staged : ∀ table r, ∀ v ∈ chainAt (rowsOf s.store table) r, v.commitSeq = 0 → v.txnId = 0
  locks : s.locks = .new
  counters : s.txns.nextId = s.txns.commitSeq

section

variable {s : Server InMemoryStore} {cmd : Command} {cmds : List Command} {table : Bytes}
  {u : UInt64}

theorem orderly_new : Orderly (Server.new InMemory.new) := by
  refine ⟨KeyedStore.new, fun table r v hv => ?_, rfl, rfl⟩
  cases hv

/-- The transaction and the commit of a command have the same number. -/
theorem Orderly.beginTxn_eq (h : Orderly s) : s.txns.beginTxn.1 = s.nextSeq := by
  show s.txns.nextId + 1 = s.txns.commitSeq + 1
  rw [h.counters]

/-- The lock is free, and nobody waits. -/
theorem Orderly.startable [StandardLibrary] (h : Orderly s) (hauto : cmd.txnId = none) :
    Startable s cmd := by
  refine ⟨hauto, ?_, ?_⟩
  · -- nobody waits, so no chain of waits closes
    apply LockManager.detectCycle_of_not_waiting
    rw [h.locks]
    intro e he
    cases he
  · rw [h.locks]
    rfl

theorem LockManager.release_grant_new (txn : UInt64) (key : ResourceKey) (mode : LockMode) :
    (LockManager.new.grant txn key mode).release txn = .new := by
  simp [LockManager.new, grant, release, AssocMap.filterMapValues, AssocMap.find, AssocMap.assign,
    AssocMap.empty, assign, releaseLock]

theorem Orderly.unstaged (h : Orderly s) (hu : u ≠ 0) : Unstaged s.store table u := by
  intro r v hv
  rw [Bool.eq_false_iff]
  intro hstaged
  obtain ⟨htxn, hzero⟩ := isStagedBy_iff.1 hstaged
  exact hu (htxn.symm.trans (h.staged table r v hv hzero))

/-- A version that is staged after a command was so before, unless the command has the number zero. -/
theorem Orderly.staged_cases (h : Orderly s) (hcmd : cmd.Placeable) {r : Rank} {v : Version}
    (hv : v ∈ chainAt (rowsOf (s.afterWrite cmd).store table) r) (hzero : v.commitSeq = 0) :
    (s.nextSeq = 0 ∧ v.txnId = s.txns.beginTxn.1) ∨ v ∈ chainAt (rowsOf s.store table) r := by
  have hw : Writes s.txns.beginTxn.1 cmd.table s.store (written s.txns.beginTxn.1 cmd s.store) :=
    writes_written h.store hcmd
  rw [show (s.afterWrite cmd).store = InMemory.commit s.txns.beginTxn.1 s.nextSeq _ from rfl,
    rowsOf_commit, chainAt_stampRows] at hv
  obtain ⟨w, hw', rfl⟩ := List.mem_map.1 hv
  have htxn : (stamp s.txns.beginTxn.1 s.nextSeq w).txnId = w.txnId := by
    rw [stamp]
    split_ifs <;> rfl
  rcases commitSeq_stamp s.txns.beginTxn.1 w s.nextSeq with ⟨hstaged, hcommit⟩ | ⟨hnot, hsame⟩
  · rw [hcommit] at hzero
    exact Or.inl ⟨hzero, htxn.trans (isStagedBy_iff.1 hstaged).1⟩
  · rw [hsame] at hzero ⊢
    -- the commit has left the version alone
    rcases hw.staged h.store hw' with hold | hown
    · exact Or.inr hold
    · have hstaged := isStagedBy_iff.2 ⟨hown, hzero⟩
      rw [hnot] at hstaged
      cases hstaged

/-- A command keeps the order, also one that only reads. -/
theorem Orderly.afterCommand (h : Orderly s) (hcmd : cmd.Placeable) : Orderly (s.afterWrite cmd) := by
  have hwrites : Writes s.txns.beginTxn.1 cmd.table s.store (written s.txns.beginTxn.1 cmd s.store) :=
    writes_written h.store hcmd
  have hkeyed := h.store.writes hwrites
  obtain ⟨hseq, hnext⟩ := TransactionManager.commitTxn_beginTxn s.txns
  refine ⟨hkeyed.commit _ _, fun t r v hv hzero => ?_, ?_, ?_⟩
  · rcases h.staged_cases hcmd hv hzero with ⟨hnumber, htxn⟩ | hold
    · rw [htxn, h.beginTxn_eq, hnumber]
    · exact h.staged t r v hold hzero
  · show (s.locks.grant _ _ _).release _ = _
    rw [h.locks]
    exact LockManager.release_grant_new _ _ _
  · show ((s.txns.beginTxn.2.commitTxn s.txns.beginTxn.1).2).nextId = _
    rw [hnext, h.counters]
    exact hseq.symm

/-- No version awaits its commit. -/
def Settled (s : Server InMemoryStore) : Prop :=
  ∀ table r, ∀ v ∈ chainAt (rowsOf s.store table) r, v.commitSeq ≠ 0

theorem Settled.unstaged (h : Settled s) (table : Bytes) (u : UInt64) : Unstaged s.store table u := by
  intro r v hv
  rw [Bool.eq_false_iff]
  exact fun hstaged => h table r v hv (isStagedBy_iff.1 hstaged).2

theorem Settled.afterWrite (hsettled : Settled s) (h : Orderly s) (hcmd : AutoCommitWrite cmd)
    (hseq : s.nextSeq ≠ 0) : Settled (s.afterWrite cmd) := by
  intro t r v hv hzero
  rcases h.staged_cases hcmd.number hv hzero with ⟨hnumber, -⟩ | hold
  · exact hseq hnumber
  · exact hsettled t r v hold hzero

theorem Orderly.afterWrite (h : Orderly s) (hcmd : AutoCommitWrite cmd) : Orderly (s.afterWrite cmd) :=
  h.afterCommand hcmd.number

theorem Orderly.afterWrites (h : Orderly s) (hcmds : ∀ cmd ∈ cmds, AutoCommitWrite cmd) :
    Orderly (cmds.foldl Server.afterWrite s) := by
  induction cmds generalizing s with
  | nil => exact h
  | cons cmd cmds ih =>
    exact ih (h.afterWrite (hcmds cmd List.mem_cons_self))
      fun c hc => hcmds c (List.mem_cons_of_mem _ hc)

/-- The engine loop comes to the end of its commands. -/
theorem Orderly.run [StandardLibrary] (h : Orderly s) (hcmds : ∀ cmd ∈ cmds, AutoCommitWrite cmd) :
    ∃ answers, (EngineLoop.run cmds).run (Server.handle InMemory.provider) s =
      some (.ok answers (cmds.foldl Server.afterWrite s)) := by
  induction cmds generalizing s with
  | nil => exact ⟨[], rfl⟩
  | cons cmd cmds ih =>
    have hcmd := hcmds cmd List.mem_cons_self
    -- the rest of the commands starts from the server that the first one leaves
    obtain ⟨answers, hrest⟩ := ih (h.afterWrite hcmd) fun c hc => hcmds c (List.mem_cons_of_mem _ hc)
    refine ⟨.result noRows :: answers, ?_⟩
    rw [EngineLoop.run, run_bind_ok (EngineLoop.run_dispatch_write (h.startable hcmd.auto) hcmd.write),
      run_bind_ok hrest]
    rfl

/-- Every command takes a number. -/
theorem commitSeq_afterWrites (s : Server InMemoryStore) (cmds : List Command) :
    (cmds.foldl Server.afterWrite s).txns.commitSeq =
      s.txns.commitSeq + UInt64.ofNat cmds.length := by
  induction cmds generalizing s with
  | nil => exact (UInt64.add_zero _).symm
  | cons cmd cmds ih =>
    rw [List.foldl_cons, ih, List.length_cons,
      show (s.afterWrite cmd).txns.commitSeq = s.txns.commitSeq + 1 from
        (TransactionManager.commitTxn_beginTxn s.txns).1, UInt64.ofNat_add, UInt64.add_assoc,
      UInt64.add_comm 1]
    rfl

/-! ## What a command changes -/

/-- Only the number zero is taken by a transaction that has left something staged. -/
theorem Orderly.beginTxn_ne_zero (h : Orderly s) (hseq : s.nextSeq ≠ 0) : s.txns.beginTxn.1 ≠ 0 := by
  rw [h.beginTxn_eq]
  exact hseq

/-- Readers of another table see what they saw. -/
theorem Orderly.scan_afterWrite_of_ne (h : Orderly s) (hcmd : AutoCommitWrite cmd)
    (hseq : s.nextSeq ≠ 0) (hu : Unstaged s.store table u) (hne : table ≠ cmd.table) :
    scan u table (s.afterWrite cmd).store = scan u table s.store := by
  have hfresh : Unstaged s.store table s.txns.beginTxn.1 := h.unstaged (h.beginTxn_ne_zero hseq)
  refine scan_congr ((h.afterWrite hcmd).store.ordered table) (h.store.ordered table) fun r => ?_
  show rowAt (s.afterWrite cmd).store u table r = rowAt s.store u table r
  rw [rowAt_afterWrite h.store hcmd.number hseq hu,
    (writes_written h.store hcmd.number).rowAt_of_ne h.store (Or.inr hne)]
  exact rowAt_eq_of_unstaged hfresh hu r

/-- A DELETE takes the rows away that satisfy its predicate. -/
theorem Orderly.scan_afterDelete (h : Orderly s) (hcmd : AutoCommitWrite cmd)
    (htype : cmd.type = .delete) {predicate : Predicate} (hpredicate : cmd.predicate = some predicate)
    (hseq : s.nextSeq ≠ 0) (hu : Unstaged s.store cmd.table u) :
    scan u cmd.table (s.afterWrite cmd).store =
      (scan u cmd.table s.store).filter fun row => !predicate.evaluate row := by
  have hdelete : written s.txns.beginTxn.1 cmd s.store =
      (matchedKeys predicate (scan s.txns.beginTxn.1 cmd.table s.store)).foldl
        (fun s' k => InMemory.remove s.txns.beginTxn.1 cmd.table k s') s.store := by
    rw [written, htype, keysOf, hpredicate]
  have hremove := rowWrite_remove s.txns.beginTxn.1 cmd.table
  have hfresh : Unstaged s.store cmd.table s.txns.beginTxn.1 :=
    h.unstaged (h.beginTxn_ne_zero hseq)
  refine scan_eq_filter (h.store.ordered _) ((h.afterWrite hcmd).store.ordered _) fun r => ?_
  rw [rowAt_afterWrite h.store hcmd.number hseq hu, hdelete, rowAt_eq_of_unstaged hu hfresh]
  cases hrow : rowAt s.store s.txns.beginTxn.1 cmd.table r with
  | none =>
    have hrefused : ∀ row, rowAt s.store s.txns.beginTxn.1 cmd.table r = some row →
        predicate.evaluate row = false := by
      intro row hsome
      cases hrow.symm.trans hsome
    rw [hremove.rowAt_unmatched h.store hrefused, hrow]
    rfl
  | some row =>
    rw [Option.filter_some]
    cases heval : predicate.evaluate row with
    | true =>
      -- the row is found by its `_id` and gets a tombstone
      obtain ⟨id, hid, -, -, -⟩ := h.store.hasKey hrow
      rw [hremove.rowAt_matched h.store hrow heval hid]
      rfl
    | false =>
      have hrefused : ∀ row', rowAt s.store s.txns.beginTxn.1 cmd.table r = some row' →
          predicate.evaluate row' = false := by
        intro row' hrow'
        cases hrow.symm.trans hrow'
        exact heval
      rw [hremove.rowAt_unmatched h.store hrefused, hrow]
      rfl

/-- Fewer than 2^64 commands have different numbers, none of which is zero. -/
theorem nextSeq_afterWrites_ne_zero (hcount : cmds.length + 1 < 2 ^ 64) :
    (cmds.foldl Server.afterWrite (Server.new InMemory.new)).nextSeq ≠ 0 := by
  have hseq := commitSeq_afterWrites (Server.new InMemory.new) cmds
  intro hzero
  rw [Server.nextSeq, hseq, show (Server.new InMemory.new).txns.commitSeq = 0 from rfl,
    UInt64.zero_add] at hzero
  have hnat : (UInt64.ofNat cmds.length + UInt64.ofNat 1).toNat = 0 := congrArg UInt64.toNat hzero
  rw [← UInt64.ofNat_add, UInt64.toNat_ofNat', Nat.mod_eq_of_lt hcount] at hnat
  omega

theorem settled_afterWrites (hcmds : ∀ c ∈ cmds, AutoCommitWrite c)
    (hcount : cmds.length < 2 ^ 64) :
    Settled (cmds.foldl Server.afterWrite (Server.new InMemory.new)) := by
  -- by the last command
  induction cmds using List.reverseRecOn with
  | nil =>
    intro table r v hv
    cases hv
  | append_singleton cmds cmd ih =>
    rw [List.length_append, List.length_singleton] at hcount
    have hbefore : ∀ c ∈ cmds, AutoCommitWrite c := fun c hc => hcmds c (List.mem_append_left _ hc)
    have hlast := hcmds cmd (List.mem_append_right _ List.mem_cons_self)
    rw [List.foldl_append, List.foldl_cons, List.foldl_nil]
    exact (ih hbefore (by omega)).afterWrite (orderly_new.afterWrites hbefore) hlast
      (nextSeq_afterWrites_ne_zero hcount)

/-- After any run of fewer than 2^64 writes a DELETE leaves of every scan the rows that its predicate
refuses, in the order they had, and does not touch the other tables. -/
theorem delete_exact [StandardLibrary] {predicate : Predicate}
    (hcmds : ∀ c ∈ cmds, AutoCommitWrite c) (htype : cmd.type = .delete) (hauto : cmd.txnId = none)
    (hpredicate : cmd.predicate = some predicate) (hcount : cmds.length + 1 < 2 ^ 64) :
    ∃ answers s answer s',
      (EngineLoop.run cmds).run (Server.handle InMemory.provider) (Server.new InMemory.new) =
        some (.ok answers s) ∧
      (EngineLoop.dispatch cmd).run (Server.handle InMemory.provider) s = some (.ok answer s') ∧
      ∀ u, scan u cmd.table s'.store =
          (scan u cmd.table s.store).filter (fun row => !predicate.evaluate row) ∧
        ∀ table, table ≠ cmd.table → scan u table s'.store = scan u table s.store := by
  have hcmd : AutoCommitWrite cmd :=
    ⟨hauto, by rw [htype]; exact nofun, Command.placeable_of_ne (by rw [htype]; exact nofun)⟩
  have hs := orderly_new.afterWrites hcmds
  have hsettled := settled_afterWrites hcmds (by omega)
  have hseq := nextSeq_afterWrites_ne_zero hcount
  obtain ⟨answers, hrun⟩ := orderly_new.run hcmds
  refine ⟨answers, _, _, _, hrun, EngineLoop.run_dispatch_write (hs.startable hauto) hcmd.write, ?_⟩
  intro u
  refine ⟨hs.scan_afterDelete hcmd htype hpredicate hseq (hsettled.unstaged _ u), ?_⟩
  exact fun table hne => hs.scan_afterWrite_of_ne hcmd hseq (hsettled.unstaged _ u) hne

end

/-! ### Some tables -/

theorem autoCommitWrite_insert {table : Bytes} {row : Tuple}
    (hid : ∀ id ∈ row.maybeGet idColumn, id.isNaN = false) :
    AutoCommitWrite (.insert table row) := by
  refine ⟨rfl, nofun, fun _ row' hrow' => ?_⟩
  cases hrow'
  exact hid

theorem autoCommitWrite_delete (table : Bytes) (predicate : Predicate) :
    AutoCommitWrite (.delete table predicate) :=
  ⟨rfl, nofun, nofun⟩

/-- Two rows go in, and the first is deleted. -/
theorem delete_first_of_two :
    ∃ answers s answer s',
      (EngineLoop.run [.insert (ascii "t") (numberRow 1 0), .insert (ascii "t") (numberRow 2 5)]).run
        (Server.handle InMemory.provider) (Server.new InMemory.new) = some (.ok answers s) ∧
      (EngineLoop.dispatch (.delete (ascii "t") (valueIs 0))).run (Server.handle InMemory.provider) s =
        some (.ok answer s') ∧
      ∀ u, scan u (ascii "t") s'.store =
          (scan u (ascii "t") s.store).filter (fun row => !(valueIs 0).evaluate row) ∧
        ∀ table, table ≠ ascii "t" → scan u table s'.store = scan u table s.store := by
  refine delete_exact ?_ rfl rfl rfl (by decide)
  intro c hc
  simp only [List.mem_cons, List.not_mem_nil, or_false] at hc
  rcases hc with rfl | rfl <;> exact autoCommitWrite_insert (by decide +kernel)

end OpenDB
