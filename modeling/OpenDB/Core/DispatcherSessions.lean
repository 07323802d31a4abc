import OpenDB.Core.ReferenceAnswers

/-!
# The database behind the dispatcher

A worker runs a session command by command until the source of the session ends or its time is up. What
is presented are the answers of a database of plain tables, and a session that runs out of time has done
the commands that it has answered and nothing else. Unlike the engine loop the dispatcher shows the error
of an UPDATE or DELETE without a row, and commits it all the same.
-/

set_option autoImplicit false

namespace OpenDB

open OpenDB.Library Exec Program InMemory

/-! ## Sessions -/

namespace Database

/-- A session; `none` among the commands is the point where its time is up. -/
def session (queryTimeout : Nat) : List (Option Command) → Database → List Response × Database
  | [], db => ([], db)
  | none :: _, db => ([.error (EngineDispatcher.queryTimeoutError queryTimeout)], db)
  | some cmd :: cmds, db =>
    let (answers, after) := session queryTimeout cmds (db.after cmd)
    (db.answer cmd :: answers, after)

/-- One session after the other. -/
def sessions (queryTimeout : Nat) :
    List (List (Option Command)) → Database → List (List Response) × Database
  | [], db => ([], db)
  | cmds :: rest, db =>
    let (answers, db) := db.session queryTimeout cmds
    let (more, db) := sessions queryTimeout rest db
    (answers :: more, db)

end Database

/-- The sessions that a worker takes from the queue. -/
def EngineDispatcher.runSessions (lockTimeout queryTimeout : Nat) :
    List (List (Option Command)) → Exec (List (List Response))
  | [] => return []
  | cmds :: rest => do
    let answers ← runSession lockTimeout queryTimeout cmds []
    let more ← runSessions lockTimeout queryTimeout rest
    return answers :: more

section

variable {s : Server InMemoryStore} {db : Database} {cmd : Command} {cmds : List (Option Command)}
  {sessions : List (List (Option Command))} {lockTimeout queryTimeout : Nat}

variable [StandardLibrary]

theorem Reflects.run_execute (h : Reflects s db) (htxn : s.txns.beginTxn.1 ≠ 0) :
    (EngineDispatcher.executeCaught s.txns.beginTxn.1 cmd).run (Server.handle InMemory.provider)
        (s.started cmd) = some (.ok (db.answer cmd) { s.started cmd with
          store := written s.txns.beginTxn.1 cmd s.store }) := by
  have htabulates : Tabulates (s.started cmd).store db := h.tabulates
  have hvalid := cmd.valid
  have hexecute : (EngineDispatcher.execute s.txns.beginTxn.1 cmd).run
      (Server.handle InMemory.provider) (s.started cmd) = some (.ok (db.answer cmd)
        { s.started cmd with store := written s.txns.beginTxn.1 cmd s.store }) := by
    unfold EngineDispatcher.execute
    cases htype : cmd.type with
    | select => exact htabulates.run_select htxn htype
    | insert =>
      rw [htype] at hvalid
      obtain ⟨row, hrow⟩ := Option.isSome_iff_exists.1 hvalid.1
      rw [hrow, Database.answer, htype, written, htype, hrow]
      rfl
    | update => exact htabulates.run_executeUpdate htxn htype
    | delete => exact htabulates.run_executeDelete htxn htype
  rw [EngineDispatcher.executeCaught, run_tryCatch, hexecute]

/-- A command of a session is answered as by the database, and committed. -/
theorem Reflects.run_runCommand (h : Reflects s db) (hauto : cmd.txnId = none)
    (hseq : s.nextSeq ≠ 0) :
    (EngineDispatcher.runCommand lockTimeout cmd []).run (Server.handle InMemory.provider) s =
      some (.ok ([db.answer cmd], []) (s.afterWrite cmd)) := by
  have hstart : Startable s cmd := h.orderly.startable hauto
  have htxn := h.orderly.beginTxn_ne_zero hseq
  rw [EngineDispatcher.runCommand, run_bind_ok run_beginTxn_begun, hauto]
  dsimp only [Option.getD_none]
  rw [run_bind_ok hstart.run_detectCycle]
  dsimp only
  rw [run_bind_ok hstart.run_tryAcquire]
  dsimp only
  rw [run_bind_ok (h.run_execute htxn), Option.isNone_none, if_pos rfl, run_bind_ok (EngineDispatcher.run_autoCommit
    (t := { s.started cmd with store := written s.txns.beginTxn.1 cmd s.store })
    (committed_nextSeq s cmd _))]
  rfl

/-- A session, whether or not it runs out of time; every command takes one commit number. -/
theorem Reflects.runSession (h : Reflects s db)
    (hcmds : ∀ cmd, some cmd ∈ cmds → cmd.txnId = none ∧ cmd.Placeable)
    (hcount : s.txns.commitSeq.toNat + cmds.length < 2 ^ 64) :
    ∃ s', (EngineDispatcher.runSession lockTimeout queryTimeout cmds []).run
        (Server.handle InMemory.provider) s = some (.ok (db.session queryTimeout cmds).1 s') ∧
      Reflects s' (db.session queryTimeout cmds).2 ∧
      s'.txns.commitSeq.toNat ≤ s.txns.commitSeq.toNat + cmds.length := by
  induction cmds generalizing s db with
  | nil => exact ⟨s, rfl, h, le_rfl⟩
  | cons next cmds ih =>
    cases next with
    | none => exact ⟨s, rfl, h, Nat.le_add_right _ _⟩
    | some cmd =>
      obtain ⟨hauto, hcmd⟩ := hcmds cmd List.mem_cons_self
      rw [List.length_cons] at hcount ⊢
      have hfits : s.txns.commitSeq.toNat + 1 < 2 ^ 64 := by omega
      have hseq : s.nextSeq ≠ 0 := succ_ne_zero hfits
      have hnumber : (s.afterWrite cmd).txns.commitSeq.toNat = s.txns.commitSeq.toNat + 1 :=
        (congrArg UInt64.toNat (TransactionManager.commitTxn_beginTxn s.txns).1).trans (toNat_succ hfits)
      obtain ⟨s', hrun, hs', hle⟩ := ih (h.afterCommand hcmd hseq)
        (fun c hc => hcmds c (List.mem_cons_of_mem _ hc)) (by rw [hnumber]; omega)
      refine ⟨s', ?_, hs', by rw [hnumber] at hle; omega⟩
      rw [EngineDispatcher.runSession, run_bind_ok (h.run_runCommand hauto hseq), run_bind_ok hrun]
      rfl

/-- A run of sessions. -/
theorem Reflects.runSessions (h : Reflects s db)
    (hsessions : ∀ cmds ∈ sessions, ∀ cmd, some cmd ∈ cmds → cmd.txnId = none ∧ cmd.Placeable)
    (hcount : s.txns.commitSeq.toNat + (sessions.map List.length).sum < 2 ^ 64) :
    ∃ s', (EngineDispatcher.runSessions lockTimeout queryTimeout sessions).run
        (Server.handle InMemory.provider) s = some (.ok (db.sessions queryTimeout sessions).1 s') ∧
      Reflects s' (db.sessions queryTimeout sessions).2 := by
  induction sessions generalizing s db with
  | nil => exact ⟨s, rfl, h⟩
  | cons cmds sessions ih =>
    rw [List.map_cons, List.sum_cons] at hcount
    obtain ⟨s₁, hsession, hs₁, hle⟩ := h.runSession (hsessions cmds List.mem_cons_self) (by omega)
    obtain ⟨s', hrun, hs'⟩ := ih hs₁ (fun c hc => hsessions c (List.mem_cons_of_mem _ hc)) (by omega)
    refine ⟨s', ?_, hs'⟩
    rw [EngineDispatcher.runSessions, run_bind_ok hsession, run_bind_ok hrun]
    rfl

end

/-- Over any run of sessions whose commands the dispatcher commits itself, what is presented is what a
database of plain tables answers, and every scan afterwards has its rows. A session whose time is up has
done the commands before that point. -/
theorem dispatcher_refines [StandardLibrary] (lockTimeout queryTimeout : Nat)
    {sessions : List (List (Option Command))}
    (hsessions : ∀ cmds ∈ sessions, ∀ cmd, some cmd ∈ cmds → cmd.txnId = none ∧ cmd.Placeable)
    (hcount : (sessions.map List.length).sum < 2 ^ 64) :
    ∃ s, (EngineDispatcher.runSessions lockTimeout queryTimeout sessions).run
        (Server.handle InMemory.provider) (Server.new InMemory.new) =
          some (.ok (Database.sessions queryTimeout sessions .empty).1 s) ∧
      ∀ u, u ≠ 0 → ∀ table, scan u table s.store =
        ((Database.sessions queryTimeout sessions .empty).2.tables table).rows := by
  obtain ⟨s, hrun, hs⟩ := reflects_new.runSessions hsessions (by
    show 0 + (sessions.map List.length).sum < 2 ^ 64
    omega)
  exact ⟨s, hrun, fun u hu table => hs.tabulates.scan_eq hu table⟩

/-- The time of the first session is up before its second INSERT; the second one finds no row to delete
and one to show. -/
def cutSessions : List (List (Option Command)) :=
  [[some (.insert (ascii "t") (Tuple.empty.set (ascii "v") (.int64 0))), none,
      some (.insert (ascii "t") (Tuple.empty.set (ascii "v") (.int64 5)))],
    [some (.delete (ascii "t") (valueIs 5)), some (.select (ascii "t") none)]]

theorem cutSessions_refine :
    (Database.sessions 1000 cutSessions .empty).1 =
      [[.result noRows, .error (EngineDispatcher.queryTimeoutError 1000)],
        [.error (.notFound (ascii "no matching rows to delete")),
          .result ⟨true, [(Tuple.empty.set (ascii "v") (.int64 0)).set idColumn (.int64 1)]⟩]] ∧
    ∃ s, (EngineDispatcher.runSessions 50 1000 cutSessions).run (Server.handle InMemory.provider)
        (Server.new InMemory.new) = some (.ok (Database.sessions 1000 cutSessions .empty).1 s) ∧
      ∀ u, u ≠ 0 → ∀ table, scan u table s.store =
        ((Database.sessions 1000 cutSessions .empty).2.tables table).rows := by
  refine ⟨by decide +kernel, dispatcher_refines 50 1000 ?_ (by decide)⟩
  have hplaceable : ∀ cmd, some cmd ∈ cutSessions.flatten → cmd.txnId = none ∧ cmd.Placeable := by
    intro cmd hcmd
    simp only [cutSessions, List.flatten_cons, List.flatten_nil, List.append_nil, List.cons_append,
      List.nil_append, List.mem_cons, List.not_mem_nil, or_false, Option.some.injEq, reduceCtorEq,
      false_or] at hcmd
    rcases hcmd with rfl | rfl | rfl | rfl
    · exact ⟨rfl, (autoCommitWrite_insert (by decide +kernel)).number⟩
    · exact ⟨rfl, (autoCommitWrite_insert (by decide +kernel)).number⟩
    · exact ⟨rfl, (autoCommitWrite_delete _ _).number⟩
    · exact ⟨rfl, Command.placeable_of_ne nofun⟩
  exact fun cmds hcmds cmd hcmd => hplaceable cmd (List.mem_flatten.2 ⟨cmds, hcmds, hcmd⟩)

end OpenDB
