import OpenDB.Core.Executors
import OpenDB.Storage.InMemoryStorageProvider

/-!
# Statements that fail

A statement without a transaction of its own should be undone when the store reports an error: its
transaction is aborted in the store and in the transaction manager, it is not committed, and the
client is shown the error. Only the engine loop has a path that does this, and only an INSERT whose
`put` is refused takes it (`undone_iff`): an UPDATE or DELETE of the engine loop is committed with the
rows it got to, the dispatcher commits whatever happened, and the HTTP front end neither commits nor
aborts.
-/

set_option autoImplicit false

namespace OpenDB

open OpenDB.Library Exec Program

variable {σ : Type}

/-- The calls of a run and what they returned. -/
abbrev CallRecord := List (Entry Call Call.Result Fault)

/-- What a storage operation can report. -/
inductive Report where
  | error (e : DbError)
  | thrown (fault : Fault)
  deriving DecidableEq

/-- An error that a call has returned. -/
def Report.ofError (e : DbError) : Option Report := if e.isSentinel then none else some (.error e)

/-- The report of a storage operation of the statement, if it has failed. -/
def reportOf : Entry Call Call.Result Fault → Option Report
  | ⟨.scan _ _, .error fault⟩ => some (.thrown fault)
  | ⟨.put _ _ _ _, .ok e⟩ => Report.ofError e
  | ⟨.put _ _ _ _, .error fault⟩ => some (.thrown fault)
  | ⟨.remove _ _ _, .ok e⟩ => Report.ofError e
  | ⟨.remove _ _ _, .error fault⟩ => some (.thrown fault)
  | ⟨.prepare _, .ok e⟩ => Report.ofError e
  | ⟨.prepare _, .error fault⟩ => some (.thrown fault)
  | ⟨.commit _ _, .ok e⟩ => Report.ofError e
  | ⟨.commit _ _, .error fault⟩ => some (.thrown fault)
  | _ => none

/-- The first report of a run. -/
def firstReport (record : CallRecord) : Option Report := record.findSome? reportOf

def Call.IsAbort : Call → Prop
  | .abort _ => True
  | _ => False

def Call.IsCommit : Call → Prop
  | .commit _ _ => True
  | _ => False

def Call.IsWrite : Call → Prop
  | .put _ _ _ _ => True
  | .remove _ _ _ => True
  | _ => False

/-- The client is shown the error of the store, or some error for an exception. -/
def Shows (outcome : EStateM.Result Fault (Server σ) (List Response)) : Report → Prop
  | .error e => ∃ t, outcome = .ok [.error e] t
  | .thrown _ => ∃ e t, outcome = .ok [.error e] t

/-- The statement is undone and its failure is shown. -/
structure Undone (record : CallRecord) (outcome : EStateM.Result Fault (Server σ) (List Response))
    (txn : UInt64) (report : Report) : Prop where
  aborted : ∃ before e after, record = before ++ ⟨.abort txn, .ok e⟩ :: after ∧
    ∀ x ∈ after, ¬ x.1.IsWrite
  uncommitted : ∀ x ∈ record, ¬ x.1.IsCommit
  ended : (endState outcome).txns.states.find txn = some .aborted
  shown : Shows outcome report

/-- The command is an INSERT whose row the store refuses, and the abort that follows returns. -/
def InsertRefused (P : StorageProvider σ) (s : Server σ) (cmd : Command) : Prop :=
  cmd.type = .insert ∧ ∃ row ∈ cmd.values, ∃ e t e' t',
    (P.put s.txns.beginTxn.1 cmd.table (insertKey row) row).run s.store = .ok e t ∧
    e.isSentinel = false ∧ (P.abort s.txns.beginTxn.1).run t = .ok e' t'

/-! ## Executors that never abort -/

def Call.NotAbort (c : Call) : Prop := ¬ c.IsAbort

theorem not_undone_of_uses [StandardLibrary] {p : Exec (List Response)} (hp : p.Uses Call.NotAbort)
    {P : StorageProvider σ} {s : Server σ}
    {outcome : EStateM.Result Fault (Server σ) (List Response)} {txn : UInt64} {report : Report} :
    ¬ Undone (p.record (Server.handle P) s) outcome txn report := by
  rintro ⟨⟨before, e, after, hrecord, -⟩, -, -, -⟩
  have hmem : (⟨.abort txn, .ok e⟩ : Entry Call Call.Result Fault) ∈
      p.record (Server.handle P) s := by
    rw [hrecord]
    exact List.mem_append_right _ List.mem_cons_self
  exact hp.record s _ hmem trivial

variable {P : StorageProvider σ} {s : Server σ} {cmd : Command} {txn : UInt64}

theorem Call.OnRows.notAbort {c : Call} (hc : c.OnRows) : c.NotAbort := by
  intro habort
  cases c <;> first | exact habort | exact hc

theorem uses_abortVictim (victim : UInt64) : (abortVictim victim).Uses Call.NotAbort :=
  uses_bind (uses_perform id) fun _ => uses_perform id

theorem dispatcher_never_aborts [StandardLibrary] (lockTimeout : Nat) :
    (Executor.program (.dispatcher lockTimeout) cmd).Uses Call.NotAbort := by
  apply uses_bind _ fun _ => uses_pure _
  apply uses_bind (uses_perform id)
  intro begun
  apply uses_bind (uses_perform id)
  intro cycle
  cases cycle with
  | some victim => exact uses_bind (uses_abortVictim victim) fun _ => uses_pure _
  | none =>
    apply uses_bind (uses_perform id)
    intro acquired
    cases acquired with
    | timedOut => exact uses_bind (uses_perform id) fun _ => uses_pure _
    | granted =>
      apply uses_bind (EngineDispatcher.uses_executeCaught.mono (fun _ hc => hc.notAbort) fun _ h => h)
      intro answer
      split_ifs
      · apply uses_bind _ fun _ => uses_pure _
        apply uses_bind (uses_perform id)
        intro committed
        apply uses_bind (uses_perform id)
        intro seq
        apply uses_bind (uses_perform id)
        intro err
        exact uses_bind (uses_perform id) fun _ => uses_pure _
      · exact uses_pure _

theorem httpApi_never_aborts [StandardLibrary] :
    (Executor.program .httpApi cmd).Uses Call.NotAbort := by
  apply uses_bind _ fun _ => uses_pure _
  apply uses_bind (uses_perform id)
  intro begun
  apply uses_bind (uses_perform id)
  intro cycle
  cases cycle with
  | some victim => exact uses_bind (uses_abortVictim victim) fun _ => uses_pure _
  | none =>
    apply uses_bind (uses_perform id)
    intro acquired
    cases acquired with
    | timedOut =>
      apply uses_bind (uses_perform id)
      intro aborted
      exact uses_bind (uses_perform id) fun _ => uses_pure _
    | granted =>
      apply uses_bind (HttpApi.uses_execute.mono (fun _ hc => hc.notAbort) fun _ h => h)
      intro answer
      apply uses_bind (uses_perform id)
      intro released
      cases answer with
      | error err => exact uses_pure _
      | result rs =>
        apply uses_bind (uses_perform id)
        intro committed
        apply uses_bind (uses_perform id)
        intro seq
        apply uses_bind (uses_perform id)
        intro err
        split_ifs <;> exact uses_pure _

/-- A statement with a result is committed, not aborted. -/
theorem uses_autoCommit_result (result : Option ResultSet) (error : Option DbError)
    (h : result.isSome = true) :
    (EngineLoop.autoCommit txn result error).Uses Call.NotAbort := by
  obtain ⟨rs, rfl⟩ := Option.isSome_iff_exists.1 h
  rw [EngineLoop.autoCommit]
  apply uses_bind
  · apply uses_bind
    · apply uses_bind (uses_perform id)
      intro err
      split_ifs
      · apply uses_bind (uses_perform id)
        intro committed
        apply uses_bind (uses_perform id)
        intro seq
        exact uses_bind (uses_perform id) fun _ => uses_pure _
      · exact uses_pure _
    · intro prepared
      cases prepared <;> exact uses_pure _
  · intro error'
    exact uses_bind (uses_perform id) fun _ => uses_pure _

theorem engineLoop_never_aborts [StandardLibrary] (hauto : cmd.txnId = none)
    (htype : cmd.type ≠ .insert) :
    (Executor.program .engineLoop cmd).Uses Call.NotAbort := by
  apply uses_bind _ fun _ => uses_pure _
  rw [EngineLoop.dispatch]
  rw [hauto]
  apply uses_bind (uses_perform id)
  intro begun
  apply uses_bind (uses_perform id)
  intro cycle
  cases cycle with
  | some victim => exact uses_bind (uses_abortVictim victim) fun _ => uses_pure _
  | none =>
    apply uses_bind (uses_perform id)
    intro acquired
    apply spec_bind ((EngineLoop.spec_execute htype).mono (fun _ hc => hc.notAbort) fun _ h => h)
    rintro ⟨result, error⟩ hresult
    exact uses_bind (uses_autoCommit_result result error hresult) fun _ => uses_pure _

/-! ## The INSERT of the engine loop -/

/-- The calls that come before the first access of a statement of the engine loop. -/
def startRecord (s : Server σ) (cmd : Command) : CallRecord :=
  [⟨.beginTxn, .ok s.txns.beginTxn.1⟩, ⟨.detectCycle s.txns.beginTxn.1, .ok none⟩,
    ⟨.acquire s.txns.beginTxn.1 cmd.table cmd.lockMode, .ok ()⟩]

theorem record_dispatch [StandardLibrary] (h : Startable s cmd) :
    (EngineLoop.dispatch cmd).record (Server.handle P) s = startRecord s cmd ++
      (EngineLoop.finish s.txns.beginTxn.1 cmd).record (Server.handle P) (s.started cmd) := by
  have hcycle : Server.handle P (.detectCycle s.txns.beginTxn.1) s.begun =
      some (.ok none s.begun) := (run_perform _).symm.trans h.run_detectCycle
  have hacquire : Server.handle P (.acquire s.txns.beginTxn.1 cmd.table cmd.lockMode) s.begun =
      some (.ok () (s.started cmd)) := (run_perform _).symm.trans h.run_acquire
  rw [EngineLoop.dispatch]
  rw [record_bind_ok run_beginTxn_begun, h.auto]
  dsimp only [Option.getD_none]
  rw [record_bind_ok h.run_detectCycle]
  dsimp only
  rw [record_bind_ok h.run_acquire, show (detectCycle s.txns.beginTxn.1).record _ _ = _ from
    record_perform_ok hcycle, show (acquire _ _ _).record _ _ = _ from record_perform_ok hacquire]
  rfl

/-- The program is the dispatch and nothing more. -/
theorem run_program_engineLoop [StandardLibrary] (s : Server σ) :
    (Executor.program .engineLoop cmd).run (Server.handle P) s =
      match (EngineLoop.dispatch cmd).run (Server.handle P) s with
      | none => none
      | some (.ok answer t) => some (.ok [answer] t)
      | some (.error e t) => some (.error e t) := by
  rw [Executor.program]
  rw [run_bind]
  rcases (EngineLoop.dispatch cmd).run (Server.handle P) s with _ | (⟨answer, t⟩ | ⟨e, t⟩) <;> rfl

theorem record_program_engineLoop [StandardLibrary] (s : Server σ) :
    (Executor.program .engineLoop cmd).record (Server.handle P) s =
      (EngineLoop.dispatch cmd).record (Server.handle P) s := by
  rw [Executor.program]
  rw [record_bind]
  rcases (EngineLoop.dispatch cmd).run (Server.handle P) s with _ | (⟨answer, t⟩ | ⟨e, t⟩) <;>
    exact List.append_nil _

/-- A command that reports anything has got its lock. -/
theorem startable_of_report [StandardLibrary] (hauto : cmd.txnId = none)
    {outcome : EStateM.Result Fault (Server σ) (List Response)} {report : Report}
    (hrun : (Executor.program .engineLoop cmd).run (Server.handle P) s = some outcome)
    (hreport : firstReport ((Executor.program .engineLoop cmd).record (Server.handle P) s) =
      some report) : Startable s cmd := by
  rw [run_program_engineLoop] at hrun
  rw [record_program_engineLoop] at hreport
  rw [EngineLoop.dispatch] at hrun hreport
  rw [run_bind_ok run_beginTxn_begun, hauto] at hrun
  rw [record_bind_ok run_beginTxn_begun, hauto] at hreport
  dsimp only [Option.getD_none] at hrun hreport
  rw [run_bind_ok run_detectCycle] at hrun
  rw [record_bind_ok run_detectCycle] at hreport
  cases hcycle : s.locks.detectCycle s.txns.beginTxn.1 with
  | some victim =>
    -- the victim is aborted and nothing is read or written
    rw [show s.begun.locks.detectCycle s.txns.beginTxn.1 = some victim from hcycle] at hreport
    cases hreport
  | none =>
    rw [show s.begun.locks.detectCycle s.txns.beginTxn.1 = none from hcycle] at hrun
    dsimp only at hrun
    cases hgrant : s.locks.grantable s.txns.beginTxn.1 (tableKey cmd.table) cmd.lockMode with
    | true => exact ⟨hauto, hcycle, hgrant⟩
    | false =>
      -- the acquire blocks
      have hblock : (acquire s.txns.beginTxn.1 cmd.table cmd.lockMode).run (Server.handle P) s.begun =
          none := by
        refine (run_perform _).trans ?_
        rw [Server.handle, if_neg]
        rw [show s.begun.locks.grantable _ _ _ = false from hgrant]
        exact Bool.false_ne_true
      rw [run_bind, hblock] at hrun
      cases hrun

/-- The end of an INSERT that the store has accepted. -/
def EngineLoop.accept (txn : UInt64) : Exec Response := do
  let error ← EngineLoop.autoCommit txn (some noRows) none
  return EngineLoop.answer (some noRows) error

/-- The end of an INSERT that the store has refused. -/
def EngineLoop.refuse (txn : UInt64) (err : DbError) : Exec Response := do
  let _ ← abort txn
  let _ ← abortTxn txn
  release txn
  return .error err

theorem EngineLoop.finish_insert [StandardLibrary] (htype : cmd.type = .insert) {row : Tuple}
    (hrow : cmd.values = some row) (txn : UInt64) :
    EngineLoop.finish txn cmd = put txn cmd.table (insertKey row) row >>= fun err =>
      if err.isSentinel then EngineLoop.accept txn else EngineLoop.refuse txn err := by
  rw [EngineLoop.finish, EngineLoop.execute]
  rw [htype, hrow]
  dsimp only [Option.getD_some]
  rw [bind_assoc]
  apply bind_congr
  intro err
  cases hok : err.isSentinel with
  | true =>
    rw [if_pos rfl, if_pos rfl, pure_bind]
    rfl
  | false =>
    rw [if_neg Bool.false_ne_true, if_neg Bool.false_ne_true, pure_bind]
    rw [EngineLoop.refuse, EngineLoop.autoCommit, EngineLoop.abortAll]
    simp only [bind_assoc, pure_bind]
    rfl

theorem uses_accept : (EngineLoop.accept txn).Uses Call.NotAbort :=
  uses_bind (uses_autoCommit_result _ _ rfl) fun _ => uses_pure _

/-- Calls of the store, alone. -/
theorem run_put [StandardLibrary] (txn : UInt64) (table : Bytes) (key : Value) (row : Tuple)
    (s : Server σ) :
    (put txn table key row).run (Server.handle P) s = s.onStore (P.put txn table key row) :=
  run_perform _

theorem run_abort [StandardLibrary] (txn : UInt64) (s : Server σ) :
    (abort txn).run (Server.handle P) s = s.onStore (P.abort txn) :=
  run_perform _

/-- A refused INSERT whose abort returns. -/
theorem run_refuse [StandardLibrary] {err e : DbError} {u u' : Server σ}
    (habort : (abort txn).run (Server.handle P) u = some (.ok e u')) :
    (EngineLoop.refuse txn err).run (Server.handle P) u = some (.ok (.error err)
      { u' with txns := (u'.txns.abortTxn txn).2, locks := u'.locks.release txn }) := by
  rw [EngineLoop.refuse]
  rw [run_bind_ok habort, run_bind_ok run_abortTxn, run_bind_ok run_release]
  rfl

theorem record_refuse [StandardLibrary] (err : DbError) {e : DbError} {u u' : Server σ}
    (habort : (abort txn).run (Server.handle P) u = some (.ok e u')) :
    ∃ done, (EngineLoop.refuse txn err).record (Server.handle P) u =
      [⟨.abort txn, .ok e⟩, ⟨.abortTxn txn, .ok done⟩, ⟨.release txn, .ok ()⟩] := by
  refine ⟨(u'.txns.abortTxn txn).1, ?_⟩
  rw [EngineLoop.refuse]
  rw [record_bind_ok habort, record_bind_ok run_abortTxn, record_bind_ok run_release,
    show (abort txn).record _ _ = _ from record_perform_ok ((run_perform _).symm.trans habort)]
  rfl

/-- The first report of a refused INSERT is the error of its `put`. -/
theorem firstReport_refused {key : Value} {row : Tuple} {err : DbError}
    (herr : err.isSentinel = false) (rest : CallRecord) :
    firstReport (startRecord s cmd ++
      ([⟨.put txn cmd.table key row, .ok err⟩] ++ rest)) = some (.error err) := by
  have hput : reportOf ⟨.put txn cmd.table key row, .ok err⟩ = some (.error err) := by
    show Report.ofError err = _
    rw [Report.ofError, if_neg (by rw [herr]; exact Bool.false_ne_true)]
  have hbefore : (startRecord s cmd).findSome? reportOf = none := rfl
  rw [firstReport, List.findSome?_append, hbefore, Option.none_or, List.singleton_append,
    List.findSome?_cons, hput]

theorem uncommitted_before {key : Value} {row : Tuple} {err : DbError}
    {x : Entry Call Call.Result Fault}
    (hx : x ∈ startRecord s cmd ++ [⟨.put txn cmd.table key row, .ok err⟩]) : ¬ x.1.IsCommit := by
  rcases List.mem_append.1 hx with hx | hx
  · rcases List.mem_cons.1 hx with rfl | hx
    · exact id
    · rcases List.mem_cons.1 hx with rfl | hx
      · exact id
      · rw [List.mem_singleton.1 hx]
        exact id
  · rw [List.mem_singleton.1 hx]
    exact id

/-- An exception that escapes shows the client nothing. -/
theorem not_shows_error {fault : Fault} {t : Server σ} {report : Report} :
    ¬ Shows (.error fault t : EStateM.Result Fault (Server σ) (List Response)) report := by
  cases report with
  | error e =>
    rintro ⟨u, h⟩
    cases h
  | thrown fault' =>
    rintro ⟨e, u, h⟩
    cases h

theorem engineLoop_insert_undone_iff [StandardLibrary] (hauto : cmd.txnId = none)
    (htype : cmd.type = .insert) {outcome : EStateM.Result Fault (Server σ) (List Response)}
    {report : Report}
    (hrun : (Executor.program .engineLoop cmd).run (Server.handle P) s = some outcome)
    (hreport : firstReport ((Executor.program .engineLoop cmd).record (Server.handle P) s) =
      some report) :
    Undone ((Executor.program .engineLoop cmd).record (Server.handle P) s) outcome
      s.txns.beginTxn.1 report ↔ InsertRefused P s cmd := by
  have hstart := startable_of_report hauto hrun hreport
  obtain ⟨row, hrow⟩ : ∃ row, cmd.values = some row := by
    have hvalid := cmd.valid
    rw [htype] at hvalid
    exact Option.isSome_iff_exists.1 hvalid.1
  have hput := run_put (P := P) s.txns.beginTxn.1 cmd.table (insertKey row) row (s.started cmd)
  rw [record_program_engineLoop, record_dispatch hstart,
    EngineLoop.finish_insert htype hrow] at hreport ⊢
  rw [run_program_engineLoop, EngineLoop.run_dispatch hstart,
    EngineLoop.finish_insert htype hrow] at hrun
  rw [Server.onStore] at hput
  cases hstore : (P.put s.txns.beginTxn.1 cmd.table (insertKey row) row).run s.store with
  | error fault t =>
    -- the exception escapes
    rw [show (s.started cmd).store = s.store from rfl, hstore] at hput
    rw [run_bind_error hput] at hrun
    cases hrun
    refine ⟨fun hundone => absurd hundone.shown not_shows_error, ?_⟩
    rintro ⟨-, row', hrow', e, u, e', u', hput', -⟩
    cases hrow.symm.trans hrow'
    cases hstore.symm.trans hput'
  | ok err t =>
    rw [show (s.started cmd).store = s.store from rfl, hstore] at hput
    rw [run_bind_ok hput] at hrun
    rw [record_bind_ok hput] at hreport ⊢
    have hentry : (put s.txns.beginTxn.1 cmd.table (insertKey row) row).record (Server.handle P)
        (s.started cmd) = [⟨.put s.txns.beginTxn.1 cmd.table (insertKey row) row, .ok err⟩] :=
      record_perform_ok ((run_perform _).symm.trans hput)
    rw [hentry] at hreport ⊢
    by_cases hok : err.isSentinel = true
    · -- accepted, and from then on nothing aborts
      rw [if_pos hok]
      constructor
      · rintro ⟨⟨before, e, after, hrecord, -⟩, -, -, -⟩
        exfalso
        have hmem : (⟨.abort s.txns.beginTxn.1, .ok e⟩ : Entry Call Call.Result Fault) ∈
            before ++ ⟨.abort s.txns.beginTxn.1, .ok e⟩ :: after :=
          List.mem_append_right _ List.mem_cons_self
        rw [← hrecord] at hmem
        rcases List.mem_append.1 hmem with hmem | hmem
        · simp [startRecord] at hmem
        · rcases List.mem_append.1 hmem with hmem | hmem
          · simp at hmem
          · exact uses_accept.record _ _ hmem trivial
      · rintro ⟨-, row', hrow', e, u, e', u', hput', hrefused, -⟩
        cases hrow.symm.trans hrow'
        cases hstore.symm.trans hput'
        rw [hok] at hrefused
        cases hrefused
    · rw [if_neg hok] at hrun hreport ⊢
      have hrefused : err.isSentinel = false := Bool.eq_false_iff.2 hok
      have hfirst : report = .error err :=
        (Option.some.inj ((firstReport_refused hrefused _).symm.trans hreport)).symm
      have habort := run_abort (P := P) s.txns.beginTxn.1 { s.started cmd with store := t }
      rw [Server.onStore] at habort
      cases hend : (P.abort s.txns.beginTxn.1).run t with
      | error fault u =>
        rw [show ({ s.started cmd with store := t } : Server σ).store = t from rfl, hend] at habort
        rw [EngineLoop.refuse, run_bind_error habort] at hrun
        cases hrun
        refine ⟨fun hundone => absurd hundone.shown not_shows_error, ?_⟩
        rintro ⟨-, row', hrow', e, u, e', u', hput', -, habort'⟩
        cases hrow.symm.trans hrow'
        cases hstore.symm.trans hput'
        cases hend.symm.trans habort'
      | ok e u =>
        rw [show ({ s.started cmd with store := t } : Server σ).store = t from rfl, hend] at habort
        rw [run_refuse habort] at hrun
        obtain ⟨done, hrecord⟩ := record_refuse (P := P) err habort
        rw [hrecord]
        cases hrun
        refine ⟨fun _ => ⟨htype, row, hrow, err, t, e, u, hstore, hrefused, hend⟩, fun _ => ?_⟩
        refine ⟨⟨_, e, _, (List.append_assoc _ _ _).symm, ?_⟩, ?_, ?_, ?_⟩
        · intro x hx
          rcases List.mem_cons.1 hx with rfl | hx
          · exact id
          · rw [List.mem_singleton.1 hx]
            exact id
        · intro x hx
          rw [← List.append_assoc, List.mem_append] at hx
          rcases hx with hx | hx
          · exact uncommitted_before hx
          · rcases List.mem_cons.1 hx with rfl | hx
            · exact id
            · rcases List.mem_cons.1 hx with rfl | hx
              · exact id
              · rw [List.mem_singleton.1 hx]
                exact id
        · exact TransactionManager.find_abortTxn_self TransactionManager.find_beginTxn_self
        · rw [hfirst]
          exact ⟨_, rfl⟩

/-! ## All executors -/

/-- A statement in which the store reports an error is undone, and its error shown, if and only if it
is an INSERT of the engine loop whose row the store refuses. -/
theorem undone_iff [StandardLibrary] (x : Executor) (hauto : cmd.txnId = none)
    {outcome : EStateM.Result Fault (Server σ) (List Response)} {report : Report}
    (hrun : (x.program cmd).run (Server.handle P) s = some outcome)
    (hreport : firstReport ((x.program cmd).record (Server.handle P) s) = some report) :
    Undone ((x.program cmd).record (Server.handle P) s) outcome s.txns.beginTxn.1 report ↔
      x = .engineLoop ∧ InsertRefused P s cmd := by
  cases x with
  | engineLoop =>
    by_cases htype : cmd.type = .insert
    · rw [engineLoop_insert_undone_iff hauto htype hrun hreport]
      exact (and_iff_right rfl).symm
    · refine iff_of_false (not_undone_of_uses (engineLoop_never_aborts hauto htype)) ?_
      rintro ⟨-, htype', -⟩
      exact htype htype'
  | dispatcher lockTimeout =>
    refine iff_of_false (not_undone_of_uses (dispatcher_never_aborts lockTimeout)) ?_
    rintro ⟨hx, -⟩
    cases hx
  | httpApi =>
    refine iff_of_false (not_undone_of_uses httpApi_never_aborts) ?_
    rintro ⟨hx, -⟩
    cases hx

/-! ### A store that cannot write one key -/

/-- The in-memory store with a key that no `put` accepts, as when the shard of that key lacks the
table. -/
def InMemory.refusing (key : Value) : StorageProvider InMemoryStore :=
  { InMemory.provider with
    put := fun txn table k row => InMemory.total fun s =>
      if k = key then (.tableNotFound table, s) else (.sentinel, InMemory.put txn table k row s) }

/-- A row with a key and a value. -/
def numberRow (id v : Int64) : Tuple :=
  (Tuple.empty.set idColumn (.int64 id)).set (ascii "v") (.int64 v)

/-- Two committed rows with the value 0. -/
def twoRows : InMemoryStore :=
  InMemory.commit 1 1 (InMemory.put 1 (ascii "t") (.int64 2) (numberRow 2 0)
    (InMemory.put 1 (ascii "t") (.int64 1) (numberRow 1 0) InMemory.new))

/-- The server after the transaction that wrote them. -/
def twoRowsServer : Server InMemoryStore :=
  ⟨twoRows, ⟨1, 1, AssocMap.empty.assign 1 .committed⟩, .new⟩

/-- `v = n`. -/
def valueIs (n : Int64) : Predicate := ⟨some (.comparison (ascii "v") .equals (.int64 n))⟩

/-- `UPDATE t SET v = 1 WHERE v = 0`. -/
def raiseZeros : Command :=
  .update (ascii "t") (valueIs 0) (Tuple.empty.set (ascii "v") (.int64 1))

/-- What the client is shown. -/
def answersOf : EStateM.Result Fault (Server σ) (List Response) → List Response
  | .ok answers _ => answers
  | .error _ _ => []

theorem refused_insert_undone :
    ∃ outcome, (Executor.program .engineLoop (.insert (ascii "t") (numberRow 2 5))).run
        (Server.handle (InMemory.refusing (.int64 2))) twoRowsServer = some outcome ∧
      Undone ((Executor.program .engineLoop (.insert (ascii "t") (numberRow 2 5))).record
        (Server.handle (InMemory.refusing (.int64 2))) twoRowsServer) outcome 2
        (.error (.tableNotFound (ascii "t"))) := by
  have hend : ((Executor.program .engineLoop (.insert (ascii "t") (numberRow 2 5))).run
      (Server.handle (InMemory.refusing (.int64 2))) twoRowsServer).isSome = true := by
    decide +kernel
  have hreport : firstReport ((Executor.program .engineLoop
      (.insert (ascii "t") (numberRow 2 5))).record
        (Server.handle (InMemory.refusing (.int64 2))) twoRowsServer) =
      some (.error (.tableNotFound (ascii "t"))) := by decide +kernel
  obtain ⟨outcome, houtcome⟩ := Option.isSome_iff_exists.1 hend
  refine ⟨outcome, houtcome, (undone_iff .engineLoop rfl houtcome hreport).2 ⟨rfl, rfl, ?_⟩⟩
  exact ⟨numberRow 2 5, rfl, .tableNotFound (ascii "t"), twoRows, .sentinel, _, rfl, rfl, rfl⟩

/-- The second row cannot be written; the first is committed all the same, and the client is shown
success. -/
theorem half_an_update_committed :
    firstReport ((Executor.program .engineLoop raiseZeros).record
        (Server.handle (InMemory.refusing (.int64 2))) twoRowsServer) =
      some (.error (.tableNotFound (ascii "t"))) ∧
    ∃ outcome, (Executor.program .engineLoop raiseZeros).run
        (Server.handle (InMemory.refusing (.int64 2))) twoRowsServer = some outcome ∧
      ¬ Undone ((Executor.program .engineLoop raiseZeros).record
        (Server.handle (InMemory.refusing (.int64 2))) twoRowsServer) outcome 2
        (.error (.tableNotFound (ascii "t"))) ∧
      answersOf outcome = [.result noRows] ∧
      InMemory.scan 3 (ascii "t") (endState outcome).store ≠
        InMemory.scan 3 (ascii "t") twoRows := by
  have hend : ((Executor.program .engineLoop raiseZeros).run
      (Server.handle (InMemory.refusing (.int64 2))) twoRowsServer).isSome = true := by
    decide +kernel
  have hafter : ∀ outcome ∈ (Executor.program .engineLoop raiseZeros).run
      (Server.handle (InMemory.refusing (.int64 2))) twoRowsServer,
        answersOf outcome = [.result noRows] ∧
        InMemory.scan 3 (ascii "t") (endState outcome).store ≠
          InMemory.scan 3 (ascii "t") twoRows := by
    decide +kernel
  obtain ⟨outcome, houtcome⟩ := Option.isSome_iff_exists.1 hend
  refine ⟨by decide +kernel, outcome, houtcome, ?_, hafter outcome houtcome⟩
  exact not_undone_of_uses (engineLoop_never_aborts rfl (by decide))

end OpenDB
