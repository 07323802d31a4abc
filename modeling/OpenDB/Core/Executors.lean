import OpenDB.Core.Select

/-!
# The three executors

A command runs through the engine loop, through a session of the dispatcher, or through the HTTP
front end. All three begin or reuse a transaction, check for a deadlock, take the lock of the
command's table and run the command; they were written separately and differ in the clauses of a
SELECT they know, in what they make of an error, and in the order of commit and release.
-/

set_option autoImplicit false

namespace OpenDB

open OpenDB.Library Exec

/-! ## Common parts -/

def idColumn : Bytes := ascii "_id"

/-- A SELECT reads, everything else writes. -/
def Command.lockMode (cmd : Command) : LockMode :=
  if cmd.type = .select then .shared else .exclusive

/-- `TxnId::toString`. -/
def txnText (txn : UInt64) : Bytes := ascii "Txn" ++ ascii (toString txn.toNat)

/-- The answer to a deadlock. -/
def deadlockError (txn : UInt64) : DbError := .deadlock (ascii "cycle detected for " ++ txnText txn)

/-- The answer to a wait that has run out. -/
def lockTimeoutError (millis : Nat) : DbError :=
  .lockTimeout (ascii "lock wait exceeded " ++ ascii (toString millis) ++ ascii " ms")

/-- The victim of a deadlock loses its transaction and its locks. -/
def abortVictim (victim : UInt64) : Exec Unit := do
  let _ ← abortTxn victim
  release victim

/-- The key of a new row: its `_id` if it has one that is not null. -/
def insertKey (row : Tuple) : Value :=
  match row.maybeGet idColumn with
  | some id => if id.isNull then .null else id
  | none => .null

/-- The keys of the rows that satisfy the predicate. -/
def matchingKeys (txn : UInt64) (table : Bytes) (predicate : Predicate) : Exec (List Value) := do
  let rows ← scan txn table
  return (rows.filter predicate.evaluate).filterMap fun row => row.maybeGet idColumn

/-- The write loop of UPDATE and DELETE: it ends at the first error; the flag says whether any write
succeeded. -/
def writeRows (write : Value → Exec DbError) : List Value → Bool → Exec (Option DbError × Bool)
  | [], any => return (none, any)
  | k :: keys, any => do
    let err ← write k
    if err.isSentinel then writeRows write keys true else return (some err, any)

/-- One row of an UPDATE: the new values and the old key. -/
def updateRow (txn : UInt64) (table : Bytes) (values : Tuple) (key : Value) : Exec DbError :=
  put txn table key (values.set idColumn key)

/-- The rows of an UPDATE, and the error of one that finds none. -/
def updateRows (txn : UInt64) (table : Bytes) (predicate : Predicate) (values : Tuple) :
    Exec (Option DbError) := do
  let keys ← matchingKeys txn table predicate
  let (error, any) ← writeRows (updateRow txn table values) keys false
  if error.isNone && !any then return some (.notFound (ascii "no matching rows to update"))
  else return error

/-- The rows of a DELETE, and the error of one that finds none. -/
def deleteRows (txn : UInt64) (table : Bytes) (predicate : Predicate) : Exec (Option DbError) := do
  let keys ← matchingKeys txn table predicate
  let (error, any) ← writeRows (remove txn table) keys false
  if error.isNone && !any then return some (.notFound (ascii "no matching rows to delete"))
  else return error

def updateNeedsPredicate : DbError := .internal (ascii "Update requires WHERE")

def updateNeedsValues : DbError := .internal (ascii "Update requires values")

def deleteNeedsPredicate : DbError := .internal (ascii "Delete requires WHERE")

/-- The result of a write. -/
def noRows : ResultSet := ⟨true, []⟩

/-! ## The engine loop -/

namespace EngineLoop

/-- The switch of `dispatch`. An UPDATE or DELETE has a result even when it has an error. -/
def execute [StandardLibrary] (txn : UInt64) (cmd : Command) :
    Exec (Option ResultSet × Option DbError) :=
  match cmd.type with
  | .select => do
    let rows ← selectRows txn cmd
    return (some ⟨true, rows⟩, none)
  | .insert => do
    let row := cmd.values.getD .empty
    let err ← put txn cmd.table (insertKey row) row
    if err.isSentinel then return (some noRows, none) else return (none, some err)
  | .update =>
    match cmd.predicate, cmd.values with
    | none, _ => return (none, some updateNeedsPredicate)
    | some _, none => return (none, some updateNeedsValues)
    | some predicate, some values => do
      let error ← updateRows txn cmd.table predicate values
      return (some noRows, error)
  | .delete =>
    match cmd.predicate with
    | none => return (none, some deleteNeedsPredicate)
    | some predicate => do
      let error ← deleteRows txn cmd.table predicate
      return (some noRows, error)

/-- Prepare and commit; the error of a prepare that fails. The result of the commit is dropped. -/
def commitPrepared (txn : UInt64) : Exec (Option DbError) := do
  let err ← prepare txn
  if err.isSentinel then
    let _ ← commitTxn txn
    let seq ← visibleSeq
    let _ ← commit txn seq
    return none
  else return some err

def abortAll (txn : UInt64) : Exec Unit := do
  let _ ← abort txn
  let _ ← abortTxn txn
  return ()

/-- The auto-commit part of `dispatch`. -/
def autoCommit (txn : UInt64) (result : Option ResultSet) (error : Option DbError) :
    Exec (Option DbError) := do
  let error ← (match result, error with
    | some _, _ => do
      match ← commitPrepared txn with
      | some err => return some err
      | none => return error
    | none, some err => do
      abortAll txn
      return some err
    | none, none => return none)
  release txn
  return error

/-- What `dispatch` presents: a result if there is one, whether or not there is an error. -/
def answer (result : Option ResultSet) (error : Option DbError) : Response :=
  match result, error with
  | some rs, _ => .result rs
  | none, some err => .error err
  | none, none => .error (.internal (ascii "dispatch produced no result or error"))

/-- `EngineLoop::dispatch`. A transaction begins even when the command names one. -/
def dispatch [StandardLibrary] (cmd : Command) : Exec Response := do
  let begun ← beginTxn
  let txn := cmd.txnId.getD begun
  match ← detectCycle txn with
  | some victim =>
    abortVictim victim
    return .error (deadlockError txn)
  | none =>
    acquire txn cmd.table cmd.lockMode
    let (result, error) ← execute txn cmd
    if cmd.txnId.isNone then
      let error ← autoCommit txn result error
      return answer result error
    else return answer result error

end EngineLoop

/-! ## The dispatcher -/

/-- The result of a statement, or its error. -/
def answerOf (error : Option DbError) (rs : ResultSet) : Response :=
  match error with
  | some err => .error err
  | none => .result rs

/-- The SELECT of the dispatcher and of the HTTP front end. -/
def selectPlain (txn : UInt64) (cmd : Command) : Exec (List Tuple) := do
  let rows ← scan txn cmd.table
  return (rows.filter cmd.accepts).map (projectRowSkippingStar cmd.projections)

/-- UPDATE and DELETE of the dispatcher and of the HTTP front end. -/
def executeUpdate (txn : UInt64) (cmd : Command) : Exec Response :=
  match cmd.predicate, cmd.values with
  | none, _ => return .error updateNeedsPredicate
  | some _, none => return .error updateNeedsValues
  | some predicate, some values => do
    let error ← updateRows txn cmd.table predicate values
    return answerOf error noRows

def executeDelete (txn : UInt64) (cmd : Command) : Exec Response :=
  match cmd.predicate with
  | none => return .error deleteNeedsPredicate
  | some predicate => do
    let error ← deleteRows txn cmd.table predicate
    return answerOf error noRows

namespace EngineDispatcher

/-- The switch of `runSession`. -/
def execute (txn : UInt64) (cmd : Command) : Exec Response :=
  match cmd.type with
  | .select => do
    let rows ← selectPlain txn cmd
    return .result ⟨true, rows⟩
  | .insert =>
    match cmd.values with
    -- the source takes the value of an empty `std::optional`
    | none => throw .outOfBounds
    | some row => do
      let err ← put txn cmd.table (insertKey row) row
      if err.isSentinel then return .result noRows else return .error err
  | .update => executeUpdate txn cmd
  | .delete => executeDelete txn cmd

/-- The switch with its `catch`. -/
def executeCaught (txn : UInt64) (cmd : Command) : Exec Response :=
  tryCatch (execute txn cmd) fun
    | .runtimeError what => return .error (.internal (ascii "dispatch exception: " ++ what))
    | fault => throw fault

/-- The auto-commit part of `runSession`: it commits whatever the answer is. -/
def autoCommit (txn : UInt64) : Exec (List Response) := do
  let _ ← commitTxn txn
  let seq ← visibleSeq
  let err ← commit txn seq
  release txn
  return if err.isSentinel then [] else [.error err]

/-- One command of `runSession`: what is presented, and the explicit transactions of the session. -/
def runCommand (lockTimeout : Nat) (cmd : Command) (openTxns : List UInt64) :
    Exec (List Response × List UInt64) := do
  let begun ← beginTxn
  let txn := cmd.txnId.getD begun
  match ← detectCycle txn with
  | some victim =>
    abortVictim victim
    return ([.error (deadlockError txn)], openTxns)
  | none =>
    match ← tryAcquire txn cmd.table cmd.lockMode with
    | .timedOut =>
      let _ ← abortTxn txn
      return ([.error (lockTimeoutError lockTimeout)], openTxns)
    | .granted =>
      let answer ← executeCaught txn cmd
      if cmd.txnId.isNone then
        let more ← autoCommit txn
        return (answer :: more, openTxns)
      else return ([answer], openTxns ++ [txn])

/-- The transactions a session leaves open are rolled back. -/
def closeSession : List UInt64 → Exec Unit
  | [] => return ()
  | txn :: openTxns => do
    let _ ← abort txn
    release txn
    closeSession openTxns

/-- The answer when a session runs out of time. -/
def queryTimeoutError (millis : Nat) : DbError :=
  .queryTimeout (ascii "session exceeded query timeout of " ++ ascii (toString millis) ++
    ascii " ms")

/-- `EngineDispatcher::runSession`; `none` among the commands is the point where the session runs out
of time. -/
def runSession (lockTimeout queryTimeout : Nat) :
    List (Option Command) → List UInt64 → Exec (List Response)
  | [], openTxns => do
    closeSession openTxns
    return []
  | none :: _, openTxns => do
    closeSession openTxns
    return [.error (queryTimeoutError queryTimeout)]
  | some cmd :: cmds, openTxns => do
    let (answers, openTxns) ← runCommand lockTimeout cmd openTxns
    let more ← runSession lockTimeout queryTimeout cmds openTxns
    return answers ++ more

end EngineDispatcher

/-! ## The HTTP front end -/

/-- `SqlStatement`. -/
inductive SqlStatement where
  | createTable (schema : Schema)
  | dropTable (table : Bytes)
  | alterTable (table : Bytes) (spec : AlterSpec)
  | txnBegin
  | txnCommit
  | txnRollback
  | command (cmd : Command)

structure JsonRequest where
  type : Bytes
  sql : Bytes
  txnId : Option UInt64
  deriving DecidableEq

/-- What a request is answered with, before it is written as JSON. -/
inductive HttpResponse where
  | success
  | begun (txn : UInt64)
  | response (r : Response)
  deriving DecidableEq

/-- `parseAll` of the SQL parser: the statements, and the error text when there are none. -/
abbrev SqlParser := Bytes → List SqlStatement × Bytes

namespace HttpApi

/-- The row of an INSERT without values: the defaults of the columns. -/
def defaultRow (schema : Schema) : Tuple :=
  schema.columns.foldl (fun row col =>
    match col.defaultValue with
    | some v => row.set col.name v
    | none => row) .empty

/-- The row an INSERT puts. -/
def insertedRow (cmd : Command) : Exec Tuple := do
  let row := cmd.values.getD .empty
  if row.isEmpty then
    match ← describeTable cmd.table with
    | some schema => return defaultRow schema
    | none => return row
  else return row

/-- The switch of `handleDml`. -/
def execute (txn : UInt64) (cmd : Command) : Exec Response :=
  match cmd.type with
  | .select => do
    let rows ← selectPlain txn cmd
    return .result ⟨true, rows⟩
  | .insert => do
    let row ← insertedRow cmd
    let err ← put txn cmd.table (insertKey row) row
    if err.isSentinel then return .result noRows else return .error err
  | .update => executeUpdate txn cmd
  | .delete => executeDelete txn cmd

/-- The auto-commit part of `handleDml`: the lock goes first, and an error ends it there. -/
def autoCommit (txn : UInt64) (answer : Response) : Exec Response := do
  release txn
  match answer with
  | .error err => return .error err
  | .result rs => do
    let _ ← commitTxn txn
    let seq ← visibleSeq
    let err ← commit txn seq
    if err.isSentinel then return .result rs else return .error err

/-- `HttpApi::handleDml`. -/
def handleDml (cmd : Command) (explicitTxnId : Option UInt64) : Exec Response := do
  let txn ← (match explicitTxnId with
    | some txn => return txn
    | none => beginTxn)
  match ← detectCycle txn with
  | some victim =>
    abortVictim victim
    return .error (deadlockError txn)
  | none =>
    match ← tryAcquire txn cmd.table cmd.lockMode with
    | .timedOut =>
      let _ ← abortTxn txn
      release txn
      return .error (lockTimeoutError 50000)
    | .granted =>
      let answer ← execute txn cmd
      if explicitTxnId.isNone then autoCommit txn answer else return answer

def refused (err : DbError) : HttpResponse := .response (.error err)

/-- An error of the provider, or success. -/
def ofError (err : DbError) : HttpResponse := if err.isSentinel then .success else refused err

def beginRequest : Exec HttpResponse := do
  let txn ← beginTxn
  return .begun txn

def commitRequest : Option UInt64 → Exec HttpResponse
  | none => return refused (.notSupported (ascii "commit requires txnId"))
  | some txn => do
    if ← commitTxn txn then
      let seq ← visibleSeq
      let err ← commit txn seq
      if err.isSentinel then
        release txn
        return .success
      else return refused err
    else return refused (.internal (ascii "txn not found or already closed"))

def rollbackRequest : Option UInt64 → Exec HttpResponse
  | none => return refused (.notSupported (ascii "rollback requires txnId"))
  | some txn => do
    let _ ← abort txn
    let _ ← abortTxn txn
    release txn
    return .success

/-- `HttpApi::executeStatement`; COMMIT and ROLLBACK in SQL come without a transaction. -/
def executeStatement (explicitTxnId : Option UInt64) : SqlStatement → Exec HttpResponse
  | .createTable schema => do
    let err ← createTable schema
    return ofError err
  | .dropTable table => do
    let err ← dropTable table
    return ofError err
  | .alterTable table spec => do
    let err ← alterTable table spec
    return ofError err
  | .txnBegin => beginRequest
  | .txnCommit => commitRequest none
  | .txnRollback => rollbackRequest none
  | .command cmd => do
    let answer ← handleDml cmd explicitTxnId
    return .response answer

/-- `HttpApi::executeRequest`: only the first statement of a query runs. -/
def executeRequest (parseAll : SqlParser) (req : JsonRequest) : Exec HttpResponse :=
  if req.type = ascii "begin" then beginRequest
  else if req.type = ascii "commit" then commitRequest req.txnId
  else if req.type = ascii "rollback" then rollbackRequest req.txnId
  else if req.type = ascii "query" then
    match parseAll req.sql with
    | ([], error) => return refused (.parseError error)
    | (stmt :: _, _) => executeStatement req.txnId stmt
  else return refused (.notSupported (ascii "unknown request type: " ++ req.type))

end HttpApi

/-! ## One command through any of them -/

/-- The executors; the dispatcher has a bound on lock waits. -/
inductive Executor where
  | engineLoop
  | dispatcher (lockTimeout : Nat)
  | httpApi
  deriving DecidableEq

/-- What the client is shown for a command that names no transaction. -/
def Executor.program [StandardLibrary] : Executor → Command → Exec (List Response)
  | .engineLoop, cmd => do
    let answer ← EngineLoop.dispatch cmd
    return [answer]
  | .dispatcher lockTimeout, cmd => do
    let (answers, _) ← EngineDispatcher.runCommand lockTimeout cmd []
    return answers
  | .httpApi, cmd => do
    let answer ← HttpApi.handleDml cmd none
    return [answer]

/-! ## What the statements call

Between the lock and the commit a statement reads and writes rows, and calls nothing else. -/

open Program

variable {txn : UInt64} {table : Bytes} {cmd : Command}

theorem uses_scan : (scan txn table).Uses Call.OnRows := uses_perform trivial

theorem uses_put {key : Value} {row : Tuple} : (put txn table key row).Uses Call.OnRows :=
  uses_perform trivial

theorem uses_writeRows {write : Value → Exec DbError} (hwrite : ∀ k, (write k).Uses Call.OnRows)
    (keys : List Value) (any : Bool) : (writeRows write keys any).Uses Call.OnRows := by
  induction keys generalizing any with
  | nil => exact uses_pure _
  | cons k keys ih =>
    apply uses_bind (hwrite k)
    intro err
    split_ifs
    · exact ih true
    · exact uses_pure _

theorem uses_matchingKeys {predicate : Predicate} :
    (matchingKeys txn table predicate).Uses Call.OnRows :=
  uses_bind uses_scan fun _ => uses_pure _

/-- The shape of UPDATE and DELETE: the keys, the write loop, and a verdict. -/
theorem uses_updateRows {predicate : Predicate} {values : Tuple} :
    (updateRows txn table predicate values).Uses Call.OnRows := by
  apply uses_bind uses_matchingKeys
  intro keys
  apply uses_bind (uses_writeRows (fun k => uses_put) keys false)
  intro result
  dsimp only
  split_ifs <;> exact uses_pure _

theorem uses_deleteRows {predicate : Predicate} :
    (deleteRows txn table predicate).Uses Call.OnRows := by
  apply uses_bind uses_matchingKeys
  intro keys
  apply uses_bind (uses_writeRows (fun k => uses_perform trivial) keys false)
  intro result
  dsimp only
  split_ifs <;> exact uses_pure _

theorem uses_selectPlain : (selectPlain txn cmd).Uses Call.OnRows :=
  uses_bind uses_scan fun _ => uses_pure _

theorem uses_executeUpdate : (executeUpdate txn cmd).Uses Call.OnRows := by
  rw [executeUpdate]
  split
  · exact uses_pure _
  · exact uses_pure _
  · exact uses_bind uses_updateRows fun _ => uses_pure _

theorem uses_executeDelete : (executeDelete txn cmd).Uses Call.OnRows := by
  rw [executeDelete]
  split
  · exact uses_pure _
  · exact uses_bind uses_deleteRows fun _ => uses_pure _

theorem EngineLoop.uses_joinTables (joins : List JoinClause) (matched : List Tuple) :
    (EngineLoop.joinTables txn joins matched).Uses Call.OnRows := by
  induction joins generalizing matched with
  | nil => exact uses_pure _
  | cons jc joins ih =>
    apply uses_bind (uses_bind uses_scan fun _ => uses_pure _)
    intro rightRows
    exact ih _

theorem EngineLoop.uses_selectRows [StandardLibrary] :
    (EngineLoop.selectRows txn cmd).Uses Call.OnRows := by
  apply uses_bind _ fun _ => uses_pure _
  rw [EngineLoop.matchedRows]
  split_ifs
  · exact uses_bind uses_scan fun _ => uses_pure _
  · apply uses_bind (uses_bind uses_scan fun _ => uses_pure _)
    intro leftRows
    exact uses_bind (EngineLoop.uses_joinTables _ _) fun _ => uses_pure _

/-- Everything but an INSERT has a result, whatever the store reports. -/
theorem EngineLoop.spec_execute [StandardLibrary] (htype : cmd.type ≠ .insert) :
    (EngineLoop.execute txn cmd).Spec Call.OnRows fun r => r.1.isSome = true := by
  have hvalid := cmd.valid
  rw [EngineLoop.execute]
  cases hcmd : cmd.type with
  | select => exact uses_bind EngineLoop.uses_selectRows fun _ => spec_pure rfl
  | insert => exact absurd hcmd htype
  | update =>
    rw [hcmd] at hvalid
    obtain ⟨predicate, hpredicate⟩ := Option.isSome_iff_exists.1 hvalid.1
    obtain ⟨values, hvalues⟩ := Option.isSome_iff_exists.1 hvalid.2
    rw [hpredicate, hvalues]
    exact uses_bind uses_updateRows fun _ => spec_pure rfl
  | delete =>
    rw [hcmd] at hvalid
    obtain ⟨predicate, hpredicate⟩ := Option.isSome_iff_exists.1 hvalid.1
    rw [hpredicate]
    exact uses_bind uses_deleteRows fun _ => spec_pure rfl

theorem EngineDispatcher.uses_executeCaught :
    (EngineDispatcher.executeCaught txn cmd).Uses Call.OnRows := by
  apply spec_tryCatch
  · rw [EngineDispatcher.execute]
    cases cmd.type with
    | select => exact uses_bind uses_selectPlain fun _ => uses_pure _
    | insert =>
      dsimp only
      cases cmd.values with
      | none => exact spec_throw _
      | some row =>
        apply uses_bind uses_put
        intro err
        split_ifs <;> exact uses_pure _
    | update => exact uses_executeUpdate
    | delete => exact uses_executeDelete
  · intro fault
    cases fault with
    | runtimeError what => exact uses_pure _
    | _ => exact spec_throw _

theorem HttpApi.uses_insertedRow : (insertedRow cmd).Uses Call.OnRows := by
  unfold insertedRow
  dsimp only
  split_ifs
  · apply uses_bind (uses_perform trivial)
    intro schema
    cases schema <;> exact uses_pure _
  · exact uses_pure _

theorem HttpApi.uses_execute : (HttpApi.execute txn cmd).Uses Call.OnRows := by
  rw [HttpApi.execute]
  cases cmd.type with
  | select => exact uses_bind uses_selectPlain fun _ => uses_pure _
  | insert =>
    apply uses_bind HttpApi.uses_insertedRow
    intro row
    apply uses_bind uses_put
    intro err
    split_ifs <;> exact uses_pure _
  | update => exact uses_executeUpdate
  | delete => exact uses_executeDelete

/-! ## Statements that get their lock at once -/

variable [StandardLibrary]

section

variable {σ : Type} {P : StorageProvider σ} {s : Server σ}

/-- No deadlock is found for the new transaction and the lock of the table is free for it. -/
structure Startable (s : Server σ) (cmd : Command) : Prop where
  auto : cmd.txnId = none
  cycle : s.locks.detectCycle s.txns.beginTxn.1 = none
  grant : s.locks.grantable s.txns.beginTxn.1 (tableKey cmd.table) cmd.lockMode = true

/-- The server once the statement has its lock. -/
def Server.started (s : Server σ) (cmd : Command) : Server σ :=
  { s with
    txns := s.txns.beginTxn.2
    locks := s.locks.grant s.txns.beginTxn.1 (tableKey cmd.table) cmd.lockMode }

/-- The server once the transaction of the statement has begun. -/
def Server.begun (s : Server σ) : Server σ := { s with txns := s.txns.beginTxn.2 }

theorem Startable.run_detectCycle (h : Startable s cmd) :
    (detectCycle s.txns.beginTxn.1).run (Server.handle P) s.begun = some (.ok none s.begun) := by
  rw [Exec.run_detectCycle, show s.begun.locks.detectCycle _ = none from h.cycle]

theorem Startable.run_acquire (h : Startable s cmd) :
    (acquire s.txns.beginTxn.1 cmd.table cmd.lockMode).run (Server.handle P) s.begun =
      some (.ok () (s.started cmd)) :=
  Exec.run_acquire (s := s.begun) h.grant

theorem Startable.run_tryAcquire (h : Startable s cmd) :
    (tryAcquire s.txns.beginTxn.1 cmd.table cmd.lockMode).run (Server.handle P) s.begun =
      some (.ok .granted (s.started cmd)) :=
  Exec.run_tryAcquire_granted (s := s.begun) h.grant

theorem run_beginTxn_begun :
    beginTxn.run (Server.handle P) s = some (.ok s.txns.beginTxn.1 s.begun) := rfl

/-- The engine loop after the lock. -/
def EngineLoop.finish (txn : UInt64) (cmd : Command) : Exec Response := do
  let (result, error) ← EngineLoop.execute txn cmd
  let error ← EngineLoop.autoCommit txn result error
  return EngineLoop.answer result error

theorem EngineLoop.run_dispatch (h : Startable s cmd) :
    (EngineLoop.dispatch cmd).run (Server.handle P) s =
      (EngineLoop.finish s.txns.beginTxn.1 cmd).run (Server.handle P) (s.started cmd) := by
  rw [EngineLoop.dispatch]
  rw [run_bind_ok run_beginTxn_begun, h.auto]
  dsimp only [Option.getD_none]
  rw [run_bind_ok h.run_detectCycle]
  dsimp only
  rw [run_bind_ok h.run_acquire]
  rfl

/-- The dispatcher after the lock. -/
def EngineDispatcher.finish (txn : UInt64) (cmd : Command) : Exec (List Response) := do
  let answer ← EngineDispatcher.executeCaught txn cmd
  let more ← EngineDispatcher.autoCommit txn
  return answer :: more

theorem EngineDispatcher.run_runCommand {lockTimeout : Nat} (h : Startable s cmd) :
    (Executor.program (.dispatcher lockTimeout) cmd).run (Server.handle P) s =
      (EngineDispatcher.finish s.txns.beginTxn.1 cmd).run (Server.handle P) (s.started cmd) := by
  rw [Executor.program, EngineDispatcher.runCommand]
  rw [run_bind, run_bind_ok run_beginTxn_begun, h.auto]
  dsimp only [Option.getD_none]
  rw [run_bind_ok h.run_detectCycle]
  dsimp only
  rw [run_bind_ok h.run_tryAcquire]
  dsimp only
  rw [EngineDispatcher.finish]
  rw [run_bind, run_bind]
  rcases (EngineDispatcher.executeCaught s.txns.beginTxn.1 cmd).run (Server.handle P) (s.started cmd)
    with _ | (⟨answer, t⟩ | ⟨e, t⟩)
  · rfl
  · dsimp only
    rw [if_pos Option.isNone_none, run_bind, run_bind]
    rcases (EngineDispatcher.autoCommit s.txns.beginTxn.1).run (Server.handle P) t
      with _ | (⟨more, u⟩ | ⟨e, u⟩) <;> rfl
  · rfl

/-- The HTTP front end after the lock. -/
def HttpApi.finish (txn : UInt64) (cmd : Command) : Exec Response := do
  let answer ← HttpApi.execute txn cmd
  HttpApi.autoCommit txn answer

theorem HttpApi.run_handleDml (h : Startable s cmd) :
    (HttpApi.handleDml cmd none).run (Server.handle P) s =
      (HttpApi.finish s.txns.beginTxn.1 cmd).run (Server.handle P) (s.started cmd) := by
  unfold HttpApi.handleDml
  dsimp only
  rw [run_bind_ok run_beginTxn_begun, run_bind_ok h.run_detectCycle]
  dsimp only
  rw [run_bind_ok h.run_tryAcquire]
  rfl

end

end OpenDB
