import OpenDB.Core.ReferenceAnswers

/-!
# The database behind the HTTP front end

To clients that leave it to the server to commit their statements, the HTTP front end is a database of
plain tables with a catalog of schemas (`HttpDatabase`). The schemas are only looked at for the defaults
of a row without values, and a table does not need one; the rows are not touched by DDL. An UPDATE or
DELETE that finds no row is an error and takes no commit number, but every statement begins a
transaction, and a client that asks for a transaction sees how many have begun.

`http_refines` says of every parser and of every run of such requests, well formed or not, that the
answers are those of this database.
-/

set_option autoImplicit false

namespace OpenDB

open OpenDB.Library Exec Program InMemory

/-! ## The database -/

/-- The schemas of the tables. -/
abbrev Catalog := Bytes → Option Schema

namespace Catalog

def create (catalog : Catalog) (schema : Schema) : Except DbError Catalog :=
  if (catalog schema.table).isSome then .error (.tableExists schema.table)
  else
    match schema.columns.find? fun c => !accepts c.type with
    | some col => .error (.notSupported (ascii "column '" ++ col.name ++
        ascii "' type not accepted by in-memory provider"))
    | none => .ok (Function.update catalog schema.table (some schema))

def drop (catalog : Catalog) (name : Bytes) : Except DbError Catalog :=
  if (catalog name).isSome then .ok (Function.update catalog name none)
  else .error (.tableNotFound name)

/-- The schema of the table under another name, or with other columns. -/
def alter (catalog : Catalog) (name : Bytes) (spec : AlterSpec) : Except DbError Catalog :=
  match catalog name with
  | none => .error (.tableNotFound name)
  | some schema =>
    match spec with
    | .addColumn columnDef =>
      if (schema.find columnDef.name).isSome then
        .error (.internal (ascii "column '" ++ columnDef.name ++ ascii "' already exists"))
      else
        let columns := schema.columns ++ [columnDef]
        .ok (Function.update catalog name (some { schema with columns := columns }))
    | .dropColumn column =>
      if (schema.find column).isNone then
        .error (.notFound (ascii "column '" ++ column ++ ascii "' not found"))
      else
        let columns := schema.columns.eraseP fun c => c.name = column
        .ok (Function.update catalog name (some { schema with columns := columns }))
    | .renameTable newName =>
      if newName.isEmpty then .error (.internal (ascii "rename requires new name"))
      else if (catalog newName).isSome then .error (.tableExists newName)
      else
        .ok (Function.update (Function.update catalog name none) newName
          (some { schema with table := newName }))

end Catalog

/-- The tables, their schemas, and how many transactions have begun. -/
structure HttpDatabase where
  tables : Database
  catalog : Catalog
  begun : UInt64

namespace HttpDatabase

def empty : HttpDatabase := ⟨.empty, fun _ => none, 0⟩

/-- The row of an INSERT; one without values has the defaults of the table. -/
def insertedRow (db : HttpDatabase) (cmd : Command) : Tuple :=
  let row := cmd.values.getD .empty
  if row.isEmpty then ((db.catalog cmd.table).map HttpApi.defaultRow).getD row else row

/-- The command as it is run. -/
def effective (db : HttpDatabase) (cmd : Command) : Command :=
  if cmd.type = .insert then .insert cmd.table (db.insertedRow cmd) else cmd

def answer (db : HttpDatabase) (cmd : Command) : Response := db.tables.answer cmd

/-- One more transaction. -/
def begin (db : HttpDatabase) : HttpDatabase := { db with begun := db.begun + 1 }

/-- A statement that the server commits. -/
def execute (db : HttpDatabase) (cmd : Command) : Response × HttpDatabase :=
  (db.answer cmd, { db.begin with tables := db.tables.after (db.effective cmd) })

/-- A change of the catalog, or its error. -/
def withCatalog (db : HttpDatabase) : Except DbError Catalog → HttpResponse × HttpDatabase
  | .ok catalog => (.success, { db with catalog := catalog })
  | .error err => (HttpApi.refused err, db)

def statement (db : HttpDatabase) : SqlStatement → HttpResponse × HttpDatabase
  | .createTable schema => db.withCatalog (db.catalog.create schema)
  | .dropTable table => db.withCatalog (db.catalog.drop table)
  | .alterTable table spec => db.withCatalog (db.catalog.alter table spec)
  | .txnBegin => (.begun (db.begun + 1), db.begin)
  | .txnCommit => (HttpApi.refused (.notSupported (ascii "commit requires txnId")), db)
  | .txnRollback => (HttpApi.refused (.notSupported (ascii "rollback requires txnId")), db)
  | .command cmd => (.response (db.execute cmd).1, (db.execute cmd).2)

/-- A request that names no transaction. -/
def request (parseAll : SqlParser) (db : HttpDatabase) (req : JsonRequest) :
    HttpResponse × HttpDatabase :=
  if req.type = ascii "begin" then db.statement .txnBegin
  else if req.type = ascii "commit" then db.statement .txnCommit
  else if req.type = ascii "rollback" then db.statement .txnRollback
  else if req.type = ascii "query" then
    match parseAll req.sql with
    | ([], error) => (HttpApi.refused (.parseError error), db)
    | (stmt :: _, _) => db.statement stmt
  else (HttpApi.refused (.notSupported (ascii "unknown request type: " ++ req.type)), db)

/-- One request after the other. -/
def run (parseAll : SqlParser) : List JsonRequest → HttpDatabase → List HttpResponse × HttpDatabase
  | [], db => ([], db)
  | req :: reqs, db =>
    let (response, db) := db.request parseAll req
    let (responses, db) := run parseAll reqs db
    (response :: responses, db)

end HttpDatabase

/-- The requests of sequential clients. -/
def HttpApi.run (parseAll : SqlParser) : List JsonRequest → Exec (List HttpResponse)
  | [] => return []
  | req :: reqs => do
    let response ← HttpApi.executeRequest parseAll req
    let responses ← HttpApi.run parseAll reqs
    return response :: responses

/-! ## Values that can be placed -/

/-- A default for `_id` is no NaN. -/
def ColumnDef.Placeable (c : ColumnDef) : Prop :=
  c.name = idColumn → ∀ v ∈ c.defaultValue, v.isNaN = false

def Catalog.Placeable (catalog : Catalog) : Prop :=
  ∀ name, ∀ schema ∈ catalog name, ∀ c ∈ schema.columns, c.Placeable

/-- No `_id` that the statement may bring into a table is a NaN. -/
def SqlStatement.Placeable : SqlStatement → Prop
  | .createTable schema => ∀ c ∈ schema.columns, c.Placeable
  | .alterTable _ (.addColumn c) => c.Placeable
  | .command cmd => cmd.txnId = none ∧ cmd.Placeable
  | _ => True

/-- What holds between two requests. -/
structure Serves (s : Server InMemoryStore) (db : HttpDatabase) : Prop where
  tabulates : Tabulates s.store db.tables
  unstaged : ∀ u, u ≠ 0 → ∀ table, Unstaged s.store table u
  catalog : s.store.schemas.find = db.catalog
  defaults : db.catalog.Placeable
  locks : s.locks = .new
  begun : s.txns.nextId = db.begun
  numbers : s.txns.commitSeq.toNat ≤ db.begun.toNat

section

variable {s : Server InMemoryStore} {db : HttpDatabase} {cmd : Command} {txn u : UInt64}
  {table : Bytes} {parseAll : SqlParser}

theorem serves_new : Serves (Server.new InMemory.new) .empty where
  tabulates := tabulates_new
  unstaged _ _ _ _ _ hv := nomatch hv
  catalog := rfl
  defaults _ _ hschema := nomatch hschema
  locks := rfl
  begun := rfl
  numbers := le_rfl

/-! ## The row of an INSERT -/

/-- A value of the defaults is the default of a column. -/
theorem exists_default_of_defaultRow {schema : Schema} {name : Bytes} {v : Value}
    (h : v ∈ (HttpApi.defaultRow schema).maybeGet name) :
    ∃ c ∈ schema.columns, c.name = name ∧ v ∈ c.defaultValue := by
  have hfold : v ∈ Tuple.empty.maybeGet name ∨
      ∃ c ∈ schema.columns, c.name = name ∧ v ∈ c.defaultValue := by
    unfold HttpApi.defaultRow at h
    generalize Tuple.empty = row at h ⊢
    generalize schema.columns = columns at h ⊢
    induction columns generalizing row with
    | nil => exact Or.inl h
    | cons c columns ih =>
      rcases ih _ h with hv | ⟨c', hc', hdefault⟩
      · dsimp only at hv
        cases hdefault : c.defaultValue with
        | none =>
          rw [hdefault] at hv
          exact Or.inl hv
        | some w =>
          rw [hdefault] at hv
          dsimp only at hv
          rw [Tuple.maybeGet_set] at hv
          -- a column that is set hides what was there before
          split_ifs at hv with hname
          · refine Or.inr ⟨c, List.mem_cons_self, hname, ?_⟩
            rw [hdefault]
            exact hv
          · exact Or.inl hv
      · exact Or.inr ⟨c', List.mem_cons_of_mem _ hc', hdefault⟩
  rcases hfold with hv | hc
  · cases hv
  · exact hc

theorem Serves.placeable_effective (h : Serves s db) (hcmd : cmd.Placeable) :
    (db.effective cmd).Placeable := by
  unfold HttpDatabase.effective
  split_ifs with htype
  · rintro - row hrow id hid
    cases hrow
    have hvalues := hcmd.values htype
    unfold HttpDatabase.insertedRow at hid
    dsimp only at hid
    split_ifs at hid
    · cases hschema : db.catalog cmd.table with
      | none =>
        rw [hschema] at hid
        exact hvalues id hid
      | some schema =>
        rw [hschema] at hid
        obtain ⟨c, hc, hname, hdefault⟩ := exists_default_of_defaultRow hid
        exact h.defaults cmd.table schema hschema c hc hname id hdefault
    · exact hvalues id hid
  · exact hcmd

theorem Serves.run_insertedRow [StandardLibrary] (h : Serves s db) :
    (HttpApi.insertedRow cmd).run (Server.handle InMemory.provider) (s.started cmd) =
      some (.ok (db.insertedRow cmd) (s.started cmd)) := by
  have hdescribe : (describeTable cmd.table).run (Server.handle InMemory.provider) (s.started cmd) =
      some (.ok (db.catalog cmd.table) (s.started cmd)) := by
    rw [← h.catalog]
    rfl
  unfold HttpApi.insertedRow HttpDatabase.insertedRow
  dsimp only
  split_ifs
  · rw [run_bind_ok hdescribe]
    cases db.catalog cmd.table <;> rfl
  · rfl

/-! ## A statement -/

theorem HttpDatabase.effective_of_ne (db : HttpDatabase) (htype : cmd.type ≠ .insert) :
    db.effective cmd = cmd := if_neg htype

/-- The writes of a statement are those of the command as it is run, and the answer is that of the
database. -/
theorem Serves.run_execute [StandardLibrary] (h : Serves s db) (htxn : txn ≠ 0)
    {t : Server InMemoryStore} (ht : t = s.started cmd) :
    (HttpApi.execute txn cmd).run (Server.handle InMemory.provider) t =
      some (.ok (db.answer cmd) { t with store := written txn (db.effective cmd) s.store }) := by
  subst ht
  have htabulates : Tabulates (s.started cmd).store db.tables := h.tabulates
  unfold HttpApi.execute
  cases htype : cmd.type with
  | select =>
    rw [db.effective_of_ne (by rw [htype]; decide)]
    exact htabulates.run_select htxn htype
  | insert =>
    dsimp only
    rw [run_bind_ok h.run_insertedRow, HttpDatabase.effective, if_pos htype, HttpDatabase.answer,
      Database.answer, htype]
    rfl
  | update =>
    rw [db.effective_of_ne (by rw [htype]; decide)]
    exact htabulates.run_executeUpdate htxn htype
  | delete =>
    rw [db.effective_of_ne (by rw [htype]; decide)]
    exact htabulates.run_executeDelete htxn htype

/-! ## The commit of a statement -/

/-- The writes of a committed transaction are staged no more. -/
theorem Unstaged.commit {store store' : InMemoryStore} {t : Bytes} {seq : UInt64}
    (hunstaged : Unstaged store table u) (hkeyed : KeyedStore store) (hw : Writes txn t store store')
    (hseq : seq ≠ 0) : Unstaged (InMemory.commit txn seq store') table u := by
  intro r v hv
  rw [rowsOf_commit, chainAt_stampRows] at hv
  obtain ⟨w, hmem, rfl⟩ := List.mem_map.1 hv
  rw [Bool.eq_false_iff]
  intro hstaged
  rcases commitSeq_stamp txn w seq with ⟨-, hcommit⟩ | ⟨hnot, -⟩
  · exact hseq (hcommit.symm.trans (isStagedBy_iff.1 hstaged).2)
  · rw [stamp, hnot, if_neg Bool.false_ne_true] at hstaged
    -- a version that the commit has left alone is from before
    rcases hw.staged hkeyed hmem with hold | hown
    · rw [hunstaged r w hold] at hstaged
      cases hstaged
    · rw [isStagedBy_iff.2 ⟨hown, (isStagedBy_iff.1 hstaged).2⟩] at hnot
      cases hnot

theorem InMemory.Writes.schemas_eq {store store' : InMemoryStore} (hw : Writes txn table store store') :
    store'.schemas = store.schemas := by
  induction hw with
  | refl => rfl
  | tail _ hlast ih =>
    obtain ⟨key, v, ids, -, -, -, -, rfl⟩ := hlast
    exact ih

/-- A statement that writes nothing changes nothing. -/
theorem Tabulates.of_written_eq {store : InMemoryStore} {tables : Database} (h : Tabulates store tables)
    (hcmd : cmd.Placeable) (htxn : txn ≠ 0) (hsame : written txn cmd store = store) :
    Tabulates store (tables.after cmd) := by
  refine ⟨h.keyed, fun u hu table r => ?_, fun table => ?_⟩
  · have hrow := h.rowAt_written hcmd htxn table r
    rw [hsame] at hrow
    rw [← hrow, h.rows u hu, h.rows txn htxn]
  · have hcounter : counter (written txn cmd store) table = (tables.after cmd).numbers table :=
      h.counter_written table
    rw [hsame] at hcounter
    exact hcounter

/-- An error means that there was nothing to write. -/
theorem Serves.written_of_error (h : Serves s db) (htxn : txn ≠ 0) {err : DbError}
    (herror : db.answer cmd = .error err) :
    db.effective cmd = cmd ∧ written txn cmd s.store = s.store := by
  obtain ⟨htype, hwritten⟩ := h.tabulates.written_of_error htxn herror
  exact ⟨db.effective_of_ne htype, hwritten⟩

/-- The lock is free, and nobody waits. -/
theorem Serves.startable [StandardLibrary] (h : Serves s db) (hauto : cmd.txnId = none) :
    Startable s cmd := by
  refine ⟨hauto, ?_, ?_⟩
  · apply LockManager.detectCycle_of_not_waiting
    rw [h.locks]
    intro e he
    cases he
  · rw [h.locks]
    rfl

theorem Serves.beginTxn_ne_zero (h : Serves s db) (hbegun : db.begun.toNat + 1 < 2 ^ 64) :
    s.txns.beginTxn.1 ≠ 0 := by
  show s.txns.nextId + 1 ≠ 0
  rw [h.begun]
  exact succ_ne_zero hbegun

/-- The lock is gone, and the store is that of a statement that the transaction manager has counted. -/
theorem Serves.afterStatement (h : Serves s db) (hbegun : db.begun.toNat + 1 < 2 ^ 64)
    {store : InMemoryStore} {txns : TransactionManager}
    (htabulates : Tabulates store (db.tables.after (db.effective cmd)))
    (hunstaged : ∀ u, u ≠ 0 → ∀ table, Unstaged store table u)
    (hschemas : store.schemas = s.store.schemas) (hbegins : txns.nextId = s.txns.nextId + 1)
    (hcommits : txns.commitSeq.toNat ≤ s.txns.commitSeq.toNat + 1) :
    Serves ⟨store, txns, (s.started cmd).locks.release s.txns.beginTxn.1⟩ (db.execute cmd).2 where
  tabulates := htabulates
  unstaged := hunstaged
  catalog := by
    rw [hschemas]
    exact h.catalog
  defaults := h.defaults
  locks := by
    show (s.locks.grant _ _ _).release _ = _
    rw [h.locks]
    exact LockManager.release_grant_new _ _ _
  begun := hbegins.trans (congrArg (· + 1) h.begun)
  numbers := by
    show _ ≤ (db.begun + 1).toNat
    rw [toNat_succ hbegun]
    exact hcommits.trans (Nat.succ_le_succ h.numbers)

/-- A statement is answered as by the database, and leaves the server with what it makes of it. -/
theorem Serves.handleDml [StandardLibrary] (h : Serves s db) (hauto : cmd.txnId = none)
    (hcmd : cmd.Placeable) (hbegun : db.begun.toNat + 1 < 2 ^ 64) :
    ∃ s', (HttpApi.handleDml cmd none).run (Server.handle InMemory.provider) s =
        some (.ok (db.execute cmd).1 s') ∧ Serves s' (db.execute cmd).2 := by
  have htxn := h.beginTxn_ne_zero hbegun
  have heffective := h.placeable_effective hcmd
  obtain ⟨hseq, hnext⟩ := TransactionManager.commitTxn_beginTxn s.txns
  have hfits : s.txns.commitSeq.toNat + 1 < 2 ^ 64 :=
    Nat.lt_of_le_of_lt (Nat.succ_le_succ h.numbers) hbegun
  rw [HttpApi.run_handleDml (h.startable hauto), HttpApi.finish,
    run_bind_ok (h.run_execute htxn rfl)]
  rw [show (db.execute cmd).1 = db.answer cmd from rfl]
  cases hanswer : db.answer cmd with
  | result rs =>
    have hnumber : s.nextSeq ≠ 0 := succ_ne_zero hfits
    have hw : Writes s.txns.beginTxn.1 (db.effective cmd).table s.store
        (written s.txns.beginTxn.1 (db.effective cmd) s.store) :=
      writes_written h.tabulates.keyed heffective
    refine ⟨_, HttpApi.run_autoCommit_committed (t := { s.started cmd with
      store := written s.txns.beginTxn.1 (db.effective cmd) s.store }) (committed_nextSeq s cmd _), ?_⟩
    refine h.afterStatement hbegun ?_ ?_ ?_ hnext ?_
    · exact h.tabulates.commit h.unstaged heffective htxn hnumber
    · exact fun u hu table => Unstaged.commit (h.unstaged u hu table) h.tabulates.keyed hw hnumber
    · exact hw.schemas_eq
    · exact (congrArg UInt64.toNat hseq).le.trans (toNat_succ hfits).le
  | error err =>
    -- there was nothing to write, and only the lock goes
    obtain ⟨hsame, hwritten⟩ := h.written_of_error htxn hanswer
    rw [hsame, hwritten]
    have hafter : Serves ⟨s.store, s.txns.beginTxn.2, (s.started cmd).locks.release s.txns.beginTxn.1⟩
        (db.execute cmd).2 := by
      refine h.afterStatement hbegun ?_ h.unstaged rfl rfl (Nat.le_succ _)
      rw [hsame]
      exact h.tabulates.of_written_eq hcmd htxn hwritten
    exact ⟨_, rfl, hafter⟩

/-! ## The catalog -/

section

variable {m : AssocMap Bytes Schema} {catalog : Catalog} {name : Bytes} {schema : Schema}

theorem find_assign_eq (hm : m.find = catalog) (name : Bytes) (schema : Schema) :
    (m.assign name schema).find = Function.update catalog name (some schema) := by
  funext other
  by_cases hother : other = name
  · rw [hother, AssocMap.find_assign_self, Function.update_self]
  · rw [AssocMap.find_assign_of_ne _ _ hother, Function.update_of_ne hother, hm]

theorem find_erase_eq (hm : m.find = catalog) (name : Bytes) :
    (m.erase name).find = Function.update catalog name none := by
  funext other
  by_cases hother : other = name
  · rw [hother, AssocMap.find_erase_self, Function.update_self]
  · rw [AssocMap.find_erase_of_ne _ hother, Function.update_of_ne hother, hm]

/-- What a DDL call returns is what comes of the catalog, and it changes the schemas alone. -/
def Follows (call : DbError × InMemoryStore) (store : InMemoryStore) : Except DbError Catalog → Prop
  | .ok catalog => ∃ schemas, call = (.sentinel, { store with schemas := schemas }) ∧
      schemas.find = catalog
  | .error err => call = (err, store) ∧ err.isSentinel = false

theorem follows_create {store : InMemoryStore} (h : store.schemas.find = catalog) (schema : Schema) :
    Follows (InMemory.createTable schema store) store (catalog.create schema) := by
  unfold InMemory.createTable Catalog.create
  rw [h]
  split_ifs
  · exact ⟨rfl, rfl⟩
  · cases schema.columns.find? fun c => !accepts c.type with
    | some col => exact ⟨rfl, rfl⟩
    | none => exact ⟨_, rfl, find_assign_eq h _ _⟩

theorem follows_drop {store : InMemoryStore} (h : store.schemas.find = catalog) (name : Bytes) :
    Follows (InMemory.dropTable name store) store (catalog.drop name) := by
  unfold InMemory.dropTable Catalog.drop
  rw [h]
  split_ifs
  · exact ⟨_, rfl, find_erase_eq h _⟩
  · exact ⟨rfl, rfl⟩

theorem follows_alter {store : InMemoryStore} (h : store.schemas.find = catalog) (name : Bytes)
    (spec : AlterSpec) : Follows (InMemory.alterTable name spec store) store (catalog.alter name spec) := by
  unfold InMemory.alterTable Catalog.alter
  rw [h]
  cases catalog name with
  | none => exact ⟨rfl, rfl⟩
  | some schema =>
    cases spec with
    | addColumn columnDef =>
      dsimp only
      split_ifs
      · exact ⟨rfl, rfl⟩
      · exact ⟨_, rfl, find_assign_eq h _ _⟩
    | dropColumn column =>
      dsimp only
      split_ifs
      · exact ⟨rfl, rfl⟩
      · exact ⟨_, rfl, find_assign_eq h _ _⟩
    | renameTable newName =>
      dsimp only
      split_ifs
      · exact ⟨rfl, rfl⟩
      · exact ⟨rfl, rfl⟩
      · exact ⟨_, rfl, find_assign_eq (find_erase_eq h _) _ _⟩

theorem Catalog.Placeable.update (h : catalog.Placeable) {entry : Option Schema}
    (hentry : ∀ schema ∈ entry, ∀ c ∈ schema.columns, c.Placeable) :
    Catalog.Placeable (Function.update catalog name entry) := by
  intro other schema hschema
  by_cases hother : other = name
  · rw [hother, Function.update_self] at hschema
    exact hentry schema hschema
  · rw [Function.update_of_ne hother] at hschema
    exact h other schema hschema

/-- A table that is there has placeable defaults. -/
theorem Catalog.Placeable.assign (h : catalog.Placeable)
    (hcolumns : ∀ c ∈ schema.columns, c.Placeable) :
    Catalog.Placeable (Function.update catalog name (some schema)) := by
  refine h.update fun other hother => ?_
  cases hother
  exact hcolumns

theorem Catalog.Placeable.erase (h : catalog.Placeable) (name : Bytes) :
    Catalog.Placeable (Function.update catalog name none) :=
  h.update fun _ hschema => nomatch hschema

theorem Catalog.Placeable.create (h : catalog.Placeable)
    (hcolumns : ∀ c ∈ schema.columns, c.Placeable) {after : Catalog}
    (hafter : catalog.create schema = .ok after) : after.Placeable := by
  unfold Catalog.create at hafter
  split_ifs at hafter
  split at hafter
  · cases hafter
  · cases hafter
    exact h.assign hcolumns

theorem Catalog.Placeable.drop (h : catalog.Placeable) {after : Catalog}
    (hafter : catalog.drop name = .ok after) : after.Placeable := by
  unfold Catalog.drop at hafter
  split_ifs at hafter
  cases hafter
  exact h.erase name

/-- Only a new column brings a default. -/
theorem Catalog.Placeable.alter (h : catalog.Placeable) {spec : AlterSpec}
    (hspec : (SqlStatement.alterTable name spec).Placeable) {after : Catalog}
    (hafter : catalog.alter name spec = .ok after) : after.Placeable := by
  unfold Catalog.alter at hafter
  cases hschema : catalog name with
  | none =>
    rw [hschema] at hafter
    cases hafter
  | some schema =>
    rw [hschema] at hafter
    have hcolumns := h name schema hschema
    cases spec with
    | addColumn columnDef =>
      dsimp only at hafter
      split_ifs at hafter
      cases hafter
      refine h.assign fun c hc => ?_
      rcases List.mem_append.1 hc with hc | hc
      · exact hcolumns c hc
      · rw [List.mem_singleton.1 hc]
        exact hspec
    | dropColumn column =>
      dsimp only at hafter
      split_ifs at hafter
      cases hafter
      exact h.assign fun c hc => hcolumns c (List.mem_of_mem_eraseP hc)
    | renameTable newName =>
      dsimp only at hafter
      split_ifs at hafter
      cases hafter
      exact (h.erase name).assign hcolumns

end

theorem Tabulates.withSchemas {store : InMemoryStore} {tables : Database} (h : Tabulates store tables)
    (schemas : AssocMap Bytes Schema) : Tabulates { store with schemas := schemas } tables :=
  ⟨⟨h.keyed.ordered, h.keyed.stamped, h.keyed.keyed⟩, h.rows, h.numbers⟩

/-- A statement begins at most one transaction. -/
theorem HttpDatabase.begun_statement (db : HttpDatabase) (stmt : SqlStatement)
    (hbegun : db.begun.toNat + 1 < 2 ^ 64) :
    (db.statement stmt).2.begun.toNat ≤ db.begun.toNat + 1 := by
  have hcatalog : ∀ change, (db.withCatalog change).2.begun.toNat ≤ db.begun.toNat + 1 := by
    intro change
    cases change <;> exact Nat.le_succ _
  have hnext : db.begin.begun.toNat ≤ db.begun.toNat + 1 := (toNat_succ hbegun).le
  cases stmt with
  | createTable schema => exact hcatalog _
  | dropTable table => exact hcatalog _
  | alterTable table spec => exact hcatalog _
  | txnBegin => exact hnext
  | txnCommit => exact Nat.le_succ _
  | txnRollback => exact Nat.le_succ _
  | command cmd => exact hnext

theorem HttpDatabase.begun_request (db : HttpDatabase) (req : JsonRequest)
    (hbegun : db.begun.toNat + 1 < 2 ^ 64) :
    (db.request parseAll req).2.begun.toNat ≤ db.begun.toNat + 1 := by
  unfold HttpDatabase.request
  split_ifs
  · exact db.begun_statement _ hbegun
  · exact db.begun_statement _ hbegun
  · exact db.begun_statement _ hbegun
  · rcases parseAll req.sql with ⟨stmts, error⟩
    cases stmts with
    | nil => exact Nat.le_succ _
    | cons stmt stmts => exact db.begun_statement stmt hbegun
  · exact Nat.le_succ _

variable [StandardLibrary]

/-- A DDL statement. -/
theorem Serves.ddl (h : Serves s db) {call : Exec DbError} {f : InMemoryStore → DbError × InMemoryStore}
    (hcall : call.run (Server.handle InMemory.provider) s =
      some (.ok (f s.store).1 { s with store := (f s.store).2 }))
    {change : Except DbError Catalog} (hfollows : Follows (f s.store) s.store change)
    (hplaceable : ∀ after, change = .ok after → after.Placeable) :
    ∃ s', (call >>= fun err => return HttpApi.ofError err).run (Server.handle InMemory.provider) s =
        some (.ok (db.withCatalog change).1 s') ∧ Serves s' (db.withCatalog change).2 := by
  rw [run_bind_ok hcall]
  cases change with
  | ok catalog =>
    obtain ⟨schemas, hresult, hfind⟩ := hfollows
    rw [hresult]
    exact ⟨_, rfl, h.tabulates.withSchemas schemas, h.unstaged, hfind, hplaceable catalog rfl, h.locks,
      h.begun, h.numbers⟩
  | error err =>
    obtain ⟨hresult, herr⟩ := hfollows
    rw [hresult, HttpApi.ofError, herr]
    exact ⟨s, rfl, h⟩

/-! ## Requests -/

/-- A client asks for a transaction. -/
theorem Serves.beginRequest (h : Serves s db) (hbegun : db.begun.toNat + 1 < 2 ^ 64) :
    ∃ s', HttpApi.beginRequest.run (Server.handle InMemory.provider) s =
        some (.ok (db.statement .txnBegin).1 s') ∧ Serves s' (db.statement .txnBegin).2 := by
  have hanswer : (db.statement .txnBegin).1 = .begun s.txns.beginTxn.1 :=
    congrArg (fun n => HttpResponse.begun (n + 1)) h.begun.symm
  rw [hanswer]
  refine ⟨{ s with txns := s.txns.beginTxn.2 }, rfl, h.tabulates, h.unstaged, h.catalog, h.defaults,
    h.locks, congrArg (· + 1) h.begun, ?_⟩
  show s.txns.commitSeq.toNat ≤ (db.begun + 1).toNat
  rw [toNat_succ hbegun]
  exact Nat.le_succ_of_le h.numbers

theorem Serves.statement (h : Serves s db) {stmt : SqlStatement} (hstmt : stmt.Placeable)
    (hbegun : db.begun.toNat + 1 < 2 ^ 64) :
    ∃ s', (HttpApi.executeStatement none stmt).run (Server.handle InMemory.provider) s =
        some (.ok (db.statement stmt).1 s') ∧ Serves s' (db.statement stmt).2 := by
  cases stmt with
  | createTable schema =>
    exact h.ddl rfl (follows_create h.catalog schema) fun _ => h.defaults.create hstmt
  | dropTable table => exact h.ddl rfl (follows_drop h.catalog table) fun _ => h.defaults.drop
  | alterTable table spec =>
    exact h.ddl rfl (follows_alter h.catalog table spec) fun _ => h.defaults.alter hstmt
  | txnBegin => exact h.beginRequest hbegun
  | txnCommit => exact ⟨s, rfl, h⟩
  | txnRollback => exact ⟨s, rfl, h⟩
  | command cmd =>
    obtain ⟨s', hrun, hs'⟩ := h.handleDml hstmt.1 hstmt.2 hbegun
    exact ⟨s', run_bind_ok hrun, hs'⟩

/-- No transaction is named, and what the request brings into the tables can be placed. -/
def JsonRequest.Placeable (parseAll : SqlParser) (req : JsonRequest) : Prop :=
  req.txnId = none ∧ ∀ stmt ∈ (parseAll req.sql).1.head?, stmt.Placeable

/-- A request is answered as by the database, and leaves the server with what it makes of it. -/
theorem Serves.request (h : Serves s db) {req : JsonRequest} (hreq : req.Placeable parseAll)
    (hbegun : db.begun.toNat + 1 < 2 ^ 64) :
    ∃ s', (HttpApi.executeRequest parseAll req).run (Server.handle InMemory.provider) s =
        some (.ok (db.request parseAll req).1 s') ∧ Serves s' (db.request parseAll req).2 := by
  obtain ⟨htxn, hplaceable⟩ := hreq
  unfold HttpApi.executeRequest HttpDatabase.request
  rw [htxn]
  split_ifs
  · exact h.beginRequest hbegun
  · exact ⟨s, rfl, h⟩
  · exact ⟨s, rfl, h⟩
  · -- only the first statement of a query runs
    rcases hparse : parseAll req.sql with ⟨stmts, error⟩
    rw [hparse] at hplaceable
    cases stmts with
    | nil => exact ⟨s, rfl, h⟩
    | cons stmt stmts => exact h.statement (hplaceable stmt rfl) hbegun
  · exact ⟨s, rfl, h⟩

/-- A run of requests. -/
theorem Serves.run (h : Serves s db) {reqs : List JsonRequest}
    (hreqs : ∀ req ∈ reqs, req.Placeable parseAll) (hcount : db.begun.toNat + reqs.length < 2 ^ 64) :
    ∃ s', (HttpApi.run parseAll reqs).run (Server.handle InMemory.provider) s =
        some (.ok (HttpDatabase.run parseAll reqs db).1 s') ∧
      Serves s' (HttpDatabase.run parseAll reqs db).2 := by
  induction reqs generalizing s db with
  | nil => exact ⟨s, rfl, h⟩
  | cons req reqs ih =>
    rw [List.length_cons] at hcount
    have hbegun : db.begun.toNat + 1 < 2 ^ 64 := by omega
    obtain ⟨s₁, hrequest, hs₁⟩ := h.request (hreqs req List.mem_cons_self) hbegun
    have hnumber : (db.request parseAll req).2.begun.toNat ≤ db.begun.toNat + 1 :=
      db.begun_request req hbegun
    obtain ⟨s', hrun, hs'⟩ := ih hs₁ (fun r hr => hreqs r (List.mem_cons_of_mem _ hr)) (by omega)
    refine ⟨s', ?_, hs'⟩
    rw [HttpApi.run, run_bind_ok hrequest, run_bind_ok hrun]
    rfl

end

/-- Over any run of requests that name no transaction, the answers are those of a database of plain
tables with a catalog, and the server ends with its rows and its schemas. -/
theorem http_refines [StandardLibrary] (parseAll : SqlParser) {reqs : List JsonRequest}
    (hreqs : ∀ req ∈ reqs, req.Placeable parseAll) (hcount : reqs.length < 2 ^ 64) :
    ∃ s, (HttpApi.run parseAll reqs).run (Server.handle InMemory.provider) (Server.new InMemory.new) =
        some (.ok (HttpDatabase.run parseAll reqs .empty).1 s) ∧
      (∀ u, u ≠ 0 → ∀ table, scan u table s.store =
        ((HttpDatabase.run parseAll reqs .empty).2.tables.tables table).rows) ∧
      s.store.schemas.find = (HttpDatabase.run parseAll reqs .empty).2.catalog := by
  obtain ⟨s, hrun, hs⟩ := serves_new.run hreqs (by
    show 0 + reqs.length < 2 ^ 64
    omega)
  exact ⟨s, hrun, fun u hu table => hs.tabulates.scan_eq hu table, hs.catalog⟩

/-- A table whose only column has a default. -/
def shelfSchema : Schema :=
  ⟨ascii "shelf", [⟨ascii "v", .int64, true, false, 0, .empty, some (.int64 7)⟩], none⟩

/-- Words that stand for statements. -/
def shelfWords : List (Bytes × SqlStatement) :=
  [(ascii "create", .createTable shelfSchema),
    (ascii "insert", .command (.insert (ascii "shelf") .empty)),
    (ascii "delete", .command (.delete (ascii "shelf") (valueIs 0))),
    (ascii "rename", .alterTable (ascii "shelf") (.renameTable (ascii "board"))),
    (ascii "select", .command (.select (ascii "shelf") none))]

def shelfParser : SqlParser := fun text =>
  match shelfWords.lookup text with
  | some stmt => ([stmt], [])
  | none => ([], ascii "unknown word")

/-- A row gets the default and a number, and it stays under the old name when the table has a new one. -/
def shelfRequests : List JsonRequest :=
  [⟨ascii "query", ascii "create", none⟩, ⟨ascii "query", ascii "insert", none⟩,
    ⟨ascii "query", ascii "delete", none⟩, ⟨ascii "begin", [], none⟩,
    ⟨ascii "query", ascii "rename", none⟩, ⟨ascii "query", ascii "select", none⟩,
    ⟨ascii "query", ascii "drop", none⟩]

theorem shelfRequests_refine :
    (HttpDatabase.run shelfParser shelfRequests .empty).1 =
      [.success, .response (.result noRows),
        .response (.error (.notFound (ascii "no matching rows to delete"))), .begun 3, .success,
        .response (.result ⟨true, [(Tuple.empty.set (ascii "v") (.int64 7)).set idColumn (.int64 1)]⟩),
        .response (.error (.parseError (ascii "unknown word")))] ∧
    ∃ s, (HttpApi.run shelfParser shelfRequests).run (Server.handle InMemory.provider)
        (Server.new InMemory.new) =
          some (.ok (HttpDatabase.run shelfParser shelfRequests .empty).1 s) ∧
      (∀ u, u ≠ 0 → ∀ table, scan u table s.store =
        ((HttpDatabase.run shelfParser shelfRequests .empty).2.tables.tables table).rows) ∧
      s.store.schemas.find = (HttpDatabase.run shelfParser shelfRequests .empty).2.catalog := by
  have hshelf : ∀ e ∈ shelfWords, e.2.Placeable := by
    intro e he
    simp only [shelfWords, List.mem_cons, List.not_mem_nil, or_false] at he
    rcases he with rfl | rfl | rfl | rfl | rfl
    · intro c hc hname v hv
      rw [List.mem_singleton.1 hc] at hv
      cases hv
      rfl
    · exact ⟨rfl, (autoCommitWrite_insert (ReplSource.allPlaceable_empty idColumn)).number⟩
    · exact ⟨rfl, Command.placeable_of_ne nofun⟩
    · trivial
    · exact ⟨rfl, Command.placeable_of_ne nofun⟩
  have hparsed : ∀ text, ∀ stmt ∈ (shelfParser text).1.head?, stmt.Placeable := by
    intro text stmt hstmt
    unfold shelfParser at hstmt
    cases hlookup : shelfWords.lookup text with
    | none =>
      rw [hlookup] at hstmt
      cases hstmt
    | some found =>
      rw [hlookup] at hstmt
      cases hstmt
      obtain ⟨before, behind, hsplit, -⟩ := List.lookup_eq_some_iff.1 hlookup
      apply hshelf (text, stmt)
      rw [hsplit]
      exact List.mem_append_right _ List.mem_cons_self
  refine ⟨by decide +kernel,
    http_refines shelfParser (fun req hreq => ⟨?_, hparsed req.sql⟩) (by decide)⟩
  simp only [shelfRequests, List.mem_cons, List.not_mem_nil, or_false] at hreq
  rcases hreq with rfl | rfl | rfl | rfl | rfl | rfl | rfl <;> rfl

end OpenDB
