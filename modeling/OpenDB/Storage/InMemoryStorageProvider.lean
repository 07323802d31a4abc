import OpenDB.Core.Services

/-!
# The in-memory store

Every key of a table has a chain of versions, oldest first; a write appends a staged version, a
commit stamps the staged versions of its transaction, and an abort removes them. A reader sees the
newest version of a chain that is visible to it. The provider keeps the schemas beside the engine;
its DDL does not touch the rows.
-/

set_option autoImplicit false

namespace OpenDB

open OpenDB.Library

namespace InMemory

/-- A version of a row; it is staged as long as its sequence number is zero. -/
structure Version where
  commitSeq : UInt64
  txnId : UInt64
  payload : Tuple
  tombstone : Bool
  deriving DecidableEq

/-- The rows of a table in the order of their keys. -/
abbrev Rows := List (Value × List Version)

end InMemory

open InMemory

/-- `InMemoryStorageEngine` and the schemas of its provider. -/
structure InMemoryStore where
  tables : AssocMap Bytes Rows
  autoId : AssocMap Bytes UInt64
  visibleSeq : UInt64
  schemas : AssocMap Bytes Schema
  deriving DecidableEq

namespace InMemory

def new : InMemoryStore := ⟨.empty, .empty, 0, .empty⟩

/-! ## Version chains -/

/-- `isVisibleUnlocked`. -/
def isVisible (visibleSeq txn : UInt64) (v : Version) : Bool :=
  if v.commitSeq = 0 then v.txnId = txn else v.commitSeq ≤ visibleSeq

/-- The row a chain shows: its newest visible version, unless that is a tombstone. -/
def visibleRow (visibleSeq txn : UInt64) (versions : List Version) : Option Tuple :=
  match versions.reverse.find? (isVisible visibleSeq txn) with
  | none => none
  | some v => if v.tombstone then none else some v.payload

/-- `rows[key].push_back(v)`: a `std::map` finds a key by the order of values. -/
def pushVersion (key : Value) (v : Version) : Rows → Rows
  | [] => [(key, [v])]
  | e :: rows =>
    if key.operatorLt e.1 then (key, [v]) :: e :: rows
    else if e.1.operatorLt key then e :: pushVersion key v rows
    else (e.1, e.2 ++ [v]) :: rows

/-- A version written by the transaction and not yet committed. -/
def isStagedBy (txn : UInt64) (v : Version) : Bool := v.txnId == txn && v.commitSeq == 0

def stamp (txn seq : UInt64) (v : Version) : Version :=
  if isStagedBy txn v then { v with commitSeq := seq } else v

def stampRows (txn seq : UInt64) (rows : Rows) : Rows :=
  rows.map fun e => (e.1, e.2.map (stamp txn seq))

/-- The rows without the staged versions of a transaction, and without the keys that have no version
left. -/
def unstageRows (txn : UInt64) (rows : Rows) : Rows :=
  (rows.map fun e => (e.1, e.2.filter fun v => !isStagedBy txn v)).filter fun e => !e.2.isEmpty

/-! ## The engine -/

def rowsOf (s : InMemoryStore) (table : Bytes) : Rows := (s.tables.find table).getD []

/-- `scan`. -/
def scan (txn : UInt64) (table : Bytes) (s : InMemoryStore) : List Tuple :=
  (rowsOf s table).filterMap fun e => visibleRow s.visibleSeq txn e.2

def pushRow (table : Bytes) (key : Value) (v : Version) (s : InMemoryStore) : InMemoryStore :=
  { s with tables := s.tables.assign table (pushVersion key v (rowsOf s table)) }

/-- `put`; a null key is replaced by the next number of the table. -/
def put (txn : UInt64) (table : Bytes) (key : Value) (row : Tuple) (s : InMemoryStore) :
    InMemoryStore :=
  if key.isNull then
    let next := (s.autoId.find table).getD 0 + 1
    let key := Value.int64 next.toInt64
    pushRow table key ⟨0, txn, row.set (ascii "_id") key, false⟩
      { s with autoId := s.autoId.assign table next }
  else pushRow table key ⟨0, txn, row, false⟩ s

/-- `remove`. -/
def remove (txn : UInt64) (table : Bytes) (key : Value) (s : InMemoryStore) : InMemoryStore :=
  pushRow table key ⟨0, txn, .empty, true⟩ s

/-- `commit`. -/
def commit (txn seq : UInt64) (s : InMemoryStore) : InMemoryStore :=
  { s with tables := s.tables.mapValues (stampRows txn seq), visibleSeq := max s.visibleSeq seq }

/-- The table after an abort; one without rows is dropped. -/
def unstageTable (txn : UInt64) (rows : Rows) : Option Rows :=
  if (unstageRows txn rows).isEmpty then none else some (unstageRows txn rows)

/-- The tables that an abort drops lose their numbers. -/
def keptIds (txn : UInt64) (s : InMemoryStore) : AssocMap Bytes UInt64 :=
  (s.tables.entries.filter fun e => (unstageTable txn e.2).isNone).foldl
    (fun ids e => ids.erase e.1) s.autoId

/-- `abort`. -/
def abort (txn : UInt64) (s : InMemoryStore) : InMemoryStore :=
  { s with tables := s.tables.filterMapValues (unstageTable txn), autoId := keptIds txn s }

/-! ## The provider -/

/-- The types of the vocabulary. -/
def accepts : ValueType → Bool
  | .other _ => false
  | _ => true

/-- `createTable`. -/
def createTable (schema : Schema) (s : InMemoryStore) : DbError × InMemoryStore :=
  if (s.schemas.find schema.table).isSome then (.tableExists schema.table, s)
  else
    match schema.columns.find? fun c => !accepts c.type with
    | some col => (.notSupported (ascii "column '" ++ col.name ++
        ascii "' type not accepted by in-memory provider"), s)
    | none => (.sentinel, { s with schemas := s.schemas.assign schema.table schema })

/-- `dropTable`. -/
def dropTable (name : Bytes) (s : InMemoryStore) : DbError × InMemoryStore :=
  if (s.schemas.find name).isSome then (.sentinel, { s with schemas := s.schemas.erase name })
  else (.tableNotFound name, s)

/-- `alterTable`. -/
def alterTable (name : Bytes) (spec : AlterSpec) (s : InMemoryStore) : DbError × InMemoryStore :=
  match s.schemas.find name with
  | none => (.tableNotFound name, s)
  | some schema =>
    match spec with
    | .addColumn columnDef =>
      if (schema.find columnDef.name).isSome then
        (.internal (ascii "column '" ++ columnDef.name ++ ascii "' already exists"), s)
      else
        let columns := schema.columns ++ [columnDef]
        (.sentinel, { s with schemas := s.schemas.assign name { schema with columns := columns } })
    | .dropColumn column =>
      if (schema.find column).isNone then
        (.notFound (ascii "column '" ++ column ++ ascii "' not found"), s)
      else
        let columns := schema.columns.eraseP fun c => c.name = column
        (.sentinel, { s with schemas := s.schemas.assign name { schema with columns := columns } })
    | .renameTable newName =>
      if newName.isEmpty then (.internal (ascii "rename requires new name"), s)
      else if (s.schemas.find newName).isSome then (.tableExists newName, s)
      else
        let moved := { schema with table := newName }
        (.sentinel, { s with schemas := (s.schemas.erase name).assign newName moved })

/-- A call that always returns. -/
def total {α : Type} (f : InMemoryStore → α × InMemoryStore) : EStateM Fault InMemoryStore α :=
  fun s => .ok (f s).1 (f s).2

/-- `InMemoryStorageProvider`. -/
def provider : StorageProvider InMemoryStore where
  scan txn table := total fun s => (scan txn table s, s)
  put txn table key row := total fun s => (.sentinel, put txn table key row s)
  remove txn table key := total fun s => (.sentinel, remove txn table key s)
  prepare _ := total fun s => (.sentinel, s)
  commit txn seq := total fun s => (.sentinel, commit txn seq s)
  abort txn := total fun s => (.sentinel, abort txn s)
  createTable schema := total (createTable schema)
  dropTable name := total (dropTable name)
  alterTable name spec := total (alterTable name spec)
  describeTable name := total fun s => (s.schemas.find name, s)

end InMemory

end OpenDB
