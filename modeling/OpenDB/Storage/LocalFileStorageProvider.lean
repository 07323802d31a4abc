import OpenDB.Storage.Metadata
import OpenDB.Storage.PutRun

/-!
# The file-backed provider

One pager, one B+tree per table, and the registry of tables that is persisted on page 1. Reads go to
the tree of the table with the sequence number the provider holds as visible. Writes are staged in
the same tree under commit sequence 0, and `commit` writes every staged version of the transaction
once more under its commit sequence; nothing is ever removed from a tree.

Three habits of the source are kept as they are: `commit` saves the metadata before it advances the
visible sequence number, `remove` does not record a new root in the registry, and neither `put` nor
`commit` looks at whether the tree took the version. The maps of the source have no order of their
own; here they are in the order of insertion.
-/

set_option autoImplicit false

namespace OpenDB

open OpenDB.Library

/-- The provider. A tree object is the page of its root; `none` is an object whose pager has been
destroyed. The file and the disk are those of `pager`, also while the provider is closed. -/
structure LocalFileStorageProvider where
  pager : Pager
  metaPageId : PageId
  tables : AssocMap Bytes TableInfo
  btrees : AssocMap Bytes (Option PageId)
  visibleSeq : UInt64
  internalSeq : UInt64
  opened : Bool

namespace LocalFileStorageProvider

theorem capacity_lt (s : LocalFileStorageProvider) : s.pager.capacity < 2 ^ 32 :=
  s.pager.capacity_lt

/-- A provider that has not been opened yet. -/
def new (capacity : Nat) (h : capacity < 2 ^ 32) : LocalFileStorageProvider :=
  ⟨Pager.unloaded [] capacity h, 1, .empty, .empty, 0, 0, false⟩

/-- A pager call of the provider. -/
def onPager {α : Type} (x : EStateM Fault Pager α) : EStateM Fault LocalFileStorageProvider α :=
  fun s =>
    match x.run s.pager with
    | .ok a p => .ok a { s with pager := p }
    | .error e p => .error e { s with pager := p }

/-- A call on the tree of a table. A tree whose pager is gone is undefined behaviour. -/
def onTree {α : Type} (table : Bytes) (x : EStateM Fault BTree α) :
    EStateM Fault LocalFileStorageProvider α := fun s =>
  match s.btrees.find table with
  | some (some root) =>
    match x.run ⟨s.pager, root⟩ with
    | .ok a t =>
      .ok a { s with pager := t.pager, btrees := s.btrees.assign table (some t.rootPageId) }
    | .error e t =>
      .error e { s with pager := t.pager, btrees := s.btrees.assign table (some t.rootPageId) }
  | _ => .error .outOfBounds s

/-- `tables_[table]`, which makes an entry when there is none. -/
def tableInfo (s : LocalFileStorageProvider) (table : Bytes) : TableInfo :=
  (s.tables.find table).getD ⟨⟨[], [], none⟩, 0, 0⟩

/-- `syncRoot`. -/
def syncRoot (table : Bytes) : EStateM Fault LocalFileStorageProvider Unit := fun s =>
  match s.btrees.find table with
  | some (some root) =>
    .ok () { s with tables := s.tables.assign table { s.tableInfo table with rootPageId := root } }
  | _ => .error .outOfBounds s

/-! ## Metadata -/

/-- The metadata of the provider. -/
def metadata (s : LocalFileStorageProvider) : Metadata := ⟨s.visibleSeq, s.internalSeq, s.tables⟩

/-- `saveMetadata`. -/
def saveMetadata : EStateM Fault LocalFileStorageProvider Unit := do
  let s ← get
  match encodeMetadata s.metadata with
  | .ok page =>
    let _ ← onPager (Pager.writePage (some s.metaPageId) page)
  | .error e => throw e

/-- `loadMetadata` from the metadata page. -/
def loadMetadata : EStateM Fault LocalFileStorageProvider Bool := do
  let s ← get
  match s.pager.readPage s.metaPageId with
  | none => return false
  | some page =>
    let (ok, m) := OpenDB.loadMetadata s.metadata page
    set { s with visibleSeq := m.visibleSeq, internalSeq := m.internalSeq, tables := m.tables }
    return ok

/-! ## Opening and closing -/

/-- `open` on the file with the given contents. -/
def openFile (file : Image) : EStateM Fault LocalFileStorageProvider DbError := do
  let s ← get
  if s.opened then return .sentinel
  match Pager.openFile.run (Pager.unloaded file s.pager.capacity s.pager.capacity_lt) with
  | .error (.runtimeError what) p =>
    set { s with pager := p }
    return ⟨.internal, ascii "LocalFileStorageProvider: cannot open: " ++ what⟩
  | .error e p =>
    set { s with pager := p }
    throw e
  | .ok _ p =>
    set { s with pager := p }
    if p.header.pageCount ≤ 1 then
      let id ← onPager Pager.allocatePage
      modify fun s => { s with metaPageId := id }
      saveMetadata
    else
      modify fun s => { s with metaPageId := 1 }
      if !(← loadMetadata) then
        return ⟨.internal, ascii "LocalFileStorageProvider: corrupted metadata page"⟩
      modify fun s => { s with
        btrees := s.tables.entries.foldl (fun m t => m.assign t.1 (some t.2.rootPageId)) s.btrees }
    modify fun s => { s with opened := true }
    return .sentinel

/-- `close`. The trees keep their reference to the pager, which is destroyed. -/
def close : EStateM Fault LocalFileStorageProvider DbError := do
  if !(← get).opened then return .sentinel
  saveMetadata
  let _ ← onPager Pager.close
  modify fun s => { s with btrees := s.btrees.mapValues fun _ => none, opened := false }
  return .sentinel

/-! ## Tables -/

/-- The column types of the provider's vocabulary. -/
def accepts : ValueType → Bool
  | .other _ => false
  | _ => true

/-- `createTable`. -/
def createTable (schema : Schema) : EStateM Fault LocalFileStorageProvider DbError := do
  let s ← get
  if !s.opened then return .notOpen
  if (s.tables.find schema.table).isSome then return .tableExists schema.table
  match schema.columns.find? fun col => !accepts col.type with
  | some col =>
    return ⟨.notSupported,
      ascii "column '" ++ col.name ++ ascii "' type not accepted by local-file provider"⟩
  | none =>
    -- the new tree is not registered before it has its root
    match BTree.createNew.run ⟨s.pager, 0⟩ with
    | .error e t =>
      set { s with pager := t.pager }
      throw e
    | .ok root t =>
      set { s with
        pager := t.pager
        tables := s.tables.assign schema.table ⟨schema, root, 0⟩
        btrees := s.btrees.assign schema.table (some root) }
      saveMetadata
      return .sentinel

/-- `dropTable`. -/
def dropTable (name : Bytes) : EStateM Fault LocalFileStorageProvider DbError := do
  let s ← get
  if !s.opened then return .notOpen
  if (s.tables.find name).isNone then return .tableNotFound name
  if (s.btrees.find name).isSome then onTree name BTree.freeAllPages
  modify fun s => { s with tables := s.tables.erase name, btrees := s.btrees.erase name }
  saveMetadata
  return .sentinel

/-- `alterTable`. -/
def alterTable (name : Bytes) (spec : AlterSpec) : EStateM Fault LocalFileStorageProvider DbError := do
  let s ← get
  if !s.opened then return .notOpen
  match s.tables.find name with
  | none => return .tableNotFound name
  | some info =>
    match spec with
    | .addColumn columnDef =>
      if (info.schema.find columnDef.name).isSome then
        return ⟨.internal, ascii "column '" ++ columnDef.name ++ ascii "' already exists"⟩
      let columns := info.schema.columns ++ [columnDef]
      let altered := { info with schema := { info.schema with columns := columns } }
      set { s with tables := s.tables.assign name altered }
      saveMetadata
      return .sentinel
    | .dropColumn column =>
      if (info.schema.find column).isNone then
        return ⟨.notFound, ascii "column '" ++ column ++ ascii "' not found"⟩
      let columns := info.schema.columns.eraseP fun c => c.name = column
      let altered := { info with schema := { info.schema with columns := columns } }
      set { s with tables := s.tables.assign name altered }
      saveMetadata
      return .sentinel
    | .renameTable newName =>
      if newName.isEmpty then return ⟨.internal, ascii "rename requires new name"⟩
      if (s.tables.find newName).isSome then return .tableExists newName
      let moved := { info with schema := { info.schema with table := newName } }
      let btrees := match s.btrees.find name with
        | none => s.btrees
        | some tree => (s.btrees.erase name).assign newName tree
      set { s with tables := (s.tables.erase name).assign newName moved, btrees := btrees }
      saveMetadata
      return .sentinel

/-- `describeTable`. -/
def describeTable (s : LocalFileStorageProvider) (name : Bytes) : Option Schema :=
  (s.tables.find name).map TableInfo.schema

/-! ## Rows -/

/-- `get`. -/
def get (s : LocalFileStorageProvider) (txn : UInt64) (table : Bytes) (key : Value) :
    Except Fault (Option Tuple) :=
  match s.btrees.find table with
  | none => .ok none
  | some none => .error .outOfBounds
  | some (some root) => do
    let r ← BTree.get ⟨s.pager, root⟩ key txn s.visibleSeq
    return if !r.found || r.tombstone then none else some r.payload

/-- The calls that the tree of a table makes to the callback of `scan`. -/
def scanTree (s : LocalFileStorageProvider) (txn : UInt64) (table : Bytes) :
    Except Fault (List (Value × LookupResult)) :=
  match s.btrees.find table with
  | none => .ok []
  | some none => .error .outOfBounds
  | some (some root) => BTree.scan ⟨s.pager, root⟩ txn s.visibleSeq

/-- `scan`: the tuples handed to `emit`. -/
def scan (s : LocalFileStorageProvider) (txn : UInt64) (table : Bytes) :
    Except Fault (List Tuple) := do
  return ((← s.scanTree txn table).filter fun r => !r.2.tombstone).map fun r => r.2.payload

/-- The key and the row that `put` stores: a null key is replaced by the next one of the table. -/
def effectiveRow (table : Bytes) (key : Value) (row : Tuple) :
    EStateM Fault LocalFileStorageProvider (Value × Tuple) := do
  if key.isNull then
    let s ← MonadState.get
    let info := s.tableInfo table
    let autoId := info.autoId + 1
    set { s with tables := s.tables.assign table { info with autoId := autoId } }
    let key := Value.int64 autoId.toInt64
    return (key, row.set (ascii "_id") key)
  else return (key, row)

/-- `put`. -/
def put (txn : UInt64) (table : Bytes) (key : Value) (row : Tuple) :
    EStateM Fault LocalFileStorageProvider DbError := do
  if ((← MonadState.get).btrees.find table).isNone then return .tableNotFound table
  let (key, row) ← effectiveRow table key row
  let _ ← onTree table (BTree.put ⟨key, 0, txn, false, row⟩)
  syncRoot table
  return .sentinel

/-- `remove`. -/
def remove (txn : UInt64) (table : Bytes) (key : Value) :
    EStateM Fault LocalFileStorageProvider DbError := do
  if ((← MonadState.get).btrees.find table).isNone then return .tableNotFound table
  let _ ← onTree table (BTree.put ⟨key, 0, txn, true, Tuple.empty⟩)
  return .sentinel

/-! ## Transactions -/

/-- `prepare`. -/
def prepare (_txn : UInt64) : EStateM Fault LocalFileStorageProvider DbError := return .sentinel

/-- The version is staged by the transaction. -/
def stagedBy (txn : UInt64) (e : LeafEntry) : Bool := e.commitSeq == 0 && e.txnId == txn

/-- One round of the loop of `commit`: the staged versions of one tree are written once more. -/
def promote (txn visibleSeq : UInt64) : EStateM Fault BTree Unit := do
  let es ← reading BTree.scanAll
  let staged := es.filter (stagedBy txn)
  let _ ← BTree.putAll (staged.map fun e => ⟨e.key, visibleSeq, txn, e.tombstone, e.payload⟩)

/-- The loop of `commit` over the trees. -/
def promoteAll (txn visibleSeq : UInt64) : List Bytes → EStateM Fault LocalFileStorageProvider Unit
  | [] => return ()
  | table :: tables => do
    onTree table (promote txn visibleSeq)
    syncRoot table
    promoteAll txn visibleSeq tables

/-- `commit` with a sequence number. -/
def commit (txn visibleSeq : UInt64) : EStateM Fault LocalFileStorageProvider DbError := do
  promoteAll txn visibleSeq ((← MonadState.get).btrees.entries.map Prod.fst)
  saveMetadata
  modify fun s =>
    { s with visibleSeq := if s.visibleSeq < visibleSeq then visibleSeq else s.visibleSeq }
  return .sentinel

/-- `commit` without one. -/
def commitNext (txn : UInt64) : EStateM Fault LocalFileStorageProvider DbError := do
  let seq := (← MonadState.get).internalSeq + 1
  modify fun s => { s with internalSeq := seq }
  commit txn seq

/-- `abort`. -/
def abort (_txn : UInt64) : EStateM Fault LocalFileStorageProvider DbError := return .sentinel

end LocalFileStorageProvider

end OpenDB
