import OpenDB.Library.AssocList
import OpenDB.Types.Tuple

/-!
# Schemas and errors

Table declarations as the storage provider owns them, the changes `alterTable` can make to one, and
the structured error every provider call returns. Success is an error with an empty text.
-/

set_option autoImplicit false

namespace OpenDB

/-! ## Schemas -/

open OpenDB.Library

/-- One column. -/
structure ColumnDef where
  name : Bytes
  type : ValueType
  nullable : Bool
  primaryKey : Bool
  maxByteLength : UInt64
  extensions : AssocMap Bytes Bytes
  defaultValue : Option Value
  deriving DecidableEq

/-- `PartitionPolicy::Kind`, and a byte read back from disk that is none of them. -/
inductive PartitionKind where
  | none | hash | range | list
  | other (code : UInt8)
  deriving DecidableEq, Repr

def PartitionKind.toByte : PartitionKind → UInt8
  | .none => 0
  | .hash => 1
  | .range => 2
  | .list => 3
  | .other code => code

def PartitionKind.ofByte (code : UInt8) : PartitionKind :=
  match code.toNat with
  | 0 => .none
  | 1 => .hash
  | 2 => .range
  | 3 => .list
  | _ => .other code

/-- Declarative partitioning. -/
structure PartitionPolicy where
  kind : PartitionKind
  column : Bytes
  shardCount : UInt32
  boundaries : List Value
  lists : List (List Value)
  deriving DecidableEq

/-- A table's schema. -/
structure Schema where
  table : Bytes
  columns : List ColumnDef
  partition : Option PartitionPolicy
  deriving DecidableEq

/-- `Schema::find`. -/
def Schema.find (s : Schema) (col : Bytes) : Option ColumnDef :=
  s.columns.find? fun c => c.name = col

/-- `AlterSpec`: the definition of a new column, the name of a column to drop, or a new table
name. -/
inductive AlterSpec where
  | addColumn (columnDef : ColumnDef)
  | dropColumn (column : Bytes)
  | renameTable (newName : Bytes)
  deriving DecidableEq

/-! ## Errors -/

inductive DbErrorCode where
  | notFound | deadlock | lockBusy | lockTimeout | queryTimeout | parseError | notSupported | internal
  deriving DecidableEq, Repr

structure DbError where
  code : DbErrorCode
  message : Bytes
  deriving DecidableEq, Repr

namespace DbError

/-- Success. -/
def sentinel : DbError := ⟨.internal, []⟩

def isSentinel (e : DbError) : Bool := e.message.isEmpty

/-- A table that is not there. -/
def tableNotFound (table : Bytes) : DbError :=
  ⟨.notFound, ascii "table '" ++ table ++ ascii "' not found"⟩

/-- A table that is there already. -/
def tableExists (table : Bytes) : DbError :=
  ⟨.internal, ascii "table '" ++ table ++ ascii "' already exists"⟩

/-- A provider that has not been opened. -/
def notOpen : DbError := ⟨.internal, ascii "provider not open"⟩

@[simp] theorem isSentinel_tableNotFound (table : Bytes) :
    (tableNotFound table).isSentinel = false := by
  simp [isSentinel, tableNotFound, ascii]

@[simp] theorem isSentinel_tableExists (table : Bytes) :
    (tableExists table).isSentinel = false := by
  simp [isSentinel, tableExists, ascii]

@[simp] theorem isSentinel_notOpen : notOpen.isSentinel = false := rfl

end DbError

end OpenDB
