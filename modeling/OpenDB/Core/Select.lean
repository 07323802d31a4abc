import OpenDB.Core.Services
import OpenDB.Library.StandardLibrary

/-!
# Rows of a SELECT

The clauses of a SELECT as the engine loop runs them: filter and projection over one table, nested
loops over joined tables, ORDER BY, and the window of OFFSET and LIMIT.
-/

set_option autoImplicit false

namespace OpenDB

open OpenDB.Library

/-- Every row passes when there is no WHERE clause. -/
def Command.accepts (cmd : Command) (row : Tuple) : Bool :=
  match cmd.predicate with
  | none => true
  | some predicate => predicate.evaluate row

/-! ## Projection -/

def star : Bytes := ascii "*"

/-- No projection list, or only a star. -/
def selectsAll (projections : List Bytes) : Bool :=
  projections.isEmpty || decide (projections = [star])

/-- The projection loop: the columns of the list that the row has. -/
def projectColumns (projections : List Bytes) (row : Tuple) : Tuple :=
  projections.foldl (fun projected column =>
    match row.maybeGet column with
    | some v => projected.set column v
    | none => projected) .empty

/-- The projection of the engine loop. -/
def projectRow (projections : List Bytes) (row : Tuple) : Tuple :=
  if selectsAll projections then row else projectColumns projections row

/-- The projection of the dispatcher and of the HTTP front end, whose loop passes over a star. -/
def projectRowSkippingStar (projections : List Bytes) (row : Tuple) : Tuple :=
  if selectsAll projections then row
  else projectColumns (projections.filter fun column => column ≠ star) row

/-! ## Joins -/

namespace EngineLoop

/-- `qualify`: the columns under the name of their table. -/
def qualify (table : Bytes) (src : Tuple) : Tuple :=
  src.columns.foldl (fun out c => out.set (table ++ ascii "." ++ c.name) c.value) .empty

/-- `rowsFor`. -/
def rowsFor (txn : UInt64) (table : Bytes) : Exec (List Tuple) := do
  let rows ← Exec.scan txn table
  return rows.map (qualify table)

/-- `onMatches`. -/
def onMatches (left right : Tuple) (jc : JoinClause) : Bool :=
  match left.maybeGet jc.leftColumn, right.maybeGet jc.rightColumn with
  | some lv, some rv => lv.compare rv == .eq
  | _, _ => false

/-- The columns of the right row set in the left one. -/
def mergeRow (left right : Tuple) : Tuple :=
  right.columns.foldl (fun merged c => merged.set c.name c.value) left

/-- The left row with nulls for the columns of a sample right row, if there is one. -/
def nullExtended (left : Tuple) (rightRows : List Tuple) : Tuple :=
  match rightRows with
  | [] => left
  | sample :: _ => sample.columns.foldl (fun merged c => merged.set c.name .null) left

/-- The inner loop: the partners of one row. -/
def joinRow (rightRows : List Tuple) (jc : JoinClause) (cur : Tuple) : List Tuple :=
  let next := (rightRows.filter fun right => onMatches cur right jc).map (mergeRow cur)
  if next.isEmpty && jc.kind == .left then [nullExtended cur rightRows] else next

/-- The loop over the join clauses. -/
def joinTables (txn : UInt64) : List JoinClause → List Tuple → Exec (List Tuple)
  | [], matched => return matched
  | jc :: joins, matched => do
    let rightRows ← rowsFor txn jc.table
    joinTables txn joins (matched.flatMap (joinRow rightRows jc))

/-! ## Order and window -/

/-- The value a row is ordered by; a null is like a column that is not there. -/
def orderValue (row : Tuple) (column : Bytes) : Option Value :=
  match row.maybeGet column with
  | none => none
  | some v => if v.isNull then none else some v

/-- The comparison of ORDER BY: whether the first row stands before the second. -/
def before : List OrderBySpec → Tuple → Tuple → Bool
  | [], _, _ => false
  | spec :: specs, a, b =>
    let nullsFirst := spec.nullsFirst.getD (spec.direction == .desc)
    match orderValue a spec.column, orderValue b spec.column with
    | none, none => before specs a b
    | none, some _ => nullsFirst
    | some _, none => !nullsFirst
    | some av, some bv =>
      match av.compare bv with
      | .eq => before specs a b
      | .lt => spec.direction == .asc
      | .gt => spec.direction == .desc

variable [StandardLibrary]

/-- ORDER BY by `std::sort`. -/
def orderRows (specs : List OrderBySpec) (rows : List Tuple) : List Tuple :=
  if specs.isEmpty then rows else StandardLibrary.sort (before specs) rows

/-- OFFSET and LIMIT, in the 64 bit arithmetic of `std::size_t`. -/
def window (offset limit : Option UInt64) (rows : List Tuple) : List Tuple :=
  let start := (offset.getD 0).toNat
  let stop :=
    match limit with
    | none => rows.length
    | some l => min rows.length (offset.getD 0 + l).toNat
  let start := if rows.length ≤ start then rows.length else start
  let stop := if stop < start then start else stop
  (rows.drop start).take (stop - start)

/-- The rows before ORDER BY. -/
def matchedRows (txn : UInt64) (cmd : Command) : Exec (List Tuple) := do
  if cmd.joins.isEmpty then
    let rows ← Exec.scan txn cmd.table
    return (rows.filter cmd.accepts).map (projectRow cmd.projections)
  else
    let leftRows ← rowsFor txn cmd.table
    let matched ← joinTables txn cmd.joins leftRows
    return (matched.filter cmd.accepts).map (projectRow cmd.projections)

/-- The SELECT of the engine loop. -/
def selectRows (txn : UInt64) (cmd : Command) : Exec (List Tuple) := do
  let matched ← matchedRows txn cmd
  return window cmd.offset cmd.limit (orderRows cmd.orderBy matched)

end EngineLoop

end OpenDB
