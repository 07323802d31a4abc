import OpenDB.Frontend.SqlParser

/-!
# The grammar of SQL

What the parser reads, as rules between a text, its meaning and the text behind it: tokens, ordered
choice on the token in front, sequence and repetition. The grammar says nothing of error texts, null
pointers or exceptions. Two of its rules are wider than the language they are for, as the parser is:
an operand of AND or OR may be broken off (`Operand`), and so may a list of values (`Values`).
-/

set_option autoImplicit false

namespace OpenDB

open OpenDB.Library

namespace Sql

/-- Every comparison of the predicate is there. -/
def NodePtr.Complete : NodePtr → Prop
  | .null => False
  | .comparison _ _ _ => True
  | .logical _ left right => left.Complete ∧ right.Complete

variable {α β : Type}

/-! ## Tokens -/

/-- A keyword or symbol that has to be there. -/
def Read (token : Bytes → Option Bytes) : Rule UInt8 Unit := fun s _ r => token s = some r

/-- The choice on a keyword or symbol: one rule behind it, the other where it is not there. -/
def IfRead (token : Bytes → Option Bytes) (R S : Rule UInt8 α) : Rule UInt8 α := fun s a r =>
  (∃ m, token s = some m ∧ R m a r) ∨ (token s = none ∧ S (skip s) a r)

/-- No token of this kind: what is left there. -/
def NoToken (lex : Bytes → Lexeme α) : Rule UInt8 Unit := fun s _ r =>
  (∀ a m, lex (skip s) ≠ .found a m) ∧ r = (lex (skip s)).stop (skip s)

def Identifier : Rule UInt8 Bytes := Token lexIdentifier

def Word : Rule UInt8 Bytes := Token lexWord

def Literal : Rule UInt8 Value := Token lexValue

/-- The first of the names that is there. -/
def FirstOf (token : String → Bytes → Option Bytes) : List (String × α) → Rule UInt8 (Option α)
  | [] => return none
  | (name, a) :: rest => IfRead (token name) (return some a) (FirstOf token rest)

/-- The first of the names, one of which has to be there. -/
def OneOf (token : String → Bytes → Option Bytes) (names : List (String × α)) : Rule UInt8 α :=
  fun s a r => FirstOf token names s (some a) r

/-- Items with commas between them. -/
def Items (item : Rule UInt8 α) (add : β → α → β) : β → Rule UInt8 β :=
  Repeat fun b => do
    let a ← item
    IfRead (symbol ",") (return .inl (add b a)) (return .inr (add b a))

/-! ## Tables -/

/-- The constraints of a column, with what is known of it and whether the table has a primary key. -/
def Constraints : ColumnDef × Bool → Rule UInt8 (ColumnDef × Bool) :=
  Repeat fun (column, hasPrimaryKey) =>
    IfRead (keyword "PRIMARY")
      (do
        Read (keyword "KEY")
        if hasPrimaryKey then .never else return .inl ({ column with primaryKey := true }, true))
    <| IfRead (keyword "NOT")
      (do
        Read (keyword "NULL")
        return .inl ({ column with nullable := false }, hasPrimaryKey))
    <| IfRead (keyword "NULL") (return .inl ({ column with nullable := true }, hasPrimaryKey))
    <| IfRead (keyword "DEFAULT")
      (IfRead (keyword "NULL")
        (return .inl ({ column with defaultValue := some .null }, hasPrimaryKey))
        (do
          let value ← Literal
          return .inl ({ column with defaultValue := some value }, hasPrimaryKey)))
    (return .inr (column, hasPrimaryKey))

/-- A column of a table. -/
def ColumnSpec (hasPrimaryKey : Bool) : Rule UInt8 (ColumnDef × Bool) := do
  let name ← Identifier
  let type ← OneOf keyword SqlParser.columnTypes
  Constraints (⟨name, type, true, false, 0, .empty, none⟩, hasPrimaryKey)

/-- The columns of a table up to the closing parenthesis; a comma may stand in front of it. -/
def Columns : List ColumnDef × Bool → Rule UInt8 (List ColumnDef) :=
  Repeat fun (columns, hasPrimaryKey) =>
    IfRead (symbol ")") (return .inr columns) do
      let (column, hasPrimaryKey) ← ColumnSpec hasPrimaryKey
      IfRead (symbol ",") (return .inl (columns ++ [column], hasPrimaryKey)) do
        Read (symbol ")")
        return .inr (columns ++ [column])

/-- PARTITION BY HASH with a positive number of partitions. -/
def Partition : Rule UInt8 (Option PartitionPolicy) :=
  IfRead (keyword "PARTITION")
    (do
      Read (keyword "BY")
      Read (keyword "HASH")
      Read (symbol "(")
      let column ← Identifier
      Read (symbol ")")
      Read (keyword "PARTITIONS")
      let count ← Word
      if atoi count ≤ 0 then .never
      else return some ⟨.hash, column, (atoi count).toUInt32, [], []⟩)
    (return none)

def CreateTable : Rule UInt8 SqlStatement := do
  let table ← Identifier
  Read (symbol "(")
  let columns ← Columns ([], false)
  let partition ← Partition
  return .createTable ⟨table, columns, partition⟩

def DropTable : Rule UInt8 SqlStatement := do
  let table ← Identifier
  return .dropTable table

/-- What ALTER TABLE does with the table. -/
def AlterClause : Rule UInt8 AlterSpec :=
  IfRead (keyword "ADD")
    (do
      Read (keyword "COLUMN")
      let (column, _) ← ColumnSpec false
      return .addColumn column)
  <| IfRead (keyword "DROP")
    (do
      Read (keyword "COLUMN")
      let column ← Identifier
      return .dropColumn column)
  <| IfRead (keyword "RENAME")
    (do
      Read (keyword "TO")
      let name ← Identifier
      return .renameTable name)
  .never

def AlterTable : Rule UInt8 SqlStatement := do
  let table ← Identifier
  let spec ← AlterClause
  return .alterTable table spec

/-! ## Predicates -/

/-- An operator of a comparison, or none. -/
def Operator : Rule UInt8 (Option ComparisonOp) :=
  IfRead (keyword "IS")
    (IfRead (keyword "NULL") (return some .isNull)
      (IfRead (keyword "NOT")
        (IfRead (keyword "NULL") (return some .isNotNull) (return none))
        (return none)))
    (FirstOf symbol SqlParser.comparisonSymbols)

/-- A complete comparison of a column with a value, or its test for null. -/
inductive Comparison : Rule UInt8 NodePtr where
  | nullTest {s m r : Bytes} {column : Bytes} {op : ComparisonOp} (hcolumn : Identifier s column m)
      (hop : Operator m (some op) r) (htest : SqlParser.isNullTest op = true) :
      Comparison s (.comparison column op .null) r
  | value {s m m' r : Bytes} {column : Bytes} {op : ComparisonOp} {value : Value}
      (hcolumn : Identifier s column m) (hop : Operator m (some op) m')
      (htest : SqlParser.isNullTest op = false) (hvalue : Literal m' value r) :
      Comparison s (.comparison column op value) r

/-- What stands behind the operator of an operand: as in a comparison, or a null pointer where the
value is missing. -/
inductive Comparand (column : Bytes) (op : ComparisonOp) : Rule UInt8 NodePtr where
  | nullTest {s : Bytes} (htest : SqlParser.isNullTest op = true) :
      Comparand column op s (.comparison column op .null) s
  | value {s r : Bytes} {value : Value} (htest : SqlParser.isNullTest op = false)
      (hvalue : Literal s value r) : Comparand column op s (.comparison column op value) r
  | noValue {s r : Bytes} (htest : SqlParser.isNullTest op = false)
      (hvalue : NoToken lexValue s () r) : Comparand column op s .null r

/-- An operand of AND or OR: a comparison, or a null pointer where one is broken off. -/
inductive Operand : Rule UInt8 NodePtr where
  | comparison {s m m' r : Bytes} {column : Bytes} {op : ComparisonOp} {node : NodePtr}
      (hcolumn : Identifier s column m) (hop : Operator m (some op) m')
      (hcomparand : Comparand column op m' node r) : Operand s node r
  | noColumn {s r : Bytes} (hcolumn : NoToken lexIdentifier s () r) : Operand s .null r
  | noOperator {s m r : Bytes} {column : Bytes} (hcolumn : Identifier s column m)
      (hop : Operator m none r) : Operand s .null r

/-- Operands with a keyword between them, grouped to the left. -/
def Chain (kw : String) (op : LogicalOp) (operand : Rule UInt8 NodePtr) : Rule UInt8 NodePtr := do
  let first ← operand
  Repeat (fun left => IfRead (keyword kw)
    (do
      let right ← operand
      return .inl (.logical op left right))
    (return .inr left)) first

def Conjunction : Rule UInt8 NodePtr := Chain "AND" .and Operand

def Disjunction : Rule UInt8 NodePtr := Chain "OR" .or Conjunction

/-- The text is a predicate all of whose comparisons are complete. -/
def CompletePredicate (s : Bytes) : Prop :=
  ∃ node r, Chain "OR" .or (Chain "AND" .and Comparison) s node r

/-- The predicate behind WHERE; it is not read if it is a null pointer itself. -/
def WherePredicate : Rule UInt8 (Option NodePtr) := do
  let node ← Disjunction
  if node = .null then .never else return some node

def Where : Rule UInt8 (Option NodePtr) := IfRead (keyword "WHERE") WherePredicate (return none)

/-! ## Commands -/

def Optional (kw : String) : Rule UInt8 Unit := IfRead (keyword kw) (return ()) (return ())

/-- The row of a list of values: the columns are named by their positions. -/
def addValue (t : Tuple) (value : Value) : Tuple := t.set (decimal t.columns.length) value

/-- One value of a list, and whether the list goes on. -/
inductive ValueItem (t : Tuple) : Rule UInt8 (Tuple ⊕ Tuple) where
  | more {s m r : Bytes} {value : Value} (hvalue : Literal s value m) (hcomma : symbol "," m = some r) :
      ValueItem t s (.inl (addValue t value)) r
  | last {s m r : Bytes} {value : Value} (hvalue : Literal s value m) (hcomma : symbol "," m = none)
      (hclose : symbol ")" m = some r) : ValueItem t s (.inr (addValue t value)) r
  | noClose {s m : Bytes} {value : Value} (hvalue : Literal s value m) (hcomma : symbol "," m = none)
      (hclose : symbol ")" m = none) : ValueItem t s (.inr (addValue t value)) (skip m)
  | noValue {s r : Bytes} (hvalue : NoToken lexValue s () r) : ValueItem t s (.inr t) r

/-- What is read as a list of values, from its opening parenthesis on. -/
def Values : Rule UInt8 Tuple :=
  IfRead (symbol "(") (Repeat ValueItem .empty) (return .empty)

/-- Values with commas between them, up to the closing parenthesis. -/
inductive ValueSequence : Bytes → List Value → Bytes → Prop where
  | last {s m r : Bytes} {value : Value} (hvalue : Literal s value m) (hclose : symbol ")" m = some r) :
      ValueSequence s [value] r
  | more {s m m' r : Bytes} {value : Value} {values : List Value} (hvalue : Literal s value m)
      (hcomma : symbol "," m = some m') (hrest : ValueSequence m' values r) :
      ValueSequence s (value :: values) r

/-- A complete list of values, from its opening to its closing parenthesis. -/
def ValueList (s : Bytes) (values : List Value) (r : Bytes) : Prop :=
  ∃ m, symbol "(" s = some m ∧ ValueSequence m values r

/-- The column names of an INSERT up to the closing parenthesis. -/
def InsertColumns : Rule UInt8 (List Bytes) :=
  IfRead (symbol "(")
    (Repeat (fun columns => do
      let column ← Identifier
      IfRead (symbol ",") (return .inl (columns ++ [column])) do
        Read (symbol ")")
        return .inr (columns ++ [column])) [])
    (return [])

/-- INSERT up to its values: the table. -/
def InsertHead : Rule UInt8 Bytes := do
  Optional "INTO"
  let table ← Identifier
  let _ ← InsertColumns
  return table

/-- The command that an INSERT stands for. -/
def insertCommand (table : Bytes) (values : Tuple) : SqlCommand :=
  ⟨.insert, table, none, some values, [], [], [], none, none⟩

def Insert : Rule UInt8 SqlCommand := do
  let table ← InsertHead
  IfRead (keyword "VALUES")
      (do
        let values ← Values
        return insertCommand table values)
    <| IfRead (keyword "DEFAULT")
      (do
        Read (keyword "VALUES")
        return insertCommand table .empty)
    .never

def Projections : Rule UInt8 (List Bytes) :=
  IfRead (symbol "*") (return [ascii "*"])
    (Items Identifier (fun columns column => columns ++ [column]) [])

/-- SELECT up to its WHERE clause: the projections and the table. -/
def SelectHead : Rule UInt8 (List Bytes × Bytes) := do
  let projections ← Projections
  Read (keyword "FROM")
  let table ← Identifier
  return (projections, table)

def Direction : Rule UInt8 SortDirection :=
  IfRead (keyword "ASC") (return .asc) (IfRead (keyword "DESC") (return .desc) (return .asc))

def NullsFirst : Rule UInt8 (Option Bool) :=
  IfRead (keyword "NULLS")
    (IfRead (keyword "FIRST") (return some true)
      (IfRead (keyword "LAST") (return some false) .never))
    (return none)

def OrderItem : Rule UInt8 OrderBySpec := do
  let column ← Identifier
  let direction ← Direction
  let nullsFirst ← NullsFirst
  return ⟨column, direction, nullsFirst⟩

def OrderBy : Rule UInt8 (List OrderBySpec) :=
  IfRead (keyword "ORDER")
    (do
      Read (keyword "BY")
      Items OrderItem (fun specs spec => specs ++ [spec]) [])
    (return [])

/-- A literal that is an integer, as a `std::size_t`. -/
def Count : Rule UInt8 UInt64 := do
  match ← Literal with
  | .int64 n => return n.toUInt64
  | .int32 n => return n.toInt64.toUInt64
  | _ => .never

def Offset : Rule UInt8 (Option UInt64) := IfRead (keyword "OFFSET") (some <$> Count) (return none)

def Window : Rule UInt8 (Option UInt64 × Option UInt64) :=
  IfRead (keyword "LIMIT")
    (do
      let limit ← Count
      let offset ← Offset
      return (some limit, offset))
    (do
      let offset ← Offset
      return (none, offset))

/-- The keywords in front of a joined table. INNER and LEFT are read also where no JOIN follows, and
the joins end there. -/
def JoinWords : Rule UInt8 (Option JoinKind) :=
  IfRead (keyword "INNER") (IfRead (keyword "JOIN") (return some .inner) (return none))
  <| IfRead (keyword "LEFT") (IfRead (keyword "JOIN") (return some .left) (return none))
  <| IfRead (keyword "JOIN") (return some .inner) (return none)

def Join (kind : JoinKind) : Rule UInt8 JoinClause := do
  let table ← Identifier
  Read (keyword "ON")
  let leftTable ← Identifier
  Read (symbol ".")
  let leftColumn ← Identifier
  Read (symbol "=")
  let rightTable ← Identifier
  Read (symbol ".")
  let rightColumn ← Identifier
  return ⟨kind, table, leftTable ++ ascii "." ++ leftColumn, rightTable ++ ascii "." ++ rightColumn⟩

def Joins : Rule UInt8 (List JoinClause) :=
  Repeat (fun joins => do
    match ← JoinWords with
    | none => return .inr joins
    | some kind => return .inl (joins ++ [← Join kind])) []

def Select : Rule UInt8 SqlCommand := do
  let (projections, table) ← SelectHead
  let predicate ← Where
  let orderBy ← OrderBy
  let (limit, offset) ← Window
  let joins ← Joins
  return ⟨.select, table, predicate, none, projections, orderBy, joins, limit, offset⟩

def Assignment : Rule UInt8 (Bytes × Value) := do
  let column ← Identifier
  Read (symbol "=")
  let value ← Literal
  return (column, value)

def Assignments : Rule UInt8 Tuple :=
  Items Assignment (fun t (column, value) => t.set column value) .empty

/-- UPDATE up to its WHERE clause: the table and the new values. -/
def UpdateHead : Rule UInt8 (Bytes × Tuple) := do
  let table ← Identifier
  Read (keyword "SET")
  let values ← Assignments
  return (table, values)

/-- DELETE up to its WHERE clause: the table. -/
def DeleteHead : Rule UInt8 Bytes := do
  Optional "FROM"
  Identifier

/-- A WHERE clause that has to be there. -/
def RequiredWhere (build : Option NodePtr → SqlCommand) : Rule UInt8 SqlCommand := do
  Read (keyword "WHERE")
  let predicate ← WherePredicate
  return build predicate

def updateCommand (table : Bytes) (values : Tuple) (predicate : Option NodePtr) : SqlCommand :=
  ⟨.update, table, predicate, some values, [], [], [], none, none⟩

def Update : Rule UInt8 SqlCommand := do
  let (table, values) ← UpdateHead
  RequiredWhere (updateCommand table values)

def deleteCommand (table : Bytes) (predicate : Option NodePtr) : SqlCommand :=
  ⟨.delete, table, predicate, none, [], [], [], none, none⟩

def Delete : Rule UInt8 SqlCommand := do
  let table ← DeleteHead
  RequiredWhere (deleteCommand table)

/-! ## Statements -/

/-- A rule behind a keyword that starts a statement; otherwise another one. -/
def Statement : Rule UInt8 SqlStatement :=
  IfRead (keyword "CREATE") (do Read (keyword "TABLE"); CreateTable)
  <| IfRead (keyword "DROP") (do Read (keyword "TABLE"); DropTable)
  <| IfRead (keyword "ALTER") (do Read (keyword "TABLE"); AlterTable)
  <| IfRead (keyword "INSERT") (.command <$> Insert)
  <| IfRead (keyword "SELECT") (.command <$> Select)
  <| IfRead (keyword "UPDATE") (.command <$> Update)
  <| IfRead (keyword "DELETE") (.command <$> Delete)
  <| IfRead (keyword "BEGIN") (do Optional "TRANSACTION"; return .txnBegin)
  <| IfRead (keyword "COMMIT") (return .txnCommit)
  <| IfRead (keyword "ROLLBACK") (return .txnRollback)
  .never

/-! ## Texts that break off, and writes without a condition -/

/-- A comparison that ends with the text, where its value is expected. -/
def CutOperand (s : Bytes) : Prop :=
  ∃ column op m m', Identifier s column m ∧ Operator m (some op) m' ∧
    SqlParser.isNullTest op = false ∧ skip m' = []

/-- An assignment that ends with the text, where its value is expected. -/
def CutAssignment (s : Bytes) : Prop :=
  ∃ column m m', Identifier s column m ∧ symbol "=" m = some m' ∧ skip m' = []

/-- A list of assignments that ends with such an assignment. -/
inductive CutAssignments : Bytes → Prop where
  | here {s : Bytes} (h : CutAssignment s) : CutAssignments s
  | behind {s m r : Bytes} {assignment : Bytes × Value} (h : Assignment s assignment m)
      (hcomma : symbol "," m = some r) (hrest : CutAssignments r) : CutAssignments s

/-- The text behind the WHERE of a statement. -/
inductive WhereText (s : Bytes) : Bytes → Prop where
  | select {m m' r : Bytes} {head : List Bytes × Bytes} (hkw : keyword "SELECT" s = some m)
      (hhead : SelectHead m head m') (hwhere : keyword "WHERE" m' = some r) : WhereText s r
  | update {m m' r : Bytes} {head : Bytes × Tuple} (hkw : keyword "UPDATE" s = some m)
      (hhead : UpdateHead m head m') (hwhere : keyword "WHERE" m' = some r) : WhereText s r
  | delete {m m' r : Bytes} {table : Bytes} (hkw : keyword "DELETE" s = some m)
      (hhead : DeleteHead m table m') (hwhere : keyword "WHERE" m' = some r) : WhereText s r

/-- The text ends where a value is expected: behind an assignment of an UPDATE, or behind the first
operator of a WHERE clause. -/
inductive CutOff (s : Bytes) : Prop where
  | assignment {m m' r : Bytes} {table : Bytes} (hkw : keyword "UPDATE" s = some m)
      (htable : Identifier m table m') (hset : keyword "SET" m' = some r) (hcut : CutAssignments r)
  | comparison {r : Bytes} (hwhere : WhereText s r) (hcut : CutOperand r)

/-- An UPDATE or DELETE without a WHERE clause. -/
inductive BareWrite (s : Bytes) : Prop where
  | update {m r : Bytes} {head : Bytes × Tuple} (hkw : keyword "UPDATE" s = some m)
      (hhead : UpdateHead m head r) (hbare : keyword "WHERE" r = none)
  | delete {m r : Bytes} {table : Bytes} (hkw : keyword "DELETE" s = some m)
      (hhead : DeleteHead m table r) (hbare : keyword "WHERE" r = none)

/-- An INSERT up to the text behind VALUES. -/
def InsertValues (s : Bytes) (table : Bytes) (r : Bytes) : Prop :=
  ∃ m m', keyword "INSERT" s = some m ∧ InsertHead m table m' ∧ keyword "VALUES" m' = some r

/-! ## A token is read in one way -/

theorem token_unique {lex : Bytes → Lexeme α} {s r r' : Bytes} {a a' : α} (h : Token lex s a r)
    (h' : Token lex s a' r') : a = a' ∧ r = r' := by
  rw [Token] at h h'
  rw [h] at h'
  cases h'
  exact ⟨rfl, rfl⟩

theorem not_noToken {lex : Bytes → Lexeme α} {s r r' : Bytes} {a : α} (h : Token lex s a r) :
    ¬ NoToken lex s () r' := fun hno => hno.1 a r h

@[simp] theorem symbol_skip (sym : String) (s : Bytes) : symbol sym (skip s) = symbol sym s := by
  rw [symbol, symbol, skip_skip]

@[simp] theorem keyword_skip (kw : String) (s : Bytes) : keyword kw (skip s) = keyword kw s := by
  rw [keyword, keyword, skip_skip]

theorem whereText_skip {s r : Bytes} : WhereText (skip s) r ↔ WhereText s r := by
  constructor
  · rintro (⟨hkw, hhead, hwhere⟩ | ⟨hkw, hhead, hwhere⟩ | ⟨hkw, hhead, hwhere⟩)
    · exact .select (keyword_skip _ s ▸ hkw) hhead hwhere
    · exact .update (keyword_skip _ s ▸ hkw) hhead hwhere
    · exact .delete (keyword_skip _ s ▸ hkw) hhead hwhere
  · rintro (⟨hkw, hhead, hwhere⟩ | ⟨hkw, hhead, hwhere⟩ | ⟨hkw, hhead, hwhere⟩)
    · exact .select ((keyword_skip _ s).trans hkw) hhead hwhere
    · exact .update ((keyword_skip _ s).trans hkw) hhead hwhere
    · exact .delete ((keyword_skip _ s).trans hkw) hhead hwhere

theorem cutOff_skip {s : Bytes} : CutOff (skip s) ↔ CutOff s := by
  constructor
  · rintro (⟨hkw, htable, hset, hcut⟩ | ⟨hwhere, hcut⟩)
    · exact .assignment (keyword_skip _ s ▸ hkw) htable hset hcut
    · exact .comparison (whereText_skip.1 hwhere) hcut
  · rintro (⟨hkw, htable, hset, hcut⟩ | ⟨hwhere, hcut⟩)
    · exact .assignment ((keyword_skip _ s).trans hkw) htable hset hcut
    · exact .comparison (whereText_skip.2 hwhere) hcut

theorem bareWrite_skip {s : Bytes} : BareWrite (skip s) ↔ BareWrite s := by
  constructor
  · rintro (⟨hkw, hhead, hbare⟩ | ⟨hkw, hhead, hbare⟩)
    · exact .update (keyword_skip _ s ▸ hkw) hhead hbare
    · exact .delete (keyword_skip _ s ▸ hkw) hhead hbare
  · rintro (⟨hkw, hhead, hbare⟩ | ⟨hkw, hhead, hbare⟩)
    · exact .update ((keyword_skip _ s).trans hkw) hhead hbare
    · exact .delete ((keyword_skip _ s).trans hkw) hhead hbare

/-- Neither kind of text is blank. -/
theorem CutOff.skip_ne_nil {s : Bytes} (h : CutOff s) : skip s ≠ [] := by
  intro hskip
  have hnone : ∀ {kw : String}, ascii kw ≠ [] → ∀ {m}, keyword kw s ≠ some m := by
    intro kw hkw m h
    rw [keyword_eq_none hkw hskip] at h
    cases h
  rcases h with ⟨hkw, -, -, -⟩ | ⟨hkw, -, -⟩ | ⟨hkw, -, -⟩ | ⟨hkw, -, -⟩ <;>
    exact hnone ascii_ne_nil hkw

theorem BareWrite.skip_ne_nil {s : Bytes} (h : BareWrite s) : skip s ≠ [] := by
  intro hskip
  have hnone : ∀ {kw : String}, ascii kw ≠ [] → ∀ {m}, keyword kw s ≠ some m := by
    intro kw hkw m h
    rw [keyword_eq_none hkw hskip] at h
    cases h
  rcases h with ⟨hkw, -, -⟩ | ⟨hkw, -, -⟩ <;> exact hnone ascii_ne_nil hkw

theorem ifRead_some {token : Bytes → Option Bytes} {R S : Rule UInt8 α} {s m r : Bytes} {a : α}
    (h : token s = some m) : IfRead token R S s a r ↔ R m a r := by
  constructor
  · rintro (⟨m', hm, hR⟩ | ⟨hm, -⟩)
    · rw [h] at hm
      cases hm
      exact hR
    · rw [h] at hm
      cases hm
  · exact fun hR => .inl ⟨m, h, hR⟩

theorem ifRead_none {token : Bytes → Option Bytes} {R S : Rule UInt8 α} {s r : Bytes} {a : α}
    (h : token s = none) : IfRead token R S s a r ↔ S (skip s) a r := by
  constructor
  · rintro (⟨m, hm, -⟩ | ⟨-, hS⟩)
    · rw [h] at hm
      cases hm
    · exact hS
  · exact fun hS => .inr ⟨h, hS⟩

/-! ## The keyword in front decides which statement it is -/

section Kinds

variable {s m r : Bytes} {statement : SqlStatement}

theorem statement_insert (hkw : keyword "INSERT" s = some m) :
    Statement s statement r ↔ ∃ cmd, Insert m cmd r ∧ statement = .command cmd := by
  have hnone : ∀ kw, (ascii kw).all isAlpha → (ascii "INSERT").map toUpper ≠ (ascii kw).map toUpper →
      keyword kw s = none := fun kw halpha hne =>
    keyword_eq_none_of_keyword hkw (by decide) halpha hne
  rw [Statement, ifRead_none (hnone "CREATE" (by decide) (by decide)),
    ifRead_none (by simpa using hnone "DROP" (by decide) (by decide)),
    ifRead_none (by simpa using hnone "ALTER" (by decide) (by decide)),
    ifRead_some (by simpa using hkw), Rule.map_iff]

theorem statement_select (hkw : keyword "SELECT" s = some m) :
    Statement s statement r ↔ ∃ cmd, Select m cmd r ∧ statement = .command cmd := by
  have hnone : ∀ kw, (ascii kw).all isAlpha → (ascii "SELECT").map toUpper ≠ (ascii kw).map toUpper →
      keyword kw s = none := fun kw halpha hne =>
    keyword_eq_none_of_keyword hkw (by decide) halpha hne
  rw [Statement, ifRead_none (hnone "CREATE" (by decide) (by decide)),
    ifRead_none (by simpa using hnone "DROP" (by decide) (by decide)),
    ifRead_none (by simpa using hnone "ALTER" (by decide) (by decide)),
    ifRead_none (by simpa using hnone "INSERT" (by decide) (by decide)),
    ifRead_some (by simpa using hkw), Rule.map_iff]

theorem statement_update (hkw : keyword "UPDATE" s = some m) :
    Statement s statement r ↔ ∃ cmd, Update m cmd r ∧ statement = .command cmd := by
  have hnone : ∀ kw, (ascii kw).all isAlpha → (ascii "UPDATE").map toUpper ≠ (ascii kw).map toUpper →
      keyword kw s = none := fun kw halpha hne =>
    keyword_eq_none_of_keyword hkw (by decide) halpha hne
  rw [Statement, ifRead_none (hnone "CREATE" (by decide) (by decide)),
    ifRead_none (by simpa using hnone "DROP" (by decide) (by decide)),
    ifRead_none (by simpa using hnone "ALTER" (by decide) (by decide)),
    ifRead_none (by simpa using hnone "INSERT" (by decide) (by decide)),
    ifRead_none (by simpa using hnone "SELECT" (by decide) (by decide)),
    ifRead_some (by simpa using hkw), Rule.map_iff]

theorem statement_delete (hkw : keyword "DELETE" s = some m) :
    Statement s statement r ↔ ∃ cmd, Delete m cmd r ∧ statement = .command cmd := by
  have hnone : ∀ kw, (ascii kw).all isAlpha → (ascii "DELETE").map toUpper ≠ (ascii kw).map toUpper →
      keyword kw s = none := fun kw halpha hne =>
    keyword_eq_none_of_keyword hkw (by decide) halpha hne
  rw [Statement, ifRead_none (hnone "CREATE" (by decide) (by decide)),
    ifRead_none (by simpa using hnone "DROP" (by decide) (by decide)),
    ifRead_none (by simpa using hnone "ALTER" (by decide) (by decide)),
    ifRead_none (by simpa using hnone "INSERT" (by decide) (by decide)),
    ifRead_none (by simpa using hnone "SELECT" (by decide) (by decide)),
    ifRead_none (by simpa using hnone "UPDATE" (by decide) (by decide)),
    ifRead_some (by simpa using hkw), Rule.map_iff]

/-- A command is one of the four kinds. -/
theorem command_cases {cmd : SqlCommand} (h : Statement s (.command cmd) r) :
    (∃ m, keyword "INSERT" s = some m ∧ Insert m cmd r) ∨
      (∃ m, keyword "SELECT" s = some m ∧ Select m cmd r) ∨
        (∃ m, keyword "UPDATE" s = some m ∧ Update m cmd r) ∨
          ∃ m, keyword "DELETE" s = some m ∧ Delete m cmd r := by
  rcases h with ⟨m, -, _, _, -, h⟩ | ⟨-, h⟩
  · obtain ⟨_, _, -, _, _, -, _, _, -, _, _, -, h, -⟩ := h
    cases h
  rcases h with ⟨m, -, _, _, -, h⟩ | ⟨-, h⟩
  · obtain ⟨_, _, -, h, -⟩ := h
    cases h
  rcases h with ⟨m, -, _, _, -, h⟩ | ⟨-, h⟩
  · obtain ⟨_, _, -, _, _, -, h, -⟩ := h
    cases h
  rcases h with ⟨m, hkw, h⟩ | ⟨-, h⟩
  · obtain ⟨cmd', h, hcmd⟩ := Rule.map_iff.1 h
    cases hcmd
    exact .inl ⟨m, by simpa using hkw, h⟩
  rcases h with ⟨m, hkw, h⟩ | ⟨-, h⟩
  · obtain ⟨cmd', h, hcmd⟩ := Rule.map_iff.1 h
    cases hcmd
    exact .inr (.inl ⟨m, by simpa using hkw, h⟩)
  rcases h with ⟨m, hkw, h⟩ | ⟨-, h⟩
  · obtain ⟨cmd', h, hcmd⟩ := Rule.map_iff.1 h
    cases hcmd
    exact .inr (.inr (.inl ⟨m, by simpa using hkw, h⟩))
  rcases h with ⟨m, hkw, h⟩ | ⟨-, h⟩
  · obtain ⟨cmd', h, hcmd⟩ := Rule.map_iff.1 h
    cases hcmd
    exact .inr (.inr (.inr ⟨m, by simpa using hkw, h⟩))
  rcases h with ⟨m, -, _, _, -, h, -⟩ | ⟨-, h⟩
  · cases h
  rcases h with ⟨m, -, h, -⟩ | ⟨-, h⟩
  · cases h
  rcases h with ⟨m, -, h, -⟩ | ⟨-, h⟩
  · cases h
  exact h.elim

theorem wherePredicate_some {predicate : Option NodePtr} (h : WherePredicate s predicate r) :
    ∃ node, predicate = some node ∧ Disjunction s node r ∧ node ≠ .null := by
  obtain ⟨node, m, hnode, h⟩ := h
  split_ifs at h with hnull
  · exact h.elim
  · obtain ⟨rfl, rfl⟩ := h
    exact ⟨node, rfl, hnode, hnull⟩

theorem where_some {node : NodePtr} (h : Where s (some node) r) :
    ∃ m, keyword "WHERE" s = some m ∧ WherePredicate m (some node) r := by
  rcases h with ⟨m, hm, h⟩ | ⟨-, h, -⟩
  · exact ⟨m, hm, h⟩
  · cases h

/-- The predicate of a statement is what is read behind its WHERE. -/
theorem wherePredicate_of_statement {cmd : SqlCommand} {node : NodePtr}
    (h : Statement s (.command cmd) r) (hnode : cmd.predicate = some node) :
    ∃ m r', WhereText s m ∧ WherePredicate m (some node) r' := by
  rcases command_cases h with ⟨m, hkw, h⟩ | ⟨m, hkw, h⟩ | ⟨m, hkw, h⟩ | ⟨m, hkw, h⟩
  · have hnone : cmd.predicate = none := by
      rcases h with ⟨table, m', -, ⟨_, -, _, _, -, rfl, -⟩ | ⟨-, ⟨_, -, _, _, -, rfl, -⟩ | ⟨-, h⟩⟩⟩
      · rfl
      · rfl
      · exact h.elim
    rw [hnone] at hnode
    cases hnode
  · obtain ⟨head, m₁, hhead, predicate, m₂, hwhere, orderBy, _, -, window, _, -, joins, _, -, rfl, -⟩ := h
    cases hnode
    obtain ⟨m₃, hkw', hpredicate⟩ := where_some hwhere
    exact ⟨m₃, m₂, .select hkw hhead hkw', hpredicate⟩
  · obtain ⟨head, m₁, hhead, _, m₂, hkw', predicate, m₃, hpredicate, rfl, -⟩ := h
    cases hnode
    exact ⟨m₂, m₃, .update hkw hhead hkw', hpredicate⟩
  · obtain ⟨table, m₁, hhead, _, m₂, hkw', predicate, m₃, hpredicate, rfl, -⟩ := h
    cases hnode
    exact ⟨m₂, m₃, .delete hkw hhead hkw', hpredicate⟩

theorem whereText_of_statement {cmd : SqlCommand} {node : NodePtr}
    (h : Statement s (.command cmd) r) (hnode : cmd.predicate = some node) :
    ∃ m r', WhereText s m ∧ Disjunction m node r' := by
  obtain ⟨m, r', hwhere, hpredicate⟩ := wherePredicate_of_statement h hnode
  obtain ⟨node', h', hread, -⟩ := wherePredicate_some hpredicate
  cases h'
  exact ⟨m, r', hwhere, hread⟩

/-- The predicate of a statement is not a null pointer itself. -/
theorem predicate_ne_null {cmd : SqlCommand} {node : NodePtr}
    (h : Statement s (.command cmd) r) (hnode : cmd.predicate = some node) : node ≠ .null := by
  obtain ⟨m, r', -, hpredicate⟩ := wherePredicate_of_statement h hnode
  obtain ⟨node', h', -, hne⟩ := wherePredicate_some hpredicate
  cases h'
  exact hne

end Kinds

/-! ## Every rule that is repeated reads something -/

section Lengths

variable {R S : Rule UInt8 α}

theorem consumes_if_keyword (kw : String) (hR : R.Consumes) (hS : S.Consumes) :
    (IfRead (keyword kw) R S).Consumes := by
  rintro s a r (⟨m, hm, h⟩ | ⟨-, h⟩)
  · have hlength := length_of_matchKeyword hm
    have hskip := length_skip_le s
    have hle := hR _ _ _ h
    omega
  · exact (hS _ _ _ h).trans (length_skip_le s)

theorem consumes_if_symbol (sym : String) (hR : R.Consumes) (hS : S.Consumes) :
    (IfRead (symbol sym) R S).Consumes := by
  rintro s a r (⟨m, hm, h⟩ | ⟨-, h⟩)
  · have hlength := length_of_matchSymbol hm
    have hskip := length_skip_le s
    have hle := hR _ _ _ h
    omega
  · exact (hS _ _ _ h).trans (length_skip_le s)

theorem consumes_read_keyword (kw : String) : (Read (keyword kw)).Consumes := by
  intro s a r h
  have hlength := length_of_matchKeyword h
  have hskip := length_skip_le s
  omega

theorem consumes_read_symbol (sym : String) : (Read (symbol sym)).Consumes := by
  intro s a r h
  have hlength := length_of_matchSymbol h
  have hskip := length_skip_le s
  omega

theorem consumes_token {lex : Bytes → Lexeme α} (hlex : Consuming lex) : (Token lex).Consumes :=
  fun s _ _ h => (hlex h).trans (length_skip_le s)

theorem consumes_noToken (lex : Bytes → Lexeme α) : (NoToken lex).Consumes := by
  rintro s a r ⟨-, rfl⟩
  cases lex (skip s) with
  | unterminated => exact Nat.zero_le _
  | _ => exact length_skip_le s

theorem consumes_firstOf_keyword (names : List (String × α)) : (FirstOf keyword names).Consumes := by
  induction names with
  | nil => exact .pure none
  | cons name rest ih => exact consumes_if_keyword name.1 (.pure _) ih

theorem consumes_firstOf_symbol (names : List (String × α)) : (FirstOf symbol names).Consumes := by
  induction names with
  | nil => exact .pure none
  | cons name rest ih => exact consumes_if_symbol name.1 (.pure _) ih

theorem consumes_identifier : Identifier.Consumes := consumes_token consuming_lexIdentifier

theorem consumes_literal : Literal.Consumes := consumes_token consuming_lexValue

theorem consumes_operator : Operator.Consumes :=
  consumes_if_keyword _
    (consumes_if_keyword _ (.pure _)
      (consumes_if_keyword _ (consumes_if_keyword _ (.pure _) (.pure _)) (.pure _)))
    (consumes_firstOf_symbol _)

theorem consumes_oneOf_keyword (names : List (String × α)) : (OneOf keyword names).Consumes :=
  fun _ _ _ h => consumes_firstOf_keyword names _ _ _ h

theorem consumes_constraints (b : ColumnDef × Bool) : (Constraints b).Consumes := by
  refine .iterate ?_ b
  rintro ⟨column, hasPrimaryKey⟩
  refine consumes_if_keyword _ ?_ (consumes_if_keyword _ ?_ (consumes_if_keyword _ (.pure _)
    (consumes_if_keyword _ ?_ (.pure _))))
  · exact .bind (consumes_read_keyword _) fun _ => .ite .never (.pure _)
  · exact .bind (consumes_read_keyword _) fun _ => .pure _
  · exact consumes_if_keyword _ (.pure _) (.bind consumes_literal fun _ => .pure _)

theorem consumes_columnSpec (hasPrimaryKey : Bool) : (ColumnSpec hasPrimaryKey).Consumes :=
  .bind consumes_identifier fun _ => .bind (consumes_oneOf_keyword _) fun _ => consumes_constraints _

theorem consumes_orderItem : OrderItem.Consumes := by
  refine .bind consumes_identifier fun _ => .bind ?_ fun _ => .bind ?_ fun _ => .pure _
  · exact consumes_if_keyword _ (.pure _) (consumes_if_keyword _ (.pure _) (.pure _))
  · exact consumes_if_keyword _
      (consumes_if_keyword _ (.pure _) (consumes_if_keyword _ (.pure _) .never)) (.pure _)

theorem consumes_join (kind : JoinKind) : (Join kind).Consumes :=
  .bind consumes_identifier fun _ => .bind (consumes_read_keyword _) fun _ =>
    .bind consumes_identifier fun _ => .bind (consumes_read_symbol _) fun _ =>
      .bind consumes_identifier fun _ => .bind (consumes_read_symbol _) fun _ =>
        .bind consumes_identifier fun _ => .bind (consumes_read_symbol _) fun _ =>
          .bind consumes_identifier fun _ => .pure _

theorem consumes_assignment : Assignment.Consumes :=
  .bind consumes_identifier fun _ => .bind (consumes_read_symbol _) fun _ =>
    .bind consumes_literal fun _ => .pure _

theorem consumes_comparand (column : Bytes) (op : ComparisonOp) :
    (Comparand column op).Consumes := by
  intro s node r h
  cases h with
  | nullTest => exact le_rfl
  | value _ hvalue => exact consumes_literal _ _ _ hvalue
  | noValue _ hvalue => exact consumes_noToken _ _ _ _ hvalue

theorem consumes_operand : Operand.Consumes := by
  intro s node r h
  cases h with
  | comparison hcolumn hop hcomparand =>
    exact (consumes_comparand _ _ _ _ _ hcomparand).trans
      ((consumes_operator _ _ _ hop).trans (consumes_identifier _ _ _ hcolumn))
  | noColumn hcolumn => exact consumes_noToken _ _ _ _ hcolumn
  | noOperator hcolumn hop =>
    exact (consumes_operator _ _ _ hop).trans (consumes_identifier _ _ _ hcolumn)

theorem consumes_chain (kw : String) (op : LogicalOp) {operand : Rule UInt8 NodePtr}
    (h : operand.Consumes) : (Chain kw op operand).Consumes :=
  .bind h fun _ => .iterate (fun _ => consumes_if_keyword _ (.bind h fun _ => .pure _) (.pure _)) _

theorem shrinks_if_keyword {kw : String} {T U : Rule UInt8 (α ⊕ β)} (hkw : ascii kw ≠ [])
    (hT : T.Consumes) (hU : U.Shrinks) : (IfRead (keyword kw) T U).Shrinks := by
  rintro s a r (⟨m, hm, h⟩ | ⟨-, h⟩)
  · exact (hT _ _ _ h).trans_lt (keyword_length_lt hkw hm)
  · exact (hU _ _ _ h).trans_le (length_skip_le s)

theorem shrinks_if_symbol {sym : String} {T U : Rule UInt8 (α ⊕ β)} (hsym : ascii sym ≠ [])
    (hT : T.Consumes) (hU : U.Shrinks) : (IfRead (symbol sym) T U).Shrinks := by
  rintro s a r (⟨m, hm, h⟩ | ⟨-, h⟩)
  · exact (hT _ _ _ h).trans_lt (symbol_length_lt hsym hm)
  · exact (hU _ _ _ h).trans_le (length_skip_le s)

theorem joinWords_length_lt {s r : Bytes} {kind : JoinKind} (h : JoinWords s (some kind) r) :
    r.length < s.length := by
  have hjoin : ∀ {s : Bytes} {kind kind' : JoinKind},
      IfRead (keyword "JOIN") (return some kind) (return none) s (some kind') r →
        r.length < s.length := by
    rintro s kind kind' (⟨m, hm, -, rfl⟩ | ⟨-, h, -⟩)
    · exact keyword_length_lt ascii_ne_nil hm
    · cases h
  rcases h with ⟨m, hm, h⟩ | ⟨-, h⟩
  · exact (hjoin h).trans (keyword_length_lt ascii_ne_nil hm)
  · refine lt_of_lt_of_le ?_ (length_skip_le s)
    rcases h with ⟨m, hm, h⟩ | ⟨-, h⟩
    · exact (hjoin h).trans (keyword_length_lt ascii_ne_nil hm)
    · exact (hjoin h).trans_le (length_skip_le _)

end Lengths

end Sql

end OpenDB
