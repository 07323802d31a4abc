import OpenDB.Frontend.SqlLexer
import OpenDB.Types.Command
import OpenDB.Types.ValueText

/-!
# The SQL parser

The recursive-descent parser, function by function. A function that gives up writes what it expected
into `error_` and returns nothing, which every caller hands on; the functions for predicates return a
null pointer instead, and the one for a list of values what it has read so far, and there the callers
do not look.
-/

set_option autoImplicit false

namespace OpenDB

open OpenDB.Library

namespace Sql

/-! ## Statements -/

/-- A `std::unique_ptr<PredicateNode>` as the parser builds it: any child may be null. -/
inductive NodePtr where
  | null
  | comparison (column : Bytes) (op : ComparisonOp) (operand : Value)
  | logical (op : LogicalOp) (left right : NodePtr)
  deriving DecidableEq

/-- A `Command` with the predicate that the parser has built. -/
structure SqlCommand where
  type : CommandType
  table : Bytes
  predicate : Option NodePtr
  values : Option Tuple
  projections : List Bytes
  orderBy : List OrderBySpec
  joins : List JoinClause
  limit : Option UInt64
  offset : Option UInt64
  deriving DecidableEq

inductive SqlStatement where
  | createTable (schema : Schema)
  | dropTable (table : Bytes)
  | alterTable (table : Bytes) (spec : AlterSpec)
  | txnBegin
  | txnCommit
  | txnRollback
  | command (cmd : SqlCommand)
  deriving DecidableEq

/-! ## The parser object -/

/-- Why a function of the parser returns nothing. -/
inductive SqlStop where
  /-- `std::nullopt`. -/
  | rejected
  | invalidArgument (what : Bytes)
  | nullDereference
  /-- The bound of a loop; it is never reached. -/
  | exhausted
  deriving DecidableEq, Repr

/-- The input, what is left of it, and the text of the last error. -/
structure SqlParser where
  input : Bytes
  rest : Bytes
  error : Bytes
  deriving DecidableEq

namespace SqlParser

abbrev Parser (α : Type) : Type := EStateM SqlStop SqlParser α

/-- `pos_`. -/
def pos (p : SqlParser) : Nat := p.input.length - p.rest.length

def moveTo (rest : Bytes) : Parser Unit := modify fun p => { p with rest := rest }

def setError (what : Bytes) : Parser Unit := modify fun p => { p with error := what }

/-- `error_ = what; return std::nullopt;`. -/
def reject {α : Type} (what : String) : Parser α := do
  setError (ascii what)
  throw .rejected

/-- What a caller does that needs the token. -/
def orReject {α : Type} (x : Parser (Option α)) (what : String) : Parser α := do
  match ← x with
  | some a => return a
  | none => reject what

def require (x : Parser Bool) (what : String) : Parser Unit := do
  if ← x then return () else reject what

/-- A `while (true)` of the parser. -/
def loop {β γ : Type} (body : β → Parser (β ⊕ γ)) (b : β) : Parser γ :=
  whileTrue SqlParser.rest .exhausted body b

/-! ## Tokens -/

def skipWhitespaceAndComments : Parser Unit := modify fun p => { p with rest := Sql.skip p.rest }

def consumeKeyword (kw : String) : Parser Bool := do
  skipWhitespaceAndComments
  match Sql.matchKeyword kw (← get).rest with
  | some rest =>
    moveTo rest
    return true
  | none => return false

def consumeSymbol (sym : String) : Parser Bool := do
  skipWhitespaceAndComments
  match Sql.matchSymbol sym (← get).rest with
  | some rest =>
    moveTo rest
    return true
  | none => return false

/-- A token of the given kind; a token that is cut off takes the rest of the text with it. -/
def consume {α : Type} (lex : Bytes → Sql.Lexeme α) (unterminated : String) : Parser (Option α) := do
  skipWhitespaceAndComments
  match lex (← get).rest with
  | .found a rest =>
    moveTo rest
    return some a
  | .missing => return none
  | .unterminated =>
    moveTo []
    setError (ascii unterminated)
    return none
  | .malformed =>
    setError (ascii "expected value literal at position " ++ decimal (← get).pos)
    return none

def consumeIdentifier : Parser (Option Bytes) :=
  consume Sql.lexIdentifier "unterminated quoted identifier"

def consumeWord : Parser (Option Bytes) := consume Sql.lexWord ""

def consumeStringLiteral : Parser (Option Bytes) :=
  consume Sql.lexString "unterminated string literal"

def consumeValueLiteral : Parser (Option Value) :=
  consume Sql.lexValue "unterminated string literal"

/-- The first keyword of a list that is there: a chain of `if (consumeKeyword(..))`. -/
def firstKeyword {α : Type} : List (String × α) → Parser (Option α)
  | [] => return none
  | (kw, a) :: rest => do if ← consumeKeyword kw then return some a else firstKeyword rest

def firstSymbol {α : Type} : List (String × α) → Parser (Option α)
  | [] => return none
  | (sym, a) :: rest => do if ← consumeSymbol sym then return some a else firstSymbol rest

/-! ## Tables -/

def columnTypes : List (String × ValueType) :=
  [("INT", .int64), ("INTEGER", .int64), ("BIGINT", .int64), ("SMALLINT", .int32),
    ("DOUBLE", .double), ("REAL", .double), ("FLOAT", .double),
    ("TEXT", .text), ("VARCHAR", .text), ("CHAR", .text), ("BLOB", .blob), ("BYTEA", .blob),
    ("DATE", .date), ("TIMESTAMP", .timestamp), ("BOOL", .bool), ("BOOLEAN", .bool)]

/-- One round of the constraints of a column; the flag says whether the table has a primary key. -/
def parseConstraint : ColumnDef × Bool → Parser ((ColumnDef × Bool) ⊕ (ColumnDef × Bool))
  | (out, hasPrimaryKey) => do
    skipWhitespaceAndComments
    if ← consumeKeyword "PRIMARY" then
      require (consumeKeyword "KEY") "expected KEY after PRIMARY"
      if hasPrimaryKey then reject "only one PRIMARY KEY allowed"
      else return .inl ({ out with primaryKey := true }, true)
    else if ← consumeKeyword "NOT" then
      require (consumeKeyword "NULL") "expected NULL after NOT"
      return .inl ({ out with nullable := false }, hasPrimaryKey)
    else if ← consumeKeyword "NULL" then
      return .inl ({ out with nullable := true }, hasPrimaryKey)
    else if ← consumeKeyword "DEFAULT" then
      if ← consumeKeyword "NULL" then
        return .inl ({ out with defaultValue := some .null }, hasPrimaryKey)
      else
        let dv ← orReject consumeValueLiteral "expected literal after DEFAULT"
        return .inl ({ out with defaultValue := some dv }, hasPrimaryKey)
    else return .inr (out, hasPrimaryKey)

def parseColumnSpec (hasPrimaryKey : Bool) : Parser (ColumnDef × Bool) := do
  let name ← orReject consumeIdentifier "expected column name"
  let type ← orReject (firstKeyword columnTypes) "unknown column type"
  loop parseConstraint (⟨name, type, true, false, 0, .empty, none⟩, hasPrimaryKey)

/-- One round of the list of columns. -/
def parseColumn : List ColumnDef × Bool → Parser ((List ColumnDef × Bool) ⊕ List ColumnDef)
  | (columns, hasPrimaryKey) => do
    skipWhitespaceAndComments
    if ← consumeSymbol ")" then return .inr columns
    else
      let (col, hasPrimaryKey) ← parseColumnSpec hasPrimaryKey
      let columns := columns ++ [col]
      skipWhitespaceAndComments
      if ← consumeSymbol "," then return .inl (columns, hasPrimaryKey)
      else if ← consumeSymbol ")" then return .inr columns
      else reject "expected ',' or ')' in column list"

/-- The PARTITION BY clause. -/
def parsePartition : Parser (Option PartitionPolicy) := do
  if ← consumeKeyword "PARTITION" then
    require (consumeKeyword "BY") "expected BY after PARTITION"
    require (consumeKeyword "HASH") "only HASH partitioning supported"
    require (consumeSymbol "(") "expected '(' after HASH"
    let colName ← orReject consumeIdentifier "expected partition column name"
    require (consumeSymbol ")") "expected ')' after partition column"
    require (consumeKeyword "PARTITIONS") "expected PARTITIONS N"
    let countStr ← orReject consumeWord "expected partition count"
    let n := atoi countStr
    if n ≤ 0 then reject "partition count must be positive"
    else return some ⟨.hash, colName, n.toUInt32, [], []⟩
  else return none

def parseCreateTable : Parser SqlStatement := do
  let tableName ← orReject consumeIdentifier "expected table name after CREATE TABLE"
  require (consumeSymbol "(") "expected '(' after table name"
  let columns ← loop parseColumn ([], false)
  let partition ← parsePartition
  return .createTable ⟨tableName, columns, partition⟩

def parseDropTable : Parser SqlStatement := do
  let tableName ← orReject consumeIdentifier "expected table name after DROP TABLE"
  return .dropTable tableName

/-- The `AlterSpec` of `parseAlterTable`. -/
def parseAlterSpec : Parser AlterSpec := do
  if ← consumeKeyword "ADD" then
    require (consumeKeyword "COLUMN") "expected COLUMN after ADD"
    let (col, _) ← parseColumnSpec false
    return .addColumn col
  else if ← consumeKeyword "DROP" then
    require (consumeKeyword "COLUMN") "expected COLUMN after DROP"
    let colName ← orReject consumeIdentifier "expected column name"
    return .dropColumn colName
  else if ← consumeKeyword "RENAME" then
    require (consumeKeyword "TO") "expected TO after RENAME"
    let newName ← orReject consumeIdentifier "expected new table name after RENAME TO"
    return .renameTable newName
  else reject "expected ADD, DROP, or RENAME after ALTER TABLE"

def parseAlterTable : Parser SqlStatement := do
  let tableName ← orReject consumeIdentifier "expected table name after ALTER TABLE"
  let spec ← parseAlterSpec
  return .alterTable tableName spec

/-! ## Predicates -/

def comparisonSymbols : List (String × ComparisonOp) :=
  [("=", .equals), ("!=", .notEquals), ("<=", .lessEquals), (">=", .greaterEquals), ("<", .less),
    (">", .greater)]

def parseComparisonOp : Parser (Option ComparisonOp) := do
  skipWhitespaceAndComments
  if ← consumeKeyword "IS" then
    skipWhitespaceAndComments
    if ← consumeKeyword "NULL" then return some .isNull
    else if ← consumeKeyword "NOT" then
      skipWhitespaceAndComments
      if ← consumeKeyword "NULL" then return some .isNotNull
      else
        setError (ascii "expected NULL after IS NOT")
        return none
    else
      setError (ascii "expected NULL or NOT NULL after IS")
      return none
  else firstSymbol comparisonSymbols

/-- Whether the operator stands without a value. -/
def isNullTest : ComparisonOp → Bool
  | .isNull => true
  | .isNotNull => true
  | _ => false

/-- The end of `parsePrimExpr`: the value that the column is compared with. -/
def parseComparand (col : Bytes) (op : ComparisonOp) : Parser NodePtr := do
  if isNullTest op then return .comparison col op .null
  else
    match ← consumeValueLiteral with
    | none => return .null
    | some val => return .comparison col op val

def parsePrimExpr : Parser NodePtr := do
  skipWhitespaceAndComments
  match ← consumeIdentifier with
  | none =>
    setError (ascii "expected column name in predicate")
    return .null
  | some col =>
    match ← parseComparisonOp with
    | none =>
      setError (ascii "expected comparison operator")
      return .null
    | some op => parseComparand col op

/-- One round of `parseAndExpr` or `parseOrExpr`. -/
def parseOperand (kw : String) (op : LogicalOp) (operand : Parser NodePtr) (left : NodePtr) :
    Parser (NodePtr ⊕ NodePtr) := do
  skipWhitespaceAndComments
  if ← consumeKeyword kw then
    let right ← operand
    return .inl (.logical op left right)
  else return .inr left

def parseAndExpr : Parser NodePtr := do
  let left ← parsePrimExpr
  loop (parseOperand "AND" .and parsePrimExpr) left

def parseOrExpr : Parser NodePtr := do
  let left ← parseAndExpr
  loop (parseOperand "OR" .or parseAndExpr) left

/-- The predicate behind WHERE: `if (!pred) return std::nullopt;`. -/
def parseWherePredicate : Parser (Option NodePtr) := do
  let pred ← parseOrExpr
  if pred = .null then throw .rejected else return some pred

/-- The WHERE clause of SELECT, UPDATE and DELETE. -/
def parseWhere : Parser (Option NodePtr) := do
  if ← consumeKeyword "WHERE" then parseWherePredicate else return none

/-! ## Commands -/

/-- `Command::validate`. -/
def validate (type : CommandType) (predicate : Option NodePtr) (values : Option Tuple) :
    Option String :=
  match type with
  | .insert =>
    if values.isNone then some "Insert requires values"
    else if predicate.isSome then some "Insert must not carry WHERE"
    else none
  | .update =>
    if predicate.isNone then some "Update requires WHERE"
    else if values.isNone then some "Update requires values"
    else none
  | .delete =>
    if predicate.isNone then some "Delete requires WHERE"
    else if values.isSome then some "Delete must not carry values"
    else none
  | .select => none

/-- The constructor of a command. -/
def makeCommand (type : CommandType) (table : Bytes) (predicate : Option NodePtr)
    (values : Option Tuple) (projections : List Bytes) : Parser SqlCommand :=
  match validate type predicate values with
  | some what => throw (.invalidArgument (ascii what))
  | none => return ⟨type, table, predicate, values, projections, [], [], none, none⟩

/-- One round of a list of values. -/
def parseInsertValue (t : Tuple) : Parser (Tuple ⊕ Tuple) := do
  match ← consumeValueLiteral with
  | none => return .inr t
  | some val =>
    let t := t.set (decimal t.columns.length) val
    if ← consumeSymbol "," then return .inl t
    else if ← consumeSymbol ")" then return .inr t
    else
      setError (ascii "expected ',' or ')' in value list")
      return .inr t

def parseInsertValueList : Parser Tuple := do
  if ← consumeSymbol "(" then loop parseInsertValue .empty
  else
    setError (ascii "expected '(' after VALUES")
    return .empty

/-- One round of the column names of an INSERT. -/
def parseInsertColumn (columns : List Bytes) : Parser (List Bytes ⊕ List Bytes) := do
  let col ← orReject consumeIdentifier "expected column name"
  let columns := columns ++ [col]
  if ← consumeSymbol "," then return .inl columns
  else if ← consumeSymbol ")" then return .inr columns
  else reject "expected ',' or ')' in column list"

/-- The column names of an INSERT; nothing looks at them. -/
def parseInsertColumns : Parser (List Bytes) := do
  if ← consumeSymbol "(" then loop parseInsertColumn []
  else return []

/-- The start of `parseInsert`: the table. -/
def parseInsertHead : Parser Bytes := do
  let _ ← consumeKeyword "INTO"
  let table ← orReject consumeIdentifier "expected table name after INSERT"
  let _ ← parseInsertColumns
  return table

def parseInsert : Parser SqlCommand := do
  let table ← parseInsertHead
  if ← consumeKeyword "VALUES" then
    let t ← parseInsertValueList
    makeCommand .insert table none (some t) []
  else if ← consumeKeyword "DEFAULT" then
    require (consumeKeyword "VALUES") "expected VALUES after DEFAULT"
    makeCommand .insert table none (some .empty) []
  else reject "expected VALUES or DEFAULT VALUES"

/-- One round of a list that goes on behind each comma. -/
def parseItem {α β : Type} (item : Parser α) (add : β → α → β) (b : β) : Parser (β ⊕ β) := do
  let a ← item
  if ← consumeSymbol "," then return .inl (add b a) else return .inr (add b a)

def parseProjections : Parser (List Bytes) := do
  if ← consumeSymbol "*" then return [ascii "*"]
  else
    loop (parseItem (orReject consumeIdentifier "expected column name in SELECT")
      fun columns col => columns ++ [col]) []

def parseSortDirection : Parser SortDirection := do
  if ← consumeKeyword "ASC" then return .asc
  else if ← consumeKeyword "DESC" then return .desc
  else return .asc

def parseNullsFirst : Parser (Option Bool) := do
  if ← consumeKeyword "NULLS" then
    if ← consumeKeyword "FIRST" then return some true
    else if ← consumeKeyword "LAST" then return some false
    else reject "expected FIRST or LAST after NULLS"
  else return none

def parseOrderItem : Parser OrderBySpec := do
  let col ← orReject consumeIdentifier "expected column name in ORDER BY"
  let dir ← parseSortDirection
  let nullsFirst ← parseNullsFirst
  return ⟨col, dir, nullsFirst⟩

def parseOrderBy : Parser (List OrderBySpec) := do
  if ← consumeKeyword "ORDER" then
    require (consumeKeyword "BY") "expected BY after ORDER"
    loop (parseItem parseOrderItem fun specs spec => specs ++ [spec]) []
  else return []

/-- A count behind LIMIT or OFFSET. -/
def parseCount (what : String) : Parser UInt64 := do
  match ← orReject consumeValueLiteral what with
  | .int64 n => return n.toUInt64
  | .int32 n => return n.toInt64.toUInt64
  | _ => reject what

def parseOffset : Parser (Option UInt64) := do
  if ← consumeKeyword "OFFSET" then
    let n ← parseCount "expected integer after OFFSET"
    return some n
  else return none

/-- LIMIT and OFFSET. -/
def parseWindow : Parser (Option UInt64 × Option UInt64) := do
  if ← consumeKeyword "LIMIT" then
    let limit ← parseCount "expected integer after LIMIT"
    let offset ← parseOffset
    return (some limit, offset)
  else
    let offset ← parseOffset
    return (none, offset)

/-- The keywords in front of a joined table; INNER and LEFT are read also where no JOIN follows. -/
def parseJoinKind : Parser (Option JoinKind) := do
  if ← consumeKeyword "INNER" then
    if ← consumeKeyword "JOIN" then return some .inner else return none
  else if ← consumeKeyword "LEFT" then
    if ← consumeKeyword "JOIN" then return some .left else return none
  else if ← consumeKeyword "JOIN" then return some .inner
  else return none

/-- A joined table with its condition. -/
def parseJoinClause (kind : JoinKind) : Parser JoinClause := do
  let rightTable ← orReject consumeIdentifier "expected table name after JOIN"
  require (consumeKeyword "ON") "expected ON after JOIN table"
  let leftTbl ← orReject consumeIdentifier "expected left table in JOIN ON"
  require (consumeSymbol ".") "expected '.' in JOIN ON left"
  let leftCol ← orReject consumeIdentifier "expected left column in JOIN ON"
  require (consumeSymbol "=") "expected '=' in JOIN ON"
  let rightTbl ← orReject consumeIdentifier "expected right table in JOIN ON"
  require (consumeSymbol ".") "expected '.' in JOIN ON right"
  let rightCol ← orReject consumeIdentifier "expected right column in JOIN ON"
  return ⟨kind, rightTable, leftTbl ++ ascii "." ++ leftCol, rightTbl ++ ascii "." ++ rightCol⟩

/-- One round of the joins. -/
def parseJoin (joins : List JoinClause) : Parser (List JoinClause ⊕ List JoinClause) := do
  match ← parseJoinKind with
  | none => return .inr joins
  | some kind =>
    let jc ← parseJoinClause kind
    return .inl (joins ++ [jc])

/-- The start of `parseSelect`: the projections and the table. -/
def parseSelectHead : Parser (List Bytes × Bytes) := do
  let projections ← parseProjections
  require (consumeKeyword "FROM") "expected FROM after SELECT"
  let table ← orReject consumeIdentifier "expected table name after FROM"
  return (projections, table)

def parseSelect : Parser SqlCommand := do
  let (projections, table) ← parseSelectHead
  let predicate ← parseWhere
  let orderBy ← parseOrderBy
  let (limit, offset) ← parseWindow
  let cmd ← makeCommand .select table predicate none projections
  let joins ← loop parseJoin []
  return { cmd with orderBy := orderBy, limit := limit, offset := offset, joins := joins }

/-- One assignment of an UPDATE. -/
def parseAssignment : Parser (Bytes × Value) := do
  let col ← orReject consumeIdentifier "expected column name in SET"
  require (consumeSymbol "=") "expected '=' after column"
  match ← consumeValueLiteral with
  | none => throw .rejected
  | some val => return (col, val)

def parseAssignments : Parser Tuple :=
  loop (parseItem parseAssignment fun t (col, val) => t.set col val) .empty

/-- The start of `parseUpdate`: the table and its new values. -/
def parseUpdateHead : Parser (Bytes × Tuple) := do
  let table ← orReject consumeIdentifier "expected table name after UPDATE"
  require (consumeKeyword "SET") "expected SET after table name"
  let values ← parseAssignments
  return (table, values)

def parseUpdate : Parser SqlCommand := do
  let (table, values) ← parseUpdateHead
  let predicate ← parseWhere
  makeCommand .update table predicate (some values) []

/-- The start of `parseDelete`: the table. -/
def parseDeleteHead : Parser Bytes := do
  let _ ← consumeKeyword "FROM"
  orReject consumeIdentifier "expected table name after DELETE"

def parseDelete : Parser SqlCommand := do
  let table ← parseDeleteHead
  let predicate ← parseWhere
  makeCommand .delete table predicate none []

/-! ## Statements -/

/-- CREATE, DROP and ALTER go on with TABLE. -/
def parseTableStatement (x : Parser SqlStatement) (what : String) : Parser SqlStatement := do
  if ← consumeKeyword "TABLE" then x else reject what

/-- `parseStatement` behind its check for an empty text. -/
def parseKind : Parser SqlStatement := do
  if ← consumeKeyword "CREATE" then
    parseTableStatement parseCreateTable "expected TABLE after CREATE"
  else if ← consumeKeyword "DROP" then
    parseTableStatement parseDropTable "expected TABLE after DROP"
  else if ← consumeKeyword "ALTER" then
    parseTableStatement parseAlterTable "expected TABLE after ALTER"
  else if ← consumeKeyword "INSERT" then .command <$> parseInsert
  else if ← consumeKeyword "SELECT" then .command <$> parseSelect
  else if ← consumeKeyword "UPDATE" then .command <$> parseUpdate
  else if ← consumeKeyword "DELETE" then .command <$> parseDelete
  else if ← consumeKeyword "BEGIN" then
    let _ ← consumeKeyword "TRANSACTION"
    return .txnBegin
  else if ← consumeKeyword "COMMIT" then return .txnCommit
  else if ← consumeKeyword "ROLLBACK" then return .txnRollback
  else reject "unknown statement type"

def parseStatement : Parser SqlStatement := do
  skipWhitespaceAndComments
  if (← get).rest.isEmpty then reject "empty statement" else parseKind

/-- What a function returns whose result may be missing. -/
def attempt {α : Type} (x : Parser α) : Parser (Option α) := fun p =>
  match x.run p with
  | .ok a p' => .ok (some a) p'
  | .error .rejected p' => .ok none p'
  | .error stop p' => .error stop p'

def parse (sql : Bytes) : Parser (Option SqlStatement) := do
  set (SqlParser.mk sql sql [])
  attempt parseStatement

/-! ## Lists of statements -/

/-- The texts between the semicolons that stand outside of quotes. -/
def splitStatements (inSingle inDouble : Bool) (current : Bytes) : Bytes → List Bytes
  | [] =>
    if inSingle || inDouble then (if current.isEmpty then [] else [current]) else [current]
  | c :: rest =>
    if c = 39 ∧ inDouble = false then splitStatements (!inSingle) inDouble (current ++ [c]) rest
    else if c = 34 ∧ inSingle = false then splitStatements inSingle (!inDouble) (current ++ [c]) rest
    else if c = 59 ∧ inSingle = false ∧ inDouble = false then
      current :: splitStatements inSingle inDouble [] rest
    else splitStatements inSingle inDouble (current ++ [c]) rest

/-- `PredicateNode::clone`; nothing if it goes through a null pointer. -/
def cloneNode : NodePtr → Option NodePtr
  | .null => none
  | .comparison column op operand => some (.comparison column op operand)
  | .logical op left right => do
    let left ← cloneNode left
    let right ← cloneNode right
    return .logical op left right

/-- The copy of a predicate; an empty one has nothing to clone. -/
def copyPredicate : NodePtr → Option NodePtr
  | .null => some .null
  | node => cloneNode node

/-- The copy of a statement that a list of statements takes. -/
def copyStatement : SqlStatement → Parser SqlStatement
  | .command cmd =>
    match cmd.predicate with
    | none => return .command cmd
    | some node =>
      match copyPredicate node with
      | none => throw .nullDereference
      | some node => return .command { cmd with predicate := some node }
  | statement => return statement

def parseEach : List Bytes → Parser (List SqlStatement)
  | [] => return []
  | stmt :: rest => do
    match ← parse stmt with
    | none => parseEach rest
    | some parsed =>
      let copy ← copyStatement parsed
      let out ← parseEach rest
      return copy :: out

def parseAll (sql : Bytes) : Parser (List SqlStatement) :=
  parseEach (splitStatements false false [] sql)

end SqlParser

end Sql

end OpenDB
