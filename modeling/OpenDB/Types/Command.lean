import OpenDB.Types.Schema

/-!
# Commands

What a front end hands to the core: a predicate tree for WHERE, the clauses of a SELECT, the values
of a write, and the transaction the command belongs to, if it names one. The constructor of a command
refuses the combinations that make no sense, so a command carries the fact that its fields go
together.
-/

set_option autoImplicit false

namespace OpenDB

/-! ## Access to tuples -/

namespace Tuple

/-- `Tuple::maybeGet`. -/
def maybeGet (t : Tuple) (name : Bytes) : Option Value :=
  (t.columns.find? fun c => c.name = name).map ColumnValue.value

def isEmpty (t : Tuple) : Bool := t.columns.isEmpty

theorem maybeGet_set (row : Tuple) (name column : Bytes) (v : Value) :
    (row.set name v).maybeGet column = if name = column then some v else row.maybeGet column := by
  have hcolumns : ∀ cs : List ColumnValue,
      ((setColumns name v cs).find? fun c => c.name = column).map ColumnValue.value =
        if name = column then some v
        else (cs.find? fun c => c.name = column).map ColumnValue.value := by
    intro cs
    induction cs with
    | nil => by_cases h : name = column <;> simp [setColumns, h]
    | cons c cs ih =>
      by_cases hname : c.name = name
      · by_cases h : name = column <;> simp [setColumns, hname, h]
      · by_cases h : c.name = column
        · have hne : column ≠ name := fun heq => hname (h.trans heq)
          simp [setColumns, h, hne, hne.symm]
        · simpa [setColumns, hname, h] using ih
  exact hcolumns row.columns

end Tuple

/-! ## Predicates -/

inductive ComparisonOp where
  | equals | notEquals | less | lessEquals | greater | greaterEquals | isNull | isNotNull
  deriving DecidableEq, Repr

inductive LogicalOp where
  | and | or
  deriving DecidableEq, Repr

/-- `PredicateNode`: a comparison of a column with a constant, or a conjunction or disjunction. -/
inductive PredicateNode where
  | comparison (column : Bytes) (op : ComparisonOp) (operand : Value)
  | logical (op : LogicalOp) (children : List PredicateNode)

namespace PredicateNode

/-- `ComparisonNode::evaluate`; a column that is not there is like a null. -/
def compareColumn (op : ComparisonOp) (operand : Value) : Option Value → Bool
  | none => op == .isNull
  | some v =>
    match op with
    | .equals => !v.isNull && !operand.isNull && v.compare operand == .eq
    | .notEquals => !v.isNull && !operand.isNull && v.compare operand != .eq
    | .less => !v.isNull && !operand.isNull && v.compare operand == .lt
    | .lessEquals => !v.isNull && !operand.isNull && v.compare operand != .gt
    | .greater => !v.isNull && !operand.isNull && v.compare operand == .gt
    | .greaterEquals => !v.isNull && !operand.isNull && v.compare operand != .lt
    | .isNull => v.isNull
    | .isNotNull => !v.isNull

mutual

/-- `PredicateNode::evaluate`. -/
def evaluate (row : Tuple) : PredicateNode → Bool
  | .comparison column op operand => compareColumn op operand (row.maybeGet column)
  | .logical .and children => evaluateAll row children
  | .logical .or children => evaluateAny row children

/-- The loop of a conjunction: the first false child decides. -/
def evaluateAll (row : Tuple) : List PredicateNode → Bool
  | [] => true
  | c :: cs => if evaluate row c then evaluateAll row cs else false

/-- The loop of a disjunction: the first true child decides. -/
def evaluateAny (row : Tuple) : List PredicateNode → Bool
  | [] => false
  | c :: cs => if evaluate row c then true else evaluateAny row cs

end

end PredicateNode

/-- `Predicate`: a tree, or nothing. -/
structure Predicate where
  root : Option PredicateNode

/-- `Predicate::evaluate`; an empty predicate is false. -/
def Predicate.evaluate (p : Predicate) (row : Tuple) : Bool :=
  match p.root with
  | none => false
  | some node => node.evaluate row

/-! ## Commands -/

inductive CommandType where
  | select | insert | update | delete
  deriving DecidableEq, Repr

inductive SortDirection where
  | asc | desc
  deriving DecidableEq, Repr

structure OrderBySpec where
  column : Bytes
  direction : SortDirection
  nullsFirst : Option Bool
  deriving DecidableEq, Repr

inductive JoinKind where
  | inner | left
  deriving DecidableEq, Repr

structure JoinClause where
  kind : JoinKind
  table : Bytes
  leftColumn : Bytes
  rightColumn : Bytes
  deriving DecidableEq, Repr

/-- `Command::validate`. -/
def CommandType.Accepts (type : CommandType) (predicate : Option Predicate) (values : Option Tuple) :
    Prop :=
  match type with
  | .insert => values.isSome ∧ predicate.isNone
  | .update => predicate.isSome ∧ values.isSome
  | .delete => predicate.isSome ∧ values.isNone
  | .select => True

structure Command where
  type : CommandType
  table : Bytes
  predicate : Option Predicate
  values : Option Tuple
  projections : List Bytes
  orderBy : List OrderBySpec
  joins : List JoinClause
  limit : Option UInt64
  offset : Option UInt64
  txnId : Option UInt64
  valid : type.Accepts predicate values

namespace Command

/-- A SELECT of all rows that satisfy the predicate, if there is one. -/
def select (table : Bytes) (predicate : Option Predicate) : Command :=
  ⟨.select, table, predicate, none, [], [], [], none, none, none, trivial⟩

def insert (table : Bytes) (values : Tuple) : Command :=
  ⟨.insert, table, none, some values, [], [], [], none, none, none, rfl, rfl⟩

def update (table : Bytes) (predicate : Predicate) (values : Tuple) : Command :=
  ⟨.update, table, some predicate, some values, [], [], [], none, none, none, rfl, rfl⟩

def delete (table : Bytes) (predicate : Predicate) : Command :=
  ⟨.delete, table, some predicate, none, [], [], [], none, none, none, rfl, rfl⟩

end Command

/-! ## Results -/

structure ResultSet where
  success : Bool
  rows : List Tuple
  deriving DecidableEq

/-- What a front end is shown: a result or an error. -/
inductive Response where
  | result (rs : ResultSet)
  | error (e : DbError)
  deriving DecidableEq

namespace DbError

def internal (message : Bytes) : DbError := ⟨.internal, message⟩

def notFound (message : Bytes) : DbError := ⟨.notFound, message⟩

def deadlock (message : Bytes) : DbError := ⟨.deadlock, message⟩

def lockTimeout (message : Bytes) : DbError := ⟨.lockTimeout, message⟩

def queryTimeout (message : Bytes) : DbError := ⟨.queryTimeout, message⟩

def parseError (message : Bytes) : DbError := ⟨.parseError, message⟩

def notSupported (message : Bytes) : DbError := ⟨.notSupported, message⟩

end DbError

end OpenDB
