import OpenDB.Frontend.SqlTables

/-!
# Statements that are written out

A statement of bare names and of integers, truth values, nulls and texts without quotes can be written
down in SQL, word by word (`PlainStatement.words`). The parser reads what is written as the statement
it was written for, and up to the end of the text (`parse_rendered`), whatever clauses the statement has.
The clauses have to be written in the order in which the parser looks for them: joins come last, behind
LIMIT and OFFSET.

So do lists of statements with semicolons between them (`parseAll_rendered`).
-/

set_option autoImplicit false

namespace OpenDB

open OpenDB.Library

namespace Sql

variable {ws : List SqlWord}

/-! ## Conditions -/

/-- The words of a WHERE clause. -/
def whereWords (condition : Filled Clause) : List SqlWord :=
  [.fixed "WHERE" rfl, .condition condition]

/-- What may stand behind the table or the condition of a query. -/
def queryEnds : List String := ["ORDER", "LIMIT", "OFFSET", "INNER", "LEFT"]

theorem clausesNode_complete (condition : Filled Clause) : (clausesNode condition).Complete := by
  obtain ⟨m, hchain, -⟩ := clauses_append condition
  exact ((SqlParser.chain_iff fun _ _ _ => SqlParser.chain_iff fun _ _ _ =>
    SqlParser.comparison_iff).1 hchain).2

theorem ne_null_of_complete {node : NodePtr} (h : node.Complete) : node ≠ .null := by
  rintro rfl
  exact h

/-- The condition is read up to the next word, which is no AND and no OR. -/
theorem reads_condition (hws : Next queryEnds ws) (condition : Filled Clause) :
    WherePredicate.Reads skip (sql (.condition condition :: ws)) (some (clausesNode condition))
      (sql ws) := by
  have hand : keyword "AND" (sql ws) = none := keyword_none hws (by decide) (by decide)
  have hor : keyword "OR" (sql ws) = none := keyword_none hws (by decide) (by decide)
  obtain ⟨m, hchain, hskip⟩ := chain_append separates_or (fun a _ hrest => clause_append a hrest)
    ⟨atGap_sql ws, hand⟩ hor condition.2
  have hread : Disjunction (sql (.condition condition :: ws)) (clausesNode condition) m :=
    ((SqlParser.chain_iff fun _ _ _ => SqlParser.chain_iff fun _ _ _ =>
      SqlParser.comparison_iff).1 hchain).1
  have hnode : (if clausesNode condition = .null then Rule.never
      else return some (clausesNode condition) : Rule UInt8 (Option NodePtr)) m
        (some (clausesNode condition)) m := by
    rw [if_neg (ne_null_of_complete (clausesNode_complete condition))]
    exact ⟨rfl, rfl⟩
  exact ⟨m, ⟨_, m, hread, hnode⟩, hskip⟩

theorem reads_where (hws : Next queryEnds ws) (condition : Option (Filled Clause)) :
    Where.Reads skip (sql (optionalWords whereWords condition ++ ws)) (condition.map clausesNode)
      (sql ws) := by
  cases condition with
  | none => exact reads_if_none (keyword_none hws (by decide) (by decide)) (.pure _) (.pure _ _)
  | some condition =>
    exact reads_if_some (keyword_fixed (by decide)) (reads_condition hws condition)

/-! ## ORDER BY -/

structure PlainOrder where
  column : BareName
  direction : SortDirection
  nullsFirst : Option Bool

namespace PlainOrder

def directionWord : SortDirection → SqlWord
  | .asc => .fixed "ASC" rfl
  | .desc => .fixed "DESC" rfl

def nullsWords : Option Bool → List SqlWord
  | none => []
  | some true => [.fixed "NULLS" rfl, .fixed "FIRST" rfl]
  | some false => [.fixed "NULLS" rfl, .fixed "LAST" rfl]

def words (o : PlainOrder) : List SqlWord :=
  .name o.column :: directionWord o.direction :: nullsWords o.nullsFirst

def spec (o : PlainOrder) : OrderBySpec := ⟨o.column.1, o.direction, o.nullsFirst⟩

end PlainOrder

/-- What may stand behind the sort keys. -/
def orderEnds : List String := ["LIMIT", "OFFSET", "INNER", "LEFT"]

theorem reads_direction (direction : SortDirection) :
    Direction.Reads skip (sql (PlainOrder.directionWord direction :: ws)) direction (sql ws) := by
  cases direction with
  | asc => exact reads_if_some (keyword_fixed (h := rfl) (by decide)) (.pure _ _)
  | desc =>
    refine reads_otherwise (h := rfl) (by decide) (by decide) (blind_if_keyword _ _ _) ?_
    exact reads_if_some (keyword_fixed (h := rfl) (by decide)) (.pure _ _)

theorem reads_nullsFirst (hws : Next ("," :: orderEnds) ws) (nullsFirst : Option Bool) :
    NullsFirst.Reads skip (sql (PlainOrder.nullsWords nullsFirst ++ ws)) nullsFirst (sql ws) := by
  cases nullsFirst with
  | none => exact reads_if_none (keyword_none hws (by decide) (by decide)) (.pure _) (.pure _ _)
  | some first =>
    cases first with
    | true =>
      refine reads_if_some (keyword_fixed (h := rfl) (by decide)) ?_
      exact reads_if_some (keyword_fixed (h := rfl) (by decide)) (.pure _ _)
    | false =>
      refine reads_if_some (keyword_fixed (h := rfl) (by decide)) ?_
      refine reads_otherwise (h := rfl) (by decide) (by decide) (blind_if_keyword _ _ _) ?_
      exact reads_if_some (keyword_fixed (h := rfl) (by decide)) (.pure _ _)

theorem reads_orderItem (hws : Next ("," :: orderEnds) ws) (o : PlainOrder) :
    OrderItem.Reads skip (sql (o.words ++ ws)) o.spec (sql ws) := by
  have hnulls : (NullsFirst >>= fun nullsFirst => return ⟨o.column.1, o.direction, nullsFirst⟩ :
      Rule UInt8 OrderBySpec).Blind skip := .bind (blind_if_keyword _ _ _) fun _ => .pure _
  refine .behind (read_name o.column) ((reads_direction o.direction).bind hnulls ?_)
  exact (reads_nullsFirst hws o.nullsFirst).bind (.pure _) (.pure _ _)

def orderWords : List PlainOrder → List SqlWord
  | [] => []
  | specs => .fixed "ORDER" rfl :: .fixed "BY" isQuiet_by :: separated PlainOrder.words specs

theorem reads_orderBy (hws : Next orderEnds ws) (specs : List PlainOrder) :
    OrderBy.Reads skip (sql (orderWords specs ++ ws)) (specs.map PlainOrder.spec) (sql ws) := by
  cases specs with
  | nil => exact reads_if_none (keyword_none hws (by decide) (by decide)) (.pure _) (.pure _ _)
  | cons spec specs =>
    refine reads_if_some (keyword_fixed (h := rfl) (by decide)) ?_
    refine .behind (read_keyword (h := rfl) (by decide)) ?_
    exact reads_list (blind_bind (skipsBlanks_token _)) (fun o ws hws => reads_orderItem hws o) hws
      (by decide) (List.cons_ne_nil spec specs)

/-! ## LIMIT and OFFSET -/

def countWords (kw : String) (h : isQuiet (ascii kw) = true) (n : UInt64) : List SqlWord :=
  [.fixed kw h, .literal (.int64 n.toInt64)]

theorem reads_count (n : UInt64) :
    Count.Reads skip (sql (.literal (.int64 n.toInt64) :: ws)) n (sql ws) := by
  refine .behind (read_literal _) ?_
  have hcount : n.toInt64.toUInt64 = n := UInt64.toUInt64_toInt64 n
  show Rule.Reads skip (return n.toInt64.toUInt64 : Rule UInt8 UInt64) _ n _
  rw [hcount]
  exact .pure _ _

/-- What may stand behind LIMIT and OFFSET. -/
def windowEnds : List String := ["INNER", "LEFT"]

theorem reads_offset (hws : Next windowEnds ws) (offset : Option UInt64) :
    Offset.Reads skip (sql (optionalWords (countWords "OFFSET" rfl) offset ++ ws)) offset
      (sql ws) := by
  cases offset with
  | none => exact reads_if_none (keyword_none hws (by decide) (by decide)) (.pure _) (.pure _ _)
  | some n => exact reads_if_some (keyword_fixed (by decide)) (reads_count n).map

def windowWords (limit offset : Option UInt64) : List SqlWord :=
  optionalWords (countWords "LIMIT" rfl) limit ++ optionalWords (countWords "OFFSET" rfl) offset

theorem reads_window (hws : Next windowEnds ws) (limit offset : Option UInt64) :
    Window.Reads skip (sql (windowWords limit offset ++ ws)) (limit, offset) (sql ws) := by
  have hoffset := reads_offset hws offset
  rw [windowWords, List.append_assoc]
  cases limit with
  | none =>
    have hnone : keyword "LIMIT" (sql (optionalWords (countWords "OFFSET" rfl) offset ++ ws)) = none := by
      cases offset with
      | none => exact keyword_none hws (by decide) (by decide)
      | some n => exact keyword_none next_self (by decide) (by decide)
    refine reads_if_none hnone (.bind (blind_if_keyword _ _ _) fun _ => .pure _) ?_
    exact hoffset.bind (.pure _) (.pure _ _)
  | some n =>
    refine reads_if_some (keyword_fixed (by decide)) ?_
    refine (reads_count n).bind (.bind (blind_if_keyword _ _ _) fun _ => .pure _) ?_
    exact hoffset.bind (.pure _) (.pure _ _)

/-! ## Joins -/

/-- A join on two columns, each written with its table. -/
structure PlainJoin where
  kind : JoinKind
  table : BareName
  leftTable : BareName
  leftColumn : BareName
  rightTable : BareName
  rightColumn : BareName

namespace PlainJoin

def kindWord : JoinKind → SqlWord
  | .inner => .fixed "INNER" rfl
  | .left => .fixed "LEFT" rfl

def words (j : PlainJoin) : List SqlWord :=
  [kindWord j.kind, .fixed "JOIN" rfl, .name j.table, .fixed "ON" rfl, .name j.leftTable,
    .fixed "." rfl, .name j.leftColumn, .fixed "=" rfl, .name j.rightTable, .fixed "." rfl,
    .name j.rightColumn]

def clause (j : PlainJoin) : JoinClause :=
  ⟨j.kind, j.table.1, j.leftTable.1 ++ ascii "." ++ j.leftColumn.1,
    j.rightTable.1 ++ ascii "." ++ j.rightColumn.1⟩

end PlainJoin

theorem reads_joinWords (kind : JoinKind) :
    JoinWords.Reads skip (sql (PlainJoin.kindWord kind :: .fixed "JOIN" rfl :: ws)) (some kind)
      (sql ws) := by
  cases kind with
  | inner =>
    refine reads_if_some (keyword_fixed (h := rfl) (by decide)) ?_
    exact reads_if_some (keyword_fixed (h := rfl) (by decide)) (.pure _ _)
  | left =>
    refine reads_otherwise (h := rfl) (by decide) (by decide) (blind_if_keyword _ _ _) ?_
    refine reads_if_some (keyword_fixed (h := rfl) (by decide)) ?_
    exact reads_if_some (keyword_fixed (h := rfl) (by decide)) (.pure _ _)

theorem reads_noJoin : JoinWords.Reads skip (sql []) none (sql []) := by
  have hnone : ∀ kw, isKeyword kw = true → keyword kw (sql []) = none := fun kw hkw =>
    keyword_none (next_nil []) rfl hkw
  refine reads_if_none (hnone _ (by decide)) (blind_if_keyword _ _ _) ?_
  refine reads_if_none (hnone _ (by decide)) (blind_if_keyword _ _ _) ?_
  exact reads_if_none (hnone _ (by decide)) (.pure _) (.pure _ _)

/-- What is read of a join behind its JOIN. -/
theorem reads_join (j : PlainJoin) :
    (Join j.kind).Reads skip (sql ([.name j.table, .fixed "ON" rfl, .name j.leftTable, .fixed "." rfl,
      .name j.leftColumn, .fixed "=" rfl, .name j.rightTable, .fixed "." rfl,
      .name j.rightColumn] ++ ws)) j.clause (sql ws) := by
  refine .behind (read_name j.table) (.behind (read_keyword (by decide)) ?_)
  refine .behind (read_name j.leftTable) (.behind (read_symbol rfl (by decide)) ?_)
  refine .behind (read_name j.leftColumn) (.behind (read_symbol rfl (by decide)) ?_)
  refine .behind (read_name j.rightTable) (.behind (read_symbol rfl (by decide)) ?_)
  exact .behind (read_name j.rightColumn) (.pure _ _)

theorem blind_joins (joins : List JoinClause) :
    (do
      match ← JoinWords with
      | none => return .inr joins
      | some kind => return .inl (joins ++ [← Join kind]) :
        Rule UInt8 (List JoinClause ⊕ List JoinClause)).Blind skip := by
  refine .bind (blind_if_keyword _ _ _) fun kind => ?_
  cases kind with
  | none => exact .pure _
  | some kind => exact blind_bind (skipsBlanks_bind (skipsBlanks_token _))

/-- Joins end the statement. -/
theorem reads_joins (joins : List PlainJoin) :
    Joins.Reads skip (sql (joins.flatMap PlainJoin.words)) (joins.map PlainJoin.clause) (sql []) := by
  have hread : Joins.Reads skip (sql (joins.flatMap PlainJoin.words))
      (joins.foldl (fun js j => js ++ [j.clause]) []) (sql []) := by
    refine .untilEnd (fun joins => sql (joins.flatMap PlainJoin.words)) id blind_joins
      (fun js j joins => ?_) (fun js => ?_) joins []
    · refine (reads_joinWords j.kind).bind (blind_bind (skipsBlanks_bind (skipsBlanks_token _))) ?_
      exact (reads_join j).bind (.pure _) (.pure _ _)
    · exact reads_noJoin.bind (.pure _) (.pure _ _)
  rw [List.foldl_append_eq_append, List.nil_append, ← List.flatMap_def, ← List.map_eq_flatMap] at hread
  exact hread

/-! ## Queries -/

/-- A query; without projections it asks for all columns. -/
structure PlainSelect where
  projections : Option (Filled BareName)
  table : BareName
  condition : Option (Filled Clause)
  orderBy : List PlainOrder
  limit : Option UInt64
  offset : Option UInt64
  joins : List PlainJoin

namespace PlainSelect

def projectionWords : Option (Filled BareName) → List SqlWord
  | none => [.fixed "*" rfl]
  | some columns => separated (fun column => [.name column]) columns.1

/-- The words behind SELECT. -/
def words (s : PlainSelect) : List SqlWord :=
  projectionWords s.projections ++ (.fixed "FROM" rfl :: .name s.table ::
    (optionalWords whereWords s.condition ++ (orderWords s.orderBy ++
      (windowWords s.limit s.offset ++ s.joins.flatMap PlainJoin.words))))

def columns : Option (Filled BareName) → List Bytes
  | none => [ascii "*"]
  | some columns => columns.1.map Subtype.val

def command (s : PlainSelect) : SqlCommand :=
  ⟨.select, s.table.1, s.condition.map clausesNode, none, columns s.projections,
    s.orderBy.map PlainOrder.spec, s.joins.map PlainJoin.clause, s.limit, s.offset⟩

end PlainSelect

theorem reads_projections (hws : Next ["FROM"] ws) (projections : Option (Filled BareName)) :
    Projections.Reads skip (sql (PlainSelect.projectionWords projections ++ ws))
      (PlainSelect.columns projections) (sql ws) := by
  cases projections with
  | none => exact reads_if_some (symbol_fixed (h := rfl) rfl (by decide)) (.pure _ _)
  | some columns =>
    obtain ⟨_ | ⟨column, columns⟩, hcolumns⟩ := columns
    · exact absurd rfl hcolumns
    · have hname : symbol "*" (sql (separated (fun column => [.name column]) (column :: columns) ++
          ws)) = none := by
        cases columns <;> exact symbol_name column rfl (by decide)
      refine reads_if_none hname ?_ ?_
      · exact blind_items (blind_of_skipsBlanks (skipsBlanks_token _)) _ _
      · exact reads_list (blind_of_skipsBlanks (skipsBlanks_token _))
          (fun column ws _ => .of_rule (read_name column)) hws (by decide) hcolumns

theorem next_windowWords {heads : List String} (limit offset : Option UInt64)
    (hlimit : "LIMIT" ∈ heads) (hoffset : "OFFSET" ∈ heads) (hws : Next heads ws) :
    Next heads (windowWords limit offset ++ ws) := by
  cases limit with
  | some n => exact next_fixed hlimit
  | none =>
    cases offset with
    | some n => exact next_fixed hoffset
    | none => exact hws

theorem next_joins (joins : List PlainJoin) : Next windowEnds (joins.flatMap PlainJoin.words) := by
  cases joins with
  | nil => exact next_nil _
  | cons j joins =>
    obtain ⟨kind, -⟩ := j
    cases kind with
    | inner => exact next_fixed (h := rfl) (by decide)
    | left => exact next_fixed (h := rfl) (by decide)

theorem next_orderWords (specs : List PlainOrder) (hws : Next orderEnds ws) :
    Next queryEnds (orderWords specs ++ ws) := by
  cases specs with
  | nil => exact hws.mono (by decide)
  | cons spec specs => exact next_fixed (by decide)

theorem reads_selectHead (s : PlainSelect) :
    SelectHead.Reads skip (sql (PlainSelect.projectionWords s.projections ++
      .fixed "FROM" rfl :: .name s.table :: ws)) (PlainSelect.columns s.projections, s.table.1)
      (sql ws) := by
  refine (reads_projections next_self s.projections).bind (blind_bind (skipsBlanks_keyword _)) ?_
  exact .behind (read_keyword (by decide)) (.behind (read_name s.table) (.pure _ _))

/-- The clauses are read one behind the other; each ends where the next one begins. -/
theorem reads_select (s : PlainSelect) : Select.Reads skip (sql s.words) s.command (sql []) := by
  have hjoins := next_joins s.joins
  have hwindow : Next orderEnds (windowWords s.limit s.offset ++ s.joins.flatMap PlainJoin.words) :=
    next_windowWords _ _ (by decide) (by decide) (hjoins.mono (by decide))
  have horder := next_orderWords s.orderBy hwindow
  have hclause : ∀ {α β : Type} {kw : String} {R T : Rule UInt8 α} {S : α → Rule UInt8 β},
      (IfRead (keyword kw) R T >>= S).Blind skip :=
    blind_bind (SqlParser.skipsBlanks_if_keyword _ _ _)
  refine (reads_selectHead s).bind hclause ((reads_where horder s.condition).bind hclause ?_)
  refine (reads_orderBy hwindow s.orderBy).bind hclause ?_
  refine (reads_window hjoins s.limit s.offset).bind (.bind (.iterate blind_joins []) fun _ => .pure _) ?_
  exact (reads_joins s.joins).bind (.pure _) (.pure _ _)

/-! ## Writes -/

theorem skipsBlanks_valueItem (t : Tuple) : SqlParser.SkipsBlanks (ValueItem t) := by
  have htoken := skipsBlanks_token lexValue
  intro s x r
  constructor
  · intro h
    cases h with
    | more hvalue hcomma => exact .more ((htoken _ _ _).1 hvalue) hcomma
    | last hvalue hcomma hclose => exact .last ((htoken _ _ _).1 hvalue) hcomma hclose
    | noClose hvalue hcomma hclose => exact .noClose ((htoken _ _ _).1 hvalue) hcomma hclose
    | noValue hvalue =>
      rw [NoToken, skip_skip] at hvalue
      exact .noValue hvalue
  · intro h
    cases h with
    | more hvalue hcomma => exact .more ((htoken _ _ _).2 hvalue) hcomma
    | last hvalue hcomma hclose => exact .last ((htoken _ _ _).2 hvalue) hcomma hclose
    | noClose hvalue hcomma hclose => exact .noClose ((htoken _ _ _).2 hvalue) hcomma hclose
    | noValue hvalue =>
      refine .noValue ?_
      rw [NoToken, skip_skip]
      exact hvalue

def literalWords (l : PlainLiteral) : List SqlWord := [.literal l]

/-- The row of the values, with their positions as names. -/
def insertedRow (values : List PlainLiteral) : Tuple :=
  values.foldl (fun t l => addValue t l.value) .empty

theorem reads_values (values : Filled PlainLiteral) :
    Values.Reads skip (sql (.fixed "(" rfl :: (separated literalWords values.1 ++
      .fixed ")" rfl :: ws))) (insertedRow values.1) (sql ws) := by
  refine reads_if_some (symbol_fixed rfl (by decide)) ?_
  refine .untilLast (fun values => sql (separated literalWords values ++ .fixed ")" rfl :: ws)) id
    (fun t => blind_of_skipsBlanks (skipsBlanks_valueItem t)) (fun t l k values => ?_) (fun t l => ?_)
    values.2 .empty
  · rw [separated_cons]
    exact .of_rule (.more (read_literal l) (symbol_fixed rfl (by decide)))
  · refine .of_rule (.last (read_literal l) ?_ (symbol_fixed rfl (by decide)))
    exact symbol_none next_self (by decide) ascii_ne_nil

/-- The columns of an INSERT; the parser does not keep them. -/
def columnWords : List BareName → List SqlWord
  | [] => []
  | column :: columns => .fixed "(" isQuiet_open ::
    (separated (fun column => [.name column]) (column :: columns) ++ [.fixed ")" isQuiet_close])

theorem reads_insertColumns (hws : Next ["VALUES", "DEFAULT"] ws) (columns : List BareName) :
    InsertColumns.Reads skip (sql (columnWords columns ++ ws)) (columns.map Subtype.val) (sql ws) := by
  cases columns with
  | nil => exact reads_if_none (symbol_none hws (by decide) ascii_ne_nil) (.pure _) (.pure _ _)
  | cons column columns =>
    rw [columnWords, List.cons_append, List.append_assoc, List.map_eq_flatMap, List.flatMap_def]
    refine reads_if_some (symbol_fixed (h := rfl) rfl (by decide)) ?_
    rw [← List.nil_append (List.map _ _).flatten, ← List.foldl_append_eq_append]
    refine .untilLast (fun columns => sql (separated (fun column => [.name column]) columns ++
      .fixed ")" rfl :: ws)) id (fun _ => blind_bind (skipsBlanks_token _)) (fun cs c d columns => ?_)
      (fun cs c => ?_) (List.cons_ne_nil column columns) []
    · rw [separated_cons]
      refine .behind (read_name c) ?_
      exact reads_if_some (symbol_fixed (h := rfl) rfl (by decide)) (.pure _ _)
    · refine .behind (read_name c) (reads_if_none ?_ (blind_bind (skipsBlanks_symbol _)) ?_)
      · exact symbol_none next_self (by decide) ascii_ne_nil
      · exact .behind (read_symbol (h := rfl) rfl (by decide)) (.pure _ _)

/-- A keyword that may be left out, and is not. -/
theorem reads_optional {kw : String} {h : isQuiet (ascii kw) = true} (hkw : isKeyword kw = true) :
    (Optional kw).Reads skip (sql (.fixed kw h :: ws)) () (sql ws) :=
  reads_if_some (keyword_fixed hkw) (.pure _ _)

theorem reads_insertHead (hws : Next ["VALUES", "DEFAULT"] ws) (table : BareName)
    (columns : List BareName) :
    InsertHead.Reads skip (sql (.fixed "INTO" rfl :: .name table :: (columnWords columns ++ ws)))
      table.1 (sql ws) := by
  refine (reads_optional (by decide)).bind (blind_bind (skipsBlanks_token _)) ?_
  refine .behind (read_name table) ((reads_insertColumns hws columns).bind (.pure _) (.pure _ _))

/-- The rows that an INSERT writes: one with these values, or one without any. -/
def insertWords : Option (Filled PlainLiteral) → List SqlWord
  | none => [.fixed "DEFAULT" isQuiet_default, .fixed "VALUES" rfl]
  | some values => .fixed "VALUES" rfl :: .fixed "(" isQuiet_open ::
    (separated literalWords values.1 ++ [.fixed ")" isQuiet_close])

def insertRow : Option (Filled PlainLiteral) → Tuple
  | none => .empty
  | some values => insertedRow values.1

theorem next_insertWords (values : Option (Filled PlainLiteral)) :
    Next ["VALUES", "DEFAULT"] (insertWords values) := by
  cases values with
  | none => exact next_fixed (by decide)
  | some values => exact next_fixed (by decide)

theorem reads_insert (table : BareName) (columns : List BareName)
    (values : Option (Filled PlainLiteral)) :
    Insert.Reads skip
      (sql (.fixed "INTO" rfl :: .name table :: (columnWords columns ++ insertWords values)))
      (insertCommand table.1 (insertRow values)) (sql []) := by
  refine (reads_insertHead (next_insertWords values) table columns).bind (blind_if_keyword _ _ _) ?_
  cases values with
  | none =>
    refine reads_otherwise (by decide) (by decide) (blind_if_keyword _ _ _) ?_
    refine reads_if_some (keyword_fixed (by decide)) ?_
    exact .behind (read_keyword (by decide)) (.pure _ _)
  | some values =>
    refine reads_if_some (keyword_fixed (by decide)) ?_
    exact (reads_values values).bind (.pure _) (.pure _ _)

/-- A column and its new value. -/
abbrev PlainAssignment := BareName × PlainLiteral

def assignmentWords (a : PlainAssignment) : List SqlWord :=
  [.name a.1, .fixed "=" rfl, .literal a.2]

/-- The new values of the columns; of two for the same column the later one stands. -/
def assignedRow (assignments : List PlainAssignment) : Tuple :=
  assignments.foldl (fun t a => t.set a.1.1 a.2.value) .empty

theorem reads_assignments (hws : Next ["WHERE"] ws) (assignments : Filled PlainAssignment) :
    Assignments.Reads skip (sql (separated assignmentWords assignments.1 ++ ws))
      (assignedRow assignments.1) (sql ws) := by
  have hitem : ∀ (a : PlainAssignment) ws, Next ["," , "WHERE"] ws →
      Assignment.Reads skip (sql (assignmentWords a ++ ws)) (a.1.1, a.2.value) (sql ws) := by
    intro a ws _
    refine .behind (read_name a.1) (.behind (read_symbol rfl (by decide)) ?_)
    exact .behind (read_literal a.2) (.pure _ _)
  exact reads_items _ (blind_bind (skipsBlanks_token _))
    hitem hws (by decide) assignments.2 Tuple.empty

/-- The condition of a write ends the statement. -/
theorem reads_requiredWhere (build : Option NodePtr → SqlCommand) (condition : Filled Clause) :
    (RequiredWhere build).Reads skip (sql (whereWords condition))
      (build (some (clausesNode condition))) (sql []) :=
  .behind (read_keyword (by decide))
    ((reads_condition (next_nil _) condition).bind (.pure _) (.pure _ _))

theorem blind_requiredWhere (build : Option NodePtr → SqlCommand) :
    (RequiredWhere build).Blind skip := blind_bind (skipsBlanks_keyword _)

theorem reads_update (table : BareName) (assignments : Filled PlainAssignment)
    (condition : Filled Clause) :
    Update.Reads skip (sql (.name table :: .fixed "SET" rfl ::
      (separated assignmentWords assignments.1 ++ whereWords condition)))
      (updateCommand table.1 (assignedRow assignments.1) (some (clausesNode condition))) (sql []) := by
  have hassignments : Assignments.Reads skip
      (sql (separated assignmentWords assignments.1 ++ whereWords condition))
        (assignedRow assignments.1) (sql (whereWords condition)) :=
    reads_assignments next_self assignments
  have hhead : UpdateHead.Reads skip (sql (.name table :: .fixed "SET" rfl ::
      (separated assignmentWords assignments.1 ++ whereWords condition)))
        (table.1, assignedRow assignments.1) (sql (whereWords condition)) :=
    .behind (read_name table) (.behind (read_keyword (by decide))
      (hassignments.bind (.pure _) (.pure _ _)))
  exact hhead.bind (blind_requiredWhere _) (reads_requiredWhere _ condition)

theorem reads_delete (table : BareName) (condition : Filled Clause) :
    Delete.Reads skip (sql (.fixed "FROM" rfl :: .name table :: whereWords condition))
      (deleteCommand table.1 (some (clausesNode condition))) (sql []) := by
  have hhead : DeleteHead.Reads skip (sql (.fixed "FROM" rfl :: .name table :: whereWords condition))
      table.1 (sql (whereWords condition)) :=
    (reads_optional (by decide)).bind (blind_of_skipsBlanks (skipsBlanks_token _))
      (.of_rule (read_name table))
  exact hhead.bind (blind_requiredWhere _) (reads_requiredWhere _ condition)

/-! ## Statements -/

/-- A statement that can be written out. -/
inductive PlainStatement where
  | createTable (t : PlainTable)
  | dropTable (table : BareName)
  | alterTable (table : BareName) (alteration : PlainAlteration)
  | insert (table : BareName) (columns : List BareName) (values : Option (Filled PlainLiteral))
  | select (s : PlainSelect)
  | update (table : BareName) (assignments : Filled PlainAssignment) (condition : Filled Clause)
  | delete (table : BareName) (condition : Filled Clause)
  | txnBegin
  | txnCommit
  | txnRollback

namespace PlainStatement

def words : PlainStatement → List SqlWord
  | .createTable t => .fixed "CREATE" rfl :: .fixed "TABLE" rfl :: t.words
  | .dropTable table => [.fixed "DROP" isQuiet_drop, .fixed "TABLE" rfl, .name table]
  | .alterTable table alteration =>
    .fixed "ALTER" rfl :: .fixed "TABLE" rfl :: .name table :: alteration.words
  | .insert table columns values =>
    .fixed "INSERT" rfl :: .fixed "INTO" rfl :: .name table :: (columnWords columns ++ insertWords values)
  | .select s => .fixed "SELECT" rfl :: s.words
  | .update table assignments condition =>
    .fixed "UPDATE" rfl :: .name table :: .fixed "SET" rfl ::
      (separated assignmentWords assignments.1 ++ whereWords condition)
  | .delete table condition =>
    .fixed "DELETE" rfl :: .fixed "FROM" rfl :: .name table :: whereWords condition
  | .txnBegin => [.fixed "BEGIN" rfl, .fixed "TRANSACTION" rfl]
  | .txnCommit => [.fixed "COMMIT" rfl]
  | .txnRollback => [.fixed "ROLLBACK" rfl]

/-- The text of the statement. -/
def rendered (s : PlainStatement) : Bytes := sql s.words

def statement : PlainStatement → SqlStatement
  | .createTable t => .createTable t.schema
  | .dropTable table => .dropTable table.1
  | .alterTable table alteration => .alterTable table.1 alteration.spec
  | .insert table _ values => .command (insertCommand table.1 (insertRow values))
  | .select s => .command s.command
  | .update table assignments condition =>
    .command (updateCommand table.1 (assignedRow assignments.1) (some (clausesNode condition)))
  | .delete table condition => .command (deleteCommand table.1 (some (clausesNode condition)))
  | .txnBegin => .txnBegin
  | .txnCommit => .txnCommit
  | .txnRollback => .txnRollback

end PlainStatement

/-- The keyword in front decides which rule reads the statement. -/
theorem reads_statement (s : PlainStatement) :
    Statement.Reads skip s.rendered s.statement (sql []) := by
  cases s with
  | createTable t =>
    refine reads_if_some (keyword_fixed (by decide)) ?_
    exact .behind (read_keyword (by decide)) (reads_createTable t)
  | dropTable table =>
    refine reads_otherwise (by decide) (by decide) (blind_if_keyword _ _ _) ?_
    refine reads_if_some (keyword_fixed (by decide)) ?_
    exact .behind (read_keyword (by decide)) (.behind (read_name table) (.pure _ _))
  | alterTable table alteration =>
    iterate 2 refine reads_otherwise (by decide) (by decide) (blind_if_keyword _ _ _) ?_
    refine reads_if_some (keyword_fixed (by decide)) ?_
    refine .behind (read_keyword (by decide)) (.behind (read_name table) ?_)
    exact (reads_alterClause alteration).bind (.pure _) (.pure _ _)
  | insert table columns values =>
    iterate 3 refine reads_otherwise (by decide) (by decide) (blind_if_keyword _ _ _) ?_
    exact reads_if_some (keyword_fixed (by decide)) (reads_insert table columns values).map
  | select s =>
    iterate 4 refine reads_otherwise (by decide) (by decide) (blind_if_keyword _ _ _) ?_
    exact reads_if_some (keyword_fixed (by decide)) (reads_select s).map
  | update table assignments condition =>
    iterate 5 refine reads_otherwise (by decide) (by decide) (blind_if_keyword _ _ _) ?_
    exact reads_if_some (keyword_fixed (by decide)) (reads_update table assignments condition).map
  | delete table condition =>
    iterate 6 refine reads_otherwise (by decide) (by decide) (blind_if_keyword _ _ _) ?_
    exact reads_if_some (keyword_fixed (by decide)) (reads_delete table condition).map
  | txnBegin =>
    iterate 7 refine reads_otherwise (by decide) (by decide) (blind_if_keyword _ _ _) ?_
    refine reads_if_some (keyword_fixed (by decide)) ?_
    exact (reads_optional (by decide)).bind (.pure _) (.pure _ _)
  | txnCommit =>
    iterate 8 refine reads_otherwise (by decide) (by decide) (blind_if_keyword _ _ _) ?_
    exact reads_if_some (keyword_fixed (by decide)) (.pure _ _)
  | txnRollback =>
    iterate 9 refine reads_otherwise (by decide) (by decide) (blind_if_keyword _ _ _) ?_
    exact reads_if_some (keyword_fixed (by decide)) (.pure _ _)

/-- The parser reads what is written, and all of it. -/
theorem parse_rendered (s : PlainStatement) (p : SqlParser) :
    ∃ p', (SqlParser.parse s.rendered).run p = .ok (some s.statement) p' ∧ skip p'.rest = [] := by
  obtain ⟨r, hread, hskip⟩ := reads_statement s
  obtain ⟨p', hrun, hrest⟩ := SqlParser.parse_of_statement p hread
  refine ⟨p', hrun, ?_⟩
  rw [hrest]
  exact hskip

/-! ## Lists of statements -/

theorem copied_isSome (s : PlainStatement) : (SqlParser.copied s.statement).isSome := by
  have hcopy : ∀ cmd : SqlCommand, (∀ node ∈ cmd.predicate, node.Complete) →
      (SqlParser.copied (.command cmd)).isSome := by
    intro cmd hcomplete
    rw [SqlParser.copied]
    cases hpredicate : cmd.predicate with
    | none => rfl
    | some node =>
      have hnode := hcomplete node hpredicate
      dsimp only
      rw [Option.isSome_map, SqlParser.copyPredicate_eq (ne_null_of_complete hnode)]
      exact SqlParser.cloneNode_isSome.2 hnode
  cases s with
  | insert table columns values => exact hcopy _ fun _ h => absurd h (Option.not_mem_none _)
  | select s =>
    refine hcopy _ fun node h => ?_
    obtain ⟨condition, -, rfl⟩ := Option.map_eq_some_iff.1 h
    exact clausesNode_complete condition
  | update table assignments condition =>
    refine hcopy _ fun node h => ?_
    cases h
    exact clausesNode_complete condition
  | delete table condition =>
    refine hcopy _ fun node h => ?_
    cases h
    exact clausesNode_complete condition
  | _ => rfl

/-- The text as one that is accepted. -/
def PlainStatement.acceptedText (s : PlainStatement) : SqlParser.AcceptedText where
  text := s.rendered
  statement := s.statement
  accepted := by
    obtain ⟨r, hread, -⟩ := reads_statement s
    obtain ⟨p', hrun, -⟩ := SqlParser.parse_of_statement ⟨[], [], []⟩ hread
    exact ⟨p', hrun⟩

/-- The text of a list of statements. -/
def renderedAll (statements : List PlainStatement) : Bytes :=
  (ascii ";\n").intercalate (statements.map PlainStatement.rendered)

theorem batchable_acceptedText (s : PlainStatement) : SqlParser.Batchable s.acceptedText := by
  -- the cutter passes over the words and is outside of quotes at the end
  have hcut : s.acceptedText.cutAlone = ⟨[], [] ++ s.rendered, false, false⟩ := uncut_sql s.words []
  refine SqlParser.batchable_of_uncut ?_ ?_ (copied_isSome s)
  · rw [hcut]
    exact ⟨rfl, rfl⟩
  · rw [hcut]

theorem parseAll_rendered (statements : List PlainStatement) (p : SqlParser) :
    ∃ p', (SqlParser.parseAll (renderedAll statements)).run p =
      .ok (statements.map PlainStatement.statement) p' := by
  have hbatch : ∀ t ∈ statements.map PlainStatement.acceptedText, SqlParser.Batchable t :=
    List.forall_mem_map.2 fun s _ => batchable_acceptedText s
  obtain ⟨p', hrun⟩ := SqlParser.batchParses_of_batchable hbatch p
  refine ⟨p', ?_⟩
  rw [SqlParser.batch, List.map_map, List.map_map] at hrun
  exact hrun

end Sql

end OpenDB
