import OpenDB.Frontend.SqlWholeInput

/-!
# Complete statements

A statement that is returned is complete if it leaves no error behind, its predicate has no null
pointer anywhere and the list of values of an INSERT was read from its opening to its closing
parenthesis. The functions for predicates and lists of values do not say when they break off, so this
holds exactly for the texts in which the predicate behind WHERE and the list behind VALUES have no gaps
(`readsCompletely_iff`).
-/

set_option autoImplicit false

namespace OpenDB

open OpenDB.Library

namespace Sql

/-! ## Evaluation -/

/-- `PredicateNode::evaluate` on what the parser has built; nothing if it goes through a null
pointer. -/
def NodePtr.evaluate (row : Tuple) : NodePtr → Option Bool
  | .null => none
  | .comparison column op operand =>
    some (PredicateNode.compareColumn op operand (row.maybeGet column))
  | .logical .and left right => do
    if ← left.evaluate row then right.evaluate row else return false
  | .logical .or left right => do
    if ← left.evaluate row then return true else right.evaluate row

/-- The predicate as the executors take it. -/
def NodePtr.toNode : NodePtr → Option PredicateNode
  | .null => none
  | .comparison column op operand => some (.comparison column op operand)
  | .logical op left right => do
    let left ← left.toNode
    let right ← right.toNode
    return .logical op [left, right]

/-- A complete predicate is one of the executors, and its evaluation is theirs on every row. -/
theorem NodePtr.toNode_of_complete {node : NodePtr} (h : node.Complete) :
    ∃ tree, node.toNode = some tree ∧ ∀ row, node.evaluate row = some (tree.evaluate row) := by
  induction node with
  | null => cases h
  | comparison column op operand => exact ⟨_, rfl, fun row => by simp [evaluate, PredicateNode.evaluate]⟩
  | logical op left right ihleft ihright =>
    obtain ⟨leftTree, hleft, hevalLeft⟩ := ihleft h.1
    obtain ⟨rightTree, hright, hevalRight⟩ := ihright h.2
    refine ⟨.logical op [leftTree, rightTree], by simp [toNode, hleft, hright], fun row => ?_⟩
    cases op <;>
      cases hvalue : leftTree.evaluate row <;>
        simp [evaluate, hevalLeft, hevalRight, hvalue, PredicateNode.evaluate,
          PredicateNode.evaluateAll, PredicateNode.evaluateAny]

/-! ## Lists of values -/

/-- The columns of the row of an INSERT, named by their positions. -/
def positionalColumns (values : List Value) : List ColumnValue :=
  values.mapIdx fun i value => ⟨decimal i, value⟩

theorem columns_addValue {t : Tuple} {values : List Value} (value : Value)
    (ht : t.columns = positionalColumns values) :
    (addValue t value).columns = positionalColumns (values ++ [value]) := by
  have hnew : decimal t.columns.length ∉ t.columns.map ColumnValue.name := by
    rw [ht, List.mem_map]
    rintro ⟨c, hc, hname⟩
    obtain ⟨i, hi, rfl⟩ := List.mem_mapIdx.1 hc
    have hlength : (positionalColumns values).length = values.length := List.length_mapIdx
    have := decimal_injective hname
    omega
  rw [addValue, Tuple.columns_set, Tuple.setColumns_of_not_mem hnew, ht]
  simp [positionalColumns, List.mapIdx_append]

/-- What is read as a list of values, where a complete one stands. -/
theorem repeat_of_valueSequence {s r : Bytes} {values : List Value} (h : ValueSequence s values r)
    {t : Tuple} {before : List Value} (ht : t.columns = positionalColumns before) :
    ∃ t', Repeat ValueItem t s t' r ∧ t'.columns = positionalColumns (before ++ values) := by
  induction h generalizing t before with
  | last hvalue hclose =>
    exact ⟨_, .done (.last hvalue (comma_eq_none hclose) hclose), columns_addValue _ ht⟩
  | more hvalue hcomma _ ih =>
    obtain ⟨t', hrest, hcolumns⟩ := ih (columns_addValue _ ht)
    refine ⟨t', .again (.more hvalue hcomma) hrest, ?_⟩
    rw [hcolumns, List.append_assoc, List.singleton_append]

/-- Something is read as a list of values, whatever stands there. -/
theorem exists_repeat_valueItem (t : Tuple) (s : Bytes) : ∃ t' r, Repeat ValueItem t s t' r := by
  induction hn : s.length using Nat.strong_induction_on generalizing t s with
  | _ n ih =>
    subst hn
    cases hlex : lexValue (skip s) with
    | found value m =>
      have hvalue : Literal s value m := hlex
      cases hcomma : symbol "," m with
      | some m' =>
        have hlt := (symbol_length_lt ascii_ne_nil hcomma).trans_le (consumes_literal _ _ _ hvalue)
        obtain ⟨t', r, hrest⟩ := ih _ hlt (addValue t value) m' rfl
        exact ⟨t', r, .again (.more hvalue hcomma) hrest⟩
      | none =>
        cases hclose : symbol ")" m with
        | some r => exact ⟨_, r, .done (.last hvalue hcomma hclose)⟩
        | none => exact ⟨_, _, .done (.noClose hvalue hcomma hclose)⟩
    | _ => exact ⟨t, _, .done (.noValue ⟨by simp [hlex], rfl⟩)⟩

theorem values_of_valueList {s r : Bytes} {values : List Value} (h : ValueList s values r) :
    ∃ t, Values s t r ∧ t.columns = positionalColumns values := by
  obtain ⟨m, hopen, hvalues⟩ := h
  have hempty : Tuple.empty.columns = positionalColumns [] := rfl
  obtain ⟨t, hrepeat, hcolumns⟩ := repeat_of_valueSequence hvalues hempty
  exact ⟨t, .inl ⟨m, hopen, hrepeat⟩, hcolumns⟩

theorem exists_values (s : Bytes) : ∃ t r, Values s t r := by
  cases hopen : symbol "(" s with
  | some m =>
    obtain ⟨t, r, h⟩ := exists_repeat_valueItem .empty m
    exact ⟨t, r, .inl ⟨m, hopen, h⟩⟩
  | none => exact ⟨.empty, _, .inr ⟨hopen, rfl, rfl⟩⟩

/-! ## INSERT in the grammar -/

theorem statement_of_insertValues {s table m r : Bytes} {t : Tuple} (hhead : InsertValues s table m)
    (h : Values m t r) : Statement s (.command (insertCommand table t)) r := by
  obtain ⟨m₁, m₂, hkw, hinsert, hvalues⟩ := hhead
  exact (statement_insert hkw).2 ⟨_, ⟨table, m₂, hinsert, .inl ⟨m, hvalues, t, r, h, rfl, rfl⟩⟩, rfl⟩

namespace SqlParser

/-! ## Complete statements -/

/-- The predicate of a statement, if it has one, has no null pointer and can be evaluated. -/
def SafePredicate (statement : SqlStatement) : Prop :=
  ∀ cmd node, statement = .command cmd → cmd.predicate = some node →
    node.Complete ∧ ∀ row, (node.evaluate row).isSome

/-- The list of values of an INSERT was read up to the closing parenthesis in front of `r`, and the
row has a column for each of them. -/
def ValuesRead (sql : Bytes) (statement : SqlStatement) (r : Bytes) : Prop :=
  ∀ table m, InsertValues sql table m → ∃ values t, ValueList m values r ∧
    statement = .command (insertCommand table t) ∧ t.columns = positionalColumns values

/-- A statement that is returned is complete. -/
def ReadsCompletely (sql : Bytes) : Prop :=
  ∀ p statement p', (parse sql).run p = .ok (some statement) p' →
    p'.error = [] ∧ SafePredicate statement ∧ ValuesRead sql statement p'.rest

/-- Behind WHERE stands a predicate without gaps, and behind VALUES a list up to its closing
parenthesis. -/
structure WrittenOut (sql : Bytes) : Prop where
  predicate : CompleteWhere sql
  values : ∀ table m, InsertValues sql table m → ∃ values r, ValueList m values r

theorem readsCompletely_of_writtenOut {sql : Bytes} (h : WrittenOut sql) : ReadsCompletely sql := by
  intro p statement p' hrun
  obtain ⟨hparse, hstatement⟩ := statement_of_parse hrun
  have hlist : ValuesRead sql statement p'.rest := by
    intro table m hhead
    obtain ⟨values, r, hvalues⟩ := h.values table m hhead
    obtain ⟨t, ht, hcolumns⟩ := values_of_valueList hvalues
    obtain ⟨rfl, rfl⟩ := parses_statement.unique (s := ⟨sql, sql, []⟩) hstatement
      (statement_of_insertValues hhead ht)
    exact ⟨values, t, hvalues, rfl, hcolumns⟩
  have hpredicate : ∀ cmd node, statement = .command cmd → cmd.predicate = some node →
      node.Complete := by
    rintro cmd node rfl hnode
    exact (completeWhere_iff sql).1 h.predicate cmd node _ hstatement hnode
  refine ⟨?_, fun cmd node hcmd hnode => ?_, hlist⟩
  · refine (parses_statement.keeps _ _ _ hparse).resolve_right ?_
    rintro (⟨node, hnode, hbroken⟩ | ⟨hhead, hbroken⟩)
    · exact hbroken (hpredicate _ node rfl hnode)
    · obtain ⟨values, t, hvalues, -⟩ := hlist _ _ hhead
      exact hbroken ⟨values, hvalues⟩
  · have hcomplete := hpredicate cmd node hcmd hnode
    obtain ⟨tree, -, heval⟩ := NodePtr.toNode_of_complete hcomplete
    exact ⟨hcomplete, fun row => by simp [heval row]⟩

/-- Every statement that is returned is complete exactly if the text at its front is written out. -/
theorem readsCompletely_iff (sql : Bytes) : ReadsCompletely sql ↔ WrittenOut sql := by
  refine ⟨fun h => ⟨(completeWhere_iff sql).2 fun cmd node r hstatement hnode => ?_,
    fun table m hhead => ?_⟩, readsCompletely_of_writtenOut⟩
  · obtain ⟨p', hrun, -⟩ := parse_of_statement ⟨[], [], []⟩ hstatement
    exact ((h _ _ p' hrun).2.1 cmd node rfl hnode).1
  · obtain ⟨t, r, ht⟩ := exists_values m
    obtain ⟨p', hrun, -⟩ := parse_of_statement ⟨[], [], []⟩ (statement_of_insertValues hhead ht)
    obtain ⟨values, t', hvalues, -⟩ := (h _ _ p' hrun).2.2 table m hhead
    exact ⟨values, _, hvalues⟩

/-- A query whose second comparison ends with the text. -/
def cutConjunction : Bytes := ascii "SELECT * FROM t WHERE a = 1 AND b ="

theorem cutConjunction_not_complete : ¬ ReadsCompletely cutConjunction := by
  intro h
  have hreturned : returned cutConjunction = some (.command ⟨.select, ascii "t",
      some (.logical .and (.comparison (ascii "a") .equals (.int64 1)) .null), none, [ascii "*"], [], [],
      none, none⟩, ⟨cutConjunction, [], []⟩) := by decide +kernel
  exact ((h _ _ _ (parse_of_returned hreturned)).2.1 _ _ rfl rfl).1.2

end SqlParser

end Sql

end OpenDB
