import OpenDB.Frontend.SqlReads

/-!
# Clauses

The parts of a statement that either are read or give up with an error text: the definition of a table
and the clauses of SELECT other than WHERE.
-/

set_option autoImplicit false

namespace OpenDB

open OpenDB.Library

namespace Sql.SqlParser

/-! ## Tables -/

theorem plain_constraints (b : ColumnDef × Bool) :
    Plain reporting (loop parseConstraint b) (Sql.Constraints b) := by
  refine .plainWhileTrue ?_ ?_ b
  · rintro ⟨column, hasPrimaryKey⟩
    refine plain_skip ?_ (skipsBlanks_if_keyword _ _ _)
    refine plain_if (tests_keyword _) ?_ (plain_if (tests_keyword _) ?_
      (plain_if (tests_keyword _) (.done _) (plain_if (tests_keyword _) ?_ (.done _))))
    · exact .plainBind (plain_require (tests_keyword _) ascii_ne_nil) fun _ =>
        .plainIte (plain_reject ascii_ne_nil) (.done _)
    · exact .plainBind (plain_require (tests_keyword _) ascii_ne_nil) fun _ => .done _
    · exact plain_if (tests_keyword _) (.done _)
        (.plainBind (plain_token _ _ ascii_ne_nil) fun _ => .done _)
  · rintro ⟨column, hasPrimaryKey⟩
    refine Sql.shrinks_if_keyword ascii_ne_nil ?_ (Sql.shrinks_if_keyword ascii_ne_nil ?_
      (Sql.shrinks_if_keyword ascii_ne_nil (.pure _) (Sql.shrinks_if_keyword ascii_ne_nil ?_ (.last _))))
    · exact .bind (Sql.consumes_read_keyword _) fun _ => .ite .never (.pure _)
    · exact .bind (Sql.consumes_read_keyword _) fun _ => .pure _
    · exact Sql.consumes_if_keyword _ (.pure _) (.bind Sql.consumes_literal fun _ => .pure _)

theorem plain_columnSpec (hasPrimaryKey : Bool) :
    Plain reporting (parseColumnSpec hasPrimaryKey) (Sql.ColumnSpec hasPrimaryKey) :=
  .plainBind (plain_token _ _ ascii_ne_nil) fun _ =>
    .plainBind (plain_orReject (plain_firstKeyword _) (fun _ _ _ => Rule.not_never)
      ascii_ne_nil) fun _ =>
      plain_constraints _

theorem plain_columns (b : List ColumnDef × Bool) :
    Plain reporting (loop parseColumn b) (Sql.Columns b) := by
  refine .plainWhileTrue ?_ ?_ b
  · rintro ⟨columns, hasPrimaryKey⟩
    refine plain_skip ?_ (skipsBlanks_if_symbol _ _ _)
    refine plain_if (tests_symbol _) (.done _) (.plainBind (plain_columnSpec _) ?_)
    rintro ⟨column, hasPrimaryKey⟩
    refine plain_skip ?_ (skipsBlanks_if_symbol _ _ _)
    exact plain_if (tests_symbol _) (.done _) (plain_ifOrReject (tests_symbol _) (.done _) ascii_ne_nil)
  · rintro ⟨columns, hasPrimaryKey⟩
    refine Sql.shrinks_if_symbol ascii_ne_nil (.pure _) (.bind (Sql.consumes_columnSpec _) ?_)
    rintro ⟨column, hasPrimaryKey⟩
    exact Sql.shrinks_if_symbol ascii_ne_nil (.pure _)
      (.bind (Sql.consumes_read_symbol _) fun _ => .last _)

theorem plain_partition : Plain reporting parsePartition Sql.Partition := by
  refine plain_if (tests_keyword _) ?_ (.done _)
  refine .plainBind (plain_require (tests_keyword _) ascii_ne_nil) fun _ => ?_
  refine .plainBind (plain_require (tests_keyword _) ascii_ne_nil) fun _ => ?_
  refine .plainBind (plain_require (tests_symbol _) ascii_ne_nil) fun _ => ?_
  refine .plainBind (plain_token _ _ ascii_ne_nil) fun column => ?_
  refine .plainBind (plain_require (tests_symbol _) ascii_ne_nil) fun _ => ?_
  refine .plainBind (plain_require (tests_keyword _) ascii_ne_nil) fun _ => ?_
  refine .plainBind (plain_token _ _ ascii_ne_nil) fun count => ?_
  exact .plainIte (plain_reject ascii_ne_nil) (.done _)

theorem plain_createTable : Plain reporting parseCreateTable Sql.CreateTable :=
  .plainBind (plain_token _ _ ascii_ne_nil) fun _ =>
    .plainBind (plain_require (tests_symbol _) ascii_ne_nil) fun _ => .plainBind (plain_columns _) fun _ => .plainBind plain_partition fun _ => .done _

theorem plain_dropTable : Plain reporting parseDropTable Sql.DropTable :=
  .plainBind (plain_token _ _ ascii_ne_nil) fun _ => .done _

theorem plain_alterSpec : Plain reporting parseAlterSpec Sql.AlterClause := by
  refine plain_if (tests_keyword _) ?_
    (plain_if (tests_keyword _) ?_ (plain_if (tests_keyword _) ?_ (plain_reject ascii_ne_nil)))
  · exact .plainBind (plain_require (tests_keyword _) ascii_ne_nil) fun _ =>
      .plainBind (plain_columnSpec _) fun _ => .done _
  · exact .plainBind (plain_require (tests_keyword _) ascii_ne_nil) fun _ =>
      .plainBind (plain_token _ _ ascii_ne_nil) fun _ => .done _
  · exact .plainBind (plain_require (tests_keyword _) ascii_ne_nil) fun _ =>
      .plainBind (plain_token _ _ ascii_ne_nil) fun _ => .done _

theorem plain_alterTable : Plain reporting parseAlterTable Sql.AlterTable :=
  .plainBind (plain_token _ _ ascii_ne_nil) fun _ => .plainBind plain_alterSpec fun _ => .done _

/-! ## Lists of items -/

section Items

variable {α β : Type} {item : Parser α} {R : Rule UInt8 α} {add : β → α → β}

theorem plain_items (hitem : Plain reporting item R) (hR : R.Consumes) (b : β) :
    Plain reporting (loop (parseItem item add) b) (Sql.Items R add b) := by
  refine .plainWhileTrue (fun b => ?_) (fun b => ?_) b
  · exact .plainBind hitem fun a => plain_if (tests_symbol _) (.done _) (.done _)
  · exact .bind hR fun a => Sql.shrinks_if_symbol ascii_ne_nil (.pure _) (.last _)

end Items

/-! ## SELECT -/

theorem plain_projections : Plain reporting parseProjections Sql.Projections :=
  plain_if (tests_symbol _) (.done _)
    (plain_items (plain_identifier ascii_ne_nil) Sql.consumes_identifier [])

theorem plain_orderItem : Plain reporting parseOrderItem Sql.OrderItem := by
  refine .plainBind (plain_identifier ascii_ne_nil) fun column => .plainBind ?_ fun direction =>
    .plainBind ?_ fun nullsFirst => .done _
  · exact plain_if (tests_keyword _) (.done _) (plain_if (tests_keyword _) (.done _) (.done _))
  · exact plain_if (tests_keyword _)
      (plain_if (tests_keyword _) (.done _)
        (plain_if (tests_keyword _) (.done _) (plain_reject ascii_ne_nil)))
      (.done _)

theorem plain_orderBy : Plain reporting parseOrderBy Sql.OrderBy :=
  plain_if (tests_keyword _)
    (.plainBind (plain_require (tests_keyword _) ascii_ne_nil) fun _ =>
      plain_items plain_orderItem Sql.consumes_orderItem [])
    (.done _)

theorem plain_joinKind : Plain reporting parseJoinKind Sql.JoinWords :=
  plain_if (tests_keyword _) (plain_if (tests_keyword _) (.done _) (.done _))
    (plain_if (tests_keyword _) (plain_if (tests_keyword _) (.done _) (.done _))
      (plain_if (tests_keyword _) (.done _) (.done _)))

theorem plain_joinClause (kind : JoinKind) :
    Plain reporting (parseJoinClause kind) (Sql.Join kind) := by
  refine .plainBind (plain_identifier ascii_ne_nil) fun table => ?_
  refine .plainBind (plain_require (tests_keyword _) ascii_ne_nil) fun _ => ?_
  refine .plainBind (plain_identifier ascii_ne_nil) fun leftTable => ?_
  refine .plainBind (plain_require (tests_symbol _) ascii_ne_nil) fun _ => ?_
  refine .plainBind (plain_identifier ascii_ne_nil) fun leftColumn => ?_
  refine .plainBind (plain_require (tests_symbol _) ascii_ne_nil) fun _ => ?_
  refine .plainBind (plain_identifier ascii_ne_nil) fun rightTable => ?_
  refine .plainBind (plain_require (tests_symbol _) ascii_ne_nil) fun _ => ?_
  exact .plainBind (plain_identifier ascii_ne_nil) fun rightColumn => .done _

theorem plain_joins : Plain reporting (loop parseJoin []) Sql.Joins := by
  refine .plainWhileTrue (fun joins => ?_) (fun joins => ?_) []
  · refine .plainBind plain_joinKind fun kind => ?_
    cases kind with
    | none => exact .done _
    | some kind => exact .plainBind (plain_joinClause kind) fun _ => .done _
  · rintro s b r ⟨kind, m, hkind, h⟩
    cases kind with
    | none => cases h.1
    | some kind =>
      obtain ⟨jc, m', hjoin, -, rfl⟩ := h
      exact (Sql.consumes_join kind _ _ _ hjoin).trans_lt (Sql.joinWords_length_lt hkind)

theorem plain_count {what : String} (hwhat : ascii what ≠ []) :
    Plain reporting (parseCount what) Sql.Count := by
  refine .plainBind (plain_token _ _ hwhat) fun value => ?_
  cases value with
  | int64 n => exact .done _
  | int32 n => exact .done _
  | _ => exact plain_reject hwhat

theorem plain_offset : Plain reporting parseOffset Sql.Offset :=
  plain_if (tests_keyword _) (.plainBind (plain_count ascii_ne_nil) fun _ => .done _) (.done _)

theorem plain_window : Plain reporting parseWindow Sql.Window :=
  plain_if (tests_keyword _)
    (.plainBind (plain_count ascii_ne_nil) fun _ => .plainBind plain_offset fun _ => .done _)
    (.plainBind plain_offset fun _ => .done _)

end Sql.SqlParser

end OpenDB
