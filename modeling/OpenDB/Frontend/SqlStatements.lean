import OpenDB.Frontend.SqlClauses
import OpenDB.Frontend.SqlPredicates

/-!
# Statements

The parser reads the grammar (`parses_statement`). A statement that is read without a broken operand
and without a broken list of values leaves no error behind; one that fails without an error text ends
where a value is expected (`CutOff`), and one that ends in an exception is a write without a WHERE
clause (`BareWrite`).
-/

set_option autoImplicit false

namespace OpenDB

open OpenDB.Library

namespace Sql.SqlParser

/-! ## SELECT, UPDATE and DELETE -/

theorem plain_selectHead : Plain reporting parseSelectHead Sql.SelectHead :=
  .plainBind plain_projections fun _ =>
    .plainBind (plain_require (tests_keyword _) ascii_ne_nil) fun _ =>
    .plainBind (plain_identifier ascii_ne_nil) fun _ => .done _

/-- A command whose predicate is not complete. -/
def BrokenPredicate : Rule UInt8 SqlCommand := fun _ cmd _ => Broken cmd.predicate

/-- Behind a broken predicate a SELECT goes on as usual. -/
theorem parses_select :
    Parses reporting parseSelect Sql.Select BrokenPredicate
      (fun stop s => stop = .rejected ∧ ∃ head r, Sql.SelectHead s head r ∧ CutWhere r) := by
  have htail : ∀ (head : List Bytes × Bytes) (predicate : Option NodePtr), Plain reporting _ _ :=
    fun head predicate => .plainBind plain_orderBy fun orderBy => .plainBind plain_window fun window =>
      .plainBind plain_joins fun joins => .done (SqlCommand.mk .select head.2 predicate none head.1
        orderBy joins window.1 window.2)
  refine (plain_selectHead.bind fun head => parses_where.bind fun predicate =>
    htail head predicate).weaken (fun _ _ _ => Iff.rfl) ?_ ?_
  · rintro s cmd r - ⟨head, m, -, -, h | ⟨predicate, m', -, hrest, h | h⟩⟩
    · exact h.elim
    · obtain ⟨orderBy, _, -, window, _, -, joins, _, -, rfl, -⟩ := hrest
      exact h
    · exact h.elim
  · rintro stop s (h | ⟨head, m, hhead, ⟨hstop, hcut⟩ | ⟨predicate, m', -, h⟩⟩)
    · exact h.elim
    · exact ⟨hstop, head, m, hhead, hcut⟩
    · exact h.elim

/-- A value without which the parser gives up; at the end of the text it says nothing. -/
theorem parses_valueOrStop {α : Type} (f : Value → α) :
    Parses reporting
      (consumeValueLiteral >>= fun value => match value with
        | none => throw .rejected
        | some value => return f value)
      (do
        let value ← Sql.Literal
        return f value)
      .never (fun stop s => stop = .rejected ∧ Sql.skip s = []) where
  reads p a r := by
    constructor
    · rintro ⟨p', h, rfl⟩
      obtain ⟨value, q, hvalue, h⟩ := run_bind_eq_ok.1 h
      cases value with
      | none => cases h
      | some value =>
        cases h
        rcases (noisy_consume _ _).sound hvalue with ⟨value', h, htoken⟩ | ⟨h, -⟩
        · cases h
          exact ⟨value, _, htoken, rfl, rfl⟩
        · cases h
    · rintro ⟨value, m, hvalue, rfl, rfl⟩
      obtain ⟨q, hq, rfl⟩ := (noisy_consume Sql.lexValue "unterminated string literal").complete
        (s := p) (.inl ⟨value, rfl, hvalue⟩)
      exact ⟨q, run_bind_eq_ok.2 ⟨some value, q, hq, rfl⟩, rfl⟩
  keeps p a p' h := by
    obtain ⟨value, q, hvalue, h⟩ := run_bind_eq_ok.1 h
    cases value with
    | none => cases h
    | some value =>
      cases h
      exact ((noisy_consume _ _).keeps p _ _ hvalue).imp_right fun h => by cases h
  fails p stop p' h := by
    rcases run_bind_eq_error.1 h with h | ⟨value, q, hvalue, h⟩
    · exact ((noisy_consume _ _).fails p stop p' h).imp_right False.elim
    · cases value with
      | some value => cases h
      | none =>
        cases h
        rw [consumeValueLiteral, run_consume] at hvalue
        -- no value: the text has ended, or the lexer has reported why
        cases hlex : Sql.lexValue (Sql.skip p.rest) with
        | found a rest =>
          rw [hlex] at hvalue
          cases hvalue
        | missing => exact .inr ⟨rfl, Sql.eq_nil_of_lexValue hlex⟩
        | unterminated =>
          rw [hlex] at hvalue
          cases hvalue
          exact .inl ⟨rfl, show ascii "unterminated string literal" ≠ [] from ascii_ne_nil⟩
        | malformed =>
          rw [hlex] at hvalue
          cases hvalue
          exact .inl ⟨rfl, List.append_ne_nil_of_left_ne_nil ascii_ne_nil _⟩

theorem parses_assignment :
    Parses reporting parseAssignment Sql.Assignment .never
      (fun stop s => stop = .rejected ∧ Sql.CutAssignment s) := by
  have hparses : Parses reporting parseAssignment Sql.Assignment _ _ :=
    .bind (plain_identifier ascii_ne_nil) fun column =>
      .bind (plain_require (tests_symbol _) ascii_ne_nil) fun _ =>
      parses_valueOrStop (fun value => (column, value))
  refine hparses.weaken (fun _ _ _ => Iff.rfl) ?_ ?_
  · rintro s a r - ⟨column, m, -, -, h | ⟨_, m', -, -, h | h⟩⟩
    · exact h
    · exact h
    · exact h
  · rintro stop s (h | ⟨column, m, hcolumn, h | ⟨_, m', heq, hstop, hend⟩⟩)
    · exact h.elim
    · exact h.elim
    · exact ⟨hstop, column, m, m', hcolumn, heq, hend⟩

/-- One assignment and the comma behind it, if there is one. -/
theorem parses_assignmentItem (values : Tuple) :
    Parses reporting (parseItem parseAssignment (fun t (col, val) => t.set col val) values)
      (do
        let assignment ← Sql.Assignment
        Sql.IfRead (Sql.symbol ",") (return .inl (values.set assignment.1 assignment.2))
          (return .inr (values.set assignment.1 assignment.2)))
      .never (fun stop s => stop = .rejected ∧ Sql.CutAssignment s) := by
  refine (parses_assignment.bind fun assignment => plain_if (tests_symbol _)
    (.done _) (.done _)).weaken (fun _ _ _ => Iff.rfl) ?_ ?_
  · rintro s x r - ⟨assignment, m, -, -, h | h⟩
    · exact h
    · exact h
  · rintro stop s (h | ⟨assignment, m, -, h⟩)
    · exact h
    · exact h.elim

theorem shrinks_assignmentItem (values : Tuple) :
    (do
      let assignment ← Sql.Assignment
      Sql.IfRead (Sql.symbol ",") (return .inl (values.set assignment.1 assignment.2))
        (return .inr (values.set assignment.1 assignment.2)) : Rule UInt8 (Tuple ⊕ Tuple)).Shrinks :=
  .bind Sql.consumes_assignment fun _ => Sql.shrinks_if_symbol ascii_ne_nil (.pure _) (.last _)

theorem parses_assignments :
    Parses reporting parseAssignments Sql.Assignments .never
      (fun stop s => stop = .rejected ∧ Sql.CutAssignments s) := by
  refine .whileTrue (N := fun _ => .never) (M := fun _ => .never)
    (F := fun _ stop s => stop = SqlStop.rejected ∧ Sql.CutAssignment s)
    (G := fun _ stop s => stop = SqlStop.rejected ∧ Sql.CutAssignments s)
    parses_assignmentItem shrinks_assignmentItem (fun _ h => h) (fun _ _ h => h.elim id id) ?_ ?_
    Tuple.empty
  · rintro values stop s ⟨hstop, hcut⟩
    exact ⟨hstop, .here hcut⟩
  · rintro values values' stop s m ⟨assignment, m', hassignment, ⟨m'', hcomma, h⟩ | ⟨-, h, -⟩⟩
      ⟨hstop, hcut⟩
    · obtain ⟨-, rfl⟩ := h
      exact ⟨hstop, .behind hassignment hcomma hcut⟩
    · cases h

theorem parses_updateHead :
    Parses reporting parseUpdateHead Sql.UpdateHead .never (fun stop s => stop = .rejected ∧
      ∃ table m r, Sql.Identifier s table m ∧ Sql.keyword "SET" m = some r ∧ Sql.CutAssignments r) := by
  have hparses : Parses reporting parseUpdateHead Sql.UpdateHead _ _ :=
    .bind (plain_identifier ascii_ne_nil) fun table =>
      .bind (plain_require (tests_keyword _) ascii_ne_nil) fun _ =>
      .bind parses_assignments fun values => .done (table, values)
  refine hparses.weaken (fun _ _ _ => Iff.rfl) ?_ ?_
  · rintro s a r - ⟨table, m, -, -, h | ⟨_, m', -, -, h | ⟨values, m'', -, -, h | h⟩⟩⟩
    · exact h
    · exact h
    · exact h
    · exact h
  · rintro stop s (h | ⟨table, m, htable, h | ⟨_, m', hset, ⟨hstop, hcut⟩ | ⟨values, m'', -, h⟩⟩⟩)
    · exact h.elim
    · exact h.elim
    · exact ⟨hstop, table, m, m', htable, hset, hcut⟩
    · exact h.elim

/-- A keyword that may be left out. -/
theorem plain_optional (kw : String) {α : Type} {x : Parser α} {R : Rule UInt8 α}
    (hx : Plain reporting x R) :
    Plain reporting (consumeKeyword kw >>= fun _ => x) (Sql.Optional kw >>= fun _ => R) := by
  refine (Parses.plainBind (tests_keyword kw) fun _ => hx).congr fun s a r => ?_
  constructor
  · rintro ⟨b, m, ⟨m', hm, -, rfl⟩ | ⟨hm, -, rfl⟩, h⟩
    · exact ⟨(), _, .inl ⟨_, hm, rfl, rfl⟩, h⟩
    · exact ⟨(), _, .inr ⟨hm, rfl, rfl⟩, h⟩
  · rintro ⟨_, m, ⟨m', hm, -, rfl⟩ | ⟨hm, -, rfl⟩, h⟩
    · exact ⟨true, _, .inl ⟨_, hm, rfl, rfl⟩, h⟩
    · exact ⟨false, _, .inr ⟨hm, rfl, rfl⟩, h⟩

theorem plain_deleteHead : Plain reporting parseDeleteHead Sql.DeleteHead :=
  plain_optional _ (plain_identifier ascii_ne_nil)

/-- What may go wrong in the WHERE clause of a write without an error text. -/
def ExcusedWhere (stop : SqlStop) (s : Bytes) : Prop :=
  (stop = .rejected ∧ CutWhere s) ∨
    ((∃ what, stop = .invalidArgument what) ∧ Sql.keyword "WHERE" s = none)

theorem where_none {s r : Bytes} (h : Sql.Where s none r) : Sql.keyword "WHERE" s = none := by
  rcases h with ⟨m, -, node, m', -, h⟩ | ⟨hm, -⟩
  · split_ifs at h
    · exact h.elim
    · cases h.1
  · exact hm

/-- The end of UPDATE and DELETE: without a WHERE clause the constructor of the command throws. -/
theorem parses_requiredWhere {f : Option NodePtr → Parser SqlCommand}
    {g : Option NodePtr → SqlCommand} {what : Bytes}
    (hnone : f none = throw (.invalidArgument what))
    (hsome : ∀ node, f (some node) = pure (g (some node)))
    (hbuild : ∀ predicate, (g predicate).predicate = predicate) :
    Parses reporting (parseWhere >>= f) (Sql.RequiredWhere g)
      BrokenPredicate ExcusedWhere where
  reads p cmd r := by
    constructor
    · rintro ⟨p', h, rfl⟩
      obtain ⟨predicate, q, hwhere, h⟩ := run_bind_eq_ok.1 h
      cases predicate with
      | none =>
        rw [hnone] at h
        cases h
      | some node =>
        rw [hsome] at h
        cases h
        rcases parses_where.sound hwhere with ⟨m, hm, hpredicate⟩ | ⟨-, h, -⟩
        · exact ⟨(), m, hm, some node, _, hpredicate, rfl, rfl⟩
        · cases h
    · rintro ⟨_, m, hm, predicate, m', hpredicate, rfl, rfl⟩
      obtain ⟨q, hq, rfl⟩ := parses_where.complete (s := p) (.inl ⟨m, hm, hpredicate⟩)
      refine ⟨q, run_bind_eq_ok.2 ⟨predicate, q, hq, ?_⟩, rfl⟩
      cases predicate with
      | none =>
        have hnokw := where_none (.inl ⟨m, hm, hpredicate⟩)
        rw [Sql.Read, hnokw] at hm
        cases hm
      | some node =>
        rw [hsome]
        rfl
  keeps p cmd p' h := by
    obtain ⟨predicate, q, hwhere, h⟩ := run_bind_eq_ok.1 h
    cases predicate with
    | none =>
      rw [hnone] at h
      cases h
    | some node =>
      rw [hsome] at h
      cases h
      refine (parses_where.keeps p (some node) _ hwhere).imp_right fun hbroken => ?_
      show Broken (g (some node)).predicate
      rw [hbuild]
      exact hbroken
  fails p stop p' h := by
    rcases run_bind_eq_error.1 h with h | ⟨predicate, q, hwhere, h⟩
    · exact (parses_where.fails p stop p' h).imp_right .inl
    · cases predicate with
      | none =>
        rw [hnone] at h
        cases h
        -- a statement without its WHERE is refused
        exact .inr (.inr ⟨⟨what, rfl⟩, where_none (parses_where.sound hwhere)⟩)
      | some node =>
        rw [hsome] at h
        cases h

theorem parses_update :
    Parses reporting parseUpdate Sql.Update BrokenPredicate (fun stop s =>
      (stop = .rejected ∧
        ∃ table m r, Sql.Identifier s table m ∧ Sql.keyword "SET" m = some r ∧ Sql.CutAssignments r) ∨
      ∃ head r, Sql.UpdateHead s head r ∧ ExcusedWhere stop r) := by
  have hparses : Parses reporting parseUpdate Sql.Update _ _ :=
    .bind parses_updateHead fun head => parses_requiredWhere (g := Sql.updateCommand head.1 head.2)
      rfl (fun _ => rfl) fun _ => rfl
  refine hparses.weaken (fun _ _ _ => Iff.rfl) ?_ ?_
  · rintro s cmd r - ⟨head, m, -, -, h | h⟩
    · exact h.elim
    · exact h
  · rintro stop s (h | ⟨head, m, hhead, h⟩)
    · exact .inl h
    · exact .inr ⟨head, m, hhead, h⟩

theorem parses_delete :
    Parses reporting parseDelete Sql.Delete BrokenPredicate (fun stop s =>
      ∃ table r, Sql.DeleteHead s table r ∧ ExcusedWhere stop r) := by
  have hparses : Parses reporting parseDelete Sql.Delete _ _ :=
    .bind plain_deleteHead fun table => parses_requiredWhere rfl (fun _ => rfl) fun _ => rfl
  refine hparses.weaken (fun _ _ _ => Iff.rfl) ?_ ?_
  · rintro s cmd r - ⟨table, m, -, -, h | h⟩
    · exact h.elim
    · exact h
  · rintro stop s (h | ⟨table, m, hhead, h⟩)
    · exact h.elim
    · exact ⟨table, m, hhead, h⟩

/-! ## INSERT -/

/-- What stands there is not a sequence of values up to a closing parenthesis. -/
def BrokenSequence (s r : Bytes) : Prop := ¬ ∃ values, Sql.ValueSequence s values r

theorem parses_insertValue (t : Tuple) :
    Parses reporting (parseInsertValue t) (Sql.ValueItem t)
      (fun s x r => (∃ t', x = .inr t') ∧ BrokenSequence s r) unexcused := by
  have hparses : Parses reporting (parseInsertValue t) _ _ _ :=
    (noisy_consume Sql.lexValue _).bind
      (S := fun value => match value with
        | none => return .inr t
        | some value => Sql.IfRead (Sql.symbol ",") (return .inl (Sql.addValue t value))
            (Sql.IfRead (Sql.symbol ")") (return .inr (Sql.addValue t value))
              (return .inr (Sql.addValue t value))))
      (M := fun value => match value with
        | none => .never
        | some value => Sql.IfRead (Sql.symbol ",") .never
            (Sql.IfRead (Sql.symbol ")") .never (return .inr (Sql.addValue t value))))
      (G := fun value => match value with
        | none => unexcused
        | some _ => excusedIf (Sql.symbol ",") unexcused (excusedIf (Sql.symbol ")") unexcused unexcused))
      fun value => by
        cases value with
        | none => exact .done _
        | some value =>
          exact parses_if (tests_symbol _) (.done _)
            (parses_if (tests_symbol _) (.done _) (parses_complain _ _))
  -- what is read, what is reported and what stops are the rules of a value item
  refine hparses.weaken ?_ ?_ ?_
  · intro s x r
    constructor
    · rintro ⟨value, m, ⟨value, rfl, hvalue⟩ | ⟨rfl, hvalue⟩, h⟩
      · rcases h with ⟨m', hcomma, rfl, rfl⟩ | ⟨hcomma, ⟨m', hclose, rfl, rfl⟩ | ⟨hclose, rfl, rfl⟩⟩
        · exact .more hvalue hcomma
        · exact .last hvalue hcomma (by simpa using hclose)
        · simpa using Sql.ValueItem.noClose hvalue hcomma (by simpa using hclose)
      · obtain ⟨rfl, rfl⟩ := h
        exact .noValue hvalue
    · intro h
      cases h with
      | more hvalue hcomma => exact ⟨some _, _, .inl ⟨_, rfl, hvalue⟩, .inl ⟨_, hcomma, rfl, rfl⟩⟩
      | last hvalue hcomma hclose =>
        exact ⟨some _, _, .inl ⟨_, rfl, hvalue⟩,
          .inr ⟨hcomma, .inl ⟨_, by simpa using hclose, rfl, rfl⟩⟩⟩
      | noClose hvalue hcomma hclose =>
        exact ⟨some _, _, .inl ⟨_, rfl, hvalue⟩,
          .inr ⟨hcomma, .inr ⟨by simpa using hclose, rfl, by simp⟩⟩⟩
      | noValue hvalue => exact ⟨none, _, .inr ⟨rfl, hvalue⟩, rfl, rfl⟩
  · rintro s x r - ⟨value, m, hvalue, h, hnoise⟩
    rcases hvalue with ⟨value, rfl, hvalue⟩ | ⟨rfl, hvalue⟩
    · have hbroken : Sql.IfRead (Sql.symbol ",") .never
          (Sql.IfRead (Sql.symbol ")") .never (return .inr (Sql.addValue t value))) m x r :=
        hnoise.elim (fun h => by cases h) id
      rcases hbroken with ⟨_, _, h⟩ | ⟨hcomma, ⟨_, _, h⟩ | ⟨hclose, rfl, -⟩⟩
      · exact h.elim
      · exact h.elim
      · refine ⟨⟨_, rfl⟩, ?_⟩
        rintro ⟨values, hvalues⟩
        cases hvalues with
        | last hvalue' hclose' =>
          obtain ⟨-, rfl⟩ := Sql.token_unique hvalue hvalue'
          rw [Sql.symbol_skip, hclose'] at hclose
          cases hclose
        | more hvalue' hcomma' _ =>
          obtain ⟨-, rfl⟩ := Sql.token_unique hvalue hvalue'
          rw [hcomma'] at hcomma
          cases hcomma
    · obtain ⟨rfl, -⟩ := h
      refine ⟨⟨_, rfl⟩, ?_⟩
      rintro ⟨values, hvalues⟩
      cases hvalues with
      | last hvalue' _ => exact Sql.not_noToken hvalue' hvalue
      | more hvalue' _ _ => exact Sql.not_noToken hvalue' hvalue
  · rintro stop s (h | ⟨value, m, -, h⟩)
    · exact h
    · cases value with
      | none => exact h
      | some value =>
        rcases h with ⟨_, _, h⟩ | ⟨_, ⟨_, _, h⟩ | ⟨_, h⟩⟩
        · exact h
        · exact h
        · exact h

theorem parses_insertValues (t : Tuple) :
    Parses reporting (loop parseInsertValue t) (Repeat Sql.ValueItem t)
      (fun s _ r => BrokenSequence s r) unexcused := by
  refine .whileTrue (M := fun _ s _ r => BrokenSequence s r) (G := fun _ => unexcused)
    parses_insertValue (fun t => ?_) (fun _ h => h.2) ?_ (fun h => h) (fun _ h => h) t
  · rintro s t' r h
    cases h with
    | more hvalue hcomma =>
      exact (Sql.symbol_length_lt ascii_ne_nil hcomma).trans_le (Sql.consumes_literal _ _ _ hvalue)
  · rintro t t' c s m r h - (⟨⟨t'', h'⟩, -⟩ | hbroken)
    · cases h'
    · cases h with
      | more hvalue hcomma =>
        rintro ⟨values, hvalues⟩
        cases hvalues with
        | last hvalue' hclose =>
          obtain ⟨-, rfl⟩ := Sql.token_unique hvalue hvalue'
          rw [Sql.comma_eq_none hclose] at hcomma
          cases hcomma
        | more hvalue' hcomma' hrest =>
          obtain ⟨-, rfl⟩ := Sql.token_unique hvalue hvalue'
          rw [hcomma] at hcomma'
          cases hcomma'
          exact hbroken ⟨_, hrest⟩

/-- What stands there is not a complete list of values. -/
def BrokenList (s r : Bytes) : Prop := ¬ ∃ values, Sql.ValueList s values r

theorem parses_insertValueList :
    Parses reporting parseInsertValueList Sql.Values (fun s _ r => BrokenList s r) unexcused := by
  have hparses : Parses reporting parseInsertValueList Sql.Values _ _ :=
    parses_if (tests_symbol _) (parses_insertValues .empty) (parses_complain _ _)
  refine hparses.weaken (fun _ _ _ => Iff.rfl) ?_ ?_
  · rintro s t r - (⟨m, hopen, hbroken⟩ | ⟨hopen, -⟩)
    · rintro ⟨values, m', hopen', hvalues⟩
      rw [hopen] at hopen'
      cases hopen'
      exact hbroken ⟨values, hvalues⟩
    · rintro ⟨values, m', hopen', -⟩
      rw [hopen] at hopen'
      cases hopen'
  · rintro stop s (⟨_, _, h⟩ | ⟨_, h⟩)
    · exact h
    · exact h

theorem plain_insertColumns : Plain reporting parseInsertColumns Sql.InsertColumns := by
  refine plain_if (tests_symbol _) (.plainWhileTrue (fun columns => ?_) (fun columns => ?_) [])
    (.done _)
  · exact .plainBind (plain_identifier ascii_ne_nil) fun column => plain_if (tests_symbol _) (.done _)
      (plain_ifOrReject (tests_symbol _) (.done _) ascii_ne_nil)
  · exact .bind Sql.consumes_identifier fun column => Sql.shrinks_if_symbol ascii_ne_nil (.pure _)
      (.bind (Sql.consumes_read_symbol _) fun _ => .last _)

theorem plain_insertHead : Plain reporting parseInsertHead Sql.InsertHead :=
  plain_optional _ (.plainBind (plain_identifier ascii_ne_nil) fun _ =>
    .plainBind plain_insertColumns fun _ => .done _)

theorem parses_insert :
    Parses reporting parseInsert Sql.Insert
      (fun s _ r => ∃ table m m', Sql.InsertHead s table m ∧ Sql.keyword "VALUES" m = some m' ∧
        BrokenList m' r) unexcused := by
  have hparses : Parses reporting parseInsert Sql.Insert _ _ :=
    .bind plain_insertHead fun table => parses_if (tests_keyword _)
      (.bind parses_insertValueList fun values => .done (Sql.insertCommand table values))
      (plain_if (tests_keyword _)
        (.plainBind (plain_require (tests_keyword _) ascii_ne_nil) fun _ => .done (Sql.insertCommand table .empty))
        (plain_reject ascii_ne_nil))
  refine hparses.weaken (fun _ _ _ => Iff.rfl) ?_ ?_
  · rintro s cmd r - ⟨table, m, hhead, -, h | ⟨m', hvalues, h⟩ | ⟨-, h⟩⟩
    · exact h.elim
    · obtain ⟨values, m'', -, ⟨-, rfl⟩, h | h⟩ := h
      · exact ⟨table, m, m', hhead, hvalues, h⟩
      · exact h.elim
    · exact h.elim
  · rintro stop s (h | ⟨table, m, -, ⟨m', -, h | ⟨_, _, -, h⟩⟩ | ⟨-, h⟩⟩)
    · exact h
    · exact h
    · exact h
    · exact h

/-! ## Statements -/

/-- What is not finished in a statement that is read: its predicate, or its list of values. -/
inductive Unfinished (s : Bytes) : SqlStatement → Bytes → Prop where
  | predicate {cmd : SqlCommand} {r : Bytes} (h : Broken cmd.predicate) : Unfinished s (.command cmd) r
  | values {statement : SqlStatement} {table m r : Bytes} (hhead : Sql.InsertValues s table m)
      (h : BrokenList m r) : Unfinished s statement r

/-- The failures without an error text: the text is cut off, or the constructor of a command throws. -/
inductive Excused : SqlStop → Bytes → Prop where
  | cutOff {s : Bytes} (h : Sql.CutOff s) : Excused .rejected s
  | bareWrite {s what : Bytes} (h : Sql.BareWrite s) : Excused (.invalidArgument what) s

theorem unfinished_of_skip {s r : Bytes} {statement : SqlStatement}
    (h : Unfinished (Sql.skip s) statement r) : Unfinished s statement r := by
  cases h with
  | predicate h => exact .predicate h
  | values hhead h =>
    obtain ⟨m, m', hkw, hhead, hvalues⟩ := hhead
    rw [Sql.keyword_skip] at hkw
    exact .values ⟨m, m', hkw, hhead, hvalues⟩ h

theorem excused_of_skip {stop : SqlStop} {s : Bytes} (h : Excused stop (Sql.skip s)) :
    Excused stop s := by
  cases h with
  | cutOff h => exact .cutOff (Sql.cutOff_skip.1 h)
  | bareWrite h => exact .bareWrite (Sql.bareWrite_skip.1 h)

section Kinds

variable {x y : Parser SqlStatement} {R S N : Rule UInt8 SqlStatement} {F : SqlStop → Bytes → Prop}

/-- One keyword of `parseKind`. -/
theorem parses_kind (kw : String) (hx : Parses reporting x R N F)
    (hN : ∀ {s m a r}, Sql.keyword kw s = some m → N m a r → Unfinished s a r)
    (hF : ∀ {stop s m}, Sql.keyword kw s = some m → F stop m → Excused stop s)
    (hy : Parses reporting y S Unfinished Excused) :
    Parses reporting (consumeKeyword kw >>= fun b => if b = true then x else y)
      (Sql.IfRead (Sql.keyword kw) R S) Unfinished Excused := by
  refine (parses_if (tests_keyword kw) hx hy).weaken (fun _ _ _ => Iff.rfl) ?_ ?_
  · rintro s a r - (⟨m, hm, h⟩ | ⟨-, h⟩)
    · exact hN hm h
    · exact unfinished_of_skip h
  · rintro stop s (⟨m, hm, h⟩ | ⟨-, h⟩)
    · exact hF hm h
    · exact excused_of_skip h

theorem parses_plainKind (kw : String) (hx : Plain reporting x R)
    (hy : Parses reporting y S Unfinished Excused) :
    Parses reporting (consumeKeyword kw >>= fun b => if b = true then x else y)
      (Sql.IfRead (Sql.keyword kw) R S) Unfinished Excused :=
  parses_kind kw hx (fun _ h => h.elim) (fun _ h => h.elim) hy

end Kinds

theorem unfinished_of_broken {s r : Bytes} {statement : SqlStatement}
    (h : (SqlStatement.command <$> BrokenPredicate : Rule UInt8 SqlStatement) s statement r) :
    Unfinished s statement r := by
  obtain ⟨cmd, hbroken, rfl⟩ := Rule.map_iff.1 h
  exact .predicate hbroken

theorem parses_parseKind : Parses reporting parseKind Sql.Statement Unfinished Excused := by
  refine parses_plainKind _ (plain_ifOrReject (tests_keyword _) plain_createTable ascii_ne_nil) ?_
  refine parses_plainKind _ (plain_ifOrReject (tests_keyword _) plain_dropTable ascii_ne_nil) ?_
  refine parses_plainKind _ (plain_ifOrReject (tests_keyword _) plain_alterTable ascii_ne_nil) ?_
  refine parses_kind _ (parses_insert.map _) ?_ (fun _ h => h.elim) ?_
  · intro s m statement r hkw h
    obtain ⟨cmd, ⟨table, m', m'', hhead, hvalues, hbroken⟩, rfl⟩ := Rule.map_iff.1 h
    exact .values ⟨m, m', hkw, hhead, hvalues⟩ hbroken
  refine parses_kind _ (parses_select.map _) (fun _ h => unfinished_of_broken h) ?_ ?_
  · rintro stop s m hkw ⟨rfl, head, r, hhead, m', hwhere, hcut⟩
    exact .cutOff (.comparison (.select hkw hhead hwhere) hcut)
  refine parses_kind _ (parses_update.map _) (fun _ h => unfinished_of_broken h) ?_ ?_
  · rintro stop s m hkw (⟨rfl, table, m', r, htable, hset, hcut⟩ |
      ⟨head, r, hhead, ⟨rfl, m', hwhere, hcut⟩ | ⟨⟨what, rfl⟩, hbare⟩⟩)
    · exact .cutOff (.assignment hkw htable hset hcut)
    · exact .cutOff (.comparison (.update hkw hhead hwhere) hcut)
    · exact .bareWrite (.update hkw hhead hbare)
  refine parses_kind _ (parses_delete.map _) (fun _ h => unfinished_of_broken h) ?_ ?_
  · rintro stop s m hkw ⟨table, r, hhead, ⟨rfl, m', hwhere, hcut⟩ | ⟨⟨what, rfl⟩, hbare⟩⟩
    · exact .cutOff (.comparison (.delete hkw hhead hwhere) hcut)
    · exact .bareWrite (.delete hkw hhead hbare)
  refine parses_plainKind _ (plain_optional _ (.done _)) ?_
  refine parses_plainKind _ (.done _) (parses_plainKind _ (.done _) ?_)
  exact Parses.weaken (plain_reject ascii_ne_nil) (fun _ _ _ => Iff.rfl) (fun _ _ _ _ h => h.elim)
    fun _ _ h => h.elim

theorem statement_nil {statement : SqlStatement} {r : Bytes} : ¬ Sql.Statement [] statement r := by
  have hnone : ∀ {kw : String}, ascii kw ≠ [] → ∀ {m}, Sql.keyword kw [] ≠ some m := by
    intro kw hkw m h
    rw [Sql.keyword_eq_none hkw rfl] at h
    cases h
  rintro h
  iterate 10
    rcases h with ⟨m, hm, -⟩ | ⟨-, h⟩
    · exact hnone ascii_ne_nil hm
  exact h

theorem skipsBlanks_statement : SkipsBlanks Sql.Statement := skipsBlanks_if_keyword _ _ _

theorem run_parseStatement (p : SqlParser) :
    parseStatement.run p =
      if (Sql.skip p.rest).isEmpty then
        .error .rejected ⟨p.input, Sql.skip p.rest, ascii "empty statement"⟩
      else parseKind.run { p with rest := Sql.skip p.rest } := by
  simp only [parseStatement, skipWhitespaceAndComments, EStateM.run_bind, EStateM.run_modify,
    EStateM.run_get]
  split <;> rfl

/-- The parser reads the grammar. -/
theorem parses_statement : Parses reporting parseStatement Sql.Statement Unfinished Excused := by
  refine ⟨fun p statement r => ?_, fun p statement p' h => ?_, fun p stop p' h => ?_⟩
  · rw [run_parseStatement]
    split_ifs with hempty
    · constructor
      · rintro ⟨p', h, -⟩
        cases h
      · intro h
        have hskip := (skipsBlanks_statement p.rest statement r).2 h
        rw [List.isEmpty_iff.1 hempty] at hskip
        exact absurd hskip statement_nil
    · exact (parses_parseKind.reads { p with rest := Sql.skip p.rest } statement r).trans
        (skipsBlanks_statement p.rest statement r)
  · rw [run_parseStatement] at h
    split_ifs at h
    exact (parses_parseKind.keeps _ statement p' h).imp_right unfinished_of_skip
  · rw [run_parseStatement] at h
    split_ifs at h
    · cases h
      exact .inl ⟨rfl, show ascii "empty statement" ≠ [] from ascii_ne_nil⟩
    · exact (parses_parseKind.fails _ stop p' h).imp_right excused_of_skip

/-! ## The predicate of a statement -/

/-- Behind the WHERE of a statement stands its predicate. -/
theorem statement_of_whereText {s m r : Bytes} {statement : SqlStatement} (hwhere : Sql.WhereText s m)
    (h : Sql.Statement s statement r) :
    ∃ cmd node r', statement = .command cmd ∧ cmd.predicate = some node ∧
      Sql.Disjunction m node r' := by
  cases hwhere with
  | select hkw hhead hwhere =>
    obtain ⟨cmd, ⟨head, m₁, hhead', predicate, m₂, hpredicate, _, _, -, _, _, -, _, _, -, rfl, -⟩, rfl⟩ :=
      (Sql.statement_select hkw).1 h
    obtain ⟨-, rfl⟩ := plain_selectHead.unique (s := ⟨[], _, []⟩) hhead hhead'
    rw [Sql.Where, Sql.ifRead_some hwhere] at hpredicate
    obtain ⟨node, rfl, hnode, -⟩ := Sql.wherePredicate_some hpredicate
    exact ⟨_, node, m₂, rfl, rfl, hnode⟩
  | update hkw hhead hwhere =>
    obtain ⟨cmd, ⟨head, m₁, hhead', _, m₂, hwhere', predicate, m₃, hpredicate, rfl, -⟩, rfl⟩ :=
      (Sql.statement_update hkw).1 h
    obtain ⟨rfl, rfl⟩ := parses_updateHead.unique (s := ⟨[], _, []⟩) hhead hhead'
    rw [Sql.Read, hwhere] at hwhere'
    cases hwhere'
    obtain ⟨node, rfl, hnode, -⟩ := Sql.wherePredicate_some hpredicate
    exact ⟨_, node, m₃, rfl, rfl, hnode⟩
  | delete hkw hhead hwhere =>
    obtain ⟨cmd, ⟨table, m₁, hhead', _, m₂, hwhere', predicate, m₃, hpredicate, rfl, -⟩, rfl⟩ :=
      (Sql.statement_delete hkw).1 h
    obtain ⟨rfl, rfl⟩ := plain_deleteHead.unique (s := ⟨[], _, []⟩) hhead hhead'
    rw [Sql.Read, hwhere] at hwhere'
    cases hwhere'
    obtain ⟨node, rfl, hnode, -⟩ := Sql.wherePredicate_some hpredicate
    exact ⟨_, node, m₃, rfl, rfl, hnode⟩

/-- The text behind the WHERE of a statement, if it starts with one, is a predicate without gaps. -/
def CompleteWhere (sql : Bytes) : Prop :=
  ∀ m, Sql.WhereText sql m → (∃ statement r, Sql.Statement sql statement r) → Sql.CompletePredicate m

/-- The predicates of the statement in front of a text are complete exactly if the text behind its
WHERE is. -/
theorem completeWhere_iff (sql : Bytes) :
    CompleteWhere sql ↔ ∀ cmd node r, Sql.Statement sql (.command cmd) r →
      cmd.predicate = some node → node.Complete := by
  constructor
  · intro h cmd node r hstatement hnode
    obtain ⟨m, r', hwhere, hpredicate⟩ := Sql.whereText_of_statement hstatement hnode
    exact (completePredicate_iff hpredicate).1 (h m hwhere ⟨_, r, hstatement⟩)
  · rintro h m hwhere ⟨statement, r, hstatement⟩
    obtain ⟨cmd, node, r', rfl, hnode, hpredicate⟩ := statement_of_whereText hwhere hstatement
    exact (completePredicate_iff hpredicate).2 (h cmd node r hstatement hnode)

end Sql.SqlParser

end OpenDB
