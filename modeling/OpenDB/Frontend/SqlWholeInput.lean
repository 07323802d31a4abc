import OpenDB.Frontend.SqlStatements

/-!
# What is left behind a statement

`parse` returns the statement that stands at the front of its text and does not look at what is left.
So a text is consumed as a whole, up to blanks, comments and one semicolon, if and only if no statement
of the grammar has anything else behind it (`consumesInput_iff`).
-/

set_option autoImplicit false

namespace OpenDB

open OpenDB.Library

namespace Sql

/-- Blanks and comments with at most one semicolon. -/
def Trailing (r : Bytes) : Prop := skip r = [] ∨ ∃ m, symbol ";" r = some m ∧ skip m = []

namespace SqlParser

variable {p p' : SqlParser} {sql r : Bytes} {statement : SqlStatement}

/-! ## Runs of `parse` -/

theorem run_parse (sql : Bytes) (p : SqlParser) :
    (parse sql).run p =
      match parseStatement.run ⟨sql, sql, []⟩ with
      | .ok statement p' => .ok (some statement) p'
      | .error .rejected p' => .ok none p'
      | .error stop p' => .error stop p' := by
  rw [parse, EStateM.run_bind, EStateM.run_set]
  simp only [attempt, EStateM.run]
  cases parseStatement ⟨sql, sql, []⟩ with
  | ok statement p' => rfl
  | error stop p' => cases stop <;> rfl

/-- A statement that is returned is the one that the grammar reads at the front of the text. -/
theorem statement_of_parse (h : (parse sql).run p = .ok (some statement) p') :
    parseStatement.run ⟨sql, sql, []⟩ = .ok statement p' ∧ Statement sql statement p'.rest := by
  rw [run_parse] at h
  cases hrun : parseStatement.run ⟨sql, sql, []⟩ with
  | ok statement' q =>
    rw [hrun] at h
    cases h
    exact ⟨rfl, parses_statement.sound hrun⟩
  | error stop q =>
    rw [hrun] at h
    cases stop <;> cases h

/-- A statement that the grammar reads at the front of the text is returned. -/
theorem parse_of_statement (p : SqlParser) (h : Statement sql statement r) :
    ∃ p', (parse sql).run p = .ok (some statement) p' ∧ p'.rest = r := by
  obtain ⟨p', hrun, hrest⟩ := parses_statement.complete (s := ⟨sql, sql, []⟩) h
  exact ⟨p', by rw [run_parse, hrun], hrest⟩

/-- The statement that a new parser returns, and the state it leaves. -/
def returned (sql : Bytes) : Option (SqlStatement × SqlParser) :=
  match (parse sql).run ⟨[], [], []⟩ with
  | .ok (some statement) p' => some (statement, p')
  | _ => none

theorem parse_of_returned (h : returned sql = some (statement, p')) :
    (parse sql).run ⟨[], [], []⟩ = .ok (some statement) p' := by
  rw [returned] at h
  split at h
  · rename_i hrun
    cases h
    exact hrun
  · cases h

/-! ## Whole texts -/

/-- A statement is only returned if nothing but blanks, comments and a semicolon is left. -/
def ConsumesInput (sql : Bytes) : Prop :=
  ∀ p statement p', (parse sql).run p = .ok (some statement) p' → Trailing p'.rest

/-- The text is consumed as a whole exactly if no statement at its front leaves anything else. -/
theorem consumesInput_iff (sql : Bytes) :
    ConsumesInput sql ↔ ∀ statement r, Statement sql statement r → Trailing r := by
  constructor
  · intro h statement r hstatement
    obtain ⟨p', hrun, rfl⟩ := parse_of_statement ⟨[], [], []⟩ hstatement
    exact h _ statement p' hrun
  · intro h p statement p' hrun
    exact h statement p'.rest (statement_of_parse hrun).2

/-- A query whose WHERE clause stands behind its LIMIT clause. -/
def lateWhere : Bytes := ascii "SELECT * FROM t LIMIT 1 WHERE x = 1"

theorem lateWhere_not_consumed : ¬ ConsumesInput lateWhere := by
  intro h
  have hreturned : returned lateWhere =
      some (.command ⟨.select, ascii "t", none, none, [ascii "*"], [], [], some 1, none⟩,
        ⟨lateWhere, ascii "WHERE x = 1", []⟩) := by decide +kernel
  rcases h _ _ _ (parse_of_returned hreturned) with hskip | ⟨m, hsemicolon, -⟩
  · exact absurd hskip (by decide +kernel)
  · have hnone : symbol ";" (ascii "WHERE x = 1") = none := by decide +kernel
    rw [hnone] at hsemicolon
    cases hsemicolon

end SqlParser

end Sql

end OpenDB
