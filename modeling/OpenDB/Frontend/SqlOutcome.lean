import OpenDB.Frontend.SqlCompleteStatements

/-!
# What the parser answers

`parse` is meant to return a statement, or nothing together with an error text, and `parseAll` a list of
statements. Three kinds of text keep them from it: a text that ends where a value is expected, for which
there is no error text, a write without a WHERE clause, for which the constructor of the command throws,
and in `parseAll` a statement with a gap in its predicate, the copy of which goes through a null pointer
(`answers_iff`).
-/

set_option autoImplicit false

namespace OpenDB

open OpenDB.Library

namespace Sql.SqlParser

/-! ## Failures without an error text -/

section Silent

variable {α : Type} {x y : Parser α} {F : SqlStop → Bytes → Prop} {kw : String}

theorem failsSilently_then (hx : FailsSilently reporting x F) :
    FailsSilently reporting (consumeKeyword kw >>= fun b => if b = true then x else y)
      fun stop s => ∃ m, keyword kw s = some m ∧ F stop m := by
  rintro p stop ⟨m, hm, hF⟩
  obtain ⟨p', hrun, hsame⟩ := hx { p with rest := m } stop hF
  have hkw : keyword kw p.rest = some m := hm
  refine ⟨p', run_bind_eq_error.2 (.inr ⟨true, { p with rest := m }, ?_, hrun⟩), hsame⟩
  rw [run_consumeKeyword, hkw]

theorem failsSilently_else (hy : FailsSilently reporting y F) :
    FailsSilently reporting (consumeKeyword kw >>= fun b => if b = true then x else y)
      fun stop s => keyword kw s = none ∧ F stop (skip s) := by
  rintro p stop ⟨hm, hF⟩
  obtain ⟨p', hrun, hsame⟩ := hy { p with rest := skip p.rest } stop hF
  have hkw : keyword kw p.rest = none := hm
  refine ⟨p', run_bind_eq_error.2 (.inr ⟨false, { p with rest := skip p.rest }, ?_, hrun⟩), hsame⟩
  rw [run_consumeKeyword, hkw]

end Silent

theorem failsSilently_where :
    FailsSilently reporting parseWhere fun stop s => ∃ m, keyword "WHERE" s = some m ∧
      stop = .rejected ∧ CutOperand m :=
  failsSilently_then failsSilently_wherePredicate

theorem failsSilently_select :
    FailsSilently reporting parseSelect fun stop s => ∃ head r, SelectHead s head r ∧
      ∃ m, keyword "WHERE" r = some m ∧ stop = .rejected ∧ CutOperand m :=
  .bindRight plain_selectHead fun _ => failsSilently_where.bindLeft

theorem failsSilently_valueOrStop {α : Type} (f : Value → α) :
    FailsSilently reporting
      (consumeValueLiteral >>= fun value => match value with
        | none => throw .rejected
        | some value => return f value)
      fun stop s => stop = .rejected ∧ skip s = [] := by
  rintro p stop ⟨rfl, hend⟩
  have hskip : skip p.rest = [] := hend
  refine ⟨{ p with rest := [] }, run_bind_eq_error.2 (.inr ⟨none, { p with rest := [] }, ?_, rfl⟩), rfl⟩
  rw [consumeValueLiteral, run_consume, hskip]
  rfl

theorem failsSilently_assignment :
    FailsSilently reporting parseAssignment fun stop s => stop = .rejected ∧ CutAssignment s := by
  have hsilent : FailsSilently reporting parseAssignment _ :=
    .bindRight (plain_identifier ascii_ne_nil) fun column =>
      .bindRight (plain_require (tests_symbol _) ascii_ne_nil) fun _ =>
      failsSilently_valueOrStop fun value => (column, value)
  rintro p stop ⟨rfl, column, m, m', hcolumn, heq, hend⟩
  exact hsilent p _ ⟨column, m, hcolumn, (), m', heq, rfl, hend⟩

theorem failsSilently_assignments :
    FailsSilently reporting parseAssignments fun stop s => stop = .rejected ∧ CutAssignments s := by
  have hsilent : FailsSilently reporting parseAssignments _ :=
    .whileTrue (fun values => parses_assignmentItem values) shrinks_assignmentItem
      (fun values => failsSilently_assignment.bindLeft) .empty
  rintro p stop ⟨rfl, hcut⟩
  refine hsilent p _ ?_
  generalize Tuple.empty = values
  generalize reporting.view p = s at hcut
  induction hcut generalizing values with
  | here h => exact .first ⟨rfl, h⟩
  | behind h hcomma _ ih => exact .again ⟨_, _, h, .inl ⟨_, hcomma, rfl, rfl⟩⟩ (ih _)

theorem failsSilently_updateHead :
    FailsSilently reporting parseUpdateHead fun stop s => stop = .rejected ∧
      ∃ table m r, Identifier s table m ∧ keyword "SET" m = some r ∧ CutAssignments r := by
  have hsilent : FailsSilently reporting parseUpdateHead _ :=
    .bindRight (plain_identifier ascii_ne_nil) fun table =>
      .bindRight (plain_require (tests_keyword _) ascii_ne_nil) fun _ =>
      failsSilently_assignments.bindLeft
  rintro p stop ⟨rfl, table, m, r, htable, hset, hcut⟩
  exact hsilent p _ ⟨table, m, htable, (), r, hset, rfl, hcut⟩

/-- A write without a WHERE clause. -/
theorem failsSilently_bareWrite {f : Option NodePtr → Parser SqlCommand} {what : Bytes}
    (hnone : f none = throw (.invalidArgument what)) :
    FailsSilently reporting (parseWhere >>= f) fun stop s =>
      stop = .invalidArgument what ∧ keyword "WHERE" s = none := by
  rintro p stop ⟨rfl, hbare⟩
  have hwhere : Where p.rest none (skip p.rest) := .inr ⟨hbare, rfl, rfl⟩
  obtain ⟨q, hq, -, hsame⟩ := parses_where.quiet (s := p) hwhere (by rintro ⟨node, h, -⟩; cases h)
  exact ⟨q, run_bind_eq_error.2 (.inr ⟨none, q, hq, by rw [hnone]; rfl⟩), hsame⟩

/-! ## Failures of a statement -/

section Kinds

variable {F : SqlStop → Bytes → Prop}

theorem failsSilently_kindSelect (hF : FailsSilently reporting parseSelect F) :
    FailsSilently reporting parseKind fun stop s => ∃ m, keyword "SELECT" s = some m ∧ F stop m := by
  rintro p stop ⟨m, hkw, h⟩
  have hnone : ∀ kw, (ascii kw).all isAlpha → (ascii "SELECT").map toUpper ≠ (ascii kw).map toUpper →
      keyword kw (reporting.view p) = none := fun kw halpha hne =>
    keyword_eq_none_of_keyword hkw (by decide) halpha hne
  refine failsSilently_else (failsSilently_else (failsSilently_else (failsSilently_else
    (failsSilently_then (hF.map _))))) p stop ⟨hnone "CREATE" (by decide) (by decide), ?_⟩
  simp only [keyword_skip]
  exact ⟨hnone "DROP" (by decide) (by decide), hnone "ALTER" (by decide) (by decide),
    hnone "INSERT" (by decide) (by decide), m, hkw, h⟩

theorem failsSilently_kindUpdate (hF : FailsSilently reporting parseUpdate F) :
    FailsSilently reporting parseKind fun stop s => ∃ m, keyword "UPDATE" s = some m ∧ F stop m := by
  rintro p stop ⟨m, hkw, h⟩
  have hnone : ∀ kw, (ascii kw).all isAlpha → (ascii "UPDATE").map toUpper ≠ (ascii kw).map toUpper →
      keyword kw (reporting.view p) = none := fun kw halpha hne =>
    keyword_eq_none_of_keyword hkw (by decide) halpha hne
  refine failsSilently_else (failsSilently_else (failsSilently_else (failsSilently_else
    (failsSilently_else (failsSilently_then (hF.map _)))))) p stop
    ⟨hnone "CREATE" (by decide) (by decide), ?_⟩
  simp only [keyword_skip]
  exact ⟨hnone "DROP" (by decide) (by decide), hnone "ALTER" (by decide) (by decide),
    hnone "INSERT" (by decide) (by decide), hnone "SELECT" (by decide) (by decide), m, hkw, h⟩

theorem failsSilently_kindDelete (hF : FailsSilently reporting parseDelete F) :
    FailsSilently reporting parseKind fun stop s => ∃ m, keyword "DELETE" s = some m ∧ F stop m := by
  rintro p stop ⟨m, hkw, h⟩
  have hnone : ∀ kw, (ascii kw).all isAlpha → (ascii "DELETE").map toUpper ≠ (ascii kw).map toUpper →
      keyword kw (reporting.view p) = none := fun kw halpha hne =>
    keyword_eq_none_of_keyword hkw (by decide) halpha hne
  refine failsSilently_else (failsSilently_else (failsSilently_else (failsSilently_else
    (failsSilently_else (failsSilently_else (failsSilently_then (hF.map _))))))) p stop
    ⟨hnone "CREATE" (by decide) (by decide), ?_⟩
  simp only [keyword_skip]
  exact ⟨hnone "DROP" (by decide) (by decide), hnone "ALTER" (by decide) (by decide),
    hnone "INSERT" (by decide) (by decide), hnone "SELECT" (by decide) (by decide),
    hnone "UPDATE" (by decide) (by decide), m, hkw, h⟩

end Kinds

/-- A text that ends where a value is expected is rejected without an error text. -/
theorem failsSilently_cutOff :
    FailsSilently reporting parseKind fun stop s => stop = .rejected ∧ CutOff s := by
  rintro p stop ⟨rfl, hcut⟩
  cases hcut with
  | assignment hkw htable hset hcut =>
    exact failsSilently_kindUpdate (failsSilently_updateHead.bindLeft) p _
      ⟨_, hkw, rfl, _, _, _, htable, hset, hcut⟩
  | comparison hwhere hcut =>
    cases hwhere with
    | select hkw hhead hwhere =>
      exact failsSilently_kindSelect failsSilently_select p _
        ⟨_, hkw, _, _, hhead, _, hwhere, rfl, hcut⟩
    | update hkw hhead hwhere =>
      exact failsSilently_kindUpdate
        (.bindRight parses_updateHead fun _ => failsSilently_where.bindLeft) p _
        ⟨_, hkw, _, _, hhead, _, hwhere, rfl, hcut⟩
    | delete hkw hhead hwhere =>
      exact failsSilently_kindDelete
        (.bindRight plain_deleteHead fun _ => failsSilently_where.bindLeft) p _
        ⟨_, hkw, _, _, hhead, _, hwhere, rfl, hcut⟩

/-- For a write without a WHERE clause the constructor of the command throws. -/
theorem run_kind_of_bareWrite {p : SqlParser} (h : BareWrite p.rest) :
    ∃ what p', parseKind.run p = .error (.invalidArgument what) p' := by
  cases h with
  | update hkw hhead hbare =>
    obtain ⟨p', hrun, -⟩ := failsSilently_kindUpdate
      (.bindRight parses_updateHead fun _ => failsSilently_bareWrite rfl) p _
      ⟨_, hkw, _, _, hhead, rfl, hbare⟩
    exact ⟨_, p', hrun⟩
  | delete hkw hhead hbare =>
    obtain ⟨p', hrun, -⟩ := failsSilently_kindDelete
      (.bindRight plain_deleteHead fun _ => failsSilently_bareWrite rfl) p _
      ⟨_, hkw, _, _, hhead, rfl, hbare⟩
    exact ⟨_, p', hrun⟩

/-! ## Answers of `parse` -/

variable {sql segment : Bytes}

theorem parse_of_cutOff (h : CutOff sql) (p : SqlParser) :
    ∃ p', (parse sql).run p = .ok none p' ∧ p'.error = [] := by
  obtain ⟨p', hrun, hsame⟩ := failsSilently_cutOff ⟨sql, skip sql, []⟩ .rejected ⟨rfl, cutOff_skip.2 h⟩
  refine ⟨p', ?_, hsame⟩
  rw [run_parse, run_parseStatement, if_neg (by simpa using h.skip_ne_nil), hrun]

theorem parse_of_bareWrite (h : BareWrite sql) (p : SqlParser) :
    ∃ what p', (parse sql).run p = .error (.invalidArgument what) p' := by
  obtain ⟨what, p', hrun⟩ := run_kind_of_bareWrite (p := ⟨sql, skip sql, []⟩) (bareWrite_skip.2 h)
  refine ⟨what, p', ?_⟩
  rw [run_parse, run_parseStatement, if_neg (by simpa using h.skip_ne_nil), hrun]

/-- Any other text is answered, and a missing statement has an error text. -/
theorem parse_of_not_bareWrite (h : ¬ BareWrite sql) (p : SqlParser) :
    ∃ result p', (parse sql).run p = .ok result p' ∧
      (result = none → ¬ CutOff sql → p'.error ≠ []) := by
  rw [run_parse]
  cases hrun : parseStatement.run ⟨sql, sql, []⟩ with
  | ok statement p' => exact ⟨_, p', rfl, by rintro ⟨⟩⟩
  | error stop p' =>
    rcases parses_statement.fails _ _ _ hrun with ⟨rfl, herror⟩ | ⟨⟨hcut⟩ | ⟨hbare⟩⟩
    · exact ⟨_, p', rfl, fun _ _ => herror⟩
    · exact ⟨_, p', rfl, fun _ hcut' => absurd hcut hcut'⟩
    · exact absurd hbare h

/-- `parse` returns a statement, or nothing together with an error text. -/
def Answered (sql : Bytes) : Prop :=
  ∀ p, ∃ result p', (parse sql).run p = .ok result p' ∧ (result = none → p'.error ≠ [])

theorem answered_iff (sql : Bytes) : Answered sql ↔ ¬ CutOff sql ∧ ¬ BareWrite sql := by
  constructor
  · refine fun h => ⟨fun hcut => ?_, fun hbare => ?_⟩
    · obtain ⟨result, p', hrun, herror⟩ := h ⟨[], [], []⟩
      obtain ⟨q, hrun', hempty⟩ := parse_of_cutOff hcut ⟨[], [], []⟩
      rw [hrun] at hrun'
      cases hrun'
      exact herror rfl hempty
    · obtain ⟨result, p', hrun, -⟩ := h ⟨[], [], []⟩
      obtain ⟨what, q, hrun'⟩ := parse_of_bareWrite hbare ⟨[], [], []⟩
      rw [hrun] at hrun'
      cases hrun'
  · rintro ⟨hcut, hbare⟩ p
    obtain ⟨result, p', hrun, herror⟩ := parse_of_not_bareWrite hbare p
    exact ⟨result, p', hrun, fun hnone => herror hnone hcut⟩

/-! ## Answers of `parseAll` -/

/-- The clone of a predicate exists exactly if there is no null pointer in it. -/
theorem cloneNode_isSome {node : NodePtr} : (cloneNode node).isSome ↔ node.Complete := by
  induction node with
  | null => simp [cloneNode, NodePtr.Complete]
  | comparison column op operand => simp [cloneNode, NodePtr.Complete]
  | logical op left right ihleft ihright =>
    rw [NodePtr.Complete, ← ihleft, ← ihright, cloneNode]
    cases cloneNode left <;> cases cloneNode right <;> simp

theorem copyPredicate_eq {node : NodePtr} (h : node ≠ .null) : copyPredicate node = cloneNode node := by
  cases node with
  | null => exact absurd rfl h
  | comparison column op operand => rfl
  | logical op left right => rfl

/-- The copy of a statement is taken exactly if its predicate has no null pointer. -/
theorem run_copyStatement {statement : SqlStatement} {r : Bytes} (h : Statement sql statement r)
    (p : SqlParser) :
    (∃ copy p', (copyStatement statement).run p = .ok copy p') ↔
      ∀ cmd node, statement = .command cmd → cmd.predicate = some node → node.Complete := by
  cases statement with
  | command cmd =>
    cases hpredicate : cmd.predicate with
    | none =>
      have hrun : (copyStatement (.command cmd)).run p = .ok (.command cmd) p := by
        simp only [copyStatement, hpredicate]
        rfl
      refine iff_of_true ⟨_, p, hrun⟩ fun cmd' node hcmd hnode => ?_
      cases hcmd
      rw [hpredicate] at hnode
      cases hnode
    | some node =>
      have hclones : (∃ copy p', (copyStatement (.command cmd)).run p = .ok copy p') ↔
          (cloneNode node).isSome := by
        simp only [copyStatement, hpredicate, copyPredicate_eq (predicate_ne_null h hpredicate)]
        cases cloneNode node with
        | none => exact iff_of_false (by rintro ⟨_, _, hrun⟩; cases hrun) (by simp)
        | some clone => exact iff_of_true ⟨_, p, rfl⟩ rfl
      rw [hclones, cloneNode_isSome]
      refine ⟨fun hcomplete cmd' node' hcmd hnode => ?_, fun h => h cmd node rfl hpredicate⟩
      cases hcmd
      rw [hpredicate] at hnode
      cases hnode
      exact hcomplete
  | _ => exact iff_of_true ⟨_, p, rfl⟩ fun cmd node hcmd => by cases hcmd

/-- The segments that `parseEach` gets through. -/
def Copied (segment : Bytes) : Prop :=
  ¬ BareWrite segment ∧ CompleteWhere segment

/-- What a list of segments comes to. -/
theorem run_parseEach_ok {segments : List Bytes} {p p' : SqlParser} {out : List SqlStatement}
    (h : (parseEach segments).run p = .ok out p') : ∀ segment ∈ segments, Copied segment := by
  induction segments generalizing p p' out with
  | nil => simp
  | cons segment rest ih =>
    rw [parseEach] at h
    obtain ⟨parsed, q, hparse, h⟩ := run_bind_eq_ok.1 h
    have hbare : ¬ BareWrite segment := by
      intro hbare
      obtain ⟨what, q', hrun⟩ := parse_of_bareWrite hbare p
      rw [hparse] at hrun
      cases hrun
    cases parsed with
    | none =>
      -- a segment that is rejected has no statement in front of it
      have hcomplete : CompleteWhere segment := by
        rintro m - ⟨statement, r, hstatement⟩
        obtain ⟨q', hrun, -⟩ := parse_of_statement p hstatement
        rw [hparse] at hrun
        cases hrun
      exact List.forall_mem_cons.2 ⟨⟨hbare, hcomplete⟩, ih h⟩
    | some statement =>
      obtain ⟨copy, q', hcopy, h⟩ := run_bind_eq_ok.1 h
      obtain ⟨tail, q'', hrest, -⟩ := run_bind_eq_ok.1 h
      have hstatement := (statement_of_parse hparse).2
      have hcomplete : CompleteWhere segment := by
        refine (completeWhere_iff segment).2 fun cmd node r hread hnode => ?_
        obtain ⟨rfl, -⟩ := parses_statement.unique (s := ⟨segment, segment, []⟩) hread hstatement
        exact (run_copyStatement hread q).1 ⟨copy, q', hcopy⟩ cmd node rfl hnode
      exact List.forall_mem_cons.2 ⟨⟨hbare, hcomplete⟩, ih hrest⟩

theorem run_parseEach_of_copied {segments : List Bytes} (h : ∀ segment ∈ segments, Copied segment)
    (p : SqlParser) : ∃ out p', (parseEach segments).run p = .ok out p' := by
  induction segments generalizing p with
  | nil => exact ⟨[], p, rfl⟩
  | cons segment rest ih =>
    obtain ⟨⟨hbare, hcomplete⟩, hrest⟩ := List.forall_mem_cons.1 h
    obtain ⟨parsed, q, hparse, -⟩ := parse_of_not_bareWrite hbare p
    cases parsed with
    | none =>
      obtain ⟨out, p', hrun⟩ := ih hrest q
      exact ⟨out, p', run_bind_eq_ok.2 ⟨none, q, hparse, hrun⟩⟩
    | some statement =>
      have hstatement := (statement_of_parse hparse).2
      obtain ⟨copy, q', hcopy⟩ := (run_copyStatement hstatement q).2 fun cmd node hcmd hnode =>
        (completeWhere_iff segment).1 hcomplete cmd node _ (hcmd ▸ hstatement) hnode
      obtain ⟨out, p', hrun⟩ := ih hrest q'
      exact ⟨copy :: out, p', run_bind_eq_ok.2 ⟨some statement, q, hparse,
        run_bind_eq_ok.2 ⟨copy, q', hcopy, run_bind_eq_ok.2 ⟨out, p', hrun, rfl⟩⟩⟩⟩

/-! ## The condition -/

/-- `parse` and `parseAll` end without an exception, and `parse` returns a statement or nothing together
with an error text. -/
def Answers (sql : Bytes) : Prop :=
  Answered sql ∧ ∀ p, ∃ out p', (parseAll sql).run p = .ok out p'

/-- The text does not end where a value is expected and is no write without WHERE, and no segment of it
is such a write or has a gap in its predicate. -/
structure Answerable (sql : Bytes) : Prop where
  notCut : ¬ CutOff sql
  notBare : ¬ BareWrite sql
  segments : ∀ segment ∈ splitStatements false false [] sql, ¬ BareWrite segment ∧ CompleteWhere segment

/-- The parser answers exactly these texts. -/
theorem answers_iff (sql : Bytes) : Answers sql ↔ Answerable sql := by
  constructor
  · rintro ⟨hparse, hall⟩
    obtain ⟨hcut, hbare⟩ := (answered_iff sql).1 hparse
    obtain ⟨out, p', hrun⟩ := hall ⟨[], [], []⟩
    exact ⟨hcut, hbare, run_parseEach_ok hrun⟩
  · rintro ⟨hcut, hbare, hsegments⟩
    exact ⟨(answered_iff sql).2 ⟨hcut, hbare⟩, run_parseEach_of_copied hsegments⟩

/-- What the run of a new parser throws. -/
def thrown (sql : Bytes) : Option SqlStop :=
  match (parse sql).run ⟨[], [], []⟩ with
  | .ok _ _ => none
  | .error stop _ => some stop

theorem deleteAll_not_answered : ¬ Answers (ascii "DELETE FROM t") := by
  rintro ⟨hparse, -⟩
  obtain ⟨result, p', hrun, -⟩ := hparse ⟨[], [], []⟩
  have hthrown : thrown (ascii "DELETE FROM t") =
      some (.invalidArgument (ascii "Delete requires WHERE")) := by decide +kernel
  rw [thrown, hrun] at hthrown
  cases hthrown

end Sql.SqlParser

end OpenDB
