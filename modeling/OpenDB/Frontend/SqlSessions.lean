import OpenDB.Core.HttpDatabase
import OpenDB.Frontend.JsonEncoder
import OpenDB.Frontend.SqlCompleteStatements
import OpenDB.Frontend.SqlPrinter

/-!
# SQL over HTTP

From the bytes that a client posts to the rows that it sees: the body is read as JSON, the text in it as
SQL, and the first statement of that runs. For bodies that are written out from statements, neither the
quoting of the text nor the parsers show: `sql_over_http` says of every run of such bodies that the
answers are those of `HttpDatabase` to the statements themselves.
-/

set_option autoImplicit false

namespace OpenDB

open OpenDB.Library Exec Program InMemory JsonEncoder

/-! ## Bodies -/

/-- `HttpApi::handleRequest`, of a plugin that is open or not and has a dispatcher or not. -/
def HttpApi.handleRequest (opened hasDispatcher : Bool) (parseAll : SqlParser) (requestJson : Bytes) :
    Exec HttpResponse :=
  if opened = false then return refused (.internal (ascii "plugin not open"))
  else if hasDispatcher = false then return refused (.internal (ascii "no dispatcher"))
  else
    match Json.parseJsonRequest requestJson with
    | none => return refused (.parseError (ascii "invalid request JSON"))
    | some req => executeRequest parseAll req

/-- One body after the other. -/
def HttpApi.handleRequests (parseAll : SqlParser) : List Bytes → Exec (List HttpResponse)
  | [] => return []
  | body :: bodies => do
    let response ← handleRequest true true parseAll body
    let responses ← handleRequests parseAll bodies
    return response :: responses

namespace Json

/-- A member of an object whose value is a string. -/
def member (key value : Bytes) : Bytes := quote key ++ (ascii ":" ++ quote value)

/-- The body of a query. -/
def queryBody (sql : Bytes) : Bytes :=
  ascii "\x7b" ++ (member (ascii "type") (ascii "query") ++ (ascii "," ++
    (member (ascii "sql") sql ++ ascii "\x7d")))

theorem quote_append (s rest : Bytes) : quote s ++ rest = 34 :: (escapeJson s ++ 34 :: rest) := by
  have hquote : ascii "\"" = [34] := by decide
  simp [quote, hquote]

/-- A string that is written out is read back, and no blanks are in front of it. -/
theorem parseString_quote (s rest : Bytes) :
    parseString (skipWhitespace (quote s ++ rest)) = some (s, rest) := by
  rw [quote_append]
  exact parseChars_escapeJson s rest

/-- One round over a member of the request. -/
theorem parseMembers_member {fuel : Nat} {key value rest : Bytes} {out out' : JsonRequest}
    (hmember : parseMember key out (skipWhitespace (quote value ++ rest)) = some (out', rest)) :
    parseMembers (fuel + 1) out (member key value ++ rest) =
      match expect 44 (skipWhitespace rest) with
      | some rest => parseMembers fuel out' rest
      | none => (expect 125 (skipWhitespace rest)).map fun rest => (out', rest) := by
  have hcolon : ∀ text, expect 58 (skipWhitespace (ascii ":" ++ text)) = some text := fun _ => rfl
  rw [member, List.append_assoc, List.append_assoc, parseMembers]
  simp only [parseString_quote, Option.bind_eq_bind, Option.bind_some, hcolon, hmember]
  cases expect 44 (skipWhitespace rest) with
  | some rest => rfl
  | none => cases expect 125 (skipWhitespace rest) <;> rfl

theorem parseMember_type (out : JsonRequest) (value rest : Bytes) :
    parseMember (ascii "type") out (skipWhitespace (quote value ++ rest)) =
      some ({ out with type := value }, rest) := by
  rw [parseMember, if_pos rfl, parseString_quote]
  rfl

theorem parseMember_sql (out : JsonRequest) (value rest : Bytes) :
    parseMember (ascii "sql") out (skipWhitespace (quote value ++ rest)) =
      some ({ out with sql := value }, rest) := by
  rw [parseMember, if_neg (by decide), if_pos rfl, parseString_quote]
  rfl

/-- Whatever the text of the query is, it is read back from the body. -/
theorem parseJsonRequest_queryBody (sql : Bytes) :
    parseJsonRequest (queryBody sql) = some ⟨ascii "query", sql, none⟩ := by
  have hmembers : ∀ fuel, parseMembers (fuel + 2) emptyRequest (member (ascii "type") (ascii "query") ++
      (ascii "," ++ (member (ascii "sql") sql ++ ascii "\x7d"))) =
        some (⟨ascii "query", sql, none⟩, []) := by
    intro fuel
    rw [parseMembers_member (parseMember_type _ _ _)]
    exact parseMembers_member (parseMember_sql _ _ _)
  -- behind the brace there is a quote
  have hquote : ∃ rest, member (ascii "type") (ascii "query") ++ (ascii "," ++
      (member (ascii "sql") sql ++ ascii "\x7d")) = 34 :: rest := by
    rw [member, List.append_assoc, quote_append]
    exact ⟨_, rfl⟩
  have hbody : queryBody sql = 123 :: (member (ascii "type") (ascii "query") ++ (ascii "," ++
      (member (ascii "sql") sql ++ ascii "\x7d"))) := rfl
  obtain ⟨rest, hrest⟩ := hquote
  rw [hrest] at hmembers hbody
  have hobject : parseObject emptyRequest (123 :: 34 :: rest) =
      some (⟨ascii "query", sql, none⟩, []) := hmembers rest.length.succ
  rw [parseJsonRequest, hbody]
  show (parseObject emptyRequest (123 :: 34 :: rest)).bind _ = _
  rw [hobject]
  rfl

end Json

/-! ## Statements -/

instance (type : CommandType) (predicate : Option Predicate) (values : Option Tuple) :
    Decidable (type.Accepts predicate values) :=
  match type with
  | .insert => inferInstanceAs (Decidable (values.isSome ∧ predicate.isNone))
  | .update => inferInstanceAs (Decidable (predicate.isSome ∧ values.isSome))
  | .delete => inferInstanceAs (Decidable (predicate.isSome ∧ values.isNone))
  | .select => .isTrue trivial

namespace Sql

/-- The predicate of a command; a null pointer is a predicate without a root. -/
def NodePtr.toPredicate : NodePtr → Option Predicate
  | .null => some ⟨none⟩
  | node => node.toNode.map fun tree => ⟨some tree⟩

/-- The command as the executors take it. -/
def SqlCommand.toCommand (c : SqlCommand) : Option Command := do
  let predicate ← match c.predicate with
    | none => some none
    | some node => node.toPredicate.map some
  if valid : c.type.Accepts predicate c.values then
    some ⟨c.type, c.table, predicate, c.values, c.projections, c.orderBy, c.joins, c.limit, c.offset,
      none, valid⟩
  else none

/-- The statement as the executors take it. -/
def SqlStatement.toStatement : SqlStatement → Option OpenDB.SqlStatement
  | .createTable schema => some (.createTable schema)
  | .dropTable table => some (.dropTable table)
  | .alterTable table spec => some (.alterTable table spec)
  | .txnBegin => some .txnBegin
  | .txnCommit => some .txnCommit
  | .txnRollback => some .txnRollback
  | .command cmd => cmd.toCommand.map .command

/-- A command whose predicate has no null pointer is one of the executors. -/
theorem exists_toCommand {c : SqlCommand} (hcomplete : ∀ node ∈ c.predicate, node.Complete)
    (hvalid : ∀ predicate : Option Predicate, predicate.isSome = c.predicate.isSome →
      c.type.Accepts predicate c.values) :
    ∃ cmd, c.toCommand = some cmd ∧ cmd.type = c.type ∧ cmd.values = c.values ∧ cmd.txnId = none := by
  unfold SqlCommand.toCommand
  cases hpredicate : c.predicate with
  | none =>
    have haccepts : c.type.Accepts none c.values := hvalid none (by rw [hpredicate]; rfl)
    dsimp only
    rw [Option.bind_eq_bind, Option.bind_some, dif_pos haccepts]
    exact ⟨_, rfl, rfl, rfl, rfl⟩
  | some node =>
    obtain ⟨tree, htree, -⟩ := NodePtr.toNode_of_complete (hcomplete node hpredicate)
    have hroot : node.toPredicate = some ⟨some tree⟩ := by
      cases node with
      | null => cases htree
      | comparison column op operand => rw [NodePtr.toPredicate, htree, Option.map_some]; exact nofun
      | logical op left right => rw [NodePtr.toPredicate, htree, Option.map_some]; exact nofun
    have haccepts : c.type.Accepts (some ⟨some tree⟩) c.values := hvalid _ (by rw [hpredicate]; rfl)
    dsimp only
    rw [hroot, Option.bind_eq_bind, Option.map_some, Option.bind_some, dif_pos haccepts]
    exact ⟨_, rfl, rfl, rfl, rfl⟩

/-! ### Literals are no NaN -/

theorem isNaN_literal (l : PlainLiteral) : l.value.isNaN = false := by
  cases l <;> rfl

theorem placeable_definition (c : PlainColumn) : c.definition.Placeable := by
  rintro - v hv
  obtain ⟨l, -, rfl⟩ := Option.map_eq_some_iff.1 hv
  exact isNaN_literal l

theorem allPlaceable_insertRow (values : Option (Filled PlainLiteral)) :
    ReplSource.AllPlaceable (insertRow values) := by
  cases values with
  | none => exact ReplSource.allPlaceable_empty
  | some values =>
    have hfold : ∀ (values : List PlainLiteral) (t : Tuple), ReplSource.AllPlaceable t →
        ReplSource.AllPlaceable (values.foldl (fun t l => addValue t l.value) t) := by
      intro values
      induction values with
      | nil => exact fun t ht => ht
      | cons l values ih =>
        refine fun t ht => ih _ fun column v hv => ?_
        have hset : v ∈ (t.set (decimal t.columns.length) l.value).maybeGet column := hv
        rw [Tuple.maybeGet_set] at hset
        split_ifs at hset
        · cases hset
          exact isNaN_literal l
        · exact ht column v hset
    exact hfold values.1 .empty ReplSource.allPlaceable_empty

/-- A statement that can be written out can be run, and brings no NaN. -/
theorem exists_toStatement (s : PlainStatement) :
    ∃ stmt, s.statement.toStatement = some stmt ∧ stmt.Placeable := by
  -- a command that is no INSERT brings no row
  have hcommand : ∀ c : SqlCommand, c.type ≠ .insert → (∀ node ∈ c.predicate, node.Complete) →
      (∀ predicate : Option Predicate, predicate.isSome = c.predicate.isSome →
        c.type.Accepts predicate c.values) →
      ∃ stmt, (SqlStatement.command c).toStatement = some stmt ∧ stmt.Placeable := by
    intro c htype hcomplete hvalid
    obtain ⟨cmd, hcmd, hsame, -, htxn⟩ := exists_toCommand hcomplete hvalid
    refine ⟨.command cmd, congrArg (Option.map _) hcmd, htxn, Command.placeable_of_ne ?_⟩
    rwa [hsame]
  cases s with
  | createTable t =>
    refine ⟨_, rfl, fun c hc => ?_⟩
    obtain ⟨column, -, rfl⟩ := List.mem_map.1 hc
    exact placeable_definition column
  | alterTable table alteration =>
    cases alteration with
    | addColumn c => exact ⟨_, rfl, placeable_definition c⟩
    | dropColumn column => exact ⟨_, rfl, trivial⟩
    | renameTable newName => exact ⟨_, rfl, trivial⟩
  | insert table columns values =>
    have hvalid : ∀ predicate : Option Predicate, predicate.isSome = false →
        CommandType.insert.Accepts predicate (some (insertRow values)) := fun predicate hnone =>
      ⟨rfl, Option.isSome_eq_false_iff.1 hnone⟩
    have hcomplete : ∀ node ∈ (insertCommand table.1 (insertRow values)).predicate, node.Complete :=
      fun _ h => nomatch h
    obtain ⟨cmd, hcmd, -, hvalues, htxn⟩ := exists_toCommand hcomplete hvalid
    refine ⟨.command cmd, congrArg (Option.map _) hcmd, htxn, fun _ row hrow => ?_⟩
    rw [hvalues] at hrow
    cases hrow
    exact allPlaceable_insertRow values idColumn
  | select s =>
    refine hcommand _ nofun (fun node h => ?_) fun _ _ => trivial
    obtain ⟨condition, -, rfl⟩ := Option.map_eq_some_iff.1 h
    exact clausesNode_complete condition
  | update table assignments condition =>
    refine hcommand _ nofun (fun node h => ?_) fun predicate hsome => ⟨hsome, rfl⟩
    cases h
    exact clausesNode_complete condition
  | delete table condition =>
    refine hcommand _ nofun (fun node h => ?_) fun predicate hsome => ⟨hsome, rfl⟩
    cases h
    exact clausesNode_complete condition
  | _ => exact ⟨_, rfl, trivial⟩

/-- What the executors run. -/
def PlainStatement.executed (s : PlainStatement) : OpenDB.SqlStatement :=
  s.statement.toStatement.get (Option.isSome_iff_exists.2 ((exists_toStatement s).imp fun _ h => h.1))

theorem toStatement_statement (s : PlainStatement) : s.statement.toStatement = some s.executed :=
  (Option.some_get _).symm

theorem placeable_executed (s : PlainStatement) : s.executed.Placeable := by
  obtain ⟨stmt, hstmt, hplaceable⟩ := exists_toStatement s
  rwa [Option.some.inj ((toStatement_statement s).symm.trans hstmt)]

end Sql

/-! ## Sessions -/

/-- The answers to statements, one after the other. -/
def HttpDatabase.session : List SqlStatement → HttpDatabase → List HttpResponse × HttpDatabase
  | [], db => ([], db)
  | stmt :: stmts, db =>
    let (response, db) := db.statement stmt
    let (responses, db) := session stmts db
    (response :: responses, db)

/-- The statements are those of the SQL parser, whatever it has read before, where it returns and no
predicate has a null pointer inside. -/
def ReadsSql (parseAll : SqlParser) : Prop :=
  ∀ text p statements p', (Sql.SqlParser.parseAll text).run p = .ok statements p' →
    ∀ stmts, statements.mapM Sql.SqlStatement.toStatement = some stmts → (parseAll text).1 = stmts

namespace Sql

/-- A query of several statements, of which the first is run. -/
abbrev PlainQuery := Filled PlainStatement

def PlainQuery.body (q : PlainQuery) : Bytes := Json.queryBody (renderedAll q.1)

def PlainQuery.executed (q : PlainQuery) : OpenDB.SqlStatement := (q.1.head q.2).executed

theorem mapM_toStatement (statements : List PlainStatement) :
    (statements.map PlainStatement.statement).mapM SqlStatement.toStatement =
      some (statements.map PlainStatement.executed) := by
  induction statements with
  | nil => rfl
  | cons s statements ih =>
    rw [List.map_cons, List.mapM_cons, toStatement_statement, ih]
    rfl

/-- The parser of the front end finds the statements of the query. -/
theorem parseAll_query {parseAll : OpenDB.SqlParser} (hparser : ReadsSql parseAll) (q : PlainQuery) :
    (parseAll (renderedAll q.1)).1 = q.1.map PlainStatement.executed := by
  have hbatch : ∀ t ∈ q.1.map PlainStatement.acceptedText, SqlParser.Batchable t :=
    List.forall_mem_map.2 fun s _ => batchable_acceptedText s
  obtain ⟨p', hrun⟩ := SqlParser.batchParses_of_batchable hbatch ⟨[], [], []⟩
  rw [SqlParser.batch, List.map_map, List.map_map] at hrun
  exact hparser _ _ _ p' hrun _ (mapM_toStatement q.1)

end Sql

section

variable {s : Server InMemoryStore} {db : HttpDatabase} {parseAll : SqlParser}

/-- A body is answered as its first statement. -/
theorem Serves.handleRequest [StandardLibrary] (h : Serves s db) (hparser : ReadsSql parseAll)
    (q : Sql.PlainQuery) (hbegun : db.begun.toNat + 1 < 2 ^ 64) :
    ∃ s', (HttpApi.handleRequest true true parseAll q.body).run (Server.handle InMemory.provider) s =
        some (.ok (db.statement q.executed).1 s') ∧ Serves s' (db.statement q.executed).2 := by
  obtain ⟨first, rest, hq⟩ := List.exists_cons_of_ne_nil q.2
  have hstmts := Sql.parseAll_query hparser q
  rw [hq, List.map_cons] at hstmts
  rcases hparse : parseAll (Sql.renderedAll q.1) with ⟨stmts, error⟩
  rw [← hq, hparse] at hstmts
  change stmts = _ at hstmts
  have hrun : HttpApi.handleRequest true true parseAll q.body =
      HttpApi.executeStatement none first.executed := by
    unfold HttpApi.handleRequest HttpApi.executeRequest
    rw [Sql.PlainQuery.body, Json.parseJsonRequest_queryBody, if_neg (by decide), if_neg (by decide)]
    dsimp only
    rw [if_neg (by decide), if_neg (by decide), if_neg (by decide), if_pos rfl, hparse]
    rw [hstmts]
  have hfirst : q.executed = first.executed := by
    rw [Sql.PlainQuery.executed]
    congr 1
    simp only [hq, List.head_cons]
  rw [hrun, hfirst]
  exact h.statement (Sql.placeable_executed first) hbegun

/-- A run of bodies. -/
theorem Serves.handleRequests [StandardLibrary] (h : Serves s db) (hparser : ReadsSql parseAll)
    {queries : List Sql.PlainQuery} (hcount : db.begun.toNat + queries.length < 2 ^ 64) :
    ∃ s', (HttpApi.handleRequests parseAll (queries.map Sql.PlainQuery.body)).run
        (Server.handle InMemory.provider) s =
          some (.ok (HttpDatabase.session (queries.map Sql.PlainQuery.executed) db).1 s') ∧
      Serves s' (HttpDatabase.session (queries.map Sql.PlainQuery.executed) db).2 := by
  induction queries generalizing s db with
  | nil => exact ⟨s, rfl, h⟩
  | cons q queries ih =>
    rw [List.length_cons] at hcount
    have hbegun : db.begun.toNat + 1 < 2 ^ 64 := by omega
    obtain ⟨s₁, hbody, hs₁⟩ := h.handleRequest hparser q hbegun
    have hnumber := db.begun_statement q.executed hbegun
    obtain ⟨s', hrun, hs'⟩ := ih hs₁ (by omega)
    refine ⟨s', ?_, hs'⟩
    rw [List.map_cons, HttpApi.handleRequests, run_bind_ok hbody, run_bind_ok hrun]
    rfl

end

/-- From bytes to rows: over any run of bodies that are written out from SQL statements, the answers are
those of a database of plain tables to the first statement of each. -/
theorem sql_over_http [StandardLibrary] {parseAll : SqlParser} (hparser : ReadsSql parseAll)
    {queries : List Sql.PlainQuery} (hcount : queries.length < 2 ^ 64) :
    ∃ s, (HttpApi.handleRequests parseAll (queries.map Sql.PlainQuery.body)).run
        (Server.handle InMemory.provider) (Server.new InMemory.new) =
          some (.ok (HttpDatabase.session (queries.map Sql.PlainQuery.executed) .empty).1 s) ∧
      (∀ u, u ≠ 0 → ∀ table, scan u table s.store =
        ((HttpDatabase.session (queries.map Sql.PlainQuery.executed) .empty).2.tables.tables table).rows) ∧
      s.store.schemas.find =
        (HttpDatabase.session (queries.map Sql.PlainQuery.executed) .empty).2.catalog := by
  have hfits : HttpDatabase.empty.begun.toNat + queries.length < 2 ^ 64 := by
    show 0 + queries.length < 2 ^ 64
    omega
  obtain ⟨s, hrun, hs⟩ := serves_new.handleRequests hparser hfits
  exact ⟨s, hrun, fun u hu table => hs.tabulates.scan_eq hu table, hs.catalog⟩

/-- A parser that starts afresh with every text. -/
def freshParser : SqlParser := fun text =>
  match (Sql.SqlParser.parseAll text).run ⟨[], [], []⟩ with
  | .ok statements p => ((statements.mapM Sql.SqlStatement.toStatement).getD [], p.error)
  | .error _ p => ([], p.error)

/-- What is read does not depend on what was read before. -/
theorem readsSql_freshParser : ReadsSql freshParser := by
  intro text p statements p' hrun stmts hstmts
  have hfresh : ∃ p'', (Sql.SqlParser.parseAll text).run ⟨[], [], []⟩ = .ok statements p'' := by
    unfold Sql.SqlParser.parseAll at hrun ⊢
    cases hpieces : Sql.SqlParser.splitStatements false false [] text with
    | nil =>
      rw [hpieces] at hrun
      cases hrun
      exact ⟨_, rfl⟩
    | cons piece pieces =>
      -- the first piece takes the place of everything that the parser holds
      rw [hpieces] at hrun
      exact ⟨p', hrun⟩
  obtain ⟨p'', hfresh⟩ := hfresh
  rw [freshParser, hfresh]
  dsimp only
  rw [hstmts, Option.getD_some]

/-- A row without values gets the default of its column; the DROP behind the INSERT is not run, and the
LIMIT of the SELECT is not looked at. -/
def shelfQueries : List Sql.PlainQuery :=
  let shelf : Sql.BareName := ⟨ascii "shelf", by decide⟩
  let column : Sql.BareName := ⟨ascii "v", by decide⟩
  let isZero : Sql.Filled Sql.Clause :=
    ⟨[⟨[.value column ⟨.equals, rfl⟩ (.int64 0)], List.cons_ne_nil _ _⟩], List.cons_ne_nil _ _⟩
  let table : Sql.PlainTable :=
    ⟨shelf, [⟨column, ⟨.int64, by decide⟩, false, true, some (.int64 7)⟩],
      List.pairwise_singleton _ _, none⟩
  [⟨[.createTable table], List.cons_ne_nil _ _⟩,
    ⟨[.insert shelf [] none, .dropTable shelf], List.cons_ne_nil _ _⟩,
    ⟨[.delete shelf isZero], List.cons_ne_nil _ _⟩,
    ⟨[.select ⟨none, shelf, none, [], some 0, none, []⟩], List.cons_ne_nil _ _⟩]

theorem shelfQueries_over_http :
    (HttpDatabase.session (shelfQueries.map Sql.PlainQuery.executed) .empty).1 =
      [.success, .response (.result noRows),
        .response (.error (.notFound (ascii "no matching rows to delete"))),
        .response (.result ⟨true, [(Tuple.empty.set (ascii "v") (.int64 7)).set idColumn (.int64 1)]⟩)] ∧
    ∃ s, (HttpApi.handleRequests freshParser (shelfQueries.map Sql.PlainQuery.body)).run
        (Server.handle InMemory.provider) (Server.new InMemory.new) =
          some (.ok (HttpDatabase.session (shelfQueries.map Sql.PlainQuery.executed) .empty).1 s) ∧
      (∀ u, u ≠ 0 → ∀ table, scan u table s.store =
        ((HttpDatabase.session (shelfQueries.map Sql.PlainQuery.executed) .empty).2.tables.tables
          table).rows) ∧
      s.store.schemas.find =
        (HttpDatabase.session (shelfQueries.map Sql.PlainQuery.executed) .empty).2.catalog :=
  ⟨by decide +kernel, sql_over_http readsSql_freshParser (by decide)⟩

end OpenDB
