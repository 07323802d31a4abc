import OpenDB.Core.AutoCommit
import OpenDB.Library.Concatenation

/-!
# What a join comes to

The nested loops of a SELECT with joins scan the joined tables one after the other and set the columns
of a right row in the row they have so far. If the qualified names of the tables do not collide, nothing
that is set was there before: a row only grows (`columns_mergeRow`), and a chain of joins comes to what
`Joined` says, in order and with every row as often as it has partners (`joinedRows_joined`).

The rows that stand for the tables are those that `rowsFor` returns, with qualified names.
-/

set_option autoImplicit false

namespace OpenDB

open OpenDB.Library Exec Program

namespace Tuple

/-- The names of the columns. -/
def names (t : Tuple) : List Bytes := t.columns.map ColumnValue.name

/-- New columns stand behind the old ones, in their order. -/
theorem columns_foldl_set (cs : List ColumnValue) (t : Tuple)
    (hnodup : (cs.map ColumnValue.name).Nodup) (hnew : ∀ c ∈ cs, c.name ∉ t.names) :
    (cs.foldl (fun merged c => merged.set c.name c.value) t).columns = t.columns ++ cs := by
  induction cs generalizing t with
  | nil => exact (List.append_nil _).symm
  | cons c cs ih =>
    have hset : (t.set c.name c.value).columns = t.columns ++ [c] := by
      rw [columns_set, setColumns_of_not_mem (hnew c List.mem_cons_self)]
    obtain ⟨hc, hrest⟩ := List.nodup_cons.1 hnodup
    rw [List.foldl_cons, ih _ hrest, hset, List.append_assoc]
    · rfl
    · intro d hd hmem
      -- a later column is neither one of the old ones nor the one just set
      rw [names, hset, List.map_append, List.mem_append] at hmem
      rcases hmem with hmem | hmem
      · exact hnew d (List.mem_cons_of_mem _ hd) hmem
      · have hname : d.name = c.name := by simpa using hmem
        exact hc (hname ▸ List.mem_map_of_mem hd)

end Tuple

namespace EngineLoop

/-! ## What a chain of joins should come to -/

/-- The columns of both rows, the left ones first. -/
def Merged (cur right merged : Tuple) : Prop := merged.columns = cur.columns ++ right.columns

/-- Nulls for the columns of the first right row, if there is one. -/
def padding : List Tuple → List ColumnValue
  | [] => []
  | sample :: _ => sample.columns.map fun c => ⟨c.name, .null⟩

/-- The rows that one row comes to at a join: one for each right row that it matches, in the order of
the scan; without such a row none, or for a LEFT JOIN one. -/
inductive JoinsTo (jc : JoinClause) (rightRows : List Tuple) (cur : Tuple) : List Tuple → Prop
  | partners {merged : List Tuple} (hsome : ∃ right ∈ rightRows, onMatches cur right jc = true)
      (hmerged : List.Forall₂ (Merged cur) (rightRows.filter fun right => onMatches cur right jc)
        merged) : JoinsTo jc rightRows cur merged
  | padded {row : Tuple} (hkind : jc.kind = .left)
      (hnone : ∀ right ∈ rightRows, onMatches cur right jc = false)
      (hrow : row.columns = cur.columns ++ padding rightRows) : JoinsTo jc rightRows cur [row]
  | dropped (hkind : jc.kind = .inner)
      (hnone : ∀ right ∈ rightRows, onMatches cur right jc = false) : JoinsTo jc rightRows cur []

/-- The rows that a chain of joins comes to: at each join, what the rows so far come to, one after the
other. -/
inductive Joined : List (JoinClause × List Tuple) → List Tuple → List Tuple → Prop
  | done {rows : List Tuple} : Joined [] rows rows
  | join {jc : JoinClause} {rightRows rows next out : List Tuple}
      {tables : List (JoinClause × List Tuple)}
      (hnext : Concatenates (JoinsTo jc rightRows) rows next) (hrest : Joined tables next out) :
      Joined ((jc, rightRows) :: tables) rows out

/-- A row of the first table, and behind it an accepted row of every joined table. -/
inductive InnerRow : List (JoinClause × List Tuple) → Tuple → Tuple → Prop
  | done {cur : Tuple} : InnerRow [] cur cur
  | join {jc : JoinClause} {rightRows : List Tuple} {cur right merged row : Tuple}
      {tables : List (JoinClause × List Tuple)} (hright : right ∈ rightRows)
      (hmatches : onMatches cur right jc = true) (hmerged : Merged cur right merged)
      (hrest : InnerRow tables merged row) : InnerRow ((jc, rightRows) :: tables) cur row

/-- No column of one table has the name of a column of another. -/
def Apart (tables : List (List Tuple)) : Prop :=
  tables.Pairwise fun R S => ∀ a ∈ R, ∀ b ∈ S, ∀ name ∈ a.names, name ∉ b.names

variable {jc : JoinClause} {tables : List (JoinClause × List Tuple)}
  {rows out rightRows merged : List Tuple} {cur right row : Tuple}

theorem JoinsTo.keeps (h : JoinsTo jc rightRows cur merged) :
    ∀ row ∈ merged, cur.columns <+: row.columns := by
  cases h with
  | partners hsome hmerged =>
    intro row hrow
    obtain ⟨right, -, hright⟩ := exists_left_of_forall₂ hmerged hrow
    exact hright ▸ List.prefix_append _ _
  | padded hkind hnone hpadded =>
    intro row hrow
    rw [List.mem_singleton.1 hrow, hpadded]
    exact List.prefix_append _ _
  | dropped hkind hnone =>
    intro row hrow
    cases hrow

instance (tables : List (List Tuple)) : Decidable (Apart tables) :=
  inferInstanceAs (Decidable (List.Pairwise _ tables))

/-- Every row keeps the columns and the values of a row of the first table. -/
theorem Joined.keeps (h : Joined tables rows out) :
    ∀ row ∈ out, ∃ start ∈ rows, start.columns <+: row.columns := by
  induction h with
  | done => exact fun row hrow => ⟨row, hrow, List.prefix_refl _⟩
  | join hnext _ ih =>
    intro row hrow
    obtain ⟨cur, hcur, hprefix⟩ := ih row hrow
    obtain ⟨start, hstart, group, hgroup, hmem⟩ := hnext.exists_of_mem hcur
    exact ⟨start, hstart, (hgroup.keeps cur hmem).trans hprefix⟩

/-- Without a LEFT JOIN there are no other rows than the accepted combinations. -/
theorem Joined.innerRow (h : Joined tables rows out) (hinner : ∀ t ∈ tables, t.1.kind = .inner) :
    ∀ row ∈ out, ∃ start ∈ rows, InnerRow tables start row := by
  induction h with
  | done => exact fun row hrow => ⟨row, hrow, .done⟩
  | @join jc rightRows rows next out tables hnext _ ih =>
    intro row hrow
    obtain ⟨hkind, htables⟩ := List.forall_mem_cons.1 hinner
    obtain ⟨cur, hcur, hrest⟩ := ih htables row hrow
    obtain ⟨start, hstart, group, hgroup, hmem⟩ := hnext.exists_of_mem hcur
    refine ⟨start, hstart, ?_⟩
    cases hgroup with
    | partners hsome hmerged =>
      obtain ⟨right, hright, hcolumns⟩ := exists_left_of_forall₂ hmerged hmem
      obtain ⟨hright, hmatches⟩ := List.mem_filter.1 hright
      exact .join hright hmatches hcolumns hrest
    | padded hleft _ _ =>
      -- only a LEFT JOIN pads
      change jc.kind = .inner at hkind
      rw [hleft] at hkind
      cases hkind
    | dropped _ _ => cases hmem

/-- And with LEFT JOINs or without them, every accepted combination is there. -/
theorem Joined.mem_of_innerRow (h : Joined tables rows out) {start : Tuple}
    (hrow : InnerRow tables start row) (hstart : start ∈ rows) : row ∈ out := by
  induction h generalizing start with
  | done =>
    cases hrow
    exact hstart
  | join hnext _ ih =>
    cases hrow with
    | join hright hmatches hmerged hrest =>
      obtain ⟨group, hgroup, hmem⟩ := hnext.mem_of_group hstart
      refine ih hrest (hmem _ ?_)
      -- the merged row is in the group of its first part
      cases hgroup with
      | partners hsome hall =>
        obtain ⟨merged, hmerged', hcolumns⟩ :=
          exists_right_of_forall₂ hall (List.mem_filter.2 ⟨hright, hmatches⟩)
        -- both have the columns of the two rows
        have heq := Tuple.ext (hmerged.trans hcolumns.symm)
        exact heq ▸ hmerged'
      | padded _ hnone _ => exact absurd hmatches (by simp [hnone _ hright])
      | dropped _ hnone => exact absurd hmatches (by simp [hnone _ hright])

/-! ## What the loops do -/

theorem columns_mergeRow (h : ∀ name ∈ cur.names, name ∉ right.names) :
    (mergeRow cur right).columns = cur.columns ++ right.columns := by
  apply Tuple.columns_foldl_set _ _ right.distinct
  intro c hc hmem
  exact h c.name hmem (List.mem_map_of_mem hc)

theorem columns_nullExtended (h : ∀ right ∈ rightRows, ∀ name ∈ cur.names, name ∉ right.names) :
    (nullExtended cur rightRows).columns = cur.columns ++ padding rightRows := by
  cases rightRows with
  | nil => exact (List.append_nil _).symm
  | cons sample rest =>
    have hnames : (padding (sample :: rest)).map ColumnValue.name = sample.names := by
      simp [padding, Tuple.names]
    have hfold := Tuple.columns_foldl_set (padding (sample :: rest)) cur
      (by rw [hnames]; exact sample.distinct) fun c hc hmem =>
        h sample List.mem_cons_self c.name hmem (hnames ▸ List.mem_map_of_mem hc)
    -- the loop walks over the columns of the sample and sets nulls
    rw [← hfold, padding, List.foldl_map]
    rfl

/-- The inner loop gives a row what it should come to. -/
theorem joinsTo_joinRow (h : ∀ right ∈ rightRows, ∀ name ∈ cur.names, name ∉ right.names) :
    JoinsTo jc rightRows cur (joinRow rightRows jc cur) := by
  unfold joinRow
  by_cases hsome : ∃ right ∈ rightRows, onMatches cur right jc = true
  · obtain ⟨right, hright, hmatches⟩ := hsome
    have hnext : ((rightRows.filter fun right => onMatches cur right jc).map
        (mergeRow cur)).isEmpty = false := by
      rw [List.isEmpty_eq_false_iff, Ne, List.map_eq_nil_iff]
      exact List.ne_nil_of_mem (List.mem_filter.2 ⟨hright, hmatches⟩)
    -- with a partner the flag of the loop is set, and there is no padding
    simp only [hnext, Bool.false_and, Bool.false_eq_true, if_false]
    refine .partners ⟨right, hright, hmatches⟩ ?_
    rw [List.forall₂_map_right_iff, List.forall₂_same]
    exact fun partner hpartner => columns_mergeRow (h partner (List.mem_filter.1 hpartner).1)
  · have hnone : ∀ right ∈ rightRows, onMatches cur right jc = false := fun right hright =>
      Bool.eq_false_iff.2 fun hmatches => hsome ⟨right, hright, hmatches⟩
    have hnext : (rightRows.filter fun right => onMatches cur right jc) = [] := by
      rw [List.filter_eq_nil_iff]
      exact fun right hright => by rw [hnone right hright]; exact Bool.false_ne_true
    rw [hnext]
    cases hkind : jc.kind with
    | inner => exact .dropped hkind hnone
    | left => exact .padded hkind hnone (columns_nullExtended h)

/-- What a row comes to has its names, and those of the right rows. -/
theorem JoinsTo.names_subset (h : JoinsTo jc rightRows cur merged) (hrow : row ∈ merged) {name : Bytes}
    (hname : name ∈ row.names) : name ∈ cur.names ∨ ∃ right ∈ rightRows, name ∈ right.names := by
  cases h with
  | partners hsome hmerged =>
    obtain ⟨right, hright, hcolumns⟩ := exists_left_of_forall₂ hmerged hrow
    rw [Tuple.names, hcolumns, List.map_append, List.mem_append] at hname
    exact hname.imp_right fun hname => ⟨right, (List.mem_filter.1 hright).1, hname⟩
  | padded hkind hnone hcolumns =>
    rw [List.mem_singleton.1 hrow, Tuple.names, hcolumns, List.map_append, List.mem_append] at hname
    refine hname.imp_right fun hname => ?_
    cases rightRows with
    | nil => cases hname
    | cons sample rest =>
      refine ⟨sample, List.mem_cons_self, ?_⟩
      rw [padding, List.map_map] at hname
      exact hname
  | dropped hkind hnone => cases hrow

/-- The loops over the joins, once the tables are scanned. -/
def joinAll : List (JoinClause × List Tuple) → List Tuple → List Tuple
  | [], rows => rows
  | (jc, rightRows) :: tables, rows => joinAll tables (rows.flatMap (joinRow rightRows jc))

/-- As long as no names collide, the loops do what they should. -/
theorem joined_joinAll (rows : List Tuple) (tables : List (JoinClause × List Tuple))
    (hapart : Apart (rows :: tables.map Prod.snd)) : Joined tables rows (joinAll tables rows) := by
  induction tables generalizing rows with
  | nil => exact .done
  | cons table tables ih =>
    obtain ⟨jc, rightRows⟩ := table
    obtain ⟨hrows, hrest⟩ := List.pairwise_cons.1 hapart
    obtain ⟨hright, htables⟩ := List.pairwise_cons.1 hrest
    have hjoins : ∀ cur ∈ rows, JoinsTo jc rightRows cur (joinRow rightRows jc cur) :=
      fun cur hcur => joinsTo_joinRow (hrows rightRows List.mem_cons_self cur hcur)
    refine .join (concatenates_flatMap hjoins) (ih _ (List.pairwise_cons.2 ⟨?_, htables⟩))
    -- the rows so far have the names of two tables that are apart from all the others
    intro S hS row hrow b hb name hname hnameb
    obtain ⟨cur, hcur, hrow⟩ := List.mem_flatMap.1 hrow
    rcases (hjoins cur hcur).names_subset hrow hname with hold | ⟨right, hmem, hnew⟩
    · exact hrows S (List.mem_cons_of_mem _ hS) cur hcur b hb name hold hnameb
    · exact hright S hS right hmem b hb name hnew hnameb

/-! ## The statement -/

/-- The scans of the tables, one after the other. -/
def scanTables (txn : UInt64) : List Bytes → Exec (List (List Tuple))
  | [] => return []
  | table :: tables => do
    let rows ← rowsFor txn table
    let more ← scanTables txn tables
    return rows :: more

/-- The rows of a SELECT with joins before its WHERE clause. -/
def joinedRows (txn : UInt64) (cmd : Command) : Exec (List Tuple) := do
  let leftRows ← rowsFor txn cmd.table
  joinTables txn cmd.joins leftRows

theorem matchedRows_of_joins {cmd : Command} (txn : UInt64) (h : cmd.joins.isEmpty = false) :
    matchedRows txn cmd = do
      let matched ← joinedRows txn cmd
      return (matched.filter cmd.accepts).map (projectRow cmd.projections) := by
  unfold matchedRows joinedRows
  rw [h, if_neg Bool.false_ne_true, bind_assoc]

theorem joinTables_eq (txn : UInt64) (joins : List JoinClause) (rows : List Tuple) :
    joinTables txn joins rows = do
      let tables ← scanTables txn (joins.map JoinClause.table)
      return joinAll (joins.zip tables) rows := by
  induction joins generalizing rows with
  | nil => rfl
  | cons jc joins ih =>
    rw [joinTables, List.map_cons, scanTables, bind_assoc]
    refine congrArg _ (funext fun rightRows => ?_)
    -- the scan of the next table does not depend on the rows so far
    rw [ih, bind_assoc]
    rfl

variable {σ : Type} {P : StorageProvider σ} {s t : Server σ}

theorem length_of_scanTables [StandardLibrary] {txn : UInt64} {names : List Bytes}
    {tables : List (List Tuple)}
    (h : (scanTables txn names).run (Server.handle P) s = some (.ok tables t)) :
    tables.length = names.length := by
  induction names generalizing s tables with
  | nil =>
    cases h
    rfl
  | cons name names ih =>
    obtain ⟨rows, u, -, h⟩ := exists_run_of_bind h
    obtain ⟨more, v, hmore, h⟩ := exists_run_of_bind h
    cases h
    rw [List.length_cons, List.length_cons, ih hmore]

/-- If the scans of the tables return rows whose names do not collide, the SELECT has before its WHERE
clause the rows that its joins should come to; each keeps the columns of a row of the first table, and
without a LEFT JOIN they are the accepted combinations of rows. -/
theorem joinedRows_joined [StandardLibrary] (P : StorageProvider σ) (s t : Server σ) (txn : UInt64)
    (cmd : Command) {leftRows : List Tuple} {tables : List (List Tuple)}
    (hscan : (scanTables txn (cmd.table :: cmd.joins.map JoinClause.table)).run (Server.handle P) s =
      some (.ok (leftRows :: tables) t))
    (hapart : Apart (leftRows :: tables)) :
    ∃ rows, (joinedRows txn cmd).run (Server.handle P) s = some (.ok rows t) ∧
      Joined (cmd.joins.zip tables) leftRows rows ∧
      (∀ row ∈ rows, ∃ left ∈ leftRows, left.columns <+: row.columns) ∧
      ((∀ jc ∈ cmd.joins, jc.kind = .inner) →
        ∀ row, row ∈ rows ↔ ∃ left ∈ leftRows, InnerRow (cmd.joins.zip tables) left row) := by
  have hlength := length_of_scanTables hscan
  obtain ⟨rows, u, hrows, hscan⟩ := exists_run_of_bind hscan
  obtain ⟨more, v, hmore, hscan⟩ := exists_run_of_bind hscan
  cases hscan
  have hzip : (cmd.joins.zip tables).map Prod.snd = tables := by
    apply List.map_snd_zip
    simp only [List.length_cons, List.length_map] at hlength
    omega
  have hjoined : Joined (cmd.joins.zip tables) leftRows (joinAll (cmd.joins.zip tables) leftRows) := by
    apply joined_joinAll
    rw [hzip]
    exact hapart
  refine ⟨joinAll (cmd.joins.zip tables) leftRows, ?_, hjoined, hjoined.keeps, fun hinner row => ?_⟩
  · rw [joinedRows, run_bind_ok hrows, joinTables_eq, run_bind_ok hmore]
    rfl
  · constructor
    · intro hrow
      apply hjoined.innerRow _ row hrow
      exact fun table htable => hinner _ (List.of_mem_zip htable).1
    · rintro ⟨left, hleft, hcombined⟩
      exact hjoined.mem_of_innerRow hcombined hleft

end EngineLoop

/-! ### Users and their orders -/

/-- Users 1 and 2, and the order 10 of user 1. -/
def usersAndOrders : InMemoryStore :=
  InMemory.commit 1 1
    (InMemory.put 1 (ascii "o") (.int64 10) ((Tuple.empty.set (ascii "uid") (.int64 1)).set idColumn
      (.int64 10))
    (InMemory.put 1 (ascii "u") (.int64 2) (Tuple.empty.set idColumn (.int64 2))
    (InMemory.put 1 (ascii "u") (.int64 1) (Tuple.empty.set idColumn (.int64 1)) InMemory.new)))

def usersAndOrdersServer : Server InMemoryStore :=
  ⟨usersAndOrders, ⟨1, 1, AssocMap.empty.assign 1 .committed⟩, .new⟩

/-- `SELECT * FROM u LEFT JOIN o ON u._id = o.uid`. -/
def usersWithOrders : Command :=
  { Command.select (ascii "u") none with
    joins := [⟨.left, ascii "o", ascii "u._id", ascii "o.uid"⟩] }

/-- What the scans return. -/
def qualifiedUsers : List Tuple :=
  [Tuple.empty.set (ascii "u._id") (.int64 1), Tuple.empty.set (ascii "u._id") (.int64 2)]

def qualifiedOrders : List Tuple :=
  [(Tuple.empty.set (ascii "o.uid") (.int64 1)).set (ascii "o._id") (.int64 10)]

theorem joinedRows_joined_users :
    ∃ rows, (EngineLoop.joinedRows 0 usersWithOrders).run (Server.handle InMemory.provider)
        usersAndOrdersServer = some (.ok rows usersAndOrdersServer) ∧
      EngineLoop.Joined (usersWithOrders.joins.zip [qualifiedOrders]) qualifiedUsers rows := by
  obtain ⟨rows, hrun, hjoined, -⟩ := @EngineLoop.joinedRows_joined _ _ InMemory.provider
    usersAndOrdersServer usersAndOrdersServer 0 usersWithOrders qualifiedUsers [qualifiedOrders] rfl
    (by decide +kernel)
  exact ⟨rows, hrun, hjoined⟩

end OpenDB
