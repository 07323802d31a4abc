import OpenDB.Core.JoinCondition
import OpenDB.Core.SelectWindow
import OpenDB.Types.PredicateLogic

/-!
# What a SELECT says

The rows that may answer a SELECT, read off the rows of the tables clause by clause and apart from the
loops that compute them (`Command.Selects`). A WHERE clause keeps the rows for which it is true in
three-valued logic, a join is a relation between rows, and ORDER BY leaves any arrangement that its
columns allow. What the engine loop computes from the tables is such an answer (`selects_of_tables`),
and there is no other but for the sort (`selects_iff`).

Three clauses say what this dialect says. A join looks for its left column among the tables in front of
it and for its right one in its own table. ORDER BY looks at the rows behind their projection. And where
OFFSET and LIMIT do not add up in 64 bits no row is left.
-/

set_option autoImplicit false

namespace OpenDB

open OpenDB.Library Exec Program

/-! ## Rows -/

namespace Tuple

/-- The columns under the name of their table. -/
def Qualified (table : Bytes) (row out : Tuple) : Prop :=
  out.columns = row.columns.map fun c => ⟨EngineLoop.qualifiedName table c.name, c.value⟩

/-- The columns of both rows. One that both have has the value of the second row, and those that only
the second has stand behind. -/
def Overlaid (first second out : Tuple) : Prop :=
  out.columns = (first.columns.map fun c => ⟨c.name, (second.maybeGet c.name).getD c.value⟩) ++
    second.columns.filter fun c => c.name ∉ first.names

variable {row first second : Tuple} {name : Bytes} {v : Value}

theorem names_set : (row.set name v).names =
    if name ∈ row.names then row.names else row.names ++ [name] :=
  map_name_setColumns name v row.columns

/-- A value that is set again stands where it stood. -/
theorem columns_set_of_mem (h : name ∈ row.names) :
    (row.set name v).columns =
      row.columns.map fun c => ⟨c.name, if c.name = name then v else c.value⟩ := by
  have hall : ∀ cs : List ColumnValue, (cs.map ColumnValue.name).Nodup →
      name ∈ cs.map ColumnValue.name → setColumns name v cs =
        cs.map fun c => ⟨c.name, if c.name = name then v else c.value⟩ := by
    intro cs hnodup hmem
    induction cs with
    | nil => cases hmem
    | cons c cs ih =>
      obtain ⟨hc, hrest⟩ := List.nodup_cons.1 hnodup
      rw [setColumns, List.map_cons]
      by_cases hname : c.name = name
      · -- the names behind are others
        rw [if_pos hname, if_pos hname, hname]
        refine congrArg _ ((List.map_id cs).symm.trans (List.map_congr_left fun d hd => ?_))
        have hother : d.name ≠ name := by
          rintro rfl
          exact hc (hname ▸ List.mem_map_of_mem hd)
        rw [if_neg hother]
        rfl
      · rw [if_neg hname, if_neg hname]
        refine congrArg _ (ih hrest ?_)
        exact (List.mem_cons.1 hmem).resolve_left fun heq => hname heq.symm
  exact hall row.columns row.distinct h

theorem maybeGet_eq_some_of_mem {c : ColumnValue} (h : c ∈ row.columns) :
    row.maybeGet c.name = some c.value := by
  unfold maybeGet
  rw [Option.map_eq_some_iff]
  obtain ⟨d, hd⟩ := Option.isSome_iff_exists.1
    (List.find?_isSome (p := fun d : ColumnValue => decide (d.name = c.name)).2 ⟨c, h, decide_eq_true rfl⟩)
  have hname : d.name = c.name := of_decide_eq_true (List.find?_eq_some_iff_append.1 hd).1
  rw [List.inj_on_of_nodup_map row.distinct (List.mem_of_find?_eq_some hd) h hname] at hd
  exact ⟨c, hd, rfl⟩

theorem maybeGet_of_mem_names (h : name ∈ row.names) : ∃ v, row.maybeGet name = some v := by
  obtain ⟨c, hc, rfl⟩ := List.mem_map.1 h
  exact ⟨c.value, maybeGet_eq_some_of_mem hc⟩

theorem maybeGet_of_not_mem_names (h : name ∉ row.names) : row.maybeGet name = none := by
  unfold maybeGet
  rw [Option.map_eq_none_iff, List.find?_eq_none]
  intro c hc hname
  exact h (of_decide_eq_true hname ▸ List.mem_map_of_mem hc)

/-- A loop that sets the columns of the second row in the first one. -/
theorem overlaid_foldl (cs : List ColumnValue) (hnodup : (cs.map ColumnValue.name).Nodup)
    (t : Tuple) :
    (cs.foldl (fun merged c => merged.set c.name c.value) t).columns =
      (t.columns.map fun d => ⟨d.name, ((cs.find? fun c => c.name = d.name).map
        ColumnValue.value).getD d.value⟩) ++ cs.filter fun c => c.name ∉ t.names := by
  induction cs generalizing t with
  | nil => simp
  | cons c cs ih =>
    obtain ⟨hc, hrest⟩ := List.nodup_cons.1 hnodup
    have hnone : cs.find? (fun d => decide (d.name = c.name)) = none := by
      rw [List.find?_eq_none]
      intro d hd hname
      exact hc (of_decide_eq_true hname ▸ List.mem_map_of_mem hd)
    rw [List.foldl_cons, ih hrest, names_set]
    by_cases hmem : c.name ∈ t.names
    · -- the column is overwritten where it stands
      rw [columns_set_of_mem hmem, if_pos hmem, List.filter_cons_of_neg (by simpa using hmem),
        List.map_map]
      congr 1
      refine List.map_congr_left fun d _ => ?_
      dsimp only [Function.comp_apply]
      by_cases hname : d.name = c.name
      · rw [if_pos hname, hname, hnone, List.find?_cons_of_pos (by simp)]
        rfl
      · rw [if_neg hname, List.find?_cons_of_neg (by simpa using fun h => hname h.symm)]
    · -- or stands behind
      rw [columns_set, setColumns_of_not_mem hmem, if_neg hmem,
        List.filter_cons_of_pos (by simpa using hmem), List.map_append, List.append_assoc]
      have hfirst : ∀ d ∈ t.columns, d.name ≠ c.name := by
        intro d hd hname
        exact hmem (hname ▸ List.mem_map_of_mem hd)
      congr 1
      · refine List.map_congr_left fun d hd => ?_
        rw [List.find?_cons_of_neg (by simpa using fun h => hfirst d hd h.symm)]
      · rw [List.map_singleton, hnone, Option.map_none, Option.getD_none, List.singleton_append]
        refine congrArg _ (List.filter_congr fun d hd => ?_)
        have hname : d.name ≠ c.name := fun h => hc (h ▸ List.mem_map_of_mem hd)
        simp [hname]

/-- A loop that sets the listed columns, as far as the row has them. -/
theorem projected_foldl {acc : Tuple} {names : List Bytes}
    (hacc : ∀ c ∈ acc.columns, row.maybeGet c.name = some c.value) :
    (names.foldl (fun projected column =>
      match row.maybeGet column with
      | some v => projected.set column v
      | none => projected) acc).columns =
        acc.columns ++ (names.filter fun name => name ∈ row.names ∧ name ∉ acc.names).eraseDups.map
          fun name => ⟨name, (row.maybeGet name).getD .null⟩ := by
  induction names generalizing acc with
  | nil => simp
  | cons name names ih =>
    rw [List.foldl_cons]
    by_cases hrow : name ∈ row.names
    swap
    · rw [maybeGet_of_not_mem_names hrow, List.filter_cons_of_neg (by simp [hrow])]
      exact ih hacc
    obtain ⟨v, hv⟩ := maybeGet_of_mem_names hrow
    rw [hv]
    dsimp only
    by_cases hmem : name ∈ acc.names
    · -- the value is there already
      have hsame : acc.set name v = acc := by
        refine Tuple.ext ((columns_set_of_mem hmem).trans ?_)
        refine (List.map_congr_left fun c hc => ?_).trans (List.map_id _)
        split_ifs with hname
        · have hvalue := hacc c hc
          rw [hname, hv] at hvalue
          cases hvalue
          rfl
        · rfl
      rw [hsame, List.filter_cons_of_neg (by simp [hmem])]
      exact ih hacc
    · have hset : (acc.set name v).columns = acc.columns ++ [⟨name, v⟩] := by
        rw [columns_set, setColumns_of_not_mem hmem]
      rw [ih, hset, names_set, if_neg hmem, List.filter_cons_of_pos (by simp [hrow, hmem]),
        List.eraseDups_cons, List.filter_filter, List.map_cons, hv, List.append_assoc]
      · -- what is left of the list are the names that are neither old nor just set
        refine congrArg _ (congrArg _ (congrArg _ (congrArg _ (List.filter_congr fun other _ => ?_))))
        by_cases hother : other = name <;> simp [hother]
      · intro c hc
        rw [hset, List.mem_append, List.mem_singleton] at hc
        rcases hc with hc | rfl
        · exact hacc c hc
        · exact hv

theorem columns_projectColumns (names : List Bytes) (row : Tuple) :
    (projectColumns names row).columns =
      (names.filter fun name => name ∈ row.names).eraseDups.map fun name =>
        ⟨name, (row.maybeGet name).getD .null⟩ := by
  have hempty : ∀ c ∈ Tuple.empty.columns, row.maybeGet c.name = some c.value :=
    fun c hc => absurd hc List.not_mem_nil
  refine (projected_foldl hempty).trans ?_
  show [] ++ _ = _
  rw [List.nil_append]
  congr 2
  exact List.filter_congr fun name _ => by simp [Tuple.names, Tuple.empty]

/-- The columns of the list that the row has, each once. -/
def projected (names : List Bytes) (row : Tuple) : Tuple where
  columns := (names.filter fun name => name ∈ row.names).eraseDups.map fun name =>
    ⟨name, (row.maybeGet name).getD .null⟩
  distinct := by
    rw [← columns_projectColumns]
    exact (projectColumns names row).distinct

theorem projectColumns_eq (names : List Bytes) (row : Tuple) :
    projectColumns names row = row.projected names :=
  Tuple.ext (columns_projectColumns names row)

end Tuple

/-! ## Clauses -/

/-- The columns of the clause are there and their values are equal. -/
def JoinClause.Matches (jc : JoinClause) (left right : Tuple) : Prop :=
  ∃ x ∈ left.maybeGet jc.leftColumn, ∃ y ∈ right.maybeGet jc.rightColumn, x.compare y = .eq

instance (jc : JoinClause) (left right : Tuple) : Decidable (jc.Matches left right) :=
  inferInstanceAs (Decidable (∃ x ∈ left.maybeGet jc.leftColumn,
    ∃ y ∈ right.maybeGet jc.rightColumn, x.compare y = .eq))

/-- The rows that a row comes to at a join: one for every partner; without a partner none, or for a
LEFT JOIN one, with nulls in the place of a partner. -/
inductive JoinClause.Extends (jc : JoinClause) (rights : List Tuple) (cur : Tuple) :
    List Tuple → Prop
  | partners {out : List Tuple} (hsome : ∃ right ∈ rights, jc.Matches cur right)
      (hout : List.Forall₂ cur.Overlaid (rights.filter fun right => jc.Matches cur right) out) :
      Extends jc rights cur out
  | padded {nulls row : Tuple} (hkind : jc.kind = .left)
      (hnone : ∀ right ∈ rights, ¬ jc.Matches cur right)
      (hnulls : nulls.columns = EngineLoop.padding rights) (hrow : cur.Overlaid nulls row) :
      Extends jc rights cur [row]
  | dropped (hkind : jc.kind = .inner) (hnone : ∀ right ∈ rights, ¬ jc.Matches cur right) :
      Extends jc rights cur []

/-- What the rows of the first table come to behind all joins. -/
inductive Joins (tables : Bytes → List Tuple) : List JoinClause → List Tuple → List Tuple → Prop
  | done {rows : List Tuple} : Joins tables [] rows rows
  | join {jc : JoinClause} {joins : List JoinClause} {rights rows next out : List Tuple}
      (hrights : List.Forall₂ (Tuple.Qualified jc.table) (tables jc.table) rights)
      (hnext : Concatenates (jc.Extends rights) rows next) (hrest : Joins tables joins next out) :
      Joins tables (jc :: joins) rows out

/-- OFFSET and LIMIT: a page of the rows, or none of them when the two do not add up. -/
def Windowed (offset limit : Option UInt64) (rows out : List Tuple) : Prop :=
  (WindowWraps offset limit rows → out = []) ∧
    (¬ WindowWraps offset limit rows → out = page offset limit rows)

theorem Windowed.unique {offset limit : Option UInt64} {rows out out' : List Tuple}
    (h : Windowed offset limit rows out) (h' : Windowed offset limit rows out') : out = out' := by
  by_cases hwraps : WindowWraps offset limit rows
  · rw [h.1 hwraps, h'.1 hwraps]
  · rw [h.2 hwraps, h'.2 hwraps]

namespace Command

/-- The rows of the table; in a SELECT with joins the joined rows, under the names of the tables. -/
def Joined (tables : Bytes → List Tuple) (cmd : Command) (rows : List Tuple) : Prop :=
  if cmd.joins = [] then rows = tables cmd.table
  else ∃ lefts, List.Forall₂ (Tuple.Qualified cmd.table) (tables cmd.table) lefts ∧
    Joins tables cmd.joins lefts rows

/-- The WHERE clause, if there is one, is true for the row. -/
def Wants (cmd : Command) (row : Tuple) : Prop :=
  ∀ predicate ∈ cmd.predicate, ∃ node ∈ predicate.root, node.truth row = .yes

instance (cmd : Command) (row : Tuple) : Decidable (cmd.Wants row) :=
  inferInstanceAs (Decidable (∀ predicate ∈ cmd.predicate,
    ∃ node ∈ predicate.root, node.truth row = .yes))

/-- The columns of the list; without a list, or for a star, all of them. -/
def projected (cmd : Command) (row : Tuple) : Tuple :=
  if cmd.projections = [] ∨ cmd.projections = [star] then row else row.projected cmd.projections

/-- The rows may answer the SELECT. -/
inductive Selects (tables : Bytes → List Tuple) (cmd : Command) : List Tuple → Prop
  | intro {joined ordered out : List Tuple} (hjoined : cmd.Joined tables joined)
      (hordered : EngineLoop.Sorts cmd.orderBy
        ((joined.filter fun row => cmd.Wants row).map cmd.projected) ordered)
      (hwindow : Windowed cmd.offset cmd.limit ordered out) : Selects tables cmd out

/-- A SELECT with no clause but WHERE has one answer. -/
theorem eq_filter_of_selects {tables : Bytes → List Tuple} {table : Bytes}
    {predicate : Option Predicate} {out : List Tuple}
    (h : (Command.select table predicate).Selects tables out) :
    out = (tables table).filter fun row => (Command.select table predicate).Wants row := by
  cases h with
  | @intro joined ordered _ hjoined hordered hwindow =>
    have hfits : ¬ WindowWraps none none ordered := by
      rintro ⟨-, l, hl, -⟩
      cases hl
    have hrows : joined = tables table := hjoined
    have hsorted : ordered = (joined.filter fun row =>
        (Command.select table predicate).Wants row).map fun row => row := hordered
    have hpage : out = ordered := hwindow.2 hfits
    rw [hpage, hsorted, hrows, List.map_id']

/-- The SELECT without its joins, ORDER BY, OFFSET and LIMIT, and with a star in a longer list passed
over. -/
def alone (cmd : Command) (tables : Bytes → List Tuple) : List Tuple :=
  ((tables cmd.table).filter fun row => cmd.Wants row).map fun row =>
    if cmd.projections = [] ∨ cmd.projections = [star] then row
    else row.projected (cmd.projections.filter fun column => column ≠ star)

/-! ## What the loops compute -/

theorem accepts_iff {cmd : Command} {row : Tuple} : cmd.accepts row = true ↔ cmd.Wants row := by
  unfold accepts Wants
  cases cmd.predicate with
  | none => simp
  | some predicate =>
    unfold Predicate.evaluate
    cases hroot : predicate.root with
    | none => simp [hroot]
    | some node => simp [hroot, PredicateNode.evaluate_iff_truth]

theorem selectsAll_iff {projections : List Bytes} :
    selectsAll projections = true ↔ projections = [] ∨ projections = [star] := by
  simp [selectsAll]

theorem projectRow_eq (cmd : Command) : projectRow cmd.projections = cmd.projected := by
  funext row
  unfold projectRow projected
  simp only [selectsAll_iff, Tuple.projectColumns_eq]

/-- What the dispatcher and the HTTP front end compute. -/
theorem alone_eq_map (cmd : Command) (tables : Bytes → List Tuple) : cmd.alone tables =
    ((tables cmd.table).filter cmd.accepts).map (projectRowSkippingStar cmd.projections) := by
  refine congrArg₂ _ (funext fun row => ?_) (List.filter_congr fun row _ => ?_)
  · unfold projectRowSkippingStar
    simp only [selectsAll_iff, Tuple.projectColumns_eq]
  · simp [← accepts_iff]

end Command

namespace EngineLoop

theorem overlaid_mergeRow (left right : Tuple) : left.Overlaid right (mergeRow left right) :=
  Tuple.overlaid_foldl right.columns right.distinct left

theorem onMatches_iff_matches {left right : Tuple} {jc : JoinClause} :
    onMatches left right jc = true ↔ jc.Matches left right := by
  rw [onMatches_iff]
  constructor
  · rintro ⟨x, y, hx, hy, heq⟩
    exact ⟨x, hx, y, hy, heq⟩
  · rintro ⟨x, hx, y, hy, heq⟩
    exact ⟨x, y, hx, hy, heq⟩

variable {jc : JoinClause} {rights : List Tuple} {cur : Tuple}

/-- The inner loop. -/
theorem extends_joinRow : jc.Extends rights cur (joinRow rights jc cur) := by
  unfold joinRow
  have hfilter : (rights.filter fun right => onMatches cur right jc) =
      rights.filter fun right => jc.Matches cur right :=
    List.filter_congr fun right _ => by simp [← onMatches_iff_matches]
  by_cases hsome : ∃ right ∈ rights, jc.Matches cur right
  · obtain ⟨right, hright, hmatches⟩ := hsome
    have hnext : ((rights.filter fun right => onMatches cur right jc).map (mergeRow cur)).isEmpty =
        false := by
      rw [List.isEmpty_eq_false_iff, Ne, List.map_eq_nil_iff]
      exact List.ne_nil_of_mem (List.mem_filter.2 ⟨hright, onMatches_iff_matches.2 hmatches⟩)
    simp only [hnext, Bool.false_and, Bool.false_eq_true, if_false]
    refine .partners ⟨right, hright, hmatches⟩ ?_
    rw [← hfilter, List.forall₂_map_right_iff, List.forall₂_same]
    exact fun partner _ => overlaid_mergeRow cur partner
  · have hnone : ∀ right ∈ rights, ¬ jc.Matches cur right := fun right hright hmatches =>
      hsome ⟨right, hright, hmatches⟩
    have hempty : (rights.filter fun right => onMatches cur right jc) = [] := by
      rw [List.filter_eq_nil_iff]
      exact fun right hright hmatches => hnone right hright (onMatches_iff_matches.1 hmatches)
    rw [hempty]
    cases hkind : jc.kind with
    | inner => exact .dropped hkind hnone
    | left =>
      -- the padding is a row of its own, which is laid over the left one
      have hnodup : ((padding rights).map ColumnValue.name).Nodup := by
        cases rights with
        | nil => exact List.nodup_nil
        | cons sample rest =>
          rw [padding, List.map_map]
          exact sample.distinct
      have hrow := Tuple.overlaid_foldl (padding rights) hnodup cur
      have hnulls : (⟨padding rights, hnodup⟩ : Tuple).columns = padding rights := rfl
      refine .padded hkind hnone hnulls ?_
      refine Eq.trans ?_ hrow
      cases rights with
      | nil => rfl
      | cons sample rest =>
        rw [padding, List.foldl_map]
        rfl

/-- The loop over the joins, from the rows of the tables. -/
def joinFrom (tables : Bytes → List Tuple) (joins : List JoinClause) (rows : List Tuple) :
    List Tuple :=
  joins.foldl (fun rows jc =>
    rows.flatMap (joinRow ((tables jc.table).map (qualify jc.table)) jc)) rows

theorem joins_joinFrom (tables : Bytes → List Tuple) (joins : List JoinClause) (rows : List Tuple) :
    Joins tables joins rows (joinFrom tables joins rows) := by
  induction joins generalizing rows with
  | nil => exact .done
  | cons jc joins ih =>
    refine .join ?_ (concatenates_flatMap fun cur _ => extends_joinRow) (ih _)
    rw [List.forall₂_map_right_iff, List.forall₂_same]
    exact fun row _ => columns_qualify jc.table row

/-- The rows before ORDER BY. -/
def matchedFrom (tables : Bytes → List Tuple) (cmd : Command) : List Tuple :=
  let joined :=
    if cmd.joins.isEmpty then tables cmd.table
    else joinFrom tables cmd.joins ((tables cmd.table).map (qualify cmd.table))
  (joined.filter cmd.accepts).map (projectRow cmd.projections)

theorem matchedFrom_eq (tables : Bytes → List Tuple) (cmd : Command) :
    matchedFrom tables cmd = ((if cmd.joins.isEmpty then tables cmd.table
      else joinFrom tables cmd.joins ((tables cmd.table).map (qualify cmd.table))).filter
        fun row => cmd.Wants row).map cmd.projected := by
  rw [matchedFrom, cmd.projectRow_eq]
  refine congrArg _ (List.filter_congr fun row _ => ?_)
  simp [← Command.accepts_iff]

theorem windowed_window (offset limit : Option UInt64) (rows : List Tuple) :
    Windowed offset limit rows (window offset limit rows) := by
  refine ⟨?_, window_eq_page_iff.2⟩
  rintro ⟨hlt, l, hl, hwraps⟩
  cases hl
  exact window_of_wraps hlt hwraps

theorem joined_matched (tables : Bytes → List Tuple) (cmd : Command) :
    cmd.Joined tables (if cmd.joins.isEmpty then tables cmd.table
      else joinFrom tables cmd.joins ((tables cmd.table).map (qualify cmd.table))) := by
  unfold Command.Joined
  simp only [List.isEmpty_iff]
  split_ifs
  · rfl
  · refine ⟨_, ?_, joins_joinFrom tables cmd.joins _⟩
    rw [List.forall₂_map_right_iff, List.forall₂_same]
    exact fun row _ => columns_qualify cmd.table row

/-- What the engine loop makes of the rows of the tables is an answer. -/
theorem selects_of_tables [StandardLibrary] (tables : Bytes → List Tuple) (cmd : Command) :
    cmd.Selects tables (window cmd.offset cmd.limit (orderRows cmd.orderBy (matchedFrom tables cmd))) := by
  have hordered := sorts_orderRows cmd.orderBy (matchedFrom tables cmd)
  rw [matchedFrom_eq] at hordered ⊢
  exact .intro (joined_matched tables cmd) hordered (windowed_window _ _ _)

end EngineLoop

/-! ## Answers differ by the sort only -/

theorem Tuple.rightUnique_qualified (table : Bytes) : Relator.RightUnique (Tuple.Qualified table) :=
  fun _ _ _ h h' => Tuple.ext (h.trans h'.symm)

theorem Tuple.rightUnique_overlaid (first : Tuple) : Relator.RightUnique first.Overlaid :=
  fun _ _ _ h h' => Tuple.ext (h.trans h'.symm)

theorem JoinClause.rightUnique_extends (jc : JoinClause) (rights : List Tuple) :
    Relator.RightUnique (jc.Extends rights) := by
  intro cur out out' h h'
  cases h with
  | partners hsome hout =>
    cases h' with
    | partners _ hout' => exact cur.rightUnique_overlaid.forall₂ hout hout'
    | padded _ hnone _ _ => exact absurd hsome fun ⟨right, hright, hm⟩ => hnone right hright hm
    | dropped _ hnone => exact absurd hsome fun ⟨right, hright, hm⟩ => hnone right hright hm
  | padded hkind hnone hnulls hrow =>
    cases h' with
    | partners hsome _ => exact absurd hsome fun ⟨right, hright, hm⟩ => hnone right hright hm
    | padded _ _ hnulls' hrow' =>
      obtain rfl := Tuple.ext (hnulls.trans hnulls'.symm)
      rw [cur.rightUnique_overlaid hrow hrow']
    | dropped hkind' _ =>
      rw [hkind] at hkind'
      cases hkind'
  | dropped hkind hnone =>
    cases h' with
    | partners hsome _ => exact absurd hsome fun ⟨right, hright, hm⟩ => hnone right hright hm
    | padded hkind' _ _ _ =>
      rw [hkind] at hkind'
      cases hkind'
    | dropped _ _ => rfl

theorem Joins.unique {tables : Bytes → List Tuple} {joins : List JoinClause} {rows out out' : List Tuple}
    (h : Joins tables joins rows out) (h' : Joins tables joins rows out') : out = out' := by
  induction h with
  | done =>
    cases h'
    rfl
  | @join jc joins rights rows next out hrights hnext _ ih =>
    cases h' with
    | join hrights' hnext' hrest' =>
      obtain rfl := (Tuple.rightUnique_qualified jc.table).forall₂ hrights hrights'
      obtain rfl := hnext.unique (jc.rightUnique_extends rights) hnext'
      exact ih hrest'

namespace Command

variable {tables : Bytes → List Tuple} {cmd : Command} {out : List Tuple}

theorem Joined.unique {rows rows' : List Tuple} (h : cmd.Joined tables rows)
    (h' : cmd.Joined tables rows') : rows = rows' := by
  unfold Joined at h h'
  split_ifs at h h'
  · exact h.trans h'.symm
  · obtain ⟨lefts, hlefts, hrows⟩ := h
    obtain ⟨lefts', hlefts', hrows'⟩ := h'
    obtain rfl := (Tuple.rightUnique_qualified cmd.table).forall₂ hlefts hlefts'
    exact hrows.unique hrows'

/-- An answer is the window of what ORDER BY may leave of the rows before it. -/
theorem selects_iff : cmd.Selects tables out ↔ ∃ ordered,
    EngineLoop.Sorts cmd.orderBy (EngineLoop.matchedFrom tables cmd) ordered ∧
      out = EngineLoop.window cmd.offset cmd.limit ordered := by
  have hjoined := EngineLoop.joined_matched tables cmd
  rw [EngineLoop.matchedFrom_eq]
  constructor
  · rintro ⟨hrows, hordered, hwindow⟩
    rw [hrows.unique hjoined] at hordered
    exact ⟨_, hordered, hwindow.unique (EngineLoop.windowed_window _ _ _)⟩
  · rintro ⟨ordered, hordered, rfl⟩
    exact .intro hjoined hordered (EngineLoop.windowed_window _ _ _)

end Command

namespace EngineLoop

/-! ## The statement -/

section

variable [StandardLibrary] {σ : Type} {P : StorageProvider σ} {t : Server σ} {txn : UInt64}
  {tables : Bytes → List Tuple}

/-- The scans of the transaction return the rows of the tables, and change nothing. -/
def Shows (P : StorageProvider σ) (t : Server σ) (txn : UInt64) (tables : Bytes → List Tuple) : Prop :=
  ∀ table, (Exec.scan txn table).run (Server.handle P) t = some (.ok (tables table) t)

theorem run_rowsFor (h : Shows P t txn tables) (table : Bytes) :
    (rowsFor txn table).run (Server.handle P) t =
      some (.ok ((tables table).map (qualify table)) t) := by
  unfold rowsFor
  rw [run_bind_ok (h table)]
  rfl

theorem run_joinTables (h : Shows P t txn tables) (joins : List JoinClause) (matched : List Tuple) :
    (joinTables txn joins matched).run (Server.handle P) t =
      some (.ok (joinFrom tables joins matched) t) := by
  induction joins generalizing matched with
  | nil => rfl
  | cons jc joins ih =>
    rw [joinTables, run_bind_ok (run_rowsFor h jc.table), ih]
    rfl

theorem run_matchedRows (h : Shows P t txn tables) (cmd : Command) :
    (matchedRows txn cmd).run (Server.handle P) t = some (.ok (matchedFrom tables cmd) t) := by
  unfold matchedRows matchedFrom
  split_ifs
  · rw [run_bind_ok (h cmd.table)]
    rfl
  · rw [run_bind_ok (run_rowsFor h cmd.table), run_bind_ok (run_joinTables h cmd.joins _)]
    rfl

theorem run_selectRows (h : Shows P t txn tables) (cmd : Command) :
    (selectRows txn cmd).run (Server.handle P) t =
      some (.ok (window cmd.offset cmd.limit (orderRows cmd.orderBy (matchedFrom tables cmd))) t) := by
  unfold selectRows
  rw [run_bind_ok (run_matchedRows h cmd)]
  rfl

end

end EngineLoop

end OpenDB
