import OpenDB.Core.AutoCommit
import OpenDB.Library.Arrangement
import OpenDB.Storage.InMemoryStorageProvider

/-!
# The order of a SELECT

The engine loop filters the rows, projects them, and sorts what is left. `std::sort` may leave any
arrangement of the projected rows (`SortResult`), as long as the comparison is a strict weak order of
them. What ORDER BY asks for is an arrangement of the rows before the projection (`InOrder`).

The two come to the same exactly if the projection keeps what ORDER BY looks at: rows of which one
precedes the other still do when they are projected, unless their projections are the same
(`select_order_iff`).
-/

set_option autoImplicit false

namespace OpenDB

open OpenDB.Library Exec Program

/-! ## What ORDER BY asks for -/

namespace OrderBySpec

/-- Nulls stand at the front if the column says so; if it says nothing, in descending order. -/
def nullsAtFront (spec : OrderBySpec) : Bool :=
  match spec.nullsFirst with
  | some first => first
  | none => decide (spec.direction = .desc)

/-- The two rows differ in the column, and the first belongs in front. -/
def Puts (spec : OrderBySpec) (a b : Tuple) : Prop :=
  match EngineLoop.orderValue a spec.column, EngineLoop.orderValue b spec.column with
  | none, none => False
  | none, some _ => spec.nullsAtFront = true
  | some _, none => spec.nullsAtFront = false
  | some x, some y => x.compare y = if spec.direction = .asc then .lt else .gt

/-- The two rows do not differ in the column. -/
def Ties (spec : OrderBySpec) (a b : Tuple) : Prop :=
  match EngineLoop.orderValue a spec.column, EngineLoop.orderValue b spec.column with
  | none, none => True
  | some x, some y => x.compare y = .eq
  | _, _ => False

end OrderBySpec

/-- The first column in which the two rows differ puts the first one in front. -/
def Precedes (specs : List OrderBySpec) (a b : Tuple) : Prop :=
  ∃ front spec rest, specs = front ++ spec :: rest ∧ (∀ tie ∈ front, tie.Ties a b) ∧ spec.Puts a b

section

variable {spec : OrderBySpec} {specs : List OrderBySpec} {a b : Tuple}

theorem not_precedes_nil : ¬ Precedes [] a b := by
  rintro ⟨front, spec, rest, hspecs, -⟩
  exact absurd hspecs (by simp)

theorem precedes_cons :
    Precedes (spec :: specs) a b ↔ spec.Puts a b ∨ (spec.Ties a b ∧ Precedes specs a b) := by
  constructor
  · rintro ⟨front, first, rest, hspecs, hties, hputs⟩
    cases front with
    | nil =>
      obtain ⟨rfl, rfl⟩ := List.cons.inj hspecs
      exact Or.inl hputs
    | cons tie front =>
      obtain ⟨rfl, rfl⟩ := List.cons.inj hspecs
      refine Or.inr ⟨hties spec List.mem_cons_self, front, first, rest, rfl, ?_, hputs⟩
      exact fun other hother => hties other (List.mem_cons_of_mem _ hother)
  · rintro (hputs | ⟨htie, front, first, rest, rfl, hties, hputs⟩)
    · exact ⟨[], spec, specs, rfl, (fun _ h => nomatch h), hputs⟩
    · refine ⟨spec :: front, first, rest, rfl, ?_, hputs⟩
      intro other hother
      rcases List.mem_cons.1 hother with rfl | hother
      · exact htie
      · exact hties other hother

/-- The comparison that the engine loop sorts by. -/
theorem before_iff : EngineLoop.before specs a b = true ↔ Precedes specs a b := by
  induction specs with
  | nil => exact iff_of_false Bool.false_ne_true not_precedes_nil
  | cons spec specs ih =>
    rw [precedes_cons]
    unfold EngineLoop.before OrderBySpec.Puts OrderBySpec.Ties OrderBySpec.nullsAtFront
    cases EngineLoop.orderValue a spec.column with
    | none =>
      cases EngineLoop.orderValue b spec.column with
      | none => simp [ih]
      | some y => cases spec.nullsFirst <;> cases spec.direction <;> simp
    | some x =>
      cases EngineLoop.orderValue b spec.column with
      | none => cases spec.nullsFirst <;> cases spec.direction <;> simp
      | some y => cases hcmp : x.compare y <;> cases spec.direction <;> simp [ih, hcmp]

theorem Value.compare_self (v : Value) : v.compare v = .eq := by
  cases v <;>
    simp [Value.compare, Value.compareDouble, Value.compareBytes, Double.lt, cmp, cmpUsing]

theorem not_puts_self : ¬ spec.Puts a a := by
  unfold OrderBySpec.Puts
  cases EngineLoop.orderValue a spec.column with
  | none => exact id
  | some x =>
    dsimp only
    rw [Value.compare_self]
    split_ifs <;> simp

theorem not_precedes_self : ¬ Precedes specs a a := by
  rintro ⟨front, spec, rest, -, -, hputs⟩
  exact not_puts_self hputs

end

theorem window_all (rows : List Tuple) {offset : Option UInt64} (h : offset.getD 0 = 0) :
    EngineLoop.window offset none rows = rows := by
  unfold EngineLoop.window
  rw [h]
  have hzero : (if rows.length ≤ (0 : UInt64).toNat then rows.length else (0 : UInt64).toNat) = 0 := by
    split_ifs with hle
    · exact Nat.le_zero.1 hle
    · rfl
  dsimp only
  rw [hzero, if_neg (Nat.not_lt_zero _), List.drop_zero, Nat.sub_zero, List.take_length]

/-! ## What the engine loop presents -/

namespace EngineLoop

/-- The rows that pass the filter, before their projection. -/
def filteredRows (txn : UInt64) (cmd : Command) : Exec (List Tuple) :=
  if cmd.joins.isEmpty then do
    let rows ← Exec.scan txn cmd.table
    return rows.filter cmd.accepts
  else do
    let leftRows ← rowsFor txn cmd.table
    let matched ← joinTables txn cmd.joins leftRows
    return matched.filter cmd.accepts

theorem matchedRows_eq (txn : UInt64) (cmd : Command) :
    matchedRows txn cmd = do
      let rows ← filteredRows txn cmd
      return rows.map (projectRow cmd.projections) := by
  unfold matchedRows filteredRows
  split_ifs
  · rw [bind_assoc]
    rfl
  · rw [bind_assoc]
    refine congrArg _ (funext fun leftRows => ?_)
    rw [bind_assoc]
    rfl

variable {σ : Type} {P : StorageProvider σ} {s t : Server σ} {cmd : Command}
  {filtered rows : List Tuple} {rs : ResultSet}

/-- The transaction that the command runs in. -/
def transactionOf (s : Server σ) (cmd : Command) : UInt64 := cmd.txnId.getD s.txns.beginTxn.1

/-- The server once the transaction has the lock of the table. -/
def lockedServer (s : Server σ) (cmd : Command) : Server σ :=
  { s.begun with
    locks := s.locks.grant (transactionOf s cmd) (tableKey cmd.table) cmd.lockMode }

/-- The SELECT finds these rows. -/
def Filters [StandardLibrary] (P : StorageProvider σ) (s : Server σ) (cmd : Command)
    (filtered : List Tuple) : Prop :=
  ∃ t, (filteredRows (transactionOf s cmd) cmd).run (Server.handle P) (lockedServer s cmd) =
    some (.ok filtered t)

/-- The command is answered with a result. -/
def Presents [StandardLibrary] (P : StorageProvider σ) (s : Server σ) (cmd : Command)
    (rs : ResultSet) : Prop :=
  ∃ t, (dispatch cmd).run (Server.handle P) s = some (.ok (.result rs) t)

theorem answer_of_run [StandardLibrary] {r : Response} {u v : Server σ}
    (h : (Pure.pure r : Exec Response).run (Server.handle P) u = some (.ok (.result rs) v)) :
    r = .result rs := by
  injection h with h
  injection h

/-- An answer with a result comes from the switch. -/
theorem exists_execute_of_presents [StandardLibrary] (h : Presents P s cmd rs) :
    ∃ error t, (execute (transactionOf s cmd) cmd).run (Server.handle P) (lockedServer s cmd) =
      some (.ok (some rs, error) t) := by
  obtain ⟨t, hrun⟩ := h
  unfold dispatch at hrun
  rw [run_bind_ok run_beginTxn_begun] at hrun
  obtain ⟨cycle, u, hcycle, hrun⟩ := exists_run_of_bind hrun
  rw [Exec.run_detectCycle] at hcycle
  cases hcycle
  cases hcycle : s.begun.locks.detectCycle (cmd.txnId.getD s.txns.beginTxn.1) with
  | some victim =>
    rw [hcycle] at hrun
    obtain ⟨-, u, -, hrun⟩ := exists_run_of_bind hrun
    cases hrun
  | none =>
    rw [hcycle] at hrun
    obtain ⟨_, u, hacquire, hrun⟩ := exists_run_of_bind hrun
    have hlocked : u = lockedServer s cmd := by
      have hhandle := (run_perform _).symm.trans hacquire
      dsimp only [Server.handle] at hhandle
      split_ifs at hhandle
      cases hhandle
      rfl
    subst hlocked
    obtain ⟨⟨result, error⟩, v, hexecute, hrun⟩ := exists_run_of_bind hrun
    -- what is presented is the result of the switch, whatever the commit says
    suffices hanswer : ∃ error', answer result error' = .result rs by
      obtain ⟨error', hanswer⟩ := hanswer
      cases result with
      | some rs' =>
        cases hanswer
        exact ⟨error, v, hexecute⟩
      | none => cases error' <;> cases hanswer
    dsimp only at hrun
    split_ifs at hrun
    · obtain ⟨error', w, -, hrun⟩ := exists_run_of_bind hrun
      exact ⟨error', answer_of_run hrun⟩
    · exact ⟨error, answer_of_run hrun⟩

/-- What a SELECT presents is what its clauses make of the rows it finds. -/
theorem rows_of_presents [StandardLibrary] (htype : cmd.type = .select)
    (hfilters : Filters P s cmd filtered) (hpresents : Presents P s cmd rs) :
    rs.rows = window cmd.offset cmd.limit
      (orderRows cmd.orderBy (filtered.map (projectRow cmd.projections))) := by
  obtain ⟨u, hfiltered⟩ := hfilters
  obtain ⟨error, t, hexecute⟩ := exists_execute_of_presents hpresents
  unfold execute at hexecute
  rw [htype] at hexecute
  have hselect : (selectRows (transactionOf s cmd) cmd).run (Server.handle P) (lockedServer s cmd) =
      some (.ok (window cmd.offset cmd.limit
        (orderRows cmd.orderBy (filtered.map (projectRow cmd.projections)))) u) := by
    unfold selectRows
    rw [matchedRows_eq, bind_assoc, run_bind_ok hfiltered]
    rfl
  dsimp only at hexecute
  rw [run_bind_ok hselect] at hexecute
  cases hexecute
  rfl

/-! ## Sorting -/

/-- What `std::sort` may leave of the rows: an arrangement, if the comparison is a strict weak order of
them. If it is not, the behaviour is undefined. -/
def SortResult (specs : List OrderBySpec) (rows out : List Tuple) : Prop :=
  StrictWeakOn (Precedes specs) rows → out.Perm rows ∧ Arranged (Precedes specs) out

/-- What ORDER BY may leave of the rows; without a column it does not sort. -/
def Sorts (specs : List OrderBySpec) (rows out : List Tuple) : Prop :=
  if specs.isEmpty then out = rows else SortResult specs rows out

instance (specs : List OrderBySpec) : DecidableRel (Precedes specs) :=
  fun _ _ => decidable_of_iff _ before_iff

/-- Wherever the sort is defined it leaves the same rows. -/
theorem Sorts.perm {specs : List OrderBySpec} {rows out : List Tuple} (h : Sorts specs rows out)
    (hdefined : specs = [] ∨ StrictWeakOn (Precedes specs) rows) : out.Perm rows := by
  unfold Sorts at h
  split_ifs at h with hempty
  · rw [h]
  · exact (h (hdefined.resolve_left fun hnil => hempty (List.isEmpty_iff.2 hnil))).1

/-- What the engine loop sorts is one of the possible results. -/
theorem sorts_orderRows [StandardLibrary] (specs : List OrderBySpec) (rows : List Tuple) :
    Sorts specs rows (orderRows specs rows) := by
  unfold Sorts orderRows
  split_ifs
  · rfl
  · intro hweak
    have hbefore : (fun a b => before specs a b = true) = Precedes specs :=
      funext fun a => funext fun b => propext before_iff
    have hsorted := StandardLibrary.sort_arranged (before specs) rows
    rw [hbefore] at hsorted
    exact hsorted hweak

/-- And each of them is what some library leaves. -/
theorem orderRows_leaving (base : StandardLibrary) {specs : List OrderBySpec} {rows out : List Tuple}
    (h : Sorts specs rows out) : @orderRows (StandardLibrary.leaving base out) specs rows = out := by
  unfold Sorts at h
  unfold orderRows
  split_ifs at h ⊢
  · exact h.symm
  · have hbefore : (fun a b => before specs a b = true) = Precedes specs :=
      funext fun a => funext fun b => propext before_iff
    refine StandardLibrary.sort_leaving base ?_
    rw [StandardLibrary.SortAllowed, hbefore]
    exact h

/-- ORDER BY leaves the rows where they are, whatever the sort does with rows of which none precedes
the other: they are in order, and such rows are equal. -/
def InPlace (specs : List OrderBySpec) (rows : List Tuple) : Prop :=
  specs = [] ∨ StrictWeakOn (Precedes specs) rows ∧ rows.Pairwise fun a b => Precedes specs a b ∨ a = b

theorem inPlace_nil {specs : List OrderBySpec} : InPlace specs [] := by
  refine Or.inr ⟨⟨?_, ?_⟩, .nil⟩ <;> exact fun a ha => absurd ha List.not_mem_nil

theorem sorts_unique_iff {specs : List OrderBySpec} {rows : List Tuple} :
    (∀ out, Sorts specs rows out → out = rows) ↔ InPlace specs rows := by
  unfold Sorts InPlace
  simp only [List.isEmpty_iff]
  by_cases hempty : specs = []
  · simp [hempty]
  simp only [hempty, if_false, false_or, SortResult]
  by_cases hweak : StrictWeakOn (Precedes specs) rows
  · simp only [hweak, forall_const, true_and, and_imp]
    exact hweak.arranged_unique_iff
  · -- then the sort may lose the rows
    refine iff_of_false (fun h => ?_) fun h => hweak h.1
    obtain rfl := h [] fun hdefined => absurd hdefined hweak
    exact hweak ⟨fun a ha => absurd ha List.not_mem_nil, fun a ha => absurd ha List.not_mem_nil⟩

/-! ## When the order survives the projection -/

/-- The rows are the projections of an arrangement of the rows that the SELECT finds. -/
def InOrder (cmd : Command) (filtered rows : List Tuple) : Prop :=
  ∃ arrangement : List Tuple, arrangement.Perm filtered ∧
    Arranged (Precedes cmd.orderBy) arrangement ∧
      arrangement.map (projectRow cmd.projections) = rows

/-- The projection keeps what ORDER BY looks at: the projected rows are comparable, a row that precedes
another one still does unless both look the same, and no rows precede each other in a circle. -/
structure OrderKept (cmd : Command) (filtered : List Tuple) : Prop where
  comparable : StrictWeakOn (Precedes cmd.orderBy) (filtered.map (projectRow cmd.projections))
  kept : ∀ a ∈ filtered, ∀ b ∈ filtered, Precedes cmd.orderBy a b →
    projectRow cmd.projections a = projectRow cmd.projections b ∨
      Precedes cmd.orderBy (projectRow cmd.projections a) (projectRow cmd.projections b)
  acyclic : AcyclicOn (Precedes cmd.orderBy) filtered

theorem arranged_of_isEmpty {specs : List OrderBySpec} (h : specs.isEmpty = true)
    (rows : List Tuple) : Arranged (Precedes specs) rows := by
  rw [List.isEmpty_iff.1 h]
  exact List.pairwise_of_forall fun _ _ => not_precedes_nil

/-- Without ORDER BY there is nothing to keep. -/
theorem orderKept_of_isEmpty (h : cmd.orderBy.isEmpty = true) : OrderKept cmd filtered := by
  have hnone : ∀ a b, ¬ Precedes cmd.orderBy a b := by
    intro a b
    rw [List.isEmpty_iff.1 h]
    exact not_precedes_nil
  refine ⟨⟨fun a _ b _ hab => absurd hab (hnone a b), fun a _ b _ c _ hac => absurd hac (hnone a c)⟩,
    fun a _ b _ hab => absurd hab (hnone a b), ?_⟩
  exact (arranged_of_isEmpty h filtered).acyclicOn fun _ _ => hnone _ _

/-- An undefined sort may leave nothing. -/
theorem comparable_of_inOrder
    (h : ∀ rows, SortResult cmd.orderBy (filtered.map (projectRow cmd.projections)) rows →
      InOrder cmd filtered rows) :
    StrictWeakOn (Precedes cmd.orderBy) (filtered.map (projectRow cmd.projections)) := by
  by_contra hweak
  obtain ⟨arrangement, hperm, -, hmap⟩ := h [] fun hweak' => absurd hweak' hweak
  obtain rfl : arrangement = [] := List.map_eq_nil_iff.1 hmap
  obtain rfl : filtered = [] := List.nil_perm.1 hperm
  exact hweak ⟨(fun _ h => nomatch h), fun _ h => nomatch h⟩

/-- Whatever the sort does, the rows are in order, if and only if the projection keeps the order. -/
theorem inOrder_iff :
    (∀ rows, Sorts cmd.orderBy (filtered.map (projectRow cmd.projections)) rows →
      InOrder cmd filtered rows) ↔ OrderKept cmd filtered := by
  unfold Sorts
  split_ifs with hempty
  · refine iff_of_true ?_ (orderKept_of_isEmpty hempty)
    rintro rows rfl
    exact ⟨filtered, .refl _, arranged_of_isEmpty hempty filtered, rfl⟩
  · have hirrefl : ∀ x ∈ filtered, ¬ Precedes cmd.orderBy x x := fun _ _ => not_precedes_self
    constructor
    · intro h
      have hweak := comparable_of_inOrder h
      obtain ⟨hkept, hacyclic⟩ := (images_arranged_iff hirrefl hweak).1
        fun rows hperm harranged => h rows fun _ => ⟨hperm, harranged⟩
      exact ⟨hweak, hkept, hacyclic⟩
    · rintro ⟨hweak, hkept, hacyclic⟩ rows hrows
      obtain ⟨hperm, harranged⟩ := hrows hweak
      exact (images_arranged_iff hirrefl hweak).2 ⟨hkept, hacyclic⟩ rows hperm harranged

/-! ### Projected columns -/

/-- A step that sets the columns the row has, and only these: behind the listed ones the fold has what
the row has. -/
theorem maybeGet_foldl_columns {row : Tuple} {step : Tuple → Bytes → Tuple} {column : Bytes}
    (hset : ∀ acc name v, row.maybeGet name = some v → step acc name = acc.set name v)
    (hkeep : ∀ acc name, row.maybeGet name = none → step acc name = acc)
    {projections : List Bytes} {acc : Tuple}
    (hacc : acc.maybeGet column = row.maybeGet column ∨
      (acc.maybeGet column = none ∧ column ∈ projections)) :
    (projections.foldl step acc).maybeGet column = row.maybeGet column := by
  induction projections generalizing acc with
  | nil =>
    rcases hacc with heq | ⟨-, hmem⟩
    · exact heq
    · cases hmem
  | cons name projections ih =>
    rw [List.foldl_cons]
    apply ih
    cases hget : row.maybeGet name with
    | none =>
      rw [hkeep acc name hget]
      rcases hacc with heq | ⟨hnone, hmem⟩
      · exact Or.inl heq
      · rcases List.mem_cons.1 hmem with rfl | hmem
        · exact Or.inl (hnone.trans hget.symm)
        · exact Or.inr ⟨hnone, hmem⟩
    | some v =>
      rw [hset acc name v hget, Tuple.maybeGet_set]
      by_cases hname : name = column
      · subst hname
        rw [if_pos rfl]
        exact Or.inl hget.symm
      · rw [if_neg hname]
        refine hacc.imp_right fun h => ⟨h.1, ?_⟩
        exact (List.mem_cons.1 h.2).resolve_left fun heq => hname heq.symm

/-- The projection has the values of its columns. -/
theorem maybeGet_projectColumns {projections : List Bytes} {column : Bytes}
    (hcolumn : column ∈ projections) (row : Tuple) :
    (projectColumns projections row).maybeGet column = row.maybeGet column := by
  rw [projectColumns]
  refine maybeGet_foldl_columns (fun acc name v hget => ?_) (fun acc name hget => ?_)
    (Or.inr ⟨rfl, hcolumn⟩)
  · simp only [hget]
  · simp only [hget]

/-- ORDER BY looks at nothing but its columns. -/
theorem precedes_congr {specs : List OrderBySpec} {a b a' b' : Tuple}
    (ha : ∀ spec ∈ specs, a'.maybeGet spec.column = a.maybeGet spec.column)
    (hb : ∀ spec ∈ specs, b'.maybeGet spec.column = b.maybeGet spec.column) :
    Precedes specs a' b' ↔ Precedes specs a b := by
  induction specs with
  | nil => exact iff_of_false not_precedes_nil not_precedes_nil
  | cons spec specs ih =>
    have hrest := ih (fun tie htie => ha tie (List.mem_cons_of_mem _ htie))
      fun tie htie => hb tie (List.mem_cons_of_mem _ htie)
    have ha' : orderValue a' spec.column = orderValue a spec.column := by
      rw [orderValue, orderValue, ha spec List.mem_cons_self]
    have hb' : orderValue b' spec.column = orderValue b spec.column := by
      rw [orderValue, orderValue, hb spec List.mem_cons_self]
    rw [precedes_cons, precedes_cons, hrest]
    unfold OrderBySpec.Puts OrderBySpec.Ties
    rw [ha', hb']

/-- A SELECT of comparable rows that projects every column of ORDER BY keeps the order. -/
theorem orderKept_of_projected
    (hprojected : selectsAll cmd.projections = true ∨
      ∀ spec ∈ cmd.orderBy, spec.column ∈ cmd.projections)
    (hweak : StrictWeakOn (Precedes cmd.orderBy) filtered) : OrderKept cmd filtered := by
  have hsame : ∀ a b, Precedes cmd.orderBy (projectRow cmd.projections a)
      (projectRow cmd.projections b) ↔ Precedes cmd.orderBy a b := by
    intro a b
    unfold projectRow
    split_ifs with hall
    · rfl
    · have hcolumns := hprojected.resolve_left hall
      exact precedes_congr (fun spec hspec => maybeGet_projectColumns (hcolumns spec hspec) a)
        fun spec hspec => maybeGet_projectColumns (hcolumns spec hspec) b
  refine ⟨⟨?_, ?_⟩, fun a _ b _ hab => Or.inr ((hsame a b).2 hab), hweak.acyclicOn⟩
  · simp only [List.forall_mem_map, hsame]
    exact hweak.asymm
  · simp only [List.forall_mem_map, hsame]
    exact hweak.cotrans

end EngineLoop

/-- A SELECT without LIMIT and OFFSET presents a result of sorting the projected rows, and the results
of sorting them are all in the order that ORDER BY asks for if and only if the projection keeps that
order. -/
theorem select_order_iff [StandardLibrary] {σ : Type} (P : StorageProvider σ) (s : Server σ)
    (cmd : Command) {filtered : List Tuple} {rs : ResultSet} (htype : cmd.type = .select)
    (hlimit : cmd.limit = none) (hoffset : cmd.offset = none)
    (hfilters : EngineLoop.Filters P s cmd filtered) (hpresents : EngineLoop.Presents P s cmd rs) :
    EngineLoop.Sorts cmd.orderBy (filtered.map (projectRow cmd.projections)) rs.rows ∧
      ((∀ rows, EngineLoop.Sorts cmd.orderBy (filtered.map (projectRow cmd.projections)) rows →
        EngineLoop.InOrder cmd filtered rows) ↔ EngineLoop.OrderKept cmd filtered) := by
  refine ⟨?_, EngineLoop.inOrder_iff⟩
  rw [EngineLoop.rows_of_presents htype hfilters hpresents, hlimit, window_all _ (by rw [hoffset]; rfl)]
  exact EngineLoop.sorts_orderRows _ _

/-! ### Two rows -/

/-- Row 1 has the value 2, row 2 the value 1. -/
def crossedRows : InMemoryStore :=
  InMemory.commit 1 1 (InMemory.put 1 (ascii "t") (.int64 2) (numberRow 2 1)
    (InMemory.put 1 (ascii "t") (.int64 1) (numberRow 1 2) InMemory.new))

def crossedRowsServer : Server InMemoryStore :=
  ⟨crossedRows, ⟨1, 1, AssocMap.empty.assign 1 .committed⟩, .new⟩

/-- `ORDER BY v`. -/
def byValue : List OrderBySpec := [⟨ascii "v", .asc, none⟩]

/-- `SELECT v FROM t ORDER BY v`. -/
def valuesInOrder : Command :=
  { Command.select (ascii "t") none with projections := [ascii "v"], orderBy := byValue }

/-- `SELECT _id FROM t ORDER BY v`. -/
def idsInOrder : Command :=
  { Command.select (ascii "t") none with projections := [idColumn], orderBy := byValue }

theorem filters_crossedRows [StandardLibrary] (cmd : Command)
    (hcmd : cmd = valuesInOrder ∨ cmd = idsInOrder) :
    EngineLoop.Filters InMemory.provider crossedRowsServer cmd [numberRow 1 2, numberRow 2 1] := by
  rcases hcmd with rfl | rfl <;> exact ⟨_, rfl⟩

/-- With the column of ORDER BY in the projection the values come in order. -/
theorem select_order_iff_values :
    EngineLoop.OrderKept valuesInOrder [numberRow 1 2, numberRow 2 1] ∧
    ∀ rows, EngineLoop.Sorts byValue ([numberRow 1 2, numberRow 2 1].map (projectRow [ascii "v"])) rows →
      EngineLoop.InOrder valuesInOrder [numberRow 1 2, numberRow 2 1] rows := by
  have hweak : StrictWeakOn (Precedes byValue) [numberRow 1 2, numberRow 2 1] :=
    ⟨by decide +kernel, by decide +kernel⟩
  have hkept : EngineLoop.OrderKept valuesInOrder [numberRow 1 2, numberRow 2 1] :=
    EngineLoop.orderKept_of_projected (.inr (by decide)) hweak
  exact ⟨hkept, (select_order_iff InMemory.provider crossedRowsServer valuesInOrder rfl rfl rfl
    (filters_crossedRows _ (.inl rfl)) ⟨_, rfl⟩).2.2 hkept⟩

/-- Without it they come in the order of the scan, and that is not the order of the values. -/
theorem ids_out_of_order :
    EngineLoop.Filters InMemory.provider crossedRowsServer idsInOrder
      [numberRow 1 2, numberRow 2 1] ∧
    ∃ rs, EngineLoop.Presents InMemory.provider crossedRowsServer idsInOrder rs ∧
      ¬ EngineLoop.InOrder idsInOrder [numberRow 1 2, numberRow 2 1] rs.rows := by
  refine ⟨filters_crossedRows _ (.inr rfl), ⟨true, [Tuple.empty.set idColumn (.int64 1),
    Tuple.empty.set idColumn (.int64 2)]⟩, ⟨_, rfl⟩, ?_⟩
  rintro ⟨arrangement, hperm, harranged, hmap⟩
  rcases List.perm_pair.1 hperm with rfl | rfl
  · -- row 2 precedes row 1
    have hnot := (List.pairwise_cons.1 harranged).1 _ (List.mem_singleton.2 rfl)
    exact hnot (by decide +kernel)
  · exact absurd hmap (by decide +kernel)

end OpenDB
