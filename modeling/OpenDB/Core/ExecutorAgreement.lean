import OpenDB.Core.SelectMeaning

/-!
# The executors compared

When the three executors give the same answer to a command and leave the same store, while the store
takes what the command writes (`executors_agree_iff`). They agree on a deadlock of the transaction just
begun; a command that has to wait blocks the engine loop for ever and the others only for a time; and a
command that runs is the same to all of them exactly if the clauses that they treat differently make no
difference to it: joins, ORDER BY, OFFSET and LIMIT, which only the engine loop knows, a star inside a
longer projection list, the defaults that only the HTTP front end fills in, and an UPDATE or DELETE that
finds nothing to write.
-/

set_option autoImplicit false

namespace OpenDB

open OpenDB.Library Exec Program

variable {σ : Type} {P : StorageProvider σ} {s t : Server σ} {cmd : Command}

/-- Whichever two executors run the command, they give the same answers and leave stores that look
the same. -/
def Agree [StandardLibrary] (P : StorageProvider σ) (s : Server σ) (cmd : Command) : Prop :=
  ∀ x y : Executor, ∃ answers t u,
    (x.program cmd).run (Server.handle P) s = some (.ok answers t) ∧
    (y.program cmd).run (Server.handle P) s = some (.ok answers u) ∧
    SameView P t.store u.store

/-- All three come to their end, and the dispatcher to the same one whatever its timeout. -/
structure ExecutorEnds [StandardLibrary] (P : StorageProvider σ) (s : Server σ) (cmd : Command)
    (loop dispatcher http : List Response × σ) : Prop where
  loop : ∃ t, (Executor.program .engineLoop cmd).run (Server.handle P) s = some (.ok loop.1 t) ∧
    t.store = loop.2
  dispatcher : ∀ lockTimeout, ∃ t, (Executor.program (.dispatcher lockTimeout) cmd).run
    (Server.handle P) s = some (.ok dispatcher.1 t) ∧ t.store = dispatcher.2
  http : ∃ t, (Executor.program .httpApi cmd).run (Server.handle P) s = some (.ok http.1 t) ∧
    t.store = http.2

/-- Two ends agree with each other. -/
def SameEnd (P : StorageProvider σ) (x y : List Response × σ) : Prop :=
  x.1 = y.1 ∧ SameView P x.2 y.2

theorem SameEnd.symm {x y : List Response × σ} (h : SameEnd P x y) : SameEnd P y x :=
  ⟨h.1.symm, fun reader table => (h.2 reader table).symm⟩

theorem SameEnd.trans {x y z : List Response × σ} (h : SameEnd P x y) (h' : SameEnd P y z) :
    SameEnd P x z :=
  ⟨h.1.trans h'.1, fun reader table => (h.2 reader table).trans (h'.2 reader table)⟩

theorem ExecutorEnds.agree_iff [StandardLibrary] {loop dispatcher http : List Response × σ}
    (h : ExecutorEnds P s cmd loop dispatcher http) :
    Agree P s cmd ↔ SameEnd P loop dispatcher ∧ SameEnd P dispatcher http := by
  have hend : ∀ {x y : Executor} {a b : List Response × σ},
      (∃ t, (x.program cmd).run (Server.handle P) s = some (.ok a.1 t) ∧ t.store = a.2) →
      (∃ t, (y.program cmd).run (Server.handle P) s = some (.ok b.1 t) ∧ t.store = b.2) →
      ((∃ answers t u, (x.program cmd).run (Server.handle P) s = some (.ok answers t) ∧
        (y.program cmd).run (Server.handle P) s = some (.ok answers u) ∧
        SameView P t.store u.store) ↔ SameEnd P a b) := by
    rintro x y ⟨a, final⟩ ⟨b, final'⟩ ⟨t, hx, rfl⟩ ⟨u, hy, rfl⟩
    rw [hx, hy]
    constructor
    · rintro ⟨answers, t', u', ht, hu, hview⟩
      cases ht
      cases hu
      exact ⟨rfl, hview⟩
    · rintro ⟨heq, hview⟩
      dsimp only at heq
      subst heq
      exact ⟨_, _, _, rfl, rfl, hview⟩
  constructor
  · intro hagree
    exact ⟨(hend h.loop (h.dispatcher 0)).1 (hagree _ _), (hend (h.dispatcher 0) h.http).1 (hagree _ _)⟩
  · rintro ⟨hloop, hhttp⟩ x y
    -- every executor ends like the dispatcher does
    have hall : ∀ z : Executor, ∃ e : List Response × σ, SameEnd P e dispatcher ∧
        ∃ t, (z.program cmd).run (Server.handle P) s = some (.ok e.1 t) ∧ t.store = e.2 := by
      intro z
      cases z with
      | engineLoop => exact ⟨loop, hloop, h.loop⟩
      | dispatcher lockTimeout => exact ⟨dispatcher, ⟨rfl, fun _ _ => rfl⟩, h.dispatcher lockTimeout⟩
      | httpApi => exact ⟨http, hhttp.symm, h.http⟩
    obtain ⟨a, ha, hx⟩ := hall x
    obtain ⟨b, hb, hy⟩ := hall y
    exact (hend hx hy).2 (ha.trans hb.symm)

/-! ## Commands that do not run -/

section

variable [StandardLibrary]

/-- All three abort a transaction that the detector names, and answer alike. -/
theorem agree_of_cycle {victim : UInt64} (hauto : cmd.txnId = none)
    (hcycle : s.locks.detectCycle s.txns.beginTxn.1 = some victim) : Agree P s cmd := by
  have hdetect : (detectCycle s.txns.beginTxn.1).run (Server.handle P) s.begun =
      some (.ok (some victim) s.begun) := by
    rw [run_detectCycle, show s.begun.locks.detectCycle _ = some victim from hcycle]
  obtain ⟨u, hu⟩ : ∃ u : Server σ, u = ⟨s.store, (s.begun.txns.abortTxn victim).2,
      s.locks.release victim⟩ := ⟨_, rfl⟩
  have hvictim : (abortVictim victim).run (Server.handle P) s.begun =
      some (.ok () u) := by
    unfold abortVictim
    rw [run_bind_ok run_abortTxn, run_release, hu]
    rfl
  obtain ⟨ending, hending⟩ : ∃ ending : List Response × σ,
      ending = ([.error (deadlockError s.txns.beginTxn.1)], u.store) := ⟨_, rfl⟩
  have hends : ExecutorEnds P s cmd ending ending ending := by
    rw [hending]
    refine ⟨⟨u, ?_, rfl⟩, fun lockTimeout => ⟨u, ?_, rfl⟩, ⟨u, ?_, rfl⟩⟩
    · rw [run_program_engineLoop, EngineLoop.dispatch, run_bind_ok run_beginTxn_begun, hauto]
      dsimp only [Option.getD_none]
      rw [run_bind_ok hdetect]
      dsimp only
      rw [run_bind_ok hvictim]
      rfl
    · rw [Executor.program, EngineDispatcher.runCommand, run_bind, run_bind_ok run_beginTxn_begun,
        hauto]
      dsimp only [Option.getD_none]
      rw [run_bind_ok hdetect]
      dsimp only
      rw [run_bind_ok hvictim]
      rfl
    · rw [Executor.program, HttpApi.handleDml, run_bind]
      dsimp only
      rw [run_bind_ok run_beginTxn_begun, run_bind_ok hdetect]
      dsimp only
      rw [run_bind_ok hvictim]
      rfl
  have hsame : SameEnd P ending ending := ⟨rfl, fun _ _ => rfl⟩
  exact hends.agree_iff.2 ⟨hsame, hsame⟩

/-- The engine loop does not come back from a wait. -/
theorem not_agree_of_blocked (hauto : cmd.txnId = none)
    (hcycle : s.locks.detectCycle s.txns.beginTxn.1 = none)
    (hlock : s.locks.grantable s.txns.beginTxn.1 (tableKey cmd.table) cmd.lockMode = false) :
    ¬ Agree P s cmd := by
  have hdetect : (detectCycle s.txns.beginTxn.1).run (Server.handle P) s.begun =
      some (.ok none s.begun) := by
    rw [run_detectCycle, show s.begun.locks.detectCycle _ = none from hcycle]
  have hblocks : (acquire s.txns.beginTxn.1 cmd.table cmd.lockMode).run (Server.handle P) s.begun =
      none := by
    refine (run_perform _).trans (if_neg ?_)
    show ¬ s.locks.grantable s.txns.beginTxn.1 (tableKey cmd.table) cmd.lockMode = true
    rw [hlock]
    exact Bool.false_ne_true
  intro hagree
  obtain ⟨answers, t, u, hrun, -⟩ := hagree .engineLoop .engineLoop
  rw [run_program_engineLoop, EngineLoop.dispatch, run_bind_ok run_beginTxn_begun, hauto] at hrun
  dsimp only [Option.getD_none] at hrun
  rw [run_bind_ok hdetect] at hrun
  dsimp only at hrun
  rw [run_bind, hblocks] at hrun
  cases hrun

end

/-! ## Clauses that make no difference -/

/-- OFFSET and LIMIT leave all of some rows exactly if there is no OFFSET and no smaller LIMIT. -/
theorem EngineLoop.length_window_iff {offset limit : Option UInt64} {rows : List Tuple}
    (hrows : rows ≠ []) : (EngineLoop.window offset limit rows).length = rows.length ↔
      offset.getD 0 = 0 ∧ ∀ l ∈ limit, rows.length ≤ l.toNat := by
  have hpos := List.length_pos_of_ne_nil hrows
  unfold EngineLoop.window
  dsimp only
  rw [List.length_take, List.length_drop, ← UInt64.toNat_inj, UInt64.toNat_zero]
  cases limit with
  | none =>
    simp only [Option.mem_def, reduceCtorEq, false_implies, implies_true, and_true]
    split_ifs <;> omega
  | some l =>
    simp only [Option.mem_def, Option.some.injEq, forall_eq']
    by_cases hzero : (offset.getD 0).toNat = 0
    · have hsum : (offset.getD 0 + l).toNat = l.toNat := by
        rw [UInt64.toNat_add, hzero, Nat.zero_add, Nat.mod_eq_of_lt l.toNat_lt]
      rw [hsum, hzero]
      split_ifs <;> omega
    · refine iff_of_false ?_ fun h => hzero h.1
      split_ifs <;> omega

theorem EngineLoop.window_of_length {offset limit : Option UInt64} {rows : List Tuple}
    (h : (EngineLoop.window offset limit rows).length = rows.length) :
    EngineLoop.window offset limit rows = rows := by
  refine List.Sublist.eq_of_length ?_ h
  exact (List.take_sublist _ _).trans (List.drop_sublist _ _)

/-- The standard says nothing about a sort whose comparison is no strict weak order. -/
theorem EngineLoop.sorts_nil_of_undefined {specs : List OrderBySpec} {rows : List Tuple}
    (h : ¬ (specs = [] ∨ StrictWeakOn (Precedes specs) rows)) : Sorts specs rows [] := by
  obtain ⟨hspecs, hweak⟩ := not_or.1 h
  rw [Sorts, if_neg (by simpa using hspecs)]
  exact fun hdefined => absurd hdefined hweak

namespace Command

variable {tables : Bytes → List Tuple} {row : Tuple}

/-- The rows of the table that the WHERE clause is true for. -/
def wanted (cmd : Command) (tables : Bytes → List Tuple) : List Tuple :=
  (tables cmd.table).filter fun row => cmd.Wants row

/-- The clauses of a SELECT without joins that only the engine loop knows do nothing to the rows of the
table: no row has a column by the name of a star that stands in a longer list, OFFSET and LIMIT cut
nothing off, and the rows that are shown stand in the order that ORDER BY asks for. -/
structure ClausesIdle (cmd : Command) (tables : Bytes → List Tuple) : Prop where
  stars : cmd.projections = [star] ∨ star ∉ cmd.projections ∨
    ∀ row ∈ cmd.wanted tables, star ∉ row.names
  window : cmd.wanted tables = [] ∨
    cmd.offset.getD 0 = 0 ∧ ∀ l ∈ cmd.limit, (cmd.wanted tables).length ≤ l.toNat
  order : EngineLoop.InPlace cmd.orderBy ((cmd.wanted tables).map cmd.projected)

/-- The projection that passes over a star. -/
def projectedPlain (cmd : Command) (row : Tuple) : Tuple :=
  if cmd.projections = [] ∨ cmd.projections = [star] then row
  else row.projected (cmd.projections.filter fun column => column ≠ star)

theorem alone_eq : cmd.alone tables = (cmd.wanted tables).map cmd.projectedPlain := rfl

theorem names_projected (names : List Bytes) (row : Tuple) {name : Bytes} :
    name ∈ (row.projected names).names ↔ name ∈ names ∧ name ∈ row.names := by
  show name ∈ ((names.filter fun name => name ∈ row.names).eraseDups.map fun name =>
    (⟨name, (row.maybeGet name).getD .null⟩ : ColumnValue)).map ColumnValue.name ↔ _
  rw [List.map_map, show (ColumnValue.name ∘ fun name : Bytes =>
    (⟨name, (row.maybeGet name).getD .null⟩ : ColumnValue)) = id from rfl, List.map_id,
    List.mem_eraseDups, List.mem_filter, decide_eq_true_eq]

/-- The star matters to a row that has such a column, and only to it. -/
theorem projected_eq_plain
    (hstars : cmd.projections = [star] ∨ star ∉ cmd.projections ∨ star ∉ row.names) :
    cmd.projected row = cmd.projectedPlain row := by
  unfold projected projectedPlain
  split_ifs with hall
  · rfl
  refine Tuple.ext (congrArg (List.map _) (congrArg List.eraseDups ?_))
  rw [List.filter_filter]
  refine List.filter_congr fun name hname => ?_
  rcases hstars with hone | hnone | hrow
  · exact absurd (Or.inr hone) hall
  · have hne : name ≠ star := fun h => hnone (h ▸ hname)
    simp [hne]
  · by_cases hne : name = star
    · simp [hne, hrow]
    · simp [hne]

theorem star_of_projected_mem (hmem : cmd.projected row ∈ cmd.alone tables) :
    cmd.projections = [star] ∨ star ∉ cmd.projections ∨ star ∉ row.names := by
  by_cases hall : cmd.projections = [] ∨ cmd.projections = [star]
  · rcases hall with hnil | hone
    · exact Or.inr (Or.inl (by rw [hnil]; exact List.not_mem_nil))
    · exact Or.inl hone
  by_contra hnot
  simp only [not_or, not_not] at hnot
  obtain ⟨other, -, heq⟩ := List.mem_map.1 hmem
  rw [if_neg hall] at heq
  -- the projection has the column, and no row of the others has it
  have hstar : star ∈ (cmd.projected row).names := by
    rw [projected, if_neg hall]
    exact (names_projected _ _).2 hnot.2
  rw [← heq, names_projected, List.mem_filter] at hstar
  exact absurd hstar.1.2 (by simp)

theorem map_projected_eq_alone (hstars : ∀ row ∈ cmd.wanted tables,
    cmd.projections = [star] ∨ star ∉ cmd.projections ∨ star ∉ row.names) :
    (cmd.wanted tables).map cmd.projected = cmd.alone tables := by
  rw [alone_eq]
  exact List.map_congr_left fun row hrow => projected_eq_plain (hstars row hrow)

/-- Without joins a SELECT sorts the rows of its table and cuts a window out of them. -/
theorem selects_iff_of_joins_nil (hjoins : cmd.joins = []) {out : List Tuple} :
    cmd.Selects tables out ↔ ∃ ordered,
      EngineLoop.Sorts cmd.orderBy ((cmd.wanted tables).map cmd.projected) ordered ∧
        out = EngineLoop.window cmd.offset cmd.limit ordered := by
  have hmatched : EngineLoop.matchedFrom tables cmd = (cmd.wanted tables).map cmd.projected := by
    rw [EngineLoop.matchedFrom_eq, hjoins]
    rfl
  rw [selects_iff, hmatched]

/-- Where no row is left to any clause, they all do nothing. -/
theorem clausesIdle_of_wanted_nil (hnone : cmd.wanted tables = []) : cmd.ClausesIdle tables where
  stars := by
    rw [hnone]
    exact Or.inr (Or.inr fun row hrow => absurd hrow List.not_mem_nil)
  window := Or.inl hnone
  order := by
    rw [hnone]
    exact EngineLoop.inPlace_nil

/-- Idle clauses leave the rows of the table alone. -/
theorem ClausesIdle.window_eq_alone (hidle : cmd.ClausesIdle tables) {ordered : List Tuple}
    (hordered : EngineLoop.Sorts cmd.orderBy ((cmd.wanted tables).map cmd.projected) ordered) :
    EngineLoop.window cmd.offset cmd.limit ordered = cmd.alone tables := by
  have hsame : (cmd.wanted tables).map cmd.projected = cmd.alone tables :=
    map_projected_eq_alone fun row hrow =>
      hidle.stars.imp_right fun h => h.imp_right fun h => h row hrow
  rw [EngineLoop.sorts_unique_iff.2 hidle.order ordered hordered, hsame]
  have hlength : (cmd.alone tables).length = (cmd.wanted tables).length := by
    rw [alone_eq, List.length_map]
  by_cases hempty : cmd.alone tables = []
  · rw [hempty]
    simp [EngineLoop.window]
  have hnone : cmd.wanted tables ≠ [] := by
    intro hnil
    rw [hnil] at hlength
    exact hempty (List.length_eq_zero_iff.1 hlength)
  refine EngineLoop.window_of_length ((EngineLoop.length_window_iff hempty).2 ?_)
  rw [hlength]
  exact hidle.window.resolve_left hnone

/-- If every order that a sort may leave is cut to the rows alone, no clause does anything. -/
theorem clausesIdle_of_windows (hkeeps : ∀ ordered,
    EngineLoop.Sorts cmd.orderBy ((cmd.wanted tables).map cmd.projected) ordered →
      EngineLoop.window cmd.offset cmd.limit ordered = cmd.alone tables) :
    cmd.ClausesIdle tables := by
  by_cases hnone : cmd.wanted tables = []
  · exact clausesIdle_of_wanted_nil hnone
  have hlength : (cmd.alone tables).length = (cmd.wanted tables).length := by
    rw [alone_eq, List.length_map]
  -- the sort is defined, for otherwise it may lose the rows
  have hdefined : cmd.orderBy = [] ∨
      StrictWeakOn (Precedes cmd.orderBy) ((cmd.wanted tables).map cmd.projected) := by
    by_contra hnot
    have hlost := hkeeps [] (EngineLoop.sorts_nil_of_undefined hnot)
    have hempty : (cmd.alone tables).length = 0 := by
      rw [← hlost]
      simp [EngineLoop.window]
    rw [hlength, List.length_eq_zero_iff] at hempty
    exact hnone hempty
  -- what a sort leaves are as many rows as are shown, so that nothing is cut off
  have hfull : ∀ ordered,
      EngineLoop.Sorts cmd.orderBy ((cmd.wanted tables).map cmd.projected) ordered →
        ordered = cmd.alone tables ∧ (cmd.offset.getD 0 = 0 ∧
          ∀ l ∈ cmd.limit, (cmd.wanted tables).length ≤ l.toNat) := by
    intro ordered hordered
    have hcount : ordered.length = (cmd.wanted tables).length := by
      rw [(hordered.perm hdefined).length_eq, List.length_map]
    have hall : (EngineLoop.window cmd.offset cmd.limit ordered).length = ordered.length := by
      rw [hkeeps ordered hordered, hlength, hcount]
    have hne : ordered ≠ [] := by
      rintro rfl
      exact hnone (List.length_eq_zero_iff.1 hcount.symm)
    refine ⟨(EngineLoop.window_of_length hall).symm.trans (hkeeps ordered hordered), ?_⟩
    rw [← hcount]
    exact (EngineLoop.length_window_iff hne).1 hall
  have hsorts := EngineLoop.sorts_orderRows cmd.orderBy ((cmd.wanted tables).map cmd.projected)
  obtain ⟨horiginal, hwindow⟩ := hfull _ hsorts
  have hstars : ∀ row ∈ cmd.wanted tables,
      cmd.projections = [star] ∨ star ∉ cmd.projections ∨ star ∉ row.names := by
    intro row hrow
    have hshown : cmd.projected row ∈ cmd.alone tables := by
      rw [← horiginal, (hsorts.perm hdefined).mem_iff]
      exact List.mem_map_of_mem hrow
    exact star_of_projected_mem hshown
  refine ⟨?_, Or.inr hwindow, EngineLoop.sorts_unique_iff.1 fun out hout => ?_⟩
  · by_contra hnot
    simp only [not_or, not_forall] at hnot
    obtain ⟨hone, hmem, row, hrow, hcolumn⟩ := hnot
    rcases hstars row hrow with h | h | h
    · exact hone h
    · exact hmem h
    · exact hcolumn h
  · rw [(hfull out hout).1, map_projected_eq_alone hstars]

/-- Without joins the rows of the table alone are the one answer to a SELECT exactly if its clauses do
nothing to them. -/
theorem alone_unique_iff (hjoins : cmd.joins = []) :
    (∀ out, cmd.Selects tables out → out = cmd.alone tables) ↔ cmd.ClausesIdle tables := by
  constructor
  · intro honly
    refine clausesIdle_of_windows fun ordered hordered => honly _ ?_
    exact (selects_iff_of_joins_nil hjoins).2 ⟨ordered, hordered, rfl⟩
  · intro hidle out hout
    obtain ⟨ordered, hordered, rfl⟩ := (selects_iff_of_joins_nil hjoins).1 hout
    exact hidle.window_eq_alone hordered

end Command

/-! ## Commands that run -/

/-- The calls of the store succeed, one after the other. -/
inductive CallsSucceed : List (EStateM Fault σ DbError) → σ → σ → Prop where
  | done {store : σ} : CallsSucceed [] store store
  | next {call : EStateM Fault σ DbError} {calls : List (EStateM Fault σ DbError)}
      {store mid final : σ} {e : DbError} (hcall : call.run store = .ok e mid)
      (hok : e.isSentinel = true) (hrest : CallsSucceed calls mid final) :
      CallsSucceed (call :: calls) store final

namespace Command

/-- The keys of the rows that the WHERE clause is true for. -/
def keys (cmd : Command) (tables : Bytes → List Tuple) : List Value :=
  (cmd.wanted tables).filterMap fun row => row.maybeGet idColumn

/-- What the statement writes; an INSERT puts the given row. -/
def writes (P : StorageProvider σ) (txn : UInt64) (cmd : Command) (tables : Bytes → List Tuple)
    (row : Tuple) : List (EStateM Fault σ DbError) :=
  match cmd.type with
  | .select => []
  | .insert => [P.put txn cmd.table (insertKey row) row]
  | .update => (cmd.keys tables).map fun k =>
      P.put txn cmd.table k ((cmd.values.getD .empty).set idColumn k)
  | .delete => (cmd.keys tables).map fun k => P.remove txn cmd.table k

/-- The row of an INSERT; one without columns has the defaults of the table if they are filled in. -/
def defaulted (cmd : Command) (schema : Option Schema) : Tuple :=
  let row := cmd.values.getD .empty
  if row.isEmpty = true then
    match schema with
    | some sch => HttpApi.defaultRow sch
    | none => row
  else row

end Command

/-- The store takes what the statement writes, and commits it. -/
def StatementStored (P : StorageProvider σ) (s : Server σ) (cmd : Command) (tables : Bytes → List Tuple)
    (row : Tuple) (final : σ) : Prop :=
  ∃ store, CallsSucceed (cmd.writes P s.txns.beginTxn.1 tables row) s.store store ∧
    Committed P s.txns.beginTxn.1 (s.txns.beginTxn.2.commitTxn s.txns.beginTxn.1).2.visibleSeq store
      final

/-- The store serves the statement: it shows the rows of the tables and the schema of the table, and
takes the statement as it is, to one store, and with the defaults of an INSERT filled in, to another. -/
structure StoreServes (P : StorageProvider σ) (s : Server σ) (cmd : Command)
    (tables : Bytes → List Tuple) (schema : Option Schema) (plain filled : σ) : Prop where
  scan : ∀ table, (P.scan s.txns.beginTxn.1 table).run s.store = .ok (tables table) s.store
  describe : (P.describeTable cmd.table).run s.store = .ok schema s.store
  plain : StatementStored P s cmd tables (cmd.values.getD .empty) plain
  filled : StatementStored P s cmd tables (cmd.defaulted schema) filled

section

variable {tables : Bytes → List Tuple} {schema : Option Schema} {plain filled : σ} {row : Tuple}

theorem CallsSucceed.unique {calls : List (EStateM Fault σ DbError)} {store final final' : σ}
    (h : CallsSucceed calls store final) (h' : CallsSucceed calls store final') : final = final' := by
  induction h with
  | done =>
    cases h'
    rfl
  | next hcall _ _ ih =>
    cases h' with
    | next hcall' _ hrest' =>
      cases hcall.symm.trans hcall'
      exact ih hrest'

/-- The store after the commit is determined by what has been written. -/
theorem StatementStored.unique {final final' : σ} (h : StatementStored P s cmd tables row final)
    (h' : StatementStored P s cmd tables row final') : final = final' := by
  obtain ⟨store, htaken, -, e, hcommit, -⟩ := h
  obtain ⟨store', htaken', -, e', hcommit', -⟩ := h'
  cases htaken.unique htaken'
  cases hcommit.symm.trans hcommit'
  rfl

theorem Command.keys_eq {predicate : Predicate} (hpredicate : cmd.predicate = some predicate) :
    cmd.keys tables =
      ((tables cmd.table).filter predicate.evaluate).filterMap fun row => row.maybeGet idColumn := by
  have hfilter : cmd.wanted tables = (tables cmd.table).filter predicate.evaluate := by
    refine List.filter_congr fun row _ => ?_
    have haccepts : cmd.accepts row = true ↔ cmd.Wants row := Command.accepts_iff
    rw [Command.accepts, hpredicate] at haccepts
    simp [← haccepts]
  rw [Command.keys, hfilter]

variable [StandardLibrary]

theorem run_onStore_ok {α : Type} {x : EStateM Fault σ α} {c : Exec α} {a : α} {store : σ}
    (hc : c.run (Server.handle P) t = t.onStore x) (hrun : x.run t.store = .ok a store) :
    c.run (Server.handle P) t = some (.ok a { t with store := store }) := by
  rw [hc, Server.onStore_ok hrun]

/-- The write loop goes through the calls that succeed. -/
theorem run_writeRows_taken {write : Value → Exec DbError} {call : Value → EStateM Fault σ DbError}
    (hwrite : ∀ k (t : Server σ), (write k).run (Server.handle P) t = t.onStore (call k))
    {keys : List Value} {final : σ} (any : Bool) (t : Server σ)
    (h : CallsSucceed (keys.map call) t.store final) :
    (writeRows write keys any).run (Server.handle P) t =
      some (.ok (none, any || !keys.isEmpty) { t with store := final }) := by
  induction keys generalizing any t with
  | nil =>
    cases h
    rw [List.isEmpty_nil, Bool.not_true, Bool.or_false]
    rfl
  | cons k keys ih =>
    cases h with
    | next hcall hok hrest =>
      rw [writeRows, run_bind_ok (run_onStore_ok (hwrite k t) hcall), if_pos hok, ih true _ hrest]
      simp

/-! ### From the lock to the end -/

variable {store final : σ} {rs : ResultSet} {error : Option DbError} {answer : Response}

theorem EngineLoop.exists_end (hstart : Startable s cmd)
    (hexecute : (EngineLoop.execute s.txns.beginTxn.1 cmd).run (Server.handle P) (s.started cmd) =
      some (.ok (some rs, error) { s.started cmd with store := store }))
    (hcommit : Committed P s.txns.beginTxn.1
      (s.txns.beginTxn.2.commitTxn s.txns.beginTxn.1).2.visibleSeq store final) :
    ∃ t, (Executor.program .engineLoop cmd).run (Server.handle P) s = some (.ok [.result rs] t) ∧
      t.store = final := by
  refine ⟨({ s.started cmd with store := store } : Server σ).finished s.txns.beginTxn.1 final, ?_, rfl⟩
  rw [run_program_engineLoop, EngineLoop.run_dispatch hstart, EngineLoop.finish, run_bind_ok hexecute]
  dsimp only
  rw [run_bind_ok (EngineLoop.run_autoCommit (t := { s.started cmd with store := store }) hcommit error)]
  rfl

theorem EngineDispatcher.exists_end (hstart : Startable s cmd) (lockTimeout : Nat)
    (hexecute : (EngineDispatcher.execute s.txns.beginTxn.1 cmd).run (Server.handle P)
      (s.started cmd) = some (.ok answer { s.started cmd with store := store }))
    (hcommit : Committed P s.txns.beginTxn.1
      (s.txns.beginTxn.2.commitTxn s.txns.beginTxn.1).2.visibleSeq store final) :
    ∃ t, (Executor.program (.dispatcher lockTimeout) cmd).run (Server.handle P) s =
      some (.ok [answer] t) ∧ t.store = final := by
  have hcaught : (EngineDispatcher.executeCaught s.txns.beginTxn.1 cmd).run (Server.handle P)
      (s.started cmd) = some (.ok answer { s.started cmd with store := store }) := by
    rw [EngineDispatcher.executeCaught]
    rw [run_tryCatch, hexecute]
  refine ⟨({ s.started cmd with store := store } : Server σ).finished s.txns.beginTxn.1 final, ?_, rfl⟩
  rw [EngineDispatcher.run_runCommand hstart, EngineDispatcher.finish, run_bind_ok hcaught,
    run_bind_ok (EngineDispatcher.run_autoCommit (t := { s.started cmd with store := store }) hcommit)]
  rfl

theorem HttpApi.exists_end (hstart : Startable s cmd)
    (hexecute : (HttpApi.execute s.txns.beginTxn.1 cmd).run (Server.handle P) (s.started cmd) =
      some (.ok (.result rs) { s.started cmd with store := store }))
    (hcommit : Committed P s.txns.beginTxn.1
      (s.txns.beginTxn.2.commitTxn s.txns.beginTxn.1).2.visibleSeq store final) :
    ∃ t, (Executor.program .httpApi cmd).run (Server.handle P) s = some (.ok [.result rs] t) ∧
      t.store = final := by
  refine ⟨({ s.started cmd with store := store } : Server σ).finished s.txns.beginTxn.1 final, ?_, rfl⟩
  have hfinish : (HttpApi.handleDml cmd none).run (Server.handle P) s = some (.ok (.result rs)
      (({ s.started cmd with store := store } : Server σ).finished s.txns.beginTxn.1 final)) := by
    rw [HttpApi.run_handleDml hstart, HttpApi.finish, run_bind_ok hexecute]
    exact HttpApi.run_autoCommit_committed (t := { s.started cmd with store := store }) hcommit
  exact run_bind_ok hfinish

/-! ### The statements -/

theorem StoreServes.shows (h : StoreServes P s cmd tables schema plain filled) :
    EngineLoop.Shows P (s.started cmd) s.txns.beginTxn.1 tables := fun table =>
  run_onStore_ok (run_perform _) (h.scan table)

/-- A SELECT of the engine loop is the window of the sorted rows; the others read the table alone. -/
theorem agree_select_iff (hstart : Startable s cmd)
    (h : StoreServes P s cmd tables schema plain filled) (htype : cmd.type = .select) :
    Agree P s cmd ↔ EngineLoop.window cmd.offset cmd.limit
      (EngineLoop.orderRows cmd.orderBy (EngineLoop.matchedFrom tables cmd)) = cmd.alone tables := by
  obtain ⟨store, hwrites, hcommit⟩ := h.plain
  rw [Command.writes, htype] at hwrites
  cases hwrites
  have hloop : (EngineLoop.execute s.txns.beginTxn.1 cmd).run (Server.handle P) (s.started cmd) =
      some (.ok (some ⟨true, EngineLoop.window cmd.offset cmd.limit (EngineLoop.orderRows cmd.orderBy
        (EngineLoop.matchedFrom tables cmd))⟩, none) (s.started cmd)) := by
    rw [EngineLoop.execute, htype]
    dsimp only
    rw [run_bind_ok (EngineLoop.run_selectRows h.shows cmd)]
    rfl
  have hplain : (selectPlain s.txns.beginTxn.1 cmd).run (Server.handle P) (s.started cmd) =
      some (.ok (cmd.alone tables) (s.started cmd)) := by
    rw [selectPlain, run_bind_ok (h.shows cmd.table), cmd.alone_eq_map]
    rfl
  have hdispatcher : (EngineDispatcher.execute s.txns.beginTxn.1 cmd).run (Server.handle P)
      (s.started cmd) = some (.ok (.result ⟨true, cmd.alone tables⟩) (s.started cmd)) := by
    rw [EngineDispatcher.execute, htype]
    dsimp only
    rw [run_bind_ok hplain]
    rfl
  have hhttp : (HttpApi.execute s.txns.beginTxn.1 cmd).run (Server.handle P) (s.started cmd) =
      some (.ok (.result ⟨true, cmd.alone tables⟩) (s.started cmd)) := by
    rw [HttpApi.execute, htype]
    dsimp only
    rw [run_bind_ok hplain]
    rfl
  have hends : ExecutorEnds P s cmd ([.result ⟨true, EngineLoop.window cmd.offset cmd.limit
      (EngineLoop.orderRows cmd.orderBy (EngineLoop.matchedFrom tables cmd))⟩], plain)
      ([.result ⟨true, cmd.alone tables⟩], plain) ([.result ⟨true, cmd.alone tables⟩], plain) :=
    ⟨EngineLoop.exists_end hstart hloop hcommit,
      fun lockTimeout => EngineDispatcher.exists_end hstart lockTimeout hdispatcher hcommit,
      HttpApi.exists_end hstart hhttp hcommit⟩
  rw [hends.agree_iff]
  constructor
  · rintro ⟨⟨hanswers, -⟩, -⟩
    exact congrArg ResultSet.rows (Response.result.inj (List.cons.inj hanswers).1)
  · intro hrows
    rw [hrows]
    exact ⟨⟨rfl, fun _ _ => rfl⟩, rfl, fun _ _ => rfl⟩

theorem StoreServes.run_insertedRow (h : StoreServes P s cmd tables schema plain filled) :
    (HttpApi.insertedRow cmd).run (Server.handle P) (s.started cmd) =
      some (.ok (cmd.defaulted schema) (s.started cmd)) := by
  have hdescribe : (describeTable cmd.table).run (Server.handle P) (s.started cmd) =
      some (.ok schema (s.started cmd)) := run_onStore_ok (run_perform _) h.describe
  unfold HttpApi.insertedRow Command.defaulted
  dsimp only
  split_ifs
  · rw [run_bind_ok hdescribe]
    cases schema <;> rfl
  · rfl

/-- The put of an INSERT that the store takes. -/
theorem StatementStored.run_put {final : σ} (h : StatementStored P s cmd tables row final)
    (htype : cmd.type = .insert) : ∃ e store, e.isSentinel = true ∧
      (put s.txns.beginTxn.1 cmd.table (insertKey row) row).run (Server.handle P) (s.started cmd) =
        some (.ok e { s.started cmd with store := store }) ∧
      Committed P s.txns.beginTxn.1 (s.txns.beginTxn.2.commitTxn s.txns.beginTxn.1).2.visibleSeq store
        final := by
  obtain ⟨store, hwrites, hcommit⟩ := h
  rw [Command.writes, htype] at hwrites
  cases hwrites with
  | @next _ _ _ _ _ e hcall hok hrest =>
    cases hrest
    exact ⟨e, store, hok, run_onStore_ok (run_perform _) hcall, hcommit⟩

/-- An INSERT has the same result everywhere; behind the HTTP front end it has the defaults. -/
theorem agree_insert_iff (hstart : Startable s cmd)
    (h : StoreServes P s cmd tables schema plain filled) (htype : cmd.type = .insert) :
    Agree P s cmd ↔ cmd.defaulted schema = cmd.values.getD .empty ∨ SameView P plain filled := by
  obtain ⟨e, store, hok, hput, hcommit⟩ := h.plain.run_put htype
  obtain ⟨e', store', hok', hput', hcommit'⟩ := h.filled.run_put htype
  obtain ⟨row, hrow⟩ : ∃ row, cmd.values = some row := by
    have hvalid := cmd.valid
    rw [htype] at hvalid
    exact Option.isSome_iff_exists.1 hvalid.1
  have hloop : (EngineLoop.execute s.txns.beginTxn.1 cmd).run (Server.handle P) (s.started cmd) =
      some (.ok (some noRows, none) { s.started cmd with store := store }) := by
    rw [EngineLoop.execute, htype]
    dsimp only
    rw [run_bind_ok hput, if_pos hok]
    rfl
  have hdispatcher : (EngineDispatcher.execute s.txns.beginTxn.1 cmd).run (Server.handle P)
      (s.started cmd) = some (.ok (.result noRows) { s.started cmd with store := store }) := by
    rw [hrow, Option.getD_some] at hput
    rw [EngineDispatcher.execute, htype, hrow]
    dsimp only
    rw [run_bind_ok hput, if_pos hok]
    rfl
  have hhttp : (HttpApi.execute s.txns.beginTxn.1 cmd).run (Server.handle P) (s.started cmd) =
      some (.ok (.result noRows) { s.started cmd with store := store' }) := by
    rw [HttpApi.execute, htype]
    dsimp only
    rw [run_bind_ok h.run_insertedRow, run_bind_ok hput', if_pos hok']
    rfl
  have hends : ExecutorEnds P s cmd ([.result noRows], plain) ([.result noRows], plain)
      ([.result noRows], filled) :=
    ⟨EngineLoop.exists_end hstart hloop hcommit,
      fun lockTimeout => EngineDispatcher.exists_end hstart lockTimeout hdispatcher hcommit,
      HttpApi.exists_end hstart hhttp hcommit'⟩
  rw [hends.agree_iff]
  constructor
  · rintro ⟨-, -, hview⟩
    exact Or.inr hview
  · intro hsame
    refine ⟨⟨rfl, fun _ _ => rfl⟩, rfl, ?_⟩
    rcases hsame with hdefaulted | hview
    · -- the same row is put into the same store
      have hfilled := h.filled
      rw [hdefaulted] at hfilled
      rw [h.plain.unique hfilled]
      exact fun _ _ => rfl
    · exact hview

theorem StoreServes.run_matchingKeys (h : StoreServes P s cmd tables schema plain filled)
    {predicate : Predicate} (hpredicate : cmd.predicate = some predicate) :
    (matchingKeys s.txns.beginTxn.1 cmd.table predicate).run (Server.handle P) (s.started cmd) =
      some (.ok (cmd.keys tables) (s.started cmd)) := by
  rw [matchingKeys, run_bind_ok (h.shows cmd.table), Command.keys_eq hpredicate]
  rfl

/-- A write that finds nothing is a success to the engine loop and an error to the others. -/
theorem agree_iff_of_answerOf {keys : List Value} (missing : DbError) (hstart : Startable s cmd)
    (hcommit : Committed P s.txns.beginTxn.1
      (s.txns.beginTxn.2.commitTxn s.txns.beginTxn.1).2.visibleSeq store final)
    (hloop : (EngineLoop.execute s.txns.beginTxn.1 cmd).run (Server.handle P) (s.started cmd) =
      some (.ok (some noRows, if keys.isEmpty then some missing else none)
        { s.started cmd with store := store }))
    (hdispatcher : (EngineDispatcher.execute s.txns.beginTxn.1 cmd).run (Server.handle P)
      (s.started cmd) = some (.ok (answerOf (if keys.isEmpty then some missing else none) noRows)
        { s.started cmd with store := store }))
    (hhttp : (HttpApi.execute s.txns.beginTxn.1 cmd).run (Server.handle P) (s.started cmd) =
      some (.ok (answerOf (if keys.isEmpty then some missing else none) noRows)
        { s.started cmd with store := store })) :
    Agree P s cmd ↔ keys ≠ [] := by
  have hloopEnd := EngineLoop.exists_end hstart hloop hcommit
  have hdispatcherEnd := fun lockTimeout =>
    EngineDispatcher.exists_end hstart lockTimeout hdispatcher hcommit
  cases keys with
  | nil =>
    refine iff_of_false (fun hagree => ?_) fun hne => hne rfl
    obtain ⟨answers, t, u, hx, hy, -⟩ := hagree .engineLoop (.dispatcher 0)
    obtain ⟨t', hx', -⟩ := hloopEnd
    obtain ⟨u', hy', -⟩ := hdispatcherEnd 0
    rw [hx'] at hx
    rw [hy'] at hy
    cases hx
    cases hy
  | cons k keys =>
    refine iff_of_true ?_ (List.cons_ne_nil k keys)
    have hends : ExecutorEnds P s cmd ([.result noRows], final) ([.result noRows], final)
        ([.result noRows], final) :=
      ⟨hloopEnd, hdispatcherEnd, HttpApi.exists_end hstart hhttp hcommit⟩
    exact hends.agree_iff.2 ⟨⟨rfl, fun _ _ => rfl⟩, rfl, fun _ _ => rfl⟩

theorem agree_update_iff (hstart : Startable s cmd)
    (h : StoreServes P s cmd tables schema plain filled) (htype : cmd.type = .update) :
    Agree P s cmd ↔ cmd.keys tables ≠ [] := by
  obtain ⟨store, hwrites, hcommit⟩ := h.plain
  have hvalid := cmd.valid
  rw [htype] at hvalid
  obtain ⟨predicate, hpredicate⟩ := Option.isSome_iff_exists.1 hvalid.1
  obtain ⟨values, hvalues⟩ := Option.isSome_iff_exists.1 hvalid.2
  rw [Command.writes, htype, hvalues] at hwrites
  have hrows : (updateRows s.txns.beginTxn.1 cmd.table predicate values).run (Server.handle P)
      (s.started cmd) = some (.ok (if (cmd.keys tables).isEmpty then
        some (.notFound (ascii "no matching rows to update")) else none)
          { s.started cmd with store := store }) := by
    rw [updateRows, run_bind_ok (h.run_matchingKeys hpredicate)]
    rw [run_bind_ok (run_writeRows_taken (fun k t => run_perform _) false (s.started cmd) hwrites)]
    cases (cmd.keys tables).isEmpty <;> rfl
  have hshared : (executeUpdate s.txns.beginTxn.1 cmd).run (Server.handle P) (s.started cmd) =
      some (.ok (answerOf (if (cmd.keys tables).isEmpty then
        some (.notFound (ascii "no matching rows to update")) else none) noRows)
          { s.started cmd with store := store }) := by
    rw [executeUpdate, hpredicate, hvalues]
    exact run_bind_ok hrows
  refine agree_iff_of_answerOf (.notFound (ascii "no matching rows to update")) hstart hcommit
    ?_ ?_ ?_
  · rw [EngineLoop.execute, htype, hpredicate, hvalues]
    exact run_bind_ok hrows
  · rw [EngineDispatcher.execute, htype]
    exact hshared
  · rw [HttpApi.execute, htype]
    exact hshared

theorem agree_delete_iff (hstart : Startable s cmd)
    (h : StoreServes P s cmd tables schema plain filled) (htype : cmd.type = .delete) :
    Agree P s cmd ↔ cmd.keys tables ≠ [] := by
  obtain ⟨store, hwrites, hcommit⟩ := h.plain
  have hvalid := cmd.valid
  rw [htype] at hvalid
  obtain ⟨predicate, hpredicate⟩ := Option.isSome_iff_exists.1 hvalid.1
  rw [Command.writes, htype] at hwrites
  have hrows : (deleteRows s.txns.beginTxn.1 cmd.table predicate).run (Server.handle P)
      (s.started cmd) = some (.ok (if (cmd.keys tables).isEmpty then
        some (.notFound (ascii "no matching rows to delete")) else none)
          { s.started cmd with store := store }) := by
    rw [deleteRows, run_bind_ok (h.run_matchingKeys hpredicate)]
    rw [run_bind_ok (run_writeRows_taken (fun k t => run_perform _) false (s.started cmd) hwrites)]
    cases (cmd.keys tables).isEmpty <;> rfl
  have hshared : (executeDelete s.txns.beginTxn.1 cmd).run (Server.handle P) (s.started cmd) =
      some (.ok (answerOf (if (cmd.keys tables).isEmpty then
        some (.notFound (ascii "no matching rows to delete")) else none) noRows)
          { s.started cmd with store := store }) := by
    rw [executeDelete, hpredicate]
    exact run_bind_ok hrows
  refine agree_iff_of_answerOf (.notFound (ascii "no matching rows to delete")) hstart hcommit
    ?_ ?_ ?_
  · rw [EngineLoop.execute, htype, hpredicate]
    exact run_bind_ok hrows
  · rw [EngineDispatcher.execute, htype]
    exact hshared
  · rw [HttpApi.execute, htype]
    exact hshared

end

/-! ## All commands -/

/-- A command that runs comes to the same in all three executors: a SELECT without joins whose clauses do
nothing to the rows of the table, or with joins that bring these rows back; an INSERT that has a row, or
whose defaults make no difference to any reader; an UPDATE or DELETE that finds a key. -/
def Command.SameToAll (P : StorageProvider σ) (cmd : Command) (tables : Bytes → List Tuple)
    (schema : Option Schema) (plain filled : σ) : Prop :=
  match cmd.type with
  | .select =>
    if cmd.joins = [] then cmd.ClausesIdle tables
    else ∀ out, cmd.Selects tables out → out = cmd.alone tables
  | .insert => cmd.defaulted schema = cmd.values.getD .empty ∨ SameView P plain filled
  | .update => cmd.keys tables ≠ []
  | .delete => cmd.keys tables ≠ []

/-- The transaction just begun is named by the detector, or it gets its lock and the command comes to
the same in all three executors. -/
def Command.Unanimous [StandardLibrary] (P : StorageProvider σ) (s : Server σ) (cmd : Command)
    (tables : Bytes → List Tuple) (schema : Option Schema) (plain filled : σ) : Prop :=
  (∃ victim, s.locks.detectCycle s.txns.beginTxn.1 = some victim) ∨
    s.locks.grantable s.txns.beginTxn.1 (tableKey cmd.table) cmd.lockMode = true ∧
      cmd.SameToAll P tables schema plain filled

section

variable {tables : Bytes → List Tuple} {schema : Option Schema} {plain filled : σ}

/-- A SELECT that is the same to all has no other answer than the rows of the table alone. -/
theorem Command.sameToAll_select_iff (htype : cmd.type = .select) :
    cmd.SameToAll P tables schema plain filled ↔
      ∀ out, cmd.Selects tables out → out = cmd.alone tables := by
  rw [SameToAll, htype]
  dsimp only
  split_ifs with hjoins
  · exact (alone_unique_iff hjoins).symm
  · rfl

/-- With one library it is enough that the command comes to the same. -/
theorem agree_of_sameToAll [StandardLibrary] (hstart : Startable s cmd)
    (h : StoreServes P s cmd tables schema plain filled)
    (hsame : cmd.SameToAll P tables schema plain filled) : Agree P s cmd := by
  cases htype : cmd.type with
  | select =>
    rw [agree_select_iff hstart h htype]
    exact (Command.sameToAll_select_iff htype).1 hsame _ (EngineLoop.selects_of_tables tables cmd)
  | insert =>
    rw [Command.SameToAll, htype] at hsame
    exact (agree_insert_iff hstart h htype).2 hsame
  | update =>
    rw [Command.SameToAll, htype] at hsame
    exact (agree_update_iff hstart h htype).2 hsame
  | delete =>
    rw [Command.SameToAll, htype] at hsame
    exact (agree_delete_iff hstart h htype).2 hsame

/-- If the command does not come to the same, there is a library with which the executors differ, and
to which the detector is what it is to a given one. -/
theorem sameToAll_of_agree (base : StandardLibrary) (hstart : @Startable base σ s cmd)
    (h : StoreServes P s cmd tables schema plain filled)
    (hagree : ∀ [StandardLibrary], Agree P s cmd) : cmd.SameToAll P tables schema plain filled := by
  cases htype : cmd.type with
  | select =>
    refine (Command.sameToAll_select_iff htype).2 fun out hout => ?_
    obtain ⟨ordered, hordered, rfl⟩ := Command.selects_iff.1 hout
    -- the library whose sort leaves this order
    have hstart' : @Startable (StandardLibrary.leaving base ordered) σ s cmd :=
      @Startable.mk (StandardLibrary.leaving base ordered) σ s cmd hstart.auto
        ((detectCycle_leaving base ordered _ _).trans hstart.cycle) hstart.grant
    have hrows := (@agree_select_iff σ P s cmd tables schema plain filled
      (StandardLibrary.leaving base ordered) hstart' h htype).1
        (@hagree (StandardLibrary.leaving base ordered))
    rwa [EngineLoop.orderRows_leaving base hordered] at hrows
  | insert =>
    rw [Command.SameToAll, htype]
    exact (agree_insert_iff hstart h htype).1 hagree
  | update =>
    rw [Command.SameToAll, htype]
    exact (agree_update_iff hstart h htype).1 hagree
  | delete =>
    rw [Command.SameToAll, htype]
    exact (agree_delete_iff hstart h htype).1 hagree

end

/-- While the store serves the statement, the executors agree on a command without a transaction of its
own, whatever the standard library does, if and only if with every library the transaction is named by
the detector, or gets its lock and the command comes to the same in all three. With each library that
is enough. -/
theorem executors_agree_iff {tables : Bytes → List Tuple} {schema : Option Schema} {plain filled : σ}
    (hauto : cmd.txnId = none) (h : StoreServes P s cmd tables schema plain filled) :
    (∀ [StandardLibrary], cmd.Unanimous P s tables schema plain filled → Agree P s cmd) ∧
      ((∀ [StandardLibrary], Agree P s cmd) ↔
        ∀ [StandardLibrary], cmd.Unanimous P s tables schema plain filled) := by
  have henough : ∀ [StandardLibrary],
      cmd.Unanimous P s tables schema plain filled → Agree P s cmd := by
    intro _ hcmd
    by_cases hcycle : s.locks.detectCycle s.txns.beginTxn.1 = none
    · rcases hcmd with ⟨victim, hvictim⟩ | ⟨hlock, hsame⟩
      · rw [hcycle] at hvictim
        cases hvictim
      · exact agree_of_sameToAll ⟨hauto, hcycle, hlock⟩ h hsame
    · obtain ⟨victim, hvictim⟩ := Option.ne_none_iff_exists'.1 hcycle
      exact agree_of_cycle hauto hvictim
  refine ⟨henough, fun hagree => ?_, fun hall => henough hall⟩
  intro base
  cases hcycle : s.locks.detectCycle s.txns.beginTxn.1 with
  | some victim => exact Or.inl ⟨victim, hcycle⟩
  | none =>
    cases hlock : s.locks.grantable s.txns.beginTxn.1 (tableKey cmd.table) cmd.lockMode with
    | false => exact absurd hagree (not_agree_of_blocked hauto hcycle hlock)
    | true => exact Or.inr ⟨hlock, sameToAll_of_agree base ⟨hauto, hcycle, hlock⟩ h hagree⟩

/-! ## The in-memory store -/

theorem callsSucceed_inMemory (calls : List (EStateM Fault InMemoryStore DbError))
    (hcalls : ∀ call ∈ calls, ∀ store, ∃ mid, call.run store = .ok .sentinel mid)
    (store : InMemoryStore) : ∃ final, CallsSucceed calls store final := by
  induction calls generalizing store with
  | nil => exact ⟨store, .done⟩
  | cons call calls ih =>
    obtain ⟨mid, hmid⟩ := hcalls call List.mem_cons_self store
    obtain ⟨final, hfinal⟩ := ih (fun c hc => hcalls c (List.mem_cons_of_mem _ hc)) mid
    exact ⟨final, .next hmid rfl hfinal⟩

/-- The in-memory store serves every statement. -/
theorem storeServes_inMemory (s : Server InMemoryStore) (cmd : Command) :
    ∃ plain filled, StoreServes InMemory.provider s cmd
      (fun table => InMemory.scan s.txns.beginTxn.1 table s.store) (s.store.schemas.find cmd.table)
      plain filled := by
  have hstored : ∀ row, ∃ final, StatementStored InMemory.provider s cmd
      (fun table => InMemory.scan s.txns.beginTxn.1 table s.store) row final := by
    intro row
    obtain ⟨store, hstore⟩ := callsSucceed_inMemory (cmd.writes InMemory.provider s.txns.beginTxn.1
      (fun table => InMemory.scan s.txns.beginTxn.1 table s.store) row) (by
        unfold Command.writes
        intro call hcall store
        cases htype : cmd.type with
        | select =>
          rw [htype] at hcall
          cases hcall
        | insert =>
          rw [htype] at hcall
          rw [List.mem_singleton.1 hcall]
          exact ⟨_, rfl⟩
        | update =>
          rw [htype] at hcall
          obtain ⟨k, -, rfl⟩ := List.mem_map.1 hcall
          exact ⟨_, rfl⟩
        | delete =>
          rw [htype] at hcall
          obtain ⟨k, -, rfl⟩ := List.mem_map.1 hcall
          exact ⟨_, rfl⟩) s.store
    exact ⟨_, store, hstore, ⟨.sentinel, rfl, rfl⟩, .sentinel, rfl, rfl⟩
  obtain ⟨plain, hplain⟩ := hstored (cmd.values.getD .empty)
  obtain ⟨filled, hfilled⟩ := hstored (cmd.defaulted (s.store.schemas.find cmd.table))
  exact ⟨plain, filled, fun _ => rfl, rfl, hplain, hfilled⟩

/-- `SELECT v, * FROM t ORDER BY v LIMIT 2`. -/
def valuesUpToTwo : Command :=
  { Command.select (ascii "t") none with
    projections := [ascii "v", star], orderBy := [⟨ascii "v", .asc, none⟩], limit := some 2 }

/-- An UPDATE that finds both rows, and a SELECT all of whose clauses do nothing to them. -/
theorem agree_on_update : Agree InMemory.provider twoRowsServer raiseZeros ∧
    Agree InMemory.provider twoRowsServer valuesUpToTwo := by
  obtain ⟨plain, filled, hupdate⟩ := storeServes_inMemory twoRowsServer raiseZeros
  obtain ⟨plain', filled', hselect⟩ := storeServes_inMemory twoRowsServer valuesUpToTwo
  have hkeys : raiseZeros.keys (fun table => InMemory.scan twoRowsServer.txns.beginTxn.1 table
      twoRowsServer.store) ≠ [] := by decide +kernel
  have hidle : valuesUpToTwo.ClausesIdle fun table =>
      InMemory.scan twoRowsServer.txns.beginTxn.1 table twoRowsServer.store := by
    refine ⟨Or.inr (Or.inr (by decide +kernel)), Or.inr ⟨rfl, fun l hl => ?_⟩,
      Or.inr ⟨⟨?_, ?_⟩, ?_⟩⟩
    · -- both rows are matched
      cases hl
      decide +kernel
    · decide +kernel
    · decide +kernel
    · decide +kernel
  exact ⟨(executors_agree_iff rfl hupdate).1 (Or.inr ⟨by decide +kernel, hkeys⟩),
    (executors_agree_iff rfl hselect).1 (Or.inr ⟨by decide +kernel, hidle⟩)⟩

/-- `SELECT * FROM t LIMIT 1`. -/
def firstRow : Command := { Command.select (ascii "t") none with limit := some 1 }

/-- Only the engine loop knows LIMIT. -/
theorem limit_disagrees : ¬ Agree InMemory.provider twoRowsServer firstRow := by
  have hdiff : ∀ a ∈ (Executor.program .engineLoop firstRow).run
      (Server.handle InMemory.provider) twoRowsServer,
        ∀ b ∈ (Executor.program (.dispatcher 0) firstRow).run
          (Server.handle InMemory.provider) twoRowsServer, answersOf a ≠ answersOf b := by
    decide +kernel
  intro hagree
  obtain ⟨answers, t, u, hx, hy, -⟩ := hagree .engineLoop (.dispatcher 0)
  exact hdiff _ hx _ hy rfl

end OpenDB
