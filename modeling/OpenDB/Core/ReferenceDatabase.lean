import OpenDB.Core.ReplRun
import OpenDB.Core.SelectMeaning
import OpenDB.Library.KeyedTable
import OpenDB.Storage.KeyCounter

/-!
# The database that the engine loop shows

Behind the engine loop there are transactions, locks, version chains, tombstones and commit numbers. A
client sees none of them: the answers are those of a database of plain tables (`Database`), in which a
statement is one function. An INSERT puts a row in the place of its `_id`, an UPDATE replaces rows one by
one, a DELETE filters, and a SELECT has any answer that its clauses allow (`Command.Selects`).

The tables speak the dialect of the engine loop. An UPDATE leaves a row only its `_id` and the columns it
sets; a condition of a join looks its first name up in the rows so far and its second one in the joined
table; ORDER BY sorts the rows as they are shown, in any order that it allows; and a LIMIT whose sum with
the OFFSET does not fit into 64 bits leaves no row.

`engine_loop_refines` says so of every run of commands that the loop commits itself, as long as the
commit numbers do not come back to zero. The commands of the line-based front end are all of that kind,
so that `repl_refines` says it of every input of lines.
-/

set_option autoImplicit false

namespace OpenDB

open OpenDB.Library Exec Program InMemory

/-! ## Plain tables -/

/-- The position of a row: the rank of its `_id`. -/
def idRank (row : Tuple) : Rank := ((row.maybeGet idColumn).getD .null).rank

/-- The tables and the last number that each has given out. -/
structure Database where
  tables : Bytes → KeyedTable idRank
  numbers : Bytes → UInt64

/-- What an UPDATE makes of a row: the columns it sets and the `_id`. -/
def updatedRow (predicate : Predicate) (values row : Tuple) : Tuple :=
  if predicate.evaluate row then values.set idColumn ((row.maybeGet idColumn).getD .null) else row

theorem idRank_updatedRow (predicate : Predicate) (values row : Tuple) :
    idRank (updatedRow predicate values row) = idRank row := by
  unfold updatedRow
  split_ifs
  · rw [idRank, Tuple.maybeGet_set, if_pos rfl]
    rfl
  · rfl

namespace Database

def empty : Database := ⟨fun _ => .empty idRank, fun _ => 0⟩

/-- The row that an INSERT stores: without an `_id` it gets the next number of the table. -/
def numbered (db : Database) (table : Bytes) (row : Tuple) : Tuple :=
  if (insertKey row).isNull then row.set idColumn (nextKey (db.numbers table)) else row

def insert (db : Database) (table : Bytes) (row : Tuple) : Database where
  tables := Function.update db.tables table ((db.tables table).insert (db.numbered table row))
  numbers :=
    if (insertKey row).isNull then Function.update db.numbers table (db.numbers table + 1)
    else db.numbers

def update (db : Database) (table : Bytes) (predicate : Predicate) (values : Tuple) : Database where
  tables := Function.update db.tables table
    ((db.tables table).map (updatedRow predicate values) (idRank_updatedRow predicate values))
  numbers := db.numbers

def delete (db : Database) (table : Bytes) (predicate : Predicate) : Database where
  tables := Function.update db.tables table
    ((db.tables table).filter fun row => !predicate.evaluate row)
  numbers := db.numbers

def rows (db : Database) (table : Bytes) : List Tuple := (db.tables table).rows

/-- The database after a statement; an UPDATE and a DELETE have a predicate. -/
def after (db : Database) (cmd : Command) : Database :=
  let row := cmd.values.getD .empty
  let predicate := cmd.predicate.getD ⟨none⟩
  match cmd.type with
  | .select => db
  | .insert => db.insert cmd.table row
  | .update => db.update cmd.table predicate row
  | .delete => db.delete cmd.table predicate

/-- What a statement may be answered with. -/
inductive Answers (db : Database) (cmd : Command) : ResultSet → Prop
  | selected {out : List Tuple} (htype : cmd.type = .select) (hrows : cmd.Selects db.rows out) :
      Answers db cmd ⟨true, out⟩
  | written (htype : cmd.type ≠ .select) : Answers db cmd noRows

/-- One statement after the other. -/
def run (cmds : List Command) (db : Database) : Database := cmds.foldl after db

/-- What a run of statements may be answered with. -/
inductive Replies : List Command → Database → List ResultSet → Prop
  | nil {db : Database} : Replies [] db []
  | cons {cmd : Command} {cmds : List Command} {db : Database} {answer : ResultSet}
      {answers : List ResultSet} (hanswer : db.Answers cmd answer)
      (hrest : Replies cmds (db.after cmd) answers) : Replies (cmd :: cmds) db (answer :: answers)

end Database

/-! ## The rows of the engine -/

section

variable {s : Server InMemoryStore} {store : InMemoryStore} {db : Database} {cmd : Command}
  {txn u : UInt64} {table : Bytes} {r : Rank}

/-- The store shows the tables of the database to every reader, and has given out the same numbers. -/
structure Tabulates (store : InMemoryStore) (db : Database) : Prop where
  keyed : KeyedStore store
  rows : ∀ u, u ≠ 0 → ∀ table r, rowAt store u table r = (db.tables table).find r
  numbers : ∀ table, counter store table = db.numbers table

theorem tabulates_new : Tabulates InMemory.new .empty :=
  ⟨KeyedStore.new, fun _ _ _ _ => rfl, fun _ => rfl⟩

/-- The scans are the rows of the tables. -/
theorem Tabulates.scan_eq (h : Tabulates store db) (hu : u ≠ 0) (table : Bytes) :
    scan u table store = (db.tables table).rows := by
  have hrows : rowAt store u table = (db.tables table).find := funext (h.rows u hu table)
  rw [scan_eq_filterMap (h.keyed.ordered table) (List.pairwise_map.2 (db.tables table).sorted),
    hrows, KeyedTable.filterMap_find]
  intro r hr
  rw [hrows] at hr
  exact KeyedTable.key_mem_of_find hr

/-- The scans of a server find the rows of the database. -/
theorem Tabulates.shows [StandardLibrary] {t : Server InMemoryStore} (h : Tabulates t.store db)
    (htxn : txn ≠ 0) : EngineLoop.Shows InMemory.provider t txn db.rows := by
  intro table
  rw [Database.rows, ← h.scan_eq htxn]
  rfl

/-! ## Writes -/

/-- A statement that goes through the rows one by one: what it leaves at a position depends on the row
there. -/
theorem InMemory.RowWrite.rowAt_statement {f : InMemoryStore → Value → InMemoryStore}
    {g : Value → Option Tuple} (hf : RowWrite txn table f g) {store : InMemoryStore}
    (h : KeyedStore store) (predicate : Predicate) (r : Rank) :
    rowAt ((matchedKeys predicate (scan txn table store)).foldl f store) txn table r =
      (rowAt store txn table r).bind fun row =>
        if predicate.evaluate row then g ((row.maybeGet idColumn).getD .null) else some row := by
  cases hrow : rowAt store txn table r with
  | none =>
    rw [hf.rowAt_unmatched h, hrow, Option.bind_none]
    intro row hsome
    cases hrow.symm.trans hsome
  | some row =>
    rw [Option.bind_some]
    split_ifs with heval
    · -- the row is found again by the `_id` it stands under
      obtain ⟨id, hid, -⟩ := h.hasKey hrow
      rw [hf.rowAt_matched h hrow heval hid, hid, Option.getD_some]
    · rw [hf.rowAt_unmatched h, hrow]
      intro row' hsome
      cases hrow.symm.trans hsome
      exact Bool.eq_false_iff.2 heval

/-- The rows after an INSERT. -/
theorem Tabulates.rowAt_insert (h : Tabulates store db) (hu : u ≠ 0) {row : Tuple}
    (hid : ∀ id ∈ row.maybeGet idColumn, id.isNaN = false) (r : Rank) :
    rowAt (put u table (insertKey row) row store) u table r =
      ((db.tables table).insert (db.numbered table row)).find r := by
  have hordered := h.keyed.ordered table
  rw [KeyedTable.find_insert, ← h.rows u hu]
  cases hnull : (insertKey row).isNull with
  | true =>
    have hrow : db.numbered table row = row.set idColumn (nextKey (counter store table)) := by
      rw [Database.numbered, if_pos hnull, h.numbers]
    have hrank : idRank (db.numbered table row) = (nextKey (counter store table)).rank := by
      rw [hrow, idRank, Tuple.maybeGet_set, if_pos rfl]
      rfl
    have hpush := rowAt_pushRow (s := { store with
      autoId := store.autoId.assign table (counter store table + 1) })
      (v := ⟨0, u, row.set idColumn (nextKey (counter store table)), false⟩) hordered
      (rfl : (nextKey (counter store table)).isNaN = false) rfl u table r
    simp only [true_and, and_true] at hpush
    rw [put_assigned hnull, hrank, hrow]
    by_cases hr : r = (nextKey (counter store table)).rank
    · rw [if_pos hr] at hpush ⊢
      exact hpush
    · rw [if_neg hr] at hpush ⊢
      exact hpush
  | false =>
    -- the row brings its `_id` along
    have hmaybe := maybeGet_of_insertKey hnull
    have hrow : db.numbered table row = row := by
      rw [Database.numbered, hnull]
      rfl
    have hrank : idRank row = (insertKey row).rank := by
      rw [idRank, hmaybe]
      rfl
    rw [put_explicit hnull, rowAt_pushRow hordered (hid _ hmaybe) rfl, hrow, hrank]
    simp only [true_and, and_true]
    split_ifs <;> rfl

/-! ## Statements -/

/-- The row of an INSERT, also of one without values. -/
theorem Command.Placeable.values (hcmd : cmd.Placeable) (htype : cmd.type = .insert) :
    ∀ id ∈ (cmd.values.getD .empty).maybeGet idColumn, id.isNaN = false := by
  cases hvalues : cmd.values with
  | none =>
    intro id hid
    cases hid
  | some row => exact hcmd htype row hvalues

/-- A statement leaves the other tables alone. -/
theorem Database.tables_after_of_ne (db : Database) (hne : table ≠ cmd.table) :
    (db.after cmd).tables table = db.tables table := by
  unfold Database.after
  cases cmd.type with
  | select => rfl
  | insert => exact Function.update_of_ne hne _ _
  | update => exact Function.update_of_ne hne _ _
  | delete => exact Function.update_of_ne hne _ _

/-- The transaction of a statement sees what the statement makes of the table. -/
theorem Tabulates.rowAt_written_self (h : Tabulates store db)
    (hcmd : cmd.Placeable) (hu : u ≠ 0) (r : Rank) : rowAt (written u cmd store) u cmd.table r =
    ((db.after cmd).tables cmd.table).find r := by
  have hvalid := cmd.valid
  unfold Database.after
  cases htype : cmd.type with
  | select =>
    have hwritten : written u cmd store = store := by rw [written, htype]
    rw [hwritten]
    exact h.rows u hu cmd.table r
  | insert =>
    have hwritten : written u cmd store =
        put u cmd.table (insertKey (cmd.values.getD .empty)) (cmd.values.getD .empty) store := by
      rw [written, htype]
    dsimp only [Database.insert]
    rw [hwritten, Function.update_self, h.rowAt_insert hu (hcmd.values htype)]
  | update =>
    rw [htype] at hvalid
    obtain ⟨predicate, hpredicate⟩ := Option.isSome_iff_exists.1 hvalid.1
    dsimp only [Database.update]
    rw [written, htype, keysOf, hpredicate, Function.update_self, KeyedTable.find_map]
    refine ((rowWrite_update u cmd.table _).rowAt_statement h.keyed predicate r).trans ?_
    rw [h.rows u hu]
    cases (db.tables cmd.table).find r with
    | none => rfl
    | some row =>
      rw [Option.bind_some, Option.map_some, updatedRow]
      exact (apply_ite some _ _ _).symm
  | delete =>
    rw [htype] at hvalid
    obtain ⟨predicate, hpredicate⟩ := Option.isSome_iff_exists.1 hvalid.1
    dsimp only [Database.delete]
    rw [written, htype, keysOf, hpredicate, Function.update_self, KeyedTable.find_filter]
    refine ((rowWrite_remove u cmd.table).rowAt_statement h.keyed predicate r).trans ?_
    rw [h.rows u hu]
    cases (db.tables cmd.table).find r with
    | none => rfl
    | some row =>
      rw [Option.bind_some, Option.filter_some, Option.getD_some]
      cases predicate.evaluate row <;> rfl

theorem Tabulates.rowAt_written (h : Tabulates store db) (hcmd : cmd.Placeable)
    (hu : u ≠ 0) (table : Bytes) (r : Rank) : rowAt (written u cmd store) u table r =
    ((db.after cmd).tables table).find r := by
  by_cases hne : table = cmd.table
  · subst hne
    exact h.rowAt_written_self hcmd hu r
  · have hw : Writes u cmd.table store (written u cmd store) := writes_written h.keyed hcmd
    rw [hw.rowAt_of_ne h.keyed (Or.inr hne), db.tables_after_of_ne hne]
    exact h.rows u hu table r

/-- Writes to keys that are not null give out no number. -/
theorem counter_foldl {f : InMemoryStore → Value → InMemoryStore} {keys : List Value}
    (hf : ∀ k ∈ keys, ∀ store, counter (f store k) table = counter store table)
    (store : InMemoryStore) : counter (keys.foldl f store) table = counter store table := by
  induction keys generalizing store with
  | nil => rfl
  | cons k keys ih =>
    rw [List.foldl_cons, ih fun k' hk' => hf k' (List.mem_cons_of_mem _ hk')]
    exact hf k List.mem_cons_self store

theorem counter_put (txn : UInt64) (key : Value) (row : Tuple) (store : InMemoryStore) (t : Bytes) :
    counter (put txn table key row store) t =
      if key.isNull = true ∧ t = table then counter store table + 1 else counter store t := by
  cases hnull : key.isNull with
  | true =>
    rw [put_assigned hnull]
    show ((store.autoId.assign table (counter store table + 1)).find t).getD 0 = _
    by_cases ht : t = table
    · rw [if_pos ⟨rfl, ht⟩, ht, AssocMap.find_assign_self]
      rfl
    · rw [if_neg fun hall => ht hall.2, AssocMap.find_assign_of_ne _ _ ht]
      rfl
  | false =>
    rw [put_explicit hnull, if_neg fun hall => Bool.false_ne_true hall.1]
    rfl

theorem Tabulates.counter_written (h : Tabulates store db) (table : Bytes) :
    counter (written u cmd store) table = (db.after cmd).numbers table := by
  unfold written Database.after
  cases cmd.type with
  | select => exact h.numbers table
  | insert =>
    dsimp only [Database.insert]
    rw [counter_put, h.numbers, h.numbers]
    by_cases ht : table = cmd.table
    · subst ht
      split_ifs with hnull hkey hkey
      · rw [Function.update_self]
      · exact absurd hnull.1 hkey
      · exact absurd ⟨hkey, rfl⟩ hnull
      · rfl
    · rw [if_neg fun hall => ht hall.2]
      split_ifs
      · rw [Function.update_of_ne ht]
      · rfl
  | update =>
    refine (counter_foldl (fun k hk store => ?_) store).trans (h.numbers table)
    -- the keys are `_id`s of rows, of which none is null
    have hnull : k.isNull = false := by
      unfold keysOf at hk
      cases hpredicate : cmd.predicate with
      | none =>
        rw [hpredicate] at hk
        cases hk
      | some predicate =>
        rw [hpredicate] at hk
        exact (h.keyed.matched_position hk).1.1
    rw [counter_put, hnull, if_neg fun hall => Bool.false_ne_true hall.1]
  | delete =>
    exact (counter_foldl (f := fun store k => remove u cmd.table k store) (fun _ _ _ => rfl)
      store).trans (h.numbers table)

/-- Once they are committed, the writes of a statement are what it makes of the tables. -/
theorem Tabulates.commit (h : Tabulates store db)
    (hunstaged : ∀ u, u ≠ 0 → ∀ table, Unstaged store table u) (hcmd : cmd.Placeable) (htxn : txn ≠ 0)
    {seq : UInt64} (hseq : seq ≠ 0) :
    Tabulates (InMemory.commit txn seq (written txn cmd store)) (db.after cmd) := by
  have hw : Writes txn cmd.table store (written txn cmd store) := writes_written h.keyed hcmd
  have hkeyed := h.keyed.writes hw
  refine ⟨hkeyed.commit txn seq, fun u hu table r => ?_, fun table => h.counter_written table⟩
  rw [← h.rowAt_written hcmd htxn]
  apply rowAt_commit hkeyed hseq
  by_cases hown : u = txn
  · exact Or.inl hown
  · exact Or.inr ((hunstaged u hu table).writes h.keyed hw hown)

/-! ## Numbers that do not come back to zero -/

theorem toNat_succ {n : UInt64} (h : n.toNat + 1 < 2 ^ 64) : (n + 1).toNat = n.toNat + 1 := by
  rw [UInt64.toNat_add]
  exact Nat.mod_eq_of_lt h

theorem succ_ne_zero {n : UInt64} (h : n.toNat + 1 < 2 ^ 64) : n + 1 ≠ 0 := by
  intro hzero
  have hnext := toNat_succ h
  rw [hzero] at hnext
  cases hnext

/-! ## The engine loop -/

/-- What holds between two commands of the engine loop. -/
structure Reflects (s : Server InMemoryStore) (db : Database) : Prop where
  orderly : Orderly s
  tabulates : Tabulates s.store db

theorem reflects_new : Reflects (Server.new InMemory.new) .empty := ⟨orderly_new, tabulates_new⟩

theorem Reflects.afterCommand (h : Reflects s db) (hcmd : cmd.Placeable) (hseq : s.nextSeq ≠ 0) :
    Reflects (s.afterWrite cmd) (db.after cmd) :=
  ⟨h.orderly.afterCommand hcmd, h.tabulates.commit (fun _ hu _ => h.orderly.unstaged hu) hcmd
    (h.orderly.beginTxn_ne_zero hseq) hseq⟩

variable [StandardLibrary]

/-- The engine loop answers a statement as the database may. -/
theorem Reflects.run_dispatch (h : Reflects s db) (hauto : cmd.txnId = none) (hseq : s.nextSeq ≠ 0) :
    ∃ rs, (EngineLoop.dispatch cmd).run (Server.handle InMemory.provider) s =
      some (.ok (.result rs) (s.afterWrite cmd)) ∧ db.Answers cmd rs := by
  have htxn := h.orderly.beginTxn_ne_zero hseq
  have hstart : Startable s cmd := h.orderly.startable hauto
  by_cases htype : cmd.type = .select
  · have hread : written s.txns.beginTxn.1 cmd s.store = s.store := by
      rw [written, htype]
    have hshows : EngineLoop.Shows InMemory.provider (s.started cmd) s.txns.beginTxn.1 db.rows :=
      Tabulates.shows (t := s.started cmd) h.tabulates htxn
    -- the transaction of a SELECT reads, and leaves the store as it is
    have hexecute : (EngineLoop.execute s.txns.beginTxn.1 cmd).run (Server.handle InMemory.provider)
        (s.started cmd) = some (.ok (some ⟨true, EngineLoop.window cmd.offset cmd.limit
          (EngineLoop.orderRows cmd.orderBy (EngineLoop.matchedFrom db.rows cmd))⟩, none)
            { s.started cmd with store := written s.txns.beginTxn.1 cmd s.store }) := by
      rw [EngineLoop.execute, htype, hread]
      exact run_bind_ok (EngineLoop.run_selectRows hshows cmd)
    exact ⟨_, EngineLoop.run_dispatch_result hstart hexecute,
      .selected htype (EngineLoop.selects_of_tables db.rows cmd)⟩
  · exact ⟨noRows, EngineLoop.run_dispatch_write hstart htype, .written htype⟩

/-- A run of statements. -/
theorem Reflects.run (h : Reflects s db) {cmds : List Command}
    (hcmds : ∀ cmd ∈ cmds, cmd.txnId = none ∧ cmd.Placeable)
    (hcount : s.txns.commitSeq.toNat + cmds.length < 2 ^ 64) :
    ∃ answers s', (EngineLoop.run cmds).run (Server.handle InMemory.provider) s =
        some (.ok (answers.map .result) s') ∧
      Database.Replies cmds db answers ∧ Reflects s' (Database.run cmds db) := by
  induction cmds generalizing s db with
  | nil => exact ⟨[], s, rfl, .nil, h⟩
  | cons cmd cmds ih =>
    obtain ⟨hauto, hcmd⟩ := hcmds cmd List.mem_cons_self
    rw [List.length_cons] at hcount
    have hfits : s.txns.commitSeq.toNat + 1 < 2 ^ 64 := by omega
    have hseq : s.nextSeq ≠ 0 := succ_ne_zero hfits
    -- the statement has taken one number
    have hnumber : (s.afterWrite cmd).txns.commitSeq.toNat = s.txns.commitSeq.toNat + 1 :=
      (congrArg UInt64.toNat (TransactionManager.commitTxn_beginTxn s.txns).1).trans (toNat_succ hfits)
    obtain ⟨answer, hdispatch, hanswer⟩ := h.run_dispatch hauto hseq
    obtain ⟨answers, s', hrun, hanswers, hs'⟩ := ih (h.afterCommand hcmd hseq)
      (fun c hc => hcmds c (List.mem_cons_of_mem _ hc)) (by rw [hnumber]; omega)
    refine ⟨answer :: answers, s', ?_, .cons hanswer hanswers, hs'⟩
    rw [EngineLoop.run, run_bind_ok hdispatch, run_bind_ok hrun]
    rfl

end

/-- Over any run of statements that the engine loop commits itself, its answers are such as a database of
plain tables may give, and every scan afterwards has the rows of the table. -/
theorem engine_loop_refines [StandardLibrary] {cmds : List Command}
    (hcmds : ∀ cmd ∈ cmds, cmd.txnId = none ∧ cmd.Placeable) (hcount : cmds.length < 2 ^ 64) :
    ∃ answers s, (EngineLoop.run cmds).run (Server.handle InMemory.provider)
        (Server.new InMemory.new) = some (.ok (answers.map .result) s) ∧
      Database.Replies cmds .empty answers ∧
      ∀ u, u ≠ 0 → ∀ table, scan u table s.store = ((Database.run cmds .empty).tables table).rows := by
  obtain ⟨answers, s, hrun, hanswers, hs⟩ := reflects_new.run hcmds (by
    show 0 + cmds.length < 2 ^ 64
    omega)
  exact ⟨answers, s, hrun, hanswers, fun u hu table => hs.tabulates.scan_eq hu table⟩

/-- Two rows get numbers and a third has one, the first is deleted, and what is left is shown together
with itself, the largest `v` first and only one row of it. -/
def numberedRows : List Command :=
  [.insert (ascii "t") (Tuple.empty.set (ascii "v") (.int64 0)),
    .insert (ascii "t") (Tuple.empty.set (ascii "v") (.int64 5)),
    .insert (ascii "u") ((Tuple.empty.set idColumn (.int64 7)).set (ascii "w") (.int64 2)),
    .delete (ascii "t") (valueIs 0),
    { Command.select (ascii "t") none with
      joins := [⟨.left, ascii "u", ascii "t._id", ascii "u.w"⟩]
      orderBy := [⟨ascii "t.v", .desc, none⟩]
      limit := some 1 }]

theorem numberedRows_refine :
    ∃ answers s, (EngineLoop.run numberedRows).run (Server.handle InMemory.provider)
        (Server.new InMemory.new) = some (.ok (answers.map .result) s) ∧
      Database.Replies numberedRows .empty answers ∧
      (∀ u, u ≠ 0 → scan u (ascii "t") s.store =
        [(Tuple.empty.set (ascii "v") (.int64 5)).set idColumn (.int64 2)]) := by
  have hcmds : ∀ cmd ∈ numberedRows, cmd.txnId = none ∧ cmd.Placeable := by
    intro cmd hcmd
    simp only [numberedRows, List.mem_cons, List.not_mem_nil, or_false] at hcmd
    rcases hcmd with rfl | rfl | rfl | rfl | rfl
    · exact ⟨rfl, (autoCommitWrite_insert (by decide +kernel)).number⟩
    · exact ⟨rfl, (autoCommitWrite_insert (by decide +kernel)).number⟩
    · exact ⟨rfl, (autoCommitWrite_insert (by decide +kernel)).number⟩
    · exact ⟨rfl, (autoCommitWrite_delete _ _).number⟩
    · exact ⟨rfl, Command.placeable_of_ne (by decide)⟩
  obtain ⟨answers, s, hrun, hanswers, hscan⟩ := engine_loop_refines hcmds (by decide)
  exact ⟨answers, s, hrun, hanswers, fun u hu => (hscan u hu (ascii "t")).trans (by decide +kernel)⟩

/-! ## Lines -/

namespace ReplSource

/-- The commands up to the first line that is none, and the lines behind that one. -/
def session : List Bytes → List Command × List Bytes
  | [] => ([], [])
  | line :: rest =>
    match lineCommand line with
    | none => ([], rest)
    | some cmd => (cmd :: (session rest).1, (session rest).2)

theorem runRepl_session [StandardLibrary] (lines : List Bytes) :
    EngineLoop.runRepl lines = do
      let answers ← EngineLoop.run (session lines).1
      return (answers, (session lines).2) := by
  unfold EngineLoop.runRepl
  induction lines with
  | nil => rfl
  | cons line rest ih =>
    rw [session]
    cases hcommand : lineCommand line with
    | none =>
      rw [EngineLoop.runSource_none hcommand]
      rfl
    | some cmd =>
      rw [EngineLoop.runSource_some hcommand, ih]
      simp [EngineLoop.run]

theorem length_session_le (lines : List Bytes) : (session lines).1.length ≤ lines.length := by
  induction lines with
  | nil => exact le_rfl
  | cons line rest ih =>
    rw [session]
    cases lineCommand line with
    | none => exact Nat.zero_le _
    | some cmd => exact Nat.succ_le_succ ih

/-! ### Literals are no NaN -/

theorem isNaN_parseValueLit (vlit : Bytes) : (parseValueLit vlit).isNaN = false := by
  unfold parseValueLit
  split_ifs
  · rfl
  · rfl
  · rfl
  · rfl
  · cases stoll vlit with
    | none => rfl
    | some number =>
      dsimp only
      split_ifs <;> rfl

/-- Every value of the row can be placed. -/
def AllPlaceable (row : Tuple) : Prop :=
  ∀ column, ∀ v ∈ row.maybeGet column, v.isNaN = false

theorem allPlaceable_empty : AllPlaceable .empty := by
  intro column v hv
  cases hv

theorem allPlaceable_parseEntries (entries : List Bytes) {t : Tuple} (h : AllPlaceable t) :
    AllPlaceable (parseEntries t entries) := by
  induction entries generalizing t with
  | nil => exact h
  | cons entry entries ih =>
    rw [parseEntries]
    cases hentry : parseEntry entry with
    | none => exact allPlaceable_empty
    | some named =>
      obtain ⟨name, value⟩ := named
      have hvalue : value.isNaN = false := by
        unfold parseEntry at hentry
        cases hfind : findFrom [58] entry 0 with
        | none =>
          rw [hfind] at hentry
          cases hentry
        | some colon =>
          rw [hfind] at hentry
          cases hentry
          exact isNaN_parseValueLit _
      refine ih fun column v hv => ?_
      rw [Tuple.maybeGet_set] at hv
      split_ifs at hv
      · cases hv
        exact hvalue
      · exact h column v hv

theorem allPlaceable_parseTupleLit (lit : Bytes) : AllPlaceable (parseTupleLit lit) := by
  unfold parseTupleLit
  split_ifs
  · exact allPlaceable_empty
  · exact allPlaceable_parseEntries _ allPlaceable_empty

/-- A line is an INSERT of a tuple literal or a SELECT. -/
theorem insert_or_select_of_line {line : Bytes} {cmd : Command} (h : lineCommand line = some cmd) :
    (∃ table lit, cmd = .insert table (parseTupleLit lit)) ∨
      ∃ table predicate, cmd = .select table predicate := by
  unfold lineCommand parse at h
  dsimp only at h
  split_ifs at h
  cases hword : nextWord (trim line) with
  | none =>
    rw [hword] at h
    cases h
  | some word =>
    rw [hword] at h
    dsimp only at h
    split_ifs at h with hinsert hliteral hempty hempty hselect
    · exact Or.inl ⟨_, _, (Option.some.inj h).symm⟩
    · exact Or.inl ⟨_, _, (Option.some.inj h).symm⟩
    · cases hnext : nextWord ((nextWord word.2).getD ([], [])).2 with
      | none =>
        rw [hnext] at h
        exact Or.inr ⟨_, _, (Option.some.inj h).symm⟩
      | some next =>
        rw [hnext] at h
        dsimp only at h
        split_ifs at h <;> exact Or.inr ⟨_, _, (Option.some.inj h).symm⟩

theorem placeable_of_lineCommand {line : Bytes} {cmd : Command} (h : lineCommand line = some cmd) :
    cmd.txnId = none ∧ cmd.Placeable := by
  rcases insert_or_select_of_line h with ⟨table, lit, rfl⟩ | ⟨table, predicate, rfl⟩
  · exact ⟨rfl, (autoCommitWrite_insert (allPlaceable_parseTupleLit lit idColumn)).number⟩
  · exact ⟨rfl, Command.placeable_of_ne nofun⟩

theorem placeable_of_mem_session {lines : List Bytes} {cmd : Command}
    (h : cmd ∈ (session lines).1) : cmd.txnId = none ∧ cmd.Placeable := by
  induction lines with
  | nil => cases h
  | cons line rest ih =>
    rw [session] at h
    cases hcommand : lineCommand line with
    | none =>
      rw [hcommand] at h
      cases h
    | some first =>
      rw [hcommand] at h
      rcases List.mem_cons.1 h with rfl | h
      · exact placeable_of_lineCommand hcommand
      · exact ih h

end ReplSource

/-- The answers to INSERTs and to SELECTs that have no clause but WHERE. -/
def Database.shown : List Command → Database → List ResultSet
  | [], _ => []
  | cmd :: cmds, db =>
    let answer :=
      match cmd.type with
      | .select => ⟨true, (db.rows cmd.table).filter fun row => cmd.Wants row⟩
      | _ => noRows
    answer :: shown cmds (db.after cmd)

/-- Such statements have no other answers. -/
theorem Database.Replies.eq_shown {cmds : List Command} {db : Database} {answers : List ResultSet}
    (h : Database.Replies cmds db answers)
    (hcmds : ∀ cmd ∈ cmds, cmd.type ≠ .select ∨ ∃ table predicate, cmd = .select table predicate) :
    answers = Database.shown cmds db := by
  induction h with
  | nil => rfl
  | @cons cmd cmds db answer answers hanswer _ ih =>
    rw [Database.shown, ih fun c hc => hcmds c (List.mem_cons_of_mem _ hc)]
    refine congrArg (· :: _) ?_
    cases hanswer with
    | selected htype hrows =>
      obtain ⟨table, predicate, rfl⟩ :=
        (hcmds cmd List.mem_cons_self).resolve_left fun hne => hne htype
      rw [Command.eq_filter_of_selects hrows]
      rfl
    | written htype =>
      cases hcase : cmd.type with
      | select => exact absurd hcase htype
      | _ => rfl

theorem ReplSource.plain_of_mem_session {lines : List Bytes} {cmd : Command}
    (h : cmd ∈ (ReplSource.session lines).1) :
    cmd.type ≠ .select ∨ ∃ table predicate, cmd = .select table predicate := by
  induction lines with
  | nil => cases h
  | cons line rest ih =>
    rw [session] at h
    cases hcommand : lineCommand line with
    | none =>
      rw [hcommand] at h
      cases h
    | some first =>
      rw [hcommand] at h
      rcases List.mem_cons.1 h with rfl | h
      · rcases insert_or_select_of_line hcommand with ⟨table, lit, rfl⟩ | hselect
        · exact Or.inl (by simp [Command.insert])
        · exact Or.inr hselect
      · exact ih h

/-- Whatever the lines are: up to the first that is no command they are answered as by a database of
plain tables, and those behind it are not read. -/
theorem repl_refines [StandardLibrary] {lines : List Bytes} (hcount : lines.length < 2 ^ 64) :
    ∃ s, (EngineLoop.runRepl lines).run (Server.handle InMemory.provider)
        (Server.new InMemory.new) =
          some (.ok ((Database.shown (ReplSource.session lines).1 .empty).map .result,
            (ReplSource.session lines).2) s) ∧
      ∀ u, u ≠ 0 → ∀ table, scan u table s.store =
        ((Database.run (ReplSource.session lines).1 .empty).tables table).rows := by
  have hlength := ReplSource.length_session_le lines
  obtain ⟨answers, s, hrun, hanswers, hs⟩ :=
    reflects_new.run (fun cmd => ReplSource.placeable_of_mem_session) (by
      show 0 + (ReplSource.session lines).1.length < 2 ^ 64
      omega)
  obtain rfl := hanswers.eq_shown fun cmd => ReplSource.plain_of_mem_session
  refine ⟨s, ?_, fun u hu table => hs.tabulates.scan_eq hu table⟩
  rw [ReplSource.runRepl_session, run_bind_ok hrun]
  rfl

/-- The third row takes the place of the first. The front end knows no DELETE, and the line ends the
session. -/
def replLines : List Bytes :=
  [ascii "INSERT t \x7b_id:1,v:a\x7d", ascii "INSERT t \x7b_id:2,v:b\x7d", ascii "INSERT t \x7b_id:1,v:c\x7d",
    ascii "SELECT t", ascii "DELETE t", ascii "SELECT t"]

theorem replLines_refine :
    Database.shown (ReplSource.session replLines).1 .empty = [noRows, noRows, noRows,
      ⟨true, [(Tuple.empty.set idColumn (.int64 1)).set (ascii "v") (.text (ascii "c")),
        (Tuple.empty.set idColumn (.int64 2)).set (ascii "v") (.text (ascii "b"))]⟩] ∧
    (ReplSource.session replLines).2 = [ascii "SELECT t"] ∧
    ∃ s, (EngineLoop.runRepl replLines).run (Server.handle InMemory.provider)
        (Server.new InMemory.new) =
          some (.ok ((Database.shown (ReplSource.session replLines).1 .empty).map .result,
            (ReplSource.session replLines).2) s) ∧
      ∀ u, u ≠ 0 → ∀ table, scan u table s.store =
        ((Database.run (ReplSource.session replLines).1 .empty).tables table).rows :=
  ⟨by decide +kernel, by decide +kernel, repl_refines (by decide)⟩

end OpenDB
