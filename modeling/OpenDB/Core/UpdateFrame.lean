import OpenDB.Core.DeleteExactness

/-!
# What an UPDATE leaves of a row

An UPDATE names some columns and should leave the others alone, in the rows that satisfy its
predicate, and leave every other row alone. The engine loop writes the SET columns and the `_id` as
the new row, so that a row keeps only the columns that the statement names. The frame holds for
exactly the updates whose rows have no columns beside these, and whose SET part does not give a row
another `_id` (`update_frame_iff`).
-/

set_option autoImplicit false

namespace OpenDB

open OpenDB.Library Exec Program InMemory

/-- The row with the SET columns changed and every other column as it was. -/
def SetColumns (values row row' : Tuple) : Prop :=
  ∀ column, row'.maybeGet column = (values.maybeGet column).or (row.maybeGet column)

/-- Rows that satisfy the predicate have their SET columns changed, the others are unchanged. -/
def UpdateFrame (values : Tuple) (predicate : Predicate) (before after : Rank → Option Tuple) :
    Prop :=
  ∀ r row, before r = some row →
    if predicate.evaluate row then ∃ row', after r = some row' ∧ SetColumns values row row'
    else after r = some row

/-- The SET part covers the columns of the row beside its `_id`, and gives it no other `_id`. -/
structure CoveredBy (values row : Tuple) : Prop where
  columns : ∀ column, column ≠ idColumn → (row.maybeGet column).isSome = true →
    (values.maybeGet column).isSome = true
  number : ∀ id ∈ values.maybeGet idColumn, row.maybeGet idColumn = some id

section

variable {s : Server InMemoryStore} {cmd : Command} {values row : Tuple} {predicate : Predicate}
  {u : UInt64} {r : Rank} {k : Value}

/-- What the engine loop writes in the place of a row is right if the SET part covers the row. -/
theorem setColumns_iff (hid : row.maybeGet idColumn = some k) :
    SetColumns values row (values.set idColumn k) ↔ CoveredBy values row := by
  constructor
  · intro h
    refine ⟨fun column hne hsome => ?_, fun id hvalue => ?_⟩
    · have hcolumn := h column
      -- a column that the statement does not name is not in the new row
      rw [Tuple.maybeGet_set, if_neg hne.symm] at hcolumn
      rw [hcolumn, Option.isSome_or, hsome, Bool.or_true]
    · -- the `_id` of the new row is the old one, whatever the statement says
      have hcolumn := h idColumn
      rw [Tuple.maybeGet_set, if_pos rfl, show values.maybeGet idColumn = some id from hvalue,
        Option.some_or] at hcolumn
      rw [hid, hcolumn]
  · rintro ⟨hcolumns, hnumber⟩ column
    rw [Tuple.maybeGet_set]
    by_cases hcolumn : idColumn = column
    · subst hcolumn
      rw [if_pos rfl]
      cases hvalue : values.maybeGet idColumn with
      | none => rw [Option.none_or, hid]
      | some id => rw [Option.some_or, ← hid, hnumber id hvalue]
    · rw [if_neg hcolumn]
      cases hvalue : values.maybeGet column with
      | some v => rw [Option.some_or]
      | none =>
        rw [Option.none_or]
        -- not named by the statement: then the row does not have it either
        cases hrow : row.maybeGet column with
        | none => rfl
        | some v =>
          have hcovered := hcolumns column (Ne.symm hcolumn) (by rw [hrow]; rfl)
          rw [hvalue] at hcovered
          cases hcovered

/-- A step that leaves every row alone keeps the frame if the matched rows have their new values. -/
theorem updateFrame_self_iff {rows : Rank → Option Tuple} :
    UpdateFrame values predicate rows rows ↔ ∀ r row, rows r = some row →
      predicate.evaluate row = true → SetColumns values row row := by
  constructor
  · intro hframe r row hr heval
    have hafter := hframe r row hr
    rw [if_pos heval] at hafter
    obtain ⟨row', hr', hset⟩ := hafter
    cases hr.symm.trans hr'
    exact hset
  · intro hrows r row hr
    split_ifs with heval
    · exact ⟨row, hr, hrows r row hr heval⟩
    · exact hr

/-- A step that writes the SET columns in the place of each matched row keeps the frame if they cover
these rows. -/
theorem updateFrame_replaced_iff {before after : Rank → Option Tuple}
    (hafter : ∀ r row, before r = some row → ∃ k, row.maybeGet idColumn = some k ∧
      after r = if predicate.evaluate row then some (values.set idColumn k) else some row) :
    UpdateFrame values predicate before after ↔ ∀ r row, before r = some row →
      predicate.evaluate row = true → CoveredBy values row := by
  constructor
  · intro hframe r row hr heval
    obtain ⟨k, hid, hr'⟩ := hafter r row hr
    have hrow := hframe r row hr
    rw [if_pos heval, hr', if_pos heval] at hrow
    obtain ⟨row', heq, hset⟩ := hrow
    cases heq
    exact (setColumns_iff hid).1 hset
  · intro hrows r row hr
    obtain ⟨k, hid, hr'⟩ := hafter r row hr
    rw [hr']
    split_ifs with heval
    · exact ⟨_, rfl, (setColumns_iff hid).2 (hrows r row hr heval)⟩
    · rfl

/-- The store after the writes of an UPDATE. -/
theorem written_update (htype : cmd.type = .update) (hpredicate : cmd.predicate = some predicate)
    (hvalues : cmd.values = some values) (txn : UInt64) (store : InMemoryStore) :
    written txn cmd store = (matchedKeys predicate (scan txn cmd.table store)).foldl
      (fun s k => InMemory.put txn cmd.table k (values.set idColumn k) s) store := by
  rw [written, htype, keysOf, hpredicate, hvalues]
  rfl

/-- A row that satisfies the predicate is replaced, any other stays. -/
theorem rowAt_afterUpdate (hstore : KeyedStore s.store) (htype : cmd.type = .update)
    (hpredicate : cmd.predicate = some predicate) (hvalues : cmd.values = some values)
    (hseq : s.nextSeq ≠ 0) (hfresh : Unstaged s.store cmd.table s.txns.beginTxn.1)
    (hu : Unstaged s.store cmd.table u) (hrow : rowAt s.store u cmd.table r = some row)
    (hid : row.maybeGet idColumn = some k) :
    rowAt (s.afterWrite cmd).store u cmd.table r =
      if predicate.evaluate row then some (values.set idColumn k) else some row := by
  have hplaceable : cmd.Placeable := Command.placeable_of_ne (by rw [htype]; exact nofun)
  have hupdate := rowWrite_update s.txns.beginTxn.1 cmd.table values
  have hown := (rowAt_eq_of_unstaged hfresh hu r).trans hrow
  rw [rowAt_afterWrite hstore hplaceable hseq hu, written_update htype hpredicate hvalues]
  cases heval : predicate.evaluate row with
  | true =>
    rw [if_pos rfl]
    exact hupdate.rowAt_matched hstore hown heval hid
  | false =>
    have hrefused : ∀ row', rowAt s.store s.txns.beginTxn.1 cmd.table r = some row' →
        predicate.evaluate row' = false := by
      intro row' hrow'
      cases hown.symm.trans hrow'
      exact heval
    rw [if_neg Bool.false_ne_true, hupdate.rowAt_unmatched hstore hrefused]
    exact hown

/-- What an UPDATE needs of a row: as a rule the SET part covers it. The transaction with the number
zero commits nothing, so that there the row has to have its new values already. -/
def Updatable (s : Server InMemoryStore) (values row : Tuple) : Prop :=
  if s.nextSeq = 0 then SetColumns values row row else CoveredBy values row

/-- An UPDATE that gets its lock keeps the frame if and only if it covers the rows it matches. -/
theorem update_frame_iff [StandardLibrary] (hstart : Startable s cmd) (htype : cmd.type = .update)
    (hpredicate : cmd.predicate = some predicate) (hvalues : cmd.values = some values)
    (hstore : KeyedStore s.store) (hfresh : Unstaged s.store cmd.table s.txns.beginTxn.1)
    (hu : Unstaged s.store cmd.table u) (hne : u ≠ s.txns.beginTxn.1) :
    ∃ answer s', (EngineLoop.dispatch cmd).run (Server.handle InMemory.provider) s =
        some (.ok answer s') ∧
      (UpdateFrame values predicate (rowAt s.store u cmd.table) (rowAt s'.store u cmd.table) ↔
        ∀ row ∈ scan u cmd.table s.store, predicate.evaluate row = true → Updatable s values row) := by
  refine ⟨_, _, EngineLoop.run_dispatch_write hstart (by rw [htype]; exact nofun), ?_⟩
  have hplaceable : cmd.Placeable := Command.placeable_of_ne (by rw [htype]; exact nofun)
  -- the rows of the scan are the rows at the positions
  have hscan : (∀ row ∈ scan u cmd.table s.store, predicate.evaluate row = true →
      Updatable s values row) ↔ ∀ r row, rowAt s.store u cmd.table r = some row →
        predicate.evaluate row = true → Updatable s values row := by
    simp only [mem_scan_iff (hstore.ordered cmd.table)]
    exact ⟨fun h r row hr => h row ⟨r, hr⟩, fun h row hr => h hr.choose row hr.choose_spec⟩
  rw [hscan]
  by_cases hseq : s.nextSeq = 0
  · have hsame : rowAt (s.afterWrite cmd).store u cmd.table = rowAt s.store u cmd.table :=
      funext fun r => rowAt_afterWrite_zero hstore hplaceable hseq hne cmd.table r
    simp only [Updatable, if_pos hseq]
    rw [hsame]
    exact updateFrame_self_iff
  · simp only [Updatable, if_neg hseq]
    -- each row that is matched has been replaced
    apply updateFrame_replaced_iff
    intro r row hr
    obtain ⟨k, hid, -⟩ := hstore.hasKey hr
    exact ⟨k, hid, rowAt_afterUpdate hstore htype hpredicate hvalues hseq hfresh hu hr hid⟩

end

/-! ### A row with two columns -/

/-- A name and an age. -/
def ageColumns (age : Int64) : Tuple :=
  (Tuple.empty.set (ascii "name") (.text (ascii "Alice"))).set (ascii "age") (.int64 age)

def alice : Tuple := (ageColumns 25).set idColumn (.int64 1)

/-- The server after `alice` has been inserted. -/
def aliceServer : Server InMemoryStore :=
  (Server.new InMemory.new).afterWrite (.insert (ascii "users") alice)

/-- `_id = 1`. -/
def idIsOne : Predicate := ⟨some (.comparison idColumn .equals (.int64 1))⟩

/-- `UPDATE users SET age = 26 WHERE _id = 1`. -/
def birthday : Command :=
  .update (ascii "users") idIsOne (Tuple.empty.set (ascii "age") (.int64 26))

theorem orderly_aliceServer : Orderly aliceServer :=
  orderly_new.afterWrite (autoCommitWrite_insert (by decide +kernel))

/-- The update of the age loses the name. -/
theorem birthday_loses_name :
    scan 3 (ascii "users") aliceServer.store = [alice] ∧ idIsOne.evaluate alice = true ∧
    ∃ answer s', (EngineLoop.dispatch birthday).run (Server.handle InMemory.provider) aliceServer =
        some (.ok answer s') ∧
      scan 3 (ascii "users") s'.store =
        [(Tuple.empty.set (ascii "age") (.int64 26)).set idColumn (.int64 1)] ∧
      ¬ UpdateFrame (Tuple.empty.set (ascii "age") (.int64 26)) idIsOne
        (rowAt aliceServer.store 3 (ascii "users")) (rowAt s'.store 3 (ascii "users")) := by
  have hrun : (EngineLoop.dispatch birthday).run (Server.handle InMemory.provider) aliceServer =
      some (.ok (.result noRows) (aliceServer.afterWrite birthday)) :=
    EngineLoop.run_dispatch_write (orderly_aliceServer.startable rfl) nofun
  refine ⟨by decide +kernel, by decide +kernel, _, _, hrun, by decide +kernel, fun hframe => ?_⟩
  have hbefore : rowAt aliceServer.store 3 (ascii "users") (Value.int64 1).rank = some alice := by
    decide +kernel
  have hafter : rowAt (aliceServer.afterWrite birthday).store 3 (ascii "users")
      (Value.int64 1).rank =
        some ((Tuple.empty.set (ascii "age") (.int64 26)).set idColumn (.int64 1)) := by
    decide +kernel
  have hrow := hframe _ alice hbefore
  rw [if_pos (by decide +kernel)] at hrow
  obtain ⟨row', hr', hset⟩ := hrow
  cases hafter.symm.trans hr'
  have hname := hset (ascii "name")
  revert hname
  decide +kernel

/-- An UPDATE of both columns keeps the frame. -/
theorem update_of_all_columns :
    ∃ answer s', (EngineLoop.dispatch (.update (ascii "users") idIsOne (ageColumns 26))).run
        (Server.handle InMemory.provider) aliceServer = some (.ok answer s') ∧
      UpdateFrame (ageColumns 26) idIsOne (rowAt aliceServer.store 3 (ascii "users"))
        (rowAt s'.store 3 (ascii "users")) := by
  have hs := orderly_aliceServer
  have hstart : Startable aliceServer (.update (ascii "users") idIsOne (ageColumns 26)) :=
    hs.startable rfl
  obtain ⟨answer, s', hrun, hframe⟩ := update_frame_iff (u := 3) hstart rfl rfl rfl hs.store
    (hs.unstaged (by decide +kernel)) (hs.unstaged (by decide)) (by decide +kernel)
  refine ⟨answer, s', hrun, hframe.2 fun row hrow _ => ?_⟩
  have hscan : scan 3 (ascii "users") aliceServer.store = [alice] := by decide +kernel
  rw [show row = alice from List.mem_singleton.1 (hscan ▸ hrow), Updatable,
    if_neg (by decide +kernel)]
  refine ⟨fun column hne hsome => ?_, fun id hid => ?_⟩
  · rw [alice, Tuple.maybeGet_set, if_neg hne.symm] at hsome
    rw [ageColumns, Tuple.maybeGet_set, Tuple.maybeGet_set] at hsome ⊢
    split_ifs at hsome ⊢ <;> first | rfl | exact hsome
  · have hnone : (ageColumns 26).maybeGet idColumn = none := by decide +kernel
    rw [show (ageColumns 26).maybeGet idColumn = some id from hid] at hnone
    cases hnone

end OpenDB
