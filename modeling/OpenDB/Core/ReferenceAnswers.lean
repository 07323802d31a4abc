import OpenDB.Core.ReferenceDatabase

/-!
# Answers about one table

The dispatcher and the HTTP front end run a statement alike. A SELECT reads its own table only and looks
at no clause behind WHERE, and an UPDATE or DELETE that finds no row is answered with an error, which
says that nothing was written. `Database.answer` is what the tables have to say to such a statement.
-/

set_option autoImplicit false

namespace OpenDB

open OpenDB.Library Exec Program InMemory

/-! ## The answers -/

namespace Database

/-- Some row satisfies the predicate of the command. -/
def finds (db : Database) (cmd : Command) : Bool :=
  (db.tables cmd.table).rows.any fun row => cmd.predicate.any fun p => p.evaluate row

/-- The rows of the table; what stands behind WHERE is not looked at, and a star in a longer list stands
for nothing. -/
def selectPlain (db : Database) (cmd : Command) : List Tuple := cmd.alone db.rows

def answer (db : Database) (cmd : Command) : Response :=
  match cmd.type with
  | .select => .result ⟨true, db.selectPlain cmd⟩
  | .insert => .result noRows
  | .update =>
    if db.finds cmd then .result noRows
    else .error (.notFound (ascii "no matching rows to update"))
  | .delete =>
    if db.finds cmd then .result noRows
    else .error (.notFound (ascii "no matching rows to delete"))

end Database

section

variable {store : InMemoryStore} {t : Server InMemoryStore} {db : Database} {cmd : Command}
  {txn u : UInt64} {table : Bytes}

/-! ## The rows of an UPDATE or DELETE -/

/-- The write loop over a store that accepts every write knows whether it has written. -/
theorem run_writeRows_accepted [StandardLibrary] {write : Value → Exec DbError}
    {f : Value → InMemoryStore → InMemoryStore}
    (hwrite : ∀ k (t : Server InMemoryStore), (write k).run (Server.handle InMemory.provider) t =
      some (.ok .sentinel { t with store := f k t.store }))
    (keys : List Value) (any : Bool) (t : Server InMemoryStore) :
    (writeRows write keys any).run (Server.handle InMemory.provider) t =
      some (.ok (none, any || !keys.isEmpty)
        { t with store := keys.foldl (fun s k => f k s) t.store }) := by
  induction keys generalizing any t with
  | nil =>
    rw [List.isEmpty_nil, Bool.not_true, Bool.or_false]
    rfl
  | cons k keys ih =>
    rw [writeRows, run_bind_ok (hwrite k t), if_pos (by rfl), ih, Bool.true_or, List.isEmpty_cons,
      Bool.not_false, Bool.or_true]
    rfl

/-- Without a key to write there is an error. -/
theorem run_updateRows_accepted [StandardLibrary] (txn : UInt64) (table : Bytes)
    (predicate : Predicate) (values : Tuple) (t : Server InMemoryStore) :
    let keys := matchedKeys predicate (scan txn table t.store)
    (updateRows txn table predicate values).run (Server.handle InMemory.provider) t =
      some (.ok (if keys.isEmpty then some (.notFound (ascii "no matching rows to update")) else none)
        { t with store := keys.foldl (fun s k => put txn table k (values.set idColumn k) s) t.store }) := by
  have hrows := run_writeRows_accepted
    (f := fun k store => InMemory.put txn table k (values.set idColumn k) store)
    (fun k t => rfl : ∀ k t, (updateRow txn table values k).run _ t = _)
    (matchedKeys predicate (scan txn table t.store)) false t
  unfold updateRows
  rw [run_bind_ok (run_matchingKeys txn table predicate t), run_bind_ok hrows, Bool.false_or]
  dsimp only
  cases (matchedKeys predicate (scan txn table t.store)).isEmpty <;> rfl

theorem run_deleteRows_accepted [StandardLibrary] (txn : UInt64) (table : Bytes)
    (predicate : Predicate) (t : Server InMemoryStore) :
    let keys := matchedKeys predicate (scan txn table t.store)
    (deleteRows txn table predicate).run (Server.handle InMemory.provider) t =
      some (.ok (if keys.isEmpty then some (.notFound (ascii "no matching rows to delete")) else none)
        { t with store := keys.foldl (fun s k => remove txn table k s) t.store }) := by
  have hrows := run_writeRows_accepted (f := fun k store => InMemory.remove txn table k store)
    (fun k t => rfl : ∀ k t, (Exec.remove txn table k).run _ t = _)
    (matchedKeys predicate (scan txn table t.store)) false t
  unfold deleteRows
  rw [run_bind_ok (run_matchingKeys txn table predicate t), run_bind_ok hrows, Bool.false_or]
  dsimp only
  cases (matchedKeys predicate (scan txn table t.store)).isEmpty <;> rfl

/-- Every row that satisfies the predicate has a key. -/
theorem Tabulates.isEmpty_matchedKeys (h : Tabulates store db) (hu : u ≠ 0) (predicate : Predicate) :
    (matchedKeys predicate (scan u table store)).isEmpty =
      !(db.tables table).rows.any predicate.evaluate := by
  have hiff : ∀ k, k ∈ matchedKeys predicate (scan u table store) ↔ ∃ r row,
      rowAt store u table r = some row ∧ predicate.evaluate row = true ∧
        row.maybeGet idColumn = some k := fun k => mem_matchedKeys_iff (h.keyed.ordered table)
  rw [← h.scan_eq hu table]
  cases hany : (scan u table store).any predicate.evaluate with
  | true =>
    obtain ⟨row, hrow, heval⟩ := List.any_eq_true.1 hany
    obtain ⟨r, hr⟩ := (mem_scan_iff (h.keyed.ordered table)).1 hrow
    obtain ⟨id, hid, -⟩ := h.keyed.hasKey hr
    rw [Bool.not_true, Bool.eq_false_iff, Ne, List.isEmpty_iff]
    exact List.ne_nil_of_mem ((hiff id).2 ⟨r, row, hr, heval, hid⟩)
  | false =>
    rw [Bool.not_false, List.isEmpty_iff, List.eq_nil_iff_forall_not_mem]
    intro k hk
    obtain ⟨r, row, hr, heval, -⟩ := (hiff k).1 hk
    have hrow := List.any_eq_false.1 hany row ((mem_scan_iff (h.keyed.ordered table)).2 ⟨r, hr⟩)
    exact hrow heval

/-- The predicate of an UPDATE or DELETE finds a row exactly if there is a key to write. -/
theorem Tabulates.isEmpty_keys (h : Tabulates store db) (htxn : txn ≠ 0) {predicate : Predicate}
    (hpredicate : cmd.predicate = some predicate) :
    (matchedKeys predicate (scan txn cmd.table store)).isEmpty = !db.finds cmd := by
  rw [h.isEmpty_matchedKeys htxn, Database.finds, hpredicate]
  rfl

/-! ## The statements -/

theorem Tabulates.run_select [StandardLibrary] (h : Tabulates t.store db) (htxn : txn ≠ 0)
    (htype : cmd.type = .select) :
    (do
      let rows ← selectPlain txn cmd
      return .result ⟨true, rows⟩ : Exec Response).run (Server.handle InMemory.provider) t =
        some (.ok (db.answer cmd) { t with store := written txn cmd t.store }) := by
  have hread : written txn cmd t.store = t.store := by rw [written, htype]
  have hrows : db.selectPlain cmd = ((scan txn cmd.table t.store).filter cmd.accepts).map
      (projectRowSkippingStar cmd.projections) := by
    rw [Database.selectPlain, cmd.alone_eq_map, Database.rows, ← h.scan_eq htxn]
  rw [hread, Database.answer, htype]
  dsimp only
  rw [hrows]
  rfl

theorem Tabulates.run_executeUpdate [StandardLibrary] (h : Tabulates t.store db) (htxn : txn ≠ 0)
    (htype : cmd.type = .update) :
    (executeUpdate txn cmd).run (Server.handle InMemory.provider) t =
      some (.ok (db.answer cmd) { t with store := written txn cmd t.store }) := by
  have hvalid := cmd.valid
  rw [htype] at hvalid
  obtain ⟨predicate, hpredicate⟩ := Option.isSome_iff_exists.1 hvalid.1
  obtain ⟨values, hvalues⟩ := Option.isSome_iff_exists.1 hvalid.2
  have hrows := run_updateRows_accepted txn cmd.table predicate values t
  rw [written, htype, keysOf, hpredicate, hvalues, Database.answer, htype]
  dsimp only
  unfold executeUpdate
  rw [hpredicate, hvalues]
  refine (run_bind_ok hrows).trans ?_
  rw [h.isEmpty_keys htxn hpredicate]
  cases db.finds cmd <;> rfl

theorem Tabulates.run_executeDelete [StandardLibrary] (h : Tabulates t.store db) (htxn : txn ≠ 0)
    (htype : cmd.type = .delete) :
    (executeDelete txn cmd).run (Server.handle InMemory.provider) t =
      some (.ok (db.answer cmd) { t with store := written txn cmd t.store }) := by
  have hvalid := cmd.valid
  rw [htype] at hvalid
  obtain ⟨predicate, hpredicate⟩ := Option.isSome_iff_exists.1 hvalid.1
  have hrows := run_deleteRows_accepted txn cmd.table predicate t
  rw [written, htype, keysOf, hpredicate, Database.answer, htype]
  dsimp only
  unfold executeDelete
  rw [hpredicate]
  refine (run_bind_ok hrows).trans ?_
  rw [h.isEmpty_keys htxn hpredicate]
  cases db.finds cmd <;> rfl

/-- An error means that there was nothing to write. -/
theorem Tabulates.written_of_error (h : Tabulates store db) (htxn : txn ≠ 0) {err : DbError}
    (herror : db.answer cmd = .error err) : cmd.type ≠ .insert ∧ written txn cmd store = store := by
  have hvalid := cmd.valid
  have hnone : ∀ predicate, cmd.predicate = some predicate → db.finds cmd = false →
      keysOf txn cmd store = [] := by
    intro predicate hpredicate hfinds
    have hkeys := h.isEmpty_keys htxn hpredicate
    rw [hfinds, Bool.not_false, List.isEmpty_iff] at hkeys
    rw [keysOf, hpredicate]
    exact hkeys
  unfold Database.answer at herror
  cases htype : cmd.type with
  | select =>
    rw [htype] at herror
    cases herror
  | insert =>
    rw [htype] at herror
    cases herror
  | update =>
    rw [htype] at herror hvalid
    obtain ⟨predicate, hpredicate⟩ := Option.isSome_iff_exists.1 hvalid.1
    dsimp only at herror
    split_ifs at herror with hfinds
    refine ⟨by decide, ?_⟩
    rw [written, htype, hnone predicate hpredicate (Bool.eq_false_iff.2 hfinds)]
    rfl
  | delete =>
    rw [htype] at herror hvalid
    obtain ⟨predicate, hpredicate⟩ := Option.isSome_iff_exists.1 hvalid.1
    dsimp only at herror
    split_ifs at herror with hfinds
    refine ⟨by decide, ?_⟩
    rw [written, htype, hnone predicate hpredicate (Bool.eq_false_iff.2 hfinds)]
    rfl

end

end OpenDB
