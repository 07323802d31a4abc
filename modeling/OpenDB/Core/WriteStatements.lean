import OpenDB.Core.AutoCommit
import OpenDB.Storage.KeyedRows

/-!
# Writes of the engine loop

An INSERT, UPDATE or DELETE that the engine loop commits by itself, on the in-memory store. The store
accepts every write, so the statement always has a result and is always committed, also when no row
matches: `run_dispatch_write` says which server it leaves. `Written` says of the rows what it does.
-/

set_option autoImplicit false

namespace OpenDB

open OpenDB.Library Exec Program

/-- An INSERT that brings an `_id` along brings one that the order of values can place. -/
def Command.Placeable (cmd : Command) : Prop :=
  cmd.type = .insert → ∀ row ∈ cmd.values, ∀ id ∈ row.maybeGet idColumn, id.isNaN = false

theorem Command.placeable_of_ne {cmd : Command} (h : cmd.type ≠ .insert) : cmd.Placeable :=
  fun htype => absurd htype h

/-! ## The store after the writes -/

namespace InMemory

/-- The keys that UPDATE and DELETE go through. -/
def matchedKeys (predicate : Predicate) (rows : List Tuple) : List Value :=
  (rows.filter predicate.evaluate).filterMap fun row => row.maybeGet idColumn

/-- The keys of a command with a predicate. -/
def keysOf (txn : UInt64) (cmd : Command) (s : InMemoryStore) : List Value :=
  match cmd.predicate with
  | none => []
  | some predicate => matchedKeys predicate (scan txn cmd.table s)

/-- The store after the writes of a command, before their commit. -/
def written (txn : UInt64) (cmd : Command) (s : InMemoryStore) : InMemoryStore :=
  let row := cmd.values.getD .empty
  match cmd.type with
  | .select => s
  | .insert => put txn cmd.table (insertKey row) row s
  | .update =>
    (keysOf txn cmd s).foldl (fun s k => put txn cmd.table k (row.set idColumn k) s) s
  | .delete => (keysOf txn cmd s).foldl (fun s k => remove txn cmd.table k s) s

end InMemory

/-! ## The run of a statement -/

section

variable {s t : Server InMemoryStore} {cmd : Command} {txn : UInt64}

theorem run_matchingKeys [StandardLibrary] (txn : UInt64) (table : Bytes) (predicate : Predicate)
    (t : Server InMemoryStore) :
    (matchingKeys txn table predicate).run (Server.handle InMemory.provider) t =
      some (.ok (InMemory.matchedKeys predicate (InMemory.scan txn table t.store)) t) := rfl

/-- The write loop over a store that accepts every write. -/
theorem run_writeRows [StandardLibrary] {write : Value → Exec DbError}
    {f : Value → InMemoryStore → InMemoryStore}
    (hwrite : ∀ k (t : Server InMemoryStore), (write k).run (Server.handle InMemory.provider) t =
      some (.ok .sentinel { t with store := f k t.store }))
    (keys : List Value) (any : Bool) (t : Server InMemoryStore) :
    ∃ any', (writeRows write keys any).run (Server.handle InMemory.provider) t =
      some (.ok (none, any') { t with store := keys.foldl (fun s k => f k s) t.store }) := by
  induction keys generalizing any t with
  | nil => exact ⟨any, rfl⟩
  | cons k keys ih =>
    -- no write is refused, so the loop does not end early
    rw [writeRows, run_bind_ok (hwrite k t), if_pos (by rfl)]
    exact ih true _

theorem run_updateRows [StandardLibrary] (txn : UInt64) (table : Bytes) (predicate : Predicate)
    (values : Tuple) (t : Server InMemoryStore) :
    ∃ error, (updateRows txn table predicate values).run (Server.handle InMemory.provider) t =
      some (.ok error { t with
        store := (InMemory.matchedKeys predicate (InMemory.scan txn table t.store)).foldl
          (fun s k => InMemory.put txn table k (values.set idColumn k) s) t.store }) := by
  unfold updateRows
  rw [run_bind_ok (run_matchingKeys txn table predicate t)]
  obtain ⟨any, hrows⟩ := run_writeRows
    (f := fun k s => InMemory.put txn table k (values.set idColumn k) s)
    (fun k t => rfl : ∀ k t, (updateRow txn table values k).run _ t = _)
    (InMemory.matchedKeys predicate (InMemory.scan txn table t.store)) false t
  rw [run_bind_ok hrows]
  cases any <;> exact ⟨_, rfl⟩

-- without a match there is an error, which does not keep the statement from its result
theorem run_deleteRows [StandardLibrary] (txn : UInt64) (table : Bytes) (predicate : Predicate)
    (t : Server InMemoryStore) :
    ∃ error, (deleteRows txn table predicate).run (Server.handle InMemory.provider) t =
      some (.ok error { t with
        store := (InMemory.matchedKeys predicate (InMemory.scan txn table t.store)).foldl
          (fun s k => InMemory.remove txn table k s) t.store }) := by
  unfold deleteRows
  rw [run_bind_ok (run_matchingKeys txn table predicate t)]
  obtain ⟨any, hrows⟩ := run_writeRows (f := fun k s => InMemory.remove txn table k s)
    (fun k t => rfl : ∀ k t, (remove txn table k).run _ t = _)
    (InMemory.matchedKeys predicate (InMemory.scan txn table t.store)) false t
  rw [run_bind_ok hrows]
  cases any <;> exact ⟨_, rfl⟩

/-- Every write has a result, also an UPDATE or DELETE that finds nothing and has an error. -/
theorem EngineLoop.run_execute_write [StandardLibrary] (htype : cmd.type ≠ .select) (txn : UInt64)
    (t : Server InMemoryStore) :
    ∃ error, (EngineLoop.execute txn cmd).run (Server.handle InMemory.provider) t =
      some (.ok (some noRows, error) { t with store := InMemory.written txn cmd t.store }) := by
  have hvalid := cmd.valid
  unfold EngineLoop.execute InMemory.written InMemory.keysOf
  cases hcmd : cmd.type with
  | select => exact absurd hcmd htype
  | insert => exact ⟨none, rfl⟩
  | update =>
    rw [hcmd] at hvalid
    obtain ⟨predicate, hpredicate⟩ := Option.isSome_iff_exists.1 hvalid.1
    obtain ⟨values, hvalues⟩ := Option.isSome_iff_exists.1 hvalid.2
    rw [hpredicate, hvalues]
    obtain ⟨error, hrows⟩ := run_updateRows txn cmd.table predicate values t
    exact ⟨error, run_bind_ok hrows⟩
  | delete =>
    rw [hcmd] at hvalid
    obtain ⟨predicate, hpredicate⟩ := Option.isSome_iff_exists.1 hvalid.1
    rw [hpredicate]
    obtain ⟨error, hrows⟩ := run_deleteRows txn cmd.table predicate t
    exact ⟨error, run_bind_ok hrows⟩

/-- The number under which the transaction of the next statement is committed. -/
def Server.nextSeq (s : Server InMemoryStore) : UInt64 := s.txns.commitSeq + 1

/-- The server after a write that the engine loop has committed. -/
def Server.afterWrite (s : Server InMemoryStore) (cmd : Command) : Server InMemoryStore :=
  (s.started cmd).finished s.txns.beginTxn.1
    (InMemory.commit s.txns.beginTxn.1 s.nextSeq (InMemory.written s.txns.beginTxn.1 cmd s.store))

theorem TransactionManager.commitTxn_beginTxn (m : TransactionManager) :
    (m.beginTxn.2.commitTxn m.beginTxn.1).2.commitSeq = m.commitSeq + 1 ∧
      (m.beginTxn.2.commitTxn m.beginTxn.1).2.nextId = m.nextId + 1 := by
  rw [commitTxn, if_pos find_beginTxn_self]
  exact ⟨rfl, rfl⟩

/-- The store commits whatever is staged, under the number that the transaction manager hands out. -/
theorem committed_nextSeq (s : Server InMemoryStore) (cmd : Command) (store : InMemoryStore) :
    Committed InMemory.provider s.txns.beginTxn.1
      ((s.started cmd).txns.commitTxn s.txns.beginTxn.1).2.visibleSeq store
      (InMemory.commit s.txns.beginTxn.1 s.nextSeq store) := by
  have hseq : ((s.started cmd).txns.commitTxn s.txns.beginTxn.1).2.visibleSeq = s.nextSeq :=
    (TransactionManager.commitTxn_beginTxn s.txns).1
  rw [hseq]
  exact ⟨⟨.sentinel, rfl, rfl⟩, ⟨.sentinel, rfl, rfl⟩⟩

/-- A statement that gets its lock and has a result is committed, and its result is shown. -/
theorem EngineLoop.run_dispatch_result [StandardLibrary] (hstart : Startable s cmd) {rs : ResultSet}
    {error : Option DbError}
    (hexecute : (EngineLoop.execute s.txns.beginTxn.1 cmd).run (Server.handle InMemory.provider)
      (s.started cmd) = some (.ok (some rs, error) { s.started cmd with
        store := InMemory.written s.txns.beginTxn.1 cmd s.store })) :
    (EngineLoop.dispatch cmd).run (Server.handle InMemory.provider) s =
      some (.ok (.result rs) (s.afterWrite cmd)) := by
  rw [EngineLoop.run_dispatch hstart, EngineLoop.finish, run_bind_ok hexecute]
  dsimp only
  exact run_bind_ok (EngineLoop.run_autoCommit (t := { s.started cmd with
    store := InMemory.written s.txns.beginTxn.1 cmd s.store }) (committed_nextSeq s cmd _) error)

/-- A write that gets its lock is committed, and its result is shown. -/
theorem EngineLoop.run_dispatch_write [StandardLibrary] (hstart : Startable s cmd)
    (htype : cmd.type ≠ .select) :
    (EngineLoop.dispatch cmd).run (Server.handle InMemory.provider) s =
      some (.ok (.result noRows) (s.afterWrite cmd)) := by
  obtain ⟨error, hexecute⟩ :=
    EngineLoop.run_execute_write htype s.txns.beginTxn.1 (s.started cmd)
  exact EngineLoop.run_dispatch_result hstart hexecute

end

/-! ## The rows after the writes -/

namespace InMemory

section

variable {s : InMemoryStore} {txn : UInt64} {table : Bytes} {predicate : Predicate} {cmd : Command}
  {row : Tuple} {k : Value} {r : Rank}

/-- The matched keys are the `_id`s of the rows that satisfy the predicate. -/
theorem mem_matchedKeys_iff (h : OrderedRows (rowsOf s table)) :
    k ∈ matchedKeys predicate (scan txn table s) ↔ ∃ r row, rowAt s txn table r = some row ∧
      predicate.evaluate row = true ∧ row.maybeGet idColumn = some k := by
  rw [matchedKeys, List.mem_filterMap]
  constructor
  · rintro ⟨row, hrow, hid⟩
    obtain ⟨hmem, heval⟩ := List.mem_filter.1 hrow
    obtain ⟨r, hr⟩ := (mem_scan_iff h).1 hmem
    exact ⟨r, row, hr, heval, hid⟩
  · rintro ⟨r, row, hr, heval, hid⟩
    exact ⟨row, List.mem_filter.2 ⟨(mem_scan_iff h).2 ⟨r, hr⟩, heval⟩, hid⟩

/-- A row that stands under its own key is found again by its `_id`. -/
theorem KeyedStore.matched_position (h : KeyedStore s)
    (hk : k ∈ matchedKeys predicate (scan txn table s)) :
    (k.isNull = false ∧ k.isNaN = false) ∧ ∃ row, rowAt s txn table k.rank = some row ∧
      predicate.evaluate row = true ∧ row.maybeGet idColumn = some k := by
  obtain ⟨r, row, hrow, heval, hid⟩ := (mem_matchedKeys_iff (h.ordered table)).1 hk
  obtain ⟨id, hkey, hnull, hnan, rfl⟩ := h.hasKey hrow
  cases hkey.symm.trans hid
  -- the key under which the row is written again is the one it stands under
  exact ⟨⟨hnull, hnan⟩, row, hrow, heval, hid⟩

/-- A write to a key, and the row that its writer sees there afterwards. -/
structure RowWrite (txn : UInt64) (table : Bytes) (f : InMemoryStore → Value → InMemoryStore)
    (g : Value → Option Tuple) : Prop where
  write : ∀ s k, k.isNull = false → k.isNaN = false → Write txn table s (f s k)
  row : ∀ s k r, KeyedStore s → k.isNull = false → k.isNaN = false →
    rowAt (f s k) txn table r = if r = k.rank then g k else rowAt s txn table r

theorem rowWrite_remove (txn : UInt64) (table : Bytes) :
    RowWrite txn table (fun s k => remove txn table k s) fun _ => none := by
  refine ⟨fun s k _ hnan => write_remove hnan s, fun s k r h _ hnan => ?_⟩
  rw [remove, rowAt_pushRow (h.ordered table) hnan rfl]
  simp only [true_and, and_true]
  rfl

theorem rowWrite_update (txn : UInt64) (table : Bytes) (values : Tuple) :
    RowWrite txn table (fun s k => put txn table k (values.set idColumn k) s) fun k =>
      some (values.set idColumn k) := by
  refine ⟨fun s k hnull hnan => write_put ?_ hnull hnan s, fun s k r h hnull hnan => ?_⟩
  · rw [Tuple.maybeGet_set, if_pos rfl]
  · rw [put_explicit hnull, rowAt_pushRow (h.ordered table) hnan rfl]
    simp only [true_and, and_true]
    rfl

variable {f : InMemoryStore → Value → InMemoryStore} {g : Value → Option Tuple}

theorem RowWrite.writes_foldl (hf : RowWrite txn table f g) {keys : List Value}
    (hkeys : ∀ k ∈ keys, k.isNull = false ∧ k.isNaN = false) (s : InMemoryStore) :
    Writes txn table s (keys.foldl f s) := by
  induction keys generalizing s with
  | nil => exact .refl
  | cons k keys ih =>
    obtain ⟨hnull, hnan⟩ := hkeys k List.mem_cons_self
    have hrest := ih (fun k' hk' => hkeys k' (List.mem_cons_of_mem _ hk')) (f s k)
    exact .head (hf.write s k hnull hnan) hrest

/-- A position that is written shows what was written last, any other what it showed before. -/
theorem RowWrite.rowAt_foldl (hf : RowWrite txn table f g) {keys : List Value}
    (hkeys : ∀ k ∈ keys, k.isNull = false ∧ k.isNaN = false) (h : KeyedStore s) (r : Rank) :
    (∃ k ∈ keys, k.rank = r ∧ rowAt (keys.foldl f s) txn table r = g k) ∨
      (∀ k ∈ keys, k.rank ≠ r) ∧ rowAt (keys.foldl f s) txn table r = rowAt s txn table r := by
  induction keys generalizing s with
  | nil => exact Or.inr ⟨fun k hk => absurd hk List.not_mem_nil, rfl⟩
  | cons k keys ih =>
    obtain ⟨hnull, hnan⟩ := hkeys k List.mem_cons_self
    rw [List.foldl_cons]
    rcases ih (fun k' hk' => hkeys k' (List.mem_cons_of_mem _ hk'))
      (h.write (hf.write s k hnull hnan)) with ⟨k', hk', hrank, hlast⟩ | ⟨hne, hsame⟩
    · exact Or.inl ⟨k', List.mem_cons_of_mem _ hk', hrank, hlast⟩
    · rw [hf.row s k r h hnull hnan] at hsame
      -- the later keys have not touched the position, so the first one decides
      by_cases hr : r = k.rank
      · rw [if_pos hr] at hsame
        exact Or.inl ⟨k, List.mem_cons_self, hr.symm, hsame⟩
      · rw [if_neg hr] at hsame
        refine Or.inr ⟨fun k' hk' => ?_, hsame⟩
        rcases List.mem_cons.1 hk' with rfl | hk'
        · exact fun hrank => hr hrank.symm
        · exact hne k' hk'

/-- A row that satisfies the predicate is written by its `_id`. -/
theorem RowWrite.rowAt_matched (hf : RowWrite txn table f g) (h : KeyedStore s)
    (hrow : rowAt s txn table r = some row) (heval : predicate.evaluate row = true)
    (hid : row.maybeGet idColumn = some k) :
    rowAt ((matchedKeys predicate (scan txn table s)).foldl f s) txn table r = g k := by
  obtain ⟨id, hkey, -, -, rfl⟩ := h.hasKey hrow
  cases hkey.symm.trans hid
  have hk : k ∈ matchedKeys predicate (scan txn table s) :=
    (mem_matchedKeys_iff (h.ordered table)).2 ⟨_, row, hrow, heval, hid⟩
  have hkeys : ∀ k ∈ matchedKeys predicate (scan txn table s), k.isNull = false ∧ k.isNaN = false :=
    fun k hk => (h.matched_position hk).1
  rcases hf.rowAt_foldl hkeys h k.rank with ⟨k', hk', hrank, hlast⟩ | ⟨hne, -⟩
  · -- the key at the position is the `_id` of the one row there
    obtain ⟨-, row', hrow', -, hid'⟩ := h.matched_position hk'
    rw [hrank] at hrow'
    cases hrow.symm.trans hrow'
    cases hid.symm.trans hid'
    exact hlast
  · exact absurd rfl (hne k hk)

/-- A position without a row that satisfies the predicate is not written. -/
theorem RowWrite.rowAt_unmatched (hf : RowWrite txn table f g) (h : KeyedStore s)
    (hrow : ∀ row, rowAt s txn table r = some row → predicate.evaluate row = false) :
    rowAt ((matchedKeys predicate (scan txn table s)).foldl f s) txn table r =
      rowAt s txn table r := by
  have hkeys : ∀ k ∈ matchedKeys predicate (scan txn table s), k.isNull = false ∧ k.isNaN = false :=
    fun k hk => (h.matched_position hk).1
  rcases hf.rowAt_foldl hkeys h r with ⟨k, hk, rfl, -⟩ | ⟨-, hsame⟩
  · obtain ⟨-, row, hrow', heval, -⟩ := h.matched_position hk
    rw [hrow row hrow'] at heval
    cases heval
  · exact hsame

/-- The writes of a statement keep rows under their own keys. -/
theorem writes_written (h : KeyedStore s) (hid : cmd.Placeable) :
    Writes txn cmd.table s (written txn cmd s) := by
  have hkeys : ∀ k ∈ keysOf txn cmd s, k.isNull = false ∧ k.isNaN = false := by
    intro k hk
    unfold keysOf at hk
    cases hpredicate : cmd.predicate with
    | none =>
      rw [hpredicate] at hk
      cases hk
    | some predicate =>
      rw [hpredicate] at hk
      exact (h.matched_position hk).1
  unfold written
  cases htype : cmd.type with
  | select => exact .refl
  | insert =>
    -- one write; the others go through the keys of the rows they match
    refine .single (write_insert ?_ s)
    cases hvalues : cmd.values with
    | none =>
      intro id hid'
      cases hid'
    | some row => exact hid htype row hvalues
  | update => exact (rowWrite_update txn cmd.table _).writes_foldl hkeys s
  | delete => exact (rowWrite_remove txn cmd.table).writes_foldl hkeys s

end

/-! ### After the commit -/

section

variable {s : Server InMemoryStore} {cmd : Command} {table : Bytes} {u : UInt64}

/-- After the commit readers see what the transaction of the command saw. -/
theorem rowAt_afterWrite (h : KeyedStore s.store) (hcmd : cmd.Placeable) (hseq : s.nextSeq ≠ 0)
    (hu : Unstaged s.store table u) (r : Rank) :
    rowAt (s.afterWrite cmd).store u table r =
      rowAt (written s.txns.beginTxn.1 cmd s.store) s.txns.beginTxn.1 table r := by
  have hw : Writes s.txns.beginTxn.1 cmd.table s.store (written s.txns.beginTxn.1 cmd s.store) :=
    writes_written h hcmd
  apply rowAt_commit (h.writes hw) hseq
  by_cases hown : u = s.txns.beginTxn.1
  · exact Or.inl hown
  · exact Or.inr (hu.writes h hw hown)

/-- The command with the number zero commits nothing. -/
theorem rowAt_afterWrite_zero (h : KeyedStore s.store) (hcmd : cmd.Placeable) (hseq : s.nextSeq = 0)
    (hu : u ≠ s.txns.beginTxn.1) (table : Bytes) (r : Rank) :
    rowAt (s.afterWrite cmd).store u table r = rowAt s.store u table r := by
  have hw : Writes s.txns.beginTxn.1 cmd.table s.store (written s.txns.beginTxn.1 cmd s.store) :=
    writes_written h hcmd
  show rowAt (commit s.txns.beginTxn.1 s.nextSeq _) u table r = _
  rw [hseq, rowAt_commit_zero]
  exact hw.rowAt_of_ne h (Or.inl hu) r

end

end InMemory

end OpenDB
