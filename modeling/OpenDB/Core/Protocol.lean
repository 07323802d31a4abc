import OpenDB.Core.Isolation

/-!
# The protocol of a statement

Strict two-phase locking for one statement, as a labelled transition system: the stages a statement
goes through and the calls that each of them allows. No table is touched before its lock is there, the
lock is given back after the store has committed or aborted, and the abstract state of the table goes
from what it was when the lock was granted to the effect of the statement.

`Conforms` is a program that follows the protocol as long as the store keeps its contract. The engine
loop and the dispatcher conform when they run a command that names no transaction and no second table
(`Executor.conforms_program`). The HTTP front end does not: it gives its lock back first.
-/

set_option autoImplicit false

namespace OpenDB

open OpenDB.Library Exec

variable {σ A : Type} {P : StorageProvider σ}

/-- What a statement has to do: its table, the mode of its lock, and its effect on the table. -/
structure Job (A : Type) where
  table : Bytes
  mode : LockMode
  effect : A → A

/-- The job of a command. -/
def Isolation.job (L : Isolation P A) (x : Executor) (cmd : Command) : Job A :=
  ⟨cmd.table, cmd.lockMode, L.effect x cmd⟩

/-- How far a statement has come. While it works on its table, `now` is the state of the table and
`goal` the effect it has to reach. -/
inductive Stage (A : Type) where
  | fresh
  | begun (txn : UInt64)
  | checked (txn : UInt64)
  | locked (txn : UInt64) (now goal : A)
  | marked (txn : UInt64) (now goal : A)
  | ended (txn : UInt64)
  | dropped (txn : UInt64)
  | done (txn : UInt64) (granted : Bool)

/-- The call is allowed at the stage, and whatever it returns, `next` holds of the result and of the
stage after. A fresh transaction is on no wait chain, a prepare succeeds, and a sequence number that
is read after a commit is not zero. -/
def Allowed (L : Isolation P A) (job : Job A) :
    (c : Call) → Stage A → (c.Result → Stage A → Prop) → Prop
  | .beginTxn, .fresh, next => ∀ txn, next txn (.begun txn)
  | .detectCycle t, .begun txn, next => t = txn ∧ next none (.checked txn)
  | .acquire t table mode, .checked txn, next =>
    t = txn ∧ table = job.table ∧ mode = job.mode ∧ ∀ a, next () (.locked txn a (job.effect a))
  | .tryAcquire t table mode, .checked txn, next =>
    t = txn ∧ table = job.table ∧ mode = job.mode ∧
      (∀ a, next .granted (.locked txn a (job.effect a))) ∧ next .timedOut (.dropped txn)
  | .scan t table, .locked txn a goal, next =>
    t = txn ∧ table = job.table ∧ next (L.rows a) (.locked txn a goal)
  | .put t table key row, .locked txn a goal, next =>
    t = txn ∧ table = job.table ∧ job.mode = .exclusive ∧
      next (L.put a key row).1 (.locked txn (L.put a key row).2 goal)
  | .remove t table key, .locked txn a goal, next =>
    t = txn ∧ table = job.table ∧ job.mode = .exclusive ∧
      next (L.remove a key).1 (.locked txn (L.remove a key).2 goal)
  | .prepare t, .locked txn a goal, next =>
    t = txn ∧ ∀ e, e.isSentinel = true → next e (.locked txn a goal)
  | .commitTxn t, .locked txn a goal, next => t = txn ∧ ∀ b, next b (.marked txn a goal)
  | .visibleSeq, .marked txn a goal, next => ∀ seq, seq ≠ 0 → next seq (.marked txn a goal)
  | .commit t seq, .marked txn a goal, next =>
    t = txn ∧ seq ≠ 0 ∧ L.commit a = goal ∧ ∀ e, next e (.ended txn)
  | .abort t, .locked txn a goal, next =>
    t = txn ∧ L.abort a = goal ∧ ∀ e, next e (.ended txn)
  | .abortTxn t, .ended txn, next => t = txn ∧ ∀ b, next b (.ended txn)
  | .release t, .ended txn, next => t = txn ∧ next () (.done txn true)
  | .abortTxn t, .dropped txn, next => t = txn ∧ ∀ b, next b (.done txn false)
  | _, _, _ => False

/-- The program follows the protocol from a stage on and ends with `Q`. -/
def Conforms {α : Type} (L : Isolation P A) (job : Job A) (Q : α → Stage A → Prop) :
    Program Call Call.Result Fault α → Stage A → Prop
  | .pure a, st => Q a st
  | .throw _, _ => False
  | .call c next _, st => Allowed L job c st fun r st' => Conforms L job Q (next r) st'

/-- How a statement has to end: it has had its lock, or the wait for it has run out. -/
def Answered (answers : List Response) (st : Stage A) : Prop :=
  ∃ txn, st = .done txn true ∨
    (st = .done txn false ∧ ∃ millis, answers = [.error (lockTimeoutError millis)])

section

variable {L : Isolation P A} {job : Job A} {α β : Type} {Q : α → Stage A → Prop} {st : Stage A}

theorem Allowed.mono {c : Call} {next next' : c.Result → Stage A → Prop}
    (h : Allowed L job c st next) (hnext : ∀ r st', next r st' → next' r st') :
    Allowed L job c st next' := by
  cases c <;> cases st <;> first
    | exact h.elim
    | (dsimp only [Allowed] at h ⊢; grind)

theorem conforms_bind {Q' : β → Stage A → Prop} {p : Exec α} {f : α → Exec β}
    (hp : Conforms L job Q p st) (hf : ∀ a st', Q a st' → Conforms L job Q' (f a) st') :
    Conforms L job Q' (p >>= f) st := by
  show Conforms L job Q' (p.bind f) st
  induction p generalizing st with
  | pure a => exact hf a st hp
  | throw e => exact hp.elim
  | call c next fault ihnext _ => exact Allowed.mono hp fun r st' hr => ihnext r hr

/-- A program that conforms never throws, so that its handler does not matter. -/
theorem conforms_tryCatch {p : Exec α} {f : Fault → Exec α} (hp : Conforms L job Q p st) :
    Conforms L job Q (tryCatch p f) st := by
  show Conforms L job Q (p.handled f) st
  induction p generalizing st with
  | pure a => exact hp
  | throw e => exact hp.elim
  | call c next fault ihnext _ => exact Allowed.mono hp fun r st' hr => ihnext r hr

/-- One call, with the results and stages it can lead to. -/
theorem conforms_call {c : Call} {Q : c.Result → Stage A → Prop} (h : Allowed L job c st Q) :
    Conforms L job Q (Exec.call c) st := h

/-- The program returns `r` and leaves the statement at a stage. -/
def Returns (r : α) (st' : Stage A) (x : α) (st : Stage A) : Prop := x = r ∧ st = st'

theorem conforms_then {Q' : β → Stage A → Prop} {p : Exec α} {f : α → Exec β} {r : α}
    {st' : Stage A} (hp : Conforms L job (Returns r st') p st)
    (hf : Conforms L job Q' (f r) st') : Conforms L job Q' (p >>= f) st := by
  apply conforms_bind hp
  rintro a st'' ⟨rfl, rfl⟩
  exact hf

end

/-! ## The statements

A statement at work: it has its lock, and reads and writes only its own table. -/

section

variable {L : Isolation P A} {job : Job A} {txn : UInt64} {a goal : A} {cmd : Command}

theorem conforms_scan : Conforms L job (Returns (L.rows a) (.locked txn a goal))
    (scan txn job.table) (.locked txn a goal) :=
  conforms_call ⟨rfl, rfl, rfl, rfl⟩

theorem conforms_put (hmode : job.mode = .exclusive) (key : Value) (row : Tuple) :
    Conforms L job (Returns (L.put a key row).1 (.locked txn (L.put a key row).2 goal))
      (put txn job.table key row) (.locked txn a goal) :=
  conforms_call ⟨rfl, rfl, hmode, rfl, rfl⟩

theorem conforms_remove (hmode : job.mode = .exclusive) (key : Value) :
    Conforms L job (Returns (L.remove a key).1 (.locked txn (L.remove a key).2 goal))
      (remove txn job.table key) (.locked txn a goal) :=
  conforms_call ⟨rfl, rfl, hmode, rfl, rfl⟩

theorem conforms_matchingKeys (predicate : Predicate) :
    Conforms L job (Returns (L.matching predicate a) (.locked txn a goal))
      (matchingKeys txn job.table predicate) (.locked txn a goal) := by
  apply conforms_then conforms_scan
  exact ⟨rfl, rfl⟩

/-- The write loop, for a write that acts on the state of the table as `w` does. -/
theorem conforms_writeRows {write : Value → Exec DbError} {w : A → Value → DbError × A}
    (hwrite : ∀ a key, Conforms L job (Returns (w a key).1 (.locked txn (w a key).2 goal))
      (write key) (.locked txn a goal))
    (keys : List Value) (any : Bool) :
    Conforms L job (fun _ st => st = .locked txn (Isolation.writeAll w keys a) goal)
      (writeRows write keys any) (.locked txn a goal) := by
  induction keys generalizing a any with
  | nil => exact rfl
  | cons k keys ih =>
    apply conforms_then (hwrite a k)
    rw [Isolation.writeAll]
    split_ifs
    · exact ih true
    · exact rfl

theorem conforms_updateRows (hmode : job.mode = .exclusive) (predicate : Predicate)
    (values : Tuple) :
    Conforms L job (fun _ st => st = .locked txn (Isolation.writeAll
        (fun a key => L.put a key (values.set idColumn key)) (L.matching predicate a) a) goal)
      (updateRows txn job.table predicate values) (.locked txn a goal) := by
  apply conforms_then (conforms_matchingKeys predicate)
  have hrow : ∀ a key, Conforms L job
      (Returns (L.put a key (values.set idColumn key)).1
        (.locked txn (L.put a key (values.set idColumn key)).2 goal))
      (updateRow txn job.table values key) (.locked txn a goal) :=
    fun a key => conforms_put hmode key _
  apply conforms_bind (conforms_writeRows hrow _ false)
  rintro ⟨error, any⟩ st rfl
  dsimp only
  split_ifs <;> exact rfl

theorem conforms_deleteRows (hmode : job.mode = .exclusive) (predicate : Predicate) :
    Conforms L job (fun _ st =>
        st = .locked txn (Isolation.writeAll L.remove (L.matching predicate a) a) goal)
      (deleteRows txn job.table predicate) (.locked txn a goal) := by
  apply conforms_then (conforms_matchingKeys predicate)
  apply conforms_bind (conforms_writeRows (fun a key => conforms_remove hmode key) _ false)
  rintro ⟨error, any⟩ st rfl
  dsimp only
  split_ifs <;> exact rfl

/-- A SELECT whose joins stay in its own table. -/
def Command.OneTable (cmd : Command) : Prop :=
  cmd.type = .select → ∀ jc ∈ cmd.joins, jc.table = cmd.table

instance (cmd : Command) : Decidable cmd.OneTable :=
  inferInstanceAs (Decidable (cmd.type = .select → ∀ jc ∈ cmd.joins, jc.table = cmd.table))

theorem EngineLoop.conforms_rowsFor :
    Conforms L job (fun _ st => st = .locked txn a goal)
      (EngineLoop.rowsFor txn job.table) (.locked txn a goal) := by
  apply conforms_then conforms_scan
  exact rfl

theorem EngineLoop.conforms_joinTables (joins : List JoinClause)
    (hjoins : ∀ jc ∈ joins, jc.table = job.table) (matched : List Tuple) :
    Conforms L job (fun _ st => st = .locked txn a goal)
      (EngineLoop.joinTables txn joins matched) (.locked txn a goal) := by
  induction joins generalizing matched with
  | nil => exact rfl
  | cons jc joins ih =>
    rw [EngineLoop.joinTables, hjoins jc List.mem_cons_self]
    apply conforms_bind EngineLoop.conforms_rowsFor
    rintro rightRows st rfl
    exact ih (fun jc' h => hjoins jc' (List.mem_cons_of_mem _ h)) _

theorem EngineLoop.conforms_selectRows [StandardLibrary] (htable : cmd.table = job.table)
    (hjoins : ∀ jc ∈ cmd.joins, jc.table = cmd.table) :
    Conforms L job (fun _ st => st = .locked txn a goal)
      (EngineLoop.selectRows txn cmd) (.locked txn a goal) := by
  have hmatched : Conforms L job (fun _ st => st = .locked txn a goal)
      (EngineLoop.matchedRows txn cmd) (.locked txn a goal) := by
    unfold EngineLoop.matchedRows
    rw [htable]
    split_ifs
    · apply conforms_then conforms_scan
      exact rfl
    · apply conforms_bind EngineLoop.conforms_rowsFor
      rintro leftRows st rfl
      apply conforms_bind (EngineLoop.conforms_joinTables cmd.joins (htable ▸ hjoins) leftRows)
      rintro matched st rfl
      exact rfl
  apply conforms_bind hmatched
  rintro matched st rfl
  exact rfl

theorem lockMode_of_write (h : cmd.type ≠ .select) : cmd.lockMode = .exclusive := if_neg h

/-- The switch of the engine loop: there is no result exactly when the store has refused an
INSERT. -/
theorem EngineLoop.conforms_execute [StandardLibrary] (x : Executor) (hone : cmd.OneTable) :
    Conforms L (L.job x cmd)
      (fun r st => st = .locked txn (L.written cmd a) goal ∧
        (r.1 = none ↔ L.refuses cmd a = true) ∧ (r.1 = none → r.2.isSome = true))
      (EngineLoop.execute txn cmd) (.locked txn a goal) := by
  have hvalid := cmd.valid
  unfold EngineLoop.execute Isolation.written Isolation.refuses
  cases htype : cmd.type with
  | select =>
    apply conforms_bind (EngineLoop.conforms_selectRows rfl (hone htype))
    rintro rows st rfl
    exact ⟨rfl, by simp, by simp⟩
  | insert =>
    rw [htype] at hvalid
    obtain ⟨row, hrow⟩ := Option.isSome_iff_exists.1 hvalid.1
    rw [hrow]
    apply conforms_then (conforms_put (lockMode_of_write (by simp [htype])) _ _)
    dsimp only [Option.getD_some]
    split_ifs with herr
    · exact ⟨rfl, by simp [herr], by simp⟩
    · exact ⟨rfl, by simp [herr], by simp⟩
  | update =>
    rw [htype] at hvalid
    obtain ⟨predicate, hpredicate⟩ := Option.isSome_iff_exists.1 hvalid.1
    obtain ⟨values, hvalues⟩ := Option.isSome_iff_exists.1 hvalid.2
    rw [hpredicate, hvalues]
    apply conforms_bind (conforms_updateRows (lockMode_of_write (by simp [htype])) predicate values)
    rintro error st rfl
    exact ⟨rfl, by simp, by simp⟩
  | delete =>
    rw [htype] at hvalid
    obtain ⟨predicate, hpredicate⟩ := Option.isSome_iff_exists.1 hvalid.1
    rw [hpredicate]
    apply conforms_bind (conforms_deleteRows (lockMode_of_write (by simp [htype])) predicate)
    rintro error st rfl
    exact ⟨rfl, by simp, by simp⟩

theorem EngineDispatcher.conforms_execute (x : Executor) :
    Conforms L (L.job x cmd) (fun _ st => st = .locked txn (L.written cmd a) goal)
      (EngineDispatcher.execute txn cmd) (.locked txn a goal) := by
  have hvalid := cmd.valid
  unfold EngineDispatcher.execute Isolation.written executeUpdate executeDelete
  cases htype : cmd.type with
  | select =>
    have hselect : Conforms L (L.job x cmd) (fun _ st => st = .locked txn a goal)
        (selectPlain txn cmd) (.locked txn a goal) := by
      apply conforms_then conforms_scan
      exact rfl
    apply conforms_bind hselect
    rintro rows st rfl
    exact rfl
  | insert =>
    rw [htype] at hvalid
    obtain ⟨row, hrow⟩ := Option.isSome_iff_exists.1 hvalid.1
    rw [hrow]
    apply conforms_then (conforms_put (lockMode_of_write (by simp [htype])) _ _)
    split_ifs <;> exact rfl
  | update =>
    rw [htype] at hvalid
    obtain ⟨predicate, hpredicate⟩ := Option.isSome_iff_exists.1 hvalid.1
    obtain ⟨values, hvalues⟩ := Option.isSome_iff_exists.1 hvalid.2
    rw [hpredicate, hvalues]
    apply conforms_bind (conforms_updateRows (lockMode_of_write (by simp [htype])) predicate values)
    rintro error st rfl
    exact rfl
  | delete =>
    rw [htype] at hvalid
    obtain ⟨predicate, hpredicate⟩ := Option.isSome_iff_exists.1 hvalid.1
    rw [hpredicate]
    apply conforms_bind (conforms_deleteRows (lockMode_of_write (by simp [htype])) predicate)
    rintro error st rfl
    exact rfl

/-! ## The ends of the statements -/

theorem conforms_prepare :
    Conforms L job (fun e st => e.isSentinel = true ∧ st = .locked txn a goal) (prepare txn)
      (.locked txn a goal) :=
  conforms_call (c := .prepare txn) ⟨rfl, fun _ he => ⟨he, rfl⟩⟩

/-- The commit of the engine loop reaches the goal and keeps the lock until then. -/
theorem EngineLoop.conforms_commitPrepared (hgoal : L.commit a = goal) :
    Conforms L job (Returns none (.ended txn)) (EngineLoop.commitPrepared txn)
      (.locked txn a goal) := by
  apply conforms_bind conforms_prepare
  rintro e st ⟨he, rfl⟩
  rw [if_pos he]
  refine ⟨rfl, fun _ seq hseq => ⟨rfl, hseq, hgoal, fun _ => ?_⟩⟩
  exact ⟨rfl, rfl⟩

theorem EngineLoop.conforms_abortAll (hgoal : L.abort a = goal) :
    Conforms L job (fun _ st => st = .ended txn) (EngineLoop.abortAll txn) (.locked txn a goal) :=
  ⟨rfl, hgoal, fun _ => ⟨rfl, fun _ => rfl⟩⟩

theorem conforms_release :
    Conforms L job (fun _ st => st = .done txn true) (release txn) (.ended txn) :=
  ⟨rfl, rfl⟩

/-- The engine loop commits what has a result and takes back what has none. -/
theorem EngineLoop.conforms_autoCommit {result : Option ResultSet} {error : Option DbError}
    (hsome : result ≠ none → L.commit a = goal) (hnone : result = none → L.abort a = goal)
    (herror : result = none → error.isSome = true) :
    Conforms L job (fun _ st => st = .done txn true) (EngineLoop.autoCommit txn result error)
      (.locked txn a goal) := by
  apply conforms_bind (Q := fun _ st => st = .ended txn)
  · cases result with
    | some rs =>
      apply conforms_then (EngineLoop.conforms_commitPrepared (hsome (by simp)))
      exact rfl
    | none =>
      obtain ⟨err, rfl⟩ := Option.isSome_iff_exists.1 (herror rfl)
      apply conforms_bind (EngineLoop.conforms_abortAll (hnone rfl))
      rintro _ st rfl
      exact rfl
  rintro error st rfl
  apply conforms_bind conforms_release
  rintro _ st rfl
  exact rfl

theorem EngineDispatcher.conforms_autoCommit (hgoal : L.commit a = goal) :
    Conforms L job (fun _ st => st = .done txn true) (EngineDispatcher.autoCommit txn)
      (.locked txn a goal) :=
  ⟨rfl, fun _ _ hseq => ⟨rfl, hseq, hgoal, fun _ => ⟨rfl, rfl⟩⟩⟩

/-! ## The executors -/

theorem EngineLoop.conforms_dispatch [StandardLibrary] (hauto : cmd.txnId = none)
    (hone : cmd.OneTable) :
    Conforms L (L.job .engineLoop cmd) (fun _ st => ∃ txn, st = .done txn true)
      (EngineLoop.dispatch cmd) .fresh := by
  unfold EngineLoop.dispatch
  refine fun txn => ⟨by rw [hauto]; rfl, ?_⟩
  rw [hauto]
  refine ⟨rfl, rfl, rfl, fun a => ?_⟩
  apply conforms_bind (EngineLoop.conforms_execute .engineLoop hone)
  rintro ⟨result, error⟩ st ⟨rfl, hrefuses, herror⟩
  dsimp only at hrefuses herror ⊢
  rw [if_pos Option.isNone_none]
  apply conforms_bind (EngineLoop.conforms_autoCommit ?_ ?_ herror)
  · rintro error st rfl
    exact ⟨txn, rfl⟩
  · intro hresult
    exact (if_neg fun h => hresult (hrefuses.2 h.2)).symm
  · intro hresult
    exact (if_pos ⟨rfl, hrefuses.1 hresult⟩).symm

theorem EngineDispatcher.conforms_runCommand {lockTimeout : Nat} (hauto : cmd.txnId = none) :
    Conforms L (L.job (.dispatcher lockTimeout) cmd) (fun r st => Answered r.1 st)
      (EngineDispatcher.runCommand lockTimeout cmd []) .fresh := by
  unfold EngineDispatcher.runCommand
  refine fun txn => ⟨by rw [hauto]; rfl, ?_⟩
  rw [hauto]
  refine ⟨rfl, rfl, rfl, fun a => ?_, ?_⟩
  · apply conforms_bind (conforms_tryCatch (EngineDispatcher.conforms_execute _))
    rintro answer st rfl
    rw [if_pos Option.isNone_none]
    have hgoal : L.effect (.dispatcher lockTimeout) cmd a = L.commit (L.written cmd a) :=
      if_neg fun h => by cases h.1
    apply conforms_bind (EngineDispatcher.conforms_autoCommit hgoal.symm)
    rintro more st rfl
    exact ⟨txn, Or.inl rfl⟩
  · exact ⟨rfl, fun _ => ⟨txn, Or.inr ⟨rfl, lockTimeout, rfl⟩⟩⟩

/-- The statement runs through the engine loop and stays in one table, or through the dispatcher,
which reads no second table at all. -/
def Executor.Locking : Executor → Command → Prop
  | .engineLoop, cmd => cmd.OneTable
  | .dispatcher _, _ => True
  | .httpApi, _ => False

theorem Executor.conforms_program [StandardLibrary] {x : Executor} (hauto : cmd.txnId = none)
    (hlocking : x.Locking cmd) :
    Conforms L (L.job x cmd) Answered (x.program cmd) .fresh := by
  cases x with
  | engineLoop =>
    apply conforms_bind (EngineLoop.conforms_dispatch hauto hlocking)
    rintro answer st ⟨txn, rfl⟩
    exact ⟨txn, Or.inl rfl⟩
  | dispatcher lockTimeout =>
    apply conforms_bind (EngineDispatcher.conforms_runCommand hauto)
    rintro ⟨answers, openTxns⟩ st hanswered
    exact hanswered
  | httpApi => exact hlocking.elim

end

end OpenDB
