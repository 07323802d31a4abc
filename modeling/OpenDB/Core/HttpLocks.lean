import OpenDB.Core.Executors
import OpenDB.Core.MutualExclusion
import OpenDB.Storage.InMemoryStorageProvider

/-!
# Locks of HTTP clients

A client of the HTTP front end may name any transaction in any request. A lock whose holder is no
longer active is never given back by a COMMIT, and only by a ROLLBACK that names its holder again.
-/

set_option autoImplicit false

namespace OpenDB

open OpenDB.Library Exec

/-! ## Holders -/

namespace LockManager

/-- The transaction holds a lock. -/
def Holds (m : LockManager) (txn : UInt64) : Prop := ∃ e ∈ m.held.entries, txn ∈ e.2.holders

instance (m : LockManager) (txn : UInt64) : Decidable (m.Holds txn) :=
  inferInstanceAs (Decidable (∃ e ∈ m.held.entries, txn ∈ e.2.holders))

variable {m : LockManager} {txn t : UInt64} {key : ResourceKey} {mode : LockMode}

theorem holds_iff : m.Holds txn ↔ ∃ key lock, m.held.find key = some lock ∧ txn ∈ lock.holders := by
  constructor
  · rintro ⟨e, he, hmem⟩
    exact ⟨e.1, e.2, AssocMap.find_of_mem he, hmem⟩
  · rintro ⟨key, lock, hfind, hmem⟩
    obtain ⟨A, B, hentries, -, -⟩ := AssocMap.exists_of_find hfind
    refine ⟨(key, lock), ?_, hmem⟩
    rw [hentries]
    exact List.mem_append_right _ List.mem_cons_self

theorem holds_of_grant (hgrant : m.grantable txn key mode = true) :
    (m.grant txn key mode).Holds txn := by
  rw [holds_iff]
  rcases find_grant_self hgrant with ⟨-, hfind⟩ | ⟨lock, -, ⟨hmem, -, -, hfind⟩ |
    ⟨hmem, -, hfind⟩ | ⟨-, -, -, hfind⟩⟩
  · exact ⟨key, _, hfind, List.mem_singleton_self txn⟩
  · exact ⟨key, _, hfind, hmem⟩
  · exact ⟨key, _, hfind, hmem⟩
  · exact ⟨key, _, hfind, List.mem_append_right _ (List.mem_singleton_self txn)⟩

/-- A grant makes nobody else a holder. -/
theorem holds_of_holds_grant (hgrant : m.grantable txn key mode = true)
    (h : (m.grant txn key mode).Holds t) : m.Holds t ∨ t = txn := by
  obtain ⟨key', lock', hfind', hmem'⟩ := holds_iff.1 h
  by_cases hkey : key' = key
  · subst hkey
    rcases find_grant_self hgrant with ⟨-, hfind⟩ | ⟨lock, hlock, hcases⟩
    · rw [hfind] at hfind'
      cases hfind'
      exact Or.inr (List.mem_singleton.1 hmem')
    · rcases hcases with ⟨-, -, -, hfind⟩ | ⟨-, -, hfind⟩ | ⟨-, -, -, hfind⟩
      · rw [hfind] at hfind'
        cases hfind'
        exact Or.inl (holds_iff.2 ⟨key', lock, hlock, hmem'⟩)
      · rw [hfind] at hfind'
        cases hfind'
        exact Or.inl (holds_iff.2 ⟨key', _, hlock, hmem'⟩)
      · rw [hfind] at hfind'
        cases hfind'
        rcases List.mem_append.1 hmem' with hold | hnew
        · exact Or.inl (holds_iff.2 ⟨key', lock, hlock, hold⟩)
        · exact Or.inr (List.mem_singleton.1 hnew)
  · rw [find_grant_of_ne hkey] at hfind'
    exact Or.inl (holds_iff.2 ⟨key', lock', hfind', hmem'⟩)

/-- After a release the transaction holds nothing, and nobody holds anything new. -/
theorem holds_of_holds_release (hm : DistinctHolders m) (h : (m.release txn).Holds t) :
    m.Holds t ∧ t ≠ txn := by
  obtain ⟨key, lock, hfind, hmem⟩ := holds_iff.1 h
  rw [find_release] at hfind
  obtain ⟨lock₀, hlock₀, hrelease⟩ := Option.bind_eq_some_iff.1 hfind
  rw [releaseLock_eq_some hrelease, (hm key lock₀ hlock₀).mem_erase_iff] at hmem
  exact ⟨holds_iff.2 ⟨key, lock₀, hlock₀, hmem.2⟩, hmem.1⟩

end LockManager

/-- A wait that runs out leaves no trace when nobody else waits. -/
theorem timedOutLocks_of_no_waiters {m : LockManager} (hm : m.waiters = .empty) (txn : UInt64)
    (table : Bytes) (mode : LockMode) : Server.timedOutLocks m txn table mode = m := by
  obtain ⟨held, waiters⟩ := m
  obtain rfl : waiters = .empty := hm
  simp [Server.timedOutLocks, LockManager.pushWaiter, LockManager.forgetWaiter,
    LockManager.dropWaiter, AssocMap.assign, AssocMap.find, AssocMap.erase, AssocMap.empty,
    Library.assign, eraseKey]

/-! ## The two managers -/

/-- Every transaction that holds a lock is active. -/
def TidyLocks (txns : TransactionManager) (locks : LockManager) : Prop :=
  ∀ txn, locks.Holds txn → txns.states.find txn = some .active

section

variable {txns txns' : TransactionManager} {locks : LockManager} {txn t : UInt64}

theorem TidyLocks.beginTxn (h : TidyLocks txns locks) : TidyLocks txns.beginTxn.2 locks := by
  intro t ht
  by_cases hne : t = txns.beginTxn.1
  · rw [hne]
    exact TransactionManager.find_beginTxn_self
  · exact (AssocMap.find_assign_of_ne _ _ hne).trans (h t ht)

theorem TidyLocks.grant {key : ResourceKey} {mode : LockMode} (h : TidyLocks txns locks)
    (hgrant : locks.grantable txn key mode = true) (hactive : txns.states.find txn = some .active) :
    TidyLocks txns (locks.grant txn key mode) := by
  intro t ht
  rcases LockManager.holds_of_holds_grant hgrant ht with hold | rfl
  · exact h t hold
  · exact hactive

/-- A transaction that gives its locks back may end. -/
theorem TidyLocks.release (h : TidyLocks txns locks) (hdistinct : DistinctHolders locks)
    (hother : ∀ t, t ≠ txn → txns'.states.find t = txns.states.find t) :
    TidyLocks txns' (locks.release txn) := by
  intro t ht
  obtain ⟨hold, hne⟩ := LockManager.holds_of_holds_release hdistinct ht
  rw [hother t hne]
  exact h t hold

end

/-! ## Requests one after the other -/

variable {σ : Type}

/-- The managers of a new process, over some store. -/
def Server.new (store : σ) : Server σ := ⟨store, .new, .new⟩

namespace HttpApi

/-- The server after a request, whether the request is answered or throws. -/
def serve [StandardLibrary] (P : StorageProvider σ) (parseAll : SqlParser) (s : Server σ)
    (req : JsonRequest) :
    Option (Server σ) :=
  ((executeRequest parseAll req).run (Server.handle P) s).map endState

/-- The runs of requests to a new server. -/
abbrev HttpRun [StandardLibrary] (P : StorageProvider σ) (parseAll : SqlParser) (store : σ) :=
  Run (serve P parseAll) (Server.new store)

/-- The command of a statement. -/
def commandOf : SqlStatement → Option Command
  | .command cmd => some cmd
  | _ => none

/-- The command of a request: only the first statement counts. -/
def dml (parseAll : SqlParser) (req : JsonRequest) : Option Command :=
  if req.type = ascii "query" then (parseAll req.sql).1.head?.bind commandOf else none

/-- The commit of the transaction in the store reports an error or throws. -/
def CommitFails (P : StorageProvider σ) (s : Server σ) (txn : UInt64) : Prop :=
  match (P.commit txn (s.txns.commitSeq + 1)).run s.store with
  | .ok err _ => err.isSentinel = false
  | .error _ _ => True

instance (P : StorageProvider σ) (s : Server σ) (txn : UInt64) : Decidable (CommitFails P s txn) :=
  match h : (P.commit txn (s.txns.commitSeq + 1)).run s.store with
  | .ok err _ => decidable_of_iff (err.isSentinel = false) (by rw [CommitFails, h])
  | .error _ _ => isTrue (by rw [CommitFails, h]; trivial)

/-- The request takes a lock for a transaction that is not active, or it is the COMMIT of a
transaction that holds a lock and whose commit fails in the store. -/
def Leaks (P : StorageProvider σ) (parseAll : SqlParser) (s : Server σ) (req : JsonRequest) : Prop :=
  ∃ txn ∈ req.txnId,
    (∃ cmd ∈ dml parseAll req, s.txns.states.find txn ≠ some .active ∧
      s.locks.grantable txn (tableKey cmd.table) cmd.lockMode = true) ∨
    (req.type = ascii "commit" ∧ s.txns.states.find txn = some .active ∧ s.locks.Holds txn ∧
      CommitFails P s txn)

instance (P : StorageProvider σ) (parseAll : SqlParser) (s : Server σ) (req : JsonRequest) :
    Decidable (Leaks P parseAll s req) :=
  inferInstanceAs (Decidable (∃ txn ∈ req.txnId, _ ∨ _))

/-! ## The branches of a request -/

open Program

variable {P : StorageProvider σ} {s : Server σ} {txn : UInt64} {cmd : Command}

/-- Nobody waits between two requests, so no chain of waits closes. -/
theorem run_detectCycle_none [StandardLibrary] (hwait : s.locks.waiters = .empty) :
    (detectCycle txn).run (Server.handle P) s = some (.ok none s) := by
  rw [run_detectCycle, LockManager.detectCycle_of_not_waiting]
  rw [hwait]
  intro e he
  cases he

/-- The switch ends and leaves the managers alone. -/
theorem run_execute [StandardLibrary] (txn : UInt64) (cmd : Command) (s : Server σ) :
    ∃ r, (execute txn cmd).run (Server.handle P) s = some r ∧
      Server.SameManagers s (endState r) :=
  Server.run_onStore (uses_execute.mono (fun _ hc => hc.onStore) fun _ h => h) s

/-- A command of a named transaction that gets its lock. -/
theorem handleDml_named_granted [StandardLibrary] (hwait : s.locks.waiters = .empty)
    (hgrant : s.locks.grantable txn (tableKey cmd.table) cmd.lockMode = true) :
    ∃ r, (handleDml cmd (some txn)).run (Server.handle P) s = some r ∧
      (endState r).txns = s.txns ∧
      (endState r).locks = s.locks.grant txn (tableKey cmd.table) cmd.lockMode := by
  obtain ⟨r, hr, htxns, hlocks⟩ := run_execute (P := P) txn cmd
    { s with locks := s.locks.grant txn (tableKey cmd.table) cmd.lockMode }
  unfold handleDml
  rw [run_bind_ok (run_pure_eq txn), run_bind_ok (run_detectCycle_none hwait)]
  dsimp only
  rw [run_bind_ok (run_tryAcquire_granted hgrant)]
  dsimp only
  cases r with
  | ok answer t =>
    rw [run_bind_ok hr]
    exact ⟨_, rfl, htxns, hlocks⟩
  | error e t =>
    rw [run_bind_error hr]
    exact ⟨_, rfl, htxns, hlocks⟩

/-- A command of a named transaction that waits in vain. -/
theorem handleDml_named_timedOut [StandardLibrary] (hwait : s.locks.waiters = .empty)
    (hgrant : s.locks.grantable txn (tableKey cmd.table) cmd.lockMode = false) :
    ∃ r, (handleDml cmd (some txn)).run (Server.handle P) s = some r ∧
      (endState r).txns = (s.txns.abortTxn txn).2 ∧ (endState r).locks = s.locks.release txn := by
  unfold handleDml
  rw [run_bind_ok (run_pure_eq txn), run_bind_ok (run_detectCycle_none hwait)]
  dsimp only
  rw [run_bind_ok (run_tryAcquire_timedOut hgrant)]
  dsimp only
  rw [run_bind_ok run_abortTxn, run_bind_ok run_release, timedOutLocks_of_no_waiters hwait]
  exact ⟨_, rfl, rfl, rfl⟩

/-- The end of an auto-commit statement gives the lock back and touches no other transaction. -/
theorem run_autoCommit [StandardLibrary] (txn : UInt64) (answer : Response) (s : Server σ) :
    ∃ r, (autoCommit txn answer).run (Server.handle P) s = some r ∧
      (endState r).locks = s.locks.release txn ∧
      ∀ t, t ≠ txn → (endState r).txns.states.find t = s.txns.states.find t := by
  unfold autoCommit
  rw [run_bind_ok run_release]
  cases answer with
  | error err => exact ⟨_, rfl, rfl, fun _ _ => rfl⟩
  | result rs =>
    dsimp only
    rw [run_bind_ok run_commitTxn, run_bind_ok run_visibleSeq]
    obtain ⟨r, hr, htxns, hlocks⟩ := Server.run_onStore (P := P)
      (show (commit txn _).Uses Call.OnStore from uses_perform trivial)
      { s with txns := (s.txns.commitTxn txn).2, locks := s.locks.release txn }
    have hother : ∀ t, t ≠ txn → (endState r).txns.states.find t = s.txns.states.find t := by
      intro t hne
      rw [htxns]
      exact TransactionManager.find_commitTxn_of_ne hne
    cases r with
    | ok err u =>
      rw [run_bind_ok hr]
      cases err.isSentinel <;> exact ⟨_, rfl, hlocks, hother⟩
    | error e u =>
      rw [run_bind_error hr]
      exact ⟨_, rfl, hlocks, hother⟩

/-- Between two requests nobody waits, and no lock has a holder twice. -/
structure Settled (s : Server σ) : Prop where
  waiters : s.locks.waiters = .empty
  distinct : DistinctHolders s.locks

theorem settled_new (store : σ) : Settled (Server.new store) := by
  refine ⟨rfl, ?_⟩
  intro key lock hfind
  cases hfind

theorem Settled.of_locks {t : Server σ} (hs : Settled s) (h : t.locks = s.locks) : Settled t :=
  ⟨by rw [h]; exact hs.waiters, by rw [h]; exact hs.distinct⟩

theorem Settled.of_grant {t : Server σ} {key : ResourceKey} {mode : LockMode} (hs : Settled s)
    (hgrant : s.locks.grantable txn key mode = true) (h : t.locks = s.locks.grant txn key mode) :
    Settled t := by
  refine ⟨?_, by rw [h]; exact hs.distinct.grant hgrant⟩
  rw [h, LockManager.waiters_grant]
  exact hs.waiters

theorem Settled.of_release {t : Server σ} (hs : Settled s) (h : t.locks = s.locks.release txn) :
    Settled t :=
  ⟨by rw [h]; exact hs.waiters, by rw [h]; exact hs.distinct.release⟩

/-- A command without a transaction takes its lock for one that is active, and gives it back before
that one ends. -/
theorem handleDml_auto [StandardLibrary] (hs : Settled s) (htidy : TidyLocks s.txns s.locks) :
    ∃ r, (handleDml cmd none).run (Server.handle P) s = some r ∧
      Settled (endState r) ∧ TidyLocks (endState r).txns (endState r).locks := by
  -- the server once the transaction has begun
  let s₁ : Server σ := { s with txns := s.txns.beginTxn.2 }
  have hs₁ : Settled s₁ := hs.of_locks rfl
  have htidy₁ : TidyLocks s₁.txns s₁.locks := htidy.beginTxn
  unfold handleDml
  rw [run_bind_ok run_beginTxn, run_bind_ok (run_detectCycle_none hs₁.waiters)]
  dsimp only
  cases hgrant : s₁.locks.grantable s.txns.beginTxn.1 (tableKey cmd.table) cmd.lockMode with
  | true =>
    have htidy₂ := htidy₁.grant hgrant TransactionManager.find_beginTxn_self
    rw [run_bind_ok (run_tryAcquire_granted hgrant)]
    dsimp only
    obtain ⟨r, hr, htxns, hlocks⟩ := run_execute (P := P) s.txns.beginTxn.1 cmd
      { s₁ with locks := s₁.locks.grant s.txns.beginTxn.1 (tableKey cmd.table) cmd.lockMode }
    cases r with
    | error e t =>
      rw [run_bind_error hr]
      refine ⟨_, rfl, hs₁.of_grant hgrant hlocks, ?_⟩
      rw [htxns, hlocks]
      exact htidy₂
    | ok answer t =>
      have ht : Settled t := hs₁.of_grant hgrant hlocks
      obtain ⟨r', hr', hlocks', hother⟩ := run_autoCommit (P := P) s.txns.beginTxn.1 answer t
      rw [run_bind_ok hr]
      refine ⟨r', hr', ht.of_release hlocks', ?_⟩
      rw [hlocks']
      refine TidyLocks.release ?_ ht.distinct hother
      rw [show t.txns = _ from htxns, show t.locks = _ from hlocks]
      exact htidy₂
  | false =>
    rw [run_bind_ok (run_tryAcquire_timedOut hgrant)]
    dsimp only
    rw [run_bind_ok run_abortTxn, run_bind_ok run_release, timedOutLocks_of_no_waiters hs₁.waiters]
    refine ⟨_, rfl, hs₁.of_release rfl, ?_⟩
    exact htidy₁.release hs₁.distinct fun t hne => TransactionManager.find_abortTxn_of_ne hne

/-- The COMMIT of an active transaction: its locks stay when the store fails. -/
theorem run_commitRequest [StandardLibrary] (hactive : s.txns.states.find txn = some .active) :
    ∃ r, (commitRequest (some txn)).run (Server.handle P) s = some r ∧
      (endState r).txns = (s.txns.commitTxn txn).2 ∧
      (CommitFails P s txn → (endState r).locks = s.locks) ∧
      (¬ CommitFails P s txn → (endState r).locks = s.locks.release txn) := by
  have hcommit : (s.txns.commitTxn txn).1 = true := congrArg Prod.fst (if_pos hactive)
  have hseq : (s.txns.commitTxn txn).2.visibleSeq = s.txns.commitSeq + 1 :=
    congrArg (fun x : Bool × TransactionManager => x.2.visibleSeq) (if_pos hactive)
  have hrun : (commit txn (s.txns.commitSeq + 1)).run (Server.handle P)
      { s with txns := (s.txns.commitTxn txn).2 } =
        Server.onStore { s with txns := (s.txns.commitTxn txn).2 }
          (P.commit txn (s.txns.commitSeq + 1)) := run_perform _
  unfold commitRequest
  rw [run_bind_ok run_commitTxn, hcommit, if_pos rfl, run_bind_ok run_visibleSeq, hseq]
  cases hstore : (P.commit txn (s.txns.commitSeq + 1)).run s.store with
  | error e store =>
    have hfails : CommitFails P s txn := by
      rw [CommitFails, hstore]
      trivial
    rw [Server.onStore, hstore] at hrun
    rw [run_bind_error hrun]
    exact ⟨_, rfl, rfl, fun _ => rfl, fun hnot => absurd hfails hnot⟩
  | ok err store =>
    have hfails : CommitFails P s txn ↔ err.isSentinel = false := by rw [CommitFails, hstore]
    rw [Server.onStore, hstore] at hrun
    rw [run_bind_ok hrun, hfails]
    cases hok : err.isSentinel with
    | true => exact ⟨_, rfl, rfl, fun h => absurd h (by simp), fun _ => rfl⟩
    | false => exact ⟨_, rfl, rfl, fun _ => rfl, fun h => absurd rfl h⟩

/-- The COMMIT of any other transaction is refused. -/
theorem run_commitRequest_refused [StandardLibrary]
    (hactive : s.txns.states.find txn ≠ some .active) :
    ∃ r, (commitRequest (some txn)).run (Server.handle P) s = some r ∧
      Server.SameManagers s (endState r) := by
  have hcommit : s.txns.commitTxn txn = (false, s.txns) := if_neg hactive
  unfold commitRequest
  rw [run_bind_ok run_commitTxn, hcommit]
  exact ⟨_, rfl, rfl, rfl⟩

/-- A ROLLBACK gives the locks back, unless the store throws. -/
theorem run_rollbackRequest [StandardLibrary] (txn : UInt64) (s : Server σ) :
    ∃ r, (rollbackRequest (some txn)).run (Server.handle P) s = some r ∧
      (Server.SameManagers s (endState r) ∨
        ((endState r).txns = (s.txns.abortTxn txn).2 ∧
          (endState r).locks = s.locks.release txn)) := by
  obtain ⟨r, hr, htxns, hlocks⟩ := Server.run_onStore (P := P)
    (show (abort txn).Uses Call.OnStore from uses_perform trivial) s
  unfold rollbackRequest
  cases r with
  | error e t =>
    rw [run_bind_error hr]
    exact ⟨_, rfl, Or.inl ⟨htxns, hlocks⟩⟩
  | ok err t =>
    rw [run_bind_ok hr, run_bind_ok run_abortTxn, run_bind_ok run_release]
    refine ⟨_, rfl, Or.inr ⟨?_, ?_⟩⟩
    · exact congrArg (fun x => (TransactionManager.abortTxn x txn).2) htxns
    · exact congrArg (fun x => LockManager.release x txn) hlocks

/-! ## A request -/

section

variable {parseAll : SqlParser} {req : JsonRequest}

theorem leaks_iff_of_query (hquery : req.type = ascii "query") :
    Leaks P parseAll s req ↔ ∃ txn ∈ req.txnId, ∃ cmd ∈ dml parseAll req,
      s.txns.states.find txn ≠ some .active ∧
      s.locks.grantable txn (tableKey cmd.table) cmd.lockMode = true := by
  have hcommit : req.type ≠ ascii "commit" := by
    rw [hquery]
    decide
  constructor
  · rintro ⟨txn, htxn, hdml | ⟨hc, -⟩⟩
    · exact ⟨txn, htxn, hdml⟩
    · exact absurd hc hcommit
  · rintro ⟨txn, htxn, hdml⟩
    exact ⟨txn, htxn, Or.inl hdml⟩

theorem leaks_iff_of_not_query (hquery : req.type ≠ ascii "query") :
    Leaks P parseAll s req ↔ req.type = ascii "commit" ∧ ∃ txn ∈ req.txnId,
      s.txns.states.find txn = some .active ∧ s.locks.Holds txn ∧ CommitFails P s txn := by
  have hdml : dml parseAll req = none := if_neg hquery
  constructor
  · rintro ⟨txn, htxn, ⟨cmd, hcmd, -⟩ | ⟨hc, hrest⟩⟩
    · rw [hdml] at hcmd
      cases hcmd
    · exact ⟨hc, txn, htxn, hrest⟩
  · rintro ⟨hc, txn, htxn, hrest⟩
    exact ⟨txn, htxn, Or.inr ⟨hc, hrest⟩⟩

/-- A request that leaves the managers tidy and does not leak. -/
theorem kept {t : Server σ} (ht : Settled t) (htidy : TidyLocks t.txns t.locks)
    (hnot : ¬ Leaks P parseAll s req) :
    Settled t ∧ (TidyLocks t.txns t.locks ↔ ¬ Leaks P parseAll s req) :=
  ⟨ht, fun _ => hnot, fun _ => htidy⟩

theorem kept_of_same {t : Server σ} (hs : Settled s) (htidy : TidyLocks s.txns s.locks)
    (hsame : Server.SameManagers s t) (hnot : ¬ Leaks P parseAll s req) :
    Settled t ∧ (TidyLocks t.txns t.locks ↔ ¬ Leaks P parseAll s req) := by
  apply kept (hs.of_locks hsame.2) _ hnot
  rw [hsame.1, hsame.2]
  exact htidy

variable [StandardLibrary]

/-- A query: only a command of a named transaction can leak. -/
theorem run_statement (hs : Settled s) (htidy : TidyLocks s.txns s.locks)
    (hquery : req.type = ascii "query") {stmt : SqlStatement} {rest : List SqlStatement}
    (hparse : (parseAll req.sql).1 = stmt :: rest) :
    ∃ r, (executeStatement req.txnId stmt).run (Server.handle P) s = some r ∧
      Settled (endState r) ∧
      (TidyLocks (endState r).txns (endState r).locks ↔ ¬ Leaks P parseAll s req) := by
  have hdml : dml parseAll req = commandOf stmt := by
    rw [dml, if_pos hquery, hparse]
    rfl
  have hnot : (∀ cmd, stmt ≠ .command cmd) → ¬ Leaks P parseAll s req := by
    intro hstmt hleaks
    obtain ⟨-, -, cmd, hcmd, -⟩ := (leaks_iff_of_query hquery).1 hleaks
    rw [hdml] at hcmd
    cases stmt with
    | command cmd' => exact hstmt cmd' rfl
    | _ => cases hcmd
  cases stmt with
  | createTable schema =>
    obtain ⟨r, hr, hsame⟩ := Server.run_onStore (P := P)
      (show (executeStatement req.txnId (.createTable schema)).Uses Call.OnStore from
        uses_bind (uses_perform trivial) fun _ => uses_pure _) s
    exact ⟨r, hr, kept_of_same hs htidy hsame (hnot fun _ h => nomatch h)⟩
  | dropTable table =>
    obtain ⟨r, hr, hsame⟩ := Server.run_onStore (P := P)
      (show (executeStatement req.txnId (.dropTable table)).Uses Call.OnStore from
        uses_bind (uses_perform trivial) fun _ => uses_pure _) s
    exact ⟨r, hr, kept_of_same hs htidy hsame (hnot fun _ h => nomatch h)⟩
  | alterTable table spec =>
    obtain ⟨r, hr, hsame⟩ := Server.run_onStore (P := P)
      (show (executeStatement req.txnId (.alterTable table spec)).Uses Call.OnStore from
        uses_bind (uses_perform trivial) fun _ => uses_pure _) s
    exact ⟨r, hr, kept_of_same hs htidy hsame (hnot fun _ h => nomatch h)⟩
  | txnBegin =>
    exact ⟨_, rfl, kept (hs.of_locks rfl) htidy.beginTxn (hnot fun _ h => nomatch h)⟩
  | txnCommit => exact ⟨_, rfl, kept hs htidy (hnot fun _ h => nomatch h)⟩
  | txnRollback => exact ⟨_, rfl, kept hs htidy (hnot fun _ h => nomatch h)⟩
  | command cmd =>
    -- the answer of the command is passed on
    suffices hcmd : ∃ r, (handleDml cmd req.txnId).run (Server.handle P) s = some r ∧
        Settled (endState r) ∧
        (TidyLocks (endState r).txns (endState r).locks ↔ ¬ Leaks P parseAll s req) by
      obtain ⟨r, hr, hend⟩ := hcmd
      unfold executeStatement
      cases r with
      | ok answer t =>
        rw [run_bind_ok hr]
        exact ⟨_, rfl, hend⟩
      | error e t =>
        rw [run_bind_error hr]
        exact ⟨_, rfl, hend⟩
    rw [leaks_iff_of_query hquery, hdml]
    cases htxn : req.txnId with
    | none =>
      obtain ⟨r, hr, hend⟩ := handleDml_auto (P := P) hs htidy
      refine ⟨r, hr, hend.1, fun _ => ?_, fun _ => hend.2⟩
      rintro ⟨txn, hmem, -⟩
      cases hmem
    | some txn =>
      cases hgrant : s.locks.grantable txn (tableKey cmd.table) cmd.lockMode with
      | false =>
        obtain ⟨r, hr, htxns, hlocks⟩ := handleDml_named_timedOut (P := P) hs.waiters hgrant
        refine ⟨r, hr, hs.of_release hlocks, fun _ => ?_, fun _ => ?_⟩
        · rintro ⟨txn', hmem, cmd', hcmd', -, hgrant'⟩
          cases hmem
          cases hcmd'
          rw [hgrant] at hgrant'
          cases hgrant'
        · rw [htxns, hlocks]
          exact htidy.release hs.distinct fun t hne => TransactionManager.find_abortTxn_of_ne hne
      | true =>
        obtain ⟨r, hr, htxns, hlocks⟩ := handleDml_named_granted (P := P) hs.waiters hgrant
        refine ⟨r, hr, hs.of_grant hgrant hlocks, ?_⟩
        rw [htxns, hlocks]
        constructor
        · rintro htidy' ⟨txn', hmem, -, -, hinactive, -⟩
          cases hmem
          exact hinactive (htidy' txn (LockManager.holds_of_grant hgrant))
        · intro hnot'
          apply htidy.grant hgrant
          by_contra hinactive
          exact hnot' ⟨txn, rfl, cmd, rfl, hinactive, hgrant⟩

/-- A COMMIT: only one that fails in the store can leak. -/
theorem run_commit (hs : Settled s) (htidy : TidyLocks s.txns s.locks)
    (hcommit : req.type = ascii "commit") :
    ∃ r, (commitRequest req.txnId).run (Server.handle P) s = some r ∧
      Settled (endState r) ∧
      (TidyLocks (endState r).txns (endState r).locks ↔ ¬ Leaks P parseAll s req) := by
  rw [leaks_iff_of_not_query (by rw [hcommit]; decide)]
  cases htxn : req.txnId with
  | none =>
    refine ⟨_, rfl, hs, fun _ => ?_, fun _ => htidy⟩
    rintro ⟨-, txn, hmem, -⟩
    cases hmem
  | some txn =>
    by_cases hactive : s.txns.states.find txn = some .active
    · obtain ⟨r, hr, htxns, hstay, hgone⟩ := run_commitRequest (P := P) hactive
      refine ⟨r, hr, ?_⟩
      -- a commit that fails in the store is answered before the table locks are let go
      by_cases hfails : CommitFails P s txn
      · have hlocks := hstay hfails
        refine ⟨hs.of_locks hlocks, ?_⟩
        rw [htxns, hlocks]
        constructor
        · rintro htidy' ⟨-, txn', hmem, -, hholds, -⟩
          cases hmem
          have hstill := htidy' txn hholds
          rw [TransactionManager.commitTxn, if_pos hactive, AssocMap.find_assign_self] at hstill
          cases hstill
        · intro hnot t ht
          by_cases hne : t = txn
          · subst hne
            exact absurd ⟨hcommit, t, rfl, hactive, ht, hfails⟩ hnot
          · rw [TransactionManager.find_commitTxn_of_ne hne]
            exact htidy t ht
      · have hlocks := hgone hfails
        refine ⟨hs.of_release hlocks, fun _ => ?_, fun _ => ?_⟩
        · rintro ⟨-, txn', hmem, -, -, hfails'⟩
          cases hmem
          exact hfails hfails'
        · rw [htxns, hlocks]
          exact htidy.release hs.distinct fun t hne => TransactionManager.find_commitTxn_of_ne hne
    -- the dispatcher refuses a transaction that is not active and changes no table
    · obtain ⟨r, hr, hsame⟩ := run_commitRequest_refused (P := P) hactive
      refine ⟨r, hr, hs.of_locks hsame.2, fun _ => ?_, fun _ => ?_⟩
      · rintro ⟨-, txn', hmem, hactive', -⟩
        cases hmem
        exact hactive hactive'
      · rw [hsame.1, hsame.2]
        exact htidy

/-- A request keeps the locks tidy exactly when it does not leak. -/
theorem run_executeRequest (parseAll : SqlParser) (req : JsonRequest) (hs : Settled s)
    (htidy : TidyLocks s.txns s.locks) :
    ∃ r, (executeRequest parseAll req).run (Server.handle P) s = some r ∧
      Settled (endState r) ∧
      (TidyLocks (endState r).txns (endState r).locks ↔ ¬ Leaks P parseAll s req) := by
  have hnot : req.type ≠ ascii "query" → req.type ≠ ascii "commit" →
      ¬ Leaks P parseAll s req := by
    intro hquery hcommit hleaks
    exact hcommit ((leaks_iff_of_not_query hquery).1 hleaks).1
  unfold executeRequest
  split_ifs with hbegin hcommit hrollback hquery
  · have hkeep : ¬ Leaks P parseAll s req := by
      apply hnot <;> rw [hbegin] <;> decide
    exact ⟨_, rfl, kept (hs.of_locks rfl) htidy.beginTxn hkeep⟩
  · exact run_commit hs htidy hcommit
  · have hkeep : ¬ Leaks P parseAll s req := by
      apply hnot <;> rw [hrollback] <;> decide
    cases htxn : req.txnId with
    | none => exact ⟨_, rfl, kept hs htidy hkeep⟩
    | some txn =>
      obtain ⟨r, hr, hsame | ⟨htxns, hlocks⟩⟩ := run_rollbackRequest (P := P) txn s
      · exact ⟨r, hr, kept_of_same hs htidy hsame hkeep⟩
      · refine ⟨r, hr, kept (hs.of_release hlocks) ?_ hkeep⟩
        rw [htxns, hlocks]
        exact htidy.release hs.distinct fun t hne => TransactionManager.find_abortTxn_of_ne hne
  · split
    · rename_i error hparse
      refine ⟨_, rfl, kept hs htidy ?_⟩
      intro hleaks
      obtain ⟨-, -, cmd, hcmd, -⟩ := (leaks_iff_of_query hquery).1 hleaks
      rw [dml, if_pos hquery, hparse] at hcmd
      cases hcmd
    · rename_i stmt rest error hparse
      exact run_statement hs htidy hquery (congrArg Prod.fst hparse)
  · exact ⟨_, rfl, kept hs htidy (hnot hquery hcommit)⟩

end

/-- In every run of requests all locks belong to active transactions, in every state reached, if and
only if no request leaks. -/
theorem locks_of_active_iff [StandardLibrary] {parseAll : SqlParser} {store : σ}
    {trace : List (Server σ × JsonRequest)} (h : HttpRun P parseAll store trace s) :
    ((∀ p ∈ trace, TidyLocks p.1.txns p.1.locks) ∧ TidyLocks s.txns s.locks) ↔
      ∀ p ∈ trace, ¬ Leaks P parseAll p.1 p.2 := by
  apply Run.forall_iff (P := fun s : Server σ => TidyLocks s.txns s.locks) (settled_new store) _ _ h
  · intro txn hholds
    obtain ⟨e, he, -⟩ := hholds
    cases he
  · intro s req s' hs htidy hserve
    obtain ⟨r, hr, hend⟩ := run_executeRequest (P := P) parseAll req hs htidy
    rw [serve, hr] at hserve
    cases hserve
    exact hend

/-! ## Two runs over the in-memory store -/

def insertDefaultsText : Bytes := ascii "INSERT INTO t DEFAULT VALUES"

/-- The parser on one text. -/
def insertDefaultsParser : SqlParser := fun sql =>
  if sql = insertDefaultsText then ([.command (.insert (ascii "t") .empty)], [])
  else ([], ascii "unknown statement type")

/-- A request for that text, in a transaction. -/
def insertDefaultsIn (txn : UInt64) : JsonRequest := ⟨ascii "query", insertDefaultsText, some txn⟩

/-- BEGIN, an INSERT in the new transaction, and its COMMIT. -/
def wholeTransaction : List JsonRequest :=
  [⟨ascii "begin", [], none⟩, insertDefaultsIn 1, ⟨ascii "commit", [], some 1⟩]

theorem locks_of_whole_transaction :
    ∃ trace s, HttpRun InMemory.provider insertDefaultsParser InMemory.new trace s ∧
      trace.map Prod.snd = wholeTransaction ∧
      (∀ p ∈ trace, TidyLocks p.1.txns p.1.locks) ∧ TidyLocks s.txns s.locks := by
  have hend : (follow (serve InMemory.provider insertDefaultsParser) wholeTransaction
      (Server.new InMemory.new)).2.isSome = true := by decide +kernel
  obtain ⟨s, hs⟩ := Option.isSome_iff_exists.1 hend
  have hrun := Run.of_follow hs
  have htidy := (locks_of_active_iff hrun).2 (by decide +kernel)
  exact ⟨_, s, hrun, by decide +kernel, htidy.1, htidy.2⟩

/-- A transaction id that nobody has begun gets a lock. -/
theorem unknown_transaction_keeps_lock :
    ∃ trace s, HttpRun InMemory.provider insertDefaultsParser InMemory.new trace s ∧
      ¬ TidyLocks s.txns s.locks := by
  have hend : (follow (serve InMemory.provider insertDefaultsParser) [insertDefaultsIn 7]
      (Server.new InMemory.new)).2.isSome = true := by decide +kernel
  have hleak : ∀ s ∈ (follow (serve InMemory.provider insertDefaultsParser) [insertDefaultsIn 7]
      (Server.new InMemory.new)).2,
        s.locks.Holds 7 ∧ s.txns.states.find 7 ≠ some .active := by decide +kernel
  obtain ⟨s, hs⟩ := Option.isSome_iff_exists.1 hend
  refine ⟨_, s, Run.of_follow hs, ?_⟩
  intro htidy
  exact (hleak s hs).2 (htidy 7 (hleak s hs).1)

end HttpApi

end OpenDB
