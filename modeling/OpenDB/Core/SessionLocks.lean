import OpenDB.Core.HttpLocks
import OpenDB.Core.Serializability

/-!
# Locks of a dispatcher session

A session of the dispatcher keeps the locks of its explicit transactions from command to command, and
gives them back when it ends. Whether a transaction may hold a lock is an account that the calls of
the session change (`Call.holding`). However its commands end, the session leaves nothing on that
account (`leaves_runSession`).

Among other clients of the same server the account bounds the locks of a transaction that only the
session asks locks for (`System.Accounted.step`), so at the end of the session such a transaction
holds no lock (`session_leaves_no_lock`).
-/

set_option autoImplicit false

namespace OpenDB

open OpenDB.Library Exec Program

/-- Whether the transaction may hold a lock after the call. -/
def Call.holding (txn : UInt64) : (c : Call) → c.Result → Prop → Prop
  | .acquire t _ _, _, held => held ∨ txn = t
  | .tryAcquire t _ _, .granted, held => held ∨ txn = t
  | .release t, _, held => held ∧ txn ≠ t
  | _, _, held => held

/-! ## The account of a session -/

section

variable {txn t : UInt64} {held : Prop}

theorem holding_of_onStore (c : Call) (hc : c.OnStore) (r : c.Result) (held : Prop) :
    c.holding txn r held = held := by
  cases c <;> first | rfl | exact hc.elim

theorem leaves_abortVictim :
    (abortVictim t).Leaves (Call.holding txn) (fun _ after => after → held) held := by
  unfold abortVictim
  apply leaves_bind (leaves_perform (Q := fun _ after => after = held) fun _ => rfl)
  rintro _ _ rfl
  exact leaves_perform fun _ hafter => hafter.1

end

namespace EngineDispatcher

variable {txn t : UInt64} {held : Prop} {openTxns : List UInt64} {cmd : Command}
  {lockTimeout queryTimeout : Nat}

/-- The transaction of a command that commits by itself holds nothing afterwards. -/
theorem leaves_autoCommit :
    (autoCommit t).Leaves (Call.holding txn) (fun _ after => after → held) (held ∨ txn = t) := by
  unfold autoCommit
  apply leaves_bind (leaves_perform (Q := fun _ after => after = (held ∨ txn = t)) fun _ => rfl)
  rintro _ _ rfl
  apply leaves_bind (leaves_perform (Q := fun _ after => after = (held ∨ txn = t)) fun _ => rfl)
  rintro seq _ rfl
  apply leaves_bind (leaves_perform (Q := fun _ after => after = (held ∨ txn = t)) fun _ => rfl)
  rintro err _ rfl
  apply leaves_bind (leaves_perform (Q := fun _ after => after → held) ?_)
  · exact fun _ _ hafter => leaves_pure hafter
  · rintro _ ⟨hold | heq, hne⟩
    · exact hold
    · exact absurd heq hne

/-- After a command, only transactions that the session remembers may hold a lock. -/
theorem leaves_runCommand (hheld : held → txn ∈ openTxns) :
    (runCommand lockTimeout cmd openTxns).Leaves (Call.holding txn)
      (fun answer after => after → txn ∈ answer.2) held := by
  unfold runCommand
  apply leaves_bind (leaves_perform (Q := fun _ after => after = held) fun _ => rfl)
  rintro begun held rfl
  apply leaves_bind (leaves_perform (Q := fun _ after => after = held) fun _ => rfl)
  rintro cycle held rfl
  cases cycle with
  | some victim =>
    -- a release takes nothing up
    apply leaves_bind leaves_abortVictim
    exact fun _ _ hafter => leaves_pure fun h => hheld (hafter h)
  | none =>
    apply leaves_bind (leaves_perform (Q := fun r after =>
      after = (Call.tryAcquire (cmd.txnId.getD begun) cmd.table cmd.lockMode).holding txn r held)
      fun _ => rfl)
    rintro answer _ rfl
    cases answer with
    | timedOut =>
      apply leaves_bind (leaves_perform (Q := fun _ after => after = held) fun _ => rfl)
      rintro _ held rfl
      exact leaves_pure hheld
    | granted =>
      apply leaves_bind (leaves_of_uses (fun c hc r held => holding_of_onStore c hc.onStore r held)
        uses_executeCaught)
      rintro answer _ rfl
      dsimp only [Call.holding]
      split_ifs
      · apply leaves_bind leaves_autoCommit
        exact fun _ _ hafter => leaves_pure fun h => hheld (hafter h)
      · refine leaves_pure ?_
        rintro (hold | heq)
        · exact List.mem_append_left _ (hheld hold)
        · exact List.mem_append_right _ (List.mem_singleton.2 heq)

/-- The leak guard releases whatever the session remembers. -/
theorem leaves_closeSession (hheld : held → txn ∈ openTxns) :
    (closeSession openTxns).Leaves (Call.holding txn) (fun _ after => ¬ after) held := by
  induction openTxns generalizing held with
  | nil => exact leaves_pure fun h => List.not_mem_nil (hheld h)
  | cons first openTxns ih =>
    rw [closeSession]
    apply leaves_bind (leaves_perform (Q := fun _ after => after = held) fun _ => rfl)
    rintro _ held rfl
    apply leaves_bind (leaves_perform (Q := fun _ after => after = (held ∧ txn ≠ first)) fun _ => rfl)
    rintro _ _ rfl
    refine ih ?_
    rintro ⟨hold, hne⟩
    exact (List.mem_cons.1 (hheld hold)).resolve_left hne

/-- A session leaves no lock behind, after any commands and wherever it runs out of time. -/
theorem leaves_runSession {cmds : List (Option Command)} (hheld : held → txn ∈ openTxns) :
    (runSession lockTimeout queryTimeout cmds openTxns).Leaves (Call.holding txn)
      (fun _ after => ¬ after) held := by
  induction cmds generalizing held openTxns with
  | nil =>
    rw [runSession]
    apply leaves_bind (leaves_closeSession hheld)
    exact fun _ _ hafter => leaves_pure hafter
  | cons cmd cmds ih =>
    cases cmd with
    | none =>
      rw [runSession]
      apply leaves_bind (leaves_closeSession hheld)
      exact fun _ _ hafter => leaves_pure hafter
    | some cmd =>
      rw [runSession]
      apply leaves_bind (leaves_runCommand hheld)
      rintro ⟨answers, openTxns'⟩ after hafter
      apply leaves_bind (ih hafter)
      exact fun _ _ hend => leaves_pure hend

end EngineDispatcher

/-! ## The account among other clients -/

/-- The call asks for a lock of the transaction. -/
def Call.AsksFor (txn : UInt64) : Call → Prop
  | .acquire t _ _ => txn = t
  | .tryAcquire t _ _ => txn = t
  | _ => False

instance (txn : UInt64) : (c : Call) → Decidable (c.AsksFor txn)
  | .acquire t _ _ | .tryAcquire t _ _ => inferInstanceAs (Decidable (txn = t))
  | .beginTxn | .visibleSeq | .commitTxn _ | .abortTxn _ | .detectCycle _ | .release _
  | .scan _ _ | .put _ _ _ _ | .remove _ _ _ | .prepare _ | .commit _ _ | .abort _
  | .createTable _ | .dropTable _ | .alterTable _ _ | .describeTable _ => isFalse id

theorem Call.held_of_holding {txn : UInt64} {c : Call} {r : c.Result} {held : Prop}
    (hc : ¬ c.AsksFor txn) (h : c.holding txn r held) : held := by
  cases c with
  | acquire t table mode => exact h.resolve_right hc
  | tryAcquire t table mode =>
    cases r with
    | granted => exact h.resolve_right hc
    | timedOut => exact h
  | release t => exact h.1
  | _ => exact h

theorem LockManager.Holds.of_held {m m' : LockManager} {txn : UInt64} (hheld : m'.held = m.held)
    (h : m'.Holds txn) : m.Holds txn := by
  unfold LockManager.Holds at h ⊢
  rwa [hheld] at h

theorem DistinctHolders.of_held {m m' : LockManager} (hheld : m'.held = m.held)
    (h : DistinctHolders m) : DistinctHolders m' := by
  unfold DistinctHolders at h ⊢
  rwa [hheld]

theorem Call.holding_mono {txn : UInt64} {c : Call} {r : c.Result} {a b : Prop} (hab : a → b)
    (h : c.holding txn r a) : c.holding txn r b := by
  cases c with
  | acquire t table mode => exact h.imp_left hab
  | tryAcquire t table mode =>
    cases r with
    | granted => exact h.imp_left hab
    | timedOut => exact hab h
  | release t => exact ⟨hab h.1, h.2⟩
  | _ => exact hab h

/-- What a call that is no request for a lock does to the locks. -/
theorem Server.handle_holding [StandardLibrary] {σ : Type} {P : StorageProvider σ} {s : Server σ}
    {c : Call} {x : EStateM.Result Fault (Server σ) c.Result}
    (hhandle : Server.handle P c s = some x) (hc : ¬ c.IsRequest)
    (hdistinct : DistinctHolders s.locks) (txn : UInt64) :
    DistinctHolders (endState x).locks ∧ ((endState x).locks.Holds txn →
      match x with
      | .ok r _ => c.holding txn r (s.locks.Holds txn)
      | .error _ _ => s.locks.Holds txn) := by
  by_cases hstore : c.OnStore
  · obtain ⟨y, hy, -, hlocks⟩ := Server.handle_onStore P hstore s
    obtain rfl : y = x := Option.some.inj (hy.symm.trans hhandle)
    rw [hlocks]
    refine ⟨hdistinct, fun hholds => ?_⟩
    cases y with
    | ok r server =>
      dsimp only
      rwa [holding_of_onStore c hstore]
    | error e server => exact hholds
  · cases c with
    | release t =>
      cases hhandle
      exact ⟨hdistinct.release, LockManager.holds_of_holds_release hdistinct⟩
    | acquire t table mode => exact absurd trivial hc
    | tryAcquire t table mode => exact absurd trivial hc
    | beginTxn | commitTxn | abortTxn | visibleSeq | detectCycle =>
      cases hhandle
      exact ⟨hdistinct, id⟩
    | _ => exact absurd trivial hstore

namespace System

variable {ι σ : Type} [DecidableEq ι] {P : StorageProvider σ} {s s' : System ι σ} {i j : ι}
  {txn : UInt64}

/-- In the turn a client other than `i` asks for a lock of the transaction. -/
def AskedByOthers (s : System ι σ) (i : ι) (txn : UInt64) : Turn ι → Prop
  | .run j => j ≠ i ∧
    match (s.clients j).program with
    | Program.call c _ _ => c.AsksFor txn
    | _ => False
  | .timeout _ => False

instance (s : System ι σ) (i : ι) (txn : UInt64) : (e : Turn ι) → Decidable (s.AskedByOthers i txn e)
  | .run j =>
    match h : (s.clients j).program with
    | Program.call c _ _ =>
      decidable_of_iff (j ≠ i ∧ c.AsksFor txn) (by unfold AskedByOthers; dsimp only; rw [h])
    | Program.pure _ => isFalse (by unfold AskedByOthers; dsimp only; rw [h]; exact And.right)
    | Program.throw _ => isFalse (by unfold AskedByOthers; dsimp only; rw [h]; exact And.right)
  | .timeout _ => isFalse id

/-- The account of the client bounds what the transaction holds. -/
structure Accounted (s : System ι σ) (i : ι) (txn : UInt64) : Prop where
  distinct : DistinctHolders s.server.locks
  account : ∃ held : Prop, (s.server.locks.Holds txn → held) ∧
    (s.clients i).program.Leaves (Call.holding txn) (fun _ after => ¬ after) held

/-- A client has moved on, and its account and the locks have changed as `after` says. -/
theorem Accounted.moved (h : s.Accounted i txn) {p : Exec (List Response)} (after : Prop → Prop)
    (hmono : ∀ {a b : Prop}, (a → b) → after a → after b)
    (hleaves : ∀ held,
      (s.clients j).program.Leaves (Call.holding txn) (fun _ after => ¬ after) held →
        p.Leaves (Call.holding txn) (fun _ after => ¬ after) (after held))
    (hothers : j ≠ i → ∀ a, after a → a)
    (hprograms : ∀ k, (s'.clients k).program = if k = j then p else (s.clients k).program)
    (hdistinct : DistinctHolders s'.server.locks)
    (hholds : s'.server.locks.Holds txn → after (s.server.locks.Holds txn)) :
    s'.Accounted i txn := by
  obtain ⟨held, hheld, haccount⟩ := h.account
  refine ⟨hdistinct, ?_⟩
  rw [hprograms]
  by_cases hij : i = j
  · rw [if_pos hij]
    exact ⟨after held, fun hholds' => hmono hheld (hholds hholds'), hleaves held (hij ▸ haccount)⟩
  · rw [if_neg hij]
    exact ⟨held, fun hholds' => hheld (hothers (Ne.symm hij) _ (hholds hholds')), haccount⟩

theorem program_update (k : ι) (p : Exec (List Response)) (w : Bool) :
    (Function.update s.clients j ⟨p, w⟩ k).program = if k = j then p else (s.clients k).program := by
  by_cases hkj : k = j
  · subst hkj
    simp
  · simp [hkj]

/-- The turn of a client whose next call is no request for a lock. -/
theorem step_call_cases [StandardLibrary] {c : Call} {next : c.Result → Exec (List Response)}
    {fault : Fault → Exec (List Response)}
    (hprog : (s.clients j).program = Program.call c next fault) (hc : ¬ c.IsRequest)
    (hstep : s.step P (.run j) = some s') :
    ∃ x, Server.handle P c s.server = some x ∧
      match x with
      | .ok r server => s' = { s.advance j (next r) server with ended := c.ends ++ s.ended }
      | .error e server => s' = s.advance j (fault e) server := by
  rw [System.step, hprog] at hstep
  cases c with
  | acquire t table mode => exact absurd trivial hc
  | tryAcquire t table mode => exact absurd trivial hc
  | _ =>
    dsimp only at hstep
    split at hstep
    · cases hstep
    · rename_i hhandle
      cases hstep
      exact ⟨_, hhandle, rfl⟩
    · rename_i hhandle
      cases hstep
      exact ⟨_, hhandle, rfl⟩

/-- A client asks for a lock, and is granted it or goes on waiting. -/
theorem Accounted.requested (h : s.Accounted i txn) {t : UInt64} {table : Bytes} {mode : LockMode}
    {kind : CallKind} {p : Exec (List Response)}
    (hleaves : ∀ held,
      (s.clients j).program.Leaves (Call.holding txn) (fun _ after => ¬ after) held →
        p.Leaves (Call.holding txn) (fun _ after => ¬ after) (held ∨ txn = t))
    (hothers : j ≠ i → txn ≠ t) :
    (s.requested j (s.server.locks.request kind (s.clients j).waiting t table mode) p).Accounted
      i txn := by
  unfold System.requested
  split_ifs with hanswer
  · obtain ⟨hgrant, hheld⟩ := request_granted hanswer
    apply h.moved (j := j) (fun held => held ∨ txn = t) (fun hab h => h.imp_left hab) hleaves
    · exact fun hji a ha => ha.resolve_right (hothers hji)
    · exact fun k => program_update k p false
    · exact (h.distinct.grant hgrant).of_held hheld
    · exact fun hholds => LockManager.holds_of_holds_grant hgrant (hholds.of_held hheld)
  · have hheld := request_waiting (Bool.eq_false_iff.2 hanswer)
    apply h.moved (j := j) id id (fun _ => id) (fun _ _ => id)
    · exact fun k => program_update k _ true
    · exact h.distinct.of_held hheld
    · exact fun hholds => hholds.of_held hheld

/-- A turn keeps the account. -/
theorem Accounted.step [StandardLibrary] (h : s.Accounted i txn) {e : Turn ι}
    (hstep : s.step P e = some s') (hothers : ¬ s.AskedByOthers i txn e) : s'.Accounted i txn := by
  cases e with
  | run j =>
    cases hprog : (s.clients j).program with
    | pure answers =>
      rw [System.step, hprog] at hstep
      cases hstep
    | throw fault =>
      rw [System.step, hprog] at hstep
      cases hstep
    | call c next fault =>
      -- another session never asks on behalf of `txn`
      have hasks : j ≠ i → ¬ c.AsksFor txn := by
        intro hji hc
        refine hothers ⟨hji, ?_⟩
        rw [hprog]
        exact hc
      by_cases hc : c.IsRequest
      · cases c with
        | acquire t table mode =>
          rw [System.step, hprog] at hstep
          cases hstep
          refine h.requested (fun held hleaves => ?_) hasks
          rw [hprog] at hleaves
          exact hleaves.1 ()
        | tryAcquire t table mode =>
          rw [System.step, hprog] at hstep
          cases hstep
          refine h.requested (fun held hleaves => ?_) hasks
          rw [hprog] at hleaves
          exact hleaves.1 .granted
        | _ => exact hc.elim
      · obtain ⟨x, hhandle, hs'⟩ := step_call_cases hprog hc hstep
        obtain ⟨hdistinct, hholds⟩ := Server.handle_holding hhandle hc h.distinct txn
        cases x with
        | ok r server =>
          subst hs'
          apply h.moved (j := j) (c.holding txn r) Call.holding_mono
          · intro held hleaves
            rw [hprog] at hleaves
            exact hleaves.1 r
          · exact fun hji a ha => Call.held_of_holding (hasks hji) ha
          · exact fun k => program_update k _ false
          · exact hdistinct
          · exact hholds
        | error e server =>
          subst hs'
          apply h.moved (j := j) id id
          · intro held hleaves
            rw [hprog] at hleaves
            exact hleaves.2 e
          · exact fun _ _ => id
          · exact fun k => program_update k _ false
          · exact hdistinct
          · exact hholds
  | timeout j =>
    unfold System.step at hstep
    dsimp only at hstep
    split at hstep
    -- a timeout forgets a waiter only, the held locks stay
    · rename_i t table mode next fault hprog hwaiting
      cases hstep
      apply h.moved (j := j) id id
      · intro held hleaves
        rw [hprog] at hleaves
        exact hleaves.1 .timedOut
      · exact fun _ _ => id
      · exact fun k => program_update k _ false
      · exact h.distinct.of_held LockManager.held_forgetWaiter
      · exact fun hholds => hholds.of_held LockManager.held_forgetWaiter
    · cases hstep

end System

/-- When a session of the dispatcher has ended, no transaction that only the session asks locks for
holds a lock, whatever the store and the other clients of the server have done. -/
theorem session_leaves_no_lock [StandardLibrary] {ι σ : Type} [DecidableEq ι]
    (P : StorageProvider σ) {s₀ s : System ι σ} {i : ι} {lockTimeout queryTimeout : Nat}
    {cmds : List (Option Command)} {trace : List (System ι σ × Turn ι)} {answers : List Response}
    {txn : UInt64} (hnew : s₀.server.locks = .new)
    (hsession : (s₀.clients i).program =
      EngineDispatcher.runSession lockTimeout queryTimeout cmds [])
    (hrun : Run (System.step P) s₀ trace s)
    (hown : ∀ p ∈ trace, ¬ p.1.AskedByOthers i txn p.2)
    (hend : (s.clients i).program = Program.pure answers) :
    ¬ s.server.locks.Holds txn := by
  have hstart : s₀.Accounted i txn := by
    refine ⟨?_, False, ?_, ?_⟩
    · rw [hnew]
      intro key lock hfind
      cases hfind
    · rw [hnew]
      rintro ⟨e, he, -⟩
      cases he
    · rw [hsession]
      exact EngineDispatcher.leaves_runSession False.elim
  have hall : s.Accounted i txn := by
    refine Run.invariant_of_forall (P := fun s => s.Accounted i txn)
      (B := fun s e => s.AskedByOthers i txn e) hstart ?_ hrun hown
    exact fun _ _ _ hs hstep hothers => hs.step hstep hothers
  obtain ⟨held, hheld, haccount⟩ := hall.account
  rw [hend] at haccount
  exact fun hholds => haccount (hheld hholds)

/-! ## A session beside another client -/

/-- An INSERT in transaction 7. -/
def insertInSeven : Command :=
  { Command.insert (ascii "t") (numberRow 1 0) with txnId := some 7 }

/-- A session that leaves transaction 7 open, and an engine loop with a statement for the same table. -/
def sessionBesideLoop [StandardLibrary] : System Bool InMemoryStore where
  server := emptyServer
  clients
    | true => ⟨EngineDispatcher.runSession 50 1000 [some insertInSeven] [], false⟩
    | false => ⟨Executor.engineLoop.program (.insert (ascii "t") (numberRow 2 0)), false⟩
  ended := []

/-- The engine loop finds the table locked; when the session has ended it gets the lock. -/
def sessionBesideLoopTurns : List (Turn Bool) :=
  List.replicate 4 (.run true) ++ List.replicate 3 (.run false) ++ List.replicate 2 (.run true) ++
    [.run false]

instance : (c : Client) → Decidable (∃ answers, c.program = Program.pure answers)
  | ⟨Program.pure answers, _⟩ => isTrue ⟨answers, rfl⟩
  | ⟨Program.throw _, _⟩ => isFalse fun ⟨_, h⟩ => nomatch h
  | ⟨Program.call _ _ _, _⟩ => isFalse fun ⟨_, h⟩ => nomatch h

theorem session_leaves_no_lock_beside_loop : ∃ trace s,
    Run (System.step InMemory.provider) sessionBesideLoop trace s ∧
      (∃ p ∈ trace, p.1.server.locks.Holds 7) ∧ ¬ s.server.locks.Holds 7 := by
  have hend : ((follow (System.step InMemory.provider) sessionBesideLoopTurns sessionBesideLoop).2.any
      fun s => decide (∃ answers, (s.clients true).program = Program.pure answers)) = true := by
    decide +kernel
  have hheld : ∃ p ∈ (follow (System.step InMemory.provider) sessionBesideLoopTurns
      sessionBesideLoop).1, p.1.server.locks.Holds 7 := by decide +kernel
  obtain ⟨s, hs, hdone⟩ := (Option.any_eq_true _ _).1 hend
  obtain ⟨answers, hanswers⟩ := of_decide_eq_true hdone
  have hrun := Run.of_follow hs
  refine ⟨_, s, hrun, hheld, ?_⟩
  exact session_leaves_no_lock InMemory.provider rfl rfl hrun (by decide +kernel) hanswers

end OpenDB
