import OpenDB.Core.TwoPhaseLocking
import OpenDB.Storage.InMemoryIsolation

/-!
# Serializability

Whole runs. Every turn of a client keeps the invariant of two-phase locking, so that a run of clients
that follow the protocol is disciplined, and its end has the tables that the statements make one after
another, in the order of their ends. The same invariant, with a single client, says what a statement
does that runs alone; so the serial run in that order has the same tables
(`strict_two_phase_locking`).

The theorem is about clients of the engine loop and of the dispatcher, with statements that stay in one
table, over any store that meets the contract. A client of the HTTP front end gives its lock back before
its commit, and an update between the two is lost.
-/

set_option autoImplicit false

namespace OpenDB

open OpenDB.Library

variable {ι σ A : Type} {P : StorageProvider σ}

/-! ## Requests for locks -/

section

variable {m : LockManager} {kind : CallKind} {waiting : Bool} {t nextId : UInt64} {table : Bytes}
  {mode : LockMode}

theorem held_unqueued (key : ResourceKey) : (m.unqueued waiting key t).held = m.held := by
  cases waiting <;> rfl

theorem request_granted (h : (m.request kind waiting t table mode).1 = true) :
    m.grantable t (tableKey table) mode = true ∧
      (m.request kind waiting t table mode).2.held = (m.grant t (tableKey table) mode).held := by
  unfold LockManager.request at h ⊢
  dsimp only at h ⊢
  by_cases hgrant : m.grantable t (tableKey table) mode = true
  · rw [if_pos hgrant]
    exact ⟨hgrant, LockManager.grant_held_congr (held_unqueued _)⟩
  · rw [if_neg hgrant] at h
    split_ifs at h

theorem request_waiting (h : (m.request kind waiting t table mode).1 = false) :
    (m.request kind waiting t table mode).2.held = m.held := by
  unfold LockManager.request at h ⊢
  dsimp only at h ⊢
  by_cases hgrant : m.grantable t (tableKey table) mode = true
  · rw [if_pos hgrant] at h
    cases h
  · rw [if_neg hgrant]
    split_ifs
    · rfl
    · exact held_unqueued _

/-- A request by a transaction that is past its deadlock check. -/
theorem Queue.request {unchecked : ι → Option UInt64} (h : Queue m.waiters nextId unchecked)
    (hid : t.toNat ≤ nextId.toNat) (hchecked : ∀ j, unchecked j ≠ some t) :
    Queue (m.request kind waiting t table mode).2.waiters nextId unchecked := by
  have hleft : Queue (m.unqueued waiting (tableKey table) t).waiters nextId unchecked := by
    cases waiting with
    | false => exact h
    | true => exact h.drop
  unfold LockManager.request
  dsimp only
  split_ifs
  · rw [LockManager.waiters_grant]
    exact hleft
  · exact h
  · exact hleft.push hid hchecked

end

/-! ## Turns -/

section

variable {L : Isolation P A} {job : ι → Job A} {start : Bytes → A}
  {room : Nat} {s s' : System ι σ} {g : Ghost ι A} {i : ι}

/-- The invariant of a system. -/
def System.Matches [Fintype ι] (L : Isolation P A) (job : ι → Job A) (start : Bytes → A) (room : Nat)
    (s : System ι σ) (g : Ghost ι A) : Prop :=
  OpenDB.Matches L job start room s.server (fun i => (s.clients i).program) s.ended g

theorem disciplined_request {c : Call} {next : c.Result → Exec (List Response)}
    {fault : Fault → Exec (List Response)}
    (hprog : (s.clients i).program = Program.call c next fault) (hc : c.IsRequest) :
    Disciplined s (.run i) := by
  unfold Disciplined
  dsimp only
  rw [hprog]
  cases c <;> first | exact trivial | exact hc.elim

variable [DecidableEq ι]

theorem program_advance (p : Exec (List Response)) (w : Bool) :
    (fun j => (Function.update s.clients i ⟨p, w⟩ j).program) =
      Function.update (fun j => (s.clients j).program) i p :=
  Function.comp_update Client.program s.clients i ⟨p, w⟩

/-- The turn of a client whose next call is not a request for a lock. -/
theorem step_call [StandardLibrary] {c : Call} {next : c.Result → Exec (List Response)}
    {fault : Fault → Exec (List Response)} {r : c.Result} {server : Server σ}
    (hprog : (s.clients i).program = Program.call c next fault) (hc : ¬ c.IsRequest)
    (hhandle : Server.handle P c s.server = some (.ok r server)) :
    s.step P (.run i) = some { s.advance i (next r) server with ended := c.ends ++ s.ended } := by
  rw [System.step, hprog]
  cases c with
  | acquire txn table mode => exact absurd trivial hc
  | tryAcquire txn table mode => exact absurd trivial hc
  | _ =>
    dsimp only
    rw [hhandle]

variable [Fintype ι]

/-- A client has asked for the lock of its table. -/
theorem System.Matches.requested (h : s.Matches L job start room g) {t : UInt64}
    (hst : g.stages i = .checked t) {kind : CallKind} {p : Exec (List Response)}
    (hp : ∀ a, Conforms L (job i) Answered p (.locked t a ((job i).effect a))) :
    ∃ g', (s.requested i (s.server.locks.request kind (s.clients i).waiting t (job i).table
      (job i).mode) p).Matches L job start room g' := by
  have htxn : (g.stages i).txn = some t := by rw [hst]; rfl
  have hqueue : Queue (s.server.locks.request kind (s.clients i).waiting t (job i).table
      (job i).mode).2.waiters s.server.txns.nextId fun j => (g.stages j).unchecked := by
    apply h.queue.request (h.ids.below i t htxn)
    intro j hj
    have hji := h.ids.distinct j i t (Stage.txn_of_unchecked hj) htxn
    rw [hji, hst] at hj
    cases hj
  unfold System.requested
  split_ifs with hanswer
  · obtain ⟨hgrant, hheld⟩ := request_granted hanswer
    have hmatches := OpenDB.Matches.grant h hst hgrant hheld hqueue (hp _)
    rw [← program_advance p false] at hmatches
    exact ⟨_, hmatches⟩
  · have hheld := request_waiting (Bool.eq_false_iff.2 hanswer)
    have hmatches := OpenDB.Matches.requeue h hheld hqueue
    have hprograms : (fun j => (Function.update s.clients i
        { s.clients i with waiting := true } j).program) = fun j => (s.clients j).program := by
      rw [program_advance, Function.update_eq_self]
    refine ⟨g, ?_⟩
    unfold System.Matches
    dsimp only
    rw [hprograms]
    exact hmatches

/-- A turn keeps the invariant, and it keeps to strict two-phase locking. -/
theorem System.Matches.step [StandardLibrary] (h : s.Matches L job start room g) {e : Turn ι}
    (hstep : s.step P e = some s') :
    Disciplined s e ∧ ∃ g', s'.Matches L job start room g' := by
  cases e with
  | run i =>
    have hconf := h.conforms i
    cases hprog : (s.clients i).program with
    | pure answers =>
      rw [System.step, hprog] at hstep
      cases hstep
    | throw fault =>
      rw [System.step, hprog] at hstep
      cases hstep
    | call c next fault =>
      -- only a session at the `checked` stage asks for a lock, everything else is answered at once
      by_cases hc : c.IsRequest
      · refine ⟨disciplined_request hprog hc, ?_⟩
        rw [hprog] at hconf
        cases hst : g.stages i with
        | checked t =>
          rw [hst] at hconf
          cases c with
          | acquire txn table mode =>
            obtain ⟨rfl, rfl, rfl, hnext⟩ := hconf
            rw [System.step, hprog] at hstep
            cases hstep
            exact h.requested hst hnext
          | tryAcquire txn table mode =>
            obtain ⟨rfl, rfl, rfl, hnext, -⟩ := hconf
            rw [System.step, hprog] at hstep
            cases hstep
            exact h.requested hst hnext
          | _ => exact hc.elim
        | _ =>
          rw [hst] at hconf
          cases c <;> first | exact hconf.elim | exact hc.elim
      · obtain ⟨r, server, g', hhandle, hmatches, -, hdisciplined⟩ :=
          OpenDB.Matches.call h hprog hc
        rw [step_call hprog hc hhandle] at hstep
        cases hstep
        refine ⟨?_, g', ?_⟩
        · unfold Disciplined
          dsimp only
          rw [hprog]
          exact hdisciplined
        · unfold System.Matches System.advance
          dsimp only
          rw [program_advance]
          exact hmatches
  | timeout i =>
    refine ⟨trivial, ?_⟩
    have hconf := h.conforms i
    unfold System.step at hstep
    dsimp only at hstep
    split at hstep
    · rename_i txn table mode next fault hprog hwaiting
      cases hstep
      rw [hprog] at hconf
      cases hst : g.stages i with
      | checked t =>
        rw [hst] at hconf
        obtain ⟨rfl, rfl, rfl, -, hnext⟩ := hconf
        -- the waiter is forgotten and no held lock changes, so the ghost state still matches
        have hdrop := OpenDB.Matches.drop h hst hnext
        have hmatches := hdrop.requeue
          (m := s.server.locks.forgetWaiter (tableKey (job i).table) txn)
          LockManager.held_forgetWaiter hdrop.queue.forget
        rw [← program_advance (next .timedOut) false] at hmatches
        exact ⟨_, hmatches⟩
      | _ =>
        rw [hst] at hconf
        exact hconf.elim
    · cases hstep

end

/-! ## Nobody at work -/

/-- No lock is held and no write is staged, nobody waits who has not begun yet, and the counters have
room for `room` statements. -/
structure Quiet (L : Isolation P A) (server : Server σ) (base : Bytes → A) (room : Nat) : Prop where
  free : ∀ key, server.locks.held.find key = none
  waiters : ∀ key ws, server.locks.waiters.find key = some ws →
    ∀ w ∈ ws, w.txn.toNat ≤ server.txns.nextId.toNat
  rep : L.Rep server.store (fun _ => none) base
  ids : server.txns.nextId.toNat + room < 2 ^ 64
  marks : server.txns.commitSeq.toNat + room < 2 ^ 64

section

variable [Fintype ι] {L : Isolation P A} {job : ι → Job A} {base start : Bytes → A} {room : Nat}
  {server : Server σ} {programs : ι → Exec (List Response)} {ended : List UInt64} {g : Ghost ι A}

theorem countOf_true : countOf (fun _ : ι => true) = Fintype.card ι := by
  rw [countOf, Finset.filter_true_of_mem fun _ _ => rfl, Finset.card_univ]

/-- The invariant holds before the first turn. -/
theorem Quiet.matches (h : Quiet L server base (Fintype.card ι + room))
    (hconf : ∀ i, Conforms L (job i) Answered (programs i) .fresh) :
    Matches L job base room server programs []
      ⟨fun _ => .fresh, fun _ => none, base, base, []⟩ := by
  constructor
  · exact hconf
  · refine ⟨(fun i t hi => nomatch hi), (fun i j t hi => nomatch hi), ?_⟩
    show server.txns.nextId.toNat + countOf (fun _ : ι => true) + room < 2 ^ 64
    rw [countOf_true, Nat.add_assoc]
    exact h.ids
  · exact fun i t hi => nomatch hi
  · refine ⟨(fun i hi => nomatch hi), ?_⟩
    show server.txns.commitSeq.toNat + countOf (fun _ : ι => true) + room < 2 ^ 64
    rw [countOf_true, Nat.add_assoc]
    exact h.marks
  · exact fun key ws hfind w hw => ⟨h.waiters key ws hfind w hw, fun i hi => nomatch hi⟩
  · have hnone : ∀ {key lock}, server.locks.held.find key ≠ some lock := by
      intro key lock hfind
      rw [h.free key] at hfind
      cases hfind
    refine ⟨(fun i t hi => nomatch hi), ?_, ?_, ?_, ?_⟩
    · exact fun key lock t hfind => absurd hfind hnone
    · exact fun key lock hfind => absurd hfind hnone
    · exact fun key lock hfind => absurd hfind hnone
    · exact fun key lock hfind => absurd hfind hnone
  · exact ⟨h.rep, (fun i t a goal hi => nomatch hi), (fun table t ht => nomatch ht), fun _ _ => rfl⟩
  · exact ⟨rfl, List.nodup_nil, fun i => ⟨(fun hi => nomatch hi), fun hi => nomatch hi⟩⟩
  · exact fun i t hi => nomatch hi

/-- When all clients are done, nobody is at work. -/
theorem Matches.quiet (h : Matches L job start room server programs ended g)
    (hdone : ∀ i, ∃ t granted, g.stages i = .done t granted) : Quiet L server g.base room := by
  have hholding : ∀ i, (g.stages i).holding = none := by
    intro i
    obtain ⟨t, granted, hst⟩ := hdone i
    rw [hst]
    rfl
  have hwork : ∀ table i, (g.stages i).work.isSome = true → (job i).table = table →
      (job i).mode = .shared := by
    intro table i hi
    obtain ⟨t, granted, hst⟩ := hdone i
    rw [hst] at hi
    cases hi
  have howner : g.owner = fun _ => none := funext fun table => h.stored.unowned (hwork table)
  have hbase : g.now = g.base := funext fun table => h.stored.quiet table (hwork table)
  constructor
  · exact h.holding.find_eq_none hholding
  · exact fun key ws hfind w hw => (h.queue key ws hfind w hw).1
  · have hrep := h.stored.rep
    rwa [howner, hbase] at hrep
  · have hspace := h.ids.space
    omega
  · have hspace := h.marks.space
    omega

end

/-! ## One statement alone -/

section

variable {L : Isolation P A} {job : Job A} {base start : Bytes → A} {room : Nat}
  {server : Server σ} {ended : List UInt64} {g : Ghost Unit A}

theorem update_unit {α : Type} (p q : α) : Function.update (fun _ : Unit => p) () q = fun _ => q := by
  funext u
  exact Function.update_self _ _ _

/-- The only client gets its lock at once. -/
theorem Matches.grant_alone {p q : Exec (List Response)} {t : UInt64}
    (h : Matches L (fun _ : Unit => job) start room server (fun _ => p) ended g)
    (hst : g.stages () = .checked t)
    (hq : ∀ a, Conforms L job Answered q (.locked t a (job.effect a))) :
    server.locks.grantable t (tableKey job.table) job.mode = true ∧
      ∃ g', Matches L (fun _ : Unit => job) start room
          { server with locks := server.locks.grant t (tableKey job.table) job.mode } (fun _ => q)
          ended g' ∧ (g'.stages ()).isDropped = false := by
  have hgrant : server.locks.grantable t (tableKey job.table) job.mode = true := by
    apply h.holding.grantable
    intro _
    rw [hst]
    rfl
  refine ⟨hgrant, ?_⟩
  have hmatches := h.grant (i := ()) hst hgrant rfl (by rw [LockManager.waiters_grant]; exact h.queue) (hq _)
  rw [update_unit] at hmatches
  exact ⟨_, hmatches, (isDropped_moved (i := ()) hst rfl).trans (by rw [hst]; rfl)⟩

/-- A program that runs alone from some stage on ends, and the invariant holds then. -/
theorem Matches.run [StandardLibrary] {p : Exec (List Response)}
    (h : Matches L (fun _ : Unit => job) start room server (fun _ => p) ended g)
    (hnot : (g.stages ()).isDropped = false) :
    ∃ answers server' ended' g', p.run (Server.handle P) server = some (.ok answers server') ∧
      Matches L (fun _ : Unit => job) start room server' (fun _ => Program.pure answers) ended' g' ∧
      (g'.stages ()).isDropped = false := by
  -- along the program; the invariant gives the result of its first call and holds for the rest
  induction p generalizing server ended g with
  | pure answers => exact ⟨answers, server, ended, g, rfl, h, hnot⟩
  | throw fault => exact (h.conforms ()).elim
  | call c next fault ihnext _ =>
    by_cases hc : c.IsRequest
    · have hconf := h.conforms ()
      cases hst : g.stages () with
      | checked t =>
        rw [hst] at hconf
        cases c with
        | acquire txn table mode =>
          obtain ⟨rfl, rfl, rfl, hnext⟩ := hconf
          obtain ⟨hgrant, g', hmatches, hnot'⟩ := h.grant_alone hst hnext
          rw [Program.run, Server.handle, if_pos hgrant]
          exact ihnext () hmatches hnot'
        | tryAcquire txn table mode =>
          obtain ⟨rfl, rfl, rfl, hnext, -⟩ := hconf
          obtain ⟨hgrant, g', hmatches, hnot'⟩ := h.grant_alone hst hnext
          rw [Program.run, Server.handle, if_pos hgrant]
          exact ihnext .granted hmatches hnot'
        | _ => exact hc.elim
      | _ =>
        rw [hst] at hconf
        cases c <;> first | exact hconf.elim | exact hc.elim
    · obtain ⟨r, server', g', hhandle, hmatches, hsame, -⟩ := h.call (i := ()) rfl hc
      rw [update_unit] at hmatches
      rw [Program.run, hhandle]
      exact ihnext r hmatches (hsame.trans hnot)

/-- A statement that runs alone has its effect, and leaves nobody at work. -/
theorem Quiet.run [StandardLibrary] (h : Quiet L server base (room + 1)) {p : Exec (List Response)}
    (hconf : Conforms L job Answered p .fresh) :
    ∃ answers server', p.run (Server.handle P) server = some (.ok answers server') ∧
      Quiet L server' (setTable base job.table (job.effect (base job.table))) room := by
  have hroom : Quiet L server base (Fintype.card Unit + room) := by
    rwa [Fintype.card_unit, Nat.add_comm]
  have hstart : Matches L (fun _ : Unit => job) base room server (fun _ => p) [] _ :=
    hroom.matches fun _ => hconf
  obtain ⟨answers, server', ended, g, hrun, hmatches, hnot⟩ := hstart.run rfl
  obtain ⟨t, hdone | ⟨hdropped, -⟩⟩ := hmatches.conforms ()
  · refine ⟨answers, server', hrun, ?_⟩
    have hquiet := hmatches.quiet fun _ => ⟨t, true, hdone⟩
    have horder : g.order = [()] := by
      have hall : g.order = List.replicate g.order.length () := List.eq_replicate_of_mem fun _ _ => rfl
      have hnodup := hmatches.replayed.nodup
      rw [hall, List.nodup_replicate] at hnodup
      have hpos : 0 < g.order.length :=
        List.length_pos_of_mem ((hmatches.replayed.mem ()).2 (congrArg Stage.isEnded hdone))
      rw [hall, show g.order.length = 1 by omega]
      rfl
    rw [hmatches.replayed.base_eq, horder] at hquiet
    exact hquiet
  · rw [hdropped] at hnot
    cases hnot

end

/-! ## Whole runs -/

section

variable {L : Isolation P A} {job : ι → Job A} {statements : ι → Statement} {room : Nat}

/-- Statements that run one after another have their effects one after another. -/
theorem Quiet.serially [StandardLibrary] {base : Bytes → A} {server : Server σ} (order : List ι)
    (hconf : ∀ i, Conforms L (job i) Answered (statements i).program .fresh)
    (h : Quiet L server base (room + order.length)) :
    ∃ t, serially P statements order server = some t ∧
      Quiet L t (replay job base order) room := by
  induction order generalizing server base with
  | nil => exact ⟨server, rfl, h⟩
  | cons i order ih =>
    obtain ⟨answers, server', hrun, hquiet⟩ := Quiet.run h (hconf i)
    obtain ⟨t, hserial, ht⟩ := ih hquiet
    refine ⟨t, ?_, ht⟩
    rw [OpenDB.serially, hrun]
    exact hserial

/-- Two stores that have the same tables look the same. -/
theorem Quiet.sameView {base : Bytes → A} {s t : Server σ} {n : Nat} (hs : Quiet L s base room)
    (ht : Quiet L t base n) : SameView P s.store t.store := by
  intro reader table
  obtain ⟨s', hscan, -⟩ := L.scan_ok reader table hs.rep (Or.inl rfl)
  obtain ⟨t', hscan', -⟩ := L.scan_ok reader table ht.rep (Or.inl rfl)
  rw [readTable, readTable, hscan, hscan']

variable [Fintype ι]

/-- A client that has ended has had its lock, or has been told that it could not get it in time. -/
theorem System.Matches.done {start : Bytes → A} {s : System ι σ} {g : Ghost ι A}
    (h : s.Matches L job start room g) (i : ι) (hdone : (s.clients i).Done) :
    (∃ t, g.stages i = .done t true) ∨
      (∃ t, g.stages i = .done t false) ∧ (s.clients i).TimedOut := by
  have hconf := h.conforms i
  unfold Client.Done at hdone
  cases hprog : (s.clients i).program with
  | pure answers =>
    rw [hprog] at hconf
    obtain ⟨t, hgranted | ⟨hdropped, millis, rfl⟩⟩ := hconf
    · exact Or.inl ⟨t, hgranted⟩
    · exact Or.inr ⟨⟨t, hdropped⟩, millis, hprog⟩
  | throw fault =>
    rw [hprog] at hconf
    exact hconf.elim
  | call c next fault =>
    rw [hprog] at hdone
    exact hdone.elim

variable [DecidableEq ι]

/-- Strict two-phase locking, for any number of clients of the engine loop and of the dispatcher with
statements that stay in one table. -/
theorem strict_two_phase_locking [StandardLibrary] (L : Isolation P A) {server : Server σ}
    {base : Bytes → A} (hquiet : Quiet L server base (Fintype.card ι))
    (hauto : ∀ i, (statements i).command.txnId = none)
    (hlocking : ∀ i, (statements i).executor.Locking (statements i).command)
    {trace : List (System ι σ × Turn ι)} {s : System ι σ}
    (hrun : Run (System.step P) (System.start server statements) trace s) :
    StrictTwoPhaseLocking P server statements trace s := by
  set job : ι → Job A := fun i => L.job (statements i).executor (statements i).command with hjob
  have hconf : ∀ i, Conforms L (job i) Answered (statements i).program .fresh :=
    fun i => Executor.conforms_program (hauto i) (hlocking i)
  have hstart : ∃ g, (System.start server statements).Matches L job base 0 g :=
    ⟨_, Quiet.matches hquiet hconf⟩
  obtain ⟨⟨g, hmatches⟩, hdisciplined⟩ := hrun.invariant_and_forall
    (I := fun s => ∃ g, s.Matches L job base 0 g) hstart
    fun s e s' ⟨_, hs⟩ hstep => hs.step hstep
  refine ⟨hdisciplined, fun hdone => ?_⟩
  -- the order of the ends is a serial order
  refine ⟨g.order, hmatches.replayed.nodup, fun i hi => ?_, ?_⟩
  · rcases hmatches.done i (hdone i) with ⟨t, hst⟩ | ⟨-, htimedOut⟩
    · exact absurd ((hmatches.replayed.mem i).2 (congrArg Stage.isEnded hst)) hi
    · exact htimedOut
  · have hend : Quiet L s.server g.base 0 := by
      apply OpenDB.Matches.quiet hmatches
      intro i
      rcases hmatches.done i (hdone i) with ⟨t, hst⟩ | ⟨⟨t, hst⟩, -⟩
      · exact ⟨t, true, hst⟩
      · exact ⟨t, false, hst⟩
    have hlength : g.order.length ≤ Fintype.card ι := hmatches.replayed.nodup.length_le_card
    have hroom : Quiet L server base (Fintype.card ι - g.order.length + g.order.length) := by
      rwa [Nat.sub_add_cancel hlength]
    obtain ⟨t, hserial, ht⟩ := Quiet.serially g.order hconf hroom
    rw [← hmatches.replayed.base_eq] at ht
    exact ⟨t, hserial, hend.sameView ht⟩

end

/-! ### Two clients of the in-memory store -/

/-- An INSERT through the engine loop and one through the dispatcher. -/
def twoInserts : Bool → Statement
  | true => ⟨.engineLoop, .insert (ascii "t") (numberRow 1 0)⟩
  | false => ⟨.dispatcher 50, .insert (ascii "t") (numberRow 2 0)⟩

/-- The dispatcher asks for the lock while the engine loop has it, waits, and looks again. -/
def twoInsertsTurns : List (Turn Bool) :=
  List.replicate 2 (.run true) ++ List.replicate 2 (.run false) ++ List.replicate 2 (.run true) ++
    List.replicate 2 (.run false) ++ List.replicate 5 (.run true) ++ List.replicate 6 (.run false)

/-- The server of a new process over an empty store. -/
def emptyServer : Server InMemoryStore := ⟨InMemory.new, .new, .new⟩

theorem quiet_emptyServer :
    Quiet InMemory.isolation emptyServer (InMemory.stateOf InMemory.new) (Fintype.card Bool) := by
  constructor
  · exact fun _ => rfl
  · exact fun _ _ hfind => nomatch hfind
  · exact ⟨rfl, InMemory.valid_new⟩
  · decide
  · decide

theorem two_inserts_serializable : ∃ trace s,
    Run (System.step InMemory.provider) (System.start emptyServer twoInserts) trace s ∧
    (∀ i, (s.clients i).Done) ∧
    StrictTwoPhaseLocking InMemory.provider emptyServer twoInserts trace s := by
  have hend : ((follow (System.step InMemory.provider) twoInsertsTurns
      (System.start emptyServer twoInserts)).2.any fun s => decide (∀ i, (s.clients i).Done)) =
      true := by decide +kernel
  obtain ⟨s, hs, hdone⟩ := (Option.any_eq_true _ _).1 hend
  have hrun := Run.of_follow hs
  refine ⟨_, s, hrun, of_decide_eq_true hdone, ?_⟩
  apply strict_two_phase_locking InMemory.isolation quiet_emptyServer _ _ hrun
  · rintro (_ | _) <;> rfl
  · rintro (_ | _)
    · exact trivial
    · exact fun htype => nomatch htype

/-- `UPDATE t SET v = 1 WHERE v = 0` through the engine loop, `UPDATE t SET v = 2 WHERE v <= 1` through
the HTTP front end. -/
def twoUpdates : Bool → Statement
  | true => ⟨.engineLoop, raiseZeros⟩
  | false => ⟨.httpApi, .update (ascii "t")
      ⟨some (.comparison (ascii "v") .lessEquals (.int64 1))⟩
      (Tuple.empty.set (ascii "v") (.int64 2))⟩

/-- The HTTP front end has given its lock back; the engine loop runs from beginning to end before the
other one commits. -/
def twoUpdatesTurns : List (Turn Bool) :=
  List.replicate 7 (.run false) ++ List.replicate 11 (.run true) ++ List.replicate 3 (.run false)

/-- The client gives the lock of a table back before its transaction has been committed or aborted in
the store. -/
def releasesEarly {ι σ : Type} (table : Bytes) (p : System ι σ × Turn ι) : Bool :=
  match p.2 with
  | .run i =>
    match (p.1.clients i).program with
    | Program.call (.release txn) _ _ =>
      p.1.server.locks.isGrantedKey txn (tableKey table) && decide (txn ∉ p.1.ended)
    | _ => false
  | .timeout _ => false

theorem not_disciplined_of_releasesEarly {table : Bytes} {p : System ι σ × Turn ι}
    (h : releasesEarly table p = true) : ¬ Disciplined p.1 p.2 := by
  obtain ⟨s, e⟩ := p
  cases e with
  | timeout i => cases h
  | run i =>
    dsimp only [releasesEarly] at h
    dsimp only [Disciplined]
    cases hprog : (s.clients i).program with
    | pure answers =>
      rw [hprog] at h
      cases h
    | throw fault =>
      rw [hprog] at h
      cases h
    | call c next fault =>
      rw [hprog] at h
      cases c with
      | release txn =>
        obtain ⟨hgranted, hended⟩ := (Bool.and_eq_true _ _).mp h
        exact fun hrelease => of_decide_eq_true hended (hrelease ⟨_, hgranted⟩)
      | _ => cases h

/-- A list without repetitions of both clients. -/
theorem orders_of_two {order : List Bool} (hnodup : order.Nodup) (hmem : ∀ i, i ∈ order) :
    order = [true, false] ∨ order = [false, true] := by
  have hperm : order.Perm [true, false] := by
    rw [List.perm_ext_iff_of_nodup hnodup (by decide)]
    intro i
    cases i <;> simp [hmem]
  exact List.perm_pair.1 hperm

/-- The rows of the table after an UPDATE that sets `v`. -/
def rowsWith (v : Int64) : List Tuple :=
  [(Tuple.empty.set (ascii "v") (.int64 v)).set idColumn (.int64 1),
    (Tuple.empty.set (ascii "v") (.int64 v)).set idColumn (.int64 2)]

/-- The update of the HTTP front end is lost: after it and the other one, in whatever order, the rows
would have the value 2. -/
theorem http_update_lost : ∃ trace s,
    Run (System.step InMemory.provider) (System.start twoRowsServer twoUpdates) trace s ∧
    (∀ i, (s.clients i).Done) ∧ (∃ p ∈ trace, ¬ Disciplined p.1 p.2) ∧
    ¬ Serializable InMemory.provider twoRowsServer twoUpdates s ∧
    ¬ StrictTwoPhaseLocking InMemory.provider twoRowsServer twoUpdates trace s := by
  have hend : ((follow (System.step InMemory.provider) twoUpdatesTurns
      (System.start twoRowsServer twoUpdates)).2.any fun s =>
        decide ((∀ i, (s.clients i).Done) ∧ (∀ i, (s.clients i).answers = [.result noRows]) ∧
          InMemory.scan 0 (ascii "t") s.server.store = rowsWith 1)) = true := by decide +kernel
  have hearly : (follow (System.step InMemory.provider) twoUpdatesTurns
      (System.start twoRowsServer twoUpdates)).1.any (releasesEarly (ascii "t")) = true := by
    decide +kernel
  -- the two serial orders
  have hserial : ∀ order, order = [true, false] ∨ order = [false, true] →
      ((serially InMemory.provider twoUpdates order twoRowsServer).any fun t =>
        decide (InMemory.scan 0 (ascii "t") t.store = rowsWith 2)) = true := by
    rintro order (rfl | rfl) <;> decide +kernel
  obtain ⟨s, hs, hfinal⟩ := (Option.any_eq_true _ _).1 hend
  obtain ⟨hdone, hanswers, hscan⟩ := of_decide_eq_true hfinal
  obtain ⟨p, hp, hp_early⟩ := List.any_eq_true.1 hearly
  have hnot : ¬ Serializable InMemory.provider twoRowsServer twoUpdates s := by
    rintro ⟨order, hnodup, htimedOut, t, ht, hview⟩
    have hmem : ∀ i, i ∈ order := by
      intro i
      by_contra hi
      obtain ⟨millis, hprog⟩ := htimedOut i hi
      have hshown := hanswers i
      rw [Client.answers, hprog] at hshown
      cases hshown
    obtain ⟨t', ht', hscan'⟩ := (Option.any_eq_true _ _).1 (hserial order (orders_of_two hnodup hmem))
    rw [ht] at ht'
    cases ht'
    have hsame : Except.ok (InMemory.scan 0 (ascii "t") s.server.store) =
        (Except.ok (InMemory.scan 0 (ascii "t") t.store) : Except Fault _) := hview 0 (ascii "t")
    rw [hscan, of_decide_eq_true hscan'] at hsame
    exact absurd (Except.ok.inj hsame) (by decide)
  refine ⟨_, s, Run.of_follow hs, hdone, ⟨p, hp, not_disciplined_of_releasesEarly hp_early⟩, hnot, ?_⟩
  exact fun hstrict => hnot (hstrict.2 hdone)

end OpenDB
