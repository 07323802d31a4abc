import OpenDB.Core.LockingInvariant

/-!
# Calls under two-phase locking

The parts of the invariant put together, and what the calls of one client do to it. A call that the
protocol allows returns what the protocol expects, keeps the invariant and keeps to strict two-phase
locking (`Matches.call`); the grant of a lock, a change of the wait queues and a wait that runs out keep
the invariant (`Matches.grant`, `Matches.requeue`, `Matches.drop`).
-/

set_option autoImplicit false

namespace OpenDB

open OpenDB.Library

variable {ι σ A : Type} {P : StorageProvider σ}

/-- What the invariant knows beyond the state of the system. -/
structure Ghost (ι A : Type) where
  stages : ι → Stage A
  owner : Bytes → Option UInt64
  now : Bytes → A
  base : Bytes → A
  order : List ι

/-- The server and the programs of its clients are what the stages of the clients say. -/
structure Matches [Fintype ι] (L : Isolation P A) (job : ι → Job A) (start : Bytes → A) (room : Nat)
    (server : Server σ) (programs : ι → Exec (List Response))
    (ended : List UInt64) (g : Ghost ι A) : Prop where
  conforms : ∀ i, Conforms L (job i) Answered (programs i) (g.stages i)
  ids : Ids server.txns.nextId (fun i => (g.stages i).txn) room
  actives : Actives server.txns.states fun i => (g.stages i).active
  marks : Marks server.txns.commitSeq (fun i => (g.stages i).unmarked)
    (fun i => (g.stages i).isMarked) room
  queue : Queue server.locks.waiters server.txns.nextId fun i => (g.stages i).unchecked
  holding : Holding server.locks job fun i => (g.stages i).holding
  stored : Stored L job server.store g.owner g.now g.base fun i => (g.stages i).work
  replayed : Replayed job start g.base g.order fun i => (g.stages i).isEnded
  released : ∀ i t, g.stages i = .ended t → t ∈ ended

/-- Clients at work on the same table with an exclusive lock are the same. -/
theorem exclusion_of_holding [Fintype ι] {job : ι → Job A} {stages : ι → Stage A} {nextId : UInt64}
    {room : Nat} {m : LockManager} (hids : Ids nextId (fun i => (stages i).txn) room)
    (hholding : Holding m job fun i => (stages i).holding) :
    Exclusion job fun i => (stages i).work := by
  intro i j hi hj htable hmode
  obtain ⟨⟨t, a, goal⟩, hi⟩ := Option.isSome_iff_exists.1 hi
  obtain ⟨⟨t', a', goal'⟩, hj⟩ := Option.isSome_iff_exists.1 hj
  have hhold := Stage.holding_of_work hi
  have hhold' := Stage.holding_of_work hj
  have heq := hholding.alone hhold hhold' htable hmode
  subst heq
  exact hids.distinct j i t' (Stage.txn_of_holding hhold') (Stage.txn_of_holding hhold)

section

variable [DecidableEq ι] {stages : ι → Stage A} {i : ι} {st : Stage A} {γ : Type} {f : Stage A → γ}
  {C : (ι → γ) → Prop}

/-- A part of the invariant about a part of the stages that stays. -/
theorem part_kept (h : C fun j => f (stages j)) (hsame : f st = f (stages i)) :
    C fun j => f (Function.update stages i st j) := by
  rw [part_update f hsame]
  exact h

/-- A part of the invariant about a part of the stages that changes. -/
theorem part_changed (h : C (Function.update (fun j => f (stages j)) i (f st))) :
    C fun j => f (Function.update stages i st j) := by
  have hcomp := Function.comp_update f stages i st
  rw [← Function.comp_def f, hcomp]
  exact h

/-- The stage of a client that has moved on. -/
theorem isDropped_moved {st' : Stage A} (hst : stages i = st)
    (hsame : st'.isDropped = st.isDropped) :
    (Function.update stages i st' i).isDropped = (stages i).isDropped := by
  rw [Function.update_self, hst, hsame]

end

/-! ## One call -/

/-- The call asks for a lock. -/
def Call.IsRequest : Call → Prop
  | .acquire _ _ _ | .tryAcquire _ _ _ => True
  | _ => False

namespace Matches

variable [Fintype ι] {L : Isolation P A} {job : ι → Job A} {start : Bytes → A}
  {room : Nat} {server : Server σ} {programs : ι → Exec (List Response)}
  {ended : List UInt64} {g : Ghost ι A} {i : ι} {t : UInt64} {a goal : A}
  {p : Exec (List Response)}

theorem exclusion (h : Matches L job start room server programs ended g) :
    Exclusion job fun i => (g.stages i).work :=
  exclusion_of_holding h.ids h.holding

/-- The transaction of a client is nobody else's. -/
theorem ne_of_active (h : Matches L job start room server programs ended g)
    (hi : (g.stages i).txn = some t) {j : ι} {t' : UInt64} (hj : (g.stages j).active = some t')
    (hji : j ≠ i) : t' ≠ t := by
  rintro rfl
  exact hji (h.ids.distinct j i t' (Stage.txn_of_active hj) hi)

/-- Only the wait queues change. -/
theorem requeue (h : Matches L job start room server programs ended g) {m : LockManager}
    (hheld : m.held = server.locks.held)
    (hqueue : Queue m.waiters server.txns.nextId fun j => (g.stages j).unchecked) :
    Matches L job start room { server with locks := m } programs ended g :=
  { h with queue := hqueue, holding := h.holding.congr hheld }

variable [DecidableEq ι]

/-- The client goes on with a program, at another stage. -/
def moved (g : Ghost ι A) (i : ι) (st : Stage A) : Ghost ι A :=
  { g with stages := Function.update g.stages i st }

theorem conforms_moved (h : Matches L job start room server programs ended g) {st : Stage A}
    (hp : Conforms L (job i) Answered p st) (j : ι) :
    Conforms L (job j) Answered (Function.update programs i p j)
      (Function.update g.stages i st j) := by
  by_cases hj : j = i
  · rw [hj, Function.update_self, Function.update_self]
    exact hp
  · rw [Function.update_of_ne hj, Function.update_of_ne hj]
    exact h.conforms j

theorem released_moved (h : Matches L job start room server programs ended g) {st : Stage A}
    (more : List UInt64) (hst : ∀ t, st = .ended t → t ∈ more ++ ended) :
    ∀ j t, Function.update g.stages i st j = .ended t → t ∈ more ++ ended := by
  intro j t hj
  by_cases hji : j = i
  · rw [hji, Function.update_self] at hj
    exact hst t hj
  · rw [Function.update_of_ne hji] at hj
    exact List.mem_append_right _ (h.released j t hj)

section

variable {st : Stage A}

theorem ids_kept (h : Matches L job start room server programs ended g)
    (hsame : st.txn = (g.stages i).txn) :
    Ids server.txns.nextId (fun j => (Function.update g.stages i st j).txn) room :=
  part_kept (C := fun txn => Ids _ txn room) h.ids hsame

theorem actives_kept (h : Matches L job start room server programs ended g)
    (hsame : st.active = (g.stages i).active) :
    Actives server.txns.states fun j => (Function.update g.stages i st j).active :=
  part_kept (C := Actives _) h.actives hsame

theorem marks_kept (h : Matches L job start room server programs ended g)
    (hunmarked : st.unmarked = (g.stages i).unmarked) (hmarked : st.isMarked = (g.stages i).isMarked) :
    Marks server.txns.commitSeq (fun j => (Function.update g.stages i st j).unmarked)
      (fun j => (Function.update g.stages i st j).isMarked) room := by
  rw [part_update Stage.unmarked hunmarked, part_update Stage.isMarked hmarked]
  exact h.marks

theorem queue_kept (h : Matches L job start room server programs ended g)
    (hsame : st.unchecked = (g.stages i).unchecked) :
    Queue server.locks.waiters server.txns.nextId
      fun j => (Function.update g.stages i st j).unchecked :=
  part_kept (C := Queue _ _) h.queue hsame

theorem holding_kept (h : Matches L job start room server programs ended g)
    (hsame : st.holding = (g.stages i).holding) :
    Holding server.locks job fun j => (Function.update g.stages i st j).holding :=
  part_kept (C := Holding _ job) h.holding hsame

theorem stored_kept (h : Matches L job start room server programs ended g)
    (hsame : st.work = (g.stages i).work) :
    Stored L job server.store g.owner g.now g.base
      fun j => (Function.update g.stages i st j).work :=
  part_kept (C := Stored L job _ _ _ _) h.stored hsame

theorem replayed_kept (h : Matches L job start room server programs ended g)
    (hsame : st.isEnded = (g.stages i).isEnded) :
    Replayed job start g.base g.order fun j => (Function.update g.stages i st j).isEnded :=
  part_kept (C := Replayed job start _ _) h.replayed hsame

end

/-- The client stops to be active; the transaction manager may change the state of its transaction. -/
theorem actives_left (h : Matches L job start room server programs ended g)
    (hi : (g.stages i).txn = some t) {st : Stage A} (hst : st.active = none)
    {states : AssocMap UInt64 TxnState}
    (hstates : ∀ t', t' ≠ t → states.find t' = server.txns.states.find t') :
    Actives states fun j => (Function.update g.stages i st j).active := by
  apply part_changed (C := Actives _) (f := Stage.active)
  rw [hst]
  exact h.actives.leave (fun j t' hj hji => h.ne_of_active hi hj hji) hstates

/-- The client will not be committed any more. -/
theorem marks_left (h : Matches L job start room server programs ended g) {st : Stage A}
    (hunmarked : st.unmarked = false) (hmarked : st.isMarked = false) :
    Marks server.txns.commitSeq (fun j => (Function.update g.stages i st j).unmarked)
      (fun j => (Function.update g.stages i st j).isMarked) room := by
  refine h.marks.mono (fun j hj => ?_) fun j hj => ?_
  all_goals
    by_cases hji : j = i
    · rw [hji, Function.update_self] at hj
      first
      | rw [hunmarked] at hj; cases hj
      | rw [hmarked] at hj; cases hj
    · rwa [Function.update_of_ne hji] at hj

theorem begin (h : Matches L job start room server programs ended g) (hst : g.stages i = .fresh)
    (hp : Conforms L (job i) Answered p (.begun server.txns.beginTxn.1)) :
    Matches L job start room { server with txns := server.txns.beginTxn.2 }
      (Function.update programs i p) ended (moved g i (.begun server.txns.beginTxn.1)) := by
  have hnone : (g.stages i).txn = none := by rw [hst]; rfl
  constructor
  · exact h.conforms_moved hp
  · exact part_changed (C := fun txn => Ids _ txn room) (f := Stage.txn) (h.ids.begin hnone)
  · exact part_changed (C := Actives _) (f := Stage.active) h.actives.begin
  · exact h.marks_kept (by rw [hst]; rfl) (by rw [hst]; rfl)
  · exact part_changed (C := Queue _ _) (f := Stage.unchecked)
      (h.queue.begin (h.ids.toNat_begin hnone))
  · exact h.holding_kept (by rw [hst]; rfl)
  · exact h.stored_kept (by rw [hst]; rfl)
  · exact h.replayed_kept (by rw [hst]; rfl)
  · exact h.released_moved [] fun t ht => by cases ht

theorem check [StandardLibrary] (h : Matches L job start room server programs ended g)
    (hst : g.stages i = .begun t) (hp : Conforms L (job i) Answered p (.checked t)) :
    server.locks.detectCycle t = none ∧
      Matches L job start room server (Function.update programs i p) ended
        (moved g i (.checked t)) := by
  refine ⟨h.queue.detectCycle (i := i) (by rw [hst]; rfl), ?_⟩
  constructor
  · exact h.conforms_moved hp
  · exact h.ids_kept (by rw [hst]; rfl)
  · exact h.actives_kept (by rw [hst]; rfl)
  · exact h.marks_kept (by rw [hst]; rfl) (by rw [hst]; rfl)
  · exact part_changed (C := Queue _ _) (f := Stage.unchecked) h.queue.check
  · exact h.holding_kept (by rw [hst]; rfl)
  · exact h.stored_kept (by rw [hst]; rfl)
  · exact h.replayed_kept (by rw [hst]; rfl)
  · exact h.released_moved [] fun t ht => by cases ht

/-- The grant of a lock, and whatever happens to the wait queues with it. -/
theorem grant (h : Matches L job start room server programs ended g) (hst : g.stages i = .checked t)
    (hgrant : server.locks.grantable t (tableKey (job i).table) (job i).mode = true)
    {m : LockManager}
    (hheld : m.held = (server.locks.grant t (tableKey (job i).table) (job i).mode).held)
    (hqueue : Queue m.waiters server.txns.nextId fun j => (g.stages j).unchecked)
    (hp : Conforms L (job i) Answered p
      (.locked t (g.now (job i).table) ((job i).effect (g.now (job i).table)))) :
    Matches L job start room { server with locks := m } (Function.update programs i p) ended
      (moved g i (.locked t (g.now (job i).table) ((job i).effect (g.now (job i).table)))) := by
  have htxn : (g.stages i).txn = some t := by rw [hst]; rfl
  have hnot : ∀ j, (g.stages j).holding ≠ some t := by
    intro j hj
    have hji := h.ids.distinct j i t (Stage.txn_of_holding hj) htxn
    rw [hji, hst] at hj
    cases hj
  have hids : Ids server.txns.nextId (fun j => (Function.update g.stages i
      (.locked t (g.now (job i).table) ((job i).effect (g.now (job i).table))) j).txn) room :=
    h.ids_kept (by rw [hst]; rfl)
  have hholding : Holding m job fun j => (Function.update g.stages i
      (.locked t (g.now (job i).table) ((job i).effect (g.now (job i).table))) j).holding := by
    apply part_changed (C := Holding m job) (f := Stage.holding)
    exact (h.holding.grant (by rw [hst]; rfl) hnot hgrant).congr hheld
  constructor
  · exact h.conforms_moved hp
  · exact hids
  · exact h.actives_kept (by rw [hst]; rfl)
  · exact h.marks_kept (by rw [hst]; rfl) (by rw [hst]; rfl)
  · exact part_kept (C := Queue _ _) (f := Stage.unchecked) hqueue (by rw [hst]; rfl)
  · exact hholding
  · -- the locks keep the client apart from the others at work
    have hexcl := exclusion_of_holding hids hholding
    have hcomp := Function.comp_update Stage.work g.stages i
      (.locked t (g.now (job i).table) ((job i).effect (g.now (job i).table)))
    apply part_changed (C := Stored L job _ _ _ _) (f := Stage.work)
    apply h.stored.grant (by rw [hst]; rfl)
    rw [← Function.comp_def Stage.work, hcomp] at hexcl
    exact hexcl
  · exact h.replayed_kept (by rw [hst]; rfl)
  · exact h.released_moved [] fun t ht => by cases ht

/-- The wait of a client runs out. -/
theorem drop (h : Matches L job start room server programs ended g) (hst : g.stages i = .checked t)
    (hp : Conforms L (job i) Answered p (.dropped t)) :
    Matches L job start room server (Function.update programs i p) ended
      (moved g i (.dropped t)) := by
  constructor
  · exact h.conforms_moved hp
  · exact h.ids_kept (by rw [hst]; rfl)
  · exact h.actives_left (t := t) (by rw [hst]; rfl) rfl fun _ _ => rfl
  · exact h.marks_left rfl rfl
  · exact h.queue_kept (by rw [hst]; rfl)
  · exact h.holding_kept (by rw [hst]; rfl)
  · exact h.stored_kept (by rw [hst]; rfl)
  · exact h.replayed_kept (by rw [hst]; rfl)
  · exact h.released_moved [] fun t ht => by cases ht

/-- A call that changes the store without a write. -/
theorem read (h : Matches L job start room server programs ended g) {store : σ}
    (hrep : L.Rep store g.owner g.now) (hp : Conforms L (job i) Answered p (g.stages i)) :
    Matches L job start room { server with store := store } (Function.update programs i p) ended g :=
  { h with
    conforms := by
      intro j
      have hmoved := h.conforms_moved hp j
      rwa [Function.update_eq_self] at hmoved
    stored := h.stored.read hrep }

/-- A write of a client that has an exclusive lock. -/
theorem write (h : Matches L job start room server programs ended g)
    (hst : g.stages i = .locked t a goal) (hmode : (job i).mode = .exclusive) {store : σ} {a' : A}
    (hrep : L.Rep store (setTable g.owner (job i).table (some t)) (setTable g.now (job i).table a'))
    (hp : Conforms L (job i) Answered p (.locked t a' goal)) :
    Matches L job start room { server with store := store } (Function.update programs i p) ended
      { moved g i (.locked t a' goal) with
        owner := setTable g.owner (job i).table (some t)
        now := setTable g.now (job i).table a' } := by
  constructor
  · exact h.conforms_moved hp
  · exact h.ids_kept (by rw [hst]; rfl)
  · exact h.actives_kept (by rw [hst]; rfl)
  · exact h.marks_kept (by rw [hst]; rfl) (by rw [hst]; rfl)
  · exact h.queue_kept (by rw [hst]; rfl)
  · exact h.holding_kept (by rw [hst]; rfl)
  · apply part_changed (C := Stored L job _ _ _ _) (f := Stage.work)
    exact h.stored.write h.exclusion (by rw [hst]; rfl) hmode hrep
  · exact h.replayed_kept (by rw [hst]; rfl)
  · exact h.released_moved [] fun t ht => by cases ht

/-- The transaction manager commits a client. -/
theorem mark (h : Matches L job start room server programs ended g)
    (hst : g.stages i = .locked t a goal) (hp : Conforms L (job i) Answered p (.marked t a goal)) :
    Matches L job start room { server with txns := (server.txns.commitTxn t).2 }
      (Function.update programs i p) ended (moved g i (.marked t a goal)) := by
  have hactive : server.txns.states.find t = some .active := h.actives i t (congrArg Stage.active hst)
  have hnext : (server.txns.commitTxn t).2.nextId = server.txns.nextId := by
    rw [TransactionManager.commitTxn, if_pos hactive]
  constructor
  · exact h.conforms_moved hp
  · dsimp only
    rw [hnext]
    exact h.ids_kept (by rw [hst]; rfl)
  · exact h.actives_left (t := t) (by rw [hst]; rfl) rfl
      fun _ hne => TransactionManager.find_commitTxn_of_ne hne
  · have hmarks := h.marks.commit (i := i) (by rw [hst]; rfl) hactive
    apply part_changed (C := fun u => Marks _ u _ room) (f := Stage.unmarked)
    exact part_changed (C := fun u => Marks _ _ u room) (f := Stage.isMarked) hmarks
  · dsimp only
    rw [hnext]
    exact h.queue_kept (by rw [hst]; rfl)
  · exact h.holding_kept (by rw [hst]; rfl)
  · exact h.stored_kept (by rw [hst]; rfl)
  · exact h.replayed_kept (by rw [hst]; rfl)
  · exact h.released_moved [] fun t ht => by cases ht

/-- The store commits or aborts a client at work. -/
theorem finish (h : Matches L job start room server programs ended g)
    (hwork : (g.stages i).work = some (t, a, goal)) {f : A → A} (hclean : ∀ {b}, L.Clean b → f b = b)
    (hgoal : f a = goal) {store : σ}
    (hrep : L.Rep store (disown t g.owner) (onOwned t g.owner f g.now))
    (hp : Conforms L (job i) Answered p (.ended t)) :
    Matches L job start room { server with store := store } (Function.update programs i p)
      (t :: ended)
      { stages := Function.update g.stages i (.ended t)
        owner := disown t g.owner
        now := onOwned t g.owner f g.now
        base := setTable g.base (job i).table goal
        order := g.order ++ [i] } := by
  have hhold := Stage.holding_of_work hwork
  have htxn := Stage.txn_of_holding hhold
  have heffect := (h.stored.atWork i t a goal hwork).2
  constructor
  · exact h.conforms_moved hp
  · exact h.ids_kept htxn.symm
  · exact h.actives_left htxn rfl fun _ _ => rfl
  · exact h.marks_left rfl rfl
  · refine h.queue_kept ?_
    cases hst : g.stages i <;> rw [hst] at hwork <;> first | rfl | cases hwork
  · exact h.holding_kept hhold.symm
  · apply part_changed (C := Stored L job _ _ _ _) (f := Stage.work)
    refine h.stored.finish h.exclusion hwork (fun j b c hj => ?_) hclean hgoal hrep
    exact h.ids.distinct j i t (Stage.txn_of_holding (Stage.holding_of_work hj)) htxn
  · apply part_changed (C := Replayed job start _ _) (f := Stage.isEnded)
    dsimp only
    rw [heffect]
    apply h.replayed.finish
    cases hst : g.stages i <;> rw [hst] at hwork <;> first | rfl | cases hwork
  · refine h.released_moved [t] fun t' ht' => ?_
    cases ht'
    exact List.mem_cons_self

/-- The transaction manager aborts a client that has ended, or that is given up. -/
theorem abandon (h : Matches L job start room server programs ended g) {st st' : Stage A}
    (hst : g.stages i = st)
    (hcases : (st = .ended t ∧ st' = .ended t) ∨ (st = .dropped t ∧ st' = .done t false))
    (hp : Conforms L (job i) Answered p st') :
    Matches L job start room { server with txns := (server.txns.abortTxn t).2 }
      (Function.update programs i p) ended (moved g i st') := by
  have hnext : (server.txns.abortTxn t).2.nextId = server.txns.nextId := by
    unfold TransactionManager.abortTxn
    split_ifs <;> rfl
  have hseq : (server.txns.abortTxn t).2.commitSeq = server.txns.commitSeq := by
    unfold TransactionManager.abortTxn
    split_ifs <;> rfl
  obtain ⟨htxn, hactive, hsame⟩ : st.txn = some t ∧ st'.active = none ∧ st'.txn = st.txn ∧
      st'.unmarked = st.unmarked ∧ st'.isMarked = st.isMarked ∧ st'.unchecked = st.unchecked ∧
      st'.holding = st.holding ∧ st'.work = st.work ∧ st'.isEnded = st.isEnded := by
    rcases hcases with ⟨rfl, rfl⟩ | ⟨rfl, rfl⟩
    · exact ⟨rfl, rfl, rfl, rfl, rfl, rfl, rfl, rfl, rfl⟩
    · exact ⟨rfl, rfl, rfl, rfl, rfl, rfl, rfl, rfl, rfl⟩
  rw [← hst] at htxn hsame
  obtain ⟨hid, hunmarked, hmarked, hunchecked, hholding, hwork, hended⟩ := hsame
  constructor
  · exact h.conforms_moved hp
  · dsimp only
    rw [hnext]
    exact h.ids_kept hid
  · exact h.actives_left htxn hactive fun _ hne => TransactionManager.find_abortTxn_of_ne hne
  · dsimp only
    rw [hseq]
    exact h.marks_kept hunmarked hmarked
  · dsimp only
    rw [hnext]
    exact h.queue_kept hunchecked
  · exact h.holding_kept hholding
  · exact h.stored_kept hwork
  · exact h.replayed_kept hended
  · refine h.released_moved [] fun t' ht' => ?_
    rcases hcases with ⟨rfl, rfl⟩ | ⟨rfl, rfl⟩
    · exact h.released i t' (hst.trans ht')
    · cases ht'

theorem release (h : Matches L job start room server programs ended g)
    (hst : g.stages i = .ended t) (hp : Conforms L (job i) Answered p (.done t true)) :
    Matches L job start room { server with locks := server.locks.release t }
      (Function.update programs i p) ended (moved g i (.done t true)) := by
  have htxn : (g.stages i).txn = some t := by rw [hst]; rfl
  constructor
  · exact h.conforms_moved hp
  · exact h.ids_kept (by rw [hst]; rfl)
  · exact h.actives_kept (by rw [hst]; rfl)
  · exact h.marks_kept (by rw [hst]; rfl) (by rw [hst]; rfl)
  · exact h.queue_kept (by rw [hst]; rfl)
  · apply part_changed (C := Holding _ job) (f := Stage.holding)
    apply h.holding.release (by rw [hst]; rfl)
    intro j hj
    exact h.ids.distinct j i t (Stage.txn_of_holding hj) htxn
  · exact h.stored_kept (by rw [hst]; rfl)
  · exact h.replayed_kept (by rw [hst]; rfl)
  · exact h.released_moved [] fun t ht => by cases ht

/-! ## Whatever is allowed -/

variable [StandardLibrary]

/-- The call of a client returns, the invariant holds when the client goes on with the result, and the
call keeps to strict two-phase locking. -/
def Proceeds (L : Isolation P A) (job : ι → Job A) (start : Bytes → A) (room : Nat)
    (server : Server σ) (programs : ι → Exec (List Response))
    (ended : List UInt64) (g : Ghost ι A) (i : ι) (c : Call)
    (next : c.Result → Exec (List Response)) : Prop :=
  ∃ r server' g', Server.handle P c server = some (.ok r server') ∧
    Matches L job start room server' (Function.update programs i (next r)) (c.ends ++ ended) g' ∧
    (g'.stages i).isDropped = (g.stages i).isDropped ∧ c.Disciplined server.locks ended

theorem proceeds_begin (h : Matches L job start room server programs ended g)
    (hst : g.stages i = .fresh)
    {next : UInt64 → Exec (List Response)}
    (hnext : ∀ t, Conforms L (job i) Answered (next t) (.begun t)) :
    Proceeds L job start room server programs ended g i .beginTxn next :=
  ⟨_, _, _, rfl, h.begin hst (hnext _), isDropped_moved hst rfl, trivial⟩

theorem proceeds_check (h : Matches L job start room server programs ended g)
    (hst : g.stages i = .begun t)
    {next : Option UInt64 → Exec (List Response)}
    (hnext : Conforms L (job i) Answered (next none) (.checked t)) :
    Proceeds L job start room server programs ended g i (.detectCycle t) next := by
  obtain ⟨hnone, hmatches⟩ := h.check hst hnext
  refine ⟨none, server, _, ?_, hmatches, isDropped_moved hst rfl, trivial⟩
  rw [Server.handle, hnone]
  rfl

theorem proceeds_scan (h : Matches L job start room server programs ended g)
    (hst : g.stages i = .locked t a goal)
    {next : List Tuple → Exec (List Response)}
    (hnext : Conforms L (job i) Answered (next (L.rows a)) (.locked t a goal)) :
    Proceeds L job start room server programs ended g i (.scan t (job i).table) next := by
  obtain ⟨hnow, -⟩ := h.stored.atWork i t a goal (Stage.work_of_locked hst)
  obtain ⟨store, hrun, hrep⟩ := L.scan_ok t (job i).table h.stored.rep
    (h.stored.access h.exclusion (Stage.work_of_locked hst))
  rw [hnow] at hrun
  rw [← hst] at hnext
  exact ⟨_, _, g, Server.onStore_ok hrun, h.read hrep hnext, rfl,
    h.holding.isGrantedKey (Stage.holding_of_locked hst)⟩

theorem proceeds_prepare (h : Matches L job start room server programs ended g)
    (hst : g.stages i = .locked t a goal)
    {next : DbError → Exec (List Response)}
    (hnext : ∀ e, e.isSentinel = true →
      Conforms L (job i) Answered (next e) (.locked t a goal)) :
    Proceeds L job start room server programs ended g i (.prepare t) next := by
  obtain ⟨e, store, hrun, he, hrep⟩ := L.prepare_ok t h.stored.rep
  rw [← hst] at hnext
  exact ⟨_, _, g, Server.onStore_ok hrun, h.read hrep (hnext e he), rfl, trivial⟩

theorem proceeds_put (h : Matches L job start room server programs ended g)
    (hst : g.stages i = .locked t a goal) (hmode : (job i).mode = .exclusive) {key : Value}
    {row : Tuple} {next : DbError → Exec (List Response)}
    (hnext : Conforms L (job i) Answered (next (L.put a key row).1)
      (.locked t (L.put a key row).2 goal)) :
    Proceeds L job start room server programs ended g i (.put t (job i).table key row) next := by
  obtain ⟨hnow, -⟩ := h.stored.atWork i t a goal (Stage.work_of_locked hst)
  obtain ⟨store, hrun, hrep⟩ := L.put_ok t (job i).table key row h.stored.rep
    (h.stored.access h.exclusion (Stage.work_of_locked hst))
  rw [hnow] at hrun hrep
  exact ⟨_, _, _, Server.onStore_ok hrun, h.write hst hmode hrep hnext, isDropped_moved hst rfl,
    h.holding.isExclusiveKey (Stage.holding_of_locked hst) hmode⟩

theorem proceeds_remove (h : Matches L job start room server programs ended g)
    (hst : g.stages i = .locked t a goal) (hmode : (job i).mode = .exclusive) {key : Value}
    {next : DbError → Exec (List Response)}
    (hnext : Conforms L (job i) Answered (next (L.remove a key).1)
      (.locked t (L.remove a key).2 goal)) :
    Proceeds L job start room server programs ended g i (.remove t (job i).table key) next := by
  obtain ⟨hnow, -⟩ := h.stored.atWork i t a goal (Stage.work_of_locked hst)
  obtain ⟨store, hrun, hrep⟩ := L.remove_ok t (job i).table key h.stored.rep
    (h.stored.access h.exclusion (Stage.work_of_locked hst))
  rw [hnow] at hrun hrep
  exact ⟨_, _, _, Server.onStore_ok hrun, h.write hst hmode hrep hnext, isDropped_moved hst rfl,
    h.holding.isExclusiveKey (Stage.holding_of_locked hst) hmode⟩

theorem proceeds_mark (h : Matches L job start room server programs ended g)
    (hst : g.stages i = .locked t a goal)
    {next : Bool → Exec (List Response)}
    (hnext : ∀ b, Conforms L (job i) Answered (next b) (.marked t a goal)) :
    Proceeds L job start room server programs ended g i (.commitTxn t) next :=
  ⟨_, _, _, rfl, h.mark hst (hnext _), isDropped_moved hst rfl, trivial⟩

theorem proceeds_visibleSeq (h : Matches L job start room server programs ended g)
    (hst : g.stages i = .marked t a goal)
    {next : UInt64 → Exec (List Response)}
    (hnext : ∀ seq, seq ≠ 0 → Conforms L (job i) Answered (next seq) (.marked t a goal)) :
    Proceeds L job start room server programs ended g i .visibleSeq next := by
  have hpos : server.txns.visibleSeq ≠ 0 := h.marks.positive i (congrArg Stage.isMarked hst)
  rw [← hst] at hnext
  exact ⟨_, _, g, rfl, h.read h.stored.rep (hnext _ hpos), rfl, trivial⟩

theorem proceeds_commit (h : Matches L job start room server programs ended g)
    (hst : g.stages i = .marked t a goal) {seq : UInt64} (hseq : seq ≠ 0)
    (hgoal : L.commit a = goal)
    {next : DbError → Exec (List Response)}
    (hnext : ∀ e, Conforms L (job i) Answered (next e) (.ended t)) :
    Proceeds L job start room server programs ended g i (.commit t seq) next := by
  obtain ⟨e, store, hrun, hrep⟩ := L.commit_ok t h.stored.rep hseq
  have hmatches := h.finish (i := i) (by rw [hst]; rfl) L.commit_clean hgoal hrep (hnext e)
  exact ⟨_, _, _, Server.onStore_ok hrun, hmatches, isDropped_moved hst rfl, trivial⟩

theorem proceeds_abort (h : Matches L job start room server programs ended g)
    (hst : g.stages i = .locked t a goal) (hgoal : L.abort a = goal)
    {next : DbError → Exec (List Response)}
    (hnext : ∀ e, Conforms L (job i) Answered (next e) (.ended t)) :
    Proceeds L job start room server programs ended g i (.abort t) next := by
  obtain ⟨e, store, hrun, hrep⟩ := L.abort_ok t h.stored.rep
  have hmatches := h.finish (i := i) (Stage.work_of_locked hst) L.abort_clean hgoal hrep (hnext e)
  exact ⟨_, _, _, Server.onStore_ok hrun, hmatches, isDropped_moved hst rfl, trivial⟩

theorem proceeds_abortTxn (h : Matches L job start room server programs ended g) {st st' : Stage A}
    (hst : g.stages i = st)
    (hcases : (st = .ended t ∧ st' = .ended t) ∨ (st = .dropped t ∧ st' = .done t false))
    {next : Bool → Exec (List Response)}
    (hnext : ∀ b, Conforms L (job i) Answered (next b) st') :
    Proceeds L job start room server programs ended g i (.abortTxn t) next := by
  refine ⟨_, _, _, rfl, h.abandon hst hcases (hnext _), isDropped_moved hst ?_, trivial⟩
  rcases hcases with ⟨rfl, rfl⟩ | ⟨rfl, rfl⟩ <;> rfl

theorem proceeds_release (h : Matches L job start room server programs ended g)
    (hst : g.stages i = .ended t) {next : Unit → Exec (List Response)}
    (hnext : Conforms L (job i) Answered (next ()) (.done t true)) :
    Proceeds L job start room server programs ended g i (.release t) next :=
  ⟨_, _, _, rfl, h.release hst hnext, isDropped_moved hst rfl, fun _ => h.released i t hst⟩

/-- A call other than a request for a lock. -/
theorem call (h : Matches L job start room server programs ended g) {c : Call}
    {next : c.Result → Exec (List Response)}
    {fault : Fault → Exec (List Response)}
    (hprog : programs i = Program.call c next fault) (hc : ¬ c.IsRequest) :
    Proceeds L job start room server programs ended g i c next := by
  have hconf := h.conforms i
  rw [hprog] at hconf
  -- the stages at which the protocol allows the call
  cases hst : g.stages i with
  | fresh =>
    rw [hst] at hconf
    cases c with
    | beginTxn => exact h.proceeds_begin hst hconf
    | _ => exact hconf.elim
  | begun t =>
    rw [hst] at hconf
    cases c with
    | detectCycle txn =>
      obtain ⟨rfl, hnext⟩ := hconf
      exact h.proceeds_check hst hnext
    | _ => exact hconf.elim
  | checked t =>
    rw [hst] at hconf
    cases c with
    | acquire txn table mode => exact absurd trivial hc
    | tryAcquire txn table mode => exact absurd trivial hc
    | _ => exact hconf.elim
  | locked t a goal =>
    rw [hst] at hconf
    cases c with
    | scan txn table =>
      obtain ⟨rfl, rfl, hnext⟩ := hconf
      exact h.proceeds_scan hst hnext
    | put txn table key row =>
      obtain ⟨rfl, rfl, hmode, hnext⟩ := hconf
      exact h.proceeds_put hst hmode hnext
    | remove txn table key =>
      obtain ⟨rfl, rfl, hmode, hnext⟩ := hconf
      exact h.proceeds_remove hst hmode hnext
    | prepare txn =>
      obtain ⟨rfl, hnext⟩ := hconf
      exact h.proceeds_prepare hst hnext
    | commitTxn txn =>
      obtain ⟨rfl, hnext⟩ := hconf
      exact h.proceeds_mark hst hnext
    | abort txn =>
      obtain ⟨rfl, hgoal, hnext⟩ := hconf
      exact h.proceeds_abort hst hgoal hnext
    | _ => exact hconf.elim
  | marked t a goal =>
    rw [hst] at hconf
    cases c with
    | visibleSeq => exact h.proceeds_visibleSeq hst hconf
    | commit txn seq =>
      obtain ⟨rfl, hseq, hgoal, hnext⟩ := hconf
      exact h.proceeds_commit hst hseq hgoal hnext
    | _ => exact hconf.elim
  | ended t =>
    rw [hst] at hconf
    cases c with
    | abortTxn txn =>
      obtain ⟨rfl, hnext⟩ := hconf
      exact h.proceeds_abortTxn hst (Or.inl ⟨rfl, rfl⟩) hnext
    | release txn =>
      obtain ⟨rfl, hnext⟩ := hconf
      exact h.proceeds_release hst hnext
    | _ => exact hconf.elim
  | dropped t =>
    rw [hst] at hconf
    cases c with
    | abortTxn txn =>
      obtain ⟨rfl, hnext⟩ := hconf
      exact h.proceeds_abortTxn hst (Or.inr ⟨rfl, rfl⟩) hnext
    | _ => exact hconf.elim
  | done t granted =>
    rw [hst] at hconf
    cases c <;> exact hconf.elim

end Matches

end OpenDB
