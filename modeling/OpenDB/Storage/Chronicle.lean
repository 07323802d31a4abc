import OpenDB.Storage.OwnWrites

/-!
# What the transactions have written

`Chronicle` is kept beside a run and knows nothing of trees, numbers of commits or pages: for every key of
every table it has the writes that their transactions have committed, the latest first, those that are
still open in the present process, and the numbers of the transactions that have left writes behind.
A relation between the archive of a key and its page of the chronicle that every event keeps (`Lifts`)
holds after every run (`Lifts.after`).
-/

set_option autoImplicit false

namespace OpenDB

open OpenDB.Library

open LocalFileStorageProvider

/-! ## The chronicle -/

/-- The writes to one key, each with the number of its transaction, the latest first. -/
structure RowHistory where
  committed : List (ℕ × Option Tuple)
  pending : List (ℕ × Option Tuple)
  abandoned : List ℕ

namespace RowHistory

def blank : RowHistory := ⟨[], [], []⟩

def write (t : ℕ) (outcome : Option Tuple) (H : RowHistory) : RowHistory :=
  { H with pending := (t, outcome) :: H.pending }

/-- The writes of a transaction that have not been committed. -/
def pendingOf (H : RowHistory) (t : ℕ) : List (ℕ × Option Tuple) := H.pending.filter fun w => w.1 = t

def commit (t : ℕ) (H : RowHistory) : RowHistory :=
  { H with committed := H.pendingOf t ++ H.committed, pending := H.pending.filter fun w => w.1 ≠ t }

def abort (t : ℕ) (H : RowHistory) : RowHistory :=
  { H with
    pending := H.pending.filter fun w => w.1 ≠ t
    abandoned := (H.pendingOf t).map Prod.fst ++ H.abandoned }

/-- The process ends, and its open transactions with it. -/
def restart (H : RowHistory) : RowHistory :=
  { H with pending := [], abandoned := H.pending.map Prod.fst ++ H.abandoned }

/-- What was committed last. -/
def latest (H : RowHistory) : Option (Option Tuple) := H.committed.head?.map Prod.snd

/-- What the transaction has written last and not committed. -/
def lastOf (H : RowHistory) (t : ℕ) : Option (Option Tuple) := (H.pendingOf t).head?.map Prod.snd

end RowHistory

/-- The histories of all keys of all tables. -/
abbrev Chronicle : Type := Bytes → KeyRank → RowHistory

namespace Chronicle

def blank : Chronicle := fun _ _ => .blank

def setTable (name : Bytes) (T : KeyRank → RowHistory) (L : Chronicle) : Chronicle := Function.update L name T

def map (f : RowHistory → RowHistory) (L : Chronicle) : Chronicle := fun table k => f (L table k)

/-- An operation that returns. -/
def exec (M : ArchiveModel) (op : Op) (L : Chronicle) : Chronicle :=
  match op with
  | .createTable schema =>
    if M.admitsTable schema then L.setTable schema.table (fun _ => .blank) else L
  | .dropTable name => L.setTable name fun _ => .blank
  | .alterTable name (.renameTable newName) =>
    if M.admitsRename name newName then
      (L.setTable name fun _ => .blank).setTable newName (L name) else L
  | .alterTable .. => L
  | .put .. | .remove .. =>
    match M.written op with
    | some w => L.setTable w.table
        (Function.update (L w.table) w.key.rank ((L w.table w.key.rank).write w.txn.toNat w.outcome))
    | none => L
  | .prepare _ => L
  | .abort txn => L.map (.abort txn.toNat)
  | .commit txn _ | .commitNext txn => L.map (.commit txn.toNat)

def step (M : ArchiveModel) (L : Chronicle) : Event → Chronicle
  | .op op => L.exec M op
  | .restart => L.map .restart

/-- The chronicle after a list of operations and restarts. -/
def run (M : ArchiveModel) (L : Chronicle) : List Event → Chronicle
  | [] => L
  | event :: events => run (M.step event) (L.step M event) events

def after (events : List Event) : Chronicle := blank.run .empty events

end Chronicle

/-! ## Relations between archives and the chronicle -/

/-- What a relation between archives and histories asks of the commits and restarts of a run. -/
structure ChronicleTerms where
  commits : RowArchive → KeyRank → RowHistory → ℕ → ℕ → Prop
  loses : Prop

namespace ChronicleTerms

variable (C : ChronicleTerms)

/-- The event is on these terms: a commit for every key of every table, and a restart if its process has
made the file, or in any case. -/
def Admits (M : ArchiveModel) (L : Chronicle) : Event → Prop
  | .op (.commit txn seq) =>
    ∀ table k, C.commits (M.archive table) k (L table k) txn.toNat seq.toNat
  | .op (.commitNext txn) =>
    ∀ table k, C.commits (M.archive table) k (L table k) txn.toNat (M.internalSeq + 1).toNat
  | .restart => M.made = true ∨ C.loses
  | _ => True

/-- All events of a run are. -/
def AdmitsAll (M : ArchiveModel) (L : Chronicle) : List Event → Prop
  | [] => True
  | event :: events => C.Admits M L event ∧ AdmitsAll (M.step event) (L.step M event) events

end ChronicleTerms

/-- A relation between the archive of a key and its history that operations and restarts keep on these
terms. -/
structure Lifts (C : ChronicleTerms) (R : RowArchive → KeyRank → RowHistory → Prop) : Prop where
  blank : ∀ k, R .empty k .blank
  other : ∀ {A k H}, R A k H → ∀ t l outcome, l ≠ k → R (A.stage t l outcome) k H
  write : ∀ {A k H}, R A k H → ∀ t outcome, R (A.stage t k outcome) k (H.write t outcome)
  commit : ∀ {A k H}, R A k H → ∀ t n, C.commits A k H t n → R (A.publish t n) k (H.commit t)
  abort : ∀ {A k H}, R A k H → ∀ t, R A k (H.abort t)
  restart : ∀ {A k H}, R A k H → R A k H.restart
  lose : C.loses → ∀ {A k H}, R A k H → R .empty k H.restart

namespace Lifts

variable {C : ChronicleTerms} {R : RowArchive → KeyRank → RowHistory → Prop} {M : ArchiveModel}
  {L : Chronicle}

/-- The relation holds for every key of every table. -/
def Holds (R : RowArchive → KeyRank → RowHistory → Prop) (M : ArchiveModel) (L : Chronicle) : Prop :=
  ∀ table k, R (M.archive table) k (L table k)

theorem setTable (h : Holds R M L) {name : Bytes} {T : Option ArchivedTable} {H : KeyRank → RowHistory}
    (hT : ∀ k, R ((M.setTable name T).archive name) k (H k)) :
    Holds R (M.setTable name T) (L.setTable name H) := by
  intro table k
  by_cases htable : table = name
  · subst htable
    rw [Chronicle.setTable, Function.update_self]
    exact hT k
  · rw [ArchiveModel.archive_setTable_of_ne htable, Chronicle.setTable, Function.update_of_ne htable]
    exact h table k

theorem archive_setTable_none (M : ArchiveModel) (name : Bytes) :
    (M.setTable name none).archive name = .empty :=
  ArchiveModel.archive_of_none (Function.update_self _ _ _)

theorem written (hR : Lifts C R) (h : Holds R M L) {op : Op} {w : ArchiveModel.Write}
    (hw : M.written op = some w) : Holds R (M.exec op) (L.setTable w.table
      (Function.update (L w.table) w.key.rank ((L w.table w.key.rank).write w.txn.toNat w.outcome))) := by
  intro table k
  rw [ArchiveModel.archive_written hw]
  split_ifs with htable
  · subst htable
    rw [Chronicle.setTable, Function.update_self]
    by_cases hk : k = w.key.rank
    · subst hk
      rw [Function.update_self]
      exact hR.write (h _ _) _ _
    · rw [Function.update_of_ne hk]
      exact hR.other (h _ _) _ _ _ (Ne.symm hk)
  · rw [Chronicle.setTable, Function.update_of_ne htable]
    exact h _ _

/-- A write to a table that does not exist changes nothing. -/
theorem exec_of_not_written {op : Op} (hop : ∃ txn table key row, op = .put txn table key row ∨
    op = .remove txn table key) (hw : M.written op = none) : M.exec op = M := by
  obtain ⟨txn, table, key, row, rfl | rfl⟩ := hop
  · have hnone : M.tables table = none := Option.map_eq_none_iff.1 hw
    rw [ArchiveModel.exec, hnone, Option.map_none, ← hnone, Mirrors.setTable_self]
  · have hnone : M.tables table = none := Option.map_eq_none_iff.1 hw
    rw [ArchiveModel.exec, hnone, Option.map_none, ← hnone, Mirrors.setTable_self]

theorem commit_holds (hR : Lifts C R) (h : Holds R M L) {txn seq : UInt64}
    (hC : ∀ table k, C.commits (M.archive table) k (L table k) txn.toNat seq.toNat) :
    Holds R (M.commit txn seq) (L.map (.commit txn.toNat)) := by
  intro table k
  rw [ArchiveModel.archive_commit]
  exact hR.commit (h table k) _ _ (hC table k)

/-- What one operation keeps. -/
theorem exec (hR : Lifts C R) (h : Holds R M L) {op : Op} (hC : C.Admits M L (.op op)) :
    Holds R (M.exec op) (L.exec M op) := by
  cases op with
  | createTable schema =>
    rw [ArchiveModel.exec, Chronicle.exec]
    split_ifs
    · apply setTable h
      intro k
      rw [ArchiveModel.archive_setTable_self]
      exact hR.blank k
    · exact h
  | dropTable name =>
    apply setTable h
    intro k
    rw [archive_setTable_none]
    exact hR.blank k
  | alterTable name spec =>
    cases spec with
    | addColumn | dropColumn => exact h
    | renameTable newName =>
      rw [ArchiveModel.exec, Chronicle.exec]
      split_ifs
      · have hdropped : Holds R (M.setTable name none) (L.setTable name fun _ => .blank) := by
          apply setTable h
          intro k
          rw [archive_setTable_none]
          exact hR.blank k
        apply setTable hdropped
        intro k
        have hsame : ((M.setTable name none).setTable newName (M.tables name)).archive newName =
            M.archive name := by
          show ((Function.update (M.setTable name none).tables newName (M.tables name) newName).map
            ArchivedTable.archive).getD .empty = _
          rw [Function.update_self]
          rfl
        rw [hsame]
        exact h name k
      · exact h
  | put txn table key row =>
    rw [Chronicle.exec]
    cases hw : M.written (.put txn table key row) with
    | none =>
      rw [exec_of_not_written ⟨txn, table, key, row, Or.inl rfl⟩ hw]
      exact h
    | some w => exact hR.written h hw
  | remove txn table key =>
    rw [Chronicle.exec]
    cases hw : M.written (.remove txn table key) with
    | none =>
      rw [exec_of_not_written ⟨txn, table, key, .empty, Or.inr rfl⟩ hw]
      exact h
    | some w => exact hR.written h hw
  | prepare txn => exact h
  | abort txn => exact fun table k => hR.abort (h table k) _
  | commit txn seq => exact hR.commit_holds h hC
  | commitNext txn =>
    exact hR.commit_holds (M := { M with internalSeq := M.internalSeq + 1 }) h hC

/-- What one event keeps. -/
theorem step (hR : Lifts C R) (h : Holds R M L) {event : Event} (hC : C.Admits M L event) :
    Holds R (M.step event) (L.step M event) := by
  cases event with
  | op op => exact hR.exec h hC
  | restart =>
    rw [ArchiveModel.step, ArchiveModel.restart]
    split_ifs with hmade
    · exact fun table k => hR.restart (h table k)
    · exact fun table k => hR.lose (hC.resolve_left hmade) (h table k)

/-- What a run keeps. -/
theorem run (hR : Lifts C R) {events : List Event} (h : Holds R M L) (hC : C.AdmitsAll M L events) :
    Holds R (events.foldl ArchiveModel.step M) (L.run M events) := by
  induction events generalizing M L with
  | nil => exact h
  | cons event events ih => exact ih (hR.step h hC.1) hC.2

/-- A relation that the terms keep holds after every run on them. -/
theorem after (hR : Lifts C R) {events : List Event} (hC : C.AdmitsAll .empty .blank events)
    (table : Bytes) (k : KeyRank) :
    R ((ArchiveModel.after events).archive table) k (Chronicle.after events table k) := by
  have hblank : Holds R .empty .blank := fun _ k => hR.blank k
  exact hR.run hblank hC table k

end Lifts

end OpenDB
