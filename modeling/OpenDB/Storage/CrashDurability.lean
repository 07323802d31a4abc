import OpenDB.Storage.CrashImages
import OpenDB.Storage.CrashReads

/-!
# Commits over a crash

A process that opens the file after a crash right after a commit has the trees of the process that has
crashed, under the visible sequence number of before the commit. So it misses what the commit has moved
that number over, unless it was committed before already. If the crashed process had found the file and
has written page 0, the next process has nothing at all.

`commit_survives_iff` says this for every row and every reader that has staged nothing there.
-/

set_option autoImplicit false

namespace OpenDB

open OpenDB.Library

open LocalFileStorageProvider

/-! ## Reads over the same pages -/

namespace BTree

section

variable {p p' : Pager}

theorem findLeafFrom_congr (h : loadNode p' = loadNode p) (key : Value) (fuel : Nat) (cur : PageId) :
    findLeafFrom p' key fuel cur = findLeafFrom p key fuel cur := by
  induction fuel generalizing cur with
  | zero => rfl
  | succ fuel ih =>
    rw [findLeafFrom, findLeafFrom, h]
    simp only [ih]

theorem leftmostFrom_congr (h : loadNode p' = loadNode p) (fuel : Nat) (cur : PageId) :
    leftmostFrom p' fuel cur = leftmostFrom p fuel cur := by
  induction fuel generalizing cur with
  | zero => rfl
  | succ fuel ih =>
    rw [leftmostFrom, leftmostFrom, h]
    simp only [ih]

theorem chainFrom_congr (h : loadNode p' = loadNode p) (fuel : Nat) (cur : PageId) :
    chainFrom p' fuel cur = chainFrom p fuel cur := by
  induction fuel generalizing cur with
  | zero => rw [chainFrom, chainFrom]
  | succ fuel ih =>
    rw [chainFrom, chainFrom, h]
    simp only [ih]

/-- A tree is read alike over pagers that read their pages alike. -/
theorem reads_congr (hpages : ∀ id, p'.readPage id = p.readPage id)
    (hcount : p'.header.pageCount = p.header.pageCount) (root : PageId) (key : Value)
    (txn visibleSeq : UInt64) : get ⟨p', root⟩ key txn visibleSeq = get ⟨p, root⟩ key txn visibleSeq ∧
      scan ⟨p', root⟩ txn visibleSeq = scan ⟨p, root⟩ txn visibleSeq := by
  have hload : loadNode p' = loadNode p := funext fun id => loadNode_congr (hpages id)
  constructor
  · rw [get, get, findLeaf, findLeaf, findLeafFrom_congr hload, hcount, hload]
  · rw [scan, scan, leafChain, leafChain, leftmost, leftmost, leftmostFrom_congr hload, hcount]
    simp only [chainFrom_congr hload]

end

end BTree

/-- Providers with the same roots over such pagers, under the same sequence number, show the same. -/
theorem sees_congr {s u : LocalFileStorageProvider} (hroots : u.btrees = s.btrees)
    (hvisible : u.visibleSeq = s.visibleSeq) (hpages : ∀ id, u.pager.readPage id = s.pager.readPage id)
    (hcount : u.pager.header.pageCount = s.pager.header.pageCount) {txn : UInt64} {table : Bytes}
    {key : Value} {value : Option Tuple} : u.Sees txn table key value ↔ s.Sees txn table key value := by
  have hreads := fun root => BTree.reads_congr hpages hcount root key txn s.visibleSeq
  rw [Sees, Sees, LocalFileStorageProvider.get, LocalFileStorageProvider.get, scanTree, scanTree, hroots,
    hvisible]
  cases s.btrees.find table with
  | none => rfl
  | some root =>
    cases root with
    | none => rfl
    | some root =>
      dsimp only
      rw [(hreads root).1, (hreads root).2]

/-! ## Page 0 in a run -/

section

variable {capacity : Nat} {hcap : capacity < 2 ^ 32} {events : List Event}
  {s s₁ s' u : LocalFileStorageProvider} {F : List TableTree} {q : Pager}

theorem Pager.Frame.headedBy {p p' : Pager} {touched : List PageId} (h : p.Frame p' touched)
    (hversion : p'.header.version = Pager.version) (hp : ∃ q, p.HeadedBy q) : ∃ q, p'.HeadedBy q := by
  rcases h.page0 with ⟨hfile, hheader⟩ | hflush
  · obtain ⟨q, hheaded⟩ := hp
    refine ⟨q, hfile.trans hheaded.page, hheaded.version, ?_⟩
    rw [hheader]
    exact hheaded.pageCount
  · obtain ⟨q, hheaded, -⟩ := hflush.headedBy hversion
    exact ⟨q, hheaded⟩

/-- Page 0 is a header page with the number of pages of now. -/
theorem Runs.headed (h : Runs capacity hcap events s) : ∃ q, s.pager.HeadedBy q := by
  have hstarts : ∀ {events s}, Runs capacity hcap events s → (∀ es op, events ≠ es ++ [.op op]) →
      ∃ q, s.pager.HeadedBy q := by
    intro events s h hstart
    obtain ⟨⟨F, hmirrors⟩, -⟩ := h.mirrors
    rcases h.makes_or_finds hstart with hmakes | ⟨q, hfinds⟩
    · obtain ⟨q, hheaded, -⟩ := hmakes.flushed.headedBy hmirrors.sound.version
      exact ⟨q, hheaded⟩
    · exact ⟨q, hfinds.headed⟩
  induction h with
  | opened hopen => exact hstarts (.opened hopen) (by simp)
  | exec hrun hcall ih =>
    obtain ⟨⟨F, hmirrors⟩, -⟩ := hrun.mirrors
    obtain ⟨F', hstep⟩ := hmirrors.sound.exec_ok hcall
    obtain ⟨touched, hframe⟩ := hstep.frame
    exact hframe.headedBy hstep.sound.version ih
  | restart hrun hfits hrecorded hrestart =>
    exact hstarts (hrun.restart hfits hrecorded hrestart) fun es op heq => by
      cases (List.append_inj' heq rfl).2

/-! ## What is read after a crash -/

/-- The next process has the archives of the one that has crashed, under the visible sequence number of
before. -/
theorem SyncedStep.sees_crashed_iff (h : SyncedStep s s₁ s' F) {M : ArchiveModel}
    (hmirrors : Mirrors M s' F) (hshort : s'.metadata.Short) (hheaded : s'.pager.HeadedBy q)
    (hmarked : s'.pager.Marked) (hu : CrashRestart s' u) {table : Bytes} (htidy : s'.TidyTable table)
    {txn : UInt64} {key : Value} (hkey : key.isNaN = false) {value : Option Tuple} :
    u.Sees txn table key value ↔
      (M.archive table).Reads s.visibleSeq.toNat txn.toNat key.rank value := by
  have hsound := h.sound_loaded
  have hauto : ∀ name, (loaded s'.pager s₁.metadata).autoId name = s'.autoId name := by
    intro name
    rw [(h.sound.sameContents_loaded hsound).autoId]
    show (s₁.tables.find name).map _ = (s'.tables.find name).map _
    rw [h.tables_eq]
  have hloaded := hmirrors.transfer hsound hauto
  have hpages := Pager.readPage_reopened hheaded.pageCount s'.pager.capacity s'.capacity_lt
  have hsame : u.Sees txn table key value ↔ (loaded s'.pager s₁.metadata).Sees txn table key value := by
    obtain rfl := (h.crashRestart_iff hshort hheaded (hheaded.marked_iff.1 hmarked)).1 hu
    exact @sees_congr (loaded s'.pager s₁.metadata)
      (loaded (q.reopened s'.pager.file s'.pager.capacity s'.capacity_lt) s₁.metadata) rfl rfl hpages
      hheaded.pageCount _ _ _ _
  rw [hsame, hloaded.sees_iff ((hmirrors.tidyTable_iff hsound).1 htidy) hkey]
  show (M.archive table).Reads s₁.visibleSeq.toNat _ _ _ ↔ _
  rw [h.visibleSeq_eq]

/-- Without the magic number on page 0 the next process shows no row. -/
theorem SyncedStep.not_sees_crashed (h : SyncedStep s s₁ s' F) (hheaded : s'.pager.HeadedBy q)
    (hunmarked : ¬ s'.pager.Marked) (hu : CrashRestart s' u) {txn : UInt64} {table : Bytes} {key : Value}
    {row : Tuple} : ¬ u.Sees txn table key (some row) := by
  have hnil := h.sound_crashed_nil hheaded (mt hheaded.marked_iff.2 hunmarked) hu
  rintro ⟨hget, -⟩
  rw [LocalFileStorageProvider.get, hnil.find_eq_none_iff.2 List.not_mem_nil] at hget
  cases hget

end

/-! ## What a commit has moved the number over -/

namespace ArchiveModel

variable {M : ArchiveModel} {txn seq u : UInt64} {table : Bytes} {key : Value} {row : Tuple}

/-- A commit leaves what is staged. -/
theorem staged_commit : (M.commit txn seq).staged u table key = M.staged u table key := by
  rw [staged, archive_commit, staged]
  by_cases hplace : 0 = seq.toNat ∧ u.toNat = txn.toNat
  · rw [← hplace.1, VersionArchive.publish_zero]
  · exact VersionArchive.entry_publish_of_ne hplace

/-- A reader that has staged nothing there sees the rows that are committed. -/
theorem Bounded.reads_some_iff (h : M.Bounded) (hfresh : M.staged u table key = none) :
    M.Reads u table key (some row) ↔ M.Newest table key (some row) := by
  rw [h.reads_iff, hfresh]
  exact or_iff_left fun hor => Option.some_ne_none _ hor.2

/-- A commit above all numbers shows a row of its transaction or one that was committed before. -/
theorem Bounded.reads_commit_above (h : M.Bounded) (hlt : M.visibleSeq < seq)
    (hfresh : M.staged u table key = none) : (M.commit txn seq).Reads u table key (some row) ↔
      M.staged txn table key = some (some row) ∨
        (M.staged txn table key = none ∧ M.Newest table key (some row)) := by
  have hout : ¬ M.Outranked txn seq table key := (h table).not_outranked (UInt64.lt_iff_toNat_lt.1 hlt)
  rw [h.reads_commit_iff, h.reads_some_iff hfresh]
  constructor
  · rintro (⟨hor, hnewest⟩ | ⟨-, hstaged⟩)
    · exact Or.inr ⟨hor.resolve_left hout, hnewest⟩
    · exact Or.inl hstaged
  · rintro (hstaged | ⟨hnone, hnewest⟩)
    · exact Or.inr ⟨hout, hstaged⟩
    · exact Or.inl ⟨Or.inr hnone, hnewest⟩

end ArchiveModel

section

variable {capacity : Nat} {hcap : capacity < 2 ^ 32} {events : List Event}
  {s s' u : LocalFileStorageProvider}

/-- After a crash right after a commit the next process shows a reader that has staged nothing under a
key the row that the crashed one has shown it there, exactly if page 0 has the magic number and the
commit has not moved the visible sequence number, or has staged no row there, or the row that was
committed there before; or if page 0 has lost the magic number and no row is committed there. -/
theorem commit_survives_iff (h : Runs capacity hcap events s) {txn seq : UInt64} {r : DbError}
    (hrun : (commit txn seq).run s = .ok r s') (hshort : s'.metadata.Short) (hu : CrashRestart s' u)
    {table : Bytes} (htidy : s'.TidyTable table) {key : Value} (hkey : key.isNaN = false) {t : UInt64}
    (hfresh : (ArchiveModel.after events).staged t table key = none) :
    (∀ row, s'.Sees t table key (some row) → u.Sees t table key (some row)) ↔
      (s'.pager.Marked ∧ (seq ≤ s.visibleSeq ∨
        ∀ row, (ArchiveModel.after events).staged txn table key = some (some row) →
          (ArchiveModel.after events).Newest table key (some row))) ∨
      (¬ s'.pager.Marked ∧
        ∀ row, ¬ (ArchiveModel.after (events ++ [.op (.commit txn seq)])).Newest table key (some row)) := by
  obtain ⟨q, hheaded⟩ := (h.call (.commit txn seq) hrun).headed
  obtain ⟨⟨F, hmirrors⟩, -⟩ := h.mirrors
  have hbounded := ArchiveModel.bounded_after events
  have hafter : ArchiveModel.after (events ++ [.op (.commit txn seq)]) =
      (ArchiveModel.after events).commit txn seq := ArchiveModel.after_concat _ _
  rw [hafter]
  generalize ArchiveModel.after events = M at hmirrors hbounded hfresh
  obtain ⟨s₁, F', hstep, -, hmirrors'⟩ := hmirrors.commit_syncs hrun
  have hfresh' : (M.commit txn seq).staged t table key = none := ArchiveModel.staged_commit.trans hfresh
  have hshown : ∀ value, s'.Sees t table key value ↔ (M.commit txn seq).Reads t table key value :=
    fun value => hmirrors'.sees_iff htidy hkey
  simp only [hshown]
  by_cases hmarked : s'.pager.Marked
  · have hleft : ∀ value, u.Sees t table key value ↔
        ((M.commit txn seq).archive table).Reads s.visibleSeq.toNat t.toNat key.rank value :=
      fun value => hstep.sees_crashed_iff hmirrors' hshort hheaded hmarked hu htidy hkey
    simp only [hleft, hmarked, true_and, not_true_eq_false, false_and, or_false]
    by_cases hle : seq ≤ s.visibleSeq
    · -- the number has stayed where it was
      have hvisible : (M.commit txn seq).visibleSeq = s.visibleSeq := by
        rw [← hmirrors.visibleSeq] at hle ⊢
        exact if_neg (UInt64.not_lt.2 hle)
      refine iff_of_true (fun row hreads => ?_) (Or.inl hle)
      rwa [ArchiveModel.Reads, hvisible] at hreads
    · have hlt : M.visibleSeq < seq := by
        rw [hmirrors.visibleSeq]
        exact UInt64.not_le.1 hle
      have hbefore : ∀ row, ((M.commit txn seq).archive table).Reads s.visibleSeq.toNat t.toNat key.rank
          (some row) ↔ M.Newest table key (some row) := by
        intro row
        rw [← hbounded.reads_some_iff hfresh, ArchiveModel.archive_commit, ← hmirrors.visibleSeq]
        exact VersionArchive.reads_publish_of_lt (UInt64.lt_iff_toNat_lt.1 hlt)
      simp only [hbefore, hbounded.reads_commit_above hlt hfresh]
      rw [or_iff_right hle]
      exact ⟨fun hall row hstaged => hall row (Or.inl hstaged),
        fun hall row hor => hor.elim (hall row) And.right⟩
  · simp only [hmarked, false_and, false_or, not_false_eq_true, true_and,
      (hbounded.commit txn seq).reads_some_iff hfresh', hstep.not_sees_crashed hheaded hmarked hu]

end

/-! ## One row -/

/-- While this process holds the magic number, page 0 has it. -/
theorem History.marked {capacity : Nat} {hcap : capacity < 2 ^ 32} {W : List UInt64}
    {s : LocalFileStorageProvider} (h : History capacity hcap W s)
    (hmagic : s.pager.header.magic = Pager.magic) : s.pager.Marked := by
  obtain ⟨F, hsound, -⟩ := h.sound
  exact ((h.flushedEmpty hmagic).marked_iff hsound.version).2 hmagic

/-- The process that has made the file crashes right after it has committed its first row: the next one
does not show the row. -/
theorem commit_lost_in_crash : ∃ s s' u, Runs 16 (by decide) putOneRow s ∧
    (commit 1 1).run s = .ok .sentinel s' ∧ CrashRestart s' u ∧
    (ArchiveModel.after putOneRow).staged 2 (ascii "t") (.int64 7) = none ∧
    s'.Sees 2 (ascii "t") (.int64 7) (some Tuple.empty) ∧
    ¬ u.Sees 2 (ascii "t") (.int64 7) (some Tuple.empty) := by
  obtain ⟨s₁, s, s', root, xs, ys, zs, -, hruns, hruns', -, hcommit, -, -, hfirst⟩ := exists_first_row
  obtain ⟨W, hist⟩ := hruns.exists_history (by simp [putOneRow])
  obtain ⟨⟨F, hmirrors⟩, hmade⟩ := hruns.mirrors
  have hbounded := ArchiveModel.bounded_after putOneRow
  have hfresh : (ArchiveModel.after putOneRow).staged 2 (ascii "t") (.int64 7) = none := rfl
  obtain ⟨u, F', hu, -, hmirrors', hmirrorsU⟩ :=
    hist.mirrors_after_crash hmirrors (hmade.1 rfl) hcommit (fits_first_table hfirst.tables).2
  have htidy := (hmirrors'.tidyTable_iff hmirrorsU.sound).1 hfirst.tidyTable
  refine ⟨s, s', u, hruns, hcommit, hu, hfresh, ?_, ?_⟩
  · rw [hmirrors'.sees_iff hfirst.tidyTable rfl, hbounded.reads_commit_above (by decide) hfresh]
    exact Or.inl rfl
  · rw [hmirrorsU.sees_iff htidy rfl]
    show ¬ (((ArchiveModel.after putOneRow).commit 1 1).archive (ascii "t")).Reads
      (ArchiveModel.after putOneRow).visibleSeq.toNat _ _ _
    rw [ArchiveModel.archive_commit, VersionArchive.reads_publish_of_lt (by decide)]
    intro hreads
    exact not_committed_one_staged ((hbounded.reads_some_iff hfresh).1 hreads).committed

/-- A row is committed, and the same row once more under a higher number. -/
theorem recommit_survives_crash : ∃ s s' u,
    Runs 16 (by decide) (putOneRow ++ [.op (.commit 1 1)] ++
      [.op (.put 2 (ascii "t") (.int64 7) Tuple.empty)]) s ∧
    (commit 2 2).run s = .ok .sentinel s' ∧ CrashRestart s' u ∧ s.visibleSeq < 2 ∧
    s'.Sees 3 (ascii "t") (.int64 7) (some Tuple.empty) ∧
    u.Sees 3 (ascii "t") (.int64 7) (some Tuple.empty) := by
  obtain ⟨s₁, s₂, s₃, root, xs, ys, zs, -, -, hruns₃, -, -, -, -, hfirst₃⟩ := exists_first_row
  obtain ⟨s, ys', hput, hfirst⟩ := hfirst₃.put (by decide) 2 Tuple.empty (by decide)
  have hruns := hruns₃.call (.put 2 (ascii "t") (.int64 7) Tuple.empty) hput
  obtain ⟨s', zs', hcommit, hfirst'⟩ := hfirst.commit (by decide) 2 2
  have hruns' := hruns.call (.commit 2 2) hcommit
  have hshort : s'.metadata.Short := (fits_first_table hfirst'.tables).2
  obtain ⟨W, hist⟩ := hruns.exists_history (by simp [putOneRow])
  obtain ⟨W', hist'⟩ := hruns'.exists_history (by simp [putOneRow])
  obtain ⟨⟨F, hmirrors⟩, hmade⟩ := hruns.mirrors
  obtain ⟨⟨F', hmirrors'⟩, hmade'⟩ := hruns'.mirrors
  obtain ⟨u, F₁, hu, -⟩ := hist.mirrors_after_crash hmirrors (hmade.1 rfl) hcommit hshort
  have hvisible : s.visibleSeq < 2 := by
    rw [← hmirrors.visibleSeq]
    decide
  have hshown : s'.Sees 3 (ascii "t") (.int64 7) (some Tuple.empty) := by
    rw [hmirrors'.sees_iff hfirst'.tidyTable rfl, ArchiveModel.after_concat]
    exact ((ArchiveModel.bounded_after _).reads_commit_above (show (1 : UInt64) < 2 by decide) rfl).2
      (Or.inl rfl)
  refine ⟨s, s', u, hruns, hcommit, hu, hvisible, hshown, ?_⟩
  have hcondition : s'.pager.Marked := hist'.marked (hmade'.1 rfl)
  refine (commit_survives_iff hruns hcommit hshort hu hfirst'.tidyTable rfl rfl).2
    (Or.inl ⟨hcondition, Or.inr fun row hstaged => ?_⟩) _ hshown
  cases hstaged
  exact newest_first_row 2 Tuple.empty

end OpenDB
