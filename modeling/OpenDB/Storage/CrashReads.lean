import OpenDB.Storage.ArchiveReads

/-!
# Readers after a crash

`commit` saves the counters before it moves the visible sequence number. A provider that opens the file
of one that has crashed right after a commit therefore has the rows of that commit in its trees, above
the number that its readers start with: they read as before the commit, and the next commit brings the
rows back (`crash_hides_last_commit`).
-/

set_option autoImplicit false

namespace OpenDB

open OpenDB.Library

open LocalFileStorageProvider

/-- A history is a run. -/
theorem History.exists_runs {capacity : Nat} {hcap : capacity < 2 ^ 32} {W : List UInt64}
    {s : LocalFileStorageProvider} (h : History capacity hcap W s) :
    ∃ events, Runs capacity hcap events s := by
  induction h with
  | opened hopen => exact ⟨_, .opened hopen⟩
  | exec _ hcall ih =>
    obtain ⟨events, hruns⟩ := ih
    exact ⟨_, hruns.exec hcall⟩
  | restart hist hfits hrestart ih =>
    obtain ⟨events, hruns⟩ := ih
    obtain ⟨F, hsound, hsync⟩ := hist.sound
    exact ⟨_, hruns.restart hfits (hsound.rootsRecorded (hsync rfl)) hrestart⟩

/-- The transaction has staged nothing in the table. -/
def LocalFileStorageProvider.StagesNothing (s : LocalFileStorageProvider) (txn : UInt64)
    (table : Bytes) : Prop :=
  ∀ es, s.scanAll table = .ok es → ∀ e ∈ es, stagedBy txn e = false

namespace Mirrors

variable {M : ArchiveModel} {s s' : LocalFileStorageProvider} {F : List TableTree} {table : Bytes}

theorem tidyTable_iff (h : Mirrors M s F) (h' : Sound s' F) :
    s.TidyTable table ↔ s'.TidyTable table := by
  by_cases hmem : table ∈ F.map TableTree.name
  · obtain ⟨f, hf, rfl⟩ := List.mem_map.1 hmem
    rw [h.sound.tidyTable_iff hf, h'.tidyTable_iff hf]
  · have hvacuous : ∀ {t : LocalFileStorageProvider}, Sound t F → t.TidyTable table := by
      intro t ht root leaves hroot
      rw [ht.find_eq_none_iff.2 hmem] at hroot
      cases hroot
    exact iff_of_true (hvacuous h.sound) (hvacuous h')

/-- The archive of a tidy table has no staged versions of a transaction that has staged nothing. -/
theorem entry_of_stagesNothing (h : Mirrors M s F) (htidy : s.TidyTable table) {txn : UInt64}
    (hnothing : s.StagesNothing txn table) (k : KeyRank) :
    (M.archive table).entry k 0 txn.toNat = none := by
  rcases h.exists_archive htidy with ⟨-, harchive⟩ | ⟨root, L, others, hfind, hrep, hordered, harchive⟩
  · rw [harchive]
    rfl
  · rw [← harchive]
    by_contra hne
    obtain ⟨e, he, hat⟩ := entry_archiveOf_ne_none_iff.1 hne
    obtain ⟨-, hseq, htxn⟩ := isAt_iff.1 hat
    have hscan : s.scanAll table = .ok L.scanAll := by
      rw [LocalFileStorageProvider.scanAll, hfind]
      exact hrep.scanAll_eq
    have hstaged := hnothing _ hscan e he
    rw [stagedBy_iff.2 ⟨UInt64.toNat_inj.1 hseq, UInt64.toNat_inj.1 htxn⟩] at hstaged
    cases hstaged

/-- A provider with the same trees and counters mirrors the same archives under its own sequence
numbers. -/
theorem transfer (h : Mirrors M s F) (h' : Sound s' F) (hauto : ∀ table, s'.autoId table = s.autoId table) :
    Mirrors { M with visibleSeq := s'.visibleSeq, internalSeq := s'.internalSeq } s' F :=
  ⟨h', rfl, rfl, h.autoId.trans (funext fun table => (hauto table).symm), h.trees⟩

end Mirrors

/-- What a crash right after a commit leaves: the archives as the commit has made them, under the
visible sequence number of before. -/
theorem History.mirrors_after_crash {capacity : Nat} {hcap : capacity < 2 ^ 32} {W : List UInt64}
    {M : ArchiveModel} {s s' : LocalFileStorageProvider} {F : List TableTree}
    (hist : History capacity hcap W s) (h : Mirrors M s F)
    (hmagic : s.pager.header.magic = Pager.magic) {txn seq : UInt64} {r : DbError}
    (hrun : (commit txn seq).run s = .ok r s') (hshort : s'.metadata.Short) :
    ∃ u F', CrashRestart s' u ∧ Grown (promotion txn seq) F F' ∧
      Mirrors (M.commit txn seq) s' F' ∧
      Mirrors { M.commit txn seq with visibleSeq := M.visibleSeq, internalSeq := u.internalSeq } u F' := by
  obtain ⟨s₁, F', hstep, hgrown, hmirrors⟩ := h.commit_syncs hrun
  -- page 0 is that of the last extension
  have hcall : (Op.commit txn seq).exec.run s = .ok r s' := hrun
  obtain ⟨F₁, hop⟩ := h.sound.exec_ok hcall
  obtain ⟨touched, hframe⟩ := hop.frame
  obtain ⟨u, hrestart, hrecovers⟩ := hstep.recovers hshort (hframe.magic.trans hmagic)
    (hframe.flushedEmpty (hist.flushedEmpty hmagic))
  have hvisible : u.visibleSeq = M.visibleSeq := hrecovers.visibleSeq.trans h.visibleSeq.symm
  have hmirrorsU := hmirrors.transfer hrecovers.sound hrecovers.contents.autoId
  rw [hvisible] at hmirrorsU
  exact ⟨u, F', hrestart, hgrown, hmirrors, hmirrorsU⟩

/-- A crash right after a commit in the process that has made the file: in tidy tables the readers of
the next provider read as before the commit, and a later commit of it, of a transaction that has staged
nothing there, shows them the rows of the lost one. -/
theorem History.crash_hides_last_commit {capacity : Nat} {hcap : capacity < 2 ^ 32} {W : List UInt64}
    {s s' : LocalFileStorageProvider} (hist : History capacity hcap W s)
    (hmagic : s.pager.header.magic = Pager.magic) {txn seq : UInt64} {r : DbError}
    (hnew : s.visibleSeq < seq) (hrun : (commit txn seq).run s = .ok r s')
    (hshort : s'.metadata.Short) :
    ∃ u, CrashRestart s' u ∧
      (∀ table, s'.TidyTable table → ∀ t key, key.isNaN = false →
        u.get t table key = s.get t table key) ∧
      ∀ txn₂ seq₂ r₂ u', seq ≤ seq₂ → (commit txn₂ seq₂).run u = .ok r₂ u' →
        ∀ table, u'.TidyTable table → u.StagesNothing txn₂ table → ∀ t key, key.isNaN = false →
          u'.get t table key = s'.get t table key := by
  obtain ⟨events, hruns⟩ := hist.exists_runs
  obtain ⟨⟨F, hmirrors⟩, -⟩ := hruns.mirrors
  have hbounded := ArchiveModel.bounded_after events
  generalize ArchiveModel.after events = M at hmirrors hbounded
  have hlt : M.visibleSeq < seq := by
    rw [hmirrors.visibleSeq]
    exact hnew
  have hltNat := UInt64.lt_iff_toNat_lt.1 hlt
  obtain ⟨u, F', hrestart, hgrown, hmirrors', hmirrorsU⟩ :=
    hist.mirrors_after_crash hmirrors hmagic hrun hshort
  refine ⟨u, hrestart, ?_, ?_⟩
  · intro table htidy' t key hkey
    have htidy := hgrown.tidyTable_before hmirrors.sound hmirrors'.sound htidy'
    obtain ⟨value, hget, hreads⟩ := hmirrors.get htidy t hkey
    rw [hget, hmirrorsU.get_eq_iff ((hmirrors'.tidyTable_iff hmirrorsU.sound).1 htidy') hkey]
    show ((M.commit txn seq).archive table).Reads M.visibleSeq.toNat t.toNat key.rank value
    rw [ArchiveModel.archive_commit, VersionArchive.reads_publish_of_lt hltNat]
    exact hreads
  · intro txn₂ seq₂ r₂ u' hle hrun₂ table htidy₂ hnothing t key hkey
    have hltNat₂ := UInt64.le_iff_toNat_le.1 hle
    obtain ⟨s₂, F₂, -, hgrown₂, hmirrors₂⟩ := hmirrorsU.commit_syncs hrun₂
    have htidyU := hgrown₂.tidyTable_before hmirrorsU.sound hmirrors₂.sound htidy₂
    have hfree := hmirrorsU.entry_of_stagesNothing htidyU hnothing key.rank
    obtain ⟨value, hget, hreads⟩ :=
      hmirrors'.get ((hmirrors'.tidyTable_iff hmirrorsU.sound).2 htidyU) t hkey
    rw [hget, hmirrors₂.get_eq_iff htidy₂ hkey, ArchiveModel.Reads, ArchiveModel.archive_commit,
      VersionArchive.reads_publish_unstaged hfree]
    -- the horizon of the crashed provider was the number of its last commit
    have hseq : (M.commit txn seq).visibleSeq = seq := if_pos hlt
    have hseq₂ : ArchiveModel.visibleSeq (ArchiveModel.commit txn₂ seq₂
        { M.commit txn seq with visibleSeq := M.visibleSeq, internalSeq := u.internalSeq }) = seq₂ :=
      if_pos (show M.visibleSeq < seq₂ from UInt64.lt_iff_toNat_lt.2 (by omega))
    have hbounded' := hbounded.commit txn seq table
    rw [hseq] at hbounded'
    rw [ArchiveModel.Reads, hseq] at hreads
    rw [hseq₂]
    show ((M.commit txn seq).archive table).Reads seq₂.toNat t.toNat key.rank value
    rw [hbounded'.reads_mono hltNat₂]
    exact hreads

/-- A run without restarts is a history. -/
theorem Runs.exists_history {capacity : Nat} {hcap : capacity < 2 ^ 32} {events : List Event}
    {s : LocalFileStorageProvider} (h : Runs capacity hcap events s) (hops : Event.restart ∉ events) :
    ∃ W, History capacity hcap W s := by
  induction h with
  | opened hopen => exact ⟨_, .opened hopen⟩
  | exec _ hcall ih =>
    obtain ⟨W, hist⟩ := ih fun hmem => hops (List.mem_append_left _ hmem)
    exact ⟨_, hist.exec hcall⟩
  | restart => exact absurd (List.mem_append_right _ List.mem_cons_self) hops

/-- The process that has made the file crashes right after the commit of its first row. -/
theorem crash_hides_first_row : ∃ s s' u, Runs 16 (by decide) putOneRow s ∧
    (commit 1 1).run s = .ok .sentinel s' ∧ CrashRestart s' u ∧
    s'.get 2 (ascii "t") (.int64 7) = .ok (some Tuple.empty) ∧
    u.get 2 (ascii "t") (.int64 7) = s.get 2 (ascii "t") (.int64 7) := by
  obtain ⟨s₁, s, s', root, xs, ys, zs, -, hruns, -, -, hcommit, -, -, hfirst⟩ := exists_first_row
  obtain ⟨W, hist⟩ := hruns.exists_history (by simp [putOneRow])
  obtain ⟨⟨F, hmirrors⟩, hmade⟩ := hruns.mirrors
  have hmagic : s.pager.header.magic = Pager.magic := hmade.1 rfl
  have hvisible : s.visibleSeq < 1 := by
    rw [← hmirrors.visibleSeq]
    decide
  obtain ⟨u, hrestart, hreads, -⟩ := History.crash_hides_last_commit hist hmagic hvisible hcommit
    (fits_first_table hfirst.tables).2
  have hshown := hruns.get_commit hvisible hcommit hfirst.tidyTable
    (show (Value.int64 7).isNaN = false from rfl) 2
  exact ⟨s, s', u, hruns, hcommit, hrestart, hshown, hreads _ hfirst.tidyTable 2 _ rfl⟩

end OpenDB
