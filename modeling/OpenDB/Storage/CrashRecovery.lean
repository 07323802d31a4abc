import OpenDB.Storage.RootSync
import OpenDB.Storage.RoundTrip
import OpenDB.Storage.ShardedDdl

/-!
# The file of a provider that is not closed

A commit and every change of a table end with the file forced to the disk, and so does `backupTo`
before it copies the file. What is on the disk at such a point is opened here by another provider,
while the first one has not been closed.

Page 0 then is the one of the last extension of the file, made with an empty free pool, so the new
provider takes no page of a tree for free; free pages are lost. Page 1 holds the counters as they
were when it was written: `commit` writes it before it advances the visible sequence number, so after
a crash the readers are back before that commit (`History.crash_recovers`), while a backup has
everything (`History.backup_restores`).
-/

set_option autoImplicit false

namespace OpenDB

open OpenDB.Library

open LocalFileStorageProvider

namespace LocalFileStorageProvider

/-- `backupTo`: the answer, and the file under the target name if one has been made. -/
def backupTo : EStateM Fault LocalFileStorageProvider (DbError × Option Image) := do
  if !(← MonadState.get).opened then return (.notOpen, none)
  saveMetadata
  return (.sentinel, some (← MonadState.get).pager.file)

/-- A new provider opens the file as it stands, on the same disk. -/
def CrashRestart (s u : LocalFileStorageProvider) : Prop :=
  (openFile s.pager.file).run (new s.pager.capacity s.capacity_lt) = .ok .sentinel u

end LocalFileStorageProvider

/-! ## Page 0 -/

/-- A file with its metadata page has been extended once. -/
theorem flushedEmpty_blank {p : Pager} (howns : p.Owns []) (hcount : p.header.pageCount = 1)
    (hpool : p.allocator.pool = []) (hroom : p.file.length < p.capacity) :
    (blank p).pager.FlushedEmpty := by
  have hfirst := allocatePage_first howns hcount hpool hroom
  obtain ⟨howns₁, -⟩ := Pager.allocatePage_ok howns hfirst
  have hone := howns₁.range 1 (by simp)
  have hflush : p.extended.FlushedEmpty := ⟨p.grown, Pager.file_zero_extended p, rfl, hpool⟩
  exact (Pager.frame_withPage howns₁.backed hone.1 hone.2).flushedEmpty hflush

/-- The start of a process that has made its file. -/
structure Makes (s : LocalFileStorageProvider) : Prop where
  magic : s.pager.header.magic = Pager.magic
  flushed : s.pager.FlushedEmpty
  pool : s.pager.allocator.pool = []

theorem makes_of_openFile {capacity : Nat} {hcap : capacity < 2 ^ 32} {r : DbError}
    {s : LocalFileStorageProvider}
    (hopen : (openFile []).run (LocalFileStorageProvider.new capacity hcap) = .ok r s) : Makes s := by
  have howns := Pager.owns_new hcap (capacity_pos hopen)
  obtain ⟨rfl, hroom⟩ := openFile_reset (Pager.run_openFile_nil capacity hcap) rfl rfl howns hopen
  exact ⟨rfl, flushedEmpty_blank howns rfl rfl hroom, rfl⟩

/-- The provider that a process without the magic number leaves to the next one has made its file. -/
theorem Running.makes_lost {s s' : LocalFileStorageProvider} {live : List PageId}
    (h : Running s live) (hmagic : s.pager.header.magic ≠ Pager.magic) (hrestart : Restart s s') :
    Makes s' := by
  obtain ⟨-, hroom, rfl⟩ := (h.restart_iff_lost hmagic).1 hrestart
  have hlen := h.length_file_saved
  have hpos : 0 < s.saved.pager.writeHeader.file.length := by
    rw [hlen]
    exact h.length_file_pos
  have hdisk := h.owns.backed.onDisk
  have hreset := Pager.owns_reset s.pager.capacity_lt hpos (by rw [hlen]; exact hdisk)
  refine ⟨rfl, flushedEmpty_blank hreset rfl rfl ?_, rfl⟩
  exact lt_of_eq_of_lt ((Pager.length_write hpos).trans hlen) hroom

namespace Sound

variable {s s' u : LocalFileStorageProvider} {F : List TableTree}

/-- A provider that comes up with the metadata and the trees of another has its contents. -/
theorem sameContents_loaded (h : Sound s F) {p : Pager} (h' : Sound (LocalFileStorageProvider.loaded p s.metadata) F) :
    SameContents s (LocalFileStorageProvider.loaded p s.metadata) := by
  refine ⟨?_, ?_, ?_, ?_⟩
  · intro name
    rw [Bool.eq_iff_iff, h.isSome_find_table, h'.isSome_find_table]
  · intro txn table
    exact (h.reads_eq h' rfl txn table).1
  · intro txn table
    exact (h.reads_eq h' rfl txn table).2
  · intro table
    have hfind : (LocalFileStorageProvider.loaded p s.metadata).tables.find table =
        (s.tables.find table).map (TableInfo.persisted table) := s.metadata.find_persisted table
    rw [LocalFileStorageProvider.autoId]
    rw [hfind, Option.map_map]
    rfl

end Sound

/-- What a provider finds that opens the file of another one: the trees `F`, its contents, and no free
page. -/
structure Recovers (s u : LocalFileStorageProvider) (F : List TableTree) : Prop where
  sound : Sound u F
  contents : SameContents s u
  visibleSeq : u.visibleSeq = s.visibleSeq
  pool : u.pager.allocator.pool = []
  allocates : ∀ x p, Pager.allocatePage.run u.pager = .ok x p → x ∉ treePages F ∧ x ≠ 0 ∧ x ≠ 1

/-- The file of a provider that has just saved its metadata. -/
theorem Sound.recovers {s : LocalFileStorageProvider} {F : List TableTree} (h : Sound s F)
    (hsync : Synced s F) (hfits : FitsPage s) (hmagic : s.pager.header.magic = Pager.magic)
    (hflush : s.saved.pager.FlushedEmpty) :
    ∃ u, CrashRestart s.saved u ∧ Recovers s.saved u F := by
  have hsaved := h.saved
  obtain ⟨q, hpage, hheader, hpool⟩ := hflush
  have hlisted : q.listed = [] := List.sublist_nil.1 (hpool ▸ q.listed_sublist)
  have hmagic' : q.header.magic = Pager.magic := by
    rw [hheader]
    exact hmagic
  have hversion : q.header.version = Pager.version := by
    rw [hheader]
    exact hsaved.version
  have hcount : q.header.pageCount = s.saved.pager.header.pageCount := by
    rw [hheader]
  set p := q.reopened s.saved.pager.file s.pager.capacity s.capacity_lt with hp
  have hreads : ∀ id, p.readPage id = s.saved.pager.readPage id :=
    Pager.readPage_reopened hcount s.pager.capacity s.capacity_lt
  -- page 0 lists no free page, so none of the pages in use becomes free
  have howns : p.Owns (treePages F ++ [1]) := by
    apply hsaved.forest.owns.reopened hcount
    · rw [hlisted, List.nil_append]
      exact (List.nodup_append.1 hsaved.forest.owns.nodup).2.1
    · intro x hx
      rw [hlisted] at hx
      exact absurd hx List.not_mem_nil
    · exact hsaved.forest.owns.backed.onDisk
  have hopen := Pager.run_openFile_header s.capacity_lt hpage hmagic' hversion
  have hread := (hreads 1).trans (h.readPage_saved hfits.1)
  have hrun := run_openFile_saved hopen hread hfits.1 hfits.2
  have hsound := h.loaded hsync (hsaved.forest.of_pages (fun x _ => hreads x) howns) rfl
  refine ⟨_, hrun, hsound, hsaved.sameContents_loaded hsound, rfl, ?_, ?_⟩
  · have hsub := Pager.pool_reopened q s.saved.pager.file s.pager.capacity s.capacity_lt
    rw [hlisted] at hsub
    exact List.subperm_nil.1 hsub
  · intro x p' halloc
    obtain ⟨howns', -, -⟩ := Pager.allocatePage_ok howns halloc
    have hfresh := (List.nodup_cons.1 (List.nodup_append.1 howns'.nodup).2.1).1
    rw [List.mem_append, List.mem_singleton, not_or] at hfresh
    exact ⟨hfresh.1, (howns'.range x (by simp)).1, hfresh.2⟩

/-! ## Histories -/

/-- While this process holds the magic number, page 0 is the one of the last extension. -/
theorem History.flushedEmpty {capacity : Nat} {hcap : capacity < 2 ^ 32} {W : List UInt64}
    {s : LocalFileStorageProvider} (h : History capacity hcap W s)
    (hmagic : s.pager.header.magic = Pager.magic) : s.pager.FlushedEmpty := by
  induction h with
  | opened hopen => exact (makes_of_openFile hopen).flushed
  | exec hist hcall ih =>
    obtain ⟨F, hsound, -⟩ := hist.sound
    obtain ⟨F', hstep⟩ := hsound.exec_ok hcall
    obtain ⟨touched, hframe⟩ := hstep.frame
    exact hframe.flushedEmpty (ih (hframe.magic.symm.trans hmagic))
  | @restart s s' hist hfits hrestart ih =>
    obtain ⟨F, hsound, hsync⟩ := hist.sound
    by_cases hbefore : s.pager.header.magic = Pager.magic
    · -- a loaded header leaves the magic number at zero
      obtain ⟨-, -, rfl⟩ := hsound.restart_kept (hsync rfl) hfits.2 hbefore hrestart
      exact absurd hmagic (show (0 : UInt32) ≠ Pager.magic by decide)
    · exact (hsound.running.makes_lost hbefore hrestart).flushed

/-- The provider with another sequence number for its readers. -/
def LocalFileStorageProvider.seenAt (s : LocalFileStorageProvider) (seq : UInt64) :
    LocalFileStorageProvider :=
  { s with visibleSeq := seq }

/-- A step that ends with the metadata saved and the file forced to the disk. Only the sequence number
of the readers may have moved since. -/
structure SyncedStep (s s₁ s' : LocalFileStorageProvider) (F' : List TableTree) : Prop where
  sound : Sound s₁ F'
  synced : Synced s₁ F'
  fits : s₁.metadata.Fits
  state : s'.seenAt s.visibleSeq = s₁.saved

namespace SyncedStep

variable {s s₁ s' : LocalFileStorageProvider} {F : List TableTree}

theorem tables_eq (h : SyncedStep s s₁ s' F) : s'.tables = s₁.tables := by
  have htables : (s'.seenAt s.visibleSeq).tables = s₁.saved.tables := by
    rw [h.state]
  exact htables

theorem visibleSeq_eq (h : SyncedStep s s₁ s' F) : s.visibleSeq = s₁.visibleSeq := by
  have hvisible : (s'.seenAt s.visibleSeq).visibleSeq = s₁.saved.visibleSeq := by
    rw [h.state]
  exact hvisible

theorem metadata_short (h : SyncedStep s s₁ s' F) (hshort : s'.metadata.Short) : s₁.metadata.Short := by
  show ∀ t ∈ s₁.tables.entries, _
  rw [← h.tables_eq]
  exact hshort

theorem pager_eq (h : SyncedStep s s₁ s' F) : s'.pager = s₁.saved.pager := by
  have hpager : (s'.seenAt s.visibleSeq).pager = s₁.saved.pager := by
    rw [h.state]
  exact hpager

theorem sound_after (h : SyncedStep s s₁ s' F) : Sound s' F := by
  have hsaved := h.sound.saved
  rw [← h.state] at hsaved
  exact ⟨hsaved.opened, hsaved.metaPage, hsaved.tables, hsaved.btrees, hsaved.forest, hsaved.version⟩

/-- The process that has made the file leaves everything to the next one. -/
theorem recovers (h : SyncedStep s s₁ s' F) (hshort : s'.metadata.Short)
    (hmagic : s'.pager.header.magic = Pager.magic) (hflush : s'.pager.FlushedEmpty) :
    ∃ u, CrashRestart s' u ∧ Recovers (s'.seenAt s.visibleSeq) u F := by
  have hpager := h.pager_eq
  rw [hpager] at hflush
  obtain ⟨u, hrestart, hrecovers⟩ := h.sound.recovers h.synced ⟨h.fits, h.metadata_short hshort⟩
    ((congrArg (Pager.header · |>.magic) hpager).symm.trans hmagic) hflush
  rw [← h.state] at hrestart hrecovers
  exact ⟨u, hrestart, hrecovers⟩

end SyncedStep

namespace Op

/-- The operation ends with the file forced to the disk. -/
def syncs : Op → Bool
  | .put .. | .remove .. | .prepare .. | .abort .. => false
  | _ => true

end Op

namespace Sound

variable {s s' : LocalFileStorageProvider} {F : List TableTree}

theorem commit_syncs (h : Sound s F) {txn seq : UInt64} {r : DbError}
    (hrun : (commit txn seq).run s = .ok r s') : ∃ s₁ F', SyncedStep s s₁ s' F' := by
  obtain ⟨s₁, F', hrow, hsync, hfits, -, -, rfl⟩ := h.commit_ok hrun
  refine ⟨s₁, F', hrow.sound, hsync, hfits, ?_⟩
  rw [← hrow.visibleSeq]
  rfl

/-- The registry has the roots of the trees when it has those of the tree objects. -/
theorem synced_of_recorded (h : Sound s F) (hrecorded : RootsRecorded s) : Synced s F := by
  intro f hf
  obtain ⟨A, B, rfl⟩ := List.append_of_mem hf
  exact hrecorded.find_table h.find_tree

/-- And the other way round. -/
theorem rootsRecorded (h : Sound s F) (hsync : Synced s F) : RootsRecorded s := by
  intro table
  by_cases hmem : table ∈ F.map TableTree.name
  · obtain ⟨f, hf, rfl⟩ := List.mem_map.1 hmem
    obtain ⟨info, hfind, hroot⟩ := hsync f hf
    obtain ⟨A, B, rfl⟩ := List.append_of_mem hf
    rw [h.find_tree, hfind, Option.map_some, hroot]
  · rw [h.find_eq_none_iff.2 hmem, h.find_table_eq_none_iff.2 hmem]
    rfl

/-- Whether the roots are recorded depends on the tree objects alone. -/
theorem synced_congr {F' : List TableTree} (h : Sound s F) (h' : Sound s F') (hsync : Synced s F) :
    Synced s F' := by
  intro f' hf'
  have hmem : (f'.name, some f'.root) ∈ F.map fun f => (f.name, some f.root) := by
    rw [← h.btrees, h'.btrees]
    exact List.mem_map_of_mem hf'
  obtain ⟨f, hf, heq⟩ := List.mem_map.1 hmem
  obtain ⟨info, hfind, hroot⟩ := hsync f hf
  rw [Prod.mk.injEq, Option.some.injEq] at heq
  rw [← heq.1, ← heq.2]
  exact ⟨info, hfind, hroot⟩

/-- A change of the registry that has been saved, after a step that records the roots. -/
theorem syncedStep_of_saved {op : Op} {s₁ : LocalFileStorageProvider} {F' : List TableTree}
    (hsaved : SavedStep s s₁ s' F') (hstep : ∃ F'', OpStep op s s' F F'')
    (hstages : op.stages = false) (hsync : Synced s F) : SyncedStep s s₁ s' F' := by
  obtain ⟨F'', hstep⟩ := hstep
  obtain ⟨hsound, hfits, rfl, hvisible, -⟩ := hsaved
  have hsynced := hstep.sound.synced_congr hsound.saved (hstep.synced hstages (Or.inr hsync))
  refine ⟨hsound, hsynced.of_tables rfl, hfits, ?_⟩
  rw [← hvisible]
  rfl

/-- A call that changes a table and succeeds does change the registry. -/
theorem ne_of_unchanged_iff (h : s'.describeTable = s.describeTable ↔
    DbError.sentinel.isSentinel = false) : s' ≠ s := by
  rintro rfl
  exact absurd (h.1 rfl) (by decide)

/-- An operation that ends with the file forced to the disk, and has succeeded. -/
theorem exec_syncs (h : Sound s F) {op : Op} (hop : op.syncs = true)
    (hcall : op.exec.run s = .ok .sentinel s') (hbefore : op.commits = true ∨ Synced s F) :
    ∃ s₁ F', SyncedStep s s₁ s' F' := by
  cases op with
  | createTable schema =>
    have hsync := hbefore.resolve_left Bool.false_ne_true
    rcases h.createTable_ok hcall with heq | ⟨s₁, root, -, hsaved, -⟩
    · exact absurd heq (ne_of_unchanged_iff (unchanged_createTable_iff hcall))
    · exact ⟨s₁, _, syncedStep_of_saved hsaved (h.createTable_step hcall) rfl hsync⟩
  | dropTable name =>
    have hsync := hbefore.resolve_left Bool.false_ne_true
    rcases h.dropTable_ok hcall with ⟨heq, -⟩ | ⟨s₁, A, f, B, -, -, hsaved, -⟩
    · exact absurd heq (ne_of_unchanged_iff (unchanged_dropTable_iff hcall))
    · exact ⟨s₁, _, syncedStep_of_saved hsaved (h.dropTable_step hcall) rfl hsync⟩
  | alterTable name spec =>
    have hsync := hbefore.resolve_left Bool.false_ne_true
    rcases h.alterTable_ok hcall with heq | ⟨s₁, F', hsaved, -⟩
    · exact absurd heq (ne_of_unchanged_iff (unchanged_alterTable_iff hcall))
    · exact ⟨s₁, _, syncedStep_of_saved hsaved (h.alterTable_step hcall) rfl hsync⟩
  | commit txn seq => exact h.commit_syncs hcall
  | commitNext txn =>
    have hsound : Sound { s with internalSeq := s.internalSeq + 1 } F :=
      ⟨h.opened, h.metaPage, h.tables, h.btrees, h.forest, h.version⟩
    obtain ⟨s₁, F', hstep⟩ := hsound.commit_syncs
      (show (commit txn (s.internalSeq + 1)).run _ = .ok .sentinel s' from hcall)
    exact ⟨s₁, F', hstep.sound, hstep.synced, hstep.fits, hstep.state⟩
  | put | remove | prepare | abort => cases hop

end Sound

/-! ## Crashes -/

/-- A crash right after a commit or a change of a table has returned, in the process that has made the
file: the next provider finds the tables, the rows and the counters of this one as readers saw them
before the operation moved the visible sequence number, none of its pages in use is free, and it goes
on with the old number. -/
theorem History.crash_recovers {capacity : Nat} {hcap : capacity < 2 ^ 32} {W : List UInt64}
    {s s' : LocalFileStorageProvider} (hist : History capacity hcap W s)
    (hmagic : s.pager.header.magic = Pager.magic) {op : Op} (hop : op.syncs = true)
    (hcall : op.exec.run s = .ok .sentinel s') (hclean : op.commits = true ∨ RootsRecorded s)
    (hshort : s'.metadata.Short) :
    ∃ u F, CrashRestart s' u ∧ Sound s' F ∧ Recovers (s'.seenAt s.visibleSeq) u F := by
  obtain ⟨F, hsound, -⟩ := hist.sound
  obtain ⟨s₁, F', hstep⟩ := hsound.exec_syncs hop hcall (hclean.imp_right hsound.synced_of_recorded)
  -- page 0 is that of the last extension, before the operation and after it
  obtain ⟨F₁, hop₁⟩ := hsound.exec_ok hcall
  obtain ⟨touched, hframe⟩ := hop₁.frame
  obtain ⟨u, hrestart, hrecovers⟩ := hstep.recovers hshort (hframe.magic.trans hmagic)
    (hframe.flushedEmpty (hist.flushedEmpty hmagic))
  exact ⟨u, F', hrestart, hstep.sound_after, hrecovers⟩

/-- The process that makes a file crashes right after its second table has joined, and a row of the
first has been committed. -/
theorem crash_after_second_table : ∃ s₃ s u F, History 16 (by decide) [] s₃ ∧
    (createTable (emptySchema (ascii "u"))).run s₃ = .ok .sentinel s ∧
    s.scan 2 (ascii "t") = .ok [Tuple.empty] ∧ CrashRestart s u ∧ Sound s F ∧
    Recovers (s.seenAt s₃.visibleSeq) u F := by
  obtain ⟨s₀, s₁, s₂, s₃, s, root, root', h⟩ := exists_twoTables
  obtain ⟨hist, -, hmagic, -, hfits⟩ := h.history
  obtain ⟨F₃, hsound, hsync⟩ := hist.sound
  have hcall : (Op.createTable (emptySchema (ascii "u"))).exec.run s₃ = .ok .sentinel s := h.joined
  obtain ⟨u, F, hcrash⟩ := History.crash_recovers hist hmagic rfl hcall
    (Or.inr (hsound.rootsRecorded (hsync rfl))) hfits.2
  exact ⟨s₃, s, u, F, hist, h.joined, h.scan, hcrash⟩

/-! ## Backups -/

theorem SameContents.trans {s t u : LocalFileStorageProvider} (h : SameContents s t)
    (h' : SameContents t u) : SameContents s u := by
  refine ⟨?_, ?_, ?_, ?_⟩
  · intro name
    rw [h'.tables, h.tables]
  · intro txn table key
    rw [h'.get, h.get]
  · intro txn table
    rw [h'.scan, h.scan]
  · intro table
    rw [h'.autoId, h.autoId]

namespace Sound

variable {s : LocalFileStorageProvider} {F : List TableTree}

/-- Saving the metadata changes nothing that a caller can see. -/
theorem sameContents_saved (h : Sound s F) : SameContents s s.saved := by
  refine ⟨fun _ => rfl, ?_, ?_, fun _ => rfl⟩
  · intro txn table
    exact (h.reads_eq h.saved rfl txn table).1
  · intro txn table
    exact (h.reads_eq h.saved rfl txn table).2

theorem run_backupTo (h : Sound s F) (hfits : s.metadata.Fits) :
    backupTo.run s = .ok (.sentinel, some s.saved.pager.file) s.saved := by
  have hid : s.metaPageId ≠ 0 ∧ s.metaPageId.toNat < s.pager.header.pageCount.toNat := by
    rw [h.metaPage]
    exact h.page_one
  rcases saveMetadata_cases hid.1 hid.2 with ⟨-, hsave⟩ | ⟨hbig, -⟩
  · rw [backupTo, EStateM.run_bind, EStateM.run_get]
    dsimp only
    rw [if_neg (by simp [h.opened]), EStateM.run_bind, hsave]
    rfl
  · exact absurd hfits hbig

end Sound

/-- A backup taken at any time in the process that has made the file, while the recorded roots are
those of the trees: the provider goes on unchanged, and another provider that opens the copy has the
same tables, rows, counters and sequence number, and no page in use is free. -/
theorem History.backup_restores {capacity : Nat} {hcap : capacity < 2 ^ 32} {W : List UInt64}
    {s : LocalFileStorageProvider} (hist : History capacity hcap W s)
    (hmagic : s.pager.header.magic = Pager.magic) (hrecorded : RootsRecorded s)
    (hfits : FitsPage s) :
    ∃ image s' u F, backupTo.run s = .ok (.sentinel, some image) s' ∧ Sound s' F ∧
      SameContents s s' ∧
      (openFile image).run (new s.pager.capacity s.capacity_lt) = .ok .sentinel u ∧
      Recovers s u F := by
  obtain ⟨F, hsound, -⟩ := hist.sound
  have hflush := hsound.frame_saved.flushedEmpty (hist.flushedEmpty hmagic)
  obtain ⟨u, hrestart, hrecovers⟩ :=
    hsound.recovers (hsound.synced_of_recorded hrecorded) hfits hmagic hflush
  have hsame := hsound.sameContents_saved
  exact ⟨_, _, u, F, hsound.run_backupTo hfits.1, hsound.saved, hsame, hrestart,
    hrecovers.sound, hsame.trans hrecovers.contents, hrecovers.visibleSeq, hrecovers.pool,
    hrecovers.allocates⟩

/-- A backup of a file with a committed row and two tables. -/
theorem backup_of_two_tables : ∃ s image s' u F, History 16 (by decide) [] s ∧
    s.tables.entries.map Prod.fst = [ascii "t", ascii "u"] ∧
    s.scan 2 (ascii "t") = .ok [Tuple.empty] ∧ backupTo.run s = .ok (.sentinel, some image) s' ∧
    Sound s' F ∧ SameContents s s' ∧
    (openFile image).run (new s.pager.capacity s.capacity_lt) = .ok .sentinel u ∧
    Recovers s u F := by
  obtain ⟨s₀, s₁, s₂, s₃, s, root, root', h⟩ := exists_twoTables
  obtain ⟨-, hist, -, hmagic, hfits⟩ := h.history
  obtain ⟨F₄, hsound, hsync⟩ := hist.sound
  obtain ⟨image, s', u, F, hbackup⟩ :=
    History.backup_restores hist hmagic (hsound.rootsRecorded (hsync rfl)) hfits
  refine ⟨s, image, s', u, F, hist, ?_, h.scan, hbackup⟩
  rw [h.tables]
  rfl

end OpenDB
