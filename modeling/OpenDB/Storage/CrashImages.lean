import OpenDB.Storage.ArchiveModel
import OpenDB.Storage.ChronicleReads
import OpenDB.Storage.FreeRunSnapshot
import OpenDB.Storage.PageOwners

/-!
# The image of a file at a crash

Page 0 lists the free pages as they were when it was last written: by the last growth of the file, with
no page free, or by the process that has closed the file before this one opened it. In the second case
a page of the list may have gone to a table since, without any writing to page 0. A process that opens
the file after a crash then takes the page for free while the table uses it.

`crash_owners_unique_iff` says when this does not happen: the process that crashed has written page 0,
or no table of it has a page that was free when it opened the file.
-/

set_option autoImplicit false

namespace OpenDB

open OpenDB.Library

open LocalFileStorageProvider

/-! ## Page 0 -/

namespace Pager

/-- Page 0 is the header page that `q` has written, and the file has not grown since. -/
structure HeadedBy (p q : Pager) : Prop where
  page : p.file[0]? = some (RawPage.ofBytes q.headerBytes)
  version : q.header.version = version
  pageCount : q.header.pageCount = p.header.pageCount

/-- Page 0 has the magic number. -/
def Marked (p : Pager) : Prop := ∃ page, p.file[0]? = some page ∧ page.field 0 4 = magic.toNat

variable {p p' q : Pager}

theorem FlushedEmpty.headedBy (h : p.FlushedEmpty) (hversion : p.header.version = version) :
    ∃ q, p.HeadedBy q ∧ q.header.magic = p.header.magic := by
  obtain ⟨q, hpage, hheader, -⟩ := h
  refine ⟨q, ⟨hpage, ?_, ?_⟩, ?_⟩
  · rw [hheader]
    exact hversion
  · rw [hheader]
  · rw [hheader]

theorem HeadedBy.marked_iff (h : p.HeadedBy q) : p.Marked ↔ q.header.magic = magic := by
  rw [← UInt32.toNat_inj, ← field_magic h.version]
  constructor
  · rintro ⟨page, hpage, hfield⟩
    rw [h.page] at hpage
    cases hpage
    exact hfield
  · exact fun hfield => ⟨_, h.page, hfield⟩

/-- The magic number on page 0 is that in memory once this process has written the page. -/
theorem FlushedEmpty.marked_iff (h : p.FlushedEmpty) (hversion : p.header.version = version) :
    p.Marked ↔ p.header.magic = magic := by
  obtain ⟨q, hheaded, hmagic⟩ := h.headedBy hversion
  rw [hheaded.marked_iff, hmagic]

theorem marked_congr (h : p'.file[0]? = p.file[0]?) : p'.Marked ↔ p.Marked := by
  rw [Marked, Marked, h]

/-- The pages in use at a crash are in use in the next process if none of them was free when the header
page was written. -/
theorem Owns.crashed {live live₀ : List PageId} {p₀ : Pager} (hp : p.Owns live)
    (hcount : q.header.pageCount = p.header.pageCount) {capacity : Nat} (h : capacity < 2 ^ 32)
    (hdisk : p.file.length ≤ capacity) (hp₀ : p₀.Owns live₀)
    (hcount₀ : q.header.pageCount = p₀.header.pageCount)
    (hpool : (q.reopened p.file capacity h).allocator = p₀.allocator)
    (hapart : ∀ x ∈ live, x ∉ p₀.allocator.pool) : (q.reopened p.file capacity h).Owns live := by
  have hheader : (q.reopened p.file capacity h).header.pageCount = p.header.pageCount := hcount
  have hrange : ∀ x ∈ p₀.allocator.pool ++ live, x ≠ 0 ∧ x.toNat < p.header.pageCount.toNat := by
    intro x hx
    rcases List.mem_append.1 hx with hx | hx
    · rw [← hcount, hcount₀]
      exact hp₀.range x (List.mem_append_left _ hx)
    · exact hp.range x (List.mem_append_right _ hx)
  refine ⟨⟨?_, ?_, hdisk⟩, ?_, ?_, ?_⟩
  · rw [hheader]
    exact hp.backed.pos
  · rw [hheader]
    exact hp.backed.onFile
  · rw [hpool, List.nodup_append]
    refine ⟨(List.nodup_append.1 hp₀.nodup).1, (List.nodup_append.1 hp.nodup).2.1, ?_⟩
    rintro x hx y hy rfl
    exact hapart x hy hx
  · rw [hpool, hheader]
    exact hrange
  · rw [hpool]
    intro x hx
    have hbits := (BuddyPageAllocator.pool_loadFreeRuns
      (BuddyPageAllocator.new.ensureBitmapSize q.header.pageCount.toNat) q.persistedRuns
      q.header.pageCount.toNat).2
    have hlt := (hrange x hx).2
    rw [← hpool]
    show x.toNat < (BuddyPageAllocator.loadFreeRuns _ _ _).allocated.length
    rw [hcount] at hbits ⊢
    omega

end Pager

/-! ## Processes -/

/-- The start of a process that has found its file: page 0 is as `q` has left it. -/
structure Finds (s : LocalFileStorageProvider) (q : Pager) : Prop where
  headed : s.pager.HeadedBy q
  marked : q.header.magic = Pager.magic
  magic : s.pager.header.magic ≠ Pager.magic
  allocator : ∀ file capacity h, (q.reopened file capacity h).allocator = s.pager.allocator

section

variable {capacity : Nat} {hcap : capacity < 2 ^ 32} {events : List Event}
  {s₀ s s' u : LocalFileStorageProvider}

/-- How a process starts. -/
theorem Runs.makes_or_finds (h : Runs capacity hcap events s)
    (hstart : ∀ es op, events ≠ es ++ [.op op]) : Makes s ∨ ∃ q, Finds s q := by
  cases h with
  | opened hopen => exact Or.inl (makes_of_openFile hopen)
  | exec => exact absurd rfl (hstart _ _)
  | @restart _ r _ hrun hfits hrecorded hrestart =>
    obtain ⟨⟨F, hmirrors⟩, -⟩ := hrun.mirrors
    have hrunning := hmirrors.sound.running
    by_cases hmagic : r.pager.header.magic = Pager.magic
    · obtain ⟨-, rfl⟩ := (hrunning.restart_iff_kept hfits.2 hmagic).1 hrestart
      have hpage := Pager.file_zero_writeHeader hrunning.saved.length_file_pos
      exact Or.inr ⟨r.saved.pager, ⟨hpage, hrunning.saved.version, rfl⟩, hmagic,
        show (0 : UInt32) ≠ Pager.magic by decide, fun _ _ _ => rfl⟩
    · exact Or.inl (hrunning.makes_lost hmagic hrestart)

end

namespace Op

/-- A call that returns, and the state it leaves. -/
def returned (s : LocalFileStorageProvider) (op : Op) : Option LocalFileStorageProvider :=
  match op.exec.run s with
  | .ok _ s' => some s'
  | .error .. => none

theorem returned_eq_some {s s' : LocalFileStorageProvider} {op : Op} :
    op.returned s = some s' ↔ ∃ r, op.exec.run s = .ok r s' := by
  rw [returned]
  cases op.exec.run s with
  | ok r s₁ => simp
  | error e s₁ => simp

theorem run_call {s₀ s s' : LocalFileStorageProvider} {trace : List (LocalFileStorageProvider × Op)}
    (h : Run Op.returned s₀ trace s) (op : Op) {r : DbError} (hcall : op.exec.run s = .ok r s') :
    Run Op.returned s₀ (trace ++ [(s, op)]) s' :=
  h.snoc (returned_eq_some.2 ⟨r, hcall⟩)

/-- The operation may write a version without recording the root. -/
def removes : Op → Bool
  | .remove .. => true
  | _ => false

end Op

/-- What is known of a process that has not removed a row, from its start on. -/
structure Since (s₀ s : LocalFileStorageProvider) : Prop where
  sound : ∃ F, Sound s F
  frame : ∃ touched, s₀.pager.Frame s.pager touched
  recorded : RootsRecorded s

/-- What one call keeps. -/
theorem Since.exec {s₀ s s' : LocalFileStorageProvider} {op : Op} {r : DbError} (h : Since s₀ s)
    (hop : op.removes = false) (hcall : op.exec.run s = .ok r s') : Since s₀ s' := by
  obtain ⟨⟨F, hsound⟩, ⟨touched, hframe⟩, hrecorded⟩ := h
  obtain ⟨F', hstep⟩ := hsound.exec_ok hcall
  obtain ⟨touched', hframe'⟩ := hstep.frame
  refine ⟨⟨F', hstep.sound⟩, ⟨_, hframe.trans hframe'⟩, ?_⟩
  have hquiet : op.stages = false → RootsRecorded s' := fun hstages =>
    hstep.sound.rootsRecorded
      (hstep.synced hstages (Or.inr (hsound.synced_of_recorded hrecorded)))
  cases op with
  | remove => cases hop
  | put txn table key row =>
    exact (preserves_rootsRecorded_put txn table key row).of_ok hrecorded hcall
  | createTable | dropTable | alterTable | prepare | commit | commitNext | abort => exact hquiet rfl

/-- What the calls of a process keep. -/
theorem Since.run {s₀ s : LocalFileStorageProvider} {trace : List (LocalFileStorageProvider × Op)}
    (h : Since s₀ s₀) (hrun : Run Op.returned s₀ trace s) (hops : ∀ p ∈ trace, p.2.removes = false) :
    Since s₀ s := by
  refine hrun.invariant_of_forall (B := fun _ op => op.removes = true) h ?_ ?_
  · intro s op s' hs hnext hno
    obtain ⟨r, hcall⟩ := Op.returned_eq_some.1 hnext
    exact hs.exec (Bool.eq_false_of_not_eq_true hno) hcall
  · intro p hp
    rw [hops p hp]
    exact Bool.false_ne_true

section

variable {capacity : Nat} {hcap : capacity < 2 ^ 32} {events : List Event}
  {s₀ s s' u : LocalFileStorageProvider}

/-- The start of a process. -/
theorem Runs.since (h : Runs capacity hcap events s) (hstart : ∀ es op, events ≠ es ++ [.op op]) :
    Since s s := by
  obtain ⟨⟨F, hmirrors⟩, -⟩ := h.mirrors
  refine ⟨⟨F, hmirrors.sound⟩, ⟨[], Pager.Frame.refl _⟩, ?_⟩
  cases h with
  | opened hopen =>
    obtain ⟨-, rfl⟩ := sound_new hopen
    exact fun _ => rfl
  | exec => exact absurd rfl (hstart _ _)
  | restart hrun hfits hrecorded hrestart =>
    obtain ⟨r, s₁, -, hopen⟩ := hrestart
    exact rootsRecorded_openFile hopen

end

/-! ## The next process -/

section

variable {s s₁ s' u : LocalFileStorageProvider} {F : List TableTree} {q : Pager}

theorem LocalFileStorageProvider.CrashRestart.unique {u' : LocalFileStorageProvider}
    (h : CrashRestart s u) (h' : CrashRestart s u') : u = u' := by
  rw [CrashRestart, h] at h'
  cases h'
  rfl

namespace SyncedStep

/-- What the next process finds when page 0 has the magic number. -/
theorem crashRestart_iff (h : SyncedStep s s₁ s' F) (hshort : s'.metadata.Short)
    (hheaded : s'.pager.HeadedBy q) (hmarked : q.header.magic = Pager.magic) :
    CrashRestart s' u ↔
      u = loaded (q.reopened s'.pager.file s'.pager.capacity s'.capacity_lt) s₁.metadata := by
  have hopen := Pager.run_openFile_header s'.capacity_lt hheaded.page hmarked hheaded.version
  have hread := (Pager.readPage_reopened hheaded.pageCount s'.pager.capacity s'.capacity_lt 1).trans
    ((congrArg (Pager.readPage · 1) h.pager_eq).trans (h.sound.readPage_saved h.fits))
  have hrun := run_openFile_saved hopen hread h.fits (h.metadata_short hshort)
  rw [CrashRestart, hrun]
  constructor
  · intro heq
    cases heq
    rfl
  · rintro rfl
    rfl

/-- The same trees, over the pager of the process that has crashed. -/
theorem sound_loaded (h : SyncedStep s s₁ s' F) : Sound (loaded s'.pager s₁.metadata) F := by
  rw [h.pager_eq]
  exact h.sound.loaded h.synced h.sound.saved.forest h.sound.saved.version

/-- Without the magic number the next process finds nothing. -/
theorem sound_crashed_nil (h : SyncedStep s s₁ s' F) (hheaded : s'.pager.HeadedBy q)
    (hunmarked : q.header.magic ≠ Pager.magic) (hu : CrashRestart s' u) : Sound u [] := by
  have howns := h.sound_after.forest.owns
  have hfield : (RawPage.ofBytes q.headerBytes).field 0 4 ≠ Pager.magic.toNat := by
    rw [Pager.field_magic hheaded.version]
    exact fun heq => hunmarked (UInt32.toNat_inj.1 heq)
  have hopen := Pager.run_openFile_foreign s'.capacity_lt hheaded.page hfield
  have hpos : 0 < s'.pager.file.length := by
    have h₁ := howns.backed.pos
    have h₂ := howns.backed.onFile
    omega
  have hreset := Pager.owns_reset s'.capacity_lt hpos howns.backed.onDisk
  obtain ⟨rfl, hroom⟩ := openFile_reset hopen rfl rfl hreset hu
  exact sound_blank hreset rfl rfl hroom rfl

end SyncedStep

end

/-! ## Owners after a crash -/

theorem Reaches.congr {p p' : Pager} (h : ∀ id, p'.readPage id = p.readPage id) {root x : PageId}
    (hreach : Reaches p root x) : Reaches p' root x := by
  induction hreach with
  | root => exact .root
  | child _ hload htype he ih =>
    exact .child ih ((BTree.loadNode_congr (h _)).trans hload) htype he

section

variable {s u : LocalFileStorageProvider} {F : List TableTree} {x : PageId} {name : Bytes}

theorem ownedBy_free_iff : OwnedBy s x .free ↔ x ∈ s.pager.allocator.pool := by
  rw [OwnedBy, BuddyPageAllocator.runsPages_saveFreeRuns]

/-- The pages of a table are the same for providers with the same roots and the same pages. -/
theorem ownedBy_table_congr (hroots : u.btrees = s.btrees)
    (hpages : ∀ id, u.pager.readPage id = s.pager.readPage id) :
    OwnedBy u x (.table name) ↔ OwnedBy s x (.table name) := by
  rw [OwnedBy, OwnedBy, hroots]
  refine exists_congr fun root => and_congr_right fun _ => ⟨Reaches.congr fun id => ?_, Reaches.congr hpages⟩
  exact (hpages id).symm

/-- No page has two owners, now and after any calls. -/
def OwnersUnique (u : LocalFileStorageProvider) : Prop :=
  ∀ trace v, Run Op.returned u trace v → ∀ x o o', OwnedBy v x o → OwnedBy v x o' → o = o'

theorem Sound.ownersUnique (h : Sound u F) : OwnersUnique u := by
  intro trace v hrun x o o' ho ho'
  obtain ⟨F', hsound⟩ := hrun.invariant (P := fun v => ∃ F, Sound v F) ⟨F, h⟩ (by
    rintro v op v' ⟨F, hv⟩ hnext
    obtain ⟨r, hcall⟩ := Op.returned_eq_some.1 hnext
    obtain ⟨F', hstep⟩ := hv.exec_ok hcall
    exact ⟨F', hstep.sound⟩)
  exact hsound.owner_unique ho ho'

end

section

variable {capacity : Nat} {hcap : capacity < 2 ^ 32} {events : List Event}
  {s₀ s s₁ s' u : LocalFileStorageProvider} {F F₀ : List TableTree} {q : Pager}

/-- A process that has found its file and has not written page 0 crashes: the next process has the free
pages that this one had when it opened the file, and its tables. -/
theorem SyncedStep.owned_found (h : SyncedStep s s₁ s' F) (hfound : Finds s₀ q)
    (hheaded : s'.pager.HeadedBy q) (hshort : s'.metadata.Short) (hu : CrashRestart s' u)
    (x : PageId) (name : Bytes) :
    (OwnedBy u x .free ↔ OwnedBy s₀ x .free) ∧
      (OwnedBy u x (.table name) ↔ OwnedBy s' x (.table name)) := by
  have hpages := Pager.readPage_reopened hheaded.pageCount s'.pager.capacity s'.capacity_lt
  obtain rfl := (h.crashRestart_iff hshort hheaded hfound.marked).1 hu
  constructor
  · rw [ownedBy_free_iff, ownedBy_free_iff]
    exact iff_of_eq (congrArg (x ∈ BuddyPageAllocator.pool ·)
      (hfound.allocator s'.pager.file s'.pager.capacity s'.capacity_lt))
  · have hsame : OwnedBy (loaded (q.reopened s'.pager.file s'.pager.capacity s'.capacity_lt)
        s₁.metadata) x (.table name) ↔ OwnedBy (loaded s'.pager s₁.metadata) x (.table name) :=
      ownedBy_table_congr rfl hpages
    rw [hsame, h.sound_loaded.table_iff, ← h.sound_after.table_iff]

/-- It takes none of them for free while a table uses it exactly if no table has one. -/
theorem SyncedStep.ownersUnique_found_iff (h : SyncedStep s s₁ s' F) (hfound : Finds s₀ q)
    (h₀ : Sound s₀ F₀) (hheaded : s'.pager.HeadedBy q) (hshort : s'.metadata.Short)
    (hu : CrashRestart s' u) :
    OwnersUnique u ↔ ∀ x name, OwnedBy s₀ x .free → ¬ OwnedBy s' x (.table name) := by
  constructor
  · intro hunique x name hfree htable
    obtain ⟨hfree', htable'⟩ := h.owned_found hfound hheaded hshort hu x name
    cases hunique [] _ .nil x _ _ (hfree'.2 hfree) (htable'.2 htable)
  · intro hapart
    obtain rfl := (h.crashRestart_iff hshort hheaded hfound.marked).1 hu
    have hafter := h.sound_after
    have howns := hafter.forest.owns.crashed hheaded.pageCount s'.capacity_lt
      hafter.forest.owns.backed.onDisk h₀.forest.owns hfound.headed.pageCount
      (hfound.allocator _ _ _) (by
        intro x hx hfree
        rcases List.mem_append.1 hx with hx | hx
        · obtain ⟨pages, hmem, hxp⟩ := List.mem_flatten.1 hx
          obtain ⟨f, hf, rfl⟩ := List.mem_map.1 hmem
          exact hapart x f.name (ownedBy_free_iff.2 hfree) (hafter.table_iff.2 ⟨f, hf, rfl, hxp⟩)
        · -- the metadata page was in use at the start
          exact (List.nodup_append.1 h₀.forest.owns.nodup).2.2 x hfree x
            (List.mem_append_right _ hx) rfl)
    have hforest := hafter.forest.of_pages
      (fun x _ => Pager.readPage_reopened hheaded.pageCount _ _ x) howns
    exact (h.sound.loaded h.synced hforest rfl).ownersUnique

/-- Page 0 is as the process has found it, or has lost the magic number. -/
theorem Finds.headed_after (h : Finds s₀ q) {touched : List PageId}
    (hframe : s₀.pager.Frame s'.pager touched) (hversion : s'.pager.header.version = Pager.version) :
    (s'.pager.file[0]? = s₀.pager.file[0]? ∧ s'.pager.HeadedBy q) ∨
      (s'.pager.file[0]? ≠ s₀.pager.file[0]? ∧
        ∃ q', s'.pager.HeadedBy q' ∧ q'.header.magic ≠ Pager.magic) := by
  rcases hframe.page0 with ⟨hfile, hheader⟩ | hflush
  · refine Or.inl ⟨hfile, hfile.trans h.headed.page, h.headed.version, ?_⟩
    exact h.headed.pageCount.trans (by rw [hheader])
  · obtain ⟨q', hheaded, hmagic⟩ := hflush.headedBy hversion
    have hunmarked : q'.header.magic ≠ Pager.magic := by
      rw [hmagic, hframe.magic]
      exact h.magic
    refine Or.inr ⟨fun hfile => hunmarked ?_, q', hheaded, hunmarked⟩
    have hmarked := h.headed.marked_iff.2 h.marked
    rwa [← Pager.marked_congr hfile, hheaded.marked_iff] at hmarked

/-- A process that has not removed a row crashes right after a commit or a change of a table: in the
next process no page ever has two owners exactly if the crashed one has written page 0, or none of its
tables has a page that was free when it opened the file. -/
theorem crash_owners_unique_iff (h : Runs capacity hcap events s₀)
    (hstart : ∀ es op, events ≠ es ++ [.op op]) {trace : List (LocalFileStorageProvider × Op)}
    (hrun : Run Op.returned s₀ trace s) (hops : ∀ p ∈ trace, p.2.removes = false) {op : Op}
    (hop : op.syncs = true) (hcall : op.exec.run s = .ok .sentinel s') (hshort : s'.metadata.Short)
    (hu : CrashRestart s' u) :
    (∀ trace v, Run Op.returned u trace v → ∀ x o o', OwnedBy v x o → OwnedBy v x o' → o = o') ↔
      s'.pager.file[0]? ≠ s₀.pager.file[0]? ∨
        ∀ x name, OwnedBy s₀ x .free → ¬ OwnedBy s' x (.table name) := by
  change OwnersUnique u ↔ _
  have hsince₀ := h.since hstart
  obtain ⟨⟨F₀, hsound₀⟩, -, -⟩ := hsince₀
  have hsince := (h.since hstart).run hrun hops
  obtain ⟨⟨F, hsound⟩, ⟨touched, hframe⟩, hrecorded⟩ := hsince
  obtain ⟨s₁, F', hstep⟩ :=
    hsound.exec_syncs hop hcall (Or.inr (hsound.synced_of_recorded hrecorded))
  obtain ⟨F₁, hopstep⟩ := hsound.exec_ok hcall
  obtain ⟨touched', hframe'⟩ := hopstep.frame
  have hwhole := hframe.trans hframe'
  have hversion := hstep.sound_after.version
  rcases h.makes_or_finds hstart with hmakes | ⟨q, hfinds⟩
  · -- page 0 lists no free page, and none was free at the start
    refine iff_of_true ?_ (Or.inr fun x name hfree => ?_)
    · obtain ⟨u', hu', hrecovers⟩ := hstep.recovers hshort (hwhole.magic.trans hmakes.magic)
        (hwhole.flushedEmpty hmakes.flushed)
      obtain rfl := hu.unique hu'
      exact hrecovers.sound.ownersUnique
    · rw [ownedBy_free_iff, hmakes.pool] at hfree
      exact absurd hfree List.not_mem_nil
  · rcases hfinds.headed_after hwhole hversion with ⟨hfile, hheaded⟩ | ⟨hfile, q', hheaded, hunmarked⟩
    · rw [hstep.ownersUnique_found_iff hfinds hsound₀ hheaded hshort hu]
      exact (or_iff_right fun hne => hne hfile).symm
    · -- the tables are lost with the magic number
      exact iff_of_true (hstep.sound_crashed_nil hheaded hunmarked hu).ownersUnique (Or.inl hfile)

end

/-! ## A page that is free when the file is opened -/

theorem Pager.listed_ne_nil {q : Pager} (h : q.allocator.pool ≠ []) : q.listed ≠ [] := by
  intro hnil
  have hruns : q.persistedRuns = [] := by
    rw [List.eq_nil_iff_forall_not_mem]
    intro r hr
    have hmem : r.start ∈ q.listed := List.mem_flatMap.2
      ⟨r, hr, List.mem_map.2 ⟨0, List.mem_range.2 (Nat.two_pow_pos _), by simp⟩⟩
    rw [hnil] at hmem
    exact absurd hmem List.not_mem_nil
  have hsaved : q.allocator.saveFreeRuns = [] :=
    (List.take_eq_nil_iff.1 hruns).resolve_left (by decide)
  apply h
  rw [← BuddyPageAllocator.runsPages_saveFreeRuns, hsaved]
  rfl

/-- A table that comes from the pool of free pages leaves page 0 as it is. -/
theorem BTree.createNew_of_pool {p : Pager} {live : List PageId} (hp : p.Owns live)
    (hpool : p.allocator.pool ≠ []) {root : PageId} {t : BTree}
    (hrun : BTree.createNew.run ⟨p, 0⟩ = .ok root t) :
    root ∈ p.allocator.pool ∧ t.pager.file[0]? = p.file[0]? := by
  rcases Pager.allocatePage_cases hp.backed with ⟨x, a, ha, halloc⟩ | ⟨hnil, -⟩ | ⟨hnil, -⟩
  · obtain ⟨hx0, hx⟩ := (Pager.allocatePage_ok hp halloc).1.range x (by simp)
    obtain ⟨n, hn, hfits⟩ : ∃ n : Node, n = ⟨⟨.leaf, 0, 0⟩, [], []⟩ ∧ n.Fits := ⟨_, rfl, by decide⟩
    have hnew : (BTree.newPage .leaf).run ⟨p, 0⟩ =
        .ok x (BTree.withNode ⟨{ p with allocator := a }, 0⟩ x n) := by
      rw [BTree.newPage, EStateM.run_bind, BTree.run_onPager_ok halloc, ← hn]
      dsimp only
      rw [EStateM.run_bind, BTree.run_saveNode hx0 hx hfits]
      rfl
    rw [BTree.createNew, EStateM.run_bind, hnew] at hrun
    cases hrun
    refine ⟨(BuddyPageAllocator.pool_allocatePages ha).mem_iff.2 List.mem_cons_self, ?_⟩
    have hfile : root.toNat < p.file.length := by
      have hcount := hp.backed.onFile
      have hlt : root.toNat < p.header.pageCount.toNat := hx
      omega
    rw [BTree.withNode, Pager.withPage]
    dsimp only
    rw [Pager.getElem?_write hfile]
    exact if_neg fun hzero => hx0 (UInt32.toNat_inj.1 hzero)
  · exact absurd hnil hpool
  · exact absurd hnil hpool

/-- The root of a table that is created while pages are free is one of them, and page 0 stays as it is. -/
theorem Sound.createTable_of_pool {s s' : LocalFileStorageProvider} {F : List TableTree} (h : Sound s F)
    {schema : Schema} (hnot : schema.table ∉ F.map TableTree.name)
    (hcolumns : schema.columns.find? (fun col => !accepts col.type) = none)
    (hpool : s.pager.allocator.pool ≠ []) (hrun : (createTable schema).run s = .ok .sentinel s') :
    s'.pager.file[0]? = s.pager.file[0]? ∧
      ∃ x, OwnedBy s x .free ∧ OwnedBy s' x (.table schema.table) := by
  rw [createTable] at hrun
  rw [EStateM.run_bind, EStateM.run_get] at hrun
  dsimp only at hrun
  rw [if_neg (by simp [h.opened]), h.find_table_eq_none_iff.2 hnot, if_neg (by simp), hcolumns] at hrun
  dsimp only at hrun
  cases hnew : BTree.createNew.run ⟨s.pager, 0⟩ with
  | error e t =>
    rw [hnew] at hrun
    cases hrun
  | ok root t =>
    rw [hnew] at hrun
    dsimp only at hrun
    rw [EStateM.run_bind, EStateM.run_set] at hrun
    dsimp only at hrun
    obtain ⟨_, s₂, hsave, hrun⟩ := run_bind_eq_ok.1 hrun
    cases hrun
    obtain ⟨hforest, hframe, -⟩ := h.forest.createNew hnew schema.table
    obtain ⟨hroot, hfile⟩ := BTree.createNew_of_pool h.forest.owns hpool hnew
    have hnamed := h.named.insert hnot ⟨schema, root, 0⟩ root (Layout.empty root)
    have hsound : Sound { s with
        pager := t.pager
        tables := s.tables.assign schema.table ⟨schema, root, 0⟩
        btrees := s.btrees.assign schema.table (some root) }
        (F ++ [TableTree.blank schema.table root]) :=
      ⟨h.opened, h.metaPage, hnamed.tables, hnamed.btrees, hforest, hframe.version.trans h.version⟩
    obtain ⟨-, rfl⟩ := hsound.saveMetadata_ok hsave
    constructor
    · have hone := hforest.owns.range 1 (by simp)
      have hpage : (1 : PageId).toNat < t.pager.file.length := by
        have hcount := hforest.owns.backed.onFile
        omega
      rw [← hfile, LocalFileStorageProvider.saved, h.metaPage, Pager.withPage]
      dsimp only
      rw [Pager.getElem?_write hpage]
      exact if_neg fun hzero => hone.1 (UInt32.toNat_inj.1 hzero)
    · exact ⟨root, ownedBy_free_iff.2 hroot, root, AssocMap.find_assign_self _ _ _, .root⟩

/-- A process makes a file, and a table is created and dropped beside the table `t`. -/
theorem exists_dropped_table : ∃ s₀ s₁ s₂ s root,
    (openFile []).run (LocalFileStorageProvider.new 16 (by decide)) = .ok .sentinel s₀ ∧
    (createTable (emptySchema (ascii "t"))).run s₀ = .ok .sentinel s₁ ∧
    (createTable (emptySchema (ascii "u"))).run s₁ = .ok .sentinel s₂ ∧
    (dropTable (ascii "u")).run s₂ = .ok .sentinel s ∧
    FirstTable 0 s root [] ∧ s.pager.allocator.pool ≠ [] := by
  obtain ⟨s₀, s₁, root, hopen, hcreate, htable, hroom⟩ := exists_leafTable
  obtain ⟨s₂, root', hjoin, hentries, hsound, -⟩ := @LeafTable.createTable _
    (emptySchema (ascii "u")) _ _ _ _ htable (by decide) rfl (by omega) fun root' => by
      refine (@fits_bare_tables _ [(ascii "t", root), (ascii "u", root')] ?_
        (show 44 ≤ 4068 by decide)).1
      show assign (ascii "u") _ s₁.tables.entries = _
      rw [htable.tables]
      rfl
  have hdropped : (s₂.tables.erase (ascii "u")).entries =
      [(ascii "t", ⟨emptySchema (ascii "t"), root, 0⟩)] := by
    show List.filter _ s₂.tables.entries = _
    rw [hentries]
    rfl
  obtain ⟨s₃, hdrop⟩ := Sound.exists_dropTable (A := [_]) (B := []) hsound (fits_first_table hdropped).1
  rcases hsound.dropTable_ok hdrop with ⟨-, hnot⟩ | ⟨s₄, A, f, B, hF, hname, hsaved, hreleased, htables⟩
  · exact absurd (show ascii "u" ∈ [ascii "t", ascii "u"] by decide) hnot
  -- the table that is dropped is the second one
  have hF' : A ++ B = [⟨ascii "t", root, ⟨none, [(root, [])]⟩⟩] ∧ f.pages = [root'] := by
    cases A with
    | nil =>
      cases hF
      exact absurd (show ascii "t" = ascii "u" from hname) (by decide)
    | cons a A =>
      obtain ⟨rfl, hrest⟩ := List.cons.inj hF
      cases A with
      | nil =>
        cases hrest
        exact ⟨rfl, rfl⟩
      | cons a' A => simp at hrest
  obtain rfl := hsaved.saved
  have hfirst : FirstTable 0 s₄.saved root [] := by
    refine ⟨hF'.1 ▸ hsaved.sound.saved, ?_, fun x hx => absurd hx List.not_mem_nil, Nat.le_refl 0⟩
    show s₄.tables.entries = _
    rw [htables]
    exact hdropped
  have hpool : s₄.saved.pager.allocator.pool ≠ [] := by
    intro hnil
    have hperm := hreleased.pool
    rw [hF'.2, show s₄.pager.allocator.pool = [] from hnil] at hperm
    exact absurd hperm.length_eq (by simp)
  exact ⟨s₀, s₁, s₂, _, root, hopen, hcreate, hjoin, hdrop, hfirst, hpool⟩

/-- A table is created and dropped beside another one. -/
def freedPage : List Event :=
  [.op (.createTable (emptySchema (ascii "t"))), .op (.createTable (emptySchema (ascii "u"))),
    .op (.dropTable (ascii "u"))]

/-- Another process opens that file. -/
theorem exists_freed_page : ∃ s root, Runs 16 (by decide) (freedPage ++ [.restart]) s ∧
    FirstTable 0 s root [] ∧ s.pager.allocator.pool ≠ [] := by
  obtain ⟨s₀, s₁, s₂, s, root, hopen, hcreate, hjoin, hdrop, hfirst, hpool⟩ := exists_dropped_table
  have hruns : Runs 16 (by decide) freedPage s :=
    (((Runs.opened hopen).call (.createTable (emptySchema (ascii "t"))) hcreate).call
      (.createTable (emptySchema (ascii "u"))) hjoin).call (.dropTable (ascii "u")) hdrop
  obtain ⟨hfits, hrecorded, hrestart, hfirst'⟩ := hfirst.restart (hruns.mirrors.2.1 rfl)
  refine ⟨_, root, hruns.restart hfits hrecorded hrestart, hfirst', fun hnil => ?_⟩
  have hperm : s.restarted.pager.allocator.pool.Perm s.saved.pager.listed :=
    hfirst.sound.saved.forest.owns.pool_reopened _ _ _
  rw [hnil] at hperm
  exact Pager.listed_ne_nil (q := s.saved.pager) hpool (List.nil_perm.1 hperm)

/-- A table is created from the free page, and the process crashes: the next one has the page of the
table as a free page. -/
theorem crash_frees_page_in_use : ∃ s s' u x, Runs 16 (by decide) (freedPage ++ [.restart]) s ∧
    (createTable (emptySchema (ascii "u"))).run s = .ok .sentinel s' ∧ CrashRestart s' u ∧
    OwnedBy u x (.table (ascii "u")) ∧ OwnedBy u x .free := by
  obtain ⟨s, root, hruns, hfirst, hpool⟩ := exists_freed_page
  have hstart : ∀ es op, freedPage ++ [.restart] ≠ es ++ [.op op] := by
    intro es op heq
    cases (List.append_inj' heq rfl).2
  have hnot : (emptySchema (ascii "u")).table ∉
      [(⟨ascii "t", root, ⟨none, [(root, [])]⟩⟩ : TableTree)].map TableTree.name :=
    show ascii "u" ∉ [ascii "t"] by decide
  have hroom : s.pager.room ≠ 0 := by
    have hlen := List.length_pos_iff.2 hpool
    rw [Pager.room]
    omega
  have hbare : ∀ root' : PageId, (s.tables.assign (ascii "u")
      ⟨emptySchema (ascii "u"), root', 0⟩).entries =
        [(ascii "t", root), (ascii "u", root')].map fun t => (t.1, ⟨emptySchema t.1, t.2, 0⟩) := by
    intro root'
    show assign (ascii "u") _ s.tables.entries = _
    rw [hfirst.tables]
    rfl
  obtain ⟨s', root', hcreate, htables⟩ := hfirst.sound.exists_createTable hnot rfl hroom fun root' =>
    (@fits_bare_tables _ [(ascii "t", root), (ascii "u", root')] (hbare root')
      (show 44 ≤ 4068 by decide)).1
  have hshort : s'.metadata.Short :=
    (@fits_bare_tables s'.metadata [(ascii "t", root), (ascii "u", root')]
      ((congrArg AssocMap.entries htables).trans (hbare root')) (show 44 ≤ 4068 by decide)).2
  obtain ⟨hfile, x, hfree, htable⟩ := hfirst.sound.createTable_of_pool hnot rfl hpool hcreate
  obtain ⟨F', hopstep⟩ := hfirst.sound.createTable_step hcreate
  obtain ⟨touched, hframe⟩ := hopstep.frame
  have hcall : (Op.createTable (emptySchema (ascii "u"))).exec.run s = .ok .sentinel s' := hcreate
  obtain ⟨s₁, F'', hstep⟩ := hfirst.sound.exec_syncs rfl hcall
    (Or.inr (hfirst.sound.synced_of_recorded (hruns.since hstart).recorded))
  rcases hruns.makes_or_finds hstart with hmakes | ⟨q, hfinds⟩
  · exact absurd hmakes.pool hpool
  · rcases hfinds.headed_after hframe hopstep.sound.version with ⟨-, hheaded⟩ | ⟨hne, -⟩
    · have hu := (hstep.crashRestart_iff hshort hheaded hfinds.marked).2 rfl
      obtain ⟨hfree', htable'⟩ := hstep.owned_found hfinds hheaded hshort hu x (ascii "u")
      exact ⟨s, s', _, x, hruns, hcreate, hu, htable'.2 htable, hfree'.2 hfree⟩
    · exact absurd hfile hne

/-- The process that has made the file commits a row beside the free page, and crashes. -/
theorem crash_keeps_owners_of_first_row : ∃ s₀ trace s s' u, Runs 16 (by decide) [] s₀ ∧
    Run Op.returned s₀ trace s ∧ trace.length = 4 ∧ (commit 1 1).run s = .ok .sentinel s' ∧
    CrashRestart s' u ∧
    ∀ trace v, Run Op.returned u trace v → ∀ x o o', OwnedBy v x o → OwnedBy v x o' → o = o' := by
  obtain ⟨s₀, s₁, s₂, s₃, root, hopen, hcreate, hjoin, hdrop, hfirst, hpool⟩ := exists_dropped_table
  obtain ⟨s, ys, hput, hfirst'⟩ := hfirst.put (by decide) 1 Tuple.empty (by decide)
  obtain ⟨s', zs, hcommit, hfirst''⟩ := hfirst'.commit (by decide) 1 1
  have hruns : Runs 16 (by decide) [] s₀ := .opened hopen
  have hstart : ∀ es op, ([] : List Event) ≠ es ++ [.op op] := by simp
  have hrun : Run Op.returned s₀ [(s₀, .createTable (emptySchema (ascii "t"))),
      (s₁, .createTable (emptySchema (ascii "u"))), (s₂, .dropTable (ascii "u")),
      (s₃, .put 1 (ascii "t") (.int64 7) Tuple.empty)] s :=
    Op.run_call (Op.run_call (Op.run_call (Op.run_call .nil (.createTable (emptySchema (ascii "t")))
      hcreate) (.createTable (emptySchema (ascii "u"))) hjoin) (.dropTable (ascii "u")) hdrop)
      (.put 1 (ascii "t") (.int64 7) Tuple.empty) hput
  have hops : ∀ p ∈ [(s₀, Op.createTable (emptySchema (ascii "t"))),
      (s₁, .createTable (emptySchema (ascii "u"))), (s₂, .dropTable (ascii "u")),
      (s₃, .put 1 (ascii "t") (.int64 7) Tuple.empty)], p.2.removes = false := by simp [Op.removes]
  have hmakes : Makes s₀ := by
    rcases hruns.makes_or_finds hstart with hmakes | ⟨q, hfinds⟩
    · exact hmakes
    · exact absurd (hruns.mirrors.2.1 rfl) hfinds.magic
  have hshort : s'.metadata.Short := (fits_first_table hfirst''.tables).2
  -- page 0 is that of the last growth of the file
  obtain ⟨touched, hframe⟩ := ((hruns.since hstart).run hrun hops).frame
  obtain ⟨F', hopstep⟩ := hfirst'.sound.commit_step (.commit 1 1) hcommit
  obtain ⟨touched', hframe'⟩ := hopstep.frame
  have hwhole := hframe.trans hframe'
  obtain ⟨s₄, F'', hstep⟩ := hfirst'.sound.commit_syncs hcommit
  obtain ⟨u, hu, -⟩ := hstep.recovers hshort (hwhole.magic.trans hmakes.magic)
    (hwhole.flushedEmpty hmakes.flushed)
  have hcall : (Op.commit 1 1).exec.run s = .ok .sentinel s' := hcommit
  refine ⟨s₀, _, s, s', u, hruns, hrun, rfl, hcommit, hu,
    (crash_owners_unique_iff hruns hstart hrun hops rfl hcall hshort hu).2 (Or.inr fun x name hfree => ?_)⟩
  rw [ownedBy_free_iff, hmakes.pool] at hfree
  exact absurd hfree List.not_mem_nil

end OpenDB
