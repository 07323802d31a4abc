import OpenDB.Storage.HeaderPage
import OpenDB.Storage.Session

/-!
# Close and open

A provider that is opened on a file finds its tables through page 1, and page 1 through page 0. When
page 0 carries the magic number and page 1 the metadata of a provider, the new provider has the
tables, the recorded roots and the counters of that metadata (`run_openFile_saved`). When page 0 has
lost the magic number, the new provider starts with no tables at all (`openFile_reset`).

`Restart s s'` is a clean shutdown followed by a new process on the same file. It keeps all tables
when this process has made the file, since then the header page is written with the magic number, and
when the recorded roots are those of the trees (`Sound.restart_kept`). A process that has opened an
existing file does not have the magic number in memory, and its shutdown makes the next process start
from nothing (`Sound.restart_lost`).
-/

set_option autoImplicit false

namespace OpenDB

open OpenDB.Library

namespace LocalFileStorageProvider

/-! ## Opening -/

/-- The tree objects for the tables of the registry. -/
def treesOf (tables : AssocMap Bytes TableInfo) : AssocMap Bytes (Option PageId) :=
  tables.entries.foldl (fun m t => m.assign t.1 (some t.2.rootPageId)) .empty

theorem entries_treesOf (tables : AssocMap Bytes TableInfo) :
    (treesOf tables).entries = tables.entries.map fun t => (t.1, some t.2.rootPageId) := by
  have hnodup : ((AssocMap.empty : AssocMap Bytes (Option PageId)).entries.map Prod.fst ++
      tables.entries.map Prod.fst).Nodup := tables.distinct
  rw [treesOf, AssocMap.entries_foldl_assign hnodup]
  rfl

/-- The provider that comes up with the metadata `m` on page 1. -/
def loaded (p : Pager) (m : Metadata) : LocalFileStorageProvider :=
  ⟨p, 1, m.persisted.tables, treesOf m.persisted.tables, m.visibleSeq, m.internalSeq, true⟩

/-- Opening a file that has a metadata page. -/
theorem run_openFile_saved {file : Image} {capacity : Nat} {h : capacity < 2 ^ 32} {p : Pager}
    {m : Metadata} (hopen : Pager.openFile.run (Pager.unloaded file capacity h) = .ok () p)
    (hread : p.readPage 1 = some (metadataPage m)) (hfits : m.Fits) (hshort : m.Short) :
    (openFile file).run (new capacity h) = .ok .sentinel (loaded p m) := by
  have hcount := (Pager.lt_of_readPage hread).2
  have hmany : ¬ p.header.pageCount ≤ 1 := by
    rw [UInt32.le_iff_toNat_le]
    exact not_le.2 hcount
  set s₁ : LocalFileStorageProvider := ⟨p, 1, .empty, .empty, 0, 0, false⟩ with hs₁
  have hload : loadMetadata.run s₁ = .ok true
      { s₁ with visibleSeq := m.visibleSeq, internalSeq := m.internalSeq, tables := m.persisted.tables } := by
    unfold loadMetadata
    rw [EStateM.run_bind, EStateM.run_get]
    have hread' : s₁.pager.readPage s₁.metaPageId = some (metadataPage m) := hread
    have hpage := loadMetadata_metadataPage hfits hshort (show s₁.metadata.tables = .empty from rfl)
    dsimp only
    rw [hread']
    dsimp only
    rw [hpage]
    rfl
  unfold openFile
  rw [EStateM.run_bind, EStateM.run_get]
  dsimp only
  have hclosed : ¬ (new capacity h).opened = true := by
    rw [Bool.not_eq_true]
    rfl
  have hopen' : Pager.openFile.run (Pager.unloaded file (new capacity h).pager.capacity
      (new capacity h).pager.capacity_lt) = .ok () p := hopen
  rw [if_neg hclosed, hopen']
  dsimp only
  rw [EStateM.run_bind, EStateM.run_set]
  dsimp only
  rw [if_neg hmany, EStateM.run_bind, EStateM.run_modify]
  dsimp only
  rw [EStateM.run_bind]
  have hstate : ({ new capacity h with pager := p, metaPageId := 1 } : LocalFileStorageProvider) =
      s₁ := rfl
  rw [hstate, hload]
  rfl

/-- The provider of a file that has just been initialised. -/
def blank (p : Pager) : LocalFileStorageProvider :=
  ⟨p.extended.withPage 1 (metadataPage ⟨0, 0, .empty⟩), 1, .empty, .empty, 0, 0, true⟩

/-- `open` on a pager that has only its header page: the metadata page is made. -/
theorem run_openFile_init {file : Image} {capacity : Nat} {h : capacity < 2 ^ 32} {p : Pager}
    (hopen : Pager.openFile.run (Pager.unloaded file capacity h) = .ok () p)
    (hcount : p.header.pageCount = 1) :
    (openFile file).run (new capacity h) =
      (do
        let id ← onPager Pager.allocatePage
        modify fun s => { s with metaPageId := id }
        saveMetadata
        modify fun s => { s with opened := true }
        return DbError.sentinel : EStateM Fault LocalFileStorageProvider DbError).run
          ⟨p, 1, .empty, .empty, 0, 0, false⟩ := by
  have hclosed : ¬ (new capacity h).opened = true := by
    rw [Bool.not_eq_true]
    rfl
  have hopen' : Pager.openFile.run (Pager.unloaded file (new capacity h).pager.capacity
      (new capacity h).pager.capacity_lt) = .ok () p := hopen
  unfold openFile
  rw [EStateM.run_bind, EStateM.run_get]
  dsimp only
  rw [if_neg hclosed, hopen']
  dsimp only
  rw [EStateM.run_bind, EStateM.run_set]
  dsimp only
  rw [if_pos (by rw [hcount]; decide)]
  rfl

theorem run_openFile_full {file : Image} {capacity : Nat} {h : capacity < 2 ^ 32} {p : Pager}
    (hopen : Pager.openFile.run (Pager.unloaded file capacity h) = .ok () p)
    (hcount : p.header.pageCount = 1) (hpool : p.allocator.pool = [])
    (hfull : ¬ p.file.length < p.capacity) :
    ∃ e s, (openFile file).run (new capacity h) = .error e s := by
  rw [run_openFile_init hopen hcount, EStateM.run_bind]
  have halloc : (onPager Pager.allocatePage).run
      (⟨p, 1, .empty, .empty, 0, 0, false⟩ : LocalFileStorageProvider) =
      .error Pager.extendFailed ⟨p, 1, .empty, .empty, 0, 0, false⟩ := by
    show onPager Pager.allocatePage _ = _
    rw [onPager, Pager.run_allocatePage_full hpool hfull]
  rw [halloc]
  exact ⟨_, _, rfl⟩

/-- The page behind the header page is the first to be allocated. -/
theorem allocatePage_first {p : Pager} (howns : p.Owns []) (hcount : p.header.pageCount = 1)
    (hpool : p.allocator.pool = []) (hroom : p.file.length < p.capacity) :
    Pager.allocatePage.run p = .ok 1 p.extended := by
  rw [Pager.run_allocatePage_extend hpool, Pager.run_extendFile_one howns.backed hroom, hcount]

theorem run_openFile_blank {file : Image} {capacity : Nat} {h : capacity < 2 ^ 32} {p : Pager}
    (hopen : Pager.openFile.run (Pager.unloaded file capacity h) = .ok () p) (howns : p.Owns [])
    (hcount : p.header.pageCount = 1) (hpool : p.allocator.pool = [])
    (hroom : p.file.length < p.capacity) :
    (openFile file).run (new capacity h) = .ok .sentinel (blank p) := by
  have halloc := allocatePage_first howns hcount hpool hroom
  have hone := (Pager.allocatePage_ok howns halloc).1.range 1 (by simp)
  have hfits : (Metadata.mk 0 0 .empty).Fits := by
    show 20 ≤ 4088
    norm_num
  rw [run_openFile_init hopen hcount, EStateM.run_bind, run_onPager_ok halloc]
  dsimp only
  rw [EStateM.run_bind, EStateM.run_modify]
  dsimp only
  rcases saveMetadata_cases (s := ⟨p.extended, 1, .empty, .empty, 0, 0, false⟩) hone.1 hone.2 with
    ⟨-, hsave⟩ | ⟨hbig, -⟩
  · rw [EStateM.run_bind, hsave]
    rfl
  · exact absurd hfits hbig

/-- A new file has no tables yet. -/
theorem sound_blank {p : Pager} (howns : p.Owns []) (hcount : p.header.pageCount = 1)
    (hpool : p.allocator.pool = []) (hroom : p.file.length < p.capacity)
    (hversion : p.header.version = Pager.version) : Sound (blank p) [] := by
  obtain ⟨howns₁, hframe, -⟩ :=
    Pager.allocatePage_ok howns (allocatePage_first howns hcount hpool hroom)
  have hone := howns₁.range 1 (by simp)
  refine ⟨rfl, rfl, rfl, rfl, ⟨fun f hf => absurd hf List.not_mem_nil, ?_⟩,
    hframe.version.trans hversion⟩
  exact howns₁.withPage hone.2

/-- Opening a file that has just been initialised: there are no tables yet. -/
theorem openFile_reset {file : Image} {capacity : Nat} {h : capacity < 2 ^ 32} {p : Pager}
    {r : DbError} {s : LocalFileStorageProvider}
    (hopen : Pager.openFile.run (Pager.unloaded file capacity h) = .ok () p)
    (hcount : p.header.pageCount = 1) (hpool : p.allocator.pool = []) (howns : p.Owns [])
    (hrun : (openFile file).run (new capacity h) = .ok r s) :
    s = blank p ∧ p.file.length < p.capacity := by
  by_cases hroom : p.file.length < p.capacity
  · rw [run_openFile_blank hopen howns hcount hpool hroom] at hrun
    cases hrun
    exact ⟨rfl, hroom⟩
  · obtain ⟨e, s', hfail⟩ := run_openFile_full hopen hcount hpool hroom
    rw [hfail] at hrun
    cases hrun

/-- The provider after a clean shutdown, when the next process finds the header page. -/
def restarted (s : LocalFileStorageProvider) : LocalFileStorageProvider :=
  loaded (s.saved.pager.reopened s.saved.pager.writeHeader.file s.pager.capacity
    s.capacity_lt) s.metadata

/-- The provider after `close`. -/
def shut (s : LocalFileStorageProvider) : LocalFileStorageProvider :=
  { s.saved with
    pager := s.saved.pager.writeHeader
    btrees := s.btrees.mapValues fun _ => none
    opened := false }

/-- A clean shutdown and a new process on the same file. -/
def Restart (s s' : LocalFileStorageProvider) : Prop :=
  ∃ r s₁, close.run s = .ok r s₁ ∧
    (openFile s₁.pager.file).run (new s.pager.capacity s.capacity_lt) = .ok .sentinel s'

end LocalFileStorageProvider

open LocalFileStorageProvider

/-- The provider is open, and the pages `live` are in use, the metadata page among them. -/
structure Running (s : LocalFileStorageProvider) (live : List PageId) : Prop where
  opened : s.opened = true
  metaPage : s.metaPageId = 1
  page : (1 : PageId) ∈ live
  owns : s.pager.Owns live
  version : s.pager.header.version = Pager.version

namespace Running

variable {s s' : LocalFileStorageProvider} {live : List PageId}

theorem page_one (h : Running s live) :
    (1 : PageId) ≠ 0 ∧ (1 : PageId).toNat < s.pager.header.pageCount.toNat :=
  h.owns.range 1 (List.mem_append_right _ h.page)

theorem saved (h : Running s live) : Running s.saved live := by
  refine ⟨h.opened, h.metaPage, h.page, ?_, h.version⟩
  show (s.pager.withPage s.metaPageId _).Owns live
  rw [h.metaPage]
  exact h.owns.withPage h.page_one.2

theorem readPage_saved (h : Running s live) (hfits : s.metadata.Fits) :
    s.saved.pager.readPage 1 = some (metadataPage s.metadata) := by
  show (s.pager.withPage s.metaPageId _).readPage 1 = _
  rw [h.metaPage]
  exact Pager.readPage_withPage_self (length_metadataPage hfits) h.page_one.1 h.page_one.2

theorem length_file_pos (h : Running s live) : 0 < s.pager.file.length := by
  have hpos := h.owns.backed.pos
  have hfile := h.owns.backed.onFile
  omega

/-- `close` saves the metadata and writes the header page, or throws when the metadata does not
fit. -/
theorem run_close (h : Running s live) :
    (s.metadata.Fits ∧ close.run s = .ok .sentinel s.shut) ∨
      (¬ s.metadata.Fits ∧ ∃ e, close.run s = .error e s) := by
  have hid : s.metaPageId ≠ 0 ∧ s.metaPageId.toNat < s.pager.header.pageCount.toNat := by
    rw [h.metaPage]
    exact h.page_one
  unfold close
  rw [EStateM.run_bind, EStateM.run_get]
  dsimp only
  rw [if_neg (by simp [h.opened]), EStateM.run_bind]
  rcases saveMetadata_cases hid.1 hid.2 with ⟨hfits, hsave⟩ | ⟨hbig, e, hsave⟩
  · rw [hsave]
    have hflush := Pager.run_flushHeader h.saved.owns.backed.pos
    have hclose : Pager.close.run s.saved.pager =
        .ok s.saved.pager.writeHeader.file s.saved.pager.writeHeader := by
      rw [Pager.close, EStateM.run_bind, hflush]
      rfl
    dsimp only
    rw [EStateM.run_bind, run_onPager_ok hclose]
    exact Or.inl ⟨hfits, rfl⟩
  · rw [hsave]
    exact Or.inr ⟨hbig, e, rfl⟩

/-- A restart is an opening of the file that `close` leaves behind. -/
theorem restart_iff (h : Running s live) :
    Restart s s' ↔ s.metadata.Fits ∧ (openFile s.saved.pager.writeHeader.file).run
      (new s.pager.capacity s.pager.capacity_lt) = .ok .sentinel s' := by
  rcases h.run_close with ⟨hfits, hclose⟩ | ⟨hbig, e, hclose⟩
  · constructor
    · rintro ⟨r, s₂, hclose', hopen⟩
      rw [hclose] at hclose'
      cases hclose'
      exact ⟨hfits, hopen⟩
    · rintro ⟨-, hopen⟩
      exact ⟨_, s.shut, hclose, hopen⟩
  · constructor
    · rintro ⟨r, s₂, hclose', -⟩
      rw [hclose] at hclose'
      cases hclose'
    · rintro ⟨hfits, -⟩
      exact absurd hfits hbig

theorem readPage_restarted (h : Running s live) (id : PageId) :
    s.restarted.pager.readPage id = s.saved.pager.readPage id := by
  have hcount : s.saved.pager.header.pageCount = s.saved.pager.writeHeader.header.pageCount := rfl
  show (s.saved.pager.reopened s.saved.pager.writeHeader.file _ _).readPage id = _
  rw [Pager.readPage_reopened hcount, Pager.readPage_writeHeader h.saved.length_file_pos]

/-- The pages in use are still in use after a restart. -/
theorem owns_restarted (h : Running s live) : s.restarted.pager.Owns live := by
  have howns := h.saved.owns
  have hlisted := s.saved.pager.listed_sublist
  apply howns.writeHeader.reopened rfl
  · exact howns.nodup.sublist (hlisted.append_right _)
  · intro x hx
    exact howns.range x (List.mem_append_left _ (hlisted.subset hx))
  · exact howns.writeHeader.backed.onDisk

/-- What a restart yields when this process has made the file. -/
theorem restart_iff_kept (h : Running s live) (hshort : s.metadata.Short)
    (hmagic : s.pager.header.magic = Pager.magic) :
    Restart s s' ↔ s.metadata.Fits ∧ s' = s.restarted := by
  rw [h.restart_iff]
  refine and_congr_right fun hfits => ?_
  have hsaved := h.saved
  have hpage := Pager.file_zero_writeHeader hsaved.length_file_pos
  have hrun := Pager.run_openFile_header s.pager.capacity_lt hpage hmagic hsaved.version
  have hread := (h.readPage_restarted 1).trans (h.readPage_saved hfits)
  rw [run_openFile_saved hrun hread hfits hshort]
  constructor
  · intro hopen
    cases hopen
    rfl
  · rintro rfl
    rfl

theorem length_file_saved (h : Running s live) :
    s.saved.pager.writeHeader.file.length = s.pager.file.length := by
  have hsaved := h.saved
  have hone : (1 : PageId).toNat < s.pager.file.length := by
    have hpage := h.page_one.2
    have hfile := h.owns.backed.onFile
    omega
  show (Image.write s.saved.pager.file 0 _).length = _
  rw [Pager.length_write hsaved.length_file_pos]
  show (Image.write s.pager.file s.metaPageId.toNat _).length = _
  rw [h.metaPage, Pager.length_write hone]

/-- What a restart yields when this process has opened a file that existed: a provider with no
tables, if there is a page for its metadata. -/
theorem restart_iff_lost (h : Running s live) (hmagic : s.pager.header.magic ≠ Pager.magic) :
    Restart s s' ↔ s.metadata.Fits ∧ s.pager.file.length < s.pager.capacity ∧
      s' = blank (Pager.reset s.saved.pager.writeHeader.file s.pager.capacity
        s.pager.capacity_lt) := by
  rw [h.restart_iff]
  refine and_congr_right fun _ => ?_
  have hsaved := h.saved
  have hpage := Pager.file_zero_writeHeader hsaved.length_file_pos
  have hfield : (RawPage.ofBytes s.saved.pager.headerBytes).field 0 4 ≠ Pager.magic.toNat := by
    rw [Pager.field_magic hsaved.version]
    exact fun heq => hmagic (UInt32.toNat_inj.1 heq)
  have hrun := Pager.run_openFile_foreign s.pager.capacity_lt hpage hfield
  have hdisk := h.owns.backed.onDisk
  have hlen := h.length_file_saved
  have hpos : 0 < s.saved.pager.writeHeader.file.length := by
    rw [hlen]
    exact h.length_file_pos
  have hreset := Pager.owns_reset s.pager.capacity_lt hpos (by rw [hlen]; exact hdisk)
  have hfile : (Pager.reset s.saved.pager.writeHeader.file s.pager.capacity
      s.pager.capacity_lt).file.length = s.pager.file.length := (Pager.length_write hpos).trans hlen
  constructor
  · intro hopen
    obtain ⟨rfl, hroom⟩ := openFile_reset hrun rfl rfl hreset hopen
    rw [hfile] at hroom
    exact ⟨hroom, rfl⟩
  · rintro ⟨hroom, rfl⟩
    apply run_openFile_blank hrun hreset rfl rfl
    rw [hfile]
    exact hroom

/-- A restart starts from nothing when this process has opened a file that existed. -/
theorem restart_lost (h : Running s live) (hmagic : s.pager.header.magic ≠ Pager.magic)
    (hrestart : Restart s s') : Sound s' [] ∧ s'.visibleSeq = 0 := by
  obtain ⟨-, hroom, rfl⟩ := (h.restart_iff_lost hmagic).1 hrestart
  have hlen := h.length_file_saved
  have hpos : 0 < s.saved.pager.writeHeader.file.length := by
    rw [hlen]
    exact h.length_file_pos
  have hdisk := h.owns.backed.onDisk
  have hreset := Pager.owns_reset s.pager.capacity_lt hpos (by rw [hlen]; exact hdisk)
  refine ⟨sound_blank hreset rfl rfl ?_ rfl, rfl⟩
  exact lt_of_eq_of_lt ((Pager.length_write hpos).trans hlen) hroom

end Running

/-- The roots are recorded in a provider that has just been opened. -/
theorem synced_loaded {p : Pager} {m : Metadata}
    {F : List TableTree} (h : Named m.persisted.tables (treesOf m.persisted.tables) F) :
    Synced (LocalFileStorageProvider.loaded p m) F := by
  intro f hf
  obtain ⟨A, B, rfl⟩ := List.append_of_mem hf
  have hfind := h.find_tree
  obtain ⟨T, U, hentries, -, -⟩ := AssocMap.exists_of_find hfind
  rw [entries_treesOf] at hentries
  obtain ⟨T', rest, hsplit, -, hrest⟩ := List.map_eq_append_iff.1 hentries
  obtain ⟨e, U', hcons, he, -⟩ := List.map_eq_cons_iff.1 hrest
  rw [Prod.mk.injEq, Option.some.injEq] at he
  have hmem : e ∈ m.persisted.tables.entries := by
    rw [hsplit, hcons]
    simp
  refine ⟨e.2, ?_, he.2⟩
  rw [← he.1]
  exact AssocMap.find_of_mem hmem

namespace Sound

variable {s s' : LocalFileStorageProvider} {F : List TableTree}

theorem running (h : Sound s F) : Running s (treePages F ++ [1]) :=
  ⟨h.opened, h.metaPage, by simp, h.forest.owns, h.version⟩

/-- The trees that the next process finds are those of this one when their roots are recorded. -/
theorem loaded (h : Sound s F) (hsync : Synced s F) {p : Pager} (hforest : Forest p F [1])
    (hversion : p.header.version = Pager.version) : Sound (loaded p s.metadata) F := by
  refine ⟨rfl, rfl, ?_, ?_, hforest, hversion⟩
  · rw [← h.tables]
    show (List.map _ s.tables.entries).map Prod.fst = _
    rw [List.map_map]
    rfl
  · show (treesOf s.metadata.persisted.tables).entries = _
    rw [entries_treesOf]
    show (List.map _ s.tables.entries).map _ = _
    rw [List.map_map]
    have hroots : ∀ f ∈ F, ∃ info, s.tables.find f.name = some info ∧
        some info.rootPageId = some f.root := by
      intro f hf
      obtain ⟨info, hfind, hroot⟩ := hsync f hf
      exact ⟨info, hfind, congrArg some hroot⟩
    exact AssocMap.map_entries_eq (g := fun info : TableInfo => some info.rootPageId) h.tables hroots

/-- A restart keeps all tables when this process has made the file and has recorded the roots. -/
theorem restart_kept (h : Sound s F) (hsync : Synced s F) (hshort : s.metadata.Short)
    (hmagic : s.pager.header.magic = Pager.magic) (hrestart : Restart s s') :
    Sound s' F ∧ Synced s' F ∧ s' = s.restarted := by
  obtain ⟨-, rfl⟩ := (h.running.restart_iff_kept hshort hmagic).1 hrestart
  have hsound := h.loaded hsync
    (h.saved.forest.of_pages (fun x _ => h.running.readPage_restarted x) h.running.owns_restarted) rfl
  exact ⟨hsound, synced_loaded hsound.named, rfl⟩

end Sound

/-- A provider cannot be opened on a disk that has no page at all. -/
theorem capacity_pos {capacity : Nat} {h : capacity < 2 ^ 32} {r : DbError}
    {s : LocalFileStorageProvider}
    (hrun : (openFile []).run (LocalFileStorageProvider.new capacity h) = .ok r s) :
    0 < capacity := by
  rcases Nat.eq_zero_or_pos capacity with rfl | hpos
  · obtain ⟨e, s', hfail⟩ := run_openFile_full (Pager.run_openFile_nil 0 h) rfl rfl
      (Nat.not_lt_zero _)
    rw [hfail] at hrun
    cases hrun
  · exact hpos

/-- The provider of a new file. -/
theorem sound_new {capacity : Nat} {h : capacity < 2 ^ 32} {r : DbError}
    {s : LocalFileStorageProvider}
    (hrun : (openFile []).run (LocalFileStorageProvider.new capacity h) = .ok r s) :
    Sound s [] ∧ s = blank (Pager.new capacity h) := by
  have howns := Pager.owns_new h (capacity_pos hrun)
  obtain ⟨rfl, hroom⟩ := openFile_reset (Pager.run_openFile_nil capacity h) rfl rfl howns hrun
  exact ⟨sound_blank howns rfl rfl hroom rfl, rfl⟩

end OpenDB
