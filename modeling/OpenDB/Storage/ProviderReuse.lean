import OpenDB.Library.Trace
import OpenDB.Storage.RoundTrip

/-!
# One provider for several files

A provider object can be opened and closed again and again, on any files. An opening gives a closed
provider the pager of the file, and what the metadata page says is written over the registry and the
counters that the provider still has (`loadMetadata_over`, `run_openFile_existing`). Nothing ever empties
the registry or resets the counters.

So a provider shows after an opening what a new provider shows of the same file, and no table when the
opening fails, exactly if nothing that is left from before shines through (`Covered`, `opens_right_iff`).
A table of one file is otherwise still there when the next one is open (`table_leaks_into_next_file`).
-/

set_option autoImplicit false

namespace OpenDB

open OpenDB.Library

/-! ## Loading over a registry that is not empty -/

/-- What the page says to a provider that has nothing yet. -/
def storedIn (page : Bytes) : Bool × Metadata := loadMetadata ⟨0, 0, .empty⟩ page

section

variable {a c a₀ : AssocMap Bytes TableInfo} {name : Bytes}

/-- The tables of the page hide those that were registered before. -/
theorem loadTables_over (n : Nat) (bs : Bytes)
    (h : ∀ name, a.find name = (c.find name).or (a₀.find name)) :
    (loadTables n a bs).1 = (loadTables n c bs).1 ∧
      ∀ name, (loadTables n a bs).2.find name =
        ((loadTables n c bs).2.find name).or (a₀.find name) := by
  induction n generalizing a c bs with
  | zero => exact ⟨rfl, h⟩
  | succ n ih =>
    rw [loadTables, loadTables]
    cases loadTable.run bs with
    | none => exact ⟨rfl, h⟩
    | some read =>
      obtain ⟨t, rest⟩ := read
      refine ih rest fun name => ?_
      by_cases hname : name = t.1
      · rw [hname, AssocMap.find_assign_self, AssocMap.find_assign_self]
        rfl
      · rw [AssocMap.find_assign_of_ne _ _ hname, AssocMap.find_assign_of_ne _ _ hname, h]

theorem loadMetadata_over (m₀ : Metadata) (page : Bytes) :
    (loadMetadata m₀ page).1 = (storedIn page).1 ∧
      (∀ name, (loadMetadata m₀ page).2.tables.find name =
        ((storedIn page).2.tables.find name).or (m₀.tables.find name)) ∧
      ((storedIn page).1 = true →
        (loadMetadata m₀ page).2.visibleSeq = (storedIn page).2.visibleSeq ∧
          (loadMetadata m₀ page).2.internalSeq = (storedIn page).2.internalSeq) := by
  have hempty : ∀ name, m₀.tables.find name =
      ((AssocMap.empty : AssocMap Bytes TableInfo).find name).or (m₀.tables.find name) :=
    fun _ => rfl
  unfold storedIn loadMetadata
  dsimp only
  split
  · exact ⟨rfl, hempty, fun h => absurd h Bool.false_ne_true⟩
  · split
    · exact ⟨rfl, hempty, fun h => absurd h Bool.false_ne_true⟩
    · rename_i count rest hcount
      obtain ⟨hok, hfind⟩ := loadTables_over count rest hempty
      exact ⟨hok, hfind, fun _ => ⟨rfl, rfl⟩⟩

end

namespace LocalFileStorageProvider

/-- The tree objects that `open` makes for the registered tables, over those that are there. -/
def withTrees (btrees : AssocMap Bytes (Option PageId)) (tables : AssocMap Bytes TableInfo) :
    AssocMap Bytes (Option PageId) :=
  tables.entries.foldl (fun m t => m.assign t.1 (some t.2.rootPageId)) btrees

theorem find_withTrees (btrees : AssocMap Bytes (Option PageId)) (tables : AssocMap Bytes TableInfo)
    (name : Bytes) : (withTrees btrees tables).find name =
      ((tables.find name).map fun info => some info.rootPageId).or (btrees.find name) := by
  rw [withTrees]
  cases hfind : tables.find name with
  | none =>
    exact AssocMap.find_foldl_assign_of_not_mem
      (g := fun t : Bytes × TableInfo => some t.2.rootPageId) (AssocMap.find_eq_none_iff.1 hfind)
  | some info =>
    obtain ⟨A, B, hentries, -, -⟩ := AssocMap.exists_of_find hfind
    have hmem : (name, info) ∈ tables.entries := by simp [hentries]
    exact AssocMap.find_foldl_assign_of_mem
      (g := fun t : Bytes × TableInfo => some t.2.rootPageId) tables.distinct hmem

/-! ## Opening a closed provider -/

/-- The first page of a new file is made and written. -/
def initialise : EStateM Fault LocalFileStorageProvider DbError := do
  let id ← onPager Pager.allocatePage
  modify fun s => { s with metaPageId := id }
  saveMetadata
  modify fun s => { s with opened := true }
  return .sentinel

/-- The provider on a pager whose metadata page has been read. -/
def reopened (s : LocalFileStorageProvider) (p : Pager) (page : Bytes) : LocalFileStorageProvider :=
  let m := (OpenDB.loadMetadata s.metadata page).2
  ⟨p, 1, m.tables, withTrees s.btrees m.tables, m.visibleSeq, m.internalSeq, true⟩

/-- The provider on a pager whose metadata page breaks off. -/
def brokenOff (s : LocalFileStorageProvider) (p : Pager) (page : Bytes) : LocalFileStorageProvider :=
  let m := (OpenDB.loadMetadata s.metadata page).2
  ⟨p, 1, m.tables, s.btrees, m.visibleSeq, m.internalSeq, false⟩

def corrupted : DbError :=
  ⟨.internal, ascii "LocalFileStorageProvider: corrupted metadata page"⟩

def cannotOpen (what : Bytes) : DbError :=
  ⟨.internal, ascii "LocalFileStorageProvider: cannot open: " ++ what⟩

variable {s : LocalFileStorageProvider} {file : Image} {p : Pager}

/-- The pager of the file, on the disk of the provider. -/
def pagerOf (s : LocalFileStorageProvider) (file : Image) : EStateM.Result Fault Pager Unit :=
  Pager.openFile.run (Pager.unloaded file s.pager.capacity s.capacity_lt)

theorem run_openFile_cannot {what : Bytes} (h : s.opened = false)
    (hpager : s.pagerOf file = .error (.runtimeError what) p) :
    (openFile file).run s = .ok (cannotOpen what) { s with pager := p } := by
  rw [openFile]
  rw [EStateM.run_bind, EStateM.run_get]
  dsimp only
  rw [if_neg (by simp [h]), show Pager.openFile.run _ = _ from hpager]
  rfl

theorem run_openFile_fault {e : Fault} (h : s.opened = false) (he : e.isThrown = false)
    (hpager : s.pagerOf file = .error e p) :
    (openFile file).run s = .error e { s with pager := p } := by
  rw [openFile]
  rw [EStateM.run_bind, EStateM.run_get]
  dsimp only
  rw [if_neg (by simp [h]), show Pager.openFile.run _ = _ from hpager]
  cases e with
  | runtimeError what => cases he
  | _ => rfl

theorem run_openFile_new (h : s.opened = false) (hpager : s.pagerOf file = .ok () p)
    (hcount : p.header.pageCount ≤ 1) :
    (openFile file).run s = initialise.run { s with pager := p } := by
  rw [openFile]
  rw [EStateM.run_bind, EStateM.run_get]
  dsimp only
  rw [if_neg (by simp [h]), show Pager.openFile.run _ = _ from hpager]
  dsimp only
  rw [EStateM.run_bind, EStateM.run_set]
  dsimp only
  rw [if_pos hcount]
  rfl

/-- A file that has more than its header page. -/
theorem run_openFile_existing (h : s.opened = false) (hpager : s.pagerOf file = .ok () p)
    (hcount : ¬ p.header.pageCount ≤ 1) :
    (openFile file).run s =
      match p.readPage 1 with
      | none => .ok corrupted { s with pager := p, metaPageId := 1 }
      | some page =>
        if (storedIn page).1 then .ok .sentinel (s.reopened p page)
        else .ok corrupted (s.brokenOff p page) := by
  rw [openFile]
  rw [EStateM.run_bind, EStateM.run_get]
  dsimp only
  rw [if_neg (by simp [h]), show Pager.openFile.run _ = _ from hpager]
  dsimp only
  rw [EStateM.run_bind, EStateM.run_set]
  dsimp only
  rw [if_neg hcount, EStateM.run_bind, EStateM.run_modify]
  dsimp only
  have hload : loadMetadata.run { s with pager := p, metaPageId := 1 } =
      match p.readPage 1 with
      | none => .ok false { s with pager := p, metaPageId := 1 }
      | some page => .ok (OpenDB.loadMetadata s.metadata page).1
          { s with
            pager := p
            metaPageId := 1
            visibleSeq := (OpenDB.loadMetadata s.metadata page).2.visibleSeq
            internalSeq := (OpenDB.loadMetadata s.metadata page).2.internalSeq
            tables := (OpenDB.loadMetadata s.metadata page).2.tables } := by
    rw [loadMetadata]
    rw [EStateM.run_bind, EStateM.run_get]
    dsimp only
    cases p.readPage 1 <;> rfl
  rw [EStateM.run_bind, hload]
  cases p.readPage 1 with
  | none => rfl
  | some page =>
    dsimp only
    rw [(loadMetadata_over s.metadata page).1]
    cases (storedIn page).1 with
    | true => rfl
    | false =>
      rw [if_neg Bool.false_ne_true]
      -- a catalogue that breaks off leaves the engine closed, as it was
      obtain ⟨pager, metaPageId, tables, btrees, visibleSeq, internalSeq, opened⟩ := s
      obtain rfl : opened = false := h
      rfl

/-- The pager has room for a metadata page. -/
def CanInitialise (p : Pager) : Prop :=
  ∃ id p', Pager.allocatePage.run p = .ok id p' ∧ id ≠ 0 ∧ id.toNat < p'.header.pageCount.toNat

/-- A metadata page that the pager does not have cannot be written. -/
theorem saveMetadata_invalid (h : ¬ (s.metaPageId ≠ 0 ∧
    s.metaPageId.toNat < s.pager.header.pageCount.toNat)) : ∃ e, saveMetadata.run s = .error e s := by
  rw [saveMetadata]
  rw [EStateM.run_bind, EStateM.run_get]
  dsimp only
  rcases encodeMetadata_cases s.metadata with ⟨hfits, henc⟩ | ⟨-, e, henc⟩
  · have hinvalid : s.metaPageId = 0 ∨ s.pager.header.pageCount ≤ s.metaPageId := by
      rw [UInt32.le_iff_toNat_le]
      by_contra hnot
      rw [not_or] at hnot
      exact h ⟨hnot.1, Nat.lt_of_not_le hnot.2⟩
    have hwrite : (Pager.writePage (some s.metaPageId) (metadataPage s.metadata)).run s.pager =
        .error (.runtimeError (ascii "Pager::writePage: invalid page ID")) s.pager := by
      simp [Pager.writePage, length_metadataPage hfits, hinvalid]
    have hthrow : (onPager (Pager.writePage (some s.metaPageId) (metadataPage s.metadata))).run s =
        .error (.runtimeError (ascii "Pager::writePage: invalid page ID")) s := by
      show onPager _ s = _
      rw [onPager, hwrite]
    rw [henc]
    dsimp only
    rw [EStateM.run_bind, hthrow]
    exact ⟨_, rfl⟩
  · rw [henc]
    exact ⟨e, rfl⟩

/-- A new file gets its metadata page, or the opening throws and leaves the registry as it is. -/
theorem initialise_cases (s : LocalFileStorageProvider) :
    (∃ id p', Pager.allocatePage.run s.pager = .ok id p' ∧ id ≠ 0 ∧
      id.toNat < p'.header.pageCount.toNat ∧ s.metadata.Fits ∧
      initialise.run s = .ok .sentinel { s with
        pager := p'.withPage id (metadataPage s.metadata), metaPageId := id, opened := true }) ∨
      (¬ (CanInitialise s.pager ∧ s.metadata.Fits) ∧
        ∃ e t, initialise.run s = .error e t ∧ t.tables = s.tables ∧ t.btrees = s.btrees) := by
  cases halloc : Pager.allocatePage.run s.pager with
  | error e p' =>
    refine Or.inr ⟨?_, e, { s with pager := p' }, ?_, rfl, rfl⟩
    · rintro ⟨⟨id, p'', hrun, -⟩, -⟩
      rw [halloc] at hrun
      cases hrun
    · have hthrow : (onPager Pager.allocatePage).run s = .error e { s with pager := p' } := by
        show onPager Pager.allocatePage s = _
        rw [onPager, halloc]
      rw [initialise]
      rw [EStateM.run_bind, hthrow]
  | ok id p' =>
    have hrun : initialise.run s =
        (do
          saveMetadata
          modify fun s => { s with opened := true }
          return .sentinel : EStateM Fault LocalFileStorageProvider DbError).run
            { s with pager := p', metaPageId := id } := by
      rw [initialise]
      rw [EStateM.run_bind, run_onPager_ok halloc]
      rfl
    -- a page that is not on the file cannot take the catalogue
    by_cases hid : id ≠ 0 ∧ id.toNat < p'.header.pageCount.toNat
    · rcases saveMetadata_cases (s := { s with pager := p', metaPageId := id }) hid.1 hid.2 with
        ⟨hfits, hsave⟩ | ⟨hbig, e, hsave⟩
      · refine Or.inl ⟨id, p', rfl, hid.1, hid.2, hfits, ?_⟩
        rw [hrun, EStateM.run_bind, hsave]
        rfl
      · refine Or.inr ⟨fun h => hbig h.2, e, { s with pager := p', metaPageId := id }, ?_, rfl, rfl⟩
        rw [hrun, EStateM.run_bind, hsave]
    · refine Or.inr ⟨?_, ?_⟩
      · rintro ⟨⟨id', p'', hrun', hid'⟩, -⟩
        rw [halloc] at hrun'
        cases hrun'
        exact hid hid'
      · obtain ⟨e, hsave⟩ := saveMetadata_invalid (s := { s with pager := p', metaPageId := id }) hid
        refine ⟨e, { s with pager := p', metaPageId := id }, ?_, rfl, rfl⟩
        rw [hrun, EStateM.run_bind, hsave]

/-! ## What a provider shows -/

/-- Tables, rows and counters of the two providers are the same. -/
structure SameView (s u : LocalFileStorageProvider) : Prop where
  describeTable : ∀ name, s.describeTable name = u.describeTable name
  get : ∀ txn table key, s.get txn table key = u.get txn table key
  scan : ∀ txn table, s.scan txn table = u.scan txn table
  visibleSeq : s.visibleSeq = u.visibleSeq
  internalSeq : s.internalSeq = u.internalSeq

/-- No table and no row is visible. -/
structure ShowsNothing (s : LocalFileStorageProvider) : Prop where
  describeTable : ∀ name, s.describeTable name = none
  get : ∀ txn table key, s.get txn table key = .ok none
  scan : ∀ txn table, s.scan txn table = .ok []

/-- Every tree object belongs to a registered table. -/
def TreesRegistered (s : LocalFileStorageProvider) : Prop :=
  ∀ name, s.tables.find name = none → s.btrees.find name = none

theorem eq_empty_iff {β : Type} {m : AssocMap Bytes β} : m = .empty ↔ ∀ name, m.find name = none := by
  constructor
  · rintro rfl name
    rfl
  · intro h
    refine AssocMap.ext (List.eq_nil_iff_forall_not_mem.2 fun e he => ?_)
    have hfind := AssocMap.find_of_mem he
    rw [h] at hfind
    cases hfind

theorem describeTable_eq_none_iff {name : Bytes} :
    s.describeTable name = none ↔ s.tables.find name = none := Option.map_eq_none_iff

theorem showsNothing_iff (h : s.TreesRegistered) : s.ShowsNothing ↔ s.tables = .empty := by
  constructor
  · intro hnothing
    exact eq_empty_iff.2 fun name => describeTable_eq_none_iff.1 (hnothing.describeTable name)
  · intro hempty
    have htables := eq_empty_iff.1 hempty
    have htrees : ∀ name, s.btrees.find name = none := fun name => h name (htables name)
    refine ⟨fun name => describeTable_eq_none_iff.2 (htables name), fun txn table key => ?_,
      fun txn table => ?_⟩
    · rw [LocalFileStorageProvider.get, htrees]
    · rw [LocalFileStorageProvider.scan, scanTree, htrees]
      rfl

theorem sameView_of_find {u : LocalFileStorageProvider} (hpager : s.pager = u.pager)
    (htables : ∀ name, s.tables.find name = u.tables.find name)
    (hbtrees : ∀ name, s.btrees.find name = u.btrees.find name) (hvisible : s.visibleSeq = u.visibleSeq)
    (hinternal : s.internalSeq = u.internalSeq) : SameView s u := by
  refine ⟨fun name => ?_, fun txn table key => ?_, fun txn table => ?_, hvisible, hinternal⟩
  · rw [LocalFileStorageProvider.describeTable, LocalFileStorageProvider.describeTable, htables]
  · rw [LocalFileStorageProvider.get, LocalFileStorageProvider.get, hbtrees, hpager, hvisible]
  · rw [LocalFileStorageProvider.scan, LocalFileStorageProvider.scan, scanTree, scanTree, hbtrees,
      hpager, hvisible]

/-! ## When nothing shines through -/

/-- What the opening of the file has to show: all that a new provider shows of it, or nothing at all
when it fails. -/
def OpensRight (s : LocalFileStorageProvider) (file : Image) : Prop :=
  match (openFile file).run s with
  | .ok r t =>
    if r.isSentinel then
      ∃ u, (openFile file).run (new s.pager.capacity s.capacity_lt) = .ok .sentinel u ∧
        SameView t u
    else ShowsNothing t
  | .error _ t => ShowsNothing t

/-- What is left in the provider is not seen after the opening. There is no table left when the file
has none or cannot be opened, and for a new file no counter either; what the metadata page of an
existing file has is all that is left, or the page breaks off in front of its first table. -/
def Covered (s : LocalFileStorageProvider) (file : Image) : Prop :=
  match s.pagerOf file with
  | .error _ _ => s.tables = .empty
  | .ok _ p =>
    if p.header.pageCount ≤ 1 then
      s.tables = .empty ∧ (CanInitialise p → s.visibleSeq = 0 ∧ s.internalSeq = 0)
    else
      match p.readPage 1 with
      | none => s.tables = .empty
      | some page =>
        if (storedIn page).1 then
          ∀ name, s.tables.find name ≠ none → (storedIn page).2.tables.find name ≠ none
        else s.tables = .empty ∧ (storedIn page).2.tables = .empty

theorem isSentinel_corrupted : corrupted.isSentinel = false := by decide

theorem isSentinel_cannotOpen (what : Bytes) : (cannotOpen what).isSentinel = false := by
  rw [DbError.isSentinel, cannotOpen]
  exact List.isEmpty_eq_false_iff.2 (List.append_ne_nil_of_left_ne_nil (by decide) what)

/-- A file that the pager cannot open. -/
theorem opens_right_of_error {e : Fault} (h : s.opened = false) (htrees : s.TreesRegistered)
    (hpager : s.pagerOf file = .error e p) : s.OpensRight file ↔ s.tables = .empty := by
  have hshows : ({ s with pager := p } : LocalFileStorageProvider).ShowsNothing ↔
      s.tables = .empty := showsNothing_iff htrees
  rw [OpensRight]
  cases e with
  | runtimeError what =>
    rw [run_openFile_cannot h hpager]
    dsimp only
    rw [isSentinel_cannotOpen, if_neg Bool.false_ne_true]
    exact hshows
  | _ =>
    rw [run_openFile_fault h rfl hpager]
    exact hshows

/-- A file with no more than its header page. -/
theorem opens_right_of_new (h : s.opened = false) (htrees : s.TreesRegistered)
    (hpager : s.pagerOf file = .ok () p) (hcount : p.header.pageCount ≤ 1) :
    s.OpensRight file ↔
      (s.tables = .empty ∧ (CanInitialise p → s.visibleSeq = 0 ∧ s.internalSeq = 0)) := by
  have hfresh : (openFile file).run (new s.pager.capacity s.pager.capacity_lt) =
      initialise.run { new s.pager.capacity s.pager.capacity_lt with pager := p } :=
    run_openFile_new rfl hpager hcount
  rw [OpensRight]
  rw [run_openFile_new h hpager hcount, hfresh]
  rcases initialise_cases { s with pager := p } with ⟨id, p', halloc, hid, hlt, hfits, hrun⟩ |
    ⟨hnot, e, t, hrun, htables, hbtrees⟩
  · have hcan : CanInitialise p := ⟨id, p', halloc, hid, hlt⟩
    rw [hrun]
    dsimp only
    rw [if_pos (show DbError.sentinel.isSentinel = true from rfl)]
    rcases initialise_cases { new s.pager.capacity s.pager.capacity_lt with pager := p } with
      ⟨id', p'', halloc', -, -, -, hrun'⟩ | ⟨hnot, -⟩
    · rw [show Pager.allocatePage.run p = _ from halloc] at halloc'
      cases halloc'
      rw [hrun']
      constructor
      · rintro ⟨u, hu, hview⟩
        cases hu
        refine ⟨eq_empty_iff.2 fun name => describeTable_eq_none_iff.1 (hview.describeTable name),
          fun _ => ⟨hview.visibleSeq, hview.internalSeq⟩⟩
      · rintro ⟨hempty, hseqs⟩
        obtain ⟨hvisible, hinternal⟩ := hseqs hcan
        refine ⟨_, rfl, sameView_of_find ?_ ?_ ?_ hvisible hinternal⟩
        · have hmetadata : ({ s with pager := p } : LocalFileStorageProvider).metadata =
              ({ new s.pager.capacity s.pager.capacity_lt with pager := p } :
                LocalFileStorageProvider).metadata := by
            show Metadata.mk s.visibleSeq s.internalSeq s.tables = _
            rw [hvisible, hinternal, hempty]
            rfl
          exact congrArg (fun m => p'.withPage id (metadataPage m)) hmetadata
        · exact eq_empty_iff.1 hempty
        · exact fun name => htrees name (eq_empty_iff.1 hempty name)
    -- an empty catalogue always fits
    · refine absurd ⟨hcan, ?_⟩ hnot
      show 20 ≤ 4088
      norm_num
  · rw [hrun]
    have hshows : t.ShowsNothing ↔ s.tables = .empty := by
      rw [showsNothing_iff, htables]
      intro name hname
      rw [htables] at hname
      rw [hbtrees]
      exact htrees name hname
    dsimp only
    rw [hshows]
    refine ⟨fun hempty => ⟨hempty, fun hcan => absurd ⟨hcan, ?_⟩ hnot⟩, And.left⟩
    rw [show ({ s with pager := p } : LocalFileStorageProvider).metadata =
      ⟨s.visibleSeq, s.internalSeq, s.tables⟩ from rfl, hempty]
    show 20 ≤ 4088
    norm_num

theorem find_reopened (name : Bytes) (page : Bytes) :
    (s.reopened p page).tables.find name =
      ((storedIn page).2.tables.find name).or (s.tables.find name) :=
  (loadMetadata_over s.metadata page).2.1 name

/-- An existing file. -/
theorem opens_right_of_existing (h : s.opened = false) (htrees : s.TreesRegistered)
    (hpager : s.pagerOf file = .ok () p) (hcount : ¬ p.header.pageCount ≤ 1) :
    s.OpensRight file ↔
      match p.readPage 1 with
      | none => s.tables = .empty
      | some page =>
        if (storedIn page).1 then
          ∀ name, s.tables.find name ≠ none → (storedIn page).2.tables.find name ≠ none
        else s.tables = .empty ∧ (storedIn page).2.tables = .empty := by
  have hfresh := run_openFile_existing (s := new s.pager.capacity s.pager.capacity_lt) rfl hpager hcount
  rw [OpensRight]
  rw [run_openFile_existing h hpager hcount, hfresh]
  cases p.readPage 1 with
  | none =>
    dsimp only
    rw [isSentinel_corrupted, if_neg Bool.false_ne_true]
    exact showsNothing_iff htrees
  | some page =>
    have hfind : ∀ name, (s.reopened p page).tables.find name =
        ((storedIn page).2.tables.find name).or (s.tables.find name) := fun name =>
      find_reopened name page
    have hfindNew : ∀ name,
        ((new s.pager.capacity s.pager.capacity_lt).reopened p page).tables.find name =
          ((storedIn page).2.tables.find name).or none := fun name => find_reopened name page
    dsimp only
    cases hok : (storedIn page).1 with
    | true =>
      simp only [if_true]
      rw [if_pos (show DbError.sentinel.isSentinel = true from rfl)]
      constructor
      · rintro ⟨u, hu, hview⟩ name hname hnone
        cases hu
        have hnew : ((new s.pager.capacity s.pager.capacity_lt).reopened p page).describeTable name =
            none := describeTable_eq_none_iff.2 (by rw [hfindNew, hnone]; rfl)
        -- a table the page does not record is unknown to a new engine
        have hlost := describeTable_eq_none_iff.1 ((hview.describeTable name).trans hnew)
        rw [hfind, hnone] at hlost
        exact hname hlost
      · intro hcovered
        -- every table held before is recorded too, and the record wins
        have htables : ∀ name, (s.reopened p page).tables.find name =
            ((new s.pager.capacity s.pager.capacity_lt).reopened p page).tables.find name := by
          intro name
          rw [hfind, hfindNew]
          cases hstored : (storedIn page).2.tables.find name with
          | some info => rfl
          | none =>
            rw [Option.none_or, Option.none_or]
            by_contra hname
            exact hcovered name hname hstored
        obtain ⟨-, -, hseqs⟩ := loadMetadata_over s.metadata page
        obtain ⟨-, -, hseqsNew⟩ :=
          loadMetadata_over (new s.pager.capacity s.pager.capacity_lt).metadata page
        refine ⟨_, rfl, sameView_of_find rfl htables ?_ ?_ ?_⟩
        · intro name
          show (withTrees s.btrees (s.reopened p page).tables).find name =
            (withTrees .empty ((new s.pager.capacity s.pager.capacity_lt).reopened p page).tables).find
              name
          rw [find_withTrees, find_withTrees, htables]
          cases hboth : ((new s.pager.capacity s.pager.capacity_lt).reopened p page).tables.find name with
          | some info => rfl
          | none =>
            have hnone := (htables name).trans hboth
            rw [hfind, Option.or_eq_none_iff] at hnone
            exact htrees name hnone.2
        · exact (hseqs hok).1.trans (hseqsNew hok).1.symm
        · exact (hseqs hok).2.trans (hseqsNew hok).2.symm
    | false =>
      simp only [Bool.false_eq_true, if_false]
      rw [isSentinel_corrupted, if_neg Bool.false_ne_true, showsNothing_iff]
      · have hfind' : ∀ name, (s.brokenOff p page).tables.find name =
            ((storedIn page).2.tables.find name).or (s.tables.find name) := hfind
        rw [eq_empty_iff, eq_empty_iff, eq_empty_iff, ← forall_and]
        refine forall_congr' fun name => ?_
        rw [hfind', Option.or_eq_none_iff]
        exact and_comm
      · intro name hnone
        have hfind' : (s.brokenOff p page).tables.find name =
            ((storedIn page).2.tables.find name).or (s.tables.find name) := hfind name
        rw [hfind', Option.or_eq_none_iff] at hnone
        exact htrees name hnone.2

/-- An opening is right exactly if what is left in the provider is covered. -/
theorem opens_right_iff (h : s.opened = false) (htrees : s.TreesRegistered) :
    s.OpensRight file ↔ s.Covered file := by
  rw [Covered]
  cases hpager : s.pagerOf file with
  | error e p => exact opens_right_of_error h htrees hpager
  | ok _ p =>
    dsimp only
    split_ifs with hcount
    · exact opens_right_of_new h htrees hpager hcount
    · exact opens_right_of_existing h htrees hpager hcount

/-! ## Runs -/

/-- A call on the provider. -/
inductive Reuse where
  | openFile (file : Image)
  | close

def Reuse.exec : Reuse → EStateM Fault LocalFileStorageProvider DbError
  | .openFile file => LocalFileStorageProvider.openFile file
  | .close => LocalFileStorageProvider.close

/-- A call that returns or throws. -/
def reuse (s : LocalFileStorageProvider) (c : Reuse) : Option LocalFileStorageProvider :=
  match c.exec.run s with
  | .ok _ t => some t
  | .error e t => if e.isThrown then some t else none

theorem reuse_eq_endState {t : LocalFileStorageProvider} {c : Reuse} (h : reuse s c = some t) :
    t = endState (c.exec.run s) := by
  rw [reuse] at h
  cases hrun : c.exec.run s with
  | ok r t' =>
    rw [hrun] at h
    exact (Option.some.inj h).symm
  | error e t' =>
    rw [hrun] at h
    dsimp only at h
    split_ifs at h
    exact (Option.some.inj h).symm

theorem preserves_treesRegistered_onPager {α : Type} (x : EStateM Fault Pager α) :
    Preserves TreesRegistered (onPager x) := by
  intro s h
  show TreesRegistered (endState (onPager x s))
  rw [onPager]
  cases x.run s.pager <;> exact h

theorem preserves_treesRegistered_saveMetadata : Preserves TreesRegistered saveMetadata := by
  refine .get_bind fun s h => ?_
  cases encodeMetadata s.metadata with
  | error e => exact h
  | ok page =>
    exact (Preserves.bind (preserves_treesRegistered_onPager _) fun _ => .pure ()) s h

/-- A closed provider still has its tree objects. -/
theorem preserves_treesRegistered_close : Preserves TreesRegistered close := by
  refine .get_bind fun s h => ?_
  split_ifs
  · exact h
  · refine (preserves_treesRegistered_saveMetadata.bind fun _ => ?_) s h
    refine (preserves_treesRegistered_onPager _).bind fun _ => ?_
    refine Preserves.bind (.modify fun s h name hname => ?_) fun _ => .pure _
    rw [AssocMap.find_mapValues, h name hname]
    rfl

theorem preserves_treesRegistered_openFile (file : Image) :
    Preserves TreesRegistered (openFile file) := by
  intro s htrees
  cases hopened : s.opened with
  | true =>
    -- an engine that is open already is left as it is
    have hrun : (openFile file).run s = .ok .sentinel s := by
      rw [openFile]
      rw [EStateM.run_bind, EStateM.run_get]
      dsimp only
      rw [if_pos hopened]
      rfl
    rw [hrun]
    exact htrees
  | false =>
    cases hpager : s.pagerOf file with
    | error e p =>
      cases e with
      | runtimeError what =>
        rw [run_openFile_cannot hopened hpager]
        exact htrees
      | _ =>
        rw [run_openFile_fault hopened rfl hpager]
        exact htrees
    | ok _ p =>
      by_cases hcount : p.header.pageCount ≤ 1
      · rw [run_openFile_new hopened hpager hcount]
        rcases initialise_cases { s with pager := p } with ⟨id, p', -, -, -, -, hrun⟩ |
          ⟨-, e, t, hrun, htables, hbtrees⟩
        · rw [hrun]
          exact htrees
        · rw [hrun]
          intro name hname
          rw [endState_error, htables] at hname
          rw [endState_error, hbtrees]
          exact htrees name hname
      · rw [run_openFile_existing hopened hpager hcount]
        cases p.readPage 1 with
        | none => exact htrees
        | some page =>
          -- what the page records comes before what the engine held, and every record gets a tree
          have hfind := (loadMetadata_over s.metadata page).2.1
          dsimp only
          split_ifs with hok
          · intro name hname
            change (OpenDB.loadMetadata s.metadata page).2.tables.find name = none at hname
            show (withTrees s.btrees (OpenDB.loadMetadata s.metadata page).2.tables).find name = none
            rw [find_withTrees, hname, Option.map_none, Option.none_or]
            rw [hfind, Option.or_eq_none_iff] at hname
            exact htrees name hname.2
          · intro name hname
            change (OpenDB.loadMetadata s.metadata page).2.tables.find name = none at hname
            rw [hfind, Option.or_eq_none_iff] at hname
            exact htrees name hname.2

theorem reuse_registered {s t : LocalFileStorageProvider} {c : Reuse} (htrees : s.TreesRegistered)
    (h : reuse s c = some t) : t.TreesRegistered := by
  rw [reuse_eq_endState h]
  cases c with
  | openFile file => exact preserves_treesRegistered_openFile file s htrees
  | close => exact preserves_treesRegistered_close s htrees

/-- In every run of openings and closings in which no opening finds the provider open, the openings
show what their files have exactly if none of them finds something left that the file does not
cover. -/
theorem provider_reuse_iff {capacity : Nat} {hcap : capacity < 2 ^ 32}
    {trace : List (LocalFileStorageProvider × Reuse)}
    (hrun : Run reuse (LocalFileStorageProvider.new capacity hcap) trace s)
    (hclosed : ∀ u file, (u, Reuse.openFile file) ∈ trace → u.opened = false) :
    (∀ u file, (u, Reuse.openFile file) ∈ trace → u.OpensRight file) ↔
      ∀ u file, (u, Reuse.openFile file) ∈ trace → u.Covered file := by
  have hnew : (LocalFileStorageProvider.new capacity hcap).TreesRegistered := fun _ _ => rfl
  have hkeep : ∀ u c t, u.TreesRegistered → reuse u c = some t →
      u.TreesRegistered ∧ t.TreesRegistered := fun u c t hu hstep => ⟨hu, reuse_registered hu hstep⟩
  have htrees : ∀ e ∈ trace, e.1.TreesRegistered := (hrun.invariant_and_forall hnew hkeep).2
  constructor
  · intro hright u file hmem
    exact (opens_right_iff (hclosed u file hmem) (htrees _ hmem)).1 (hright u file hmem)
  · intro hcovered u file hmem
    exact (opens_right_iff (hclosed u file hmem) (htrees _ hmem)).2 (hcovered u file hmem)

/-- A closed provider opens the file that another has made and closed: the page of the file says what
that one had. -/
theorem run_openFile_shut {t : LocalFileStorageProvider} {live : List PageId} (ht : Running t live)
    (hfits : FitsPage t) (hmagic : t.pager.header.magic = Pager.magic) (h : s.opened = false)
    (hcapacity : s.pager.capacity = t.pager.capacity) :
    (openFile t.shut.pager.file).run s =
        .ok .sentinel (s.reopened t.restarted.pager (metadataPage t.metadata)) ∧
      (s.Covered t.shut.pager.file ↔ ∀ name, s.tables.find name ≠ none → t.tables.find name ≠ none) := by
  have hsaved := ht.saved
  have hpage := Pager.file_zero_writeHeader hsaved.length_file_pos
  have hpager : s.pagerOf t.shut.pager.file = .ok () t.restarted.pager := by
    have hrun := Pager.run_openFile_header t.pager.capacity_lt hpage hmagic hsaved.version
    show Pager.openFile.run (Pager.unloaded _ s.pager.capacity _) = _
    simp only [hcapacity]
    exact hrun
  have hread := (ht.readPage_restarted 1).trans (ht.readPage_saved hfits.1)
  have hcount : ¬ t.restarted.pager.header.pageCount ≤ 1 := by
    rw [UInt32.le_iff_toNat_le]
    exact not_le.2 (Pager.lt_of_readPage hread).2
  have hstored : storedIn (metadataPage t.metadata) = (true, t.metadata.persisted) :=
    loadMetadata_metadataPage hfits.1 hfits.2 rfl
  constructor
  · rw [run_openFile_existing h hpager hcount, hread]
    dsimp only
    rw [hstored, if_pos rfl]
  · rw [Covered, hpager]
    dsimp only
    rw [if_neg hcount, hread]
    dsimp only
    rw [hstored, if_pos rfl]
    refine forall_congr' fun name => imp_congr_right fun _ => ?_
    rw [show t.metadata.persisted.tables.find name = _ from t.metadata.find_persisted name, ne_eq,
      Option.map_eq_none_iff]
    rfl

/-- A provider opens a file with the table `t`, is closed, and opens another file that has the tables
`t` and `u`: both openings show what the files have. -/
theorem provider_reuse_iff_two_files : ∃ file file' s₁ s₂ s₃,
    Run reuse (LocalFileStorageProvider.new 16 (by decide))
        [(LocalFileStorageProvider.new 16 (by decide), .openFile file), (s₁, .close),
          (s₂, .openFile file')] s₃ ∧
      s₂.describeTable (ascii "t") ≠ none ∧ s₂.describeTable (ascii "u") = none ∧
      (LocalFileStorageProvider.new 16 (by decide)).OpensRight file ∧ s₂.OpensRight file' := by
  obtain ⟨t, root, hist, htables, hmagic⟩ := exists_history_first_table
  obtain ⟨_, _, _, _, t', root₁, root₂, htwo⟩ := exists_twoTables
  obtain ⟨-, hist', -, hmagic', hfits'⟩ := htwo.history
  have hfits : FitsPage t := fits_first_table htables
  obtain ⟨F, hsound, hsync⟩ := hist.sound
  obtain ⟨F', hsound', -⟩ := hist'.sound
  have hcapacity : t.pager.capacity = 16 := hist.capacity_eq
  -- the first file, opened by a new provider
  obtain ⟨-, hcovered⟩ := @run_openFile_shut (LocalFileStorageProvider.new 16 (by decide)) t _
    hsound.running hfits hmagic rfl hcapacity.symm
  have hrestart : Restart t t.restarted :=
    (hsound.running.restart_iff_kept hfits.2 hmagic).2 ⟨hfits.1, rfl⟩
  have hopen : (openFile t.shut.pager.file).run (LocalFileStorageProvider.new 16 (by decide)) =
      .ok .sentinel t.restarted := by
    have hnew : LocalFileStorageProvider.new t.pager.capacity t.pager.capacity_lt =
        LocalFileStorageProvider.new 16 (by decide) := by
      congr 1
    rw [← hnew]
    exact (hsound.running.restart_iff.1 hrestart).2
  obtain ⟨hsound₁, -, -⟩ := hsound.restart_kept (hsync rfl) hfits.2 hmagic hrestart
  have htables₁ : t.restarted.tables.entries = [(ascii "t", ⟨emptySchema (ascii "t"), root, 0⟩)] := by
    show t.tables.entries.map _ = _
    rw [htables]
    rfl
  have hclose : close.run t.restarted = .ok .sentinel t.restarted.shut := by
    rcases hsound₁.running.run_close with ⟨-, hclose⟩ | ⟨hbig, -⟩
    · exact hclose
    · exact absurd (fits_first_table htables₁).1 hbig
  -- the second file, opened by the provider that still has the table of the first
  obtain ⟨hopen', hcovered'⟩ := @run_openFile_shut t.restarted.shut t' _ hsound'.running hfits' hmagic' rfl
    (hcapacity.trans hist'.capacity_eq.symm)
  have hleft : ∀ name, t.restarted.shut.tables.find name = none ↔ name ∉ [ascii "t"] := by
    intro name
    show t.restarted.tables.find name = none ↔ _
    rw [AssocMap.find_eq_none_iff, htables₁]
    rfl
  have hstored : ∀ name, t'.tables.find name = none ↔ name ∉ [ascii "t", ascii "u"] := by
    intro name
    rw [AssocMap.find_eq_none_iff, htwo.tables]
    rfl
  have hfirst : reuse (LocalFileStorageProvider.new 16 (by decide)) (.openFile t.shut.pager.file) =
      some t.restarted := by
    rw [reuse, Reuse.exec, hopen]
  have hsecond : reuse t.restarted .close = some t.restarted.shut := by
    rw [reuse, Reuse.exec, hclose]
  have hthird : reuse t.restarted.shut (.openFile t'.shut.pager.file) =
      some (t.restarted.shut.reopened t'.restarted.pager (metadataPage t'.metadata)) := by
    rw [reuse, Reuse.exec, hopen']
  have hrun := ((Run.nil.snoc hfirst).snoc hsecond).snoc hthird
  have hopenings : ∀ {P : LocalFileStorageProvider → Image → Prop},
      P (LocalFileStorageProvider.new 16 (by decide)) t.shut.pager.file →
      P t.restarted.shut t'.shut.pager.file → ∀ u file, (u, Reuse.openFile file) ∈
        ([] ++ [(LocalFileStorageProvider.new 16 (by decide), Reuse.openFile t.shut.pager.file)] ++
          [(t.restarted, Reuse.close)]) ++ [(t.restarted.shut, Reuse.openFile t'.shut.pager.file)] →
      P u file := by
    intro P h₁ h₃ u file hmem
    simp only [List.nil_append, List.cons_append, List.mem_cons, List.not_mem_nil, or_false,
      Prod.mk.injEq] at hmem
    rcases hmem with ⟨rfl, h⟩ | ⟨-, h⟩ | ⟨rfl, h⟩
    · cases h
      exact h₁
    · cases h
    · cases h
      exact h₃
  have hright := (provider_reuse_iff hrun (hopenings rfl rfl)).2 (hopenings
    (hcovered.2 fun name hname => absurd rfl hname) (hcovered'.2 fun name hname hnone => by
      rw [ne_eq, hleft, not_not, List.mem_singleton] at hname
      rw [hstored, hname] at hnone
      exact hnone List.mem_cons_self))
  refine ⟨_, _, _, _, _, hrun, ?_, ?_, hright _ _ (by simp), hright _ _ (by simp)⟩
  · rw [ne_eq, describeTable_eq_none_iff, hleft]
    decide
  · rw [describeTable_eq_none_iff, hleft]
    decide

/-- A file with a table is opened and closed, and then a new file is opened: the table is still there,
though a new provider of that file has none. -/
theorem table_leaks_into_next_file : ∃ file s₁ s₂ s₃ u,
    (openFile file).run (LocalFileStorageProvider.new 16 (by decide)) = .ok .sentinel s₁ ∧
      close.run s₁ = .ok .sentinel s₂ ∧ (openFile []).run s₂ = .ok .sentinel s₃ ∧
      (openFile []).run (LocalFileStorageProvider.new 16 (by decide)) = .ok .sentinel u ∧
      s₃.describeTable (ascii "t") = some (emptySchema (ascii "t")) ∧
      u.describeTable (ascii "t") = none := by
  obtain ⟨u, s, root, hopen, hcreate, htables⟩ := exists_first_table
  obtain ⟨hsound₀, rfl⟩ := sound_new hopen
  obtain ⟨F, hstep⟩ := hsound₀.exec_ok
    (show (Op.createTable (emptySchema (ascii "t"))).exec.run _ = .ok .sentinel s from hcreate)
  obtain ⟨touched, hframe⟩ := hstep.frame
  have hsound := hstep.sound
  have hcapacity : s.pager.capacity = 16 := hframe.capacity
  have hmagic : s.pager.header.magic = Pager.magic := hframe.magic
  have hfits : s.metadata.Fits ∧ s.metadata.Short := fits_first_table htables
  have hrestart : Restart s s.restarted :=
    (hsound.running.restart_iff_kept hfits.2 hmagic).2 ⟨hfits.1, rfl⟩
  have hsync : Synced s F := hstep.synced rfl (Or.inr (synced_nil _))
  obtain ⟨hsound₁, -, -⟩ := hsound.restart_kept hsync hfits.2 hmagic hrestart
  obtain ⟨r, s₀, -, hopen₁⟩ := hrestart
  -- the second opening finds the table of the first file in the registry
  set s₁ := s.restarted with hs₁
  have htables₁ : s₁.tables.entries = [(ascii "t", ⟨emptySchema (ascii "t"), root, 0⟩)] := by
    show s.tables.entries.map _ = _
    rw [htables]
    rfl
  have hfits₁ : s₁.metadata.Fits := (fits_first_table htables₁).1
  rcases hsound₁.running.run_close with ⟨-, hclose⟩ | ⟨hbig, -⟩
  · have hnew : Pager.new s.pager.capacity s.pager.capacity_lt = Pager.new 16 (by decide) := by
      congr 1
    have hpager : s₁.shut.pagerOf [] = .ok () (Pager.new 16 (by decide)) := by
      rw [← hnew]
      exact Pager.run_openFile_nil _ _
    have hopen₃ := run_openFile_new (s := s₁.shut) rfl hpager (show (1 : UInt32) ≤ 1 by decide)
    rcases initialise_cases { s₁.shut with pager := Pager.new 16 (by decide) } with
      ⟨id, p', -, -, -, -, hinit⟩ | ⟨hnot, -⟩
    · rw [hinit] at hopen₃
      have hfresh : LocalFileStorageProvider.new s.pager.capacity s.pager.capacity_lt =
          LocalFileStorageProvider.new 16 (by decide) := by
        congr 1
      rw [hfresh] at hopen₁
      refine ⟨s₀.pager.file, s₁, s₁.shut, _, _, hopen₁, hclose, hopen₃, hopen, ?_, rfl⟩
      show (s₁.tables.find (ascii "t")).map TableInfo.schema = _
      rw [AssocMap.find, htables₁]
      rfl
    · have howns := Pager.owns_new (show 16 < 2 ^ 32 by decide) (by decide)
      have halloc := allocatePage_first howns rfl rfl (by decide)
      have hcan : CanInitialise (Pager.new 16 (by decide)) :=
        ⟨1, _, halloc, (Pager.allocatePage_ok howns halloc).1.range 1 (by simp)⟩
      exact absurd ⟨hcan, hfits₁⟩ hnot
  · exact absurd hfits₁ hbig

end LocalFileStorageProvider

end OpenDB
