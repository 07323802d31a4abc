import OpenDB.Storage.MetadataReader
import OpenDB.Storage.Promotion
import OpenDB.Storage.ProviderReuse

/-!
# Schemas after a restart

The metadata page enumerates the fields of a schema by hand. What it keeps of a column and of a partition
policy comes back when the provider is closed and the file opened again, by the same provider object or a
new one, for every table that operations have led to (`schema_persisted`). Boundaries and lists of a
partition policy are left out and come back empty.

That the name in a schema is the name of its table is an invariant of the registry (`Registered`), which
all operations keep: only a new table and a rename write a name, and both write it in both places.
-/

set_option autoImplicit false

namespace OpenDB

open OpenDB.Library

open LocalFileStorageProvider

/-! ## The registry -/

/-- Every schema has the name that its table is registered under, and every tree has a table. -/
structure Registered (s : LocalFileStorageProvider) : Prop where
  names : ∀ name info, s.tables.find name = some info → info.schema.table = name
  trees : s.TreesRegistered

namespace Registered

variable {s : LocalFileStorageProvider} {name : Bytes} {info info' : TableInfo}

theorem find_table (h : Registered s) {tree : Option PageId}
    (hfind : s.btrees.find name = some tree) : ∃ info, s.tables.find name = some info := by
  cases hinfo : s.tables.find name with
  | none =>
    rw [h.trees name hinfo] at hfind
    cases hfind
  | some info => exact ⟨info, rfl⟩

/-- A table under its own name. -/
theorem assignTable (h : Registered s) (htable : info.schema.table = name) :
    Registered { s with tables := s.tables.assign name info } := by
  constructor
  · intro other info' hother
    change (s.tables.assign name info).find other = some info' at hother
    by_cases hname : other = name
    · subst hname
      rw [AssocMap.find_assign_self] at hother
      cases hother
      exact htable
    · rw [AssocMap.find_assign_of_ne _ _ hname] at hother
      exact h.names other info' hother
  · intro other hother
    change (s.tables.assign name info).find other = none at hother
    by_cases hname : other = name
    · subst hname
      rw [AssocMap.find_assign_self] at hother
      cases hother
    · rw [AssocMap.find_assign_of_ne _ _ hname] at hother
      exact h.trees other hother

/-- A tree for a registered table. -/
theorem assignTree (h : Registered s) (p : Pager) (tree : Option PageId)
    (hfind : s.tables.find name = some info) :
    Registered { s with pager := p, btrees := s.btrees.assign name tree } := by
  refine ⟨h.names, fun other hother => ?_⟩
  have hne : other ≠ name := by
    rintro rfl
    cases hfind.symm.trans hother
  show (s.btrees.assign name tree).find other = none
  rw [AssocMap.find_assign_of_ne _ _ hne]
  exact h.trees other hother

/-- A table that has no tree. -/
theorem eraseTable (h : Registered s) (hfind : s.btrees.find name = none) :
    Registered { s with tables := s.tables.erase name } := by
  constructor
  · intro other info hother
    change (s.tables.erase name).find other = some info at hother
    by_cases hname : other = name
    · rw [hname, AssocMap.find_erase_self] at hother
      cases hother
    · rw [AssocMap.find_erase_of_ne _ hname] at hother
      exact h.names other info hother
  · intro other hother
    change (s.tables.erase name).find other = none at hother
    by_cases hname : other = name
    · rw [hname]
      exact hfind
    · rw [AssocMap.find_erase_of_ne _ hname] at hother
      exact h.trees other hother

/-- A tree goes, and the table with it. -/
theorem eraseBoth (h : Registered s) (name : Bytes) :
    Registered { s with tables := s.tables.erase name, btrees := s.btrees.erase name } := by
  have herased : Registered { s with btrees := s.btrees.erase name } := by
    refine ⟨h.names, fun other hother => ?_⟩
    show (s.btrees.erase name).find other = none
    by_cases hname : other = name
    · rw [hname, AssocMap.find_erase_self]
    · rw [AssocMap.find_erase_of_ne _ hname]
      exact h.trees other hother
  exact herased.eraseTable (AssocMap.find_erase_self _ _)

end Registered

/-! ## Operations keep the registry -/

section

variable (table : Bytes)

theorem preserves_registered_onPager {α : Type} (x : EStateM Fault Pager α) :
    Preserves Registered (onPager x) := by
  intro s h
  show Registered (endState (onPager x s))
  unfold onPager
  cases x.run s.pager <;> exact ⟨h.names, h.trees⟩

theorem preserves_registered_saveMetadata : Preserves Registered saveMetadata := by
  refine .get_bind fun s h => ?_
  cases encodeMetadata s.metadata with
  | error e => exact h
  | ok page => exact (Preserves.bind (preserves_registered_onPager _) fun _ => .pure ()) s h

/-- Whatever a call does to a tree, its table is registered already. -/
theorem preserves_registered_onTree {α : Type} (x : EStateM Fault BTree α) :
    Preserves Registered (onTree table x) := by
  intro s h
  show Registered (endState (onTree table x s))
  unfold onTree
  cases hfind : s.btrees.find table with
  | none => exact h
  | some tree =>
    obtain ⟨info, hinfo⟩ := h.find_table hfind
    cases tree with
    | none => exact h
    | some root =>
      dsimp only
      cases x.run ⟨s.pager, root⟩ with
      | ok a t => exact h.assignTree t.pager (some t.rootPageId) hinfo
      | error e t => exact h.assignTree t.pager (some t.rootPageId) hinfo

theorem Registered.table_tableInfo {s : LocalFileStorageProvider} {info : TableInfo}
    (h : Registered s) (hfind : s.tables.find table = some info) :
    (s.tableInfo table).schema.table = table := by
  rw [tableInfo, hfind]
  exact h.names table info hfind

theorem preserves_registered_syncRoot : Preserves Registered (syncRoot table) := by
  intro s h
  show Registered (endState (syncRoot table s))
  unfold syncRoot
  cases hfind : s.btrees.find table with
  | none => exact h
  | some tree =>
    obtain ⟨info, hinfo⟩ := h.find_table hfind
    cases tree with
    | none => exact h
    | some root => exact h.assignTable (h.table_tableInfo table hinfo)

theorem preserves_registered_createTable (schema : Schema) :
    Preserves Registered (createTable schema) := by
  refine .get_bind fun s h => ?_
  split_ifs
  · exact h
  · exact h
  · cases schema.columns.find? fun col => !accepts col.type with
    | some col => exact h
    | none =>
      dsimp only
      cases BTree.createNew.run ⟨s.pager, 0⟩ with
      | error e t => exact ⟨h.names, h.trees⟩
      | ok root t =>
        have htable : Registered { s with
            tables := s.tables.assign schema.table ⟨schema, root, 0⟩ } := h.assignTable rfl
        have hboth := htable.assignTree t.pager (some root) (AssocMap.find_assign_self _ _ _)
        exact (Preserves.bind preserves_registered_saveMetadata fun _ => .pure _) _ hboth

theorem preserves_registered_dropTable (name : Bytes) : Preserves Registered (dropTable name) := by
  have hdrop : Preserves Registered (do
      modify fun s => { s with tables := s.tables.erase name, btrees := s.btrees.erase name }
      saveMetadata
      return DbError.sentinel : EStateM Fault LocalFileStorageProvider DbError) :=
    .bind (.modify fun s h => h.eraseBoth name) fun _ =>
      .bind preserves_registered_saveMetadata fun _ => .pure _
  refine .get_bind fun s h => ?_
  split_ifs
  · exact h
  · exact h
  · exact (Preserves.bind (preserves_registered_onTree name _) fun _ => hdrop) s h
  · exact hdrop s h

theorem preserves_registered_alterTable (name : Bytes) (spec : AlterSpec) :
    Preserves Registered (alterTable name spec) := by
  have hsave : Preserves Registered (do
      saveMetadata
      return DbError.sentinel : EStateM Fault LocalFileStorageProvider DbError) :=
    .bind preserves_registered_saveMetadata fun _ => .pure _
  refine .get_bind fun s h => ?_
  split_ifs
  · exact h
  · cases hfind : s.tables.find name with
    | none => exact h
    | some info =>
      have htable := h.names name info hfind
      cases spec with
      | addColumn columnDef =>
        dsimp only
        split_ifs
        · exact h
        · exact hsave _ (h.assignTable htable)
      | dropColumn column =>
        dsimp only
        split_ifs
        · exact h
        · exact hsave _ (h.assignTable htable)
      | renameTable newName =>
        dsimp only
        split_ifs
        · exact h
        · exact h
        · cases htree : s.btrees.find name with
          | none =>
            have herased := h.eraseTable htree
            exact hsave _ (herased.assignTable rfl)
          | some tree =>
            have hmoved : Registered { s with
                tables := (s.tables.erase name).assign newName
                  { info with schema := { info.schema with table := newName } }
                btrees := s.btrees.erase name } := (h.eraseBoth name).assignTable rfl
            exact hsave _ (hmoved.assignTree s.pager tree (AssocMap.find_assign_self _ _ _))

theorem preserves_registered_put (txn : UInt64) (key : Value) (row : Tuple) :
    Preserves Registered (put txn table key row) := by
  refine .get_bind fun s h => ?_
  split_ifs with hnone
  · exact h
  · -- the counter of the table moves first, if the key is null
    have heff : Registered (endState ((effectiveRow table key row).run s)) := by
      unfold effectiveRow
      split_ifs
      · rw [Bool.not_eq_true, Option.isNone_eq_false_iff, Option.isSome_iff_exists] at hnone
        obtain ⟨tree, htree⟩ := hnone
        obtain ⟨info, hinfo⟩ := h.find_table htree
        exact h.assignTable (h.table_tableInfo table hinfo)
      · exact h
    apply endState_bind
    · intro e t hrun
      rw [hrun] at heff
      exact heff
    · rintro ⟨key', row'⟩ t hrun
      rw [hrun] at heff
      refine Preserves.bind (preserves_registered_onTree table _) (fun _ => ?_) t heff
      exact .bind (preserves_registered_syncRoot table) fun _ => .pure _

theorem preserves_registered_remove (txn : UInt64) (key : Value) :
    Preserves Registered (remove txn table key) := by
  refine .get_bind fun s h => ?_
  split_ifs
  · exact h
  · exact (Preserves.bind (preserves_registered_onTree table _) fun _ => .pure _) s h

theorem preserves_registered_promoteAll (txn seq : UInt64) (tables : List Bytes) :
    Preserves Registered (promoteAll txn seq tables) := by
  induction tables with
  | nil => exact .pure ()
  | cons table tables ih =>
    apply Preserves.bind (preserves_registered_onTree table _)
    intro _
    exact .bind (preserves_registered_syncRoot table) fun _ => ih

theorem preserves_registered_commit (txn seq : UInt64) : Preserves Registered (commit txn seq) := by
  refine .get_bind fun s h => ?_
  refine (Preserves.bind (preserves_registered_promoteAll txn seq _) fun _ => ?_) s h
  apply Preserves.bind preserves_registered_saveMetadata
  intro _
  exact .bind (.modify fun s h => ⟨h.names, h.trees⟩) fun _ => .pure _

theorem preserves_registered_exec (op : Op) : Preserves Registered op.exec := by
  cases op with
  | createTable schema => exact preserves_registered_createTable schema
  | dropTable name => exact preserves_registered_dropTable name
  | alterTable name spec => exact preserves_registered_alterTable name spec
  | put txn table key row => exact preserves_registered_put table txn key row
  | remove txn table key => exact preserves_registered_remove table txn key
  | prepare txn => exact .pure _
  | commit txn seq => exact preserves_registered_commit txn seq
  | commitNext txn =>
    refine .get_bind fun s h => ?_
    refine (Preserves.bind (.modify fun s h => ?_) fun _ => preserves_registered_commit txn _) s h
    exact ⟨h.names, h.trees⟩
  | abort txn => exact .pure _

end

/-! ## What a restart finds -/

theorem Running.registered_restart {s s' : LocalFileStorageProvider} {live : List PageId}
    (h : Running s live) (hshort : s.metadata.Short) (hrestart : Restart s s') : Registered s' := by
  constructor
  · intro name info hfind
    by_cases hmagic : s.pager.header.magic = Pager.magic
    · obtain ⟨-, rfl⟩ := (h.restart_iff_kept hshort hmagic).1 hrestart
      change s.metadata.persisted.tables.find name = some info at hfind
      rw [Metadata.find_persisted, Option.map_eq_some_iff] at hfind
      obtain ⟨info₀, -, rfl⟩ := hfind
      rfl
    · obtain ⟨-, -, rfl⟩ := (h.restart_iff_lost hmagic).1 hrestart
      cases hfind
  · obtain ⟨r, s₁, -, hopen⟩ := hrestart
    exact (preserves_treesRegistered_openFile _).of_ok (fun _ _ => rfl) hopen

theorem Reachable.registered {capacity : Nat} {hcap : capacity < 2 ^ 32}
    {s : LocalFileStorageProvider} (h : Reachable capacity hcap s) : Registered s := by
  induction h with
  | opened hopen =>
    rw [(sound_new hopen).2]
    exact ⟨fun _ _ hfind => (nomatch hfind), fun _ _ => rfl⟩
  | returned _ hcall ih => exact (preserves_registered_exec _).of_ok ih hcall
  | threw _ hcall _ ih => exact (preserves_registered_exec _).of_error ih hcall
  | restart hs hshort hrestart _ =>
    obtain ⟨F, lost, hintact⟩ := hs.intact
    exact hintact.running.registered_restart hshort hrestart

/-! ## Schemas -/

/-- `schema'` is `schema` as far as the metadata page keeps it, and its partition policy has no
boundaries and lists. The default values of the columns are left open. -/
structure Schema.ComesBackAs (schema schema' : Schema) : Prop where
  table : schema'.table = schema.table
  columns : schema'.columns.map ColumnDef.saved = schema.columns.map ColumnDef.saved
  partition : schema'.partition.map PartitionPolicy.saved = schema.partition.map PartitionPolicy.saved
  unbounded : ∀ pp ∈ schema'.partition, pp.boundaries = [] ∧ pp.lists = []

theorem TableInfo.comesBackAs_persisted {name : Bytes} {info : TableInfo}
    (htable : info.schema.table = name) :
    info.schema.ComesBackAs (info.persisted name).schema := by
  have hrestores := info.restores_persisted name
  refine ⟨htable.symm, hrestores.columns, hrestores.partition, ?_⟩
  intro pp hpp
  obtain ⟨pp₀, -, rfl⟩ := Option.map_eq_some_iff.1 (Option.mem_def.1 hpp)
  exact ⟨rfl, rfl⟩

/-- The tables of `s'` are those of `s`, each as it comes back from its page. -/
theorem Registered.schemas {s s' : LocalFileStorageProvider} (h : Registered s)
    (htables : ∀ name, s'.tables.find name = (s.tables.find name).map (TableInfo.persisted name))
    (name : Bytes) :
    Option.Rel Schema.ComesBackAs (s.describeTable name) (s'.describeTable name) := by
  unfold describeTable
  rw [htables]
  cases hfind : s.tables.find name with
  | none => exact .none
  | some info => exact .some (TableInfo.comesBackAs_persisted (h.names name info hfind))

namespace Running

variable {s : LocalFileStorageProvider} {live : List PageId}

/-- The pager that the next opening gets. -/
theorem pagerOf_shut (h : Running s live) (hmagic : s.pager.header.magic = Pager.magic) :
    s.shut.pagerOf s.shut.pager.file = .ok () s.restarted.pager := by
  have hpage := Pager.file_zero_writeHeader h.saved.length_file_pos
  exact Pager.run_openFile_header s.pager.capacity_lt hpage hmagic h.saved.version

/-- The provider object that was closed opens the file again. -/
theorem reopen (h : Running s live) (hfits : s.metadata.Fits) (hshort : s.metadata.Short)
    (hmagic : s.pager.header.magic = Pager.magic) :
    ∃ s', (openFile s.shut.pager.file).run s.shut = .ok .sentinel s' ∧
      ∀ name, s'.tables.find name = (s.tables.find name).map (TableInfo.persisted name) := by
  have hread := (h.readPage_restarted 1).trans (h.readPage_saved hfits)
  have hmany : ¬ s.restarted.pager.header.pageCount ≤ 1 := by
    rw [UInt32.le_iff_toNat_le]
    exact not_le.2 (Pager.lt_of_readPage hread).2
  have hstored : storedIn (metadataPage s.metadata) = (true, s.metadata.persisted) :=
    loadMetadata_metadataPage hfits hshort rfl
  have hrun := run_openFile_existing rfl (h.pagerOf_shut hmagic) hmany
  rw [hread] at hrun
  dsimp only at hrun
  rw [if_pos (by rw [hstored])] at hrun
  refine ⟨_, hrun, fun name => ?_⟩
  rw [find_reopened, hstored]
  show (s.metadata.persisted.tables.find name).or (s.tables.find name) = _
  rw [Metadata.find_persisted]
  show ((s.tables.find name).map _).or (s.tables.find name) = _
  cases s.tables.find name <;> rfl

end Running

/-- After `close` the file can be opened again, by the same provider or a new one, and it has the same
tables. Their schemas come back as far as the metadata page keeps them. -/
theorem schema_persisted {capacity : Nat} {hcap : capacity < 2 ^ 32}
    {s s₁ : LocalFileStorageProvider} {r : DbError} (hs : Reachable capacity hcap s)
    (hmagic : s.pager.header.magic = Pager.magic) (hshort : s.metadata.Short)
    (hclose : close.run s = .ok r s₁) :
    (∃ s', (openFile s₁.pager.file).run s₁ = .ok .sentinel s' ∧
        ∀ name, Option.Rel Schema.ComesBackAs (s.describeTable name) (s'.describeTable name)) ∧
      ∃ s', (openFile s₁.pager.file).run
          (LocalFileStorageProvider.new s.pager.capacity s.pager.capacity_lt) = .ok .sentinel s' ∧
        ∀ name, Option.Rel Schema.ComesBackAs (s.describeTable name) (s'.describeTable name) := by
  obtain ⟨F, lost, hintact⟩ := hs.intact
  have hrunning := hintact.running
  have hregistered := hs.registered
  rcases hrunning.run_close with ⟨hfits, hclose'⟩ | ⟨-, e, hclose'⟩
  · rw [hclose'] at hclose
    cases hclose
    constructor
    · obtain ⟨s', hopen, htables⟩ := hrunning.reopen hfits hshort hmagic
      exact ⟨s', hopen, hregistered.schemas htables⟩
    · have hrestart := (hrunning.restart_iff_kept hshort hmagic).2 ⟨hfits, rfl⟩
      obtain ⟨-, hopen⟩ := hrunning.restart_iff.1 hrestart
      exact ⟨s.restarted, hopen, hregistered.schemas fun name => Metadata.find_persisted s.metadata name⟩
  · rw [hclose'] at hclose
    cases hclose

/-! ## A table with a range policy -/

/-- A table that is split at the key 10. -/
def rangeTable : Schema :=
  ⟨ascii "t", [⟨ascii "k", .int64, false, true, 0, .empty, none⟩],
    some ⟨.range, ascii "k", 0, [.int64 10], []⟩⟩

theorem encodingSize_rangeTable {m : Metadata} {root : PageId}
    (h : m.tables.entries = [(ascii "t", ⟨rangeTable, root, 0⟩)]) : m.Fits ∧ m.Short := by
  have hsize : m.encodingSize ≤ Pager.dataPagePayloadSize := by
    rw [Metadata.encodingSize, h]
    -- the size does not depend on the root
    show 20 + (List.map tableSize [(ascii "t", ⟨rangeTable, 0, 0⟩)]).sum ≤ _
    decide
  exact ⟨(length_metadataBytes_le m).trans hsize, Metadata.short_of_encodingSize hsize⟩

/-- The provider that has made the table and has been closed. -/
theorem exists_range_table : ∃ s, Reachable 16 (by decide) s ∧
    s.pager.header.magic = Pager.magic ∧ s.metadata.Short ∧ close.run s = .ok .sentinel s.shut ∧
    s.describeTable (ascii "t") = some rangeTable := by
  have hcolumns : rangeTable.columns.find? (fun col => !accepts col.type) = none := by decide
  obtain ⟨s₀, s, root, hopen, hcreate, htables⟩ := exists_created_table hcolumns
    fun root => (encodingSize_rangeTable rfl).1
  have hcall : (Op.createTable rangeTable).exec.run s₀ = .ok .sentinel s := hcreate
  obtain ⟨hsound₀, hs₀⟩ := sound_new hopen
  obtain ⟨F, hstep⟩ := hsound₀.exec_ok hcall
  obtain ⟨touched, hframe⟩ := hstep.frame
  have hmagic : s.pager.header.magic = Pager.magic := by
    rw [hframe.magic, hs₀]
    rfl
  have hencoding : s.metadata.Fits ∧ s.metadata.Short := encodingSize_rangeTable htables
  refine ⟨s, (Reachable.opened hopen).returned hcall, hmagic, hencoding.2, ?_, ?_⟩
  · rcases hstep.sound.running.run_close with ⟨-, hclose⟩ | ⟨hbig, -⟩
    · exact hclose
    · exact absurd hencoding.1 hbig
  · rw [describeTable, AssocMap.find, htables]
    rfl

/-- The range table, opened again by the same provider and by a new one. -/
theorem schema_persisted_range_table : ∃ s s' s'' : LocalFileStorageProvider,
    Reachable 16 (by decide) s ∧
      Option.Rel Schema.ComesBackAs (some rangeTable) (s'.describeTable (ascii "t")) ∧
      Option.Rel Schema.ComesBackAs (some rangeTable) (s''.describeTable (ascii "t")) := by
  obtain ⟨s, hs, hmagic, hshort, hclose, hdescribe⟩ := exists_range_table
  obtain ⟨⟨s', -, hsame⟩, s'', -, hnew⟩ := schema_persisted hs hmagic hshort hclose
  rw [← hdescribe]
  exact ⟨s, s', s'', hs, hsame (ascii "t"), hnew (ascii "t")⟩

/-- The boundary is gone when the file is opened again. -/
theorem boundaries_do_not_come_back : ∃ s s', Reachable 16 (by decide) s ∧ Restart s s' ∧
    s.describeTable (ascii "t") = some rangeTable ∧
    s'.describeTable (ascii "t") =
      some { rangeTable with partition := some ⟨.range, ascii "k", 0, [], []⟩ } ∧
    s'.describeTable (ascii "t") ≠ s.describeTable (ascii "t") := by
  obtain ⟨s, hs, hmagic, hshort, hclose, hdescribe⟩ := exists_range_table
  obtain ⟨F, lost, hintact⟩ := hs.intact
  have hfits : s.metadata.Fits := by
    rcases hintact.running.run_close with ⟨hfits, -⟩ | ⟨-, e, hfail⟩
    · exact hfits
    · rw [hclose] at hfail
      cases hfail
  have hrestart := (hintact.running.restart_iff_kept hshort hmagic).2 ⟨hfits, rfl⟩
  obtain ⟨info, hfind, hschema⟩ := Option.map_eq_some_iff.1 hdescribe
  have hdescribe' : s.restarted.describeTable (ascii "t") =
      some { rangeTable with partition := some ⟨.range, ascii "k", 0, [], []⟩ } := by
    show (s.metadata.persisted.tables.find (ascii "t")).map TableInfo.schema = _
    rw [Metadata.find_persisted, show s.metadata.tables.find (ascii "t") = some info from hfind]
    show some (Schema.mk (ascii "t") (info.schema.columns.map _) (info.schema.partition.map _)) = _
    rw [hschema]
    decide
  refine ⟨s, s.restarted, hs, hrestart, hdescribe, hdescribe', ?_⟩
  rw [hdescribe', hdescribe]
  decide

end OpenDB
