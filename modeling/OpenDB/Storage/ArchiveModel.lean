import OpenDB.Storage.CrashRecovery
import OpenDB.Storage.Promotion
import OpenDB.Storage.TreeArchive

/-!
# The file-backed provider as a set of archives

`ArchiveModel` says what the provider is for: every table is a version archive with a counter for
assigned keys, and readers see the committed versions up to one sequence number. `ArchiveModel.after`
runs a list of operations and restarts on it, `Runs events s` says that the same list has led to the
provider `s`.

The provider mirrors the model as long as the leaves of a table are tidy (`provider_mirrors_archives`):
point reads and scans of every transaction read the archive of the table.
-/

set_option autoImplicit false

namespace OpenDB

open OpenDB.Library

open LocalFileStorageProvider

/-! ## The model -/

/-- A table of the model. -/
structure ArchivedTable where
  autoId : UInt64
  archive : RowArchive

namespace ArchivedTable

def blank : ArchivedTable := ⟨0, .empty⟩

/-- A row is staged, under the next number of the counter if it comes without a key. -/
def put (txn : UInt64) (key : Value) (row : Tuple) (T : ArchivedTable) : ArchivedTable :=
  if key.isNull then
    let id := Value.int64 (T.autoId + 1).toInt64
    ⟨T.autoId + 1, T.archive.stage txn.toNat id.rank (some (row.set (ascii "_id") id))⟩
  else { T with archive := T.archive.stage txn.toNat key.rank (some row) }

def remove (txn : UInt64) (key : Value) (T : ArchivedTable) : ArchivedTable :=
  { T with archive := T.archive.stage txn.toNat key.rank none }

def commit (txn seq : UInt64) (T : ArchivedTable) : ArchivedTable :=
  { T with archive := T.archive.publish txn.toNat seq.toNat }

end ArchivedTable

/-- All tables, the two sequence numbers of the provider, and whether this process has made the
file. -/
structure ArchiveModel where
  tables : Bytes → Option ArchivedTable
  visibleSeq : UInt64
  internalSeq : UInt64
  made : Bool

/-- An operation, or a restart of the process. -/
inductive Event where
  | op (op : Op)
  | restart

namespace ArchiveModel

def empty : ArchiveModel := ⟨fun _ => none, 0, 0, true⟩

def setTable (name : Bytes) (T : Option ArchivedTable) (M : ArchiveModel) : ArchiveModel :=
  { M with tables := Function.update M.tables name T }

def commit (txn seq : UInt64) (M : ArchiveModel) : ArchiveModel :=
  { M with
    tables := fun name => (M.tables name).map (ArchivedTable.commit txn seq)
    visibleSeq := if M.visibleSeq < seq then seq else M.visibleSeq }

/-- A table can be made under this schema. -/
def admitsTable (schema : Schema) (M : ArchiveModel) : Bool :=
  (M.tables schema.table).isNone && schema.columns.all fun col => accepts col.type

/-- A table can go on under the new name. -/
def admitsRename (name newName : Bytes) (M : ArchiveModel) : Bool :=
  (M.tables name).isSome && !newName.isEmpty && (M.tables newName).isNone

/-- An operation that returns. -/
def exec (op : Op) (M : ArchiveModel) : ArchiveModel :=
  match op with
  | .createTable schema =>
    if M.admitsTable schema then M.setTable schema.table (some .blank) else M
  | .dropTable name => M.setTable name none
  | .alterTable name (.renameTable newName) =>
    if M.admitsRename name newName then (M.setTable name none).setTable newName (M.tables name) else M
  | .alterTable .. => M
  | .put txn table key row => M.setTable table ((M.tables table).map (ArchivedTable.put txn key row))
  | .remove txn table key => M.setTable table ((M.tables table).map (ArchivedTable.remove txn key))
  | .prepare _ | .abort _ => M
  | .commit txn seq => M.commit txn seq
  | .commitNext txn => { M with internalSeq := M.internalSeq + 1 }.commit txn (M.internalSeq + 1)

/-- A restart. A process that has not made the file itself leaves a header without the magic number,
and the next one starts from nothing. -/
def restart (M : ArchiveModel) : ArchiveModel := if M.made then { M with made := false } else .empty

def step : ArchiveModel → Event → ArchiveModel
  | M, .op op => M.exec op
  | M, .restart => M.restart

/-- What a list of operations and restarts leads to. -/
def after (events : List Event) : ArchiveModel := events.foldl step .empty

/-- The archive of a table; a table that does not exist has no versions. -/
def archive (M : ArchiveModel) (table : Bytes) : RowArchive :=
  ((M.tables table).map ArchivedTable.archive).getD .empty

/-- What a transaction reads. -/
def Reads (M : ArchiveModel) (txn : UInt64) (table : Bytes) (key : Value) (value : Option Tuple) :
    Prop :=
  (M.archive table).Reads M.visibleSeq.toNat txn.toNat key.rank value

/-- What a transaction is given by a scan. -/
def Scans (M : ArchiveModel) (txn : UInt64) (table : Bytes) (rows : List (Value × Tuple)) : Prop :=
  Lists (M.archive table) M.visibleSeq.toNat txn.toNat rows

def autoId (M : ArchiveModel) (table : Bytes) : Option UInt64 :=
  (M.tables table).map ArchivedTable.autoId

end ArchiveModel

/-- The leaves of a table are tidy. -/
def LocalFileStorageProvider.TidyTable (s : LocalFileStorageProvider) (table : Bytes) : Prop :=
  ∀ root leaves, s.btrees.find table = some (some root) →
    BTree.leafChain ⟨s.pager, root⟩ = .ok leaves → Tidy (leaves.map Prod.snd)

/-- A reader sees the value under the key, by a point read and in a scan. -/
def LocalFileStorageProvider.Sees (s : LocalFileStorageProvider) (txn : UInt64) (table : Bytes)
    (key : Value) (value : Option Tuple) : Prop :=
  s.get txn table key = .ok value ∧
    ∃ reported, s.scanTree txn table = .ok reported ∧ rowsAt key (emitted reported) = value.toList

/-! ## Counters -/

namespace LocalFileStorageProvider

variable {s s' : LocalFileStorageProvider} {table : Bytes}

theorem autoId_assign (s : LocalFileStorageProvider) (table : Bytes) (info : TableInfo) :
    ({ s with tables := s.tables.assign table info } : LocalFileStorageProvider).autoId =
      Function.update s.autoId table (some info.autoId) := by
  funext name
  by_cases hname : name = table
  · subst hname
    rw [Function.update_self]
    show ((s.tables.assign name info).find name).map _ = _
    rw [AssocMap.find_assign_self]
    rfl
  · rw [Function.update_of_ne hname]
    show ((s.tables.assign table info).find name).map _ = _
    rw [AssocMap.find_assign_of_ne _ _ hname]
    rfl

theorem autoId_recordRoot {info : TableInfo} (hfind : s.tables.find table = some info)
    (root : PageId) : (s.recordRoot table root).autoId = s.autoId := by
  have hinfo : s.tableInfo table = info := by
    rw [tableInfo, hfind]
    rfl
  have hauto : s.autoId table = some info.autoId := by
    rw [LocalFileStorageProvider.autoId, hfind]
    rfl
  rw [recordRoot, autoId_assign, hinfo, ← hauto, Function.update_eq_self]

/-- `put` moves the counter of its table when it comes without a key. -/
theorem counters_put {txn : UInt64} {key : Value} {row : Tuple} {r : DbError} {info : TableInfo}
    {root : Option PageId} (hroot : s.btrees.find table = some root)
    (hfind : s.tables.find table = some info) (hrun : (put txn table key row).run s = .ok r s') :
    s'.internalSeq = s.internalSeq ∧
      s'.autoId = if key.isNull then Function.update s.autoId table (some (info.autoId + 1))
        else s.autoId := by
  rw [put] at hrun
  rw [EStateM.run_bind, EStateM.run_get] at hrun
  dsimp only at hrun
  rw [hroot, if_neg (by simp)] at hrun
  obtain ⟨kr, s₁, heff, hrun⟩ := run_bind_eq_ok.1 hrun
  obtain ⟨b, s₂, hput, hrun⟩ := run_bind_eq_ok.1 hrun
  obtain ⟨_, s₃, hsync, hrun⟩ := run_bind_eq_ok.1 hrun
  cases hrun
  obtain ⟨root₁, t, -, -, rfl⟩ := run_onTree_ok hput
  obtain ⟨root₂, -, rfl⟩ := run_syncRoot_ok hsync
  have hinfo : s.tableInfo table = info := by
    rw [tableInfo, hfind]
    rfl
  rw [effectiveRow] at heff
  cases hnull : key.isNull with
  | false =>
    rw [hnull] at heff
    cases heff
    exact ⟨rfl, autoId_recordRoot (s := { s with
      pager := t.pager, btrees := s.btrees.assign table (some t.rootPageId) }) hfind root₂⟩
  | true =>
    rw [hnull] at heff
    cases heff
    rw [hinfo, if_pos rfl]
    refine ⟨rfl, ?_⟩
    have hassigned := autoId_assign s table { info with autoId := info.autoId + 1 }
    rw [← hassigned]
    have hnew : (s.tables.assign table { info with autoId := info.autoId + 1 }).find table =
        some { info with autoId := info.autoId + 1 } := AssocMap.find_assign_self _ _ _
    exact autoId_recordRoot (s := { s with
      tables := s.tables.assign table { info with autoId := info.autoId + 1 }
      pager := t.pager
      btrees := s.btrees.assign table (some t.rootPageId) }) hnew root₂

/-- The loop of `commit` moves no counter. -/
theorem autoId_promoteAll {txn seq : UInt64} {names : List Bytes}
    (hnames : ∀ name ∈ names, ∃ info, s.tables.find name = some info)
    (hrun : (promoteAll txn seq names).run s = .ok () s') : s'.autoId = s.autoId := by
  induction names generalizing s with
  | nil =>
    cases hrun
    rfl
  | cons name names ih =>
    obtain ⟨_, s₁, htree, hrun⟩ := run_bind_eq_ok.1 hrun
    obtain ⟨_, s₂, hroot, hrun⟩ := run_bind_eq_ok.1 hrun
    obtain ⟨root₁, t, -, -, rfl⟩ := run_onTree_ok htree
    obtain ⟨root₂, -, rfl⟩ := run_syncRoot_ok hroot
    obtain ⟨info, hfind⟩ := hnames name List.mem_cons_self
    rw [ih ?_ hrun]
    · exact autoId_recordRoot (s := { s with
        pager := t.pager, btrees := s.btrees.assign name (some t.rootPageId) }) hfind root₂
    · intro other hother
      by_cases hne : other = name
      · rw [hne]
        exact ⟨_, AssocMap.find_assign_self _ _ _⟩
      · obtain ⟨info', hfind'⟩ := hnames other (List.mem_cons_of_mem _ hother)
        exact ⟨info', (AssocMap.find_assign_of_ne _ _ hne).trans hfind'⟩

/-- So does `commit` as a whole. -/
theorem autoId_commit {txn seq : UInt64} {r : DbError}
    (hnames : ∀ name ∈ s.btrees.entries.map Prod.fst, ∃ info, s.tables.find name = some info)
    (hrun : (commit txn seq).run s = .ok r s') : s'.autoId = s.autoId := by
  rw [commit] at hrun
  rw [EStateM.run_bind, EStateM.run_get] at hrun
  dsimp only at hrun
  obtain ⟨_, s₁, hall, hrun⟩ := run_bind_eq_ok.1 hrun
  obtain ⟨_, s₂, hsave, hrun⟩ := run_bind_eq_ok.1 hrun
  rw [EStateM.run_bind, EStateM.run_modify] at hrun
  cases hrun
  rw [← autoId_promoteAll hnames hall]
  funext name
  show (s₂.tables.find name).map _ = _
  rw [tables_saveMetadata hsave]
  rfl

/-- The counters after an `alterTable` that has succeeded. -/
def alteredCounters (name : Bytes) (counters : Bytes → Option UInt64) :
    AlterSpec → Bytes → Option UInt64
  | .renameTable newName =>
    Function.update (Function.update counters name none) newName (counters name)
  | _ => counters

theorem autoId_saved {t : LocalFileStorageProvider} {r : DbError}
    (hrun : (do
      saveMetadata
      return DbError.sentinel : EStateM Fault LocalFileStorageProvider DbError).run t = .ok r s') :
    s'.autoId = t.autoId := by
  funext other
  rw [LocalFileStorageProvider.autoId, (tables_of_saved hrun).1]
  rfl

theorem run_set_then {t t' : LocalFileStorageProvider} {r : DbError}
    {rest : EStateM Fault LocalFileStorageProvider DbError}
    (hrun : (do
      set t'
      rest : EStateM Fault LocalFileStorageProvider DbError).run t = .ok r s') :
    rest.run t' = .ok r s' := by
  rw [EStateM.run_bind, EStateM.run_set] at hrun
  exact hrun

/-- The columns of a table change. -/
theorem autoId_alterColumns {name : Bytes} {info : TableInfo} {schema : Schema} {r : DbError}
    (hfind : s.tables.find name = some info)
    (hrun : (do
      set { s with tables := s.tables.assign name { info with schema := schema } }
      saveMetadata
      return DbError.sentinel : EStateM Fault LocalFileStorageProvider DbError).run s = .ok r s') :
    s'.autoId = s.autoId := by
  rw [autoId_saved (run_set_then hrun)]
  have hself : s.autoId name = some info.autoId := by
    rw [LocalFileStorageProvider.autoId, hfind]
    rfl
  have hassign := autoId_assign s name { info with schema := schema }
  rw [← hself, Function.update_eq_self] at hassign
  exact hassign

/-- `alterTable` refuses and changes nothing, or the counters go along with the names. -/
theorem autoId_alterTable {name : Bytes} {spec : AlterSpec} {r : DbError}
    (hrun : (alterTable name spec).run s = .ok r s') :
    (r.isSentinel = false ∧ s' = s) ∨
      (r.isSentinel = true ∧ s'.autoId = alteredCounters name s.autoId spec ∧
        (∃ info, s.tables.find name = some info) ∧
        ∀ newName, spec = .renameTable newName → s.tables.find newName = none) := by
  rw [alterTable] at hrun
  rw [EStateM.run_bind, EStateM.run_get] at hrun
  dsimp only at hrun
  split_ifs at hrun with hopen
  · cases hrun
    exact Or.inl ⟨DbError.isSentinel_notOpen, rfl⟩
  cases hfind : s.tables.find name with
  | none =>
    rw [hfind] at hrun
    cases hrun
    exact Or.inl ⟨DbError.isSentinel_tableNotFound _, rfl⟩
  | some info =>
    rw [hfind] at hrun
    cases spec with
    | addColumn columnDef =>
      dsimp only at hrun
      split_ifs at hrun with hcolumn
      · cases hrun
        exact Or.inl ⟨by simp [DbError.isSentinel, ascii], rfl⟩
      · exact Or.inr ⟨(tables_of_saved (run_set_then hrun)).2, autoId_alterColumns hfind hrun,
          ⟨info, rfl⟩, fun _ h => by cases h⟩
    | dropColumn column =>
      dsimp only at hrun
      split_ifs at hrun with hcolumn
      · cases hrun
        exact Or.inl ⟨by simp [DbError.isSentinel, ascii], rfl⟩
      · exact Or.inr ⟨(tables_of_saved (run_set_then hrun)).2, autoId_alterColumns hfind hrun,
          ⟨info, rfl⟩, fun _ h => by cases h⟩
    | renameTable newName =>
      dsimp only at hrun
      split_ifs at hrun with hempty hsome
      · cases hrun
        exact Or.inl ⟨by simp [DbError.isSentinel, ascii], rfl⟩
      · cases hrun
        exact Or.inl ⟨DbError.isSentinel_tableExists _, rfl⟩
      · have hnew : s.tables.find newName = none := by simpa using hsome
        refine Or.inr ⟨(tables_of_saved (run_set_then hrun)).2, ?_, ⟨info, rfl⟩,
          fun _ h => by cases h; exact hnew⟩
        rw [autoId_saved (run_set_then hrun)]
        have hself : s.autoId name = some info.autoId := by
          rw [LocalFileStorageProvider.autoId, hfind]
          rfl
        funext other
        show (((s.tables.erase name).assign newName _).find other).map _ = _
        rw [alteredCounters]
        by_cases hother : other = newName
        · subst hother
          rw [AssocMap.find_assign_self, Function.update_self, hself]
          rfl
        · rw [AssocMap.find_assign_of_ne _ _ hother, Function.update_of_ne hother]
          by_cases hname : other = name
          · subst hname
            rw [AssocMap.find_erase_self, Function.update_self]
            rfl
          · rw [AssocMap.find_erase_of_ne _ hname, Function.update_of_ne hname]
            rfl

/-! ## Answers -/

/-- `createTable` succeeds under a free name, with columns of the types that the provider takes. -/
theorem isSentinel_createTable {schema : Schema} {r : DbError} (hopened : s.opened = true)
    (hrun : (createTable schema).run s = .ok r s') :
    r.isSentinel = ((s.tables.find schema.table).isNone &&
      schema.columns.all fun col => accepts col.type) := by
  rw [createTable] at hrun
  rw [EStateM.run_bind, EStateM.run_get] at hrun
  dsimp only at hrun
  rw [if_neg (by simp [hopened])] at hrun
  cases hfind : s.tables.find schema.table with
  | some info =>
    rw [hfind] at hrun
    cases hrun
    exact DbError.isSentinel_tableExists _
  | none =>
    rw [hfind, if_neg (by simp)] at hrun
    rw [Option.isNone_none, Bool.true_and]
    cases hcol : schema.columns.find? fun col => !accepts col.type with
    | some col =>
      rw [hcol] at hrun
      cases hrun
      have hrefused := List.find?_some hcol
      have hall : (schema.columns.all fun col => accepts col.type) = false := by
        rw [List.all_eq_false]
        exact ⟨col, List.mem_of_find?_eq_some hcol, by simpa using hrefused⟩
      rw [hall]
      simp [DbError.isSentinel, ascii]
    | none =>
      rw [hcol] at hrun
      dsimp only at hrun
      have hall : (schema.columns.all fun col => accepts col.type) = true := by
        rw [List.all_eq_true]
        intro col hmem
        simpa using List.find?_eq_none.1 hcol col hmem
      rw [hall]
      cases hnew : BTree.createNew.run ⟨s.pager, 0⟩ with
      | error e t =>
        rw [hnew] at hrun
        cases hrun
      | ok root t =>
        rw [hnew] at hrun
        exact (tables_of_saved (run_set_then hrun)).2

/-- A table is renamed if it exists and the new name is free and not empty. -/
theorem isSentinel_renameTable {name newName : Bytes} {r : DbError} (hopened : s.opened = true)
    (hrun : (alterTable name (.renameTable newName)).run s = .ok r s') :
    r.isSentinel = ((s.tables.find name).isSome && !newName.isEmpty &&
      (s.tables.find newName).isNone) := by
  rw [alterTable] at hrun
  rw [EStateM.run_bind, EStateM.run_get] at hrun
  dsimp only at hrun
  rw [if_neg (by simp [hopened])] at hrun
  cases hfind : s.tables.find name with
  | none =>
    rw [hfind] at hrun
    cases hrun
    exact DbError.isSentinel_tableNotFound _
  | some info =>
    rw [hfind] at hrun
    dsimp only at hrun
    split_ifs at hrun with hempty hnew
    · cases hrun
      simp [hempty, DbError.isSentinel, ascii]
    · cases hrun
      rw [DbError.isSentinel_tableExists, Option.isNone_eq_false_iff.2 hnew, Bool.and_false]
    · have hfree : (s.tables.find newName).isNone = true := by simpa using hnew
      rw [(tables_of_saved (run_set_then hrun)).2, hfree]
      simp [hempty]

end LocalFileStorageProvider

/-! ## Trees and archives -/

/-- The archive is that of the tree, if the tree is tidy. -/
def Archives (A : RowArchive) (L : Layout) : Prop :=
  L.Tidy → Ordered L ∧ archiveOf L.scanAll = A

theorem archives_empty (root : PageId) : Archives .empty (Layout.empty root) :=
  fun _ => ⟨ordered_empty root, rfl⟩

namespace Archives

variable {A : RowArchive} {L L' : Layout}

theorem steps (h : Archives A L) {es : List LeafEntry} (hsteps : PutSteps es L L') :
    Archives (es.foldl fileEntry A) L' := by
  intro htidy
  obtain ⟨hordered, harchive⟩ := h (hsteps.tidy_before htidy)
  obtain ⟨hordered', harchive'⟩ := hordered.archive_steps hsteps htidy
  rw [harchive] at harchive'
  exact ⟨hordered', harchive'⟩

theorem promote (h : Archives A L) {txn seq : UInt64}
    (hsteps : PutSteps (promoted txn seq L.scanAll) L L') :
    Archives (A.publish txn.toNat seq.toNat) L' := by
  intro htidy
  obtain ⟨hordered, harchive⟩ := h (hsteps.tidy_before htidy)
  obtain ⟨hordered', harchive'⟩ := hordered.archive_steps hsteps htidy
  rw [foldl_promoted, harchive] at harchive'
  exact ⟨hordered', harchive'⟩

end Archives

/-- A tree after a step was one before it. -/
theorem Grown.exists_before {calls : TableTree → List LeafEntry} {F F' : List TableTree}
    (h : Grown calls F F') {f' : TableTree} (hf' : f' ∈ F') :
    ∃ f ∈ F, f'.name = f.name ∧ PutSteps (calls f) f.layout f'.layout := by
  induction h with
  | nil => exact absurd hf' List.not_mem_nil
  | @cons f g F F' hfg _ ih =>
    rcases List.mem_cons.1 hf' with rfl | hf'
    · exact ⟨f, List.mem_cons_self, hfg⟩
    · obtain ⟨f₀, hf₀, hstep⟩ := ih hf'
      exact ⟨f₀, List.mem_cons_of_mem _ hf₀, hstep⟩

/-- The provider has the tables of the model, their counters, and their archives while they are
tidy. -/
structure Mirrors (M : ArchiveModel) (s : LocalFileStorageProvider) (F : List TableTree) : Prop where
  sound : Sound s F
  visibleSeq : M.visibleSeq = s.visibleSeq
  internalSeq : M.internalSeq = s.internalSeq
  autoId : M.autoId = s.autoId
  trees : ∀ f ∈ F, ∃ T, M.tables f.name = some T ∧ Archives T.archive f.layout

namespace Mirrors

variable {M : ArchiveModel} {s s' : LocalFileStorageProvider} {F : List TableTree} {r : DbError}

theorem find_table (h : Mirrors M s F) {table : Bytes} {T : ArchivedTable}
    (hT : M.tables table = some T) : ∃ info, s.tables.find table = some info ∧ info.autoId = T.autoId := by
  have hauto : s.autoId table = some T.autoId := by
    rw [← h.autoId, ArchiveModel.autoId, hT]
    rfl
  exact Option.map_eq_some_iff.1 hauto

theorem isSome_table (h : Mirrors M s F) (table : Bytes) :
    (M.tables table).isSome = (s.tables.find table).isSome := by
  have hauto := congrArg Option.isSome (congrFun h.autoId table)
  rwa [ArchiveModel.autoId, LocalFileStorageProvider.autoId, Option.isSome_map, Option.isSome_map] at hauto

theorem isNone_table (h : Mirrors M s F) (table : Bytes) :
    (M.tables table).isNone = (s.tables.find table).isNone := by
  rw [← Option.not_isSome, ← Option.not_isSome, h.isSome_table]

/-- Every tree has an entry in the registry. -/
theorem exists_info (h : Mirrors M s F) {table : Bytes}
    (hmem : table ∈ s.btrees.entries.map Prod.fst) : ∃ info, s.tables.find table = some info := by
  apply Option.ne_none_iff_exists'.1
  rw [ne_eq, h.sound.find_table_eq_none_iff, not_not]
  rw [h.sound.btrees, List.map_map] at hmem
  exact hmem

theorem exists_table (h : Mirrors M s F) {table : Bytes} (hmem : table ∈ F.map TableTree.name) :
    ∃ T, M.tables table = some T := by
  obtain ⟨f, hf, rfl⟩ := List.mem_map.1 hmem
  obtain ⟨T, hT, -⟩ := h.trees f hf
  exact ⟨T, hT⟩

theorem table_eq_none (h : Mirrors M s F) {table : Bytes} (hnot : table ∉ F.map TableTree.name) :
    M.tables table = none := by
  cases hT : M.tables table with
  | none => rfl
  | some T =>
    obtain ⟨info, hfind, -⟩ := h.find_table hT
    rw [h.sound.find_table_eq_none_iff.2 hnot] at hfind
    cases hfind

/-- Calls on the tree of one table. -/
theorem trees_update (h : Mirrors M s F) {table : Bytes} {e : LeafEntry} {F' : List TableTree}
    (hgrown : Grown (callOn table e) F F') {write : ArchivedTable → ArchivedTable}
    (hwrite : ∀ T, M.tables table = some T → (write T).archive = fileEntry T.archive e) :
    ∀ f' ∈ F', ∃ T, (M.setTable table ((M.tables table).map write)).tables f'.name = some T ∧
      Archives T.archive f'.layout := by
  intro f' hf'
  obtain ⟨f, hf, hname, hsteps⟩ := hgrown.exists_before hf'
  obtain ⟨T, hT, harchives⟩ := h.trees f hf
  rw [hname]
  by_cases htable : f.name = table
  · subst htable
    rw [callOn, if_pos rfl] at hsteps
    refine ⟨write T, ?_, ?_⟩
    · show Function.update M.tables f.name _ f.name = _
      rw [Function.update_self, hT]
      rfl
    · rw [hwrite T hT]
      exact harchives.steps hsteps
  · rw [callOn, if_neg htable] at hsteps
    refine ⟨T, ?_, harchives.steps hsteps⟩
    show Function.update M.tables table _ f.name = _
    rw [Function.update_of_ne htable]
    exact hT

theorem autoId_setTable (M : ArchiveModel) (table : Bytes) (T : Option ArchivedTable) :
    (M.setTable table T).autoId = Function.update M.autoId table (T.map ArchivedTable.autoId) := by
  funext name
  by_cases hname : name = table
  · subst hname
    rw [Function.update_self]
    show (Function.update M.tables name T name).map _ = _
    rw [Function.update_self]
  · rw [Function.update_of_ne hname]
    show (Function.update M.tables table T name).map _ = _
    rw [Function.update_of_ne hname]
    rfl

/-- A table that is set to what it was. -/
theorem setTable_self (M : ArchiveModel) (table : Bytes) : M.setTable table (M.tables table) = M := by
  rw [ArchiveModel.setTable, Function.update_eq_self]

theorem put (h : Mirrors M s F) {txn : UInt64} {table : Bytes} {key : Value} {row : Tuple}
    (hrun : (LocalFileStorageProvider.put txn table key row).run s = .ok r s') :
    ∃ F', Mirrors (M.exec (.put txn table key row)) s' F' := by
  obtain ⟨F', hstep, ⟨-, hnot⟩ | ⟨-, hmem⟩⟩ := h.sound.put_ok hrun
  · -- there is no such table, and nothing happens
    have hnone := h.table_eq_none hnot
    have hsame : s' = s := by
      have hfind := h.sound.find_eq_none_iff.2 hnot
      rw [LocalFileStorageProvider.put] at hrun
      rw [EStateM.run_bind, EStateM.run_get] at hrun
      dsimp only at hrun
      rw [hfind] at hrun
      cases hrun
      rfl
    refine ⟨F, ?_⟩
    rw [hsame, ArchiveModel.exec, hnone, Option.map_none, ← hnone, setTable_self]
    exact h
  · obtain ⟨T, hT⟩ := h.exists_table hmem
    obtain ⟨info, hfind, hauto⟩ := h.find_table hT
    obtain ⟨root, hroot⟩ : ∃ root, s.btrees.find table = some root := by
      apply Option.ne_none_iff_exists'.1
      rw [ne_eq, h.sound.find_eq_none_iff]
      exact not_not.2 hmem
    have hinfo : (s.tableInfo table).autoId = T.autoId := by
      rw [tableInfo, hfind]
      exact hauto
    obtain ⟨hinternal, hcounters⟩ := counters_put hroot hfind hrun
    refine ⟨F', hstep.sound, h.visibleSeq.trans hstep.visibleSeq.symm,
      h.internalSeq.trans hinternal.symm, ?_, ?_⟩
    · rw [ArchiveModel.exec, autoId_setTable, h.autoId, hT, hcounters, Option.map_some,
        Option.map_some, ArchivedTable.put]
      split_ifs with hnull
      · rw [hauto]
      · have hself : some T.autoId = s.autoId table := by
          rw [← h.autoId, ArchiveModel.autoId, hT]
          rfl
        rw [hself, Function.update_eq_self]
    · apply h.trees_update hstep.grown
      intro T' hT'
      rw [hT] at hT'
      cases hT'
      rw [ArchivedTable.put, putVersion, hinfo]
      split_ifs with hnull
      · rfl
      · rfl

theorem remove (h : Mirrors M s F) {txn : UInt64} {table : Bytes} {key : Value}
    (hrun : (LocalFileStorageProvider.remove txn table key).run s = .ok r s') :
    ∃ F', Mirrors (M.exec (.remove txn table key)) s' F' := by
  obtain ⟨F', hstep, -⟩ := h.sound.remove_ok hrun
  have hsame : s'.internalSeq = s.internalSeq ∧ s'.tables = s.tables := by
    rw [LocalFileStorageProvider.remove] at hrun
    rw [EStateM.run_bind, EStateM.run_get] at hrun
    dsimp only at hrun
    split_ifs at hrun with hnone
    · cases hrun
      exact ⟨rfl, rfl⟩
    · obtain ⟨b, s₁, hput, hrun⟩ := run_bind_eq_ok.1 hrun
      cases hrun
      obtain ⟨root, t, -, -, rfl⟩ := run_onTree_ok hput
      exact ⟨rfl, rfl⟩
  refine ⟨F', hstep.sound, h.visibleSeq.trans hstep.visibleSeq.symm,
    h.internalSeq.trans hsame.1.symm, ?_, ?_⟩
  · have hself : (M.tables table).map (ArchivedTable.autoId ∘ ArchivedTable.remove txn key) =
        M.autoId table := rfl
    rw [ArchiveModel.exec, autoId_setTable, Option.map_map, hself, Function.update_eq_self, h.autoId]
    funext name
    rw [LocalFileStorageProvider.autoId, LocalFileStorageProvider.autoId, hsame.2]
  · apply h.trees_update hstep.grown
    intro T _
    rfl

/-- A commit forces the file to the disk and then moves the visible sequence number. -/
theorem commit_syncs (h : Mirrors M s F) {txn seq : UInt64}
    (hrun : (LocalFileStorageProvider.commit txn seq).run s = .ok r s') :
    ∃ s₁ F', SyncedStep s s₁ s' F' ∧ Grown (promotion txn seq) F F' ∧
      Mirrors (M.commit txn seq) s' F' := by
  have hauto := autoId_commit (fun table hmem => h.exists_info hmem) hrun
  obtain ⟨s₁, F', hrow, hsync, hfits, hinternal, -, rfl⟩ := h.sound.commit_ok hrun
  have hsound := hrow.sound.saved
  refine ⟨s₁, F', ⟨hrow.sound, hsync, hfits, ?_⟩, hrow.grown, ⟨hsound.opened, hsound.metaPage,
    hsound.tables, hsound.btrees, hsound.forest, hsound.version⟩, ?_,
    h.internalSeq.trans hinternal.symm, ?_, ?_⟩
  · rw [← hrow.visibleSeq]
    rfl
  · show (if M.visibleSeq < seq then seq else M.visibleSeq) = _
    rw [h.visibleSeq]
  · have hself : (M.commit txn seq).autoId = M.autoId := by
      funext name
      show ((M.tables name).map (ArchivedTable.commit txn seq)).map _ = _
      rw [Option.map_map]
      rfl
    rw [hself, h.autoId, ← hauto]
  · intro f' hf'
    obtain ⟨f, hf, hname, hsteps⟩ := hrow.grown.exists_before hf'
    obtain ⟨T, hT, harchives⟩ := h.trees f hf
    refine ⟨T.commit txn seq, ?_, harchives.promote hsteps⟩
    show (M.tables f'.name).map _ = _
    rw [hname, hT]
    rfl

theorem commit (h : Mirrors M s F) {txn seq : UInt64}
    (hrun : (LocalFileStorageProvider.commit txn seq).run s = .ok r s') :
    ∃ F', Mirrors (M.commit txn seq) s' F' := by
  obtain ⟨s₁, F', -, -, hmirrors⟩ := h.commit_syncs hrun
  exact ⟨F', hmirrors⟩

theorem trees_setTable (h : Mirrors M s F) {name : Bytes} {T : Option ArchivedTable}
    {f : TableTree} (hf : f ∈ F) (hne : f.name ≠ name) :
    ∃ T', (M.setTable name T).tables f.name = some T' ∧ Archives T'.archive f.layout := by
  obtain ⟨T', hT', harchives⟩ := h.trees f hf
  refine ⟨T', ?_, harchives⟩
  show Function.update M.tables name T f.name = _
  rw [Function.update_of_ne hne]
  exact hT'

theorem createTable (h : Mirrors M s F) {schema : Schema}
    (hrun : (LocalFileStorageProvider.createTable schema).run s = .ok r s') :
    ∃ F', Mirrors (M.exec (.createTable schema)) s' F' := by
  have hchanged := unchanged_createTable_iff hrun
  have hadmits : M.admitsTable schema = r.isSentinel := by
    rw [isSentinel_createTable h.sound.opened hrun, ArchiveModel.admitsTable, h.isNone_table]
  rcases h.sound.createTable_ok hrun with rfl | ⟨s₁, root, hnot, hsaved, -, htables⟩
  · refine ⟨F, ?_⟩
    rw [ArchiveModel.exec, hadmits, hchanged.1 rfl, if_neg Bool.false_ne_true]
    exact h
  · obtain ⟨hsound, -, rfl, hvisible, hinternal⟩ := hsaved
    have hauto : s₁.saved.autoId = Function.update s.autoId schema.table (some 0) := by
      have hassign := autoId_assign s schema.table ⟨schema, root, 0⟩
      rw [← htables] at hassign
      exact hassign
    have hr : r.isSentinel = true := by
      rw [← Bool.not_eq_false, ← hchanged]
      intro heq
      have hfind := congrFun heq schema.table
      rw [describeTable, describeTable, h.sound.find_table_eq_none_iff.2 hnot,
        show s₁.saved.tables = _ from htables, AssocMap.find_assign_self] at hfind
      cases hfind
    refine ⟨F ++ [TableTree.blank schema.table root], ?_⟩
    rw [ArchiveModel.exec, hadmits, hr, if_pos rfl]
    refine ⟨hsound.saved, h.visibleSeq.trans hvisible.symm, h.internalSeq.trans hinternal.symm, ?_, ?_⟩
    · rw [autoId_setTable, hauto, h.autoId]
      rfl
    · intro f hf
      rcases List.mem_append.1 hf with hf | hf
      · apply h.trees_setTable hf
        intro heq
        exact hnot (heq ▸ List.mem_map_of_mem hf)
      · rw [List.mem_singleton.1 hf]
        exact ⟨_, Function.update_self _ _ _, archives_empty root⟩

theorem dropTable (h : Mirrors M s F) {name : Bytes}
    (hrun : (LocalFileStorageProvider.dropTable name).run s = .ok r s') :
    ∃ F', Mirrors (M.exec (.dropTable name)) s' F' := by
  rcases h.sound.dropTable_ok hrun with ⟨rfl, hnot⟩ | ⟨s₁, A, f, B, rfl, rfl, hsaved, -, htables⟩
  · refine ⟨F, ?_⟩
    rw [ArchiveModel.exec, ← h.table_eq_none hnot, setTable_self]
    exact h
  · obtain ⟨hsound, -, rfl, hvisible, hinternal⟩ := hsaved
    refine ⟨A ++ B, ?_⟩
    rw [ArchiveModel.exec]
    refine ⟨hsound.saved, h.visibleSeq.trans hvisible.symm, h.internalSeq.trans hinternal.symm, ?_, ?_⟩
    · rw [autoId_setTable, h.autoId]
      funext other
      rw [LocalFileStorageProvider.autoId, show s₁.saved.tables = _ from htables]
      by_cases hother : other = f.name
      · rw [hother, Function.update_self, AssocMap.find_erase_self]
        rfl
      · rw [Function.update_of_ne hother, AssocMap.find_erase_of_ne _ hother]
        rfl
    · intro g hg
      have hmem : g ∈ A ++ f :: B := by
        rw [List.mem_append, List.mem_cons]
        rcases List.mem_append.1 hg with hg | hg
        · exact Or.inl hg
        · exact Or.inr (Or.inr hg)
      apply h.trees_setTable hmem
      intro heq
      rcases List.mem_append.1 hg with hg | hg
      · exact h.sound.not_mem_names.1 (heq ▸ List.mem_map_of_mem hg)
      · exact h.sound.not_mem_names.2 (heq ▸ List.mem_map_of_mem hg)

/-- A table goes on under a new name. -/
theorem renameTable (h : Mirrors M s F) {A B : List TableTree} {f : TableTree} {newName : Bytes}
    (hF : F = A ++ f :: B) (hnew : newName ∉ F.map TableTree.name) :
    ∀ g ∈ A ++ B ++ [{ f with name := newName }],
      ∃ T, ((M.setTable f.name none).setTable newName (M.tables f.name)).tables g.name = some T ∧
        Archives T.archive g.layout := by
  subst hF
  intro g hg
  rcases List.mem_append.1 hg with hg | hg
  · have hmem : g ∈ A ++ f :: B := by
      rw [List.mem_append, List.mem_cons]
      rcases List.mem_append.1 hg with hg | hg
      · exact Or.inl hg
      · exact Or.inr (Or.inr hg)
    have hold : g.name ≠ f.name := by
      intro heq
      rcases List.mem_append.1 hg with hg | hg
      · exact h.sound.not_mem_names.1 (heq ▸ List.mem_map_of_mem hg)
      · exact h.sound.not_mem_names.2 (heq ▸ List.mem_map_of_mem hg)
    have hother : g.name ≠ newName := fun heq => hnew (heq ▸ List.mem_map_of_mem hmem)
    obtain ⟨T, hT, harchives⟩ := h.trees g hmem
    refine ⟨T, ?_, harchives⟩
    show Function.update (Function.update M.tables f.name none) newName _ g.name = _
    rw [Function.update_of_ne hother, Function.update_of_ne hold]
    exact hT
  · obtain ⟨T, hT, harchives⟩ := h.trees f (by simp)
    rw [List.mem_singleton.1 hg]
    exact ⟨T, (Function.update_self _ _ _).trans hT, harchives⟩

theorem alterTable (h : Mirrors M s F) {name : Bytes} {spec : AlterSpec}
    (hrun : (LocalFileStorageProvider.alterTable name spec).run s = .ok r s') :
    ∃ F', Mirrors (M.exec (.alterTable name spec)) s' F' := by
  have hadmits : ∀ newName, spec = .renameTable newName → M.admitsRename name newName = r.isSentinel := by
    rintro newName rfl
    rw [isSentinel_renameTable h.sound.opened hrun, ArchiveModel.admitsRename, h.isSome_table,
      h.isNone_table]
  rcases autoId_alterTable hrun with ⟨hr, rfl⟩ | ⟨hr, hauto, ⟨info, hfind⟩, hfree⟩
  · refine ⟨F, ?_⟩
    have hmodel : M.exec (.alterTable name spec) = M := by
      cases spec with
      | addColumn | dropColumn => rfl
      | renameTable newName =>
        rw [ArchiveModel.exec, hadmits newName rfl, hr, if_neg Bool.false_ne_true]
    rw [hmodel]
    exact h
  rcases h.sound.alterTable_ok hrun with rfl | ⟨s₁, F', hsaved, -, -, hcase⟩
  · rw [(unchanged_alterTable_iff hrun).1 rfl] at hr
    cases hr
  obtain ⟨hsound, -, rfl, hvisible, hinternal⟩ := hsaved
  cases spec with
  | addColumn | dropColumn =>
    rcases hcase with rfl | ⟨A, f, B, newName, -, -, hspec, -⟩
    · exact ⟨F', hsound.saved, h.visibleSeq.trans hvisible.symm, h.internalSeq.trans hinternal.symm,
        h.autoId.trans hauto.symm, h.trees⟩
    · cases hspec
  | renameTable newName =>
    have hnone := hfree newName rfl
    have hne : name ≠ newName := by
      rintro rfl
      rw [hnone] at hfind
      cases hfind
    rcases hcase with rfl | ⟨A, f, B, newName', hF, rfl, hspec, rfl⟩
    · -- the old name is gone, so the tree does not stand under it any more
      have hgone : s₁.saved.autoId name = none := by
        rw [hauto, alteredCounters, Function.update_of_ne hne, Function.update_self]
      have hmem : ¬ s.tables.find name = none := by
        rw [hfind]
        exact Option.some_ne_none _
      rw [h.sound.find_table_eq_none_iff, ← hsound.saved.find_table_eq_none_iff] at hmem
      exact absurd (Option.map_eq_none_iff.1 hgone) hmem
    · cases hspec
      refine ⟨A ++ B ++ [{ f with name := newName }], ?_⟩
      rw [ArchiveModel.exec, hadmits newName rfl, hr, if_pos rfl]
      refine ⟨hsound.saved, h.visibleSeq.trans hvisible.symm, h.internalSeq.trans hinternal.symm, ?_,
        h.renameTable hF (h.sound.find_table_eq_none_iff.1 hnone)⟩
      rw [hauto, autoId_setTable, autoId_setTable, alteredCounters, ← h.autoId]
      rfl

/-- An operation that returns. -/
theorem exec (h : Mirrors M s F) {op : Op} (hrun : op.exec.run s = .ok r s') :
    ∃ F', Mirrors (M.exec op) s' F' := by
  cases op with
  | createTable schema => exact h.createTable hrun
  | dropTable name => exact h.dropTable hrun
  | alterTable name spec => exact h.alterTable hrun
  | put txn table key row => exact h.put hrun
  | remove txn table key => exact h.remove hrun
  | prepare txn =>
    cases hrun
    exact ⟨F, h⟩
  | commit txn seq => exact h.commit hrun
  | commitNext txn =>
    have hnext : Mirrors { M with internalSeq := M.internalSeq + 1 }
        { s with internalSeq := s.internalSeq + 1 } F :=
      ⟨⟨h.sound.opened, h.sound.metaPage, h.sound.tables, h.sound.btrees, h.sound.forest,
        h.sound.version⟩, h.visibleSeq, by rw [h.internalSeq], h.autoId, h.trees⟩
    rw [ArchiveModel.exec, h.internalSeq]
    rw [h.internalSeq] at hnext
    exact hnext.commit
      (show (LocalFileStorageProvider.commit txn (s.internalSeq + 1)).run _ = .ok r s' from hrun)
  | abort txn =>
    cases hrun
    exact ⟨F, h⟩

/-! ## Reading -/

/-- The archive of a tidy table, beside its tree. -/
theorem exists_archive (h : Mirrors M s F) {table : Bytes} (htidy : s.TidyTable table) :
    (s.btrees.find table = none ∧ M.archive table = .empty) ∨
      ∃ root L others, s.btrees.find table = some (some root) ∧ Rep ⟨s.pager, root⟩ L others ∧
        Ordered L ∧ archiveOf L.scanAll = M.archive table := by
  have hsound := h.sound
  by_cases hmem : table ∈ F.map TableTree.name
  · obtain ⟨f, hf, rfl⟩ := List.mem_map.1 hmem
    obtain ⟨T, hT, harchives⟩ := h.trees f hf
    obtain ⟨A, B, rfl⟩ := List.append_of_mem hf
    have hfind := hsound.find_tree
    have hrep := hsound.forest.rep
    obtain ⟨hordered, harchive⟩ := harchives (htidy _ _ hfind hrep.leafChain_eq)
    refine Or.inr ⟨_, _, _, hfind, hrep, hordered, ?_⟩
    rw [harchive, ArchiveModel.archive, hT]
    rfl
  · refine Or.inl ⟨hsound.find_eq_none_iff.2 hmem, ?_⟩
    rw [ArchiveModel.archive, h.table_eq_none hmem]
    rfl

/-- A point read of a tidy table reads its archive. -/
theorem get (h : Mirrors M s F) {table : Bytes} (htidy : s.TidyTable table)
    (txn : UInt64) {key : Value} (hkey : key.isNaN = false) :
    ∃ value, s.get txn table key = .ok value ∧ M.Reads txn table key value := by
  unfold ArchiveModel.Reads
  rw [h.visibleSeq]
  rcases h.exists_archive htidy with ⟨hfind, harchive⟩ | ⟨root, L, others, hfind, hrep, hordered, harchive⟩
  · rw [LocalFileStorageProvider.get, hfind, harchive]
    exact ⟨none, rfl, Or.inr ⟨rfl, fun _ _ _ => rfl⟩⟩
  · obtain ⟨r, hget, hreads⟩ := hordered.reads_get hrep hkey txn s.visibleSeq
    rw [LocalFileStorageProvider.get, hfind, ← harchive]
    dsimp only
    rw [hget]
    exact ⟨r.outcome, rfl, hreads⟩

theorem get_eq_iff (h : Mirrors M s F) {table : Bytes} (htidy : s.TidyTable table)
    {txn : UInt64} {key : Value} (hkey : key.isNaN = false) {value : Option Tuple} :
    s.get txn table key = .ok value ↔ M.Reads txn table key value := by
  obtain ⟨found, hget, hreads⟩ := h.get htidy txn hkey
  rw [hget]
  constructor
  · intro heq
    rwa [← Except.ok.inj heq]
  · intro hvalue
    rw [hreads.unique hvalue]

/-- So does a scan. -/
theorem scanTree (h : Mirrors M s F) {table : Bytes} (htidy : s.TidyTable table) (txn : UInt64) :
    ∃ reported, s.scanTree txn table = .ok reported ∧ M.Scans txn table (emitted reported) := by
  unfold ArchiveModel.Scans
  rw [h.visibleSeq]
  rcases h.exists_archive htidy with ⟨hfind, harchive⟩ | ⟨root, L, others, hfind, hrep, hordered, harchive⟩
  · rw [LocalFileStorageProvider.scanTree, hfind, harchive]
    refine ⟨[], rfl, fun r hr => absurd hr List.not_mem_nil, List.Pairwise.nil, ?_⟩
    intro k _ value hreads
    rw [hreads.unique (Or.inr ⟨rfl, fun _ _ _ => rfl⟩)]
    rfl
  · rw [LocalFileStorageProvider.scanTree, hfind, ← harchive]
    exact hordered.reads_scan hrep txn s.visibleSeq

theorem scan (h : Mirrors M s F) {table : Bytes} (htidy : s.TidyTable table)
    (txn : UInt64) :
    ∃ rows, s.scan txn table = .ok (rows.map Prod.snd) ∧ M.Scans txn table rows := by
  obtain ⟨reported, hscan, hlists⟩ := h.scanTree htidy txn
  refine ⟨emitted reported, ?_, hlists⟩
  rw [LocalFileStorageProvider.scan, hscan, emitted, List.map_map]
  rfl

/-- Readers see what they read in the archive. -/
theorem sees_iff (h : Mirrors M s F) {table : Bytes} (htidy : s.TidyTable table) {txn : UInt64}
    {key : Value} (hkey : key.isNaN = false) {value : Option Tuple} :
    s.Sees txn table key value ↔ M.Reads txn table key value := by
  rw [LocalFileStorageProvider.Sees, h.get_eq_iff htidy hkey]
  refine and_iff_left_of_imp fun hreads => ?_
  obtain ⟨reported, hscan, hlists⟩ := h.scanTree htidy txn
  exact ⟨reported, hscan, hlists.reads key hkey value hreads⟩

end Mirrors

/-! ## A table in one leaf -/

/-- The provider has the one table `t`, and all versions in it are small, under one key, and in one
leaf. -/
structure FirstTable (n : ℕ) (s : LocalFileStorageProvider) (root : PageId) (xs : List LeafEntry) :
    Prop where
  sound : Sound s [⟨ascii "t", root, ⟨none, [(root, xs)]⟩⟩]
  tables : s.tables.entries = [(ascii "t", ⟨emptySchema (ascii "t"), root, 0⟩)]
  versions : ∀ x ∈ xs, x.key = .int64 7 ∧ x.size ≤ 60
  length : xs.length ≤ n

namespace FirstTable

variable {n : ℕ} {s : LocalFileStorageProvider} {root : PageId} {xs : List LeafEntry}

theorem tidyTable (h : FirstTable n s root xs) : s.TidyTable (ascii "t") := by
  intro root' leaves hroot hleaves
  have hfind := Sound.find_tree (A := []) (B := []) h.sound
  have hrep := Forest.rep (A := []) (B := []) h.sound.forest
  rw [hfind] at hroot
  cases hroot
  rw [hrep.leafChain_eq] at hleaves
  cases hleaves
  have hflat : [xs].flatten = xs := by simp
  refine ⟨?_, ?_, List.pairwise_singleton _ _⟩
  · show ∀ e ∈ [xs].flatten, _
    rw [hflat]
    intro e he
    rw [(h.versions e he).1]
    rfl
  · show ∀ a ∈ [xs].flatten, ∀ b ∈ [xs].flatten, _
    rw [hflat]
    intro a ha b hb _
    rw [(h.versions a ha).1, (h.versions b hb).1]
    decide

theorem leafTable (h : FirstTable n s root xs) :
    LeafTable (emptySchema (ascii "t")) root s.visibleSeq xs s :=
  ⟨h.sound, h.tables, (fits_first_table h.tables).1, rfl⟩

/-- A leaf takes small versions of the row. -/
theorem leafTakes (h : FirstTable n s root xs) {es : List LeafEntry}
    (hes : ∀ e ∈ es, e.key = .int64 7 ∧ e.size ≤ 60) (hlen : n + es.length ≤ 64) :
    LeafTakes xs es := by
  have hbound := h.length
  have hxs := approxBytes_le fun x hx => (h.versions x hx).2
  have hnew := approxBytes_le fun e he => (hes e he).2
  constructor <;> omega

/-- The table after versions that the leaf has taken. -/
theorem of_leafTable (h : FirstTable n s root xs) {es : List LeafEntry}
    (hes : ∀ e ∈ es, e.key = .int64 7 ∧ e.size ≤ 60) {m : ℕ} (hm : n + es.length ≤ m) {seq : UInt64}
    {s' : LocalFileStorageProvider}
    (h' : LeafTable (emptySchema (ascii "t")) root seq (leafAfter xs es) s') :
    FirstTable m s' root (leafAfter xs es) := by
  have hbound := h.length
  have hcount := length_leafAfter_le xs es
  refine ⟨h'.sound, h'.tables, fun y hy => ?_, by omega⟩
  exact (mem_leafAfter hy).elim (h.versions y) (hes y)

theorem put (h : FirstTable n s root xs) (hn : n < 64) (txn : UInt64) (row : Tuple)
    (hsize : LeafEntry.size ⟨.int64 7, 0, txn, false, row⟩ ≤ 60) :
    ∃ s' ys, (LocalFileStorageProvider.put txn (ascii "t") (.int64 7) row).run s = .ok .sentinel s' ∧
      FirstTable (n + 1) s' root ys := by
  have hes : ∀ e ∈ [(⟨.int64 7, 0, txn, false, row⟩ : LeafEntry)],
      e.key = .int64 7 ∧ e.size ≤ 60 := by
    intro e he
    rw [List.mem_singleton.1 he]
    exact ⟨rfl, hsize⟩
  obtain ⟨s', hcall, htable, -⟩ := h.leafTable.put rfl (h.leafTakes hes (Nat.succ_le_of_lt hn))
  exact ⟨s', _, hcall, h.of_leafTable hes (Nat.le_refl _) htable⟩

theorem commit (h : FirstTable n s root xs) (hn : n ≤ 32) (txn seq : UInt64) :
    ∃ s' ys, (LocalFileStorageProvider.commit txn seq).run s = .ok .sentinel s' ∧
      FirstTable (n + n) s' root ys := by
  have hbound := h.length
  have hpromoted : ∀ e ∈ promoted txn seq xs, e.key = .int64 7 ∧ e.size ≤ 60 := by
    intro e he
    obtain ⟨x, hx, -, rfl⟩ := mem_promoted.1 he
    exact h.versions x hx
  have hcount : (promoted txn seq xs).length ≤ xs.length := by
    rw [promoted, List.length_map]
    exact List.length_filter_le _ _
  obtain ⟨s', hcall, htable, -⟩ :=
    h.leafTable.commit (h.leafTakes hpromoted (by omega))
  exact ⟨s', _, hcall, h.of_leafTable hpromoted (by omega) htable⟩

end FirstTable

/-! ## Runs -/

/-- A run on one file: operations that return, and clean restarts while the recorded roots are those of
the trees. -/
inductive Runs (capacity : Nat) (h : capacity < 2 ^ 32) :
    List Event → LocalFileStorageProvider → Prop where
  | opened {r : DbError} {s : LocalFileStorageProvider}
      (hopen : (openFile []).run (LocalFileStorageProvider.new capacity h) = .ok r s) :
      Runs capacity h [] s
  | exec {op : Op} {r : DbError} {events : List Event} {s s' : LocalFileStorageProvider}
      (hrun : Runs capacity h events s) (hcall : op.exec.run s = .ok r s') :
      Runs capacity h (events ++ [.op op]) s'
  | restart {events : List Event} {s s' : LocalFileStorageProvider} (hrun : Runs capacity h events s)
      (hfits : FitsPage s) (hrecorded : RootsRecorded s) (hrestart : Restart s s') :
      Runs capacity h (events ++ [.restart]) s'

theorem ArchiveModel.after_concat (events : List Event) (event : Event) :
    after (events ++ [event]) = (after events).step event := by
  rw [after, List.foldl_append]
  rfl

theorem ArchiveModel.made_exec (M : ArchiveModel) (op : Op) : (M.exec op).made = M.made := by
  cases op with
  | createTable schema =>
    rw [exec]
    split_ifs
    · rfl
    · rfl
  | alterTable name spec =>
    cases spec with
    | renameTable newName =>
      rw [exec]
      split_ifs
      · rfl
      · rfl
    | _ => rfl
  | _ => rfl

theorem mirrors_empty {s : LocalFileStorageProvider} (h : Sound s []) (hvisible : s.visibleSeq = 0)
    (hinternal : s.internalSeq = 0) : Mirrors .empty s [] := by
  refine ⟨h, hvisible.symm, hinternal.symm, ?_, fun f hf => absurd hf List.not_mem_nil⟩
  funext table
  rw [LocalFileStorageProvider.autoId, h.find_table_eq_none_iff.2 List.not_mem_nil]
  rfl

namespace Runs

variable {capacity : Nat} {hcap : capacity < 2 ^ 32} {events : List Event}
  {s s' : LocalFileStorageProvider}

theorem call (h : Runs capacity hcap events s) (op : Op) {r : DbError}
    (hcall : op.exec.run s = .ok r s') : Runs capacity hcap (events ++ [.op op]) s' :=
  h.exec hcall

/-- A run of the provider mirrors that of the model. The magic number tells who has made the file. -/
theorem mirrors (h : Runs capacity hcap events s) : (∃ F, Mirrors (.after events) s F) ∧
    ((ArchiveModel.after events).made = true ↔ s.pager.header.magic = Pager.magic) := by
  induction h with
  | opened hopen =>
    obtain ⟨hsound, rfl⟩ := sound_new hopen
    exact ⟨⟨[], mirrors_empty hsound rfl rfl⟩, iff_of_true rfl rfl⟩
  | exec _ hcall ih =>
    obtain ⟨⟨F, hmirrors⟩, hmade⟩ := ih
    obtain ⟨F', hstep⟩ := hmirrors.sound.exec_ok hcall
    obtain ⟨touched, hframe⟩ := hstep.frame
    rw [ArchiveModel.after_concat]
    refine ⟨hmirrors.exec hcall, ?_⟩
    rw [ArchiveModel.step, ArchiveModel.made_exec, hmade, hframe.magic]
  | @restart events s s' _ hfits hrecorded hrestart ih =>
    obtain ⟨⟨F, hmirrors⟩, hmade⟩ := ih
    have hsound := hmirrors.sound
    rw [ArchiveModel.after_concat, ArchiveModel.step, ArchiveModel.restart]
    by_cases hmagic : s.pager.header.magic = Pager.magic
    · rw [hmade.2 hmagic, if_pos rfl]
      obtain ⟨hsound', -, rfl⟩ :=
        hsound.restart_kept (hsound.synced_of_recorded hrecorded) hfits.2 hmagic hrestart
      refine ⟨⟨F, hsound', hmirrors.visibleSeq, hmirrors.internalSeq, ?_, hmirrors.trees⟩, ?_⟩
      · show (ArchiveModel.after events).autoId = _
        rw [hmirrors.autoId]
        funext table
        exact ((sameContents_restarted hsound hsound').autoId table).symm
      · -- a loaded header leaves the magic number at zero
        exact iff_of_false Bool.false_ne_true (show ¬ (0 : UInt32) = Pager.magic by decide)
    · rw [if_neg (fun hm => hmagic (hmade.1 hm))]
      obtain ⟨hsound', -⟩ := hsound.running.restart_lost hmagic hrestart
      obtain ⟨-, -, rfl⟩ := (hsound.running.restart_iff_lost hmagic).1 hrestart
      exact ⟨⟨[], mirrors_empty hsound' rfl rfl⟩, iff_of_true rfl rfl⟩

end Runs

/-- Every run of operations and clean restarts on a file mirrors the run of the model: as long as the
leaves of a table are tidy, every transaction reads in it and scans in it what it reads in the archive
of the table. -/
theorem provider_mirrors_archives {capacity : Nat} {hcap : capacity < 2 ^ 32} {events : List Event}
    {s : LocalFileStorageProvider} (h : Runs capacity hcap events s) {table : Bytes}
    (htidy : s.TidyTable table) (txn : UInt64) :
    (∀ key, key.isNaN = false →
      ∃ value, s.get txn table key = .ok value ∧
        (ArchiveModel.after events).Reads txn table key value) ∧
    ∃ rows, s.scan txn table = .ok (rows.map Prod.snd) ∧
      (ArchiveModel.after events).Scans txn table rows := by
  obtain ⟨⟨F, hmirrors⟩, -⟩ := h.mirrors
  exact ⟨fun _ hkey => hmirrors.get htidy txn hkey, hmirrors.scan htidy txn⟩

/-- The events that make the table `t` and stage a row in it. -/
def putOneRow : List Event := [.op (.createTable (emptySchema (ascii "t"))),
  .op (.put 1 (ascii "t") (.int64 7) Tuple.empty)]

/-- A row is staged in a new table and committed. -/
theorem exists_first_row : ∃ s₁ s₂ s₃ root xs ys zs,
    Runs 16 (by decide) [.op (.createTable (emptySchema (ascii "t")))] s₁ ∧
    Runs 16 (by decide) putOneRow s₂ ∧ Runs 16 (by decide) (putOneRow ++ [.op (.commit 1 1)]) s₃ ∧
    (put 1 (ascii "t") (.int64 7) Tuple.empty).run s₁ = .ok .sentinel s₂ ∧
    (commit 1 1).run s₂ = .ok .sentinel s₃ ∧ FirstTable 0 s₁ root xs ∧ FirstTable 1 s₂ root ys ∧
    FirstTable 2 s₃ root zs := by
  obtain ⟨s₀, s₁, root, hopen, hcreate, ⟨hsound, htables, -, -⟩, -⟩ := exists_leafTable
  have hruns₁ : Runs 16 (by decide) [.op (.createTable (emptySchema (ascii "t")))] s₁ :=
    (Runs.opened hopen).call (.createTable (emptySchema (ascii "t"))) hcreate
  have hfirst₁ : FirstTable 0 s₁ root [] :=
    ⟨hsound, htables, fun x hx => absurd hx List.not_mem_nil, Nat.le_refl 0⟩
  obtain ⟨s₂, ys, hput, hfirst₂⟩ := hfirst₁.put (by decide) 1 Tuple.empty (by decide)
  have hruns₂ := hruns₁.call (.put 1 (ascii "t") (.int64 7) Tuple.empty) hput
  obtain ⟨s₃, zs, hcommit, hfirst₃⟩ := hfirst₂.commit (by decide) 1 1
  exact ⟨s₁, s₂, s₃, root, [], ys, zs, hruns₁, hruns₂, hruns₂.call (.commit 1 1) hcommit, hput,
    hcommit, hfirst₁, hfirst₂, hfirst₃⟩

/-- The archive of that table is read by a transaction that comes later. -/
theorem first_row_mirrors_archive : ∃ s,
    Runs 16 (by decide) (putOneRow ++ [.op (.commit 1 1)]) s ∧
    (∀ key, key.isNaN = false → ∃ value, s.get 2 (ascii "t") key = .ok value ∧
      (ArchiveModel.after (putOneRow ++ [.op (.commit 1 1)])).Reads 2 (ascii "t") key value) ∧
    ∃ rows, s.scan 2 (ascii "t") = .ok (rows.map Prod.snd) ∧
      (ArchiveModel.after (putOneRow ++ [.op (.commit 1 1)])).Scans 2 (ascii "t") rows := by
  obtain ⟨s₁, s₂, s, root, xs, ys, zs, -, -, hruns, -, -, -, -, hfirst⟩ := exists_first_row
  exact ⟨s, hruns, provider_mirrors_archives hruns hfirst.tidyTable 2⟩

end OpenDB
