import OpenDB.Storage.PageAccounts
import OpenDB.Storage.Restart

/-!
# Runs of operations

The operations of an open provider as data, so that a run is a list of them. `Sound.exec_ok` says
what an operation that returns does, for all of them at once: the tables are laid out as trees again,
no page is lost between the trees and the free pool, and the registry has the roots of the trees
unless rows are staged.
-/

set_option autoImplicit false

namespace OpenDB

open OpenDB.Library

/-- A call of an operation. -/
inductive Op where
  | createTable (schema : Schema)
  | dropTable (name : Bytes)
  | alterTable (name : Bytes) (spec : AlterSpec)
  | put (txn : UInt64) (table : Bytes) (key : Value) (row : Tuple)
  | remove (txn : UInt64) (table : Bytes) (key : Value)
  | prepare (txn : UInt64)
  | commit (txn seq : UInt64)
  | commitNext (txn : UInt64)
  | abort (txn : UInt64)

namespace Op

/-- The call on a provider. -/
def exec : Op → EStateM Fault LocalFileStorageProvider DbError
  | .createTable schema => LocalFileStorageProvider.createTable schema
  | .dropTable name => LocalFileStorageProvider.dropTable name
  | .alterTable name spec => LocalFileStorageProvider.alterTable name spec
  | .put txn table key row => LocalFileStorageProvider.put txn table key row
  | .remove txn table key => LocalFileStorageProvider.remove txn table key
  | .prepare txn => LocalFileStorageProvider.prepare txn
  | .commit txn seq => LocalFileStorageProvider.commit txn seq
  | .commitNext txn => LocalFileStorageProvider.commitNext txn
  | .abort txn => LocalFileStorageProvider.abort txn

/-- The operation writes a row. -/
def stages : Op → Bool
  | .put .. | .remove .. => true
  | _ => false

/-- The operation commits a transaction. -/
def commits : Op → Bool
  | .commit .. | .commitNext .. => true
  | _ => false

end Op

open LocalFileStorageProvider

theorem Synced.of_tables {s s' : LocalFileStorageProvider} {F : List TableTree} (h : Synced s F)
    (htables : s'.tables = s.tables) : Synced s' F := by
  intro f hf
  rw [htables]
  exact h f hf

theorem synced_nil (s : LocalFileStorageProvider) : Synced s [] :=
  fun _ hf => absurd hf List.not_mem_nil

/-- What an operation that returns does to the trees and their pages. -/
structure OpStep (op : Op) (s s' : LocalFileStorageProvider) (F F' : List TableTree) : Prop where
  sound : Sound s' F'
  frame : ∃ touched, s.pager.Frame s'.pager touched
  accounts : s'.pager.room + (treePages F').length = s.pager.room + (treePages F).length
  synced : op.stages = false → op.commits = true ∨ Synced s F → Synced s' F'

namespace OpStep

variable {op : Op} {s s₁ s' : LocalFileStorageProvider} {F F' : List TableTree}

theorem refl (h : Sound s F) (hop : op.commits = false) : OpStep op s s F F := by
  refine ⟨h, ⟨[], Pager.Frame.refl _⟩, rfl, ?_⟩
  intro _ hsync
  rcases hsync with hcommits | hsync
  · rw [hop] at hcommits
    cases hcommits
  · exact hsync

theorem of_row {calls : TableTree → List LeafEntry} (h : RowStep calls s s' F F')
    (hop : op.stages = true) : OpStep op s s' F F' := by
  obtain ⟨touched, hframe, -⟩ := h.pager.frame
  refine ⟨h.sound, ⟨touched, hframe⟩, h.pager.accounts, ?_⟩
  intro hno
  rw [hop] at hno
  cases hno

/-- A step on the trees whose metadata is then saved. -/
theorem of_saved (hsound : Sound s₁ F') {touched : List PageId}
    (hframe : s.pager.Frame s₁.pager touched)
    (haccounts : s₁.pager.room + (treePages F').length = s.pager.room + (treePages F).length)
    (hsync : op.stages = false → op.commits = true ∨ Synced s F → Synced s₁ F') :
    OpStep op s s₁.saved F F' := by
  refine ⟨hsound.saved, ⟨_, hframe.trans hsound.frame_saved⟩, ?_, ?_⟩
  · rw [hsound.room_saved]
    exact haccounts
  · intro hstages hbefore
    exact (hsync hstages hbefore).of_tables rfl

end OpStep

namespace Sound

variable {s s' : LocalFileStorageProvider} {F : List TableTree}

theorem createTable_step (h : Sound s F) {schema : Schema} {r : DbError}
    (hrun : (createTable schema).run s = .ok r s') :
    ∃ F', OpStep (.createTable schema) s s' F F' := by
  rcases h.createTable_ok hrun with rfl | ⟨s₁, root, hnot, hsaved, hpager, htables⟩
  · exact ⟨F, OpStep.refl h rfl⟩
  · obtain ⟨touched, hframe, -⟩ := hpager.frame
    refine ⟨F ++ [TableTree.blank schema.table root], ?_⟩
    rw [hsaved.saved]
    apply OpStep.of_saved hsaved.sound hframe hpager.accounts
    intro _ hbefore f hf
    rw [htables]
    rcases List.mem_append.1 hf with hf | hf
    · have hne : f.name ≠ schema.table := by
        rintro heq
        apply hnot
        rw [← heq]
        exact List.mem_map_of_mem hf
      rw [AssocMap.find_assign_of_ne _ _ hne]
      rcases hbefore with hcommits | hsync
      · cases hcommits
      · exact hsync f hf
    · rw [List.mem_singleton.1 hf]
      exact ⟨_, AssocMap.find_assign_self _ _ _, rfl⟩

theorem dropTable_step (h : Sound s F) {name : Bytes} {r : DbError}
    (hrun : (dropTable name).run s = .ok r s') : ∃ F', OpStep (.dropTable name) s s' F F' := by
  rcases h.dropTable_ok hrun with ⟨rfl, -⟩ | ⟨s₁, A, f, B, rfl, rfl, hsaved, hreleased, htables⟩
  · exact ⟨F, OpStep.refl h rfl⟩
  · refine ⟨A ++ B, ?_⟩
    rw [hsaved.saved]
    apply OpStep.of_saved hsaved.sound hreleased.frame
    · rw [hreleased.room, treePages_append, treePages_append, treePages_cons]
      simp only [List.length_append]
      omega
    · intro _ hbefore g hg
      have hne : g.name ≠ f.name := by
        intro heq
        rcases List.mem_append.1 hg with hg | hg
        · exact h.not_mem_names.1 (heq ▸ List.mem_map_of_mem hg)
        · exact h.not_mem_names.2 (heq ▸ List.mem_map_of_mem hg)
      rw [htables, AssocMap.find_erase_of_ne _ hne]
      rcases hbefore with hcommits | hsync
      · cases hcommits
      · apply hsync g
        rw [List.mem_append, List.mem_cons]
        rcases List.mem_append.1 hg with hg | hg
        · exact Or.inl hg
        · exact Or.inr (Or.inr hg)

theorem alterTable_step (h : Sound s F) {name : Bytes} {spec : AlterSpec} {r : DbError}
    (hrun : (alterTable name spec).run s = .ok r s') :
    ∃ F', OpStep (.alterTable name spec) s s' F F' := by
  rcases h.alterTable_ok hrun with rfl | ⟨s₁, F', hsaved, hpager, hsync, hF'⟩
  · exact ⟨F, OpStep.refl h rfl⟩
  · refine ⟨F', ?_⟩
    have hframe : s.pager.Frame s₁.pager [] := by
      rw [hpager]
      exact Pager.Frame.refl _
    rw [hsaved.saved]
    apply OpStep.of_saved hsaved.sound hframe
    · rw [hpager]
      rcases hF' with rfl | ⟨A, f, B, newName, rfl, -, -, rfl⟩
      · rfl
      · -- the renamed tree has moved to the end of the list
        have hmoved := (treePages_perm (A ++ B) [] { f with name := newName } []).length_eq
        have hstood := (treePages_perm A B f []).length_eq
        rw [List.append_nil, List.append_nil, List.append_nil] at hmoved
        rw [List.append_nil, List.append_nil] at hstood
        rw [hstood, hmoved]
        rfl
    · intro _ hbefore
      rcases hbefore with hcommits | hbefore
      · cases hcommits
      · exact hsync hbefore

theorem commit_step (h : Sound s F) (op : Op) {txn seq : UInt64} {r : DbError}
    (hrun : (commit txn seq).run s = .ok r s') : ∃ F', OpStep op s s' F F' := by
  obtain ⟨s₁, F', hrow, hsync, hfits, -, -, rfl⟩ := h.commit_ok hrun
  obtain ⟨touched, hframe, -⟩ := hrow.pager.frame
  refine ⟨F', ?_⟩
  have hstep : OpStep op s s₁.saved F F' :=
    OpStep.of_saved hrow.sound hframe hrow.pager.accounts fun _ _ => hsync
  obtain ⟨hsound, hframe', haccounts, hsynced⟩ := hstep
  refine ⟨?_, hframe', haccounts, fun hstages hbefore => ?_⟩
  · exact ⟨hsound.opened, hsound.metaPage, hsound.tables, hsound.btrees, hsound.forest,
      hsound.version⟩
  · exact (hsynced hstages hbefore).of_tables rfl

/-- A table can be created when its name is new, its columns are accepted, there is a page for its
tree and the metadata still fits. -/
theorem exists_createTable (h : Sound s F) {schema : Schema}
    (hnot : schema.table ∉ F.map TableTree.name)
    (hcolumns : schema.columns.find? (fun col => !accepts col.type) = none)
    (hroom : s.pager.room ≠ 0)
    (hfits : ∀ root, (Metadata.mk s.visibleSeq s.internalSeq
      (s.tables.assign schema.table ⟨schema, root, 0⟩)).Fits) :
    ∃ s' root, (createTable schema).run s = .ok .sentinel s' ∧
      s'.tables = s.tables.assign schema.table ⟨schema, root, 0⟩ := by
  obtain ⟨root, t, hnew, -⟩ := exists_createNew h.forest.owns hroom 0
  have hfind := h.find_table_eq_none_iff.2 hnot
  have hcreate : ∀ s₁ : LocalFileStorageProvider, s₁ = { s with
      pager := t.pager
      tables := s.tables.assign schema.table ⟨schema, root, 0⟩
      btrees := s.btrees.assign schema.table (some root) } →
      (createTable schema).run s = (do
        saveMetadata
        return DbError.sentinel : EStateM Fault LocalFileStorageProvider DbError).run s₁ := by
    rintro s₁ rfl
    unfold createTable
    rw [EStateM.run_bind, EStateM.run_get]
    dsimp only
    rw [if_neg (by simp [h.opened]), hfind, if_neg (by simp), hcolumns]
    dsimp only
    rw [hnew]
    rfl
  have howns := (h.forest.createNew hnew schema.table).1.owns
  have hone := howns.range 1 (by simp)
  set s₁ : LocalFileStorageProvider := { s with
    pager := t.pager
    tables := s.tables.assign schema.table ⟨schema, root, 0⟩
    btrees := s.btrees.assign schema.table (some root) } with hs₁
  have hmeta : s₁.metaPageId = 1 := h.metaPage
  rcases saveMetadata_cases (s := s₁) (by rw [hmeta]; exact hone.1) (by rw [hmeta]; exact hone.2) with
    ⟨-, hsave⟩ | ⟨hbig, -⟩
  · refine ⟨s₁.saved, root, ?_, rfl⟩
    rw [hcreate s₁ rfl, EStateM.run_bind, hsave]
    rfl
  · exact absurd (hfits root) hbig

/-- A table can be dropped when the metadata of the others fits. -/
theorem exists_dropTable {A B : List TableTree} {f : TableTree} (h : Sound s (A ++ f :: B))
    (hfits : (Metadata.mk s.visibleSeq s.internalSeq (s.tables.erase f.name)).Fits) :
    ∃ s', (dropTable f.name).run s = .ok .sentinel s' := by
  obtain ⟨t, hfree, hforest, -⟩ := h.forest.freeAllPages
  have hroot := h.find_tree
  have hfind : (s.tables.find f.name).isNone = false := by
    have hnot : s.tables.find f.name ≠ none := by
      rw [Ne, h.find_table_eq_none_iff, not_not]
      simp
    obtain ⟨info, hinfo⟩ := Option.ne_none_iff_exists'.1 hnot
    rw [hinfo]
    rfl
  have htree : (onTree f.name BTree.freeAllPages).run s = .ok ()
      { s with pager := t.pager, btrees := s.btrees.assign f.name (some t.rootPageId) } := by
    show onTree f.name BTree.freeAllPages s = _
    rw [onTree]
    rw [hroot]
    dsimp only
    rw [hfree]
  set s₁ : LocalFileStorageProvider := { s with
    pager := t.pager
    tables := s.tables.erase f.name
    btrees := (s.btrees.assign f.name (some t.rootPageId)).erase f.name } with hs₁
  have hmeta : s₁.metaPageId = 1 := h.metaPage
  have hone := hforest.owns.range 1 (by simp)
  rcases saveMetadata_cases (s := s₁) (by rw [hmeta]; exact hone.1) (by rw [hmeta]; exact hone.2) with
    ⟨-, hsave⟩ | ⟨hbig, -⟩
  · refine ⟨s₁.saved, ?_⟩
    rw [dropTable]
    rw [EStateM.run_bind, EStateM.run_get]
    dsimp only
    rw [if_neg (by simp [h.opened]), if_neg (by simp [hfind]), if_pos (by rw [hroot]; rfl),
      EStateM.run_bind, htree]
    dsimp only
    rw [EStateM.run_bind, EStateM.run_modify]
    dsimp only
    rw [← hs₁, EStateM.run_bind, hsave]
    rfl
  · exact absurd hfits hbig

/-- An operation that returns. -/
theorem exec_ok (h : Sound s F) {op : Op} {r : DbError} (hrun : op.exec.run s = .ok r s') :
    ∃ F', OpStep op s s' F F' := by
  cases op with
  | createTable schema => exact h.createTable_step hrun
  | dropTable name => exact h.dropTable_step hrun
  | alterTable name spec => exact h.alterTable_step hrun
  | put txn table key row =>
    obtain ⟨F', hrow, -⟩ := h.put_ok hrun
    exact ⟨F', OpStep.of_row hrow rfl⟩
  | remove txn table key =>
    obtain ⟨F', hrow, -⟩ := h.remove_ok hrun
    exact ⟨F', OpStep.of_row hrow rfl⟩
  | prepare txn =>
    cases hrun
    exact ⟨F, OpStep.refl h rfl⟩
  | commit txn seq => exact h.commit_step _ hrun
  | commitNext txn =>
    -- the provider's own counter is advanced before the versions are written
    have hsound : Sound { s with internalSeq := s.internalSeq + 1 } F :=
      ⟨h.opened, h.metaPage, h.tables, h.btrees, h.forest, h.version⟩
    obtain ⟨F', hstep⟩ := hsound.commit_step (.commitNext txn)
      (show (commit txn (s.internalSeq + 1)).run _ = .ok r s' from hrun)
    exact ⟨F', hstep.sound, hstep.frame, hstep.accounts, fun hstages _ =>
      hstep.synced hstages (Or.inl rfl)⟩
  | abort txn =>
    cases hrun
    exact ⟨F, OpStep.refl h rfl⟩

end Sound

/-! ## A file with one table -/

/-- The schema of a table without columns. -/
def emptySchema (table : Bytes) : Schema := ⟨table, [], none⟩

/-- The metadata of tables without columns. -/
theorem fits_bare_tables {m : Metadata} {ts : List (Bytes × PageId)}
    (h : m.tables.entries = ts.map fun t => (t.1, ⟨emptySchema t.1, t.2, 0⟩))
    (hsize : (ts.map fun t => 21 + t.1.length).sum ≤ 4068) : m.Fits ∧ m.Short := by
  have hname : ∀ t ∈ ts, t.1.length < 2 ^ 32 := by
    intro t ht
    have := List.le_sum_of_mem (List.mem_map_of_mem (f := fun t => 21 + t.1.length) ht)
    omega
  have htable : ∀ t ∈ ts,
      (tableBytes (t.1, ⟨emptySchema t.1, t.2, 0⟩)).length = 21 + t.1.length := by
    intro t ht
    have hlen : (stringBytes t.1).length = 4 + t.1.length := by
      have := hname t ht
      rw [stringBytes, List.length_append, length_leBytes, List.length_take]
      omega
    simp only [tableBytes, partitionBytes, emptySchema, List.length_append, hlen, length_leBytes,
      List.map_nil, List.flatten_nil, List.length_nil, List.length_singleton]
    omega
  constructor
  · show (metadataBytes m).length ≤ 4088
    have hbytes : (m.tables.entries.map tableBytes).flatten.length =
        (ts.map fun t => 21 + t.1.length).sum := by
      rw [h, List.length_flatten, List.map_map, List.map_map]
      exact congrArg List.sum (List.map_congr_left fun t ht => htable t ht)
    simp only [metadataBytes, List.length_append, length_leBytes, hbytes]
    omega
  · intro e he
    rw [h] at he
    obtain ⟨t, ht, rfl⟩ := List.mem_map.1 he
    exact ⟨hname t ht, fun col hcol => absurd hcol List.not_mem_nil, fun pp hpp => by cases hpp⟩

/-- The metadata of one table without columns fits its page. -/
theorem fits_one_table {m : Metadata} {table : Bytes} {root : PageId} (hname : table.length ≤ 4000)
    (h : m.tables.entries = [(table, ⟨emptySchema table, root, 0⟩)]) : m.Fits ∧ m.Short :=
  @fits_bare_tables m [(table, root)] h (show 21 + table.length + 0 ≤ 4068 by omega)

theorem fits_first_table {m : Metadata} {root : PageId}
    (h : m.tables.entries = [(ascii "t", ⟨emptySchema (ascii "t"), root, 0⟩)]) :
    m.Fits ∧ m.Short :=
  fits_one_table (by decide) h

/-- The first table of a new file. -/
theorem exists_created_table {schema : Schema}
    (hcolumns : schema.columns.find? (fun col => !accepts col.type) = none)
    (hfits : ∀ root, (Metadata.mk 0 0
      (AssocMap.empty.assign schema.table ⟨schema, root, 0⟩)).Fits) : ∃ s₀ s root,
    (openFile []).run (LocalFileStorageProvider.new 16 (by decide)) = .ok .sentinel s₀ ∧
      (createTable schema).run s₀ = .ok .sentinel s ∧
      s.tables.entries = [(schema.table, ⟨schema, root, 0⟩)] := by
  have howns := Pager.owns_new (show 16 < 2 ^ 32 by decide) (by decide)
  have hopen := run_openFile_blank (Pager.run_openFile_nil 16 (by decide)) howns rfl rfl (by decide)
  have hsound := sound_blank howns rfl rfl (by decide) rfl
  have hroom : (blank (Pager.new 16 (by decide))).pager.room ≠ 0 := by
    have hfirst := allocatePage_first howns rfl rfl (by decide)
    obtain ⟨howns₁, -, hroom⟩ := Pager.allocatePage_ok howns hfirst
    have hone := howns₁.range 1 (by simp)
    show (Pager.withPage _ 1 _).room ≠ 0
    rw [Pager.room_withPage howns₁.backed hone.2]
    rw [Pager.room_new] at hroom
    omega
  obtain ⟨s, root, hcreate, htables⟩ := hsound.exists_createTable
    (show schema.table ∉ ([] : List TableTree).map TableTree.name from List.not_mem_nil) hcolumns
    hroom hfits
  exact ⟨_, s, root, hopen, hcreate, by rw [htables]; rfl⟩

theorem exists_first_table : ∃ s₀ s root,
    (openFile []).run (LocalFileStorageProvider.new 16 (by decide)) = .ok .sentinel s₀ ∧
      (createTable (emptySchema (ascii "t"))).run s₀ = .ok .sentinel s ∧
      s.tables.entries = [(ascii "t", ⟨emptySchema (ascii "t"), root, 0⟩)] :=
  exists_created_table rfl fun _ => (fits_first_table rfl).1

end OpenDB
