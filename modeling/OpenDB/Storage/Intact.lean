import OpenDB.Storage.LinkedTree
import OpenDB.Storage.Operations

/-!
# A provider after exceptions

`Intact s F lost` is what is left of `Sound` when operations may throw: the tables of the provider are
linked trees on pages of their own, the registry has the root of each tree or the leaf that was its
root before, and the pages `lost` belong to nothing any more. Every operation keeps it, whether it
returns or throws, as long as no node overruns its page (`Intact.exec`), and so does a new process on
the same file (`Intact.restart`).
-/

set_option autoImplicit false

namespace OpenDB

open OpenDB.Library

open LocalFileStorageProvider

/-- The registry has the root of every tree, or the leaf that was its root before the tree grew. -/
def Recorded (tables : AssocMap Bytes TableInfo) (F : List TableTree) : Prop :=
  ∀ f ∈ F, ∃ info, tables.find f.name = some info ∧
    (info.rootPageId = f.root ∨ info.rootPageId = f.layout.leaves.first 0)

/-- The provider is open, and its tables are the linked trees of `F`. -/
structure Intact (s : LocalFileStorageProvider) (F : List TableTree) (lost : List PageId) : Prop where
  opened : s.opened = true
  metaPage : s.metaPageId = 1
  named : Named s.tables s.btrees F
  recorded : Recorded s.tables F
  trees : SideBySide Linked s.pager F (lost ++ [1])
  version : s.pager.header.version = Pager.version

/-- What an operation leaves behind when it faults: a page is overrun, or the provider is intact. -/
def Kept (f : Fault) (s : LocalFileStorageProvider) : Prop :=
  Overrun f ∨ ∃ F lost, Intact s F lost

namespace Intact

variable {s s' : LocalFileStorageProvider} {F A B : List TableTree} {f : TableTree}
  {lost : List PageId} {table : Bytes}

theorem kept (h : Intact s F lost) (fault : Fault) : Kept fault s := Or.inr ⟨F, lost, h⟩

/-! ## The pieces of an operation -/

theorem page_one (h : Intact s F lost) :
    (1 : PageId) ≠ 0 ∧ (1 : PageId).toNat < s.pager.header.pageCount.toNat :=
  h.trees.owns.range 1 (by simp)

theorem saved (h : Intact s F lost) : Intact s.saved F lost := by
  refine ⟨h.opened, h.metaPage, h.named, h.recorded, ?_, h.version⟩
  show SideBySide Linked (s.pager.withPage s.metaPageId _) F _
  rw [h.metaPage]
  exact h.trees.withPage onPages_linked (by simp) _

/-- Saving the metadata writes its page, or throws and changes nothing. -/
theorem saveMetadata (h : Intact s F lost) :
    EndsIn saveMetadata s (fun _ s' => s' = s.saved) Kept := by
  have hid := h.page_one
  rw [← h.metaPage] at hid
  rcases saveMetadata_cases hid.1 hid.2 with ⟨-, hsave⟩ | ⟨-, e, hsave⟩
  · exact .of_run_ok hsave rfl
  · exact .of_run_error hsave (h.kept e)

/-- An operation ends by saving the metadata. -/
theorem thenSave (h : Intact s F lost) (r : DbError) :
    EndsIn (do LocalFileStorageProvider.saveMetadata; return r) s
      (fun r' s' => r' = r ∧ s' = s.saved) Kept :=
  h.saveMetadata.bind fun _ _ hs => .pure ⟨rfl, hs⟩

theorem exists_tree_of_mem (h : Intact s F lost) (hmem : table ∈ F.map TableTree.name) :
    ∃ A f B, F = A ++ f :: B ∧ f.name = table ∧ s.btrees.find table = some (some f.root) := by
  obtain ⟨f, hf, rfl⟩ := List.mem_map.1 hmem
  obtain ⟨A, B, rfl⟩ := List.append_of_mem hf
  exact ⟨A, f, B, rfl, rfl, h.named.find_tree⟩

/-- Registering something about a table changes no tree, as long as the root is recorded. -/
theorem assignTable (h : Intact s (A ++ f :: B) lost) {info : TableInfo}
    (hroot : info.rootPageId = f.root ∨ info.rootPageId = f.layout.leaves.first 0) :
    Intact { s with tables := s.tables.assign f.name info } (A ++ f :: B) lost := by
  refine ⟨h.opened, h.metaPage, h.named.assignTable (by simp) info, ?_, h.trees, h.version⟩
  intro g hg
  by_cases hname : g.name = f.name
  · have hgf : g = f := by
      have hnodup := h.named.nodup_names
      exact List.inj_on_of_nodup_map hnodup hg (by simp) hname
    rw [hgf]
    exact ⟨info, AssocMap.find_assign_self _ _ _, hroot⟩
  · show ∃ info', (s.tables.assign f.name info).find g.name = some info' ∧ _
    rw [AssocMap.find_assign_of_ne _ _ hname]
    exact h.recorded g hg

theorem recordRoot (h : Intact s (A ++ f :: B) lost) :
    Intact (s.recordRoot f.name f.root) (A ++ f :: B) lost :=
  h.assignTable (Or.inl rfl)

/-- `syncRoot` of a table that exists does not throw. -/
theorem syncRoot (h : Intact s (A ++ f :: B) lost) {E : Fault → LocalFileStorageProvider → Prop} :
    EndsIn (LocalFileStorageProvider.syncRoot f.name) s
      (fun _ s' => s' = s.recordRoot f.name f.root) E := by
  refine .of_run_ok (a := ()) ?_ rfl
  show LocalFileStorageProvider.syncRoot f.name s = _
  rw [LocalFileStorageProvider.syncRoot, h.named.find_tree]
  rfl

/-- One tree has been linked anew. -/
theorem moveTree (h : Intact s (A ++ f :: B) lost) {t' : BTree} {L' : Layout} {lost' : List PageId}
    (hstep : Relinked ⟨s.pager, f.root⟩ f.layout (treePages (A ++ B) ++ (lost ++ [1])) t' L' lost') :
    Intact { s with pager := t'.pager, btrees := s.btrees.assign f.name (some t'.rootPageId) }
      (A ++ ⟨f.name, t'.rootPageId, L'⟩ :: B) (lost' ++ lost) := by
  have hperm : (treePages (A ++ B) ++ (lost' ++ lost ++ [1])).Perm
      (lost' ++ (treePages (A ++ B) ++ (lost ++ [1]))) := by
    rw [List.append_assoc lost', ← List.append_assoc, ← List.append_assoc lost']
    exact List.perm_append_comm.append_right _
  have htree : Linked t' L' (treePages (A ++ B) ++ (lost' ++ lost ++ [1])) :=
    onPages_linked.of_pages hstep.linked (fun _ _ => rfl) rfl
      (hstep.linked.owns.perm (hperm.append_left _))
  have htrees := h.trees.update onPages_linked htree hstep.confined f.name
  obtain ⟨touched, hframe, -⟩ := hstep.confined
  refine ⟨h.opened, h.metaPage, h.named.move _ _, ?_, htrees, hframe.version.trans h.version⟩
  intro g hg
  rw [List.mem_append, List.mem_cons] at hg
  rcases hg with hg | rfl | hg
  · exact h.recorded g (by simp [hg])
  · obtain ⟨info, hfind, hroot⟩ := h.recorded f (by simp)
    refine ⟨info, hfind, ?_⟩
    show info.rootPageId = t'.rootPageId ∨ info.rootPageId = L'.leaves.first 0
    rw [hstep.first]
    -- the recorded root is still the root unless that has left the first leaf
    rcases hroot with hroot | hroot
    · rw [hroot]
      exact hstep.root.imp Eq.symm id
    · exact Or.inr hroot
  · exact h.recorded g (by simp [hg])

/-- A call on the tree of a table. What it says of the entries when it returns and when it faults holds
of the tree that is there afterwards. -/
theorem onTree_cases {α : Type} {x : EStateM Fault BTree α} {R S : Layout → Prop}
    (h : Intact s (A ++ f :: B) lost)
    (hx : ∀ {others}, Linked ⟨s.pager, f.root⟩ f.layout others →
      EndsIn x ⟨s.pager, f.root⟩
        (fun _ t' => ∃ L', R L' ∧ Relinked ⟨s.pager, f.root⟩ f.layout others t' L' [])
        (fun e t' => Overrun e ∨ ∃ L' lost', S L' ∧
          Relinked ⟨s.pager, f.root⟩ f.layout others t' L' lost')) :
    EndsIn (LocalFileStorageProvider.onTree f.name x) s
      (fun _ s' => ∃ root L', R L' ∧ Intact s' (A ++ ⟨f.name, root, L'⟩ :: B) lost ∧
        s'.tables = s.tables)
      (fun e s' => Overrun e ∨ ∃ root L' lost', S L' ∧
        Intact s' (A ++ ⟨f.name, root, L'⟩ :: B) lost' ∧ s'.tables = s.tables) := by
  have hends := hx (h.trees.tree onPages_linked)
  cases htree : x.run ⟨s.pager, f.root⟩ with
  | ok a t =>
    have hrun : (LocalFileStorageProvider.onTree f.name x).run s = .ok a
        { s with pager := t.pager, btrees := s.btrees.assign f.name (some t.rootPageId) } := by
      show LocalFileStorageProvider.onTree f.name x s = _
      rw [LocalFileStorageProvider.onTree, h.named.find_tree]
      dsimp only
      rw [htree]
    obtain ⟨L', hR, hstep⟩ := hends.of_ok htree
    exact .of_run_ok hrun ⟨t.rootPageId, L', hR, h.moveTree hstep, rfl⟩
  | error e t =>
    have hrun : (LocalFileStorageProvider.onTree f.name x).run s = .error e
        { s with pager := t.pager, btrees := s.btrees.assign f.name (some t.rootPageId) } := by
      show LocalFileStorageProvider.onTree f.name x s = _
      rw [LocalFileStorageProvider.onTree, h.named.find_tree]
      dsimp only
      rw [htree]
    refine .of_run_error hrun ?_
    rcases hends.of_error htree with hover | ⟨L', lost', hS, hstep⟩
    · exact Or.inl hover
    · exact Or.inr ⟨t.rootPageId, L', _, hS, h.moveTree hstep, rfl⟩

theorem onTree {α : Type} {x : EStateM Fault BTree α} {R : Layout → Prop}
    (h : Intact s (A ++ f :: B) lost)
    (hx : ∀ {others}, Linked ⟨s.pager, f.root⟩ f.layout others →
      EndsIn x ⟨s.pager, f.root⟩
        (fun _ t' => ∃ L', R L' ∧ Relinked ⟨s.pager, f.root⟩ f.layout others t' L' [])
        (Salvaged ⟨s.pager, f.root⟩ f.layout others)) :
    EndsIn (LocalFileStorageProvider.onTree f.name x) s
      (fun _ s' => ∃ root L', R L' ∧ Intact s' (A ++ ⟨f.name, root, L'⟩ :: B) lost) Kept := by
  have hcases := h.onTree_cases (S := fun _ => True) fun hlinked =>
    (hx hlinked).mono (fun _ _ => id) fun e t' hf =>
      hf.imp id fun ⟨L', lost', hstep⟩ => ⟨L', lost', trivial, hstep⟩
  refine hcases.mono ?_ ?_
  · rintro _ s' ⟨root, L', hR, hintact, -⟩
    exact ⟨root, L', hR, hintact⟩
  · rintro e s' (hover | ⟨root, L', lost', -, hintact, -⟩)
    · exact Or.inl hover
    · exact hintact.kept e

/-! ## Rows -/

theorem effectiveRow (h : Intact s (A ++ f :: B) lost) (key : Value) (row : Tuple) :
    EndsIn (LocalFileStorageProvider.effectiveRow f.name key row) s
      (fun _ s' => Intact s' (A ++ f :: B) lost) Kept := by
  unfold LocalFileStorageProvider.effectiveRow
  split_ifs with hnull
  · obtain ⟨info, hfind, hroot⟩ := h.recorded f (by simp)
    have hinfo : s.tableInfo f.name = info := by
      rw [tableInfo, hfind]
      rfl
    refine .get_bind (.set_bind (.pure (h.assignTable ?_)))
    rw [hinfo]
    exact hroot
  · exact .pure h

/-- `put` keeps the provider intact. -/
theorem put (h : Intact s F lost) (txn : UInt64) (table : Bytes) (key : Value) (row : Tuple) :
    EndsIn (LocalFileStorageProvider.put txn table key row) s
      (fun _ s' => ∃ F', Intact s' F' lost) Kept := by
  unfold LocalFileStorageProvider.put
  apply EndsIn.get_bind
  split_ifs with hnone
  · exact .pure ⟨F, h⟩
  obtain ⟨r, hfind⟩ := Option.ne_none_iff_exists'.1 (by simpa using hnone : s.btrees.find table ≠ none)
  obtain ⟨A, f, B, rfl, rfl, -⟩ := h.named.exists_tree hfind
  refine (h.effectiveRow key row).bind fun kr s₁ h₁ => ?_
  have hcall : ∀ {others}, Linked ⟨s₁.pager, f.root⟩ f.layout others → _ :=
    fun hlinked => hlinked.put ⟨kr.1, 0, txn, false, kr.2⟩
  refine (h₁.onTree hcall).bind ?_
  rintro b s₂ ⟨root, L', -, h₂⟩
  refine (h₂.syncRoot).bind ?_
  rintro _ s₃ rfl
  exact .pure ⟨_, h₂.recordRoot⟩

/-- `remove` keeps the provider intact. -/
theorem remove (h : Intact s F lost) (txn : UInt64) (table : Bytes) (key : Value) :
    EndsIn (LocalFileStorageProvider.remove txn table key) s
      (fun _ s' => ∃ F', Intact s' F' lost) Kept := by
  unfold LocalFileStorageProvider.remove
  apply EndsIn.get_bind
  split_ifs with hnone
  · exact .pure ⟨F, h⟩
  obtain ⟨r, hfind⟩ := Option.ne_none_iff_exists'.1 (by simpa using hnone : s.btrees.find table ≠ none)
  obtain ⟨A, f, B, rfl, rfl, -⟩ := h.named.exists_tree hfind
  have hcall : ∀ {others}, Linked ⟨s.pager, f.root⟩ f.layout others → _ :=
    fun hlinked => hlinked.put ⟨key, 0, txn, true, Tuple.empty⟩
  refine (h.onTree hcall).bind ?_
  rintro b s₁ ⟨root, L', -, h₁⟩
  exact .pure ⟨_, h₁⟩

/-! ## Tables -/

section

variable {Q : DbError → LocalFileStorageProvider → Prop} {E : Fault → LocalFileStorageProvider → Prop}

/-- `createTable` up to the metadata: it refuses, throws before it has changed anything, or an empty
tree joins. -/
theorem createTable_cases (h : Intact s F lost) (schema : Schema)
    (hrefuse : ∀ r, r.isSentinel = false → Q r s) (hthrow : ∀ e, E e s)
    (hsave : ∀ p root, ∀ s₁ : LocalFileStorageProvider, s₁ = { s with
        pager := p
        tables := s.tables.assign schema.table ⟨schema, root, 0⟩
        btrees := s.btrees.assign schema.table (some root) } →
      Intact s₁ (F ++ [TableTree.blank schema.table root]) lost →
      EndsIn (do LocalFileStorageProvider.saveMetadata; return DbError.sentinel) s₁ Q E) :
    EndsIn (LocalFileStorageProvider.createTable schema) s Q E := by
  unfold LocalFileStorageProvider.createTable
  apply EndsIn.get_bind
  rw [if_neg (by simp [h.opened])]
  split_ifs with hsome
  · exact .pure (hrefuse _ rfl)
  cases hcol : schema.columns.find? fun col => !accepts col.type with
  | some col => exact .pure (hrefuse _ (by simp [DbError.isSentinel, ascii]))
  | none =>
    have hnot := h.named.find_table_eq_none_iff.1 (by simpa using hsome)
    dsimp only
    cases hnew : BTree.createNew.run ⟨s.pager, 0⟩ with
    -- no page is left, and none has been taken
    | error e t =>
      have hsame : t.pager = s.pager := by
        rw [BTree.createNew, EStateM.run_bind] at hnew
        rcases BTree.newPage_cases (t := ⟨s.pager, 0⟩) h.trees.owns .leaf (Or.inl rfl) with
          ⟨-, hrun⟩ | ⟨x, t₁, hrun, -⟩
        · rw [hrun] at hnew
          cases hnew
          rfl
        · rw [hrun] at hnew
          cases hnew
      refine .set_bind (.throw ?_)
      rw [hsame]
      exact hthrow e
    | ok root t =>
      obtain ⟨htrees, hframe, -, -⟩ := h.trees.createNew onPages_linked Rep.linked hnew schema.table
      have hnamed := h.named.insert hnot ⟨schema, root, 0⟩ root (Layout.empty root)
      have hrecorded : Recorded (s.tables.assign schema.table ⟨schema, root, 0⟩)
          (F ++ [TableTree.blank schema.table root]) := by
        intro g hg
        rcases List.mem_append.1 hg with hg | hg
        · have hne : g.name ≠ schema.table := by
            intro heq
            exact hnot (heq ▸ List.mem_map_of_mem hg)
          rw [AssocMap.find_assign_of_ne _ _ hne]
          exact h.recorded g hg
        · rw [List.mem_singleton.1 hg]
          exact ⟨_, AssocMap.find_assign_self _ _ _, Or.inl rfl⟩
      refine .set_bind (hsave t.pager root _ rfl ?_)
      exact ⟨h.opened, h.metaPage, hnamed, hrecorded, htrees, hframe.version.trans h.version⟩

/-- `createTable` refuses, or an empty tree joins. -/
theorem createTable (h : Intact s F lost) (schema : Schema) :
    EndsIn (LocalFileStorageProvider.createTable schema) s
      (fun r s' => (r.isSentinel = false ∧ s' = s) ∨
        ∃ root, Intact s' (F ++ [TableTree.blank schema.table root]) lost ∧
          s'.tables.find schema.table = some ⟨schema, root, 0⟩) Kept := by
  refine h.createTable_cases schema (fun r hr => Or.inl ⟨hr, rfl⟩) h.kept ?_
  rintro p root _ rfl hintact
  refine (hintact.thenSave _).imp ?_
  rintro _ s' ⟨-, rfl⟩
  exact Or.inr ⟨root, hintact.saved, AssocMap.find_assign_self _ _ _⟩

theorem recorded_erase (h : Intact s (A ++ f :: B) lost) : Recorded (s.tables.erase f.name) (A ++ B) := by
  intro g hg
  obtain ⟨hA, hB⟩ := h.named.not_mem_names
  have hne : g.name ≠ f.name := by
    intro heq
    rcases List.mem_append.1 hg with hg | hg
    · exact hA (heq ▸ List.mem_map_of_mem hg)
    · exact hB (heq ▸ List.mem_map_of_mem hg)
  rw [AssocMap.find_erase_of_ne _ hne]
  apply h.recorded g
  rw [List.mem_append, List.mem_cons]
  exact (List.mem_append.1 hg).imp_right Or.inr

/-- `dropTable` up to the metadata. -/
theorem dropTable_cases (h : Intact s F lost) (name : Bytes) (hrefuse : ∀ r, Q r s)
    (hsave : ∀ A f B p btrees lost', ∀ s₁ : LocalFileStorageProvider, s₁ = { s with
        pager := p
        tables := s.tables.erase name
        btrees := btrees } →
      F = A ++ f :: B → f.name = name → Intact s₁ (A ++ B) lost' →
      EndsIn (do LocalFileStorageProvider.saveMetadata; return DbError.sentinel) s₁ Q E) :
    EndsIn (LocalFileStorageProvider.dropTable name) s Q E := by
  unfold LocalFileStorageProvider.dropTable
  apply EndsIn.get_bind
  rw [if_neg (by simp [h.opened])]
  split_ifs with hnone hsome
  · exact .pure (hrefuse _)
  · obtain ⟨A, f, B, rfl, rfl, hfind⟩ := h.exists_tree_of_mem
      (show name ∈ F.map TableTree.name by
        by_contra hnot
        rw [h.named.find_eq_none_iff.2 hnot] at hsome
        cases hsome)
    have htree := h.trees.tree onPages_linked
    obtain ⟨lost', hlost⟩ := htree.exists_lost
    obtain ⟨t', hfree, howns, hreleased⟩ := htree.run_freeAllPages hlost
    have hrun : (LocalFileStorageProvider.onTree f.name BTree.freeAllPages).run s = .ok () { s with
        pager := t'.pager, btrees := s.btrees.assign f.name (some t'.rootPageId) } := by
      show LocalFileStorageProvider.onTree f.name BTree.freeAllPages s = _
      rw [LocalFileStorageProvider.onTree, hfind]
      dsimp only
      rw [hfree]
    have hperm : (treePages (A ++ B) ++ (lost' ++ lost ++ [1])).Perm
        (lost' ++ (treePages (A ++ B) ++ (lost ++ [1]))) := by
      rw [List.append_assoc lost', ← List.append_assoc, ← List.append_assoc lost']
      exact List.perm_append_comm.append_right _
    have hintact : Intact { s with
        pager := t'.pager
        tables := s.tables.erase f.name
        btrees := (s.btrees.assign f.name (some t'.rootPageId)).erase f.name }
        (A ++ B) (lost' ++ lost) :=
      ⟨h.opened, h.metaPage, (h.named.move t'.rootPageId f.layout).erase, h.recorded_erase,
        h.trees.drop onPages_linked hreleased (howns.perm hperm),
        hreleased.frame.version.trans h.version⟩
    refine EndsIn.bind (Q := fun _ s' => s' = _) (.of_run_ok hrun rfl) ?_
    rintro _ s₁ rfl
    exact .modify_bind (hsave A f B _ _ _ _ rfl rfl rfl hintact)
  -- a tree is registered for every recorded table
  · exfalso
    have hmem := h.named.find_table_eq_none_iff.2.mt (by simpa using hnone)
    exact hmem (h.named.find_eq_none_iff.1 (by simpa using hsome))

/-- `dropTable` refuses, or the tree of the table goes; pages that its root does not lead to are
lost. -/
theorem dropTable (h : Intact s F lost) (name : Bytes) :
    EndsIn (LocalFileStorageProvider.dropTable name) s
      (fun _ s' => ∃ F' lost', Intact s' F' lost') Kept := by
  refine h.dropTable_cases name (fun _ => ⟨F, lost, h⟩) ?_
  rintro A f B p btrees lost' s₁ - - - hintact
  refine (hintact.thenSave _).imp ?_
  rintro _ s' ⟨-, rfl⟩
  exact ⟨_, _, hintact.saved⟩

/-- A rename up to the metadata. -/
theorem renameTable_cases (h : Intact s F lost) (name newName : Bytes)
    (hrefuse : ∀ r, r.isSentinel = false → Q r s)
    (hsave : ∀ A f B info btrees, ∀ s₁ : LocalFileStorageProvider, s₁ = { s with
        tables := (s.tables.erase name).assign newName
          { info with schema := { info.schema with table := newName } }
        btrees := btrees } →
      F = A ++ f :: B → f.name = name → newName ∉ F.map TableTree.name →
      s.tables.find name = some info →
      Intact s₁ (A ++ B ++ [{ f with name := newName }]) lost →
      EndsIn (do LocalFileStorageProvider.saveMetadata; return DbError.sentinel) s₁ Q E) :
    EndsIn (LocalFileStorageProvider.alterTable name (.renameTable newName)) s Q E := by
  unfold LocalFileStorageProvider.alterTable
  apply EndsIn.get_bind
  rw [if_neg (by simp [h.opened])]
  cases hfind : s.tables.find name with
  | none => exact .pure (hrefuse _ rfl)
  | some info =>
    dsimp only
    split_ifs with hempty hold
    · exact .pure (hrefuse _ (by simp [DbError.isSentinel, ascii]))
    · exact .pure (hrefuse _ rfl)
    have hnew := h.named.find_table_eq_none_iff.1 (by simpa using hold)
    obtain ⟨A, f, B, rfl, rfl, htree⟩ := h.exists_tree_of_mem
      (show name ∈ F.map TableTree.name by
        by_contra hnot
        rw [h.named.find_table_eq_none_iff.2 hnot] at hfind
        cases hfind)
    -- the new name is free, so it takes the old name's tree and no other
    have hnew' : newName ∉ (A ++ B).map TableTree.name := by
      intro hmem
      apply hnew
      rw [List.map_append, List.mem_append] at hmem
      rw [List.map_append, List.map_cons, List.mem_append, List.mem_cons]
      exact hmem.imp_right Or.inr
    set moved : TableInfo := { info with schema := { info.schema with table := newName } }
    have hrecorded : Recorded ((s.tables.erase f.name).assign newName moved)
        (A ++ B ++ [{ f with name := newName }]) := by
      intro g hg
      rcases List.mem_append.1 hg with hg | hg
      · have hne : g.name ≠ newName := by
          intro heq
          exact hnew' (heq ▸ List.mem_map_of_mem hg)
        rw [AssocMap.find_assign_of_ne _ _ hne]
        exact h.recorded_erase g hg
      · rw [List.mem_singleton.1 hg]
        obtain ⟨info', hfind', hroot⟩ := h.recorded f (by simp)
        rw [hfind] at hfind'
        cases hfind'
        exact ⟨moved, AssocMap.find_assign_self _ _ _, hroot⟩
    have hintact : Intact { s with
        tables := (s.tables.erase f.name).assign newName moved
        btrees := (s.btrees.erase f.name).assign newName (some f.root) }
        (A ++ B ++ [{ f with name := newName }]) lost :=
      ⟨h.opened, h.metaPage, h.named.erase.insert hnew' moved f.root f.layout, hrecorded,
        h.trees.rename onPages_linked newName, h.version⟩
    rw [htree]
    exact .set_bind (hsave A f B info _ _ rfl rfl rfl hnew hfind hintact)

/-- A rename refuses, or the tree is found under the new name from then on. -/
theorem renameTable (h : Intact s F lost) (name newName : Bytes) :
    EndsIn (LocalFileStorageProvider.alterTable name (.renameTable newName)) s
      (fun r s' => (r.isSentinel = false ∧ s' = s) ∨
        ∃ A f B, F = A ++ f :: B ∧ f.name = name ∧ newName ∉ F.map TableTree.name ∧
          Intact s' (A ++ B ++ [{ f with name := newName }]) lost ∧ s'.visibleSeq = s.visibleSeq)
      Kept := by
  refine h.renameTable_cases name newName (fun r hr => Or.inl ⟨hr, rfl⟩) ?_
  rintro A f B info btrees _ rfl hF hname hnew - hintact
  refine (hintact.thenSave _).imp ?_
  rintro _ s' ⟨-, rfl⟩
  exact Or.inr ⟨A, f, B, hF, hname, hnew, hintact.saved, rfl⟩

/-- A change of the columns up to the metadata. -/
theorem alterColumns_cases (h : Intact s F lost) (name : Bytes) (spec : AlterSpec)
    (hspec : ∀ newName, spec ≠ .renameTable newName) (hrefuse : ∀ r, Q r s)
    (hsave : ∀ info altered, ∀ s₁ : LocalFileStorageProvider,
      s₁ = { s with tables := s.tables.assign name altered } →
      s.tables.find name = some info → altered.autoId = info.autoId → Intact s₁ F lost →
      EndsIn (do LocalFileStorageProvider.saveMetadata; return DbError.sentinel) s₁ Q E) :
    EndsIn (LocalFileStorageProvider.alterTable name spec) s Q E := by
  -- both changes keep the recorded root
  have hcolumns : ∀ {info altered : TableInfo}, s.tables.find name = some info →
      altered.rootPageId = info.rootPageId →
      Intact { s with tables := s.tables.assign name altered } F lost := by
    intro info altered hfind hsame
    have hmem : name ∈ F.map TableTree.name := by
      by_contra hnot
      rw [h.named.find_table_eq_none_iff.2 hnot] at hfind
      cases hfind
    obtain ⟨A, f, B, rfl, rfl, -⟩ := h.exists_tree_of_mem hmem
    obtain ⟨info', hfind', hroot⟩ := h.recorded f (by simp)
    rw [hfind] at hfind'
    cases hfind'
    exact h.assignTable (hsame ▸ hroot : altered.rootPageId = f.root ∨ _)
  unfold LocalFileStorageProvider.alterTable
  apply EndsIn.get_bind
  rw [if_neg (by simp [h.opened])]
  cases hfind : s.tables.find name with
  | none => exact .pure (hrefuse _)
  | some info =>
    cases spec with
    | renameTable newName => exact absurd rfl (hspec newName)
    | addColumn columnDef =>
      dsimp only
      split_ifs with hold
      · exact .pure (hrefuse _)
      · exact .set_bind (hsave info _ _ rfl hfind rfl (hcolumns hfind rfl))
    | dropColumn column =>
      dsimp only
      split_ifs with hold
      · exact .pure (hrefuse _)
      · exact .set_bind (hsave info _ _ rfl hfind rfl (hcolumns hfind rfl))

/-- `alterTable` keeps the provider intact. -/
theorem alterTable (h : Intact s F lost) (name : Bytes) (spec : AlterSpec) :
    EndsIn (LocalFileStorageProvider.alterTable name spec) s (fun _ s' => ∃ F', Intact s' F' lost)
      Kept := by
  have hcolumns : (∀ newName, spec ≠ .renameTable newName) →
      EndsIn (LocalFileStorageProvider.alterTable name spec) s (fun _ s' => ∃ F', Intact s' F' lost)
        Kept := by
    intro hspec
    refine h.alterColumns_cases name spec hspec (fun _ => ⟨F, h⟩) ?_
    rintro info altered s₁ - - - hintact
    refine (hintact.thenSave _).imp ?_
    rintro _ s' ⟨-, rfl⟩
    exact ⟨F, hintact.saved⟩
  cases spec with
  | renameTable newName =>
    refine (h.renameTable name newName).imp ?_
    rintro r s' (⟨-, rfl⟩ | ⟨A, f, B, -, -, -, hintact, -⟩)
    · exact ⟨F, h⟩
    · exact ⟨_, hintact⟩
  | addColumn columnDef => exact hcolumns fun _ => nofun
  | dropColumn column => exact hcolumns fun _ => nofun

end

/-! ## Commits -/

end Intact

/-- What a commit does to the tree of a table. -/
structure Gained (txn seq : UInt64) (f f' : TableTree) : Prop where
  name : f'.name = f.name
  taken : TakenAll (promotion txn seq f) f.layout.scanAll f'.layout.scanAll

/-- A round of the loop of `commit` on a linked tree. -/
theorem Linked.promote_among {t : BTree} {L : Layout} {others : List PageId} (h : Linked t L others)
    (txn seq : UInt64) :
    EndsIn (LocalFileStorageProvider.promote txn seq) t
      (fun _ t' => ∃ L', TakenAll (promoted txn seq L.scanAll) L.scanAll L'.scanAll ∧
        Relinked t L others t' L' [])
      (SalvagedAmong (promoted txn seq L.scanAll) t L others) := by
  refine EndsIn.bind (Q := fun es t' => es = L.scanAll ∧ t' = t)
    (.of_run_ok (run_reading_ok h.scanAll_eq) ⟨rfl, rfl⟩) ?_
  rintro es t₁ ⟨rfl, rfl⟩
  exact (h.putAll_among _).thenPure

theorem Linked.promote {t : BTree} {L : Layout} {others : List PageId} (h : Linked t L others)
    (txn seq : UInt64) :
    EndsIn (LocalFileStorageProvider.promote txn seq) t
      (fun _ t' => ∃ L', TakenAll (promoted txn seq L.scanAll) L.scanAll L'.scanAll ∧
        Relinked t L others t' L' [])
      (Salvaged t L others) :=
  (h.promote_among txn seq).mono (fun _ _ => id) fun _ _ hf => hf.salvaged

namespace Intact

variable {s s' : LocalFileStorageProvider} {F A B : List TableTree} {f : TableTree}
  {lost : List PageId} {table : Bytes}

/-- The loop of `commit`: the trees of `A` have had their turn. -/
theorem promoteAll (h : Intact s (A ++ B) lost) (txn seq : UInt64) :
    EndsIn (LocalFileStorageProvider.promoteAll txn seq (B.map TableTree.name)) s
      (fun _ s' => ∃ B', List.Forall₂ (Gained txn seq) B B' ∧ Intact s' (A ++ B') lost) Kept := by
  induction B generalizing s A with
  | nil => exact .pure ⟨[], .nil, h⟩
  | cons f B ih =>
    rw [List.map_cons, LocalFileStorageProvider.promoteAll]
    have hcall : ∀ {others}, Linked ⟨s.pager, f.root⟩ f.layout others → _ :=
      fun hlinked => hlinked.promote txn seq
    refine (h.onTree hcall).bind ?_
    rintro _ s₁ ⟨root, L', htaken, h₁⟩
    refine h₁.syncRoot.bind ?_
    rintro _ s₂ rfl
    have h₂ := h₁.recordRoot
    rw [List.append_cons] at h₂
    refine (ih h₂).imp ?_
    rintro _ s₃ ⟨B', hgained, h₃⟩
    rw [← List.append_cons] at h₃
    exact ⟨⟨f.name, root, L'⟩ :: B', .cons ⟨rfl, htaken⟩ hgained, h₃⟩

/-- `commit` puts the staged versions of the transaction into every tree once more. -/
theorem commit (h : Intact s F lost) (txn seq : UInt64) :
    EndsIn (LocalFileStorageProvider.commit txn seq) s
      (fun _ s' => ∃ F', List.Forall₂ (Gained txn seq) F F' ∧ Intact s' F' lost) Kept := by
  have hnames : s.btrees.entries.map Prod.fst = F.map TableTree.name := by
    rw [h.named.btrees, List.map_map]
    rfl
  unfold LocalFileStorageProvider.commit
  apply EndsIn.get_bind
  rw [hnames]
  refine (promoteAll (A := []) h txn seq).bind ?_
  rintro _ s₁ ⟨F', hgained, h₁⟩
  refine h₁.saveMetadata.bind ?_
  rintro _ s₂ rfl
  have h₂ := h₁.saved
  exact .modify_bind (.pure ⟨F', hgained, h₂.opened, h₂.metaPage, h₂.named, h₂.recorded, h₂.trees,
    h₂.version⟩)

/-- Every operation keeps the provider intact, whether it returns or throws. -/
theorem exec (h : Intact s F lost) (op : Op) :
    EndsIn op.exec s (fun _ s' => ∃ F' lost', Intact s' F' lost') Kept := by
  cases op with
  | createTable schema =>
    refine (h.createTable schema).imp ?_
    rintro r s' (⟨-, rfl⟩ | ⟨root, h', -⟩)
    · exact ⟨F, lost, h⟩
    · exact ⟨_, lost, h'⟩
  | dropTable name => exact h.dropTable name
  | alterTable name spec =>
    exact (h.alterTable name spec).imp fun _ _ ⟨F', h'⟩ => ⟨F', lost, h'⟩
  | put txn table key row =>
    exact (h.put txn table key row).imp fun _ _ ⟨F', h'⟩ => ⟨F', lost, h'⟩
  | remove txn table key =>
    exact (h.remove txn table key).imp fun _ _ ⟨F', h'⟩ => ⟨F', lost, h'⟩
  | prepare txn => exact .pure ⟨F, lost, h⟩
  | commit txn seq => exact (h.commit txn seq).imp fun _ _ ⟨F', _, h'⟩ => ⟨F', lost, h'⟩
  | commitNext txn =>
    -- the provider's own counter is advanced before the versions are written
    have hnext : Intact { s with internalSeq := s.internalSeq + 1 } F lost :=
      ⟨h.opened, h.metaPage, h.named, h.recorded, h.trees, h.version⟩
    refine .get_bind (.modify_bind ?_)
    exact (hnext.commit txn (s.internalSeq + 1)).imp fun _ _ ⟨F', _, h'⟩ => ⟨F', lost, h'⟩
  | abort txn => exact .pure ⟨F, lost, h⟩

/-! ## Restarts -/

theorem running (h : Intact s F lost) : Running s (treePages F ++ (lost ++ [1])) :=
  ⟨h.opened, h.metaPage, by simp, h.trees.owns, h.version⟩

end Intact

theorem Sound.intact {s : LocalFileStorageProvider} {F : List TableTree} (h : Sound s F)
    (hsync : Synced s F) : Intact s F [] := by
  refine ⟨h.opened, h.metaPage, h.named, ?_, ⟨?_, h.forest.owns⟩, h.version⟩
  · intro f hf
    obtain ⟨info, hfind, hroot⟩ := hsync f hf
    exact ⟨info, hfind, Or.inl hroot⟩
  · exact fun f hf => (h.forest.trees f hf).linked

/-- A tree found through its first leaf is linked, and its old root is lost. -/
theorem Linked.found {p : Pager} {f : TableTree} {root : PageId}
    (h : Linked ⟨p, f.root⟩ f.layout [])
    (hroot : root = f.root ∨ root = f.layout.leaves.first 0) :
    ∃ L lost, Linked ⟨p, root⟩ L [] ∧ (L.pages root ++ lost).Perm f.pages ∧
      L.scanAll = f.layout.scanAll := by
  by_cases hsame : root = f.root
  · rw [hsame]
    exact ⟨f.layout, [], h, by rw [List.append_nil]; exact List.Perm.refl _, rfl⟩
  have hfirst := hroot.resolve_left hsame
  cases hix : f.layout.index with
  | none =>
    obtain ⟨es, rest, hl⟩ := h.leaves_of_index_none hix
    rw [hl] at hfirst
    exact absurd hfirst hsame
  | some ies =>
    have hpages : f.pages = f.root :: f.layout.leaves.pages := by
      rw [TableTree.pages, Layout.pages, hix]
    have hperm : (f.layout.leaves.pages ++ [f.root]).Perm f.pages := by
      rw [hpages]
      exact List.perm_append_singleton _ _
    have hne : f.layout.leaves ≠ [] := by
      intro hnil
      obtain ⟨pre, es, post, hsplit⟩ := h.exists_leaf .null
      rw [hnil] at hsplit
      simp at hsplit
    refine ⟨⟨none, f.layout.leaves⟩, [f.root], ⟨h.chain, ?_, h.small, ?_⟩, hperm, rfl⟩
    · obtain ⟨leaf, rest, hl⟩ := List.exists_cons_of_ne_nil hne
      refine ⟨leaf.2, rest, ?_⟩
      rw [hfirst, hl]
      rfl
    · refine h.owns.subperm ?_
      rw [List.append_nil, List.append_nil]
      exact (List.sublist_append_left _ _).subperm.trans hperm.subperm

/-- The tree of the same table, with the same entries. -/
def SameTable (f f' : TableTree) : Prop :=
  f'.name = f.name ∧ f'.layout.scanAll = f.layout.scanAll

/-- Trees found through the recorded roots. -/
theorem exists_found {p : Pager} {F : List TableTree} (recorded : TableTree → PageId)
    (h : ∀ f ∈ F, Linked ⟨p, f.root⟩ f.layout [])
    (hroot : ∀ f ∈ F, recorded f = f.root ∨ recorded f = f.layout.leaves.first 0) :
    ∃ F' lost, F'.map (fun f => (f.name, f.root)) = F.map (fun f => (f.name, recorded f)) ∧
      (∀ f ∈ F', Linked ⟨p, f.root⟩ f.layout []) ∧ (treePages F' ++ lost).Perm (treePages F) ∧
      List.Forall₂ SameTable F F' := by
  induction F with
  | nil => exact ⟨[], [], rfl, fun f hf => absurd hf List.not_mem_nil, List.Perm.refl _, .nil⟩
  | cons f F ih =>
    obtain ⟨F', lost', hF', htrees, hperm, hsame⟩ :=
      ih (fun g hg => h g (List.mem_cons_of_mem _ hg)) fun g hg => hroot g (List.mem_cons_of_mem _ hg)
    obtain ⟨L, lost, hlinked, hfound, hentries⟩ :=
      (h f List.mem_cons_self).found (hroot f List.mem_cons_self)
    refine ⟨⟨f.name, recorded f, L⟩ :: F', lost ++ lost', ?_, ?_, ?_, .cons ⟨rfl, hentries⟩ hsame⟩
    · rw [List.map_cons, List.map_cons, hF']
    · intro g hg
      rcases List.mem_cons.1 hg with rfl | hg
      · exact hlinked
      · exact htrees g hg
    · rw [treePages_cons, treePages_cons]
      have hswap : (L.pages (recorded f) ++ treePages F' ++ (lost ++ lost')).Perm
          ((L.pages (recorded f) ++ lost) ++ (treePages F' ++ lost')) := by
        simp only [List.append_assoc]
        refine List.Perm.append_left _ ?_
        rw [← List.append_assoc, ← List.append_assoc]
        exact List.perm_append_comm.append_right _
      exact hswap.trans (hfound.append hperm)

namespace Intact

variable {s s' : LocalFileStorageProvider} {F : List TableTree} {lost : List PageId}

/-- A new process on the file finds the trees through the recorded roots, with all their entries. -/
theorem restarted_same (h : Intact s F lost) :
    ∃ F' lost', Intact s.restarted F' lost' ∧ List.Forall₂ SameTable F F' := by
  have hrunning := h.running
  -- the trees lie on the same pages, but the restart finds them under the recorded roots
  have hold : SideBySide Linked s.restarted.pager F (lost ++ [1]) :=
    h.saved.trees.of_pages onPages_linked (fun x _ => hrunning.readPage_restarted x)
      hrunning.owns_restarted
  obtain ⟨F', lost', hF', htrees, hperm, hsame⟩ := exists_found
    (fun f => (s.tableInfo f.name).rootPageId) hold.trees (by
      intro f hf
      obtain ⟨info, hfind, hroot⟩ := h.recorded f hf
      rw [tableInfo, hfind]
      exact hroot)
  have hnames : F'.map TableTree.name = F.map TableTree.name := by
    have hfst := congrArg (List.map Prod.fst) hF'
    rw [List.map_map, List.map_map] at hfst
    exact hfst
  have hnamed : Named s.metadata.persisted.tables (treesOf s.metadata.persisted.tables) F' := by
    constructor
    · rw [hnames, ← h.named.tables]
      show (List.map _ s.tables.entries).map Prod.fst = _
      rw [List.map_map]
      rfl
    · rw [entries_treesOf]
      show (List.map _ s.tables.entries).map _ = _
      rw [List.map_map]
      have hroots : ∀ f ∈ F, ∃ info, s.tables.find f.name = some info ∧
          some info.rootPageId = some (s.tableInfo f.name).rootPageId := by
        intro f hf
        obtain ⟨info, hfind, -⟩ := h.recorded f hf
        exact ⟨info, hfind, by rw [tableInfo, hfind]; rfl⟩
      have hentries := AssocMap.map_entries_eq (g := fun info : TableInfo => some info.rootPageId)
        h.named.tables hroots
      have hsome := congrArg (List.map fun e : Bytes × PageId => (e.1, some e.2)) hF'
      rw [List.map_map, List.map_map] at hsome
      exact hentries.trans hsome.symm
  have howns : s.restarted.pager.Owns (treePages F' ++ (lost' ++ lost ++ [1])) := by
    refine hrunning.owns_restarted.perm ?_
    rw [List.append_assoc, ← List.append_assoc]
    exact hperm.append_right _
  refine ⟨F', lost' ++ lost, ⟨rfl, rfl, hnamed, ?_, ⟨htrees, howns⟩, rfl⟩, hsame⟩
  intro f hf
  obtain ⟨info, hfind, hroot⟩ := synced_loaded (p := s.restarted.pager) (m := s.metadata) hnamed f hf
  exact ⟨info, hfind, Or.inl hroot⟩

theorem restarted (h : Intact s F lost) : ∃ F' lost', Intact s.restarted F' lost' := by
  obtain ⟨F', lost', hintact, -⟩ := h.restarted_same
  exact ⟨F', lost', hintact⟩

/-- A restart keeps the provider intact. -/
theorem restart (h : Intact s F lost) (hshort : s.metadata.Short) (hrestart : Restart s s') :
    ∃ F' lost', Intact s' F' lost' := by
  by_cases hmagic : s.pager.header.magic = Pager.magic
  · obtain ⟨-, rfl⟩ := (h.running.restart_iff_kept hshort hmagic).1 hrestart
    exact h.restarted
  · have hsound := (h.running.restart_lost hmagic hrestart).1
    exact ⟨[], [], hsound.intact (synced_nil _)⟩

end Intact

end OpenDB
