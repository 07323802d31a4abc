import OpenDB.Storage.Forest

/-!
# An open provider

`Sound s F` says that the provider `s` is open and that its tables are the trees of `F`: the
registry and the tree objects have the same names, every tree is laid out on pages of its own, and
page 1 is apart from all of them. The theorems here say what an operation that returns does to `F`.

The row operations only ever add versions, so each of them is described by the calls it makes on
each tree: `Grown calls F F'`. On the side of the pager, `PagerStep` says that nothing outside the
trees and the free pages has changed.
-/

set_option autoImplicit false

namespace OpenDB

open OpenDB.Library

/-- The registry and the tree objects have the names of the trees, and the objects their roots. -/
structure Named (tables : AssocMap Bytes TableInfo) (btrees : AssocMap Bytes (Option PageId))
    (F : List TableTree) : Prop where
  tables : tables.entries.map Prod.fst = F.map TableTree.name
  btrees : btrees.entries = F.map fun f => (f.name, some f.root)

namespace Named

variable {tables : AssocMap Bytes TableInfo} {btrees : AssocMap Bytes (Option PageId)}
  {F A B : List TableTree} {f : TableTree} {table : Bytes}

theorem nodup_names (h : Named tables btrees F) : (F.map TableTree.name).Nodup := by
  rw [← h.tables]
  exact tables.distinct

/-- The tree of a table. -/
theorem exists_tree (h : Named tables btrees F) {r : Option PageId}
    (hfind : btrees.find table = some r) :
    ∃ A f B, F = A ++ f :: B ∧ f.name = table ∧ r = some f.root := by
  obtain ⟨A', B', hentries, -, -⟩ := AssocMap.exists_of_find hfind
  rw [h.btrees] at hentries
  obtain ⟨A, F', hF, -, hF'⟩ := List.map_eq_append_iff.1 hentries
  obtain ⟨f, B, hfB, hf, -⟩ := List.map_eq_cons_iff.1 hF'
  rw [Prod.mk.injEq] at hf
  exact ⟨A, f, B, by rw [hF, hfB], hf.1, hf.2.symm⟩

theorem not_mem_names (h : Named tables btrees (A ++ f :: B)) :
    f.name ∉ A.map TableTree.name ∧ f.name ∉ B.map TableTree.name := by
  have hnodup := h.nodup_names
  rw [List.map_append, List.map_cons, List.nodup_append, List.nodup_cons] at hnodup
  exact ⟨fun hmem => hnodup.2.2 f.name hmem f.name List.mem_cons_self rfl, hnodup.2.1.1⟩

theorem find_tree (h : Named tables btrees (A ++ f :: B)) :
    btrees.find f.name = some (some f.root) := by
  rw [AssocMap.find]
  rw [h.btrees, List.map_append, List.map_cons]
  refine lookup_append_cons _ ?_
  rw [List.map_map]
  exact h.not_mem_names.1

theorem find_eq_none_iff (h : Named tables btrees F) :
    btrees.find table = none ↔ table ∉ F.map TableTree.name := by
  rw [AssocMap.find_eq_none_iff, h.btrees, List.map_map]
  rfl

theorem find_table_eq_none_iff (h : Named tables btrees F) :
    tables.find table = none ↔ table ∉ F.map TableTree.name := by
  rw [AssocMap.find_eq_none_iff, h.tables]

theorem name_mem (h : Named tables btrees F) {r : Option PageId}
    (hfind : btrees.find table = some r) : table ∈ F.map TableTree.name := by
  obtain ⟨A, f, B, rfl, rfl, -⟩ := h.exists_tree hfind
  simp

/-- One of the trees has moved its root. -/
theorem move (h : Named tables btrees (A ++ f :: B)) (root : PageId) (L : Layout) :
    Named tables (btrees.assign f.name (some root)) (A ++ ⟨f.name, root, L⟩ :: B) := by
  constructor
  · rw [h.tables]
    simp
  · show assign f.name (some root) btrees.entries = _
    rw [h.btrees, List.map_append, List.map_cons]
    have hA : f.name ∉ (A.map fun g => (g.name, some g.root)).map Prod.fst := by
      rw [List.map_map]
      exact h.not_mem_names.1
    rw [assign_append_cons hA, List.map_append, List.map_cons]

theorem assignTable (h : Named tables btrees F) (hmem : table ∈ F.map TableTree.name)
    (info : TableInfo) : Named (tables.assign table info) btrees F := by
  refine ⟨?_, h.btrees⟩
  show (assign table info tables.entries).map Prod.fst = _
  rw [map_fst_assign, h.tables, if_pos hmem]

/-- A table under a new name goes to the end. -/
theorem insert (h : Named tables btrees F) (hnot : table ∉ F.map TableTree.name) (info : TableInfo)
    (root : PageId) (L : Layout) :
    Named (tables.assign table info) (btrees.assign table (some root)) (F ++ [⟨table, root, L⟩]) := by
  constructor
  · show (assign table info tables.entries).map Prod.fst = _
    rw [map_fst_assign, h.tables, if_neg hnot, List.map_append]
    rfl
  · show assign table (some root) btrees.entries = _
    rw [assign_of_not_mem (by rw [h.btrees, List.map_map]; exact hnot), h.btrees, List.map_append]
    rfl

theorem erase (h : Named tables btrees (A ++ f :: B)) :
    Named (tables.erase f.name) (btrees.erase f.name) (A ++ B) := by
  obtain ⟨hA, hB⟩ := h.not_mem_names
  have hsome : ¬ tables.find f.name = none := by
    rw [h.find_table_eq_none_iff]
    simp
  obtain ⟨info, hfind⟩ := Option.ne_none_iff_exists'.1 hsome
  obtain ⟨T, U, hsplit, hT, hU⟩ := AssocMap.exists_of_find hfind
  constructor
  · have hnames := h.tables
    rw [hsplit, List.map_append, List.map_cons, List.map_append, List.map_cons] at hnames
    show (eraseKey f.name tables.entries).map Prod.fst = _
    rw [hsplit, eraseKey_append_cons hT hU, List.map_append, List.map_append]
    obtain ⟨hTA, -, hUB⟩ := (List.append_cons_inj_of_notMem hT hU).1 hnames
    rw [hTA, hUB]
  · show eraseKey f.name btrees.entries = _
    rw [h.btrees, List.map_append, List.map_cons, eraseKey_append_cons, List.map_append]
    · rw [List.map_map]
      exact hA
    · rw [List.map_map]
      exact hB

end Named

/-- The provider is open and its tables are the trees of `F`. -/
structure Sound (s : LocalFileStorageProvider) (F : List TableTree) : Prop where
  opened : s.opened = true
  metaPage : s.metaPageId = 1
  tables : s.tables.entries.map Prod.fst = F.map TableTree.name
  btrees : s.btrees.entries = F.map fun f => (f.name, some f.root)
  forest : Forest s.pager F [1]
  version : s.pager.header.version = Pager.version

/-- The recorded roots are those of the tree objects. -/
def Synced (s : LocalFileStorageProvider) (F : List TableTree) : Prop :=
  ∀ f ∈ F, ∃ info, s.tables.find f.name = some info ∧ info.rootPageId = f.root

/-- Every tree has taken the steps of the calls made on it. -/
def Grown (calls : TableTree → List LeafEntry) (F F' : List TableTree) : Prop :=
  List.Forall₂ (fun f f' => f'.name = f.name ∧ PutSteps (calls f) f.layout f'.layout) F F'

theorem grown_refl {calls : TableTree → List LeafEntry} {F : List TableTree}
    (h : ∀ f ∈ F, calls f = []) : Grown calls F F := by
  induction F with
  | nil => exact .nil
  | cons f F ih =>
    refine .cons ⟨rfl, ?_⟩ (ih fun g hg => h g (List.mem_cons_of_mem _ hg))
    rw [h f List.mem_cons_self]
    exact .nil _

theorem Grown.names {calls : TableTree → List LeafEntry} {F F' : List TableTree}
    (h : Grown calls F F') : F'.map TableTree.name = F.map TableTree.name := by
  induction h with
  | nil => rfl
  | cons hf _ ih => rw [List.map_cons, List.map_cons, hf.1, ih]

/-- Only pages of the trees and free pages have changed, and the trees have the pages they had
unless some have been allocated. -/
structure PagerStep (p p' : Pager) (F F' : List TableTree) (others : List PageId) : Prop where
  frame : ∃ touched, p.Frame p' touched ∧ ∀ y ∈ others, y ∉ touched
  accounts : p'.room + (treePages F').length = p.room + (treePages F).length
  pages : p'.room < p.room ∨ (p'.room = p.room ∧ treePages F' = treePages F)

theorem pagerStep_refl (p : Pager) (F : List TableTree) (others : List PageId) :
    PagerStep p p F F others :=
  ⟨⟨[], Pager.Frame.refl p, by simp⟩, rfl, Or.inr ⟨rfl, rfl⟩⟩

theorem PagerStep.trans {p p₁ p₂ : Pager} {F F₁ F₂ : List TableTree} {others : List PageId}
    (h : PagerStep p p₁ F F₁ others) (h' : PagerStep p₁ p₂ F₁ F₂ others) :
    PagerStep p p₂ F F₂ others := by
  obtain ⟨u, hu, hdisj⟩ := h.frame
  obtain ⟨v, hv, hdisj'⟩ := h'.frame
  refine ⟨⟨u ++ v, hu.trans hv, ?_⟩, h'.accounts.trans h.accounts, ?_⟩
  · intro y hy hmem
    rcases List.mem_append.1 hmem with hmem | hmem
    · exact hdisj y hy hmem
    · exact hdisj' y hy hmem
  · rcases h.pages with hless | ⟨hroom, hpages⟩
    · rcases h'.pages with hless' | ⟨hroom', -⟩
      · exact Or.inl (hless'.trans hless)
      · exact Or.inl (by omega)
    · rcases h'.pages with hless' | ⟨hroom', hpages'⟩
      · exact Or.inl (by omega)
      · exact Or.inr ⟨hroom'.trans hroom, hpages'.trans hpages⟩

namespace LocalFileStorageProvider

/-! ## The pieces of an operation -/

theorem run_onPager_ok {α : Type} {x : EStateM Fault Pager α} {s : LocalFileStorageProvider} {a : α}
    {p : Pager} (h : x.run s.pager = .ok a p) :
    (onPager x).run s = .ok a { s with pager := p } := by
  show onPager x s = _
  rw [onPager, h]

theorem run_onTree_ok {α : Type} {table : Bytes} {x : EStateM Fault BTree α}
    {s s' : LocalFileStorageProvider} {a : α} (h : (onTree table x).run s = .ok a s') :
    ∃ root t, s.btrees.find table = some (some root) ∧ x.run ⟨s.pager, root⟩ = .ok a t ∧
      s' = { s with pager := t.pager, btrees := s.btrees.assign table (some t.rootPageId) } := by
  change onTree table x s = _ at h
  rw [onTree] at h
  match hfind : s.btrees.find table, h with
  | some (some root), h =>
    dsimp only at h
    cases hx : x.run ⟨s.pager, root⟩ with
    | ok b t =>
      rw [hx] at h
      cases h
      exact ⟨root, t, rfl, hx, rfl⟩
    | error e t =>
      rw [hx] at h
      cases h

/-- The registry with the root of a table recorded. -/
def recordRoot (s : LocalFileStorageProvider) (table : Bytes) (root : PageId) :
    LocalFileStorageProvider :=
  let info := { s.tableInfo table with rootPageId := root }
  { s with tables := s.tables.assign table info }

theorem run_syncRoot_ok {table : Bytes} {s s' : LocalFileStorageProvider}
    (h : (syncRoot table).run s = .ok () s') :
    ∃ root, s.btrees.find table = some (some root) ∧ s' = s.recordRoot table root := by
  change syncRoot table s = _ at h
  rw [syncRoot] at h
  match hfind : s.btrees.find table, h with
  | some (some root), h =>
    cases h
    exact ⟨root, rfl, rfl⟩

/-- The version that `put` stages: a null key stands for the next one of the table. -/
def putVersion (s : LocalFileStorageProvider) (txn : UInt64) (table : Bytes) (key : Value)
    (row : Tuple) : LeafEntry :=
  if key.isNull then
    let id := Value.int64 ((s.tableInfo table).autoId + 1).toInt64
    ⟨id, 0, txn, false, row.set (ascii "_id") id⟩
  else ⟨key, 0, txn, false, row⟩

/-- The version that `remove` stages. -/
def removeVersion (txn : UInt64) (key : Value) : LeafEntry := ⟨key, 0, txn, true, Tuple.empty⟩

/-- The provider with its metadata page written. -/
def saved (s : LocalFileStorageProvider) : LocalFileStorageProvider :=
  { s with pager := s.pager.withPage s.metaPageId (metadataPage s.metadata) }

/-- Saving the metadata writes its page, or throws and changes nothing. -/
theorem saveMetadata_cases {s : LocalFileStorageProvider} (hid : s.metaPageId ≠ 0)
    (hcount : s.metaPageId.toNat < s.pager.header.pageCount.toNat) :
    (s.metadata.Fits ∧ saveMetadata.run s = .ok () s.saved) ∨
      (¬ s.metadata.Fits ∧ ∃ e, saveMetadata.run s = .error e s) := by
  rw [saveMetadata]
  rw [EStateM.run_bind, EStateM.run_get]
  dsimp only
  rcases encodeMetadata_cases s.metadata with ⟨hfits, henc⟩ | ⟨hbig, e, henc⟩
  · refine Or.inl ⟨hfits, ?_⟩
    rw [henc]
    dsimp only
    rw [EStateM.run_bind, run_onPager_ok (Pager.run_writePage (length_metadataPage hfits) hid hcount)]
    rfl
  · refine Or.inr ⟨hbig, e, ?_⟩
    rw [henc]
    rfl

end LocalFileStorageProvider

open LocalFileStorageProvider

namespace Sound

variable {s s' : LocalFileStorageProvider} {F A B : List TableTree} {f : TableTree}

theorem named (h : Sound s F) : Named s.tables s.btrees F := ⟨h.tables, h.btrees⟩

/-- The tree of a table. -/
theorem exists_tree (h : Sound s F) {table : Bytes} {r : Option PageId}
    (hfind : s.btrees.find table = some r) :
    ∃ A f B, F = A ++ f :: B ∧ f.name = table ∧ r = some f.root :=
  h.named.exists_tree hfind

theorem not_mem_names (h : Sound s (A ++ f :: B)) :
    f.name ∉ A.map TableTree.name ∧ f.name ∉ B.map TableTree.name :=
  h.named.not_mem_names

theorem find_tree (h : Sound s (A ++ f :: B)) : s.btrees.find f.name = some (some f.root) :=
  h.named.find_tree

theorem find_eq_none_iff (h : Sound s F) {table : Bytes} :
    s.btrees.find table = none ↔ table ∉ F.map TableTree.name :=
  h.named.find_eq_none_iff

theorem find_table_eq_none_iff (h : Sound s F) {table : Bytes} :
    s.tables.find table = none ↔ table ∉ F.map TableTree.name :=
  h.named.find_table_eq_none_iff

/-- Registering something about a table changes no tree. -/
theorem assignTable (h : Sound s F) {table : Bytes} (hmem : table ∈ F.map TableTree.name)
    (info : TableInfo) : Sound { s with tables := s.tables.assign table info } F :=
  ⟨h.opened, h.metaPage, (h.named.assignTable hmem info).tables, h.btrees, h.forest, h.version⟩

theorem page_one (h : Sound s F) :
    (1 : PageId) ≠ 0 ∧ (1 : PageId).toNat < s.pager.header.pageCount.toNat :=
  h.forest.owns.range 1 (by simp)

/-- `saveMetadata` returns exactly when the metadata fits its page. -/
theorem saveMetadata_ok (h : Sound s F) (hrun : saveMetadata.run s = .ok () s') :
    s.metadata.Fits ∧ s' = s.saved := by
  have hid : s.metaPageId ≠ 0 ∧ s.metaPageId.toNat < s.pager.header.pageCount.toNat := by
    rw [h.metaPage]
    exact h.page_one
  rcases saveMetadata_cases hid.1 hid.2 with ⟨hfits, hsave⟩ | ⟨-, e, hsave⟩
  · rw [hsave] at hrun
    cases hrun
    exact ⟨hfits, rfl⟩
  · rw [hsave] at hrun
    cases hrun

theorem saved (h : Sound s F) : Sound s.saved F := by
  refine ⟨h.opened, h.metaPage, h.tables, h.btrees, ?_, h.version⟩
  show Forest (s.pager.withPage s.metaPageId _) F [1]
  rw [h.metaPage]
  exact h.forest.withPage List.mem_cons_self _

theorem frame_saved (h : Sound s F) : s.pager.Frame s.saved.pager [1] := by
  show s.pager.Frame (s.pager.withPage s.metaPageId _) [1]
  rw [h.metaPage]
  exact Pager.frame_withPage h.forest.owns.backed h.page_one.1 h.page_one.2

theorem room_saved (h : Sound s F) : s.saved.pager.room = s.pager.room := by
  show (s.pager.withPage s.metaPageId _).room = _
  rw [h.metaPage]
  exact Pager.room_withPage h.forest.owns.backed h.page_one.2

theorem readPage_saved (h : Sound s F) (hfits : s.metadata.Fits) :
    s.saved.pager.readPage 1 = some (metadataPage s.metadata) := by
  show (s.pager.withPage s.metaPageId _).readPage 1 = _
  rw [h.metaPage]
  exact Pager.readPage_withPage_self (length_metadataPage hfits) h.page_one.1
    h.page_one.2

/-- One tree has moved. -/
theorem moveTree (h : Sound s (A ++ f :: B)) {t' : BTree} {L' : Layout}
    (hrep : Rep t' L' (treePages (A ++ B) ++ [1]))
    (hconf : Confined ⟨s.pager, f.root⟩ t' (treePages (A ++ B) ++ [1]))
    (hpages : SamePages ⟨s.pager, f.root⟩ f.layout t' L') :
    Sound { s with pager := t'.pager, btrees := s.btrees.assign f.name (some t'.rootPageId) }
        (A ++ ⟨f.name, t'.rootPageId, L'⟩ :: B) ∧
      PagerStep s.pager t'.pager (A ++ f :: B) (A ++ ⟨f.name, t'.rootPageId, L'⟩ :: B) [1] := by
  have hforest := h.forest.update hrep hconf f.name
  obtain ⟨touched, hframe, hdisj⟩ := hconf
  have hnamed := h.named.move t'.rootPageId L'
  refine ⟨⟨h.opened, h.metaPage, hnamed.tables, hnamed.btrees, hforest,
    hframe.version.trans h.version⟩, ?_, ?_, ?_⟩
  · exact ⟨touched, hframe, fun y hy => hdisj y (List.mem_append_right _ hy)⟩
  · have haccounts : t'.pager.room + (L'.pages t'.rootPageId).length =
        s.pager.room + f.pages.length := hpages.accounts
    have hmoved : (⟨f.name, t'.rootPageId, L'⟩ : TableTree).pages = L'.pages t'.rootPageId := rfl
    rw [treePages_append, treePages_append, treePages_cons, treePages_cons, hmoved]
    simp only [List.length_append]
    omega
  · rcases hpages.pages with hless | ⟨hroom, hsame⟩
    · exact Or.inl hless
    · refine Or.inr ⟨hroom, ?_⟩
      rw [treePages_append, treePages_append, treePages_cons, treePages_cons]
      exact congrArg (fun ps => treePages A ++ (ps ++ treePages B)) hsame

theorem name_mem (h : Sound s F) {table : Bytes} {r : Option PageId}
    (hfind : s.btrees.find table = some r) : table ∈ F.map TableTree.name :=
  h.named.name_mem hfind

end Sound

/-! ## Row operations -/

/-- One call on one table. -/
def callOn (table : Bytes) (e : LeafEntry) (f : TableTree) : List LeafEntry :=
  if f.name = table then [e] else []

theorem callOn_of_not_mem {table : Bytes} {F : List TableTree} (h : table ∉ F.map TableTree.name)
    {f : TableTree} (hf : f ∈ F) (e : LeafEntry) : callOn table e f = [] := by
  refine if_neg fun heq => h ?_
  rw [← heq]
  exact List.mem_map_of_mem hf

theorem Grown.update {calls : TableTree → List LeafEntry} {A B : List TableTree} {f f' : TableTree}
    (hA : ∀ g ∈ A, calls g = []) (hB : ∀ g ∈ B, calls g = []) (hname : f'.name = f.name)
    (hsteps : PutSteps (calls f) f.layout f'.layout) : Grown calls (A ++ f :: B) (A ++ f' :: B) := by
  induction A with
  | nil => exact .cons ⟨hname, hsteps⟩ (grown_refl hB)
  | cons a A ih =>
    refine .cons ⟨rfl, ?_⟩ (ih fun g hg => hA g (List.mem_cons_of_mem _ hg))
    rw [hA a List.mem_cons_self]
    exact .nil _

/-- What a row operation does: calls on the trees, and nothing else that readers could see. -/
structure RowStep (calls : TableTree → List LeafEntry) (s s' : LocalFileStorageProvider)
    (F F' : List TableTree) : Prop where
  grown : Grown calls F F'
  sound : Sound s' F'
  pager : PagerStep s.pager s'.pager F F' [1]
  visibleSeq : s'.visibleSeq = s.visibleSeq

namespace Sound

variable {s s' : LocalFileStorageProvider} {F A B : List TableTree} {f : TableTree}

theorem callOn_eq_nil (h : Sound s (A ++ f :: B)) (e : LeafEntry) :
    (∀ g ∈ A, callOn f.name e g = []) ∧ ∀ g ∈ B, callOn f.name e g = [] := by
  obtain ⟨hA, hB⟩ := h.not_mem_names
  exact ⟨fun g hg => callOn_of_not_mem hA hg e, fun g hg => callOn_of_not_mem hB hg e⟩

/-- A version is put into the tree of a table. -/
theorem onTree_put (h : Sound s F) {table : Bytes} {e : LeafEntry} {b : Bool}
    (hrun : (onTree table (BTree.put e)).run s = .ok b s') :
    ∃ F', RowStep (callOn table e) s s' F F' ∧ s'.tables = s.tables ∧
      table ∈ F.map TableTree.name := by
  obtain ⟨root, t, hfind, hput, rfl⟩ := run_onTree_ok hrun
  have hmem := h.name_mem hfind
  obtain ⟨A, f, B, rfl, rfl, hroot⟩ := h.exists_tree hfind
  cases hroot
  obtain ⟨L', hstep, hrep, hconf, -, hpages⟩ := h.forest.rep.put_ok hput
  obtain ⟨hsound, hpager⟩ := h.moveTree hrep hconf hpages
  have hsteps : PutSteps (callOn f.name e f) f.layout L' := by
    rw [callOn, if_pos rfl]
    exact .cons h.forest.rep.nodup_leafPages hstep (.nil _)
  refine ⟨A ++ ⟨f.name, t.rootPageId, L'⟩ :: B, ⟨?_, hsound, hpager, rfl⟩, rfl, hmem⟩
  exact Grown.update (h.callOn_eq_nil e).1 (h.callOn_eq_nil e).2 rfl hsteps

theorem recordRoot (h : Sound s F) {table : Bytes} (hmem : table ∈ F.map TableTree.name)
    (root : PageId) : Sound (s.recordRoot table root) F :=
  h.assignTable hmem _

theorem RowStep.recordRoot {calls : TableTree → List LeafEntry} {F' : List TableTree}
    (h : RowStep calls s s' F F') {table : Bytes} (hmem : table ∈ F'.map TableTree.name)
    (root : PageId) : RowStep calls s (s'.recordRoot table root) F F' :=
  ⟨h.grown, h.sound.recordRoot hmem root, h.pager, h.visibleSeq⟩

/-- The key and the row of a `put`. -/
theorem effectiveRow_ok {table : Bytes} {key : Value} {row : Tuple} {kr : Value × Tuple}
    (hrun : (effectiveRow table key row).run s = .ok kr s') :
    (∀ txn, (⟨kr.1, 0, txn, false, kr.2⟩ : LeafEntry) = s.putVersion txn table key row) ∧
      (s' = s ∨ ∃ info, s' = { s with tables := s.tables.assign table info }) := by
  rw [effectiveRow] at hrun
  cases hnull : key.isNull with
  | false =>
    rw [hnull] at hrun
    cases hrun
    refine ⟨fun txn => ?_, Or.inl rfl⟩
    rw [putVersion, hnull]
    rfl
  | true =>
    rw [hnull] at hrun
    cases hrun
    refine ⟨fun txn => ?_, Or.inr ⟨_, rfl⟩⟩
    rw [putVersion, hnull]
    rfl

/-- `put` that returns: a version is staged, under the given key unless that is null. -/
theorem put_ok (h : Sound s F) {txn : UInt64} {table : Bytes} {key : Value} {row : Tuple}
    {r : DbError} (hrun : (put txn table key row).run s = .ok r s') :
    ∃ F', RowStep (callOn table (s.putVersion txn table key row)) s s' F F' ∧
      ((r = .tableNotFound table ∧ table ∉ F.map TableTree.name) ∨
        (r = .sentinel ∧ table ∈ F.map TableTree.name)) := by
  rw [put] at hrun
  rw [EStateM.run_bind, EStateM.run_get] at hrun
  dsimp only at hrun
  cases hfind : s.btrees.find table with
  | none =>
    rw [hfind] at hrun
    cases hrun
    have hnot := h.find_eq_none_iff.1 hfind
    refine ⟨F, ⟨grown_refl ?_, h, pagerStep_refl _ _ _, rfl⟩, Or.inl ⟨rfl, hnot⟩⟩
    exact fun f hf => callOn_of_not_mem hnot hf _
  | some root =>
    have hmem := h.name_mem hfind
    rw [hfind] at hrun
    obtain ⟨kr, s₁, heff, hrun⟩ := run_bind_eq_ok.1 hrun
    obtain ⟨b, s₂, hput, hrun⟩ := run_bind_eq_ok.1 hrun
    obtain ⟨_, s₃, hsync, hrun⟩ := run_bind_eq_ok.1 hrun
    cases hrun
    obtain ⟨hversion, hassign⟩ := effectiveRow_ok heff
    have h₁ : Sound s₁ F ∧ s₁.pager = s.pager ∧ s₁.visibleSeq = s.visibleSeq := by
      rcases hassign with rfl | ⟨info, rfl⟩
      · exact ⟨h, rfl, rfl⟩
      · exact ⟨h.assignTable hmem info, rfl, rfl⟩
    obtain ⟨hsound₁, hpager₁, hseq₁⟩ := h₁
    rw [hversion txn] at hput
    obtain ⟨F', hstep, -, -⟩ := hsound₁.onTree_put hput
    obtain ⟨root', -, rfl⟩ := run_syncRoot_ok hsync
    have hmem' : table ∈ F'.map TableTree.name := by
      rw [hstep.grown.names]
      exact hmem
    refine ⟨F', ?_, Or.inr ⟨rfl, hmem⟩⟩
    have hrec := RowStep.recordRoot hstep hmem' root'
    exact ⟨hrec.grown, hrec.sound, hpager₁ ▸ hrec.pager, hrec.visibleSeq.trans hseq₁⟩

/-- `remove` that returns: a tombstone is staged. -/
theorem remove_ok (h : Sound s F) {txn : UInt64} {table : Bytes} {key : Value} {r : DbError}
    (hrun : (remove txn table key).run s = .ok r s') :
    ∃ F', RowStep (callOn table (removeVersion txn key)) s s' F F' ∧
      ((r = .tableNotFound table ∧ table ∉ F.map TableTree.name) ∨
        (r = .sentinel ∧ table ∈ F.map TableTree.name)) := by
  rw [remove] at hrun
  rw [EStateM.run_bind, EStateM.run_get] at hrun
  dsimp only at hrun
  cases hfind : s.btrees.find table with
  | none =>
    rw [hfind] at hrun
    cases hrun
    have hnot := h.find_eq_none_iff.1 hfind
    refine ⟨F, ⟨grown_refl ?_, h, pagerStep_refl _ _ _, rfl⟩, Or.inl ⟨rfl, hnot⟩⟩
    exact fun f hf => callOn_of_not_mem hnot hf _
  | some root =>
    rw [hfind] at hrun
    obtain ⟨b, s₁, hput, hrun⟩ := run_bind_eq_ok.1 hrun
    cases hrun
    obtain ⟨F', hstep, -, hmem⟩ := h.onTree_put hput
    exact ⟨F', hstep, Or.inr ⟨rfl, hmem⟩⟩

end Sound

/-! ## Commit -/

/-- The versions that a commit writes into a tree with the given entries. -/
def promoted (txn seq : UInt64) (es : List LeafEntry) : List LeafEntry :=
  (es.filter (stagedBy txn)).map fun e => ⟨e.key, seq, txn, e.tombstone, e.payload⟩

/-- The calls of a commit on a tree. -/
def promotion (txn seq : UInt64) (f : TableTree) : List LeafEntry :=
  promoted txn seq f.layout.scanAll

theorem Rep.promote_ok {t t' : BTree} {L : Layout} {others : List PageId} {txn seq : UInt64}
    (h : Rep t L others) (hrun : (promote txn seq).run t = .ok () t') :
    ∃ L', PutSteps (promoted txn seq L.scanAll) L L' ∧ Rep t' L' others ∧ Confined t t' others ∧
      SamePages t L t' L' := by
  rw [promote] at hrun
  rw [EStateM.run_bind, run_reading_ok h.scanAll_eq] at hrun
  dsimp only at hrun
  obtain ⟨bs, t₁, hputs, hrun⟩ := run_bind_eq_ok.1 hrun
  cases hrun
  exact h.putAll_ok hputs

theorem Synced.recordRoot {s : LocalFileStorageProvider} {F : List TableTree} (h : Synced s F)
    {table : Bytes} (hnot : table ∉ F.map TableTree.name) (root : PageId) :
    Synced (s.recordRoot table root) F := by
  intro f hf
  obtain ⟨info, hfind, hroot⟩ := h f hf
  refine ⟨info, ?_, hroot⟩
  have hne : f.name ≠ table := by
    rintro rfl
    exact hnot (List.mem_map_of_mem hf)
  show (s.tables.assign table _).find f.name = some info
  rw [AssocMap.find_assign_of_ne _ _ hne]
  exact hfind

namespace Sound

variable {s s' : LocalFileStorageProvider} {F A B : List TableTree} {f : TableTree}

/-- The loop of `commit` from some tree on; those before it have their roots recorded. -/
theorem promoteAll_ok {txn seq : UInt64} (h : Sound s (A ++ B)) (hsync : Synced s A)
    (hrun : (promoteAll txn seq (B.map TableTree.name)).run s = .ok () s') :
    ∃ B', Grown (promotion txn seq) B B' ∧ Sound s' (A ++ B') ∧
      PagerStep s.pager s'.pager (A ++ B) (A ++ B') [1] ∧ Synced s' (A ++ B') ∧
      s'.visibleSeq = s.visibleSeq ∧ s'.internalSeq = s.internalSeq := by
  induction B generalizing A s with
  | nil =>
    cases hrun
    exact ⟨[], .nil, h, pagerStep_refl _ _ _, by rwa [List.append_nil], rfl, rfl⟩
  | cons f B ih =>
    obtain ⟨_, s₁, htree, hrun⟩ := run_bind_eq_ok.1 hrun
    obtain ⟨_, s₂, hroot, hrun⟩ := run_bind_eq_ok.1 hrun
    obtain ⟨root, t, hfind, hput, rfl⟩ := run_onTree_ok htree
    rw [h.find_tree] at hfind
    cases hfind
    obtain ⟨L', hsteps, hrep, hconf, hpages⟩ := h.forest.rep.promote_ok hput
    obtain ⟨hsound, hpager⟩ := h.moveTree hrep hconf hpages
    obtain ⟨root', hfind', rfl⟩ := run_syncRoot_ok hroot
    rw [hsound.find_tree] at hfind'
    cases hfind'
    set f' : TableTree := ⟨f.name, t.rootPageId, L'⟩ with hf'
    set s₁ : LocalFileStorageProvider :=
      { s with pager := t.pager, btrees := s.btrees.assign f.name (some t.rootPageId) }
    have hsync' : Synced (s₁.recordRoot f.name t.rootPageId) (A ++ [f']) := by
      intro g hg
      rcases List.mem_append.1 hg with hg | hg
      · exact Synced.recordRoot (s := s₁) hsync h.not_mem_names.1 t.rootPageId g hg
      · rw [List.mem_singleton.1 hg]
        exact ⟨_, AssocMap.find_assign_self _ _ _, rfl⟩
    have hmem : f.name ∈ (A ++ f' :: B).map TableTree.name := by simp [hf']
    have hsound' : Sound (s₁.recordRoot f.name t.rootPageId) ((A ++ [f']) ++ B) := by
      rw [List.append_assoc]
      exact hsound.recordRoot hmem t.rootPageId
    obtain ⟨B', hgrown, hsound'', hpager', hsync'', hvis, hint⟩ := ih hsound' hsync' hrun
    rw [List.append_assoc, List.append_assoc] at hpager'
    rw [List.append_assoc] at hsound'' hsync''
    exact ⟨f' :: B', .cons ⟨rfl, hsteps⟩ hgrown, hsound'', hpager.trans hpager', hsync'', hvis, hint⟩

/-- `commit` that returns: the staged versions of the transaction are written once more into every
tree, the roots are recorded, the metadata is saved with the old visible sequence number, and only
then that number advances. -/
theorem commit_ok (h : Sound s F) {txn seq : UInt64} {r : DbError}
    (hrun : (commit txn seq).run s = .ok r s') :
    ∃ s₁ F', RowStep (promotion txn seq) s s₁ F F' ∧ Synced s₁ F' ∧ s₁.metadata.Fits ∧
      s₁.internalSeq = s.internalSeq ∧ r = .sentinel ∧
      s' = { s₁.saved with visibleSeq := if s.visibleSeq < seq then seq else s.visibleSeq } := by
  rw [commit] at hrun
  rw [EStateM.run_bind, EStateM.run_get] at hrun
  dsimp only at hrun
  obtain ⟨_, s₁, hall, hrun⟩ := run_bind_eq_ok.1 hrun
  obtain ⟨_, s₂, hsave, hrun⟩ := run_bind_eq_ok.1 hrun
  have hnames : s.btrees.entries.map Prod.fst = F.map TableTree.name := by
    rw [h.btrees, List.map_map]
    rfl
  rw [hnames] at hall
  obtain ⟨F', hgrown, hsound, hpager, hsync, hvis, hint⟩ :=
    promoteAll_ok (A := []) h (fun g hg => absurd hg List.not_mem_nil) hall
  rw [List.nil_append] at hsound hsync
  obtain ⟨hfits, rfl⟩ := hsound.saveMetadata_ok hsave
  rw [EStateM.run_bind, EStateM.run_modify] at hrun
  cases hrun
  refine ⟨s₁, F', ⟨hgrown, hsound, hpager, hvis⟩, hsync, hfits, hint, rfl, ?_⟩
  rw [← hvis]
  rfl

end Sound

/-! ## Tables -/

/-- A change of the registry that has been saved. -/
structure SavedStep (s s₁ s' : LocalFileStorageProvider) (F' : List TableTree) : Prop where
  sound : Sound s₁ F'
  fits : s₁.metadata.Fits
  saved : s' = s₁.saved
  visibleSeq : s₁.visibleSeq = s.visibleSeq
  internalSeq : s₁.internalSeq = s.internalSeq

namespace Sound

variable {s s' : LocalFileStorageProvider} {F A B : List TableTree} {f : TableTree}

/-- `createTable` that returns: it refuses, or an empty tree joins. -/
theorem createTable_ok (h : Sound s F) {schema : Schema} {r : DbError}
    (hrun : (createTable schema).run s = .ok r s') :
    s' = s ∨ ∃ s₁ root, schema.table ∉ F.map TableTree.name ∧
      SavedStep s s₁ s' (F ++ [TableTree.blank schema.table root]) ∧
      PagerStep s.pager s₁.pager F (F ++ [TableTree.blank schema.table root]) [1] ∧
      s₁.tables = s.tables.assign schema.table ⟨schema, root, 0⟩ := by
  rw [createTable] at hrun
  rw [EStateM.run_bind, EStateM.run_get] at hrun
  dsimp only at hrun
  rw [if_neg (by simp [h.opened])] at hrun
  cases hfind : s.tables.find schema.table with
  | some info =>
    rw [hfind] at hrun
    cases hrun
    exact Or.inl rfl
  | none =>
    have hnot := h.find_table_eq_none_iff.1 hfind
    rw [hfind, if_neg (by simp)] at hrun
    cases hcol : schema.columns.find? fun col => !accepts col.type with
    | some col =>
      rw [hcol] at hrun
      cases hrun
      exact Or.inl rfl
    | none =>
      rw [hcol] at hrun
      dsimp only at hrun
      cases hnew : BTree.createNew.run ⟨s.pager, 0⟩ with
      | error e t =>
        rw [hnew] at hrun
        cases hrun
      | ok root t =>
        rw [hnew] at hrun
        dsimp only at hrun
        rw [EStateM.run_bind, EStateM.run_set] at hrun
        dsimp only at hrun
        obtain ⟨_, s₂, hsave, hrun⟩ := run_bind_eq_ok.1 hrun
        cases hrun
        obtain ⟨hforest, hframe, hfresh, hroom⟩ := h.forest.createNew hnew schema.table
        -- page 1 is the catalogue's own, so the root is another page
        have hone : (1 : PageId) ≠ root := by
          rintro rfl
          exact hfresh (by simp)
        have hnamed := h.named.insert hnot ⟨schema, root, 0⟩ root (Layout.empty root)
        have hsound : Sound { s with
            pager := t.pager
            tables := s.tables.assign schema.table ⟨schema, root, 0⟩
            btrees := s.btrees.assign schema.table (some root) }
            (F ++ [TableTree.blank schema.table root]) :=
          ⟨h.opened, h.metaPage, hnamed.tables, hnamed.btrees, hforest,
            hframe.version.trans h.version⟩
        obtain ⟨hfits, hsaved⟩ := hsound.saveMetadata_ok hsave
        refine Or.inr ⟨_, root, hnot, ⟨hsound, hfits, hsaved, rfl, rfl⟩,
          ⟨⟨[root], hframe, ?_⟩, ?_, ?_⟩, rfl⟩
        · intro y hy hmem
          rw [List.mem_singleton.1 hy] at hmem
          exact hone (List.mem_singleton.1 hmem)
        · show t.pager.room + _ = s.pager.room + _
          rw [treePages_append, List.length_append]
          show t.pager.room + (_ + 1) = _
          omega
        · exact Or.inl (by show t.pager.room < s.pager.room; omega)

/-- `dropTable` that returns: it refuses, or the tree of the table is gone and its pages are free. -/
theorem dropTable_ok (h : Sound s F) {name : Bytes} {r : DbError}
    (hrun : (dropTable name).run s = .ok r s') :
    (s' = s ∧ name ∉ F.map TableTree.name) ∨
      ∃ s₁ A f B, F = A ++ f :: B ∧ f.name = name ∧ SavedStep s s₁ s' (A ++ B) ∧
      Released s.pager s₁.pager f.pages ∧ s₁.tables = s.tables.erase name := by
  rw [dropTable] at hrun
  rw [EStateM.run_bind, EStateM.run_get] at hrun
  dsimp only at hrun
  rw [if_neg (by simp [h.opened])] at hrun
  cases hfind : s.tables.find name with
  | none =>
    rw [hfind] at hrun
    cases hrun
    exact Or.inl ⟨rfl, h.find_table_eq_none_iff.1 hfind⟩
  | some info =>
    rw [hfind, if_neg (by simp)] at hrun
    -- a recorded table has a tree, so the call that has none is ruled out
    have hmem : ¬ s.btrees.find name = none := by
      rw [h.find_eq_none_iff, ← h.find_table_eq_none_iff, hfind]
      simp
    obtain ⟨root, hroot⟩ := Option.ne_none_iff_exists'.1 hmem
    obtain ⟨A, f, B, rfl, rfl, rfl⟩ := h.exists_tree hroot
    rw [hroot, if_pos (by rfl)] at hrun
    obtain ⟨_, s₁, htree, hrun⟩ := run_bind_eq_ok.1 hrun
    obtain ⟨root', t, hfind', hfree, rfl⟩ := run_onTree_ok htree
    rw [hroot] at hfind'
    cases hfind'
    obtain ⟨t', hrun', hforest, hreleased⟩ := h.forest.freeAllPages
    rw [hrun'] at hfree
    cases hfree
    rw [EStateM.run_bind, EStateM.run_modify] at hrun
    dsimp only at hrun
    obtain ⟨_, s₂, hsave, hrun⟩ := run_bind_eq_ok.1 hrun
    cases hrun
    have hnamed := (h.named.move t.rootPageId f.layout).erase
    have hsound : Sound { s with
        pager := t.pager
        tables := s.tables.erase f.name
        btrees := (s.btrees.assign f.name (some t.rootPageId)).erase f.name } (A ++ B) :=
      ⟨h.opened, h.metaPage, hnamed.tables, hnamed.btrees, hforest,
        hreleased.frame.version.trans h.version⟩
    obtain ⟨hfits, hsaved⟩ := hsound.saveMetadata_ok hsave
    exact Or.inr ⟨_, A, f, B, rfl, rfl, ⟨hsound, hfits, hsaved, rfl, rfl⟩, hreleased, rfl⟩

/-- A table changes its name. -/
theorem rename (h : Sound s (A ++ f :: B)) (info : TableInfo) {newName : Bytes}
    (hnew : newName ∉ (A ++ f :: B).map TableTree.name) :
    Sound { s with
        tables := (s.tables.erase f.name).assign newName info
        btrees := (s.btrees.erase f.name).assign newName (some f.root) }
      (A ++ B ++ [{ f with name := newName }]) := by
  have hnew' : newName ∉ (A ++ B).map TableTree.name := by
    intro hmem
    refine hnew ?_
    rw [List.map_append, List.mem_append] at hmem
    rw [List.map_append, List.map_cons, List.mem_append, List.mem_cons]
    exact hmem.elim Or.inl fun hmem => Or.inr (Or.inr hmem)
  have hnamed := h.named.erase.insert hnew' info f.root f.layout
  exact ⟨h.opened, h.metaPage, hnamed.tables, hnamed.btrees,
    .of_sideBySide (h.forest.sideBySide.rename onPages_rep newName), h.version⟩

/-- The recorded root goes along with the name. -/
theorem synced_rename (h : Sound s (A ++ f :: B)) {newName : Bytes}
    (hnew : newName ∉ (A ++ f :: B).map TableTree.name) {info altered : TableInfo}
    (hfind : s.tables.find f.name = some info) {s₁ : LocalFileStorageProvider}
    (htables : s₁.tables = (s.tables.erase f.name).assign newName altered)
    (hroot : altered.rootPageId = info.rootPageId) (hsync : Synced s (A ++ f :: B)) : Synced s₁ (A ++ B ++ [{ f with name := newName }]) := by
  intro g hg
  rw [htables]
  rw [List.mem_append, List.mem_singleton] at hg
  rcases hg with hg | rfl
  · have hmem : g ∈ A ++ f :: B := by
      rcases List.mem_append.1 hg with hg | hg
      · simp [hg]
      · simp [hg]
    have hne : g.name ≠ newName := by
      rintro rfl
      exact hnew (List.mem_map_of_mem hmem)
    have hne' : g.name ≠ f.name := by
      intro heq
      rcases List.mem_append.1 hg with hg | hg
      · exact h.not_mem_names.1 (heq ▸ List.mem_map_of_mem hg)
      · exact h.not_mem_names.2 (heq ▸ List.mem_map_of_mem hg)
    rw [AssocMap.find_assign_of_ne _ _ hne, AssocMap.find_erase_of_ne _ hne']
    exact hsync g hmem
  · obtain ⟨info', hfind', hroot'⟩ := hsync f (by simp)
    rw [hfind] at hfind'
    cases hfind'
    exact ⟨_, AssocMap.find_assign_self _ _ _, hroot.trans hroot'⟩

/-- The columns of a table change, and its recorded root stays. -/
theorem alterColumns_ok (h : Sound s F) {name : Bytes} {info altered : TableInfo} {r : DbError}
    (hmem : name ∈ F.map TableTree.name) (hfind : s.tables.find name = some info)
    (hrun : (do
      set { s with tables := s.tables.assign name altered }
      saveMetadata
      return DbError.sentinel : EStateM Fault LocalFileStorageProvider DbError).run s = .ok r s')
    (hsame : altered.rootPageId = info.rootPageId) :
    ∃ s₁, SavedStep s s₁ s' F ∧ s₁.pager = s.pager ∧ (Synced s F → Synced s₁ F) := by
  rw [EStateM.run_bind, EStateM.run_set] at hrun
  dsimp only at hrun
  obtain ⟨_, s₂, hsave, hrun⟩ := run_bind_eq_ok.1 hrun
  cases hrun
  have hsound := h.assignTable hmem altered
  obtain ⟨hfits, hsaved⟩ := hsound.saveMetadata_ok hsave
  refine ⟨_, ⟨hsound, hfits, hsaved, rfl, rfl⟩, rfl, ?_⟩
  intro hsync f hf
  by_cases hname : f.name = name
  · obtain ⟨info', hfind', hroot⟩ := hsync f hf
    rw [hname, hfind] at hfind'
    cases hfind'
    rw [hname]
    exact ⟨_, AssocMap.find_assign_self _ _ _, hsame.trans hroot⟩
  · show ∃ info', (s.tables.assign name _).find f.name = some info' ∧ _
    rw [AssocMap.find_assign_of_ne _ _ hname]
    exact hsync f hf

/-- `alterTable` that returns: it refuses, or the columns of a table change, or its name. -/
theorem alterTable_ok (h : Sound s F) {name : Bytes} {spec : AlterSpec} {r : DbError}
    (hrun : (alterTable name spec).run s = .ok r s') :
    s' = s ∨ ∃ s₁ F', SavedStep s s₁ s' F' ∧ s₁.pager = s.pager ∧ (Synced s F → Synced s₁ F') ∧
      (F' = F ∨ ∃ A f B newName, F = A ++ f :: B ∧ f.name = name ∧ spec = .renameTable newName ∧
        F' = A ++ B ++ [{ f with name := newName }]) := by
  rw [alterTable] at hrun
  rw [EStateM.run_bind, EStateM.run_get] at hrun
  dsimp only at hrun
  rw [if_neg (by simp [h.opened])] at hrun
  cases hfind : s.tables.find name with
  | none =>
    rw [hfind] at hrun
    cases hrun
    exact Or.inl rfl
  | some info =>
    rw [hfind] at hrun
    dsimp only at hrun
    have hmem : name ∈ F.map TableTree.name := by
      by_contra hnot
      rw [h.find_table_eq_none_iff.2 hnot] at hfind
      cases hfind
    cases spec with
    | addColumn columnDef =>
      dsimp only at hrun
      split_ifs at hrun with hold
      · cases hrun
        exact Or.inl rfl
      · obtain ⟨s₁, hstep, hpager, hsync⟩ := h.alterColumns_ok hmem hfind hrun rfl
        exact Or.inr ⟨s₁, F, hstep, hpager, hsync, Or.inl rfl⟩
    | dropColumn column =>
      dsimp only at hrun
      split_ifs at hrun with hold
      · cases hrun
        exact Or.inl rfl
      · obtain ⟨s₁, hstep, hpager, hsync⟩ := h.alterColumns_ok hmem hfind hrun rfl
        exact Or.inr ⟨s₁, F, hstep, hpager, hsync, Or.inl rfl⟩
    -- a rename moves the tree to the end of the list, under the new name
    | renameTable newName =>
      dsimp only at hrun
      split_ifs at hrun with hempty hold
      · cases hrun
        exact Or.inl rfl
      · cases hrun
        exact Or.inl rfl
      · have hnone : s.tables.find newName = none := by
          simpa using hold
        have hnew := h.find_table_eq_none_iff.1 hnone
        have hsome : ¬ s.btrees.find name = none := by
          rw [h.find_eq_none_iff]
          exact not_not.2 hmem
        obtain ⟨root, hroot⟩ := Option.ne_none_iff_exists'.1 hsome
        obtain ⟨A, f, B, rfl, rfl, rfl⟩ := h.exists_tree hroot
        rw [hroot, EStateM.run_bind, EStateM.run_set] at hrun
        dsimp only at hrun
        obtain ⟨_, s₂, hsave, hrun⟩ := run_bind_eq_ok.1 hrun
        cases hrun
        have hsound := h.rename { info with schema := { info.schema with table := newName } } hnew
        obtain ⟨hfits, hsaved⟩ := hsound.saveMetadata_ok hsave
        exact Or.inr ⟨_, _, ⟨hsound, hfits, hsaved, rfl, rfl⟩, rfl, h.synced_rename hnew hfind rfl rfl,
          Or.inr ⟨A, f, B, newName, rfl, rfl, rfl, rfl⟩⟩

end Sound

end OpenDB
