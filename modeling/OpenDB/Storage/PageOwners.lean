import OpenDB.Storage.Operations

/-!
# Who owns a page

In one session on a new file every page belongs to exactly one of: the header, the metadata, the tree
of one table, the free pool (`pages_partitioned`). No operation that returns leaks a page or gives
one to two owners, and dropping a table hands exactly the pages of its tree to the pool.
-/

set_option autoImplicit false

namespace OpenDB

open OpenDB.Library

open LocalFileStorageProvider

/-- The pages of a tree: its root and the children of its internal nodes. -/
inductive Reaches (p : Pager) (root : PageId) : PageId → Prop where
  | root : Reaches p root root
  | child {x : PageId} {n : Node} {e : InternalEntry} (hpage : Reaches p root x)
      (hload : BTree.loadNode p x = .ok n) (htype : n.hdr.type = .internal) (he : e ∈ n.internal) :
      Reaches p root e.child

/-- The owners a page may have. -/
inductive PageOwner where
  | header
  | metadata
  | table (name : Bytes)
  | free
  deriving DecidableEq

/-- The page belongs to the owner. -/
def OwnedBy (s : LocalFileStorageProvider) (x : PageId) : PageOwner → Prop
  | .header => x = 0
  | .metadata => x = s.metaPageId
  | .table name => ∃ root, s.btrees.find name = some (some root) ∧ Reaches s.pager root x
  | .free => x ∈ BuddyPageAllocator.runsPages s.pager.allocator.saveFreeRuns

/-- The states of one session on a new file. -/
inductive SessionRun (capacity : Nat) (h : capacity < 2 ^ 32) : LocalFileStorageProvider → Prop where
  | opened {r : DbError} {s : LocalFileStorageProvider}
      (hopen : (openFile []).run (LocalFileStorageProvider.new capacity h) = .ok r s) :
      SessionRun capacity h s
  | exec {op : Op} {r : DbError} {s s' : LocalFileStorageProvider} (hrun : SessionRun capacity h s)
      (hcall : op.exec.run s = .ok r s') : SessionRun capacity h s'

/-! ## The pages of a tree -/

/-- The pages of the layout are those that can be reached. -/
theorem Rep.reaches_iff {t : BTree} {L : Layout} {others : List PageId} (h : Rep t L others)
    {x : PageId} : Reaches t.pager t.rootPageId x ↔ x ∈ L.pages t.rootPageId := by
  constructor
  · intro hreach
    induction hreach with
    | root => exact h.linked.root_mem_pages
    | @child y n e hpage hload htype he ih =>
      -- a page with children is not a leaf, so it is the root of an index
      have hnot : y ∉ L.leaves.pages := by
        intro hy
        obtain ⟨m, hm, hleaf⟩ := h.linked.loadNode_leafPage hy
        rw [hload] at hm
        cases hm
        rw [htype] at hleaf
        cases hleaf
      cases hix : L.index with
      | none =>
        rw [Layout.pages, hix] at ih
        exact absurd ih hnot
      | some ies =>
        rw [Layout.pages, hix] at ih ⊢
        obtain ⟨hroot, hok⟩ := h.loadNode_root_of_index_some hix
        rcases List.mem_cons.1 ih with rfl | hy
        · rw [hload] at hroot
          cases hroot
          apply List.mem_cons_of_mem
          exact hok.children.mem_iff.1 (List.mem_map_of_mem he)
        · exact absurd hy hnot
  · intro hx
    cases hix : L.index with
    | none =>
      obtain ⟨es, hes⟩ := h.leaves_eq_of_index_none hix
      rw [Layout.pages, hix, hes] at hx
      rw [List.mem_singleton.1 (show x ∈ [t.rootPageId] from hx)]
      exact .root
    | some ies =>
      rw [Layout.pages, hix] at hx
      obtain ⟨hroot, hok⟩ := h.loadNode_root_of_index_some hix
      rcases List.mem_cons.1 hx with rfl | hx
      · exact .root
      · obtain ⟨e, he, rfl⟩ := List.mem_map.1 (hok.children.mem_iff.2 hx)
        exact .child .root hroot rfl he

/-! ## One session -/

theorem Sound.table_iff {s : LocalFileStorageProvider} {F : List TableTree} (h : Sound s F)
    {x : PageId} {name : Bytes} :
    OwnedBy s x (.table name) ↔ ∃ f ∈ F, f.name = name ∧ x ∈ f.pages := by
  constructor
  · rintro ⟨root, hfind, hreach⟩
    obtain ⟨A, f, B, rfl, rfl, hroot⟩ := h.exists_tree hfind
    cases hroot
    have hf : f ∈ A ++ f :: B := by simp
    exact ⟨f, hf, rfl, (h.forest.trees f hf).reaches_iff.1 hreach⟩
  · rintro ⟨f, hf, rfl, hx⟩
    have hreach : Reaches s.pager f.root x := (h.forest.trees f hf).reaches_iff.2 hx
    obtain ⟨A, B, rfl⟩ := List.append_of_mem hf
    exact ⟨f.root, h.find_tree, hreach⟩

/-- Trees of a forest that share a page are the same. -/
theorem Forest.eq_of_mem {p : Pager} {F : List TableTree} {others : List PageId}
    (h : Forest p F others) {f g : TableTree} (hf : f ∈ F) (hg : g ∈ F) {x : PageId}
    (hx : x ∈ f.pages) (hx' : x ∈ g.pages) : f = g := by
  obtain ⟨A, B, rfl⟩ := List.append_of_mem hf
  have hnodup := (List.nodup_append.1 (List.nodup_append.1 h.owns.nodup).2.1).1
  rw [treePages_append, treePages_cons, List.nodup_append, List.nodup_append] at hnodup
  obtain ⟨-, ⟨-, -, hB⟩, hA⟩ := hnodup
  rw [List.mem_append, List.mem_cons] at hg
  rcases hg with hg | rfl | hg
  · have hmem := (pages_sublist_treePages hg).subset hx'
    exact absurd rfl (hA x hmem x (List.mem_append_left _ hx))
  · rfl
  · have hmem := (pages_sublist_treePages hg).subset hx'
    exact absurd rfl (hB x hx x hmem)

/-- The pages of an owner other than the header. -/
def ownedPages (s : LocalFileStorageProvider) (F : List TableTree) : PageOwner → List PageId
  | .header => []
  | .metadata => [1]
  | .table name => treePages (F.filter fun f => f.name = name)
  | .free => s.pager.allocator.pool

theorem Sound.mem_ownedPages {s : LocalFileStorageProvider} {F : List TableTree} (h : Sound s F)
    {x : PageId} {o : PageOwner} (howned : OwnedBy s x o) (hne : o ≠ .header) :
    x ∈ ownedPages s F o := by
  cases o with
  | header => exact absurd rfl hne
  | metadata =>
    rw [OwnedBy, h.metaPage] at howned
    exact List.mem_singleton.2 howned
  | table name =>
    obtain ⟨f, hf, hname, hx⟩ := h.table_iff.1 howned
    apply (pages_sublist_treePages _).subset hx
    exact List.mem_filter.2 ⟨hf, decide_eq_true hname⟩
  | free =>
    rw [OwnedBy, BuddyPageAllocator.runsPages_saveFreeRuns] at howned
    exact howned

theorem treePages_filter_sublist (F : List TableTree) (name : Bytes) :
    (treePages (F.filter fun f => f.name = name)).Sublist (treePages F) :=
  (List.filter_sublist.map _).flatten

theorem Sound.ownedPages_subset {s : LocalFileStorageProvider} {F : List TableTree}
    (o : PageOwner) : ownedPages s F o ⊆ s.pager.allocator.pool ++ (treePages F ++ [1]) := by
  intro x hx
  cases o with
  | header => exact absurd hx List.not_mem_nil
  | metadata =>
    rw [List.mem_singleton.1 (show x ∈ [1] from hx)]
    simp
  | table name =>
    apply List.mem_append_right
    apply List.mem_append_left
    exact (treePages_filter_sublist F name).subset hx
  | free => exact List.mem_append_left _ hx

/-- A page has one owner at most. -/
theorem Sound.owner_unique {s : LocalFileStorageProvider} {F : List TableTree} (h : Sound s F)
    {x : PageId} {o o' : PageOwner} (ho : OwnedBy s x o) (ho' : OwnedBy s x o') : o = o' := by
  have howns := h.forest.owns
  -- the header owns page zero, and no other owner has it
  have hpos : ∀ {o : PageOwner}, OwnedBy s x o → o ≠ .header → x ≠ 0 := by
    intro o ho hne
    exact (howns.range x (Sound.ownedPages_subset o (h.mem_ownedPages ho hne))).1
  by_cases hh : o = .header
  · by_cases hh' : o' = .header
    · rw [hh, hh']
    · rw [hh] at ho
      exact absurd ho (hpos ho' hh')
  by_cases hh' : o' = .header
  · rw [hh'] at ho'
    exact absurd ho' (hpos ho hh)
  have hx := h.mem_ownedPages ho hh
  have hx' := h.mem_ownedPages ho' hh'
  obtain ⟨-, hlive, hpool⟩ := List.nodup_append.1 howns.nodup
  have hone := (List.nodup_append.1 hlive).2.2
  have htree : ∀ {name : Bytes}, x ∈ ownedPages s F (.table name) → x ∈ treePages F :=
    fun hmem => (treePages_filter_sublist F _).subset hmem
  -- the trees, the catalogue's page and the free pages are apart
  cases o with
  | header => exact absurd rfl hh
  | metadata =>
    cases o' with
    | header => exact absurd rfl hh'
    | metadata => rfl
    | table name => exact absurd rfl (hone x (htree hx') x hx)
    | free => exact absurd rfl (hpool x hx' x (List.mem_append_right _ hx))
  | table name =>
    cases o' with
    | header => exact absurd rfl hh'
    | metadata => exact absurd rfl (hone x (htree hx) x hx')
    | table name' =>
      obtain ⟨f, hf, rfl, hfx⟩ := h.table_iff.1 ho
      obtain ⟨g, hg, rfl, hgx⟩ := h.table_iff.1 ho'
      rw [h.forest.eq_of_mem hf hg hfx hgx]
    | free => exact absurd rfl (hpool x hx' x (List.mem_append_left _ (htree hx)))
  | free =>
    cases o' with
    | header => exact absurd rfl hh'
    | metadata => exact absurd rfl (hpool x hx x (List.mem_append_right _ hx'))
    | table name => exact absurd rfl (hpool x hx x (List.mem_append_left _ (htree hx')))
    | free => rfl

/-- A page has an owner. -/
theorem Sound.exists_owner {s : LocalFileStorageProvider} {F : List TableTree} (h : Sound s F)
    (haccounted : s.pager.Accounted (treePages F ++ [1])) {x : PageId}
    (hx : x.toNat < s.pager.header.pageCount.toNat) : ∃ o, OwnedBy s x o := by
  by_cases hzero : x = 0
  · exact ⟨.header, hzero⟩
  have hmem := haccounted.covers h.forest.owns hzero hx
  rw [List.mem_append, List.mem_append] at hmem
  rcases hmem with hpool | htree | hone
  · refine ⟨.free, ?_⟩
    rw [OwnedBy, BuddyPageAllocator.runsPages_saveFreeRuns]
    exact hpool
  · obtain ⟨pages, hpages, hxp⟩ := List.mem_flatten.1 htree
    obtain ⟨f, hf, rfl⟩ := List.mem_map.1 hpages
    exact ⟨.table f.name, h.table_iff.2 ⟨f, hf, rfl, hxp⟩⟩
  · refine ⟨.metadata, ?_⟩
    rw [OwnedBy, h.metaPage]
    exact List.mem_singleton.1 hone

theorem Sound.owned_lt {s : LocalFileStorageProvider} {F : List TableTree} (h : Sound s F)
    {x : PageId} {o : PageOwner} (ho : OwnedBy s x o) :
    x.toNat < s.pager.header.pageCount.toNat := by
  by_cases hne : o = .header
  · rw [hne, OwnedBy] at ho
    rw [ho]
    exact h.forest.owns.backed.pos
  · exact (h.forest.owns.range x (Sound.ownedPages_subset o (h.mem_ownedPages ho hne))).2

/-- Dropping a table hands the pages of its tree to the pool, and no others. -/
theorem Sound.dropTable_free {s s' : LocalFileStorageProvider} {F : List TableTree} (h : Sound s F)
    {name : Bytes} {r : DbError} (hrun : (dropTable name).run s = .ok r s') (x : PageId) :
    OwnedBy s' x .free ↔ OwnedBy s x .free ∨ OwnedBy s x (.table name) := by
  have hfree : ∀ t : LocalFileStorageProvider, OwnedBy t x .free ↔ x ∈ t.pager.allocator.pool := by
    intro t
    rw [OwnedBy, BuddyPageAllocator.runsPages_saveFreeRuns]
  rw [hfree, hfree, h.table_iff]
  rcases h.dropTable_ok hrun with ⟨rfl, hnot⟩ | ⟨s₁, A, f, B, rfl, rfl, hsaved, hreleased, -⟩
  · -- there is no such table
    constructor
    · exact Or.inl
    · rintro (hpool | ⟨f, hf, rfl, -⟩)
      · exact hpool
      · exact absurd (List.mem_map_of_mem hf) hnot
  · have hpool : s'.pager.allocator.pool = s₁.pager.allocator.pool := by
      rw [hsaved.saved]
      rfl
    rw [hpool, hreleased.pool.mem_iff, List.mem_append]
    constructor
    · rintro (hx | hx)
      · exact Or.inr ⟨f, by simp, rfl, hx⟩
      · exact Or.inl hx
    · rintro (hx | ⟨g, hg, hname, hx⟩)
      · exact Or.inr hx
      · rw [List.mem_append, List.mem_cons] at hg
        rcases hg with hg | rfl | hg
        · exact absurd (hname ▸ List.mem_map_of_mem hg) h.not_mem_names.1
        · exact Or.inl hx
        · exact absurd (hname ▸ List.mem_map_of_mem hg) h.not_mem_names.2

/-! ## Runs -/

/-- Every state of a session is laid out as trees, and no page is lost. -/
theorem SessionRun.sound {capacity : Nat} {hcap : capacity < 2 ^ 32} {s : LocalFileStorageProvider}
    (h : SessionRun capacity hcap s) :
    ∃ F, Sound s F ∧ s.pager.Accounted (treePages F ++ [1]) := by
  induction h with
  | opened hopen =>
    obtain ⟨hsound, rfl⟩ := sound_new hopen
    refine ⟨[], hsound, ?_⟩
    have howns := Pager.owns_new hcap (capacity_pos hopen)
    obtain ⟨-, hroom⟩ := openFile_reset (Pager.run_openFile_nil capacity hcap) rfl rfl howns hopen
    obtain ⟨howns₁, hframe, hroom₁⟩ :=
      Pager.allocatePage_ok howns (allocatePage_first howns rfl rfl hroom)
    have hone := howns₁.range 1 (by simp)
    apply (Pager.accounted_new hcap).step howns.backed hsound.forest.owns.backed
      (hframe.trans (Pager.frame_withPage howns₁.backed hone.1 hone.2))
    show (Pager.withPage _ 1 _).room + 1 = _
    rw [Pager.room_withPage howns₁.backed hone.2, hroom₁]
    rfl
  | exec hrun hcall ih =>
    obtain ⟨F, hsound, haccounted⟩ := ih
    obtain ⟨F', hstep⟩ := hsound.exec_ok hcall
    obtain ⟨touched, hframe⟩ := hstep.frame
    refine ⟨F', hstep.sound, ?_⟩
    apply haccounted.step hsound.forest.owns.backed hstep.sound.forest.owns.backed hframe
    have hroom := hstep.accounts
    rw [List.length_append, List.length_append]
    omega

/-- In every state of a session on a new file each page has exactly one owner, and dropping a table
hands exactly the pages of its tree to the free pool. -/
theorem pages_partitioned {capacity : Nat} {hcap : capacity < 2 ^ 32} {s : LocalFileStorageProvider}
    (h : SessionRun capacity hcap s) :
    (∀ x o, OwnedBy s x o → x.toNat < s.pager.header.pageCount.toNat) ∧
      (∀ x : PageId, x.toNat < s.pager.header.pageCount.toNat → ∃! o, OwnedBy s x o) ∧
      (BuddyPageAllocator.runsPages s.pager.allocator.saveFreeRuns).Nodup ∧
      ∀ name r s', (dropTable name).run s = .ok r s' → ∀ x,
        OwnedBy s' x .free ↔ OwnedBy s x .free ∨ OwnedBy s x (.table name) := by
  obtain ⟨F, hsound, haccounted⟩ := h.sound
  refine ⟨fun x o ho => hsound.owned_lt ho, ?_, ?_, fun name r s' hrun => hsound.dropTable_free hrun⟩
  · intro x hx
    obtain ⟨o, ho⟩ := hsound.exists_owner haccounted hx
    exact ⟨o, ho, fun o' ho' => hsound.owner_unique ho' ho⟩
  · rw [BuddyPageAllocator.runsPages_saveFreeRuns]
    exact (List.nodup_append.1 hsound.forest.owns.nodup).1

/-- A new file with one table. -/
theorem pages_partitioned_one_table : ∃ s, SessionRun 16 (by decide) s ∧
    s.tables.entries.map Prod.fst = [ascii "t"] ∧
    ∀ x : PageId, x.toNat < s.pager.header.pageCount.toNat → ∃! o, OwnedBy s x o := by
  obtain ⟨s₀, s, root, hopen, hcreate, htables⟩ := exists_first_table
  have hrun : SessionRun 16 (by decide) s :=
    .exec (.opened hopen)
      (show (Op.createTable (emptySchema (ascii "t"))).exec.run s₀ = .ok .sentinel s from hcreate)
  refine ⟨s, hrun, ?_, (pages_partitioned hrun).2.1⟩
  rw [htables]
  rfl

end OpenDB
