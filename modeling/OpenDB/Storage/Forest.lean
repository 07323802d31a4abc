import OpenDB.Storage.LocalFileStorageProvider
import OpenDB.Storage.Ordered

/-!
# Trees on one pager

The tables of a provider are trees that share a pager. `Forest p F others` says that every tree of
`F` is laid out on its own pages and that these, together with `others`, are in use. An operation on
one tree is confined to pages of that tree and free pages, so it leaves the other trees as they were
(`Forest.update`); new trees join (`Forest.createNew`) and dropped ones give their pages back
(`Forest.freeAllPages`).
-/

set_option autoImplicit false

namespace OpenDB

open OpenDB.Library

/-! ## Runs of calls on one tree -/

/-- The steps that a list of calls takes. -/
inductive PutSteps : List LeafEntry → Layout → Layout → Prop where
  | nil (L : Layout) : PutSteps [] L L
  | cons {e : LeafEntry} {es : List LeafEntry} {L L₁ L' : Layout} {b : Bool}
      (hnodup : L.leaves.pages.Nodup) (hput : PutStep e L b L₁) (hrest : PutSteps es L₁ L') :
      PutSteps (e :: es) L L'

theorem Confined.trans {t t₁ t₂ : BTree} {others : List PageId} (h : Confined t t₁ others)
    (h' : Confined t₁ t₂ others) : Confined t t₂ others := by
  obtain ⟨u, hu, hdisj⟩ := h
  obtain ⟨v, hv, hdisj'⟩ := h'
  refine ⟨u ++ v, hu.trans hv, ?_⟩
  intro y hy hmem
  rcases List.mem_append.1 hmem with hmem | hmem
  · exact hdisj y hy hmem
  · exact hdisj' y hy hmem

theorem SamePages.trans {t t₁ t₂ : BTree} {L L₁ L₂ : Layout} (h : SamePages t L t₁ L₁)
    (h' : SamePages t₁ L₁ t₂ L₂) : SamePages t L t₂ L₂ := by
  refine ⟨h'.accounts.trans h.accounts, ?_⟩
  rcases h.pages with hless | ⟨hroom, hpages⟩
  · rcases h'.pages with hless' | ⟨hroom', -⟩
    · exact Or.inl (hless'.trans hless)
    · exact Or.inl (by omega)
  · rcases h'.pages with hless' | ⟨hroom', hpages'⟩
    · exact Or.inl (by omega)
    · exact Or.inr ⟨hroom'.trans hroom, hpages'.trans hpages⟩

/-- What a list of calls does to a tree. -/
theorem Rep.putAll_ok {t t' : BTree} {L : Layout} {others : List PageId} {es : List LeafEntry}
    {bs : List Bool} (h : Rep t L others) (hrun : (BTree.putAll es).run t = .ok bs t') :
    ∃ L', PutSteps es L L' ∧ Rep t' L' others ∧ Confined t t' others ∧ SamePages t L t' L' := by
  induction es generalizing t L bs with
  | nil =>
    cases hrun
    exact ⟨L, .nil L, h, ⟨[], Pager.Frame.refl _, by simp⟩, samePages_refl _ L⟩
  | cons e es ih =>
    obtain ⟨b, t₁, bs', hput, hrest, -⟩ := run_putAll_cons.1 hrun
    obtain ⟨L₁, hstep, hrep₁, hconf, -, hpages⟩ := h.put_ok hput
    obtain ⟨L', hsteps, hrep', hconf', hpages'⟩ := ih hrep₁ hrest
    exact ⟨L', .cons h.nodup_leafPages hstep hsteps, hrep', hconf.trans hconf',
      hpages.trans hpages'⟩

/-! ## Release of a tree -/

/-- The pages `freed` have joined the pool, and nothing else has changed. -/
structure Released (p p' : Pager) (freed : List PageId) : Prop where
  frame : p.Frame p' []
  pool : p'.allocator.pool.Perm (freed ++ p.allocator.pool)
  file : p'.file = p.file

theorem Released.cons {p p₁ p₂ : Pager} {x : PageId} {freed : List PageId} (hframe : p.Frame p₁ [])
    (hpool : p₁.allocator.pool.Perm (x :: p.allocator.pool)) (hfile : p₁.file = p.file)
    (h : Released p₁ p₂ freed) : Released p p₂ (x :: freed) := by
  refine ⟨hframe.trans h.frame, ?_, h.file.trans hfile⟩
  exact (h.pool.trans (hpool.append_left freed)).trans List.perm_middle

theorem Released.perm {p p' : Pager} {freed freed' : List PageId} (h : Released p p' freed)
    (hperm : freed.Perm freed') : Released p p' freed' :=
  ⟨h.frame, h.pool.trans (hperm.append_right _), h.file⟩

theorem Released.room {p p' : Pager} {freed : List PageId} (h : Released p p' freed) :
    p'.room = p.room + freed.length := by
  have hlen := h.pool.length_eq
  rw [List.length_append] at hlen
  rw [Pager.room, Pager.room, h.file, h.frame.capacity]
  omega

/-- Leaves on the stack are freed one after the other. -/
theorem run_freeLoop_leaves {stack : List PageId} {t : BTree} {visited others : List PageId}
    {fuel : Nat} (howns : t.pager.Owns (stack ++ others))
    (hleaf : ∀ x ∈ stack, ∃ n, BTree.loadNode t.pager x = .ok n ∧ n.hdr.type = .leaf)
    (hnew : ∀ x ∈ stack, x ∉ visited) (hfuel : stack.length < fuel) :
    ∃ t', (BTree.freeLoop fuel visited stack).run t = .ok () t' ∧ t'.pager.Owns others ∧
      Released t.pager t'.pager stack := by
  induction stack generalizing t visited fuel with
  | nil =>
    obtain ⟨fuel, rfl⟩ : ∃ k, fuel = k + 1 := ⟨fuel - 1, by simp at hfuel; omega⟩
    exact ⟨t, rfl, howns, Pager.Frame.refl _, List.Perm.refl _, rfl⟩
  | cons x stack ih =>
    obtain ⟨fuel, rfl⟩ : ∃ k, fuel = k + 1 := ⟨fuel - 1, by simp at hfuel; omega⟩
    obtain ⟨n, hload, htype⟩ := hleaf x List.mem_cons_self
    have hx := (howns.range x (by simp)).1
    -- the page on top is neither zero nor visited, so the loop frees it
    have hdrop : (x :: stack).dropWhile (fun id => decide (id = 0 ∨ id ∈ visited)) = x :: stack := by
      rw [List.dropWhile_cons, if_neg]
      simp [hx, hnew x List.mem_cons_self]
    obtain ⟨p, hfree, howns', hframe, hpool, hfile⟩ :=
      Pager.freePage_ok (p := t.pager) (x := x) howns
    have hnodup := (List.nodup_cons.1 (List.nodup_append.1 howns.nodup).2.1).1
    have hleaf' : ∀ y ∈ stack, ∃ m, BTree.loadNode p y = .ok m ∧ m.hdr.type = .leaf := by
      intro y hy
      obtain ⟨m, hm, hmt⟩ := hleaf y (List.mem_cons_of_mem _ hy)
      exact ⟨m, by rw [BTree.loadNode_congr (hframe.pages y (by simp))]; exact hm, hmt⟩
    have hnew' : ∀ y ∈ stack, y ∉ x :: visited := by
      intro y hy hmem
      rcases List.mem_cons.1 hmem with rfl | hmem
      · exact hnodup (List.mem_append_left _ hy)
      · exact hnew y (List.mem_cons_of_mem _ hy) hmem
    obtain ⟨t', hrun, howns'', hreleased⟩ := ih (t := { t with pager := p }) howns' hleaf' hnew'
      (show stack.length < fuel by simpa using hfuel)
    refine ⟨t', ?_, howns'', Released.cons hframe hpool hfile hreleased⟩
    rw [BTree.freeLoop, hdrop]
    dsimp only
    rw [EStateM.run_bind, run_reading_ok (f := fun t : BTree => BTree.loadNode t.pager x) hload]
    dsimp only
    rw [EStateM.run_bind, BTree.run_onPager_ok hfree]
    dsimp only
    rw [if_neg (by rw [htype]; decide), List.reverse_nil, List.nil_append]
    exact hrun

theorem Linked.loadNode_leafPage {t : BTree} {L : Layout} {others : List PageId}
    (h : Linked t L others) {x : PageId} (hx : x ∈ L.leaves.pages) :
    ∃ n, BTree.loadNode t.pager x = .ok n ∧ n.hdr.type = .leaf := by
  obtain ⟨leaf, hleaf, rfl⟩ := List.mem_map.1 hx
  obtain ⟨pre, post, hsplit⟩ := List.append_of_mem hleaf
  exact ⟨_, h.loadNode_leaf hsplit, rfl⟩

theorem Linked.root_mem_pages {t : BTree} {L : Layout} {others : List PageId}
    (h : Linked t L others) : t.rootPageId ∈ L.pages t.rootPageId := by
  cases hix : L.index with
  | none =>
    obtain ⟨es, rest, hl⟩ := h.leaves_of_index_none hix
    rw [Layout.pages, hix, hl]
    exact List.mem_cons_self
  | some ies =>
    rw [Layout.pages, hix]
    exact List.mem_cons_self

/-- The pages that the root leads to, itself included. -/
def Layout.reached (L : Layout) (root : PageId) : List PageId :=
  match L.index with
  | none => [root]
  | some ies => root :: ies.map InternalEntry.child

/-- Every page of a linked tree is reached from the root, or lost once the tree is dropped. -/
theorem Linked.exists_lost {t : BTree} {L : Layout} {others : List PageId} (h : Linked t L others) :
    ∃ lost, (L.pages t.rootPageId).Perm (L.reached t.rootPageId ++ lost) := by
  cases hix : L.index with
  | none =>
    obtain ⟨es, rest, hl⟩ := h.leaves_of_index_none hix
    refine ⟨Leaves.pages rest, ?_⟩
    rw [Layout.pages, Layout.reached, hix, hl]
    exact List.Perm.refl _
  | some ies =>
    obtain ⟨l, hl, hsub⟩ := (h.leads_of_index_some hix).2.children
    obtain ⟨lost, hlost⟩ := hsub.exists_perm_append
    refine ⟨lost, ?_⟩
    rw [Layout.pages, Layout.reached, hix]
    exact (hlost.trans (hl.append_right lost)).cons _

/-- A tree is freed: every page that the root leads to is free again. -/
theorem Linked.run_freeAllPages {t : BTree} {L : Layout} {others lost : List PageId}
    (h : Linked t L others) (hlost : (L.pages t.rootPageId).Perm (L.reached t.rootPageId ++ lost)) :
    ∃ t', BTree.freeAllPages.run t = .ok () t' ∧ t'.pager.Owns (lost ++ others) ∧
      Released t.pager t'.pager (L.reached t.rootPageId) := by
  have hleaf := fun x (hx : x ∈ L.leaves.pages) => h.loadNode_leafPage hx
  have howns : t.pager.Owns (L.reached t.rootPageId ++ (lost ++ others)) := by
    rw [← List.append_assoc]
    exact h.owns.perm (hlost.symm.append_right others)
  have hloop : ∃ t', (BTree.freeLoop (t.pager.header.pageCount.toNat + 1) [] [t.rootPageId]).run t =
      .ok () t' ∧ t'.pager.Owns (lost ++ others) ∧
      Released t.pager t'.pager (L.reached t.rootPageId) := by
    cases hix : L.index with
    | none =>
      obtain ⟨es, rest, hl⟩ := h.leaves_of_index_none hix
      have hreached : L.reached t.rootPageId = [t.rootPageId] := by
        rw [Layout.reached, hix]
      rw [hreached] at howns ⊢
      refine run_freeLoop_leaves howns ?_ (by simp) ?_
      · intro x hx
        refine hleaf x ?_
        rw [hl, List.mem_singleton.1 hx]
        exact List.mem_cons_self
      · have := h.pageCount_pos
        simp only [List.length_singleton]
        omega
    | some ies =>
      obtain ⟨hload, hleads⟩ := h.leads_of_index_some hix
      have hreached : L.reached t.rootPageId = t.rootPageId :: ies.map InternalEntry.child := by
        rw [Layout.reached, hix]
      rw [hreached] at howns ⊢
      have hroot := (howns.range t.rootPageId (by simp)).1
      obtain ⟨p, hfree, howns', hframe, hpool, hfile⟩ :=
        Pager.freePage_ok (p := t.pager) (x := t.rootPageId) howns
      -- the children are pushed from left to right and popped from right to left
      have hperm := (ies.map InternalEntry.child).reverse_perm
      have hsub : ∀ x ∈ (ies.map InternalEntry.child).reverse, x ∈ L.leaves.pages :=
        fun x hx => hleads.children.subset (hperm.subset hx)
      -- the fuel covers the children, which are fewer than the pages
      have hlen : (ies.map InternalEntry.child).length < t.pager.header.pageCount.toNat := by
        have hle := hleads.children.length_le
        have hlt := h.length_leaves_lt
        have hpages : L.leaves.pages.length = L.leaves.length := List.length_map _
        omega
      obtain ⟨t', hrun, howns'', hreleased⟩ := run_freeLoop_leaves (t := { t with pager := p })
        (howns'.perm (hperm.append_right _)) (by
          intro x hx
          obtain ⟨n, hn, hnt⟩ := hleaf x (hsub x hx)
          exact ⟨n, by rw [BTree.loadNode_congr (hframe.pages x (by simp))]; exact hn, hnt⟩)
        (show ∀ x ∈ (ies.map InternalEntry.child).reverse, x ∉ [t.rootPageId] by
          intro x hx hmem
          rw [List.mem_singleton.1 hmem] at hx
          exact h.root_not_mem_leaves hix (hsub _ hx))
        (show (ies.map InternalEntry.child).reverse.length < t.pager.header.pageCount.toNat by
          rw [List.length_reverse]
          exact hlen)
      refine ⟨t', ?_, howns'', Released.cons hframe hpool hfile (hreleased.perm hperm)⟩
      rw [BTree.freeLoop, List.dropWhile_cons, if_neg (by simp [hroot])]
      dsimp only
      rw [EStateM.run_bind,
        run_reading_ok (f := fun t' : BTree => BTree.loadNode t'.pager t.rootPageId) hload]
      dsimp only
      rw [EStateM.run_bind, BTree.run_onPager_ok hfree]
      dsimp only
      rw [if_pos (show (Node.ofInternal ies).hdr.type = .internal from rfl), List.append_nil]
      exact hrun
  obtain ⟨t', hrun, howns', hreleased⟩ := hloop
  have hroot : t.rootPageId ≠ 0 := (h.range_page h.root_mem_pages).1
  refine ⟨{ t' with rootPageId := 0 }, ?_, howns', hreleased⟩
  rw [BTree.freeAllPages, EStateM.run_bind, EStateM.run_get]
  dsimp only
  rw [if_neg hroot, EStateM.run_bind, hrun]
  rfl

/-- The root of a represented tree leads to all its pages. -/
theorem Rep.reached_perm {t : BTree} {L : Layout} {others : List PageId} (h : Rep t L others) :
    (L.pages t.rootPageId).Perm (L.reached t.rootPageId) := by
  cases hix : L.index with
  | none =>
    obtain ⟨es, hes⟩ := h.leaves_eq_of_index_none hix
    rw [Layout.pages, Layout.reached, hix, hes]
    exact List.Perm.refl _
  | some ies =>
    rw [Layout.pages, Layout.reached, hix]
    exact (h.loadNode_root_of_index_some hix).2.children.symm.cons _

/-- A tree gives all its pages back. -/
theorem Rep.run_freeAllPages {t : BTree} {L : Layout} {others : List PageId} (h : Rep t L others) :
    ∃ t', BTree.freeAllPages.run t = .ok () t' ∧ t'.pager.Owns others ∧
      Released t.pager t'.pager (L.pages t.rootPageId) := by
  have hall : (L.pages t.rootPageId).Perm (L.reached t.rootPageId ++ []) := by
    rw [List.append_nil]
    exact h.reached_perm
  obtain ⟨t', hrun, howns, hreleased⟩ := h.linked.run_freeAllPages hall
  exact ⟨t', hrun, howns, hreleased.perm h.reached_perm.symm⟩

/-! ## Forests -/

/-- The tree of a table. -/
structure TableTree where
  name : Bytes
  root : PageId
  layout : Layout

def TableTree.pages (f : TableTree) : List PageId := f.layout.pages f.root

/-- The tree of a new table. -/
def TableTree.blank (name : Bytes) (root : PageId) : TableTree := ⟨name, root, Layout.empty root⟩

/-- The pages of all trees. -/
def treePages (F : List TableTree) : List PageId := (F.map TableTree.pages).flatten

theorem treePages_append (A B : List TableTree) :
    treePages (A ++ B) = treePages A ++ treePages B := by
  rw [treePages, List.map_append, List.flatten_append]
  rfl

theorem treePages_cons (f : TableTree) (B : List TableTree) :
    treePages (f :: B) = f.pages ++ treePages B := rfl

theorem pages_sublist_treePages {F : List TableTree} {f : TableTree} (h : f ∈ F) :
    f.pages.Sublist (treePages F) :=
  List.sublist_flatten_of_mem (List.mem_map_of_mem h)

theorem treePages_perm (A B : List TableTree) (f : TableTree) (others : List PageId) :
    (treePages (A ++ f :: B) ++ others).Perm (f.pages ++ (treePages (A ++ B) ++ others)) := by
  rw [treePages_append, treePages_append, treePages_cons, ← List.append_assoc, ← List.append_assoc,
    ← List.append_assoc]
  exact (List.perm_append_comm.append_right _).append_right _

/-- What a description of trees says depends on their pages only, and keeps these apart from the
rest. -/
structure OnPages (T : BTree → Layout → List PageId → Prop) : Prop where
  owns : ∀ {t L others}, T t L others → t.pager.Owns (L.pages t.rootPageId ++ others)
  of_pages : ∀ {t u L others others'}, T t L others →
    (∀ x ∈ L.pages t.rootPageId, u.pager.readPage x = t.pager.readPage x) →
    u.rootPageId = t.rootPageId → u.pager.Owns (L.pages t.rootPageId ++ others') → T u L others'

theorem onPages_rep : OnPages Rep :=
  ⟨fun h => h.owns, fun h hpages hroot howns => h.of_pages hpages hroot howns⟩

theorem onPages_linked : OnPages Linked :=
  ⟨fun h => h.owns, fun h hpages hroot howns => h.of_pages hpages hroot howns⟩

/-- Trees that `T` describes, side by side on one pager and apart from `others`. -/
structure SideBySide (T : BTree → Layout → List PageId → Prop) (p : Pager) (F : List TableTree)
    (others : List PageId) : Prop where
  trees : ∀ f ∈ F, T ⟨p, f.root⟩ f.layout []
  owns : p.Owns (treePages F ++ others)

namespace SideBySide

variable {T : BTree → Layout → List PageId → Prop} {p p' : Pager} {F A B : List TableTree}
  {f : TableTree} {others others' : List PageId}

/-- One of the trees; the others are apart from it. -/
theorem tree (h : SideBySide T p (A ++ f :: B) others) (hT : OnPages T) :
    T ⟨p, f.root⟩ f.layout (treePages (A ++ B) ++ others) :=
  hT.of_pages (h.trees f (by simp)) (fun _ _ => rfl) rfl
    (h.owns.perm (treePages_perm A B f others).symm)

/-- Trees on pages that read the same. -/
theorem of_pages (h : SideBySide T p F others) (hT : OnPages T)
    (hpages : ∀ x ∈ treePages F, p'.readPage x = p.readPage x)
    (howns : p'.Owns (treePages F ++ others')) : SideBySide T p' F others' := by
  refine ⟨?_, howns⟩
  intro f hf
  have hsub := pages_sublist_treePages hf
  refine hT.of_pages (u := ⟨p', f.root⟩) (h.trees f hf) (fun x hx => hpages x (hsub.subset hx)) rfl
    (howns.subperm ?_)
  rw [List.append_nil]
  exact (hsub.trans (List.sublist_append_left _ _)).subperm

/-- A step that leaves the pages of the trees alone keeps them. -/
theorem of_frame (h : SideBySide T p F others) (hT : OnPages T) {touched : List PageId}
    (hframe : p.Frame p' touched) (hdisj : ∀ x ∈ treePages F, x ∉ touched)
    (howns : p'.Owns (treePages F ++ others')) : SideBySide T p' F others' :=
  h.of_pages hT (fun x hx => hframe.pages x (hdisj x hx)) howns

/-- A tree apart from all others joins them. -/
theorem insert (h : ∀ g ∈ A ++ B, T ⟨p, g.root⟩ g.layout []) (hT : OnPages T)
    (hf : T ⟨p, f.root⟩ f.layout (treePages (A ++ B) ++ others)) :
    SideBySide T p (A ++ f :: B) others := by
  refine ⟨fun g hg => ?_, (hT.owns hf).perm (treePages_perm A B f others)⟩
  rw [List.mem_append, List.mem_cons] at hg
  rcases hg with hg | rfl | hg
  · exact h g (List.mem_append_left _ hg)
  · refine hT.of_pages hf (fun _ _ => rfl) rfl ((hT.owns hf).subperm ?_)
    rw [List.append_nil]
    exact (List.sublist_append_left _ _).subperm
  · exact h g (List.mem_append_right _ hg)

/-- The trees without one of them. -/
theorem rest (h : SideBySide T p (A ++ f :: B) others) : SideBySide T p (A ++ B) others := by
  refine ⟨fun g hg => h.trees g ?_, h.owns.subperm ?_⟩
  · rw [List.mem_append, List.mem_cons]
    exact (List.mem_append.1 hg).imp_right Or.inr
  · exact (List.sublist_append_right _ _).subperm.trans (treePages_perm A B f others).symm.subperm

/-- A step of one tree keeps the others. -/
theorem update (h : SideBySide T p (A ++ f :: B) others) (hT : OnPages T) {t' : BTree} {L' : Layout}
    (htree : T t' L' (treePages (A ++ B) ++ others'))
    (hconf : Confined ⟨p, f.root⟩ t' (treePages (A ++ B) ++ others)) (name : Bytes) :
    SideBySide T t'.pager (A ++ ⟨name, t'.rootPageId, L'⟩ :: B) others' := by
  obtain ⟨touched, hframe, hdisj⟩ := hconf
  have hrest := h.rest.of_frame hT hframe (fun x hx => hdisj x (List.mem_append_left _ hx))
    ((hT.owns htree).subperm (List.sublist_append_right _ _).subperm)
  exact insert hrest.trees hT htree

/-- A new tree joins. -/
theorem createNew (h : SideBySide T p F others) (hT : OnPages T)
    (hrep : ∀ {t L others}, Rep t L others → T t L others) {root : PageId} {t : BTree}
    (hnew : BTree.createNew.run ⟨p, 0⟩ = .ok root t) (name : Bytes) :
    SideBySide T t.pager (F ++ [TableTree.blank name root]) others ∧ p.Frame t.pager [root] ∧
      root ∉ treePages F ++ others ∧ t.pager.room + 1 = p.room := by
  obtain ⟨hblank, hroot, hframe, hfresh, hroom⟩ := rep_createNew h.owns hnew
  have hold : SideBySide T t.pager F others := by
    refine h.of_frame hT hframe (fun x hx hxr => ?_)
      (hblank.owns.subperm (List.sublist_append_right _ _).subperm)
    rw [List.mem_singleton.1 hxr] at hx
    exact hfresh (List.mem_append_left _ hx)
  have htree : T ⟨t.pager, root⟩ (Layout.empty root) (treePages F ++ others) := by
    rw [← hroot] at hblank ⊢
    exact hrep hblank
  refine ⟨insert (A := F) (B := []) ?_ hT ?_, hframe, hfresh, hroom⟩
  · rw [List.append_nil]
    exact hold.trees
  · rw [List.append_nil]
    exact htree

/-- The pages of a dropped tree are free again, or lost. -/
theorem drop (h : SideBySide T p (A ++ f :: B) others) (hT : OnPages T) {freed : List PageId}
    (hreleased : Released p p' freed) (howns : p'.Owns (treePages (A ++ B) ++ others')) :
    SideBySide T p' (A ++ B) others' :=
  h.rest.of_frame hT hreleased.frame (by simp) howns

/-- Writing a page that belongs to no tree. -/
theorem withPage (h : SideBySide T p F others) (hT : OnPages T) {id : PageId} (hid : id ∈ others)
    (data : Bytes) : SideBySide T (p.withPage id data) F others := by
  obtain ⟨hne, hlt⟩ := h.owns.range id (by simp [hid])
  refine h.of_frame hT (Pager.frame_withPage h.owns.backed hne hlt) ?_ (h.owns.withPage hlt)
  intro x hx hmem
  rw [List.mem_singleton.1 hmem] at hx
  have hnodup := (List.nodup_append.1 h.owns.nodup).2.1
  exact (List.nodup_append.1 hnodup).2.2 id hx id hid rfl

/-- A tree under a new name goes to the end. -/
theorem rename (h : SideBySide T p (A ++ f :: B) others) (hT : OnPages T) (name : Bytes) :
    SideBySide T p (A ++ B ++ [{ f with name := name }]) others := by
  refine insert (A := A ++ B) (B := []) ?_ hT ?_
  · rw [List.append_nil]
    exact h.rest.trees
  · rw [List.append_nil]
    exact h.tree hT

end SideBySide

/-- Trees side by side on one pager, apart from `others`. -/
structure Forest (p : Pager) (F : List TableTree) (others : List PageId) : Prop where
  trees : ∀ f ∈ F, Rep ⟨p, f.root⟩ f.layout []
  owns : p.Owns (treePages F ++ others)

namespace Forest

variable {p p' : Pager} {F A B : List TableTree} {f : TableTree} {others others' : List PageId}

theorem sideBySide (h : Forest p F others) : SideBySide Rep p F others := ⟨h.trees, h.owns⟩

theorem of_sideBySide (h : SideBySide Rep p F others) : Forest p F others := ⟨h.trees, h.owns⟩

/-- One tree of a forest; the others are apart from it. -/
theorem rep (h : Forest p (A ++ f :: B) others) :
    Rep ⟨p, f.root⟩ f.layout (treePages (A ++ B) ++ others) :=
  h.sideBySide.tree onPages_rep

/-- Trees on pages that read the same. -/
theorem of_pages (h : Forest p F others)
    (hpages : ∀ x ∈ treePages F, p'.readPage x = p.readPage x)
    (howns : p'.Owns (treePages F ++ others')) : Forest p' F others' :=
  of_sideBySide (h.sideBySide.of_pages onPages_rep hpages howns)

/-- A step of one tree keeps the others. -/
theorem update (h : Forest p (A ++ f :: B) others) {t' : BTree} {L' : Layout}
    (hrep : Rep t' L' (treePages (A ++ B) ++ others))
    (hconf : Confined ⟨p, f.root⟩ t' (treePages (A ++ B) ++ others)) (name : Bytes) :
    Forest t'.pager (A ++ ⟨name, t'.rootPageId, L'⟩ :: B) others :=
  of_sideBySide (h.sideBySide.update onPages_rep hrep hconf name)

/-- A new tree joins. -/
theorem createNew (h : Forest p F others) {root : PageId} {t : BTree}
    (hnew : BTree.createNew.run ⟨p, 0⟩ = .ok root t) (name : Bytes) :
    Forest t.pager (F ++ [TableTree.blank name root]) others ∧ p.Frame t.pager [root] ∧
      root ∉ treePages F ++ others ∧ t.pager.room + 1 = p.room := by
  obtain ⟨hforest, hrest⟩ := h.sideBySide.createNew onPages_rep id hnew name
  exact ⟨of_sideBySide hforest, hrest⟩

/-- A tree is dropped and its pages are free again. -/
theorem freeAllPages (h : Forest p (A ++ f :: B) others) :
    ∃ t', BTree.freeAllPages.run ⟨p, f.root⟩ = .ok () t' ∧ Forest t'.pager (A ++ B) others ∧
      Released p t'.pager f.pages := by
  obtain ⟨t', hrun, howns, hreleased⟩ := h.rep.run_freeAllPages
  exact ⟨t', hrun, of_sideBySide (h.sideBySide.drop onPages_rep hreleased howns), hreleased⟩

/-- Writing a page that belongs to no tree. -/
theorem withPage (h : Forest p F others) {id : PageId} (hid : id ∈ others) (data : Bytes) :
    Forest (p.withPage id data) F others :=
  of_sideBySide (h.sideBySide.withPage onPages_rep hid data)

end Forest

end OpenDB
