import OpenDB.Storage.Layout

/-!
# Splitting a leaf

`put` splits a leaf that overflows in three writes: an empty page is allocated, the left half is
written over the leaf, the right half goes to the new page. Then the root gets a separator, or a new
root is made, or the root is full and the call throws. `Split` is the state between the writes, and
each theorem here says what one of the steps makes of it.
-/

set_option autoImplicit false

namespace OpenDB

open OpenDB.Library

/-- The test of `put` for a leaf that must be split. -/
def Overflows (leaf : List LeafEntry) : Prop := 64 < leaf.length ∨ 4024 < approxBytes leaf

instance (leaf : List LeafEntry) : Decidable (Overflows leaf) := inferInstanceAs (Decidable (_ ∨ _))

/-- The entries that stay on the page of a split leaf. -/
def leftHalf (leaf : List LeafEntry) : List LeafEntry := leaf.take (leaf.length / 2)

/-- The entries that move to the new page. -/
def rightHalf (leaf : List LeafEntry) : List LeafEntry := leaf.drop (leaf.length / 2)

theorem leftHalf_append_rightHalf (leaf : List LeafEntry) : leftHalf leaf ++ rightHalf leaf = leaf :=
  List.take_append_drop _ _

theorem entries_halves (pre post : Leaves) (page x : PageId) (leaf : List LeafEntry) :
    Leaves.entries (pre ++ (page, leftHalf leaf) :: (x, rightHalf leaf) :: post) =
      pre.entries ++ (leaf ++ post.entries) := by
  simp only [Leaves.entries_append, Leaves.entries_cons]
  rw [← List.append_assoc (leftHalf leaf), leftHalf_append_rightHalf]

theorem length_leftHalf_le (leaf : List LeafEntry) : (leftHalf leaf).length ≤ leaf.length / 2 :=
  List.length_take_le _ _

theorem length_rightHalf (leaf : List LeafEntry) :
    (rightHalf leaf).length = leaf.length - leaf.length / 2 :=
  List.length_drop

theorem rightHalf_eq_cons {leaf : List LeafEntry} (h : leaf ≠ []) :
    ∃ first rest, rightHalf leaf = first :: rest := by
  cases hr : rightHalf leaf with
  | nil =>
    have hlen := length_rightHalf leaf
    rw [hr, List.length_nil] at hlen
    have := List.length_pos_of_ne_nil h
    omega
  | cons first rest => exact ⟨first, rest, rfl⟩

theorem approxBytes_append (es es' : List LeafEntry) :
    approxBytes (es ++ es') = approxBytes es + approxBytes es' := by
  simp [approxBytes]

theorem length_insertEntry (e : LeafEntry) (leaf : List LeafEntry) :
    (BTree.insertEntry e leaf).length = leaf.length + 1 :=
  List.orderedInsert_length _ _ _

theorem insertEntry_perm (e : LeafEntry) (leaf : List LeafEntry) :
    (BTree.insertEntry e leaf).Perm (e :: leaf) :=
  List.perm_orderedInsert _ _ _

theorem insertEntry_ne_nil (e : LeafEntry) (leaf : List LeafEntry) :
    BTree.insertEntry e leaf ≠ [] := by
  intro h
  have := length_insertEntry e leaf
  rw [h] at this
  simp at this

/-! ## Counts -/

theorem toNat_ofNat_length {n : Nat} (h : n ≤ 129) : (UInt16.ofNat n).toNat = n := by
  rw [UInt16.toNat_ofNat']
  omega

theorem Node.counted_ofLeaf {sibling : PageId} {es : List LeafEntry} (h : es.length ≤ 129) :
    (Node.ofLeaf sibling es).Counted :=
  ⟨toNat_ofNat_length h, rfl⟩

theorem Node.counted_ofInternal {ies : List InternalEntry} (h : ies.length ≤ 129) :
    (Node.ofInternal ies).Counted :=
  ⟨toNat_ofNat_length h, rfl⟩

/-- The node `put` builds from a loaded leaf counts its entries. -/
theorem ofLeaf_insertEntry (sibling : PageId) (e : LeafEntry) (es : List LeafEntry) :
    (⟨⟨.leaf, UInt16.ofNat es.length + 1, sibling⟩, [], BTree.insertEntry e es⟩ : Node) =
      Node.ofLeaf sibling (BTree.insertEntry e es) := by
  rw [Node.ofLeaf, length_insertEntry, UInt16.ofNat_add]
  rfl

theorem overflows_iff {e : LeafEntry} {es : List LeafEntry} (h : es.length ≤ 64) :
    (BTree.maxLeafEntries < UInt16.ofNat es.length + 1 ∨
      Pager.dataPagePayloadSize - 64 < approxBytes (BTree.insertEntry e es)) ↔
      Overflows (BTree.insertEntry e es) := by
  have hcount : BTree.maxLeafEntries < UInt16.ofNat es.length + 1 ↔ 64 < es.length + 1 := by
    have h64 : BTree.maxLeafEntries.toNat = 64 := rfl
    have hsucc : UInt16.ofNat es.length + 1 = UInt16.ofNat (es.length + 1) := by
      rw [UInt16.ofNat_add]
      rfl
    rw [hsucc, UInt16.lt_iff_toNat_lt, h64, toNat_ofNat_length (by omega)]
  rw [Overflows]
  rw [hcount, length_insertEntry]
  exact Iff.rfl

/-! ## Moving a representation along -/

namespace Linked

variable {t : BTree} {L : Layout} {others others' : List PageId}

/-- A tree on pages that read the same has the same leaves. -/
theorem of_pages (h : Linked t L others) {u : BTree}
    (hpages : ∀ x ∈ L.pages t.rootPageId, u.pager.readPage x = t.pager.readPage x)
    (hroot : u.rootPageId = t.rootPageId)
    (howns : u.pager.Owns (L.pages t.rootPageId ++ others')) : Linked u L others' := by
  refine ⟨?_, ?_, h.small, by rw [hroot]; exact howns⟩
  · exact h.chain.congr fun x hx => hpages x (Rep.leafPages_subset L _ hx)
  · have hr := h.root
    rw [Layout.EntryAt] at hr ⊢
    cases hix : L.index with
    | none =>
      rw [hix] at hr
      rw [hroot]
      exact hr
    | some ies =>
      rw [hix] at hr
      refine ⟨?_, hr.2⟩
      rw [hroot, BTree.loadNode_congr (hpages _ (by simp [Layout.pages, hix]))]
      exact hr.1

/-- A step that leaves the pages of the tree alone keeps its leaves. -/
theorem of_frame (h : Linked t L others) {u : BTree} {touched : List PageId}
    (hframe : t.pager.Frame u.pager touched)
    (hdisj : ∀ x ∈ L.pages t.rootPageId, x ∉ touched) (hroot : u.rootPageId = t.rootPageId)
    (howns : u.pager.Owns (L.pages t.rootPageId ++ others')) : Linked u L others' :=
  h.of_pages (fun x hx => hframe.pages x (hdisj x hx)) hroot howns

theorem range_page (h : Linked t L others) {x : PageId} (hx : x ∈ L.pages t.rootPageId) :
    x ≠ 0 ∧ x.toNat < t.pager.header.pageCount.toNat :=
  h.owns.range x (List.mem_append_right _ (List.mem_append_left _ hx))

/-- An internal root is not one of the leaves. -/
theorem root_not_mem_leaves (h : Linked t L others) {ies : List InternalEntry}
    (hix : L.index = some ies) : t.rootPageId ∉ L.leaves.pages := by
  have hall := (List.nodup_append.1 (List.nodup_append.1 h.owns.nodup).2.1).1
  rw [Layout.pages, hix] at hall
  exact (List.nodup_cons.1 hall).1

/-- Rewriting the entries of one leaf in place. -/
theorem withLeaf (h : Linked t L others) {page : PageId} {pre post : Leaves} {es es' : List LeafEntry}
    (hsplit : L.leaves = pre ++ (page, es) :: post) (hsmall : es'.length ≤ 64)
    (hfits : (Node.ofLeaf (post.first 0) es').Fits) :
    Linked (t.withNode page (Node.ofLeaf (post.first 0) es'))
      { L with leaves := pre ++ (page, es') :: post } others := by
  have hpages : Leaves.pages (pre ++ (page, es') :: post) = L.leaves.pages := by
    rw [hsplit, Leaves.pages_append, Leaves.pages_append]
    rfl
  have hmem : page ∈ L.leaves.pages := by
    rw [hsplit]
    simp
  have hrange := h.range_leaf hmem
  have hnodup := h.nodup_leafPages
  rw [hsplit, Leaves.pages_append, Leaves.pages_cons, List.nodup_append, List.nodup_cons] at hnodup
  have hframe : t.pager.Frame (t.withNode page (Node.ofLeaf (post.first 0) es')).pager [page] :=
    Pager.frame_withPage h.owns.backed hrange.1 hrange.2
  have hself := BTree.loadNode_withNode_self hrange.1 hrange.2 hfits
    (Node.counted_ofLeaf (by omega))
  refine ⟨?_, ?_, ?_, ?_⟩
  -- the leaves on both sides are other pages, which the write leaves alone
  · have hchain := h.chain
    rw [hsplit, Leaves.chain_append] at hchain
    rw [Leaves.chain_append]
    refine ⟨hchain.1.congr ?_, hself, hchain.2.2.congr ?_⟩
    · intro x hx
      refine hframe.pages x fun hxp => ?_
      exact hnodup.2.2 x hx page (by simp) (by simpa using hxp)
    · intro x hx
      refine hframe.pages x fun hxp => hnodup.2.1.1 ?_
      rw [← List.mem_singleton.1 hxp]
      exact hx
  · unfold Layout.EntryAt
    dsimp only
    cases hix : L.index with
    | none =>
      obtain ⟨es₀, rest, hl⟩ := h.leaves_of_index_none hix
      rw [hsplit] at hl
      cases pre with
      | nil =>
        cases hl
        exact ⟨es', post, rfl⟩
      | cons s pre =>
        cases hl
        exact ⟨es₀, pre ++ (page, es') :: post, rfl⟩
    | some ies =>
      obtain ⟨hload, hleads⟩ := h.leads_of_index_some hix
      -- the root is no leaf, so the index is read as before
      have hne : t.rootPageId ≠ page := fun e => h.root_not_mem_leaves hix (e ▸ hmem)
      refine ⟨?_, hleads.few, ?_, ?_⟩
      · rw [show (t.withNode page (Node.ofLeaf (post.first 0) es')).rootPageId = t.rootPageId from rfl,
          BTree.loadNode_withNode_of_ne h.owns.backed hrange.2 hne]
        exact hload
      · rw [hpages]
        exact hleads.children
      · obtain ⟨rest, hrest⟩ := hleads.head
        refine ⟨rest, ?_⟩
        rw [hrest, hsplit]
        cases pre <;> rfl
  · intro s hs
    dsimp only at hs
    rw [List.mem_append, List.mem_cons] at hs
    rcases hs with hs | rfl | hs
    · exact h.small s (by rw [hsplit]; exact List.mem_append_left _ hs)
    · exact hsmall
    · exact h.small s (by rw [hsplit]; exact List.mem_append_right _ (List.mem_cons_of_mem _ hs))
  · have hall : Layout.pages { L with leaves := pre ++ (page, es') :: post } t.rootPageId =
        L.pages t.rootPageId := by
      unfold Layout.pages
      dsimp only
      rw [hpages]
    show (t.pager.withPage _ _).Owns (_ ++ others)
    rw [show (t.withNode page (Node.ofLeaf (post.first 0) es')).rootPageId = t.rootPageId from rfl,
      hall]
    exact h.owns.withPage hrange.2

end Linked

namespace Rep

variable {t t' : BTree} {L : Layout} {others others' : List PageId}

/-- A tree on pages that read the same has the same layout. -/
theorem of_pages (h : Rep t L others) {u : BTree}
    (hpages : ∀ x ∈ L.pages t.rootPageId, u.pager.readPage x = t.pager.readPage x)
    (hroot : u.rootPageId = t.rootPageId)
    (howns : u.pager.Owns (L.pages t.rootPageId ++ others')) : Rep u L others' := by
  refine ⟨?_, ?_, h.small, by rw [hroot]; exact howns⟩
  · exact h.chain.congr fun x hx => hpages x (leafPages_subset L _ hx)
  · have hr := h.root
    rw [Layout.RootAt] at hr ⊢
    cases hix : L.index with
    | none =>
      rw [hix] at hr
      rw [hroot]
      exact hr
    | some ies =>
      rw [hix] at hr
      refine ⟨?_, hr.2⟩
      rw [hroot, BTree.loadNode_congr (hpages _ (by simp [Layout.pages, hix]))]
      exact hr.1

/-- A step that leaves the pages of the tree alone keeps its layout. -/
theorem of_frame (h : Rep t L others) {u : BTree} {touched : List PageId}
    (hframe : t.pager.Frame u.pager touched)
    (hdisj : ∀ x ∈ L.pages t.rootPageId, x ∉ touched) (hroot : u.rootPageId = t.rootPageId)
    (howns : u.pager.Owns (L.pages t.rootPageId ++ others')) : Rep u L others' :=
  h.of_pages (fun x hx => hframe.pages x (hdisj x hx)) hroot howns

theorem range_page (h : Rep t L others) {x : PageId} (hx : x ∈ L.pages t.rootPageId) :
    x ≠ 0 ∧ x.toNat < t.pager.header.pageCount.toNat := h.linked.range_page hx

theorem root_not_mem_leaves (h : Rep t L others) {ies : List InternalEntry}
    (hix : L.index = some ies) : t.rootPageId ∉ L.leaves.pages := h.linked.root_not_mem_leaves hix

/-- Rewriting the entries of one leaf in place. -/
theorem withLeaf (h : Rep t L others) {page : PageId} {pre post : Leaves} {es es' : List LeafEntry}
    (hsplit : L.leaves = pre ++ (page, es) :: post) (hsmall : es'.length ≤ 64)
    (hfits : (Node.ofLeaf (post.first 0) es').Fits) :
    Rep (t.withNode page (Node.ofLeaf (post.first 0) es'))
      { L with leaves := pre ++ (page, es') :: post } others := by
  have hlinked := h.linked.withLeaf hsplit hsmall hfits
  refine ⟨hlinked.chain, ?_, hlinked.small, hlinked.owns⟩
  have hpages : Leaves.pages (pre ++ (page, es') :: post) = L.leaves.pages := by
    rw [hsplit, Leaves.pages_append, Leaves.pages_append]
    rfl
  have hr := h.root
  rw [Layout.RootAt] at hr ⊢
  dsimp only
  cases hix : L.index with
  | none =>
    rw [hix] at hr
    dsimp only at hr ⊢
    rw [hpages]
    exact hr
  | some ies =>
    have hleads := hlinked.leads_of_index_some (show L.index = some ies from hix)
    refine ⟨hleads.1, hleads.2.few, ?_, hleads.2.head⟩
    rw [hpages]
    exact (h.loadNode_root_of_index_some hix).2.children

end Rep

/-! ## Splitting a leaf -/

/-- The leaf at `page` has been cut: it holds `left` and points at the new page, which holds `right`
and points at `next`. The root does not know yet. -/
structure Split (t t' : BTree) (L : Layout) (others : List PageId) (pre post : Leaves)
    (page : PageId) (left : List LeafEntry) (newRight : PageId) (right : List LeafEntry)
    (next : PageId) : Prop where
  before : Leaves.Chain t'.pager (pre ++ [(page, left)]) newRight
  new : BTree.loadNode t'.pager newRight = .ok (Node.ofLeaf next right)
  after : Leaves.Chain t'.pager post 0
  root : t'.rootPageId = t.rootPageId
  index : ∀ ies, L.index = some ies →
    BTree.loadNode t'.pager t'.rootPageId = .ok (Node.ofInternal ies)
  fresh : newRight ∉ L.pages t.rootPageId
  owns : t'.pager.Owns (newRight :: (L.pages t.rootPageId ++ others))
  frame : t.pager.Frame t'.pager [page, newRight]
  room : t'.pager.room + 1 = t.pager.room

section SplitLeaf

variable {t t₁ : BTree} {L : Layout} {others : List PageId} {page x : PageId} {pre post : Leaves}
  {es left right : List LeafEntry}

/-- A fresh page next to a tree. -/
theorem Linked.newPage_cases (h : Linked t L others) (type : NodeType)
    (htype : type = .leaf ∨ type = .internal) :
    (t.pager.room = 0 ∧ (BTree.newPage type).run t = .error Pager.extendFailed t) ∨
    ∃ x t', (BTree.newPage type).run t = .ok x t' ∧ Linked t' L (x :: others) ∧
      BTree.loadNode t'.pager x = .ok ⟨⟨type, 0, 0⟩, [], []⟩ ∧ x ∉ L.pages t.rootPageId ∧
      t.pager.Frame t'.pager [x] ∧ t'.pager.room + 1 = t.pager.room ∧
      t'.rootPageId = t.rootPageId := by
  rcases BTree.newPage_cases h.owns type htype with hfull | ⟨x, t', hrun, howns, hload, hframe,
    hroom, hroot⟩
  · exact Or.inl hfull
  · have hnew : x ∉ L.pages t.rootPageId := by
      intro hx
      have hnodup := (List.nodup_append.1 howns.nodup).2.1
      exact (List.nodup_cons.1 hnodup).1 (List.mem_append_left _ hx)
    refine Or.inr ⟨x, t', hrun, ?_, hload, hnew, hframe, hroom, hroot⟩
    refine h.of_frame hframe (fun y hy hyx => hnew ?_) hroot (howns.perm List.perm_middle)
    rw [← List.mem_singleton.1 hyx]
    exact hy

/-- The left half is written first: it points at a page that is still empty. -/
theorem Linked.writeLeft (h₁ : Linked t₁ L (x :: others))
    (hsplit : L.leaves = pre ++ (page, es) :: post)
    (hempty : BTree.loadNode t₁.pager x = .ok (Node.ofLeaf 0 []))
    (hnew : x ∉ L.pages t.rootPageId) (hframe : t.pager.Frame t₁.pager [x])
    (hroom : t₁.pager.room + 1 = t.pager.room) (hroot : t₁.rootPageId = t.rootPageId)
    (hleft : (Node.ofLeaf x left).Fits) (hsmall : left.length ≤ 64) :
    Split t (t₁.withNode page (Node.ofLeaf x left)) L others pre post page left x [] 0 := by
  have hmem : page ∈ L.leaves.pages := by
    rw [hsplit]
    simp
  have hxp : x ≠ page := fun e => hnew (e ▸ Rep.leafPages_subset L _ hmem)
  have hrange := h₁.range_leaf hmem
  have hb₁ := h₁.owns.backed
  have hf₁ : t₁.pager.Frame (t₁.withNode page (Node.ofLeaf x left)).pager [page] :=
    Pager.frame_withPage hb₁ hrange.1 hrange.2
  have hnodup := h₁.nodup_leafPages
  rw [hsplit, Leaves.pages_append, Leaves.pages_cons, List.nodup_append, List.nodup_cons] at hnodup
  have hchain := h₁.chain
  rw [hsplit, Leaves.chain_append] at hchain
  -- one page is written, and the chain up to it, the chain behind it and the index avoid it
  refine ⟨?_, ?_, ?_, hroot, ?_, hnew, ?_, (hframe.trans hf₁).mono (by simp), ?_⟩
  · rw [Leaves.chain_append]
    refine ⟨hchain.1.congr ?_, ?_, trivial⟩
    · intro y hy
      refine hf₁.pages y fun hyp => hnodup.2.2 y hy page (by simp) (by simpa using hyp)
    · exact BTree.loadNode_withNode_self hrange.1 hrange.2 hleft
        (Node.counted_ofLeaf (by omega))
  · rw [BTree.loadNode_withNode_of_ne hb₁ hrange.2 hxp]
    exact hempty
  · refine hchain.2.2.congr fun y hy => hf₁.pages y fun hyp => hnodup.2.1.1 ?_
    rw [← List.mem_singleton.1 hyp]
    exact hy
  · intro ies hix
    have hne : t₁.rootPageId ≠ page := fun e => h₁.root_not_mem_leaves hix (e ▸ hmem)
    show BTree.loadNode _ t₁.rootPageId = _
    rw [BTree.loadNode_withNode_of_ne hb₁ hrange.2 hne]
    exact (h₁.leads_of_index_some hix).1
  · have hperm : (x :: (L.pages t₁.rootPageId ++ others)).Perm
        (L.pages t₁.rootPageId ++ x :: others) := List.perm_middle.symm
    have := h₁.owns.perm hperm
    rw [hroot] at this
    exact this.withPage hrange.2
  · rw [← hroom]
    exact congrArg (· + 1) (Pager.room_withPage hb₁ hrange.2)

/-- The right half goes to the new page and takes over the old sibling. -/
theorem Split.writeRight {t' : BTree} {right' : List LeafEntry} {next next' : PageId}
    (h : Split t t' L others pre post page left x right next)
    (hsub : page ∈ L.pages t.rootPageId) (hleaves : pre.pages ++ post.pages ⊆ L.pages t.rootPageId)
    (hright : (Node.ofLeaf next' right').Fits) (hsmall : right'.length ≤ 64) :
    Split t (t'.withNode x (Node.ofLeaf next' right')) L others pre post page left x right'
      next' := by
  have hrange : x ≠ 0 ∧ x.toNat < t'.pager.header.pageCount.toNat := h.owns.range x (by simp)
  have hb := h.owns.backed
  have hf : t'.pager.Frame (t'.withNode x (Node.ofLeaf next' right')).pager [x] :=
    Pager.frame_withPage hb hrange.1 hrange.2
  have hsame : ∀ y ∈ L.pages t.rootPageId,
      (t'.withNode x (Node.ofLeaf next' right')).pager.readPage y = t'.pager.readPage y := by
    intro y hy
    refine hf.pages y fun hyx => h.fresh ?_
    rw [← List.mem_singleton.1 hyx]
    exact hy
  refine ⟨h.before.congr ?_, ?_, h.after.congr ?_, h.root, ?_, h.fresh, h.owns.withPage hrange.2,
    (h.frame.trans hf).mono (by simp), ?_⟩
  · intro y hy
    rw [Leaves.pages_append, List.mem_append] at hy
    rcases hy with hy | hy
    · exact hsame y (hleaves (List.mem_append_left _ hy))
    · rw [Leaves.pages_cons, Leaves.pages_nil, List.mem_singleton] at hy
      exact hsame y (hy ▸ hsub)
  · exact BTree.loadNode_withNode_self hrange.1 hrange.2 hright (Node.counted_ofLeaf (by omega))
  · exact fun y hy => hsame y (hleaves (List.mem_append_right _ hy))
  · intro ies hix
    show BTree.loadNode _ t'.rootPageId = _
    rw [BTree.loadNode_congr (hsame _ (by rw [h.root]; simp [Layout.pages, hix]))]
    exact h.index ies hix
  · rw [← h.room]
    exact congrArg (· + 1) (Pager.room_withPage hb hrange.2)

/-- The chain of a finished split. -/
theorem Split.chain {t' : BTree}
    (h : Split t t' L others pre post page left x right (post.first 0)) :
    Leaves.Chain t'.pager (pre ++ (page, left) :: (x, right) :: post) 0 := by
  have hassoc : pre ++ (page, left) :: (x, right) :: post =
      (pre ++ [(page, left)]) ++ (x, right) :: post := by
    simp
  rw [hassoc, Leaves.chain_append]
  exact ⟨h.before, h.new, h.after⟩

/-- The three writes of a split. -/
theorem run_splitLeaf (t : BTree) (page : PageId) (n : UInt16) (next : PageId) {leaf : List LeafEntry}
    {first : LeafEntry} {rest : List LeafEntry} (hright : rightHalf leaf = first :: rest) :
    (BTree.splitLeaf page ⟨.leaf, n, next⟩ leaf).run t =
      (do
        let newRight ← BTree.newPage .leaf
        BTree.saveNode page (Node.ofLeaf newRight (leftHalf leaf))
        BTree.saveNode newRight (Node.ofLeaf next (rightHalf leaf))
        return (newRight, first.key) : EStateM Fault BTree (PageId × Value)).run t := by
  have hdrop : leaf.drop (leaf.length / 2) = first :: rest := hright
  rw [BTree.splitLeaf]
  rw [hdrop, hright]
  rfl

/-- Everything `splitLeaf` can do to a tree. -/
theorem Linked.splitLeaf_cases (h : Linked t L others) (hsplit : L.leaves = pre ++ (page, es) :: post)
    (n : UInt16) {leaf : List LeafEntry} (hne : leaf ≠ []) (hlen : leaf.length ≤ 65) :
    let split := BTree.splitLeaf page ⟨.leaf, n, post.first 0⟩ leaf
    (t.pager.room = 0 ∧ split.run t = .error Pager.extendFailed t) ∨
    (t.pager.room ≠ 0 ∧ 4080 < approxBytes (leftHalf leaf) ∧
      ∃ f x t', split.run t = .error f t' ∧
        encodeNode (Node.ofLeaf x (leftHalf leaf)) = .error f ∧ Linked t' L (x :: others) ∧
        x ∉ L.pages t.rootPageId ∧ t.pager.Frame t'.pager [x] ∧ t'.rootPageId = t.rootPageId) ∨
    (t.pager.room ≠ 0 ∧ approxBytes (leftHalf leaf) ≤ 4080 ∧ 4080 < approxBytes (rightHalf leaf) ∧
      ∃ f x t', split.run t = .error f t' ∧
        encodeNode (Node.ofLeaf (post.first 0) (rightHalf leaf)) = .error f ∧
        Split t t' L others pre post page (leftHalf leaf) x [] 0) ∨
    (t.pager.room ≠ 0 ∧ approxBytes (leftHalf leaf) ≤ 4080 ∧ approxBytes (rightHalf leaf) ≤ 4080 ∧
      ∃ x first rest t', rightHalf leaf = first :: rest ∧
        split.run t = .ok (x, first.key) t' ∧
        Split t t' L others pre post page (leftHalf leaf) x (rightHalf leaf) (post.first 0)) := by
  intro split
  obtain ⟨first, rest, hright⟩ := rightHalf_eq_cons hne
  have hl := length_leftHalf_le leaf
  have hr := length_rightHalf leaf
  have hrun := run_splitLeaf t page n (post.first 0) hright
  rw [hrun, EStateM.run_bind]
  rcases h.newPage_cases .leaf (Or.inl rfl) with ⟨hfull, hnew⟩ | ⟨x, t₁, hnew, h₁, hempty, hx, hframe,
    hroom, hroot⟩
  · exact Or.inl ⟨hfull, by rw [hnew]⟩
  · have hpos : t.pager.room ≠ 0 := by omega
    have hmem : page ∈ L.leaves.pages := by
      rw [hsplit]
      simp
    have hrange := h₁.range_leaf hmem
    rw [hnew]
    dsimp only
    rw [EStateM.run_bind]
    -- the left half is saved before the right one
    by_cases hleft : approxBytes (leftHalf leaf) ≤ 4080
    · have hleftFits : (Node.ofLeaf x (leftHalf leaf)).Fits := Node.fits_ofLeaf_iff.2 hleft
      have hcut := h₁.writeLeft hsplit hempty hx hframe hroom hroot hleftFits (by omega)
      have hxrange := hcut.owns.range x (by simp)
      rw [BTree.run_saveNode hrange.1 hrange.2 hleftFits]
      dsimp only
      rw [EStateM.run_bind]
      by_cases hrightBytes : approxBytes (rightHalf leaf) ≤ 4080
      · have hrightFits : (Node.ofLeaf (post.first 0) (rightHalf leaf)).Fits :=
          Node.fits_ofLeaf_iff.2 hrightBytes
        have hleaves : pre.pages ++ post.pages ⊆ L.pages t.rootPageId := by
          intro y hy
          refine Rep.leafPages_subset L _ ?_
          rw [hsplit]
          simp only [Leaves.pages_append, Leaves.pages_cons, List.mem_append, List.mem_cons] at hy ⊢
          tauto
        refine Or.inr (Or.inr (Or.inr ⟨hpos, hleft, hrightBytes, x, first, rest, _, hright, ?_,
          hcut.writeRight (Rep.leafPages_subset L _ hmem) hleaves hrightFits (by omega)⟩))
        rw [BTree.run_saveNode hxrange.1 hxrange.2 hrightFits]
        rfl
      · obtain ⟨f, henc, hf⟩ := BTree.run_saveNode_of_not_fits x
          (fun hfit => hrightBytes (Node.fits_ofLeaf_iff.1 hfit) :
            ¬ (Node.ofLeaf (post.first 0) (rightHalf leaf)).Fits)
          (t₁.withNode page (Node.ofLeaf x (leftHalf leaf)))
        exact Or.inr (Or.inr (Or.inl ⟨hpos, hleft, not_le.1 hrightBytes, f, x, _, by rw [hf], henc,
          hcut⟩))
    · obtain ⟨f, henc, hf⟩ := BTree.run_saveNode_of_not_fits page
        (fun hfit => hleft (Node.fits_ofLeaf_iff.1 hfit) :
          ¬ (Node.ofLeaf x (leftHalf leaf)).Fits) t₁
      exact Or.inr (Or.inl ⟨hpos, not_le.1 hleft, f, x, t₁, by rw [hf], henc, h₁, hx, hframe, hroot⟩)

/-- Everything `splitLeaf` can do to a represented tree. -/
theorem Rep.splitLeaf_cases (h : Rep t L others) (hsplit : L.leaves = pre ++ (page, es) :: post)
    (n : UInt16) {leaf : List LeafEntry} (hne : leaf ≠ []) (hlen : leaf.length ≤ 65) :
    let split := BTree.splitLeaf page ⟨.leaf, n, post.first 0⟩ leaf
    (t.pager.room = 0 ∧ split.run t = .error Pager.extendFailed t) ∨
    (t.pager.room ≠ 0 ∧ 4080 < approxBytes (leftHalf leaf) ∧
      ∃ f x t', split.run t = .error f t' ∧
        encodeNode (Node.ofLeaf x (leftHalf leaf)) = .error f ∧ Rep t' L (x :: others) ∧
        t.pager.Frame t'.pager [x]) ∨
    (t.pager.room ≠ 0 ∧ approxBytes (leftHalf leaf) ≤ 4080 ∧ 4080 < approxBytes (rightHalf leaf) ∧
      ∃ f x t', split.run t = .error f t' ∧
        encodeNode (Node.ofLeaf (post.first 0) (rightHalf leaf)) = .error f ∧
        Split t t' L others pre post page (leftHalf leaf) x [] 0) ∨
    (t.pager.room ≠ 0 ∧ approxBytes (leftHalf leaf) ≤ 4080 ∧ approxBytes (rightHalf leaf) ≤ 4080 ∧
      ∃ x first rest t', rightHalf leaf = first :: rest ∧
        split.run t = .ok (x, first.key) t' ∧
        Split t t' L others pre post page (leftHalf leaf) x (rightHalf leaf) (post.first 0)) := by
  intro split
  rcases h.linked.splitLeaf_cases hsplit n hne hlen with hfull | ⟨hroom, hleft, f, x, t', hrun, henc,
    hlinked, hx, hframe, hroot⟩ | hright | hboth
  · exact Or.inl hfull
  · refine Or.inr (Or.inl ⟨hroom, hleft, f, x, t', hrun, henc, ?_, hframe⟩)
    have howns := hlinked.owns
    rw [hroot] at howns
    refine h.of_frame hframe (fun y hy hyx => hx ?_) hroot howns
    rw [← List.mem_singleton.1 hyx]
    exact hy
  · exact Or.inr (Or.inr (Or.inl hright))
  · exact Or.inr (Or.inr (Or.inr hboth))

end SplitLeaf

/-! ## The parent -/

theorem length_insertSeparator (e : InternalEntry) (ies : List InternalEntry) :
    (BTree.insertSeparator e ies).length = ies.length + 1 :=
  List.orderedInsert_length _ _ _

theorem insertSeparator_perm (e : InternalEntry) (ies : List InternalEntry) :
    (BTree.insertSeparator e ies).Perm (e :: ies) :=
  List.perm_orderedInsert _ _ _

/-- Nothing is inserted before the first separator. -/
theorem insertSeparator_cons_null (e : InternalEntry) (page : PageId) (ies : List InternalEntry) :
    BTree.insertSeparator e (⟨.null, page⟩ :: ies) =
      ⟨.null, page⟩ :: BTree.insertSeparator e ies := by
  simp only [BTree.insertSeparator]
  rw [List.orderedInsert_cons, if_neg]
  simp [Value.operatorGe_null]

/-- The node `insertIntoParent` builds from a loaded root counts its entries. -/
theorem ofInternal_insertSeparator (e : InternalEntry) (ies : List InternalEntry) :
    (⟨⟨.internal, UInt16.ofNat ies.length + 1, 0⟩, BTree.insertSeparator e ies, []⟩ : Node) =
      Node.ofInternal (BTree.insertSeparator e ies) := by
  rw [Node.ofInternal, length_insertSeparator, UInt16.ofNat_add]
  rfl

theorem index_has_room_iff {ies : List InternalEntry} (h : ies.length ≤ 128) :
    UInt16.ofNat ies.length + 1 ≤ BTree.maxInternalEntries ↔ ies.length < 128 := by
  have h128 : BTree.maxInternalEntries.toNat = 128 := rfl
  have hsucc : UInt16.ofNat ies.length + 1 = UInt16.ofNat (ies.length + 1) := by
    rw [UInt16.ofNat_add]
    rfl
  rw [hsucc, UInt16.le_iff_toNat_le, h128, toNat_ofNat_length (by omega)]
  omega

/-- A page too small for the separators of an internal node is overrun without an exception. -/
theorem emitInternal_error {es : List InternalEntry} {out out' : Bytes} {f : Fault}
    (h : (emitAll emitInternal es).run out = .error f out') : f = .outOfBounds := by
  have hemit : ∀ {bs out out' : Bytes} {f : Fault}, (emit bs).run out = .error f out' →
      f = .outOfBounds := by
    intro bs out out' f h
    have h : emit bs out = .error f out' := h
    rw [emit] at h
    split_ifs at h
    cases h
    rfl
  induction es generalizing out with
  | nil => cases h
  | cons e es ih =>
    rw [emitAll, run_bind_eq_error] at h
    rcases h with h | ⟨-, out₁, -, h⟩
    · rw [emitInternal, run_bind_eq_error] at h
      rcases h with h | ⟨-, out₁, -, h⟩
      · exact hemit h
      · exact hemit h
    · exact ih h

theorem run_saveNode_internal_of_not_fits (id : PageId) {ies : List InternalEntry}
    (hfits : ¬ (Node.ofInternal ies).Fits) (t : BTree) :
    (BTree.saveNode id (Node.ofInternal ies)).run t = .error .outOfBounds t := by
  have henc : encodeNode (Node.ofInternal ies) = .error .outOfBounds := by
    obtain ⟨f', hf'⟩ := encodeNode_of_not_fits hfits
    rw [hf']
    rw [encodeNode] at hf'
    cases hrun : (emitEntries (Node.ofInternal ies)).run (headerBytes (Node.ofInternal ies).hdr) with
    | ok a out =>
      rw [hrun] at hf'
      cases hf'
    | error g out =>
      rw [hrun] at hf'
      cases hf'
      rw [emitInternal_error hrun]
  rw [BTree.saveNode, henc]
  rfl

section Parent

variable {t t' : BTree} {L : Layout} {others : List PageId} {page x : PageId} {pre post : Leaves}
  {es left right : List LeafEntry} {key : Value}

/-- The first round of `insertIntoParent`. -/
theorem run_insertIntoParent (t : BTree) (left : PageId) (key : Value) (right : PageId) :
    (BTree.insertIntoParent left key right).run t =
      (BTree.insertLoop (t.pager.allocator.pool.length + t.pager.capacity + 1) left key right).run
        t := by
  simp [BTree.insertIntoParent]

theorem run_insertLoop_of_leaf {t : BTree} {sibling : PageId} {es : List LeafEntry}
    (hroot : BTree.loadNode t.pager t.rootPageId = .ok (Node.ofLeaf sibling es)) (fuel : Nat)
    (left : PageId) (key : Value) (right : PageId) :
    (BTree.insertLoop (fuel + 1) left key right).run t = (BTree.raiseRoot key right).run t := by
  have hread : (reading fun t : BTree => BTree.loadNode t.pager t.rootPageId).run t =
      .ok (Node.ofLeaf sibling es) t := run_reading_ok hroot
  rw [BTree.insertLoop, EStateM.run_bind, hread]
  rfl

/-- The split leaf was the root: a new root is made above the two halves. -/
theorem Split.newRoot_cases
    (h : Split t t' L others pre post page left x right (post.first 0)) (hrep : Rep t L others)
    (hsplit : L.leaves = pre ++ (page, es) :: post) (hix : L.index = none)
    (hsmall : left.length ≤ 64 ∧ right.length ≤ 64) (hkey : key.toBytes.length ≤ 4055) :
    (t'.pager.room = 0 ∧
      (BTree.insertIntoParent page key x).run t' = .error Pager.extendFailed t') ∨
    ∃ t'', (BTree.insertIntoParent page key x).run t' = .ok () t'' ∧
      Rep t'' ⟨some [⟨.null, page⟩, ⟨key, x⟩], pre ++ (page, left) :: (x, right) :: post⟩ others ∧
      (∃ y, t'.pager.Frame t''.pager [y] ∧ y ∉ L.pages t.rootPageId ++ others ∧
        t''.rootPageId = y) ∧
      t''.pager.room + 1 = t'.pager.room := by
  obtain ⟨es', hl⟩ := hrep.leaves_eq_of_index_none hix
  -- the only leaf is the root
  have hparts : pre = [] ∧ page = t.rootPageId ∧ post = [] := by
    rw [hl] at hsplit
    cases pre with
    | nil =>
      simp only [List.nil_append, List.cons.injEq, Prod.mk.injEq] at hsplit
      exact ⟨rfl, hsplit.1.1.symm, hsplit.2.symm⟩
    | cons s rest =>
      rw [List.cons_append, List.cons.injEq] at hsplit
      exact absurd hsplit.2 (by simp)
  obtain ⟨rfl, rfl, rfl⟩ := hparts
  have hpages : L.pages t.rootPageId = [t.rootPageId] := by
    simp [Layout.pages, hix, hl]
  have hrootLeaf : BTree.loadNode t'.pager t'.rootPageId = .ok (Node.ofLeaf x left) := by
    rw [h.root]
    exact h.before.1
  have hfits : (Node.ofInternal [⟨.null, t.rootPageId⟩, ⟨key, x⟩]).Fits := by
    have hnull : Value.null.toBytes.length = 1 := rfl
    show 8 + (List.flatten [_, _]).length ≤ 4088
    simp only [InternalEntry.bytes, List.flatten_cons, List.flatten_nil, List.length_append,
      length_leBytes, hnull, List.length_nil]
    omega
  rw [run_insertIntoParent, run_insertLoop_of_leaf hrootLeaf, BTree.raiseRoot, EStateM.run_bind,
    EStateM.run_get]
  dsimp only
  rw [EStateM.run_bind]
  rcases BTree.newPage_cases h.owns .internal (Or.inr rfl) with ⟨hfull, hrun⟩ | ⟨y, t₁, hrun, howns,
    -, hframe, hroom, hroot⟩
  · exact Or.inl ⟨hfull, by rw [hrun]⟩
  · have hyrange := howns.range y (by simp)
    have hynew : y ∉ x :: (L.pages t.rootPageId ++ others) :=
      (List.nodup_cons.1 (List.nodup_append.1 howns.nodup).2.1).1
    rw [hrun]
    dsimp only
    rw [h.root, EStateM.run_bind, show (⟨⟨.internal, 2, 0⟩, [⟨.null, t.rootPageId⟩, ⟨key, x⟩], []⟩ :
      Node) = Node.ofInternal [⟨.null, t.rootPageId⟩, ⟨key, x⟩] from rfl,
      BTree.run_saveNode hyrange.1 hyrange.2 hfits]
    have hself := BTree.loadNode_withNode_self hyrange.1 hyrange.2 hfits
      (Node.counted_ofInternal (by simp))
    have hf₂ : t₁.pager.Frame
        (t₁.withNode y (Node.ofInternal [⟨.null, t.rootPageId⟩, ⟨key, x⟩])).pager [y] :=
      Pager.frame_withPage howns.backed hyrange.1 hyrange.2
    have hframe' := (hframe.trans hf₂).mono (show [y] ++ [y] ⊆ [y] by simp)
    refine Or.inr ⟨_, rfl, ⟨?_, ⟨hself, by simp, ?_, ⟨_, rfl⟩⟩, ?_, ?_⟩, ⟨y, hframe', ?_, rfl⟩, ?_⟩
    · refine h.chain.congr fun z hz => hframe'.pages z fun hzy => hynew ?_
      rw [← List.mem_singleton.1 hzy]
      rw [hpages]
      simp only [List.nil_append, Leaves.pages_cons, Leaves.pages_nil, List.mem_cons] at hz ⊢
      simp only [List.not_mem_nil, or_false] at hz
      rcases hz with rfl | rfl
      · exact Or.inr (by simp)
      · exact Or.inl rfl
    · exact List.Perm.refl _
    · intro s hs
      simp only [List.nil_append, List.mem_cons, List.not_mem_nil, or_false] at hs
      rcases hs with rfl | rfl
      · exact hsmall.1
      · exact hsmall.2
    · refine (howns.withPage hyrange.2).perm ?_
      rw [hpages]
      exact (List.Perm.swap _ _ _).cons y
    · exact fun hy => hynew (List.mem_cons_of_mem _ hy)
    · rw [← hroom]
      exact congrArg (· + 1) (Pager.room_withPage howns.backed hyrange.2)

theorem parentOf_internal {p : Pager} {cur child : PageId} {ies : List InternalEntry}
    (hload : BTree.loadNode p cur = .ok (Node.ofInternal ies)) (fuel : Nat) :
    BTree.parentOf p child (fuel + 1) cur =
      if (ies.any fun e => e.child == child) = true then .ok cur
      else BTree.searchStack (BTree.parentOf p child fuel)
        (ies.map InternalEntry.child).reverse := by
  rw [BTree.parentOf.eq_def]
  dsimp only
  rw [hload]
  rfl

theorem parentOf_leaf {p : Pager} {cur child sibling : PageId} {es : List LeafEntry}
    (hload : BTree.loadNode p cur = .ok (Node.ofLeaf sibling es)) (fuel : Nat) :
    BTree.parentOf p child fuel cur = .ok 0 := by
  rw [BTree.parentOf.eq_def]
  dsimp only
  rw [hload]
  rfl

theorem run_findParent_root {t : BTree} {child : PageId} {ies : List InternalEntry}
    (hload : BTree.loadNode t.pager t.rootPageId = .ok (Node.ofInternal ies))
    (hchild : child ∈ ies.map InternalEntry.child) :
    (BTree.findParent child).run t = .ok t.rootPageId t := by
  obtain ⟨e, he, rfl⟩ := List.mem_map.1 hchild
  have hany : (ies.any fun i => i.child == e.child) = true :=
    List.any_eq_true.2 ⟨e, he, by simp⟩
  have hread : (reading fun t : BTree => BTree.parentOf t.pager e.child
      (t.pager.header.pageCount.toNat + 1) t.rootPageId).run t = .ok t.rootPageId t := by
    refine run_reading_ok ?_
    rw [parentOf_internal hload, if_pos hany]
  rw [BTree.findParent, EStateM.run_bind, hread]
  dsimp only
  rw [if_neg (BTree.lt_of_loadNode hload).1]
  rfl

/-- A node with only leaves below it, none of which is `child`, has no parent of `child`. -/
theorem run_findParent_none {t : BTree} {child : PageId} {ies : List InternalEntry}
    (hload : BTree.loadNode t.pager t.rootPageId = .ok (Node.ofInternal ies))
    (hchild : child ∉ ies.map InternalEntry.child)
    (hleaves : ∀ x ∈ ies.map InternalEntry.child,
      ∃ sibling es, BTree.loadNode t.pager x = .ok (Node.ofLeaf sibling es)) :
    (BTree.findParent child).run t =
      .error (.runtimeError (ascii "insertIntoParent: parent of left_child not found")) t := by
  have hany : ¬ (ies.any fun i => i.child == child) = true := by
    rw [List.any_eq_true]
    rintro ⟨e, he, heq⟩
    exact hchild (List.mem_map.2 ⟨e, he, by simpa using heq⟩)
  have hstack : ∀ stack : List PageId, stack ⊆ ies.map InternalEntry.child → ∀ fuel,
      BTree.searchStack (BTree.parentOf t.pager child fuel) stack = .ok 0 := by
    intro stack hsub fuel
    induction stack with
    | nil => rfl
    | cons c stack ih =>
      obtain ⟨sibling, es, hleaf⟩ := hleaves c (hsub List.mem_cons_self)
      rw [BTree.searchStack, parentOf_leaf hleaf]
      exact ih fun y hy => hsub (List.mem_cons_of_mem _ hy)
  have hread : (reading fun t : BTree => BTree.parentOf t.pager child
      (t.pager.header.pageCount.toNat + 1) t.rootPageId).run t = .ok 0 t := by
    refine run_reading_ok ?_
    rw [parentOf_internal hload, if_neg hany]
    exact hstack _ (List.reverse_subset.2 (List.Subset.refl _)) _
  rw [BTree.findParent, EStateM.run_bind, hread]
  rfl

theorem run_insertLoop_of_internal {t : BTree} {ies : List InternalEntry}
    (hroot : BTree.loadNode t.pager t.rootPageId = .ok (Node.ofInternal ies)) {left : PageId}
    (hchild : left ∈ ies.map InternalEntry.child) (fuel : Nat) (key : Value) (right : PageId) :
    (BTree.insertLoop (fuel + 1) left key right).run t =
      (if UInt16.ofNat ies.length + 1 ≤ BTree.maxInternalEntries then
        BTree.saveNode t.rootPageId (Node.ofInternal (BTree.insertSeparator ⟨key, right⟩ ies))
      else do
        let (newRight, promotedKey) ←
          BTree.splitInternal t.rootPageId (BTree.insertSeparator ⟨key, right⟩ ies)
        BTree.insertLoop fuel t.rootPageId promotedKey newRight).run t := by
  have hread : (reading fun t : BTree => BTree.loadNode t.pager t.rootPageId).run t =
      .ok (Node.ofInternal ies) t := run_reading_ok hroot
  have hread' : (reading fun s : BTree => BTree.loadNode s.pager t.rootPageId).run t =
      .ok (Node.ofInternal ies) t := run_reading_ok hroot
  rw [BTree.insertLoop, EStateM.run_bind, hread]
  dsimp only
  rw [if_neg (by simp [Node.ofInternal]), EStateM.run_bind, run_findParent_root hroot hchild]
  dsimp only
  rw [EStateM.run_bind, hread', ← ofInternal_insertSeparator]
  rfl

/-- Pages of the tree after a split. -/
theorem pages_split_perm (pre post : Leaves) (page x : PageId) (es left right : List LeafEntry) :
    (Leaves.pages (pre ++ (page, left) :: (x, right) :: post)).Perm
      (x :: Leaves.pages (pre ++ (page, es) :: post)) := by
  simp only [Leaves.pages_append, Leaves.pages_cons]
  have hswap : (pre.pages ++ page :: x :: post.pages).Perm (pre.pages ++ x :: page :: post.pages) :=
    (List.Perm.swap x page _).append_left _
  exact hswap.trans List.perm_middle

theorem small_split (h : Linked t L others) (hsplit : L.leaves = pre ++ (page, es) :: post)
    (hsmall : left.length ≤ 64 ∧ right.length ≤ 64) :
    ∀ s ∈ pre ++ (page, left) :: (x, right) :: post, s.2.length ≤ 64 := by
  intro s hs
  rw [List.mem_append, List.mem_cons, List.mem_cons] at hs
  rcases hs with hs | rfl | rfl | hs
  · exact h.small s (by rw [hsplit]; exact List.mem_append_left _ hs)
  · exact hsmall.1
  · exact hsmall.2
  · exact h.small s (by rw [hsplit]; exact List.mem_append_right _ (List.mem_cons_of_mem _ hs))

theorem Rep.page_mem_children (h : Rep t L others) (hsplit : L.leaves = pre ++ (page, es) :: post)
    {ies : List InternalEntry} (hix : L.index = some ies) :
    page ∈ ies.map InternalEntry.child := by
  rw [(h.loadNode_root_of_index_some hix).2.children.mem_iff, hsplit]
  simp

/-- The root has room: it gets a separator for the new leaf, or the page is overrun. -/
theorem Split.newSeparator_cases
    (h : Split t t' L others pre post page left x right (post.first 0)) (hrep : Rep t L others)
    (hsplit : L.leaves = pre ++ (page, es) :: post) {ies : List InternalEntry}
    (hix : L.index = some ies) (hlen : ies.length < 128)
    (hsmall : left.length ≤ 64 ∧ right.length ≤ 64) :
    (¬ (Node.ofInternal (BTree.insertSeparator ⟨key, x⟩ ies)).Fits ∧
      (BTree.insertIntoParent page key x).run t' = .error .outOfBounds t') ∨
    ∃ t'', (BTree.insertIntoParent page key x).run t' = .ok () t'' ∧
      Rep t'' ⟨some (BTree.insertSeparator ⟨key, x⟩ ies),
        pre ++ (page, left) :: (x, right) :: post⟩ others ∧
      t'.pager.Frame t''.pager [t.rootPageId] ∧ t''.rootPageId = t.rootPageId ∧
      t''.pager.room = t'.pager.room := by
  have hroot := h.index ies hix
  obtain ⟨hload, hok⟩ := hrep.loadNode_root_of_index_some hix
  -- the root has room, so the separator is written into it and nothing else
  have hrun : (BTree.insertIntoParent page key x).run t' =
      (BTree.saveNode t'.rootPageId
        (Node.ofInternal (BTree.insertSeparator ⟨key, x⟩ ies))).run t' := by
    rw [run_insertIntoParent, run_insertLoop_of_internal hroot (hrep.page_mem_children hsplit hix),
      if_pos ((index_has_room_iff (by omega)).2 hlen)]
  rw [hrun]
  by_cases hfits : (Node.ofInternal (BTree.insertSeparator ⟨key, x⟩ ies)).Fits
  · have hpages : L.pages t.rootPageId = t.rootPageId :: L.leaves.pages := by
      rw [Layout.pages, hix]
    have hrange := BTree.lt_of_loadNode hroot
    have hb := h.owns.backed
    have hcounted : (Node.ofInternal (BTree.insertSeparator ⟨key, x⟩ ies)).Counted :=
      Node.counted_ofInternal (by rw [length_insertSeparator]; omega)
    have hframe : t'.pager.Frame (t'.withNode t'.rootPageId
        (Node.ofInternal (BTree.insertSeparator ⟨key, x⟩ ies))).pager [t'.rootPageId] :=
      Pager.frame_withPage hb hrange.1 hrange.2
    have hrootx : t.rootPageId ≠ x := fun e => h.fresh (e ▸ by simp [hpages])
    refine Or.inr ⟨_, BTree.run_saveNode hrange.1 hrange.2 hfits, ⟨?_, ⟨?_, ?_, ?_, ?_⟩, ?_, ?_⟩,
      by rw [← h.root]; exact hframe, h.root, Pager.room_withPage hb hrange.2⟩
    · refine h.chain.congr fun z hz => hframe.pages z fun hzr => ?_
      have hzr : z = t.rootPageId := by
        rw [← h.root]
        simpa using hzr
      have hz' := (pages_split_perm pre post page x es left right).mem_iff.1 hz
      rw [List.mem_cons, ← hsplit] at hz'
      rcases hz' with hz' | hz'
      · exact hrootx (hzr.symm.trans hz')
      · exact hrep.root_not_mem_leaves hix (hzr ▸ hz')
    · exact BTree.loadNode_withNode_self hrange.1 hrange.2 hfits hcounted
    · rw [length_insertSeparator]
      omega
    · refine ((insertSeparator_perm ⟨key, x⟩ ies).map InternalEntry.child).trans ?_
      refine List.Perm.trans ?_ (pages_split_perm pre post page x es left right).symm
      rw [← hsplit]
      exact hok.children.cons x
    · obtain ⟨rest, hrest⟩ := hok.head
      refine ⟨BTree.insertSeparator ⟨key, x⟩ rest, ?_⟩
      rw [hrest, insertSeparator_cons_null, hsplit]
      cases pre <;> rfl
    · exact small_split hrep.linked hsplit hsmall
    · refine (h.owns.withPage hrange.2).perm ?_
      show (t'.rootPageId :: Leaves.pages (pre ++ (page, left) :: (x, right) :: post) ++
        others).Perm (x :: (L.pages t.rootPageId ++ others))
      rw [h.root, hpages, ← List.cons_append]
      refine List.Perm.append_right others ?_
      rw [hsplit]
      exact ((pages_split_perm pre post page x es left right).cons _).trans (List.Perm.swap _ _ _)
  · exact Or.inl ⟨hfits, run_saveNode_internal_of_not_fits _ hfits t'⟩

/-- Nothing is the parent of the root, so a split root throws. -/
theorem run_insertLoop_of_root {t : BTree} {ies : List InternalEntry}
    (hroot : BTree.loadNode t.pager t.rootPageId = .ok (Node.ofInternal ies))
    (hleaves : ∀ x ∈ ies.map InternalEntry.child, x ≠ t.rootPageId ∧
      ∃ sibling es, BTree.loadNode t.pager x = .ok (Node.ofLeaf sibling es))
    (fuel : Nat) (key : Value) (right : PageId) :
    ∃ f, (BTree.insertLoop fuel t.rootPageId key right).run t = .error f t ∧
      (f = .nontermination ∨
        f = .runtimeError (ascii "insertIntoParent: parent of left_child not found")) := by
  cases fuel with
  | zero => exact ⟨.nontermination, rfl, Or.inl rfl⟩
  | succ fuel =>
    have hread : (reading fun t : BTree => BTree.loadNode t.pager t.rootPageId).run t =
        .ok (Node.ofInternal ies) t := run_reading_ok hroot
    have hnone := run_findParent_none hroot (fun hmem => (hleaves _ hmem).1 rfl)
      fun x hx => (hleaves x hx).2
    refine ⟨_, ?_, Or.inr rfl⟩
    rw [BTree.insertLoop, EStateM.run_bind, hread]
    dsimp only
    rw [if_neg (by simp [Node.ofInternal]), EStateM.run_bind, hnone]

/-- Everything the split of an internal node can do: there is no page for it, a half overruns its
page, or the left half stays on its page and one page besides is touched. -/
theorem splitInternal_cases {t : BTree} {live : List PageId} (howns : t.pager.Owns live)
    {id : PageId} (hid : id ∈ live) {entries : List InternalEntry} (hlen : entries.length = 129) :
    (t.pager.room = 0 ∧ (BTree.splitInternal id entries).run t = .error Pager.extendFailed t) ∨
    (t.pager.room ≠ 0 ∧ ¬ ((Node.ofInternal (entries.take 64)).Fits ∧
      (Node.ofInternal (entries.drop 64)).Fits) ∧
      ∃ t', (BTree.splitInternal id entries).run t = .error .outOfBounds t') ∨
    (t.pager.room ≠ 0 ∧ (Node.ofInternal (entries.take 64)).Fits ∧
      (Node.ofInternal (entries.drop 64)).Fits ∧
      ∃ z key t', (BTree.splitInternal id entries).run t = .ok (z, key) t' ∧
        t'.pager.Owns (z :: live) ∧
        BTree.loadNode t'.pager id = .ok (Node.ofInternal (entries.take 64)) ∧
        t.pager.Frame t'.pager [id, z] ∧ t'.rootPageId = t.rootPageId) := by
  have hmid : entries.length / 2 = 64 := by omega
  obtain ⟨first, rest, hright⟩ : ∃ first rest, entries.drop 64 = first :: rest := by
    cases hd : entries.drop 64 with
    | nil =>
      have := congrArg List.length hd
      rw [List.length_drop, hlen] at this
      simp at this
    | cons first rest => exact ⟨first, rest, rfl⟩
  set left := entries.take 64 with hleft
  -- of 129 separators 64 stay and 65 move
  have hrun : (BTree.splitInternal id entries).run t =
      (do
        let newRight ← BTree.newPage .internal
        BTree.saveNode id (Node.ofInternal left)
        BTree.saveNode newRight (Node.ofInternal (first :: rest))
        return (newRight, first.key) : EStateM Fault BTree (PageId × Value)).run t := by
    rw [BTree.splitInternal]
    rw [hmid, hright]
    rfl
  rw [hrun, hright, EStateM.run_bind]
  rcases BTree.newPage_cases howns .internal (Or.inr rfl) with ⟨hfull, hnew⟩ | ⟨z, t₁, hnew, howns₁,
    -, hframe, hroom, hroot⟩
  · exact Or.inl ⟨hfull, by rw [hnew]⟩
  · have hpos : t.pager.room ≠ 0 := by omega
    have hz : z ∉ live := (List.nodup_cons.1 (List.nodup_append.1 howns₁.nodup).2.1).1
    have hidRange := howns₁.range id (by simp [hid])
    have hzRange := howns₁.range z (by simp)
    have hidz : id ≠ z := fun e => hz (e ▸ hid)
    rw [hnew]
    dsimp only
    rw [EStateM.run_bind]
    by_cases hleftFits : (Node.ofInternal left).Fits
    · have hb₂ : (t₁.withNode id (Node.ofInternal left)).pager.Backed :=
        howns₁.backed.withPage hidRange.2
      have hf₁ : t₁.pager.Frame (t₁.withNode id (Node.ofInternal left)).pager [id] :=
        Pager.frame_withPage howns₁.backed hidRange.1 hidRange.2
      rw [BTree.run_saveNode hidRange.1 hidRange.2 hleftFits]
      dsimp only
      rw [EStateM.run_bind]
      by_cases hrightFits : (Node.ofInternal (first :: rest)).Fits
      · have hf₂ : (t₁.withNode id (Node.ofInternal left)).pager.Frame
            ((t₁.withNode id (Node.ofInternal left)).withNode z
              (Node.ofInternal (first :: rest))).pager [z] :=
          Pager.frame_withPage hb₂ hzRange.1 hzRange.2
        refine Or.inr (Or.inr ⟨hpos, hleftFits, hrightFits, z, first.key,
          (t₁.withNode id (Node.ofInternal left)).withNode z (Node.ofInternal (first :: rest)), ?_,
          (howns₁.withPage hidRange.2).withPage hzRange.2, ?_, ?_, hroot⟩)
        · rw [BTree.run_saveNode (t := t₁.withNode id (Node.ofInternal left)) hzRange.1 hzRange.2
            hrightFits]
          rfl
        · rw [BTree.loadNode_withNode_of_ne hb₂ hzRange.2 hidz]
          exact BTree.loadNode_withNode_self hidRange.1 hidRange.2 hleftFits
            (Node.counted_ofInternal (by rw [hleft, List.length_take]; omega))
        · exact ((hframe.trans hf₁).trans hf₂).mono (by simp)
      · exact Or.inr (Or.inl ⟨hpos, fun h => hrightFits h.2, _,
          by rw [run_saveNode_internal_of_not_fits z hrightFits]⟩)
    · exact Or.inr (Or.inl ⟨hpos, fun h => hleftFits h.1, _,
        by rw [run_saveNode_internal_of_not_fits id hleftFits]⟩)

/-- The root is full: it is split, and then its parent is looked for and not found. -/
theorem Split.rootFull
    (h : Split t t' L others pre post page left x right (post.first 0)) (hrep : Rep t L others)
    (hsplit : L.leaves = pre ++ (page, es) :: post) {ies : List InternalEntry}
    (hix : L.index = some ies) (hlen : ies.length = 128) :
    ∃ f t'', (BTree.insertIntoParent page key x).run t' = .error f t'' ∧
      (f = Pager.extendFailed → t'.pager.room = 0) := by
  have hroot := h.index ies hix
  obtain ⟨-, hok⟩ := hrep.loadNode_root_of_index_some hix
  have hpages : L.pages t.rootPageId = t.rootPageId :: L.leaves.pages := by
    rw [Layout.pages, hix]
  have hrootx : t.rootPageId ≠ x := fun e => h.fresh (e ▸ by simp [hpages])
  rw [run_insertIntoParent, run_insertLoop_of_internal hroot (hrep.page_mem_children hsplit hix),
    if_neg (fun hroom => by have := (index_has_room_iff (by omega)).1 hroom; omega),
    EStateM.run_bind]
  set entries := BTree.insertSeparator ⟨key, x⟩ ies with hentries
  have hentriesLen : entries.length = 129 := by
    rw [hentries, length_insertSeparator, hlen]
  have hmem : t'.rootPageId ∈ x :: (L.pages t.rootPageId ++ others) := by
    rw [h.root, hpages]
    simp
  rcases splitInternal_cases h.owns hmem hentriesLen with ⟨hfull, hrun⟩ | ⟨-, -, t'', hrun⟩ |
    ⟨-, -, -, z, key', t₁, hrun, howns, hload, hframe, hroot₁⟩
  · exact ⟨_, t', by rw [hrun], fun _ => hfull⟩
  · exact ⟨.outOfBounds, t'', by rw [hrun], fun hf => by cases hf⟩
  · have hz : z ∉ x :: (L.pages t.rootPageId ++ others) :=
      (List.nodup_cons.1 (List.nodup_append.1 howns.nodup).2.1).1
    rw [hrun]
    dsimp only
    rw [← hroot₁] at hload ⊢
    -- the children of the left half are leaves, and the split has not touched them
    have hleaf : ∀ y ∈ (entries.take 64).map InternalEntry.child,
        y ≠ t₁.rootPageId ∧ ∃ sibling es, BTree.loadNode t₁.pager y = .ok (Node.ofLeaf sibling es) := by
      intro y hy
      have hy' : y ∈ Leaves.pages (pre ++ (page, left) :: (x, right) :: post) := by
        have hperm := (insertSeparator_perm ⟨key, x⟩ ies).map InternalEntry.child
        have hyall : y ∈ entries.map InternalEntry.child :=
          (List.take_sublist _ _).map _ |>.subset hy
        rw [(pages_split_perm pre post page x es left right).mem_iff, ← hsplit, List.mem_cons,
          ← hok.children.mem_iff]
        simpa using hperm.mem_iff.1 hyall
      have hold := (pages_split_perm pre post page x es left right).mem_iff.1 hy'
      rw [List.mem_cons, ← hsplit] at hold
      have hyroot : y ≠ t'.rootPageId := by
        rintro rfl
        rw [h.root] at hold
        rcases hold with hx | hx
        · exact hrootx hx
        · exact hrep.root_not_mem_leaves hix hx
      have hyz : y ≠ z := by
        rintro rfl
        refine hz ?_
        rw [hpages]
        rcases hold with rfl | hx
        · simp
        · simp [hx]
      obtain ⟨s, hs, rfl⟩ := List.mem_map.1 hy'
      obtain ⟨l₁, l₂, hl⟩ := List.append_of_mem hs
      have hchain := h.chain
      rw [hl, Leaves.chain_append] at hchain
      refine ⟨hroot₁ ▸ hyroot, Leaves.first l₂ 0, s.2, ?_⟩
      rw [BTree.loadNode_congr (hframe.pages _ (by simp [hyroot, hyz]))]
      exact hchain.2.1
    obtain ⟨f, hf, hne⟩ := run_insertLoop_of_root hload hleaf
      (t'.pager.allocator.pool.length + t'.pager.capacity) key' z
    refine ⟨f, t₁, hf, fun he => ?_⟩
    rcases hne with rfl | rfl
    · cases he
    · exact absurd he (by decide)

end Parent

end OpenDB
