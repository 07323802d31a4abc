import OpenDB.Library.Postconditions
import OpenDB.Storage.Forest
import OpenDB.Storage.PageFit

/-!
# Trees after calls that throw

A `put` that throws after it has split a leaf leaves a tree behind in which the new leaf hangs in the
chain but has no separator, and a full root that has been split has lost half of its separators. Such
a tree is still `Linked`: every entry is on a leaf of the chain, and the root leads to leaves of the
chain, if not to all of them.

On a linked tree `put` returns with the entry added, or with its position taken (`Linked.put_ok`);
when it throws, and not because a node does not fit its page, the tree is linked again
(`Linked.put_threw`). The two say nothing about which leaf a key belongs to, so they hold for every
layout of versions.
-/

set_option autoImplicit false

namespace OpenDB

open OpenDB.Library

/-! ## Calls and the entries of a tree -/

/-- `x` is at the position where `put` looks for `e`. -/
def SamePosition (x e : LeafEntry) : Prop :=
  x.key.operatorEq e.key = true ∧ x.commitSeq = e.commitSeq ∧ x.txnId = e.txnId

theorem exists_samePosition_of_occupied {e : LeafEntry} {es : List LeafEntry}
    (h : BTree.occupied e es = true) : ∃ x ∈ es, SamePosition x e := by
  obtain ⟨x, hx, htest⟩ := List.any_eq_true.1 h
  simp only [Bool.and_eq_true, beq_iff_eq] at htest
  exact ⟨x, hx, htest.1.1, htest.1.2, htest.2⟩

/-- What a call that returns does to the entries of a tree. -/
inductive Taken (e : LeafEntry) (before after : List LeafEntry) : Prop where
  | added (h : after.Perm (e :: before))
  | occupied {x : LeafEntry} (hx : x ∈ before) (hpos : SamePosition x e) (h : after.Perm before)

theorem Taken.among {e : LeafEntry} {before after : List LeafEntry} (h : Taken e before after) :
    after ⊆ before ++ [e] := by
  intro x hx
  cases h with
  | added hput => exact (hput.trans (List.perm_append_singleton e before).symm).mem_iff.1 hx
  | occupied _ _ hput => exact List.mem_append_left _ (hput.mem_iff.1 hx)

/-- What calls that return do, one after the other. -/
inductive TakenAll : List LeafEntry → List LeafEntry → List LeafEntry → Prop where
  | nil (es : List LeafEntry) : TakenAll [] es es
  | cons {e : LeafEntry} {calls before between after : List LeafEntry} (h : Taken e before between)
      (hrest : TakenAll calls between after) : TakenAll (e :: calls) before after

namespace TakenAll

variable {calls before after : List LeafEntry}

/-- Nothing goes, and what comes are calls. -/
theorem exists_added (h : TakenAll calls before after) :
    ∃ added, after.Perm (before ++ added) ∧ added ⊆ calls := by
  induction h with
  | nil es => exact ⟨[], by rw [List.append_nil], List.nil_subset _⟩
  | @cons e calls before between after h hrest ih =>
    obtain ⟨added, hperm, hsub⟩ := ih
    cases h with
    | added hput =>
      refine ⟨e :: added, ?_, List.cons_subset_cons e hsub⟩
      exact hperm.trans ((hput.append_right added).trans List.perm_middle.symm)
    | occupied hx hpos hput =>
      exact ⟨added, hperm.trans (hput.append_right added), List.subset_cons_of_subset e hsub⟩

/-- Every entry was there or is a call. -/
theorem among (h : TakenAll calls before after) : after ⊆ before ++ calls := by
  obtain ⟨added, hperm, hsub⟩ := h.exists_added
  intro x hx
  rcases List.mem_append.1 (hperm.mem_iff.1 hx) with hx | hx
  · exact List.mem_append_left _ hx
  · exact List.mem_append_right _ (hsub hx)

theorem subset (h : TakenAll calls before after) : before ⊆ after := by
  obtain ⟨added, hperm, -⟩ := h.exists_added
  intro x hx
  exact hperm.mem_iff.2 (List.mem_append_left _ hx)

/-- Every call has its position taken in the end, by itself or by what was there. -/
theorem exists_at_position (h : TakenAll calls before after) {e : LeafEntry} (he : e ∈ calls) :
    ∃ x ∈ after, x = e ∨ SamePosition x e := by
  induction h with
  | nil es => exact absurd he List.not_mem_nil
  | @cons e' calls before between after h hrest ih =>
    rcases List.mem_cons.1 he with rfl | he
    · cases h with
      | added hput => exact ⟨e, hrest.subset (hput.mem_iff.2 List.mem_cons_self), Or.inl rfl⟩
      | @occupied x hx hpos hput => exact ⟨x, hrest.subset (hput.mem_iff.2 hx), Or.inr hpos⟩
    · exact ih he

end TakenAll

/-- One leaf has taken the entry. -/
theorem taken_of_insertEntry {e : LeafEntry} {es : List LeafEntry} {L : Layout} {pre post : Leaves}
    {page : PageId} (hsplit : L.leaves = pre ++ (page, es) :: post) :
    Taken e L.scanAll (pre.entries ++ (BTree.insertEntry e es ++ post.entries)) := by
  have hall : L.scanAll = pre.entries ++ (es ++ post.entries) := by
    rw [Layout.scanAll, hsplit, Leaves.entries_append, Leaves.entries_cons]
  refine .added ?_
  rw [hall]
  have hins : (BTree.insertEntry e es ++ post.entries).Perm (e :: (es ++ post.entries)) :=
    (insertEntry_perm e es).append_right _
  exact (hins.append_left _).trans List.perm_middle

/-! ## The parent -/

section

variable {t t' : BTree} {L : Layout} {others : List PageId} {page x : PageId} {pre post : Leaves}
  {es left right : List LeafEntry} {key : Value} {ies : List InternalEntry}

/-- The new leaf of a split is in the chain as soon as both halves are written. -/
theorem Split.linked (h : Split t t' L others pre post page left x right (post.first 0))
    (hlinked : Linked t L others) (hsplit : L.leaves = pre ++ (page, es) :: post)
    (hsmall : left.length ≤ 64 ∧ right.length ≤ 64) :
    Linked t' ⟨L.index, pre ++ (page, left) :: (x, right) :: post⟩ others := by
  have hperm := pages_split_perm pre post page x es left right
  rw [← hsplit] at hperm
  refine ⟨h.chain, ?_, small_split hlinked hsplit hsmall, ?_⟩
  · unfold Layout.EntryAt
    dsimp only
    cases hix : L.index with
    | none =>
      obtain ⟨es₀, rest, hl⟩ := hlinked.leaves_of_index_none hix
      rw [h.root]
      rw [hsplit] at hl
      cases pre with
      | nil =>
        cases hl
        exact ⟨left, _, rfl⟩
      | cons s pre =>
        cases hl
        exact ⟨es₀, _, rfl⟩
    | some ies =>
      obtain ⟨-, hleads⟩ := hlinked.leads_of_index_some hix
      refine ⟨h.index ies hix, hleads.few, ?_, ?_⟩
      · exact (hleads.children.trans (List.sublist_cons_self x _).subperm).trans hperm.symm.subperm
      · obtain ⟨rest, hrest⟩ := hleads.head
        refine ⟨rest, ?_⟩
        rw [hrest, hsplit]
        cases pre <;> rfl
  · refine h.owns.perm ?_
    rw [h.root, ← List.cons_append]
    refine List.Perm.append_right others ?_
    unfold Layout.pages
    cases L.index with
    | none => exact hperm
    | some ies => exact (hperm.cons _).trans (List.Perm.swap _ _ _)

/-- The root is a leaf: a new root is made above it and the new leaf. -/
theorem Linked.raiseRoot_cases (h : Linked t L others) (page : PageId) (hix : L.index = none)
    (hx : x ∈ L.leaves.pages) (hne : x ≠ t.rootPageId) (hkey : key.toBytes.length ≤ 4055) :
    (BTree.insertIntoParent page key x).run t = .error Pager.extendFailed t ∨
    ∃ t', (BTree.insertIntoParent page key x).run t = .ok () t' ∧
      Linked t' ⟨some [⟨.null, t.rootPageId⟩, ⟨key, x⟩], L.leaves⟩ others ∧
      Confined t t' others ∧ t.rootPageId = L.leaves.first 0 := by
  obtain ⟨es₀, rest, hl⟩ := h.leaves_of_index_none hix
  have hrootLeaf : BTree.loadNode t.pager t.rootPageId = .ok (Node.ofLeaf (Leaves.first rest 0) es₀) :=
    h.loadNode_leaf (show L.leaves = [] ++ (t.rootPageId, es₀) :: rest from hl)
  have hfirst : t.rootPageId = L.leaves.first 0 := by
    rw [hl]
    rfl
  have hpages : L.pages t.rootPageId = L.leaves.pages := by
    rw [Layout.pages, hix]
  -- two separators, one of them null, always fit
  have hfits : (Node.ofInternal [⟨.null, t.rootPageId⟩, ⟨key, x⟩]).Fits := by
    have hnull : Value.null.toBytes.length = 1 := rfl
    rw [Node.fits_ofInternal_iff]
    simp only [indexBytes, List.map_cons, List.map_nil, List.sum_cons, List.sum_nil,
      InternalEntry.size, hnull]
    omega
  rw [run_insertIntoParent, run_insertLoop_of_leaf hrootLeaf, BTree.raiseRoot, EStateM.run_bind,
    EStateM.run_get]
  dsimp only
  rw [EStateM.run_bind]
  rcases BTree.newPage_cases h.owns .internal (Or.inr rfl) with ⟨-, hrun⟩ | ⟨y, t₁, hrun, howns, -,
    hframe, -, -⟩
  · exact Or.inl (by rw [hrun])
  · have hyrange := howns.range y (by simp)
    have hynew : y ∉ L.pages t.rootPageId ++ others :=
      (List.nodup_cons.1 (List.nodup_append.1 howns.nodup).2.1).1
    rw [hrun]
    dsimp only
    rw [EStateM.run_bind, show (⟨⟨.internal, 2, 0⟩, [⟨.null, t.rootPageId⟩, ⟨key, x⟩], []⟩ : Node) =
      Node.ofInternal [⟨.null, t.rootPageId⟩, ⟨key, x⟩] from rfl,
      BTree.run_saveNode hyrange.1 hyrange.2 hfits]
    have hself := BTree.loadNode_withNode_self hyrange.1 hyrange.2 hfits
      (Node.counted_ofInternal (by simp))
    have hframe' := (hframe.trans (Pager.frame_withPage howns.backed hyrange.1 hyrange.2 :
      t₁.pager.Frame (t₁.withNode y
        (Node.ofInternal [⟨.null, t.rootPageId⟩, ⟨key, x⟩])).pager [y])).mono
      (show [y] ++ [y] ⊆ [y] by simp)
    -- only the new page `y` has been written, and it is in no leaf and in no other tree
    refine Or.inr ⟨_, rfl, ⟨?_, ⟨hself, by simp, ?_, ⟨_, by rw [← hfirst]⟩⟩, h.small, ?_⟩,
      ⟨[y], hframe', ?_⟩, hfirst⟩
    · refine h.chain.congr fun z hz => hframe'.pages z fun hzy => hynew ?_
      rw [← List.mem_singleton.1 hzy, hpages]
      exact List.mem_append_left _ hz
    · refine List.subperm_of_subset (by simpa using hne.symm) ?_
      intro z hz
      simp only [List.map_cons, List.map_nil, List.mem_cons, List.not_mem_nil, or_false] at hz
      rcases hz with rfl | rfl
      · rw [hl]
        exact List.mem_cons_self
      · exact hx
    · rw [hpages] at howns
      exact howns.withPage hyrange.2
    · intro z hz hmem
      rw [List.mem_singleton.1 hmem] at hz
      exact hynew (List.mem_append_right _ hz)

/-- The root has room for a separator, or the page is overrun. -/
theorem Linked.newSeparator_cases (h : Linked t L others) (key : Value) (hix : L.index = some ies)
    (hpage : page ∈ ies.map InternalEntry.child) (hlen : ies.length < 128)
    (hsub : (x :: ies.map InternalEntry.child).Subperm L.leaves.pages) :
    (BTree.insertIntoParent page key x).run t = .error .outOfBounds t ∨
    ∃ t', (BTree.insertIntoParent page key x).run t = .ok () t' ∧
      Linked t' ⟨some (BTree.insertSeparator ⟨key, x⟩ ies), L.leaves⟩ others ∧
      Confined t t' others ∧ t'.rootPageId = t.rootPageId := by
  obtain ⟨hroot, hleads⟩ := h.leads_of_index_some hix
  have hpages : L.pages t.rootPageId = t.rootPageId :: L.leaves.pages := by
    rw [Layout.pages, hix]
  rw [run_insertIntoParent, run_insertLoop_of_internal hroot hpage,
    if_pos ((index_has_room_iff (by omega)).2 hlen)]
  by_cases hfits : (Node.ofInternal (BTree.insertSeparator ⟨key, x⟩ ies)).Fits
  swap
  · exact Or.inl (run_saveNode_internal_of_not_fits _ hfits t)
  have hrange := BTree.lt_of_loadNode hroot
  have hcounted : (Node.ofInternal (BTree.insertSeparator ⟨key, x⟩ ies)).Counted :=
    Node.counted_ofInternal (by rw [length_insertSeparator]; omega)
  have hframe : t.pager.Frame (t.withNode t.rootPageId
      (Node.ofInternal (BTree.insertSeparator ⟨key, x⟩ ies))).pager [t.rootPageId] :=
    Pager.frame_withPage h.owns.backed hrange.1 hrange.2
  refine Or.inr ⟨_, BTree.run_saveNode hrange.1 hrange.2 hfits,
    ⟨?_, ⟨BTree.loadNode_withNode_self hrange.1 hrange.2 hfits hcounted, ?_, ?_, ?_⟩, h.small, ?_⟩,
    ⟨_, hframe, ?_⟩, rfl⟩
  · refine h.chain.congr fun z hz => hframe.pages z fun hzr => ?_
    exact h.root_not_mem_leaves hix (List.mem_singleton.1 hzr ▸ hz)
  · rw [length_insertSeparator]
    omega
  · exact ((insertSeparator_perm ⟨key, x⟩ ies).map InternalEntry.child).subperm.trans hsub
  · obtain ⟨rest, hrest⟩ := hleads.head
    exact ⟨BTree.insertSeparator ⟨key, x⟩ rest, by rw [hrest, insertSeparator_cons_null]⟩
  · have howns := h.owns
    rw [hpages] at howns
    exact howns.withPage hrange.2
  · intro z hz hmem
    rw [List.mem_singleton.1 hmem] at hz
    exact h.not_mem_others (by rw [hpages]; exact List.mem_cons_self) hz

/-- The root is full: its left half stays, the page of the right half is lost, and the call throws. -/
theorem Linked.rootFull_cases (h : Linked t L others) (key : Value) (hix : L.index = some ies)
    (hpage : page ∈ ies.map InternalEntry.child) (hlen : ies.length = 128)
    (hsub : (x :: ies.map InternalEntry.child).Subperm L.leaves.pages) :
    (BTree.insertIntoParent page key x).run t = .error Pager.extendFailed t ∨
    (∃ t', (BTree.insertIntoParent page key x).run t = .error .outOfBounds t') ∨
    ∃ f t' z, (BTree.insertIntoParent page key x).run t = .error f t' ∧
      Linked t' ⟨some ((BTree.insertSeparator ⟨key, x⟩ ies).take 64), L.leaves⟩ (z :: others) ∧
      Confined t t' others ∧ t'.rootPageId = t.rootPageId := by
  obtain ⟨hroot, hleads⟩ := h.leads_of_index_some hix
  have hpages : L.pages t.rootPageId = t.rootPageId :: L.leaves.pages := by
    rw [Layout.pages, hix]
  rw [run_insertIntoParent, run_insertLoop_of_internal hroot hpage,
    if_neg (fun hroom => by have := (index_has_room_iff (by omega)).1 hroom; omega),
    EStateM.run_bind]
  set entries := BTree.insertSeparator ⟨key, x⟩ ies with hentries
  have hentriesLen : entries.length = 129 := by
    rw [hentries, length_insertSeparator, hlen]
  have hmem : t.rootPageId ∈ L.pages t.rootPageId ++ others := by
    rw [hpages]
    simp
  rcases splitInternal_cases h.owns hmem hentriesLen with ⟨-, hrun⟩ | ⟨-, -, t', hrun⟩ |
    ⟨-, -, -, z, key', t₁, hrun, howns, hload, hframe, hroot₁⟩
  · exact Or.inl (by rw [hrun])
  · exact Or.inr (Or.inl ⟨t', by rw [hrun]⟩)
  · have hz : z ∉ L.pages t.rootPageId ++ others :=
      (List.nodup_cons.1 (List.nodup_append.1 howns.nodup).2.1).1
    rw [hpages] at hz
    -- the children of the left half are leaves, and the split has not touched them
    have hleft : ((entries.take 64).map InternalEntry.child).Subperm L.leaves.pages :=
      ((List.take_sublist 64 entries).map _).subperm.trans
        (((insertSeparator_perm ⟨key, x⟩ ies).map InternalEntry.child).subperm.trans hsub)
    have hchain : L.leaves.Chain t₁.pager 0 := by
      refine h.chain.congr fun y hy => hframe.pages y fun hyt => ?_
      simp only [List.mem_cons, List.not_mem_nil, or_false] at hyt
      rcases hyt with rfl | rfl
      · exact h.root_not_mem_leaves hix hy
      · exact hz (List.mem_append_left _ (List.mem_cons_of_mem _ hy))
    have hlinked : Linked t₁ ⟨some (entries.take 64), L.leaves⟩ (z :: others) := by
      refine ⟨hchain, ⟨by rw [hroot₁]; exact hload, ?_, hleft, ?_⟩, h.small, ?_⟩
      · rw [List.length_take]
        omega
      · obtain ⟨rest, hrest⟩ := hleads.head
        refine ⟨(BTree.insertSeparator ⟨key, x⟩ rest).take 63, ?_⟩
        rw [hentries, hrest, insertSeparator_cons_null, List.take_succ_cons]
      · refine howns.perm ?_
        rw [hpages, hroot₁]
        exact List.perm_middle
    have hleaf : ∀ y ∈ (entries.take 64).map InternalEntry.child,
        y ≠ t₁.rootPageId ∧ ∃ sibling es, BTree.loadNode t₁.pager y = .ok (Node.ofLeaf sibling es) := by
      intro y hy
      have hyl := hleft.subset hy
      constructor
      · rintro rfl
        rw [hroot₁] at hyl
        exact h.root_not_mem_leaves hix hyl
      · obtain ⟨leaf, hleaf, rfl⟩ := List.mem_map.1 hyl
        obtain ⟨pre, post, hsplit⟩ := List.append_of_mem hleaf
        exact ⟨_, _, hlinked.loadNode_leaf hsplit⟩
    rw [← hroot₁] at hload
    obtain ⟨f, hloop, -⟩ := run_insertLoop_of_root hload hleaf
      (t.pager.allocator.pool.length + t.pager.capacity) key' z
    refine Or.inr (Or.inr ⟨f, t₁, z, ?_, hlinked, ⟨_, hframe, ?_⟩, hroot₁⟩)
    · rw [hrun]
      dsimp only
      rw [← hroot₁]
      exact hloop
    · intro y hy hyt
      simp only [List.mem_cons, List.not_mem_nil, or_false] at hyt
      rcases hyt with rfl | rfl
      · exact h.not_mem_others (by rw [hpages]; exact List.mem_cons_self) hy
      · exact hz (List.mem_append_right _ hy)

end

/-! ## What `put` does to a linked tree -/

/-- The tree is linked again, next to pages that are lost to it; its first leaf is where it was, and
so is its root unless that was the first leaf. -/
structure Relinked (t : BTree) (L : Layout) (others : List PageId) (t' : BTree) (L' : Layout)
    (lost : List PageId) : Prop where
  linked : Linked t' L' (lost ++ others)
  confined : Confined t t' others
  first : L'.leaves.first 0 = L.leaves.first 0
  root : t'.rootPageId = t.rootPageId ∨ t.rootPageId = L.leaves.first 0

section

variable {t t₁ t' : BTree} {L L₁ L' : Layout} {others lost : List PageId} {page x : PageId}
  {pre post : Leaves} {e : LeafEntry} {es : List LeafEntry}

theorem Linked.relinked_refl (h : Linked t L others) : Relinked t L others t L [] :=
  ⟨h, ⟨[], Pager.Frame.refl _, by simp⟩, rfl, Or.inl rfl⟩

theorem Relinked.trans (h : Relinked t L others t₁ L₁ []) (h' : Relinked t₁ L₁ others t' L' lost) :
    Relinked t L others t' L' lost := by
  refine ⟨h'.linked, h.confined.trans h'.confined, h'.first.trans h.first, ?_⟩
  rcases h.root with hroot | hroot
  · rw [← hroot, ← h.first]
    exact h'.root
  · exact Or.inr hroot

/-- The leaf has room. -/
theorem Linked.put_in_leaf (h : Linked t L others)
    (hsplit : L.leaves = pre ++ (L.target e.key, es) :: post)
    (hocc : ¬ BTree.occupied e es = true) (hover : ¬ Overflows (BTree.insertEntry e es)) :
    ∃ t', (BTree.put e).run t = .ok true t' ∧ Relinked t L others t'
      { L with leaves := pre ++ (L.target e.key, BTree.insertEntry e es) :: post } [] := by
  have hmem := h.target_mem e.key
  have hrange := h.range_leaf hmem
  have hroom := hover
  rw [Overflows, not_or, not_lt, not_lt] at hroom
  have hfits : (Node.ofLeaf (post.first 0) (BTree.insertEntry e es)).Fits :=
    Node.fits_ofLeaf_iff.2 (by omega)
  refine ⟨t.withNode (L.target e.key) (Node.ofLeaf (post.first 0) (BTree.insertEntry e es)), ?_,
    h.withLeaf hsplit hroom.1 hfits,
    ⟨_, Pager.frame_withPage h.owns.backed hrange.1 hrange.2, ?_⟩, ?_, Or.inl rfl⟩
  · rw [h.run_put hsplit, if_neg hocc, if_neg hover, EStateM.run_bind,
      BTree.run_saveNode hrange.1 hrange.2 hfits]
    rfl
  · intro z hz hzt
    rw [List.mem_singleton.1 hzt] at hz
    exact h.not_mem_others (Rep.leafPages_subset L _ hmem) hz
  · rw [hsplit]
    cases pre <;> rfl

/-- Both halves have been written; what is left to do is in the parent. -/
theorem Split.relinked {left right : List LeafEntry}
    (h : Split t t' L others pre post page left x right (post.first 0))
    (hlinked : Linked t L others) (hsplit : L.leaves = pre ++ (page, es) :: post)
    (hsmall : left.length ≤ 64 ∧ right.length ≤ 64) :
    Relinked t L others t' ⟨L.index, pre ++ (page, left) :: (x, right) :: post⟩ [] := by
  have hpage : page ∈ L.leaves.pages := by
    rw [hsplit]
    simp
  refine ⟨h.linked hlinked hsplit hsmall, ⟨_, h.frame, ?_⟩, ?_, Or.inl h.root⟩
  · intro z hz hzt
    simp only [List.mem_cons, List.not_mem_nil, or_false] at hzt
    rcases hzt with rfl | rfl
    · exact hlinked.not_mem_others (Rep.leafPages_subset L _ hpage) hz
    · exact h.fresh_others hz
  · rw [hsplit]
    cases pre <;> rfl

/-- The parent takes the new leaf up, or cannot: the tree stays linked unless a page is overrun. -/
theorem Linked.insertIntoParent_cases {key : Value} (h : Linked t L others) (page : PageId)
    (hpage : ∀ ies, L.index = some ies → page ∈ ies.map InternalEntry.child ∧
      (x :: ies.map InternalEntry.child).Subperm L.leaves.pages)
    (hx : x ∈ L.leaves.pages) (hne : x ≠ t.rootPageId) (hkey : key.toBytes.length ≤ 4055) :
    (∃ t' L', (BTree.insertIntoParent page key x).run t = .ok () t' ∧ L'.leaves = L.leaves ∧
      Relinked t L others t' L' []) ∨
    (∃ f t', (BTree.insertIntoParent page key x).run t = .error f t' ∧ Overrun f) ∨
    ∃ f t' L' lost, (BTree.insertIntoParent page key x).run t = .error f t' ∧ L'.leaves = L.leaves ∧
      Relinked t L others t' L' lost := by
  cases hix : L.index with
  | none =>
    rcases h.raiseRoot_cases page hix hx hne hkey with hrun | ⟨t', hrun, hlinked, hconf,
      hroot⟩
    · exact Or.inr (Or.inr ⟨_, t, L, [], hrun, rfl, h.relinked_refl⟩)
    · exact Or.inl ⟨t', ⟨some [⟨.null, t.rootPageId⟩, ⟨key, x⟩], L.leaves⟩, hrun, rfl, hlinked, hconf,
        rfl, Or.inr hroot⟩
  | some ies =>
    obtain ⟨hmem, hsub⟩ := hpage ies hix
    have hfew := (h.leads_of_index_some hix).2.few
    by_cases hlen : ies.length < 128
    · rcases h.newSeparator_cases key hix hmem hlen hsub with hrun | ⟨t', hrun, hlinked, hconf,
        hroot⟩
      · exact Or.inr (Or.inl ⟨_, t, hrun, .pastEnd⟩)
      · exact Or.inl ⟨t', ⟨some (BTree.insertSeparator ⟨key, x⟩ ies), L.leaves⟩, hrun, rfl, hlinked,
          hconf, rfl, Or.inl hroot⟩
    · rcases h.rootFull_cases key hix hmem (by omega) hsub with hrun | ⟨t', hrun⟩ |
        ⟨f, t', z, hrun, hlinked, hconf, hroot⟩
      · exact Or.inr (Or.inr ⟨_, t, L, [], hrun, rfl, h.relinked_refl⟩)
      · exact Or.inr (Or.inl ⟨_, t', hrun, .pastEnd⟩)
      · exact Or.inr (Or.inr ⟨f, t', ⟨some ((BTree.insertSeparator ⟨key, x⟩ ies).take 64), L.leaves⟩, [z],
          hrun, rfl, hlinked, hconf, rfl, Or.inl hroot⟩)

/-- A leaf that overflows: it is split, and the parent is told. -/
theorem Linked.put_overflow_cases (h : Linked t L others)
    (hsplit : L.leaves = pre ++ (L.target e.key, es) :: post)
    (hocc : ¬ BTree.occupied e es = true) (hover : Overflows (BTree.insertEntry e es)) :
    (∃ t' L', (BTree.put e).run t = .ok true t' ∧
      L'.scanAll = pre.entries ++ (BTree.insertEntry e es ++ post.entries) ∧
      Relinked t L others t' L' []) ∨
    (∃ f t', (BTree.put e).run t = .error f t' ∧ Overrun f) ∨
    ∃ f t' L' lost, (BTree.put e).run t = .error f t' ∧ (L'.scanAll = L.scanAll ∨
      L'.scanAll = pre.entries ++ (BTree.insertEntry e es ++ post.entries)) ∧
      Relinked t L others t' L' lost := by
  rw [h.run_put hsplit, if_neg hocc, if_pos hover, EStateM.run_bind]
  rcases h.splitLeaf_cases hsplit (UInt16.ofNat es.length + 1) (insertEntry_ne_nil e es)
      (h.length_insert_le hsplit) with ⟨-, hrun⟩ | ⟨-, -, f, x, t', hrun, henc, -⟩ |
    ⟨-, -, -, f, x, t', hrun, henc, -⟩ | ⟨-, -, hright, x, first, rest, t₁, hcons, hrun, hcut⟩
  · exact Or.inr (Or.inr ⟨_, t, L, [], by rw [hrun], Or.inl rfl, h.relinked_refl⟩)
  · exact Or.inr (Or.inl ⟨f, t', by rw [hrun], overrun_of_encodeNode henc⟩)
  · exact Or.inr (Or.inl ⟨f, t', by rw [hrun], overrun_of_encodeNode henc⟩)
  have hstep := hcut.relinked h hsplit (small_halves h hsplit)
  have hkey : first.key.toBytes.length ≤ 4055 := by
    rw [hcons] at hright
    exact length_key_le hright
  have hperm := pages_split_perm pre post (L.target e.key) x es
    (leftHalf (BTree.insertEntry e es)) (rightHalf (BTree.insertEntry e es))
  rw [← hsplit] at hperm
  have hx := hperm.symm.subset List.mem_cons_self
  have hne : x ≠ t₁.rootPageId := by
    rintro rfl
    apply hcut.fresh
    rw [hcut.root]
    cases hix : L.index with
    | none =>
      obtain ⟨es₀, rest₀, hl⟩ := h.leaves_of_index_none hix
      exact Rep.leafPages_subset L _ (by rw [hl]; exact List.mem_cons_self)
    | some ies => simp [Layout.pages, hix]
  have hentries : Layout.scanAll ⟨L.index, pre ++ (L.target e.key, leftHalf (BTree.insertEntry e es)) ::
      (x, rightHalf (BTree.insertEntry e es)) :: post⟩ =
      pre.entries ++ (BTree.insertEntry e es ++ post.entries) := by
    rw [Layout.scanAll, Leaves.entries_append, Leaves.entries_cons, Leaves.entries_cons,
      ← List.append_assoc (leftHalf _), leftHalf_append_rightHalf]
  have hparent := hstep.linked.insertIntoParent_cases (L.target e.key)
    (fun ies hix => ⟨h.target_mem_children hix e.key,
      ((List.subperm_cons x).2 (h.leads_of_index_some hix).2.children).trans hperm.symm.subperm⟩) hx hne hkey
  rw [hrun]
  dsimp only
  rw [EStateM.run_bind]
  -- the parent does not change what the leaves hold
  have hsame : ∀ {L' : Layout}, L'.leaves = pre ++
      (L.target e.key, leftHalf (BTree.insertEntry e es)) ::
        (x, rightHalf (BTree.insertEntry e es)) :: post →
      L'.scanAll = pre.entries ++ (BTree.insertEntry e es ++ post.entries) := by
    intro L' hleaves
    rw [← hentries, Layout.scanAll, hleaves, Layout.scanAll]
  rcases hparent with ⟨t', L', hins, hleaves, hnext⟩ | ⟨f, t', hins, hf⟩ |
    ⟨f, t', L', lost, hins, hleaves, hnext⟩
  · exact Or.inl ⟨t', L', by rw [hins]; rfl, hsame hleaves, hstep.trans hnext⟩
  · exact Or.inr (Or.inl ⟨f, t', by rw [hins], hf⟩)
  · exact Or.inr (Or.inr ⟨f, t', L', lost, by rw [hins], Or.inr (hsame hleaves), hstep.trans hnext⟩)

/-- What a call leaves behind when it faults: a page is overrun, or the tree is linked again. -/
def Salvaged (t : BTree) (L : Layout) (others : List PageId) (f : Fault) (t' : BTree) : Prop :=
  Overrun f ∨ ∃ L' lost, Relinked t L others t' L' lost

/-- Then the tree has no entries but its own and those of the call. -/
def SalvagedAmong (es : List LeafEntry) (t : BTree) (L : Layout) (others : List PageId) (f : Fault)
    (t' : BTree) : Prop :=
  Overrun f ∨ ∃ L' lost, L'.scanAll ⊆ L.scanAll ++ es ∧ Relinked t L others t' L' lost

theorem SalvagedAmong.salvaged {f : Fault} (h : SalvagedAmong es t L others f t') :
    Salvaged t L others f t' := by
  rcases h with hf | ⟨L', lost, -, h⟩
  · exact Or.inl hf
  · exact Or.inr ⟨L', lost, h⟩

/-- More calls than those that faulted. -/
theorem SalvagedAmong.mono {f : Fault} {calls : List LeafEntry} (h : SalvagedAmong es t L others f t')
    (hsub : es ⊆ calls) : SalvagedAmong calls t L others f t' := by
  rcases h with hf | ⟨L', lost, hamong, h⟩
  · exact Or.inl hf
  · refine Or.inr ⟨L', lost, fun x hx => ?_, h⟩
    exact List.mem_append.2 ((List.mem_append.1 (hamong hx)).imp_right fun hmem => hsub hmem)

/-- A call of several that faults, after one has been taken. -/
theorem Relinked.salvagedAmong {f : Fault} (h : Relinked t L others t₁ L₁ [])
    (htaken : Taken e L.scanAll L₁.scanAll) (h' : SalvagedAmong es t₁ L₁ others f t') :
    SalvagedAmong (e :: es) t L others f t' := by
  rcases h' with hf | ⟨L', lost, hamong, h'⟩
  · exact Or.inl hf
  · refine Or.inr ⟨L', lost, fun x hx => ?_, h.trans h'⟩
    rw [List.append_cons]
    rcases List.mem_append.1 (hamong hx) with hx | hx
    · exact List.mem_append_left _ (htaken.among hx)
    · exact List.mem_append_right _ hx

/-- All that a `put` can do to a linked tree: it returns and has taken the entry, a page is overrun,
or it throws and the tree is linked again. -/
theorem Linked.put_among (h : Linked t L others) (e : LeafEntry) :
    EndsIn (BTree.put e) t
      (fun _ t' => ∃ L', Taken e L.scanAll L'.scanAll ∧ Relinked t L others t' L' [])
      (SalvagedAmong [e] t L others) := by
  obtain ⟨pre, es, post, hsplit⟩ := h.exists_leaf e.key
  by_cases hocc : BTree.occupied e es = true
  · have hrun : (BTree.put e).run t = .ok false t := by
      rw [h.run_put hsplit, if_pos hocc]
      rfl
    obtain ⟨x, hx, hpos⟩ := exists_samePosition_of_occupied hocc
    refine .of_run_ok hrun ⟨L, .occupied ?_ hpos (List.Perm.refl _), h.relinked_refl⟩
    rw [Layout.scanAll, hsplit, Leaves.entries_append, Leaves.entries_cons]
    exact List.mem_append_right _ (List.mem_append_left _ hx)
  by_cases hover : Overflows (BTree.insertEntry e es)
  · rcases h.put_overflow_cases hsplit hocc hover with ⟨t', L', hrun, hentries, hstep⟩ |
      ⟨f, t', hrun, hf⟩ | ⟨f, t', L', lost, hrun, hentries, hstep⟩
    · refine .of_run_ok hrun ⟨L', ?_, hstep⟩
      rw [hentries]
      exact taken_of_insertEntry hsplit
    · exact .of_run_error hrun (Or.inl hf)
    · refine .of_run_error hrun (Or.inr ⟨L', lost, ?_, hstep⟩)
      rcases hentries with hentries | hentries
      · rw [hentries]
        exact List.subset_append_left _ _
      · rw [hentries]
        exact (taken_of_insertEntry hsplit).among
  · obtain ⟨t', hrun, hstep⟩ := h.put_in_leaf hsplit hocc hover
    refine .of_run_ok hrun ⟨_, ?_, hstep⟩
    rw [Layout.scanAll, Layout.scanAll, Leaves.entries_append, Leaves.entries_cons]
    exact taken_of_insertEntry hsplit

theorem Linked.put (h : Linked t L others) (e : LeafEntry) :
    EndsIn (BTree.put e) t
      (fun _ t' => ∃ L', Taken e L.scanAll L'.scanAll ∧ Relinked t L others t' L' [])
      (Salvaged t L others) :=
  (h.put_among e).mono (fun _ _ => id) fun _ _ hf => hf.salvaged

/-- The same of a list of calls. -/
theorem Linked.putAll_among (h : Linked t L others) (es : List LeafEntry) :
    EndsIn (BTree.putAll es) t
      (fun _ t' => ∃ L', TakenAll es L.scanAll L'.scanAll ∧ Relinked t L others t' L' [])
      (SalvagedAmong es t L others) := by
  induction es generalizing t L with
  | nil => exact .pure ⟨L, .nil _, h.relinked_refl⟩
  | cons e es ih =>
    rw [BTree.putAll]
    have hfirst := (h.put_among e).mono (fun _ _ => id) fun f t' hf =>
      hf.mono (List.cons_subset_cons e (List.nil_subset es))
    apply hfirst.bind
    rintro b t₁ ⟨L₁, htaken, hstep⟩
    refine EndsIn.thenPure ((ih hstep.linked).mono ?_ fun f t' hf => hstep.salvagedAmong htaken hf)
    rintro bs t' ⟨L', htakens, hstep'⟩
    exact ⟨L', .cons htaken htakens, hstep.trans hstep'⟩

end

end OpenDB
