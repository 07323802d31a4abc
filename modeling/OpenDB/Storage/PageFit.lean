import OpenDB.Storage.FailedPut

/-!
# Nodes that do not fit their page

`put` splits a leaf when it has more than 64 entries or more than 4024 bytes of them, and an internal
node when it has more than 128 entries. Both splits are made in the middle by count, so a half can be
larger than a page, and an internal node with long keys is larger than a page long before it has 128
entries.

`KeepsToPages` says what the sizes of the halves and of the separators have to be. In every run whose
calls meet it no call overruns a page, and the first call that does not meet it does
(`overruns_iff_of_putRun`).

Trees are taken as they are after any such run, calls that threw included: `Shallow` only says that
the root is a leaf or has leaves for children.
-/

set_option autoImplicit false

namespace OpenDB

open OpenDB.Library

/-! ## Faults of `saveNode` -/

/-- `saveNode` rejects the node, or writes past the end of the page. No other function raises these. -/
inductive Overrun : Fault → Prop where
  | rejected (offset payload : Nat) : Overrun (leafOverflow offset payload)
  | pastEnd : Overrun .outOfBounds

theorem overrun_of_emit {bs out out' : Bytes} {f : Fault} (h : (emit bs).run out = .error f out') :
    Overrun f := by
  have h : emit bs out = .error f out' := h
  rw [emit] at h
  split_ifs at h
  cases h
  exact .pastEnd

theorem overrun_of_emitInternal {e : InternalEntry} {out out' : Bytes} {f : Fault}
    (h : (emitInternal e).run out = .error f out') : Overrun f := by
  rw [emitInternal, run_bind_eq_error] at h
  rcases h with h | ⟨-, out₁, -, h⟩
  · exact overrun_of_emit h
  · exact overrun_of_emit h

theorem overrun_of_emitLeaf {e : LeafEntry} {out out' : Bytes} {f : Fault}
    (h : (emitLeaf e).run out = .error f out') : Overrun f := by
  rw [emitLeaf] at h
  -- the fixed fields in front of the payload
  iterate 5
    rw [run_bind_eq_error] at h
    rcases h with h | ⟨-, _, -, h⟩
    · exact overrun_of_emit h
  rw [run_bind_eq_error] at h
  rcases h with h | ⟨written, _, hget, h⟩
  · cases h
  dsimp only at h
  split_ifs at h
  · cases h
    exact .rejected _ _
  · exact overrun_of_emit h

theorem overrun_of_emitAll {α : Type} {emitOne : α → EStateM Fault Bytes Unit}
    (hone : ∀ {e out f out'}, (emitOne e).run out = .error f out' → Overrun f) {es : List α}
    {out out' : Bytes} {f : Fault} (h : (emitAll emitOne es).run out = .error f out') : Overrun f := by
  induction es generalizing out with
  | nil => cases h
  | cons e es ih =>
    rw [emitAll, run_bind_eq_error] at h
    rcases h with h | ⟨-, out₁, -, h⟩
    · exact hone h
    · exact ih h

theorem overrun_of_encodeNode {n : Node} {f : Fault} (h : encodeNode n = .error f) : Overrun f := by
  rw [encodeNode] at h
  cases hrun : (emitEntries n).run (headerBytes n.hdr) with
  | ok a out =>
    rw [hrun] at h
    cases h
  | error g out =>
    rw [hrun] at h
    cases h
    rw [emitEntries] at hrun
    split_ifs at hrun
    · exact overrun_of_emitAll overrun_of_emitInternal hrun
    · exact overrun_of_emitAll overrun_of_emitLeaf hrun

/-- A node that is larger than its page ends the call that saves it. -/
theorem run_saveNode_overrun (id : PageId) {n : Node} (hfits : ¬ n.Fits) (t : BTree) :
    ∃ f, (BTree.saveNode id n).run t = .error f t ∧ Overrun f := by
  obtain ⟨f, henc, hrun⟩ := BTree.run_saveNode_of_not_fits id hfits t
  exact ⟨f, hrun, overrun_of_encodeNode henc⟩

theorem not_overrun_extendFailed : ¬ Overrun Pager.extendFailed := by
  generalize hf : Pager.extendFailed = f
  rintro (⟨offset, payload⟩ | _)
  · simp [Pager.extendFailed, leafOverflow, ascii] at hf
  · cases hf

theorem not_overrun_noParent :
    ¬ Overrun (.runtimeError (ascii "insertIntoParent: parent of left_child not found")) := by
  generalize hf : Fault.runtimeError (ascii "insertIntoParent: parent of left_child not found") = f
  rintro (⟨offset, payload⟩ | _)
  · simp [leafOverflow, ascii] at hf
  · cases hf

/-! ## Sizes of separators -/

def InternalEntry.size (e : InternalEntry) : Nat := e.key.toBytes.length + 4

/-- Bytes of the separators of an internal node. -/
def indexBytes (ies : List InternalEntry) : Nat := (ies.map InternalEntry.size).sum

theorem Node.fits_ofInternal_iff {ies : List InternalEntry} :
    (Node.ofInternal ies).Fits ↔ indexBytes ies ≤ 4080 := by
  have hbytes : (Node.ofInternal ies).entryBytes.length = indexBytes ies := by
    have hsize : ∀ e : InternalEntry, e.bytes.length = e.size := fun e => by
      simp [InternalEntry.bytes, InternalEntry.size]
    have hentries : (Node.ofInternal ies).entryBytes = (ies.map InternalEntry.bytes).flatten := rfl
    simp [hentries, indexBytes, List.length_flatten, Function.comp_def, hsize]
  rw [Node.Fits, hbytes, nodeHeaderSize, Pager.dataPagePayloadSize, Pager.pageSize,
    Pager.dataPageHeaderSize]
  omega

/-- Where a separator goes does not depend on its child. -/
theorem map_key_insertSeparator (key : Value) (x y : PageId) (ies : List InternalEntry) :
    (BTree.insertSeparator ⟨key, x⟩ ies).map InternalEntry.key =
      (BTree.insertSeparator ⟨key, y⟩ ies).map InternalEntry.key := by
  induction ies with
  | nil => rfl
  | cons e ies ih =>
    simp only [BTree.insertSeparator, List.orderedInsert_cons] at ih ⊢
    split_ifs
    · rfl
    · rw [List.map_cons, List.map_cons, ih]

theorem indexBytes_congr {ies ies' : List InternalEntry}
    (h : ies.map InternalEntry.key = ies'.map InternalEntry.key) : indexBytes ies = indexBytes ies' := by
  have hsize : ∀ l : List InternalEntry,
      indexBytes l = ((l.map InternalEntry.key).map fun key => key.toBytes.length + 4).sum := by
    intro l
    rw [List.map_map]
    rfl
  rw [hsize, hsize, h]

namespace BTree

/-! ## The condition -/

/-- The separators of an internal root have room for one with this key: together with it they fit the
page, or, when there are 128 already and a page can be allocated, the first 64 and the last 65 of them
fit one each. -/
def IndexTakes (room : Nat) (key : Value) (ies : List InternalEntry) : Prop :=
  if ies.length < 128 then indexBytes (insertSeparator ⟨key, 0⟩ ies) ≤ 4080
  else room ≠ 0 → indexBytes ((insertSeparator ⟨key, 0⟩ ies).take 64) ≤ 4080 ∧
    indexBytes ((insertSeparator ⟨key, 0⟩ ies).drop 64) ≤ 4080

/-- The halves of an overflowing leaf fit a page each, and an internal root has room for the first
key of the second half. -/
def HalvesFit (t : BTree) (root : Node) (leaf : List LeafEntry) : Prop :=
  approxBytes (leftHalf leaf) ≤ 4080 ∧ approxBytes (rightHalf leaf) ≤ 4080 ∧
    (root.hdr.type = .internal → ∀ first ∈ (rightHalf leaf).head?,
      IndexTakes (t.pager.room - 1) first.key root.internal)

/-- If the new entry makes its leaf overflow while a page can be allocated, the halves fit. -/
def KeepsToPages (t : BTree) (e : LeafEntry) : Prop :=
  ∀ leafId leaf root, t.findLeaf e.key = .ok leafId → loadNode t.pager leafId = .ok leaf →
    loadNode t.pager t.rootPageId = .ok root → ¬ occupied e leaf.leaf = true →
    Overflows (insertEntry e leaf.leaf) → t.pager.room ≠ 0 → HalvesFit t root (insertEntry e leaf.leaf)

/-- A node that the call saves is larger than its page. -/
def Overruns (t : BTree) (e : LeafEntry) : Prop :=
  ∃ f t', (put e).run t = .error f t' ∧ Overrun f

end BTree

/-! ## Trees of two levels -/

/-- The page holds a leaf. -/
def HoldsLeaf (t : BTree) (page : PageId) : Prop :=
  ∃ sibling es, BTree.loadNode t.pager page = .ok (Node.ofLeaf sibling es) ∧ es.length ≤ 64

/-- The root is internal, and its children are leaves. -/
structure HoldsIndex (t : BTree) (live : List PageId) (ies : List InternalEntry) : Prop where
  load : BTree.loadNode t.pager t.rootPageId = .ok (Node.ofInternal ies)
  ne_nil : ies ≠ []
  few : ies.length ≤ 128
  children : ∀ page ∈ ies.map InternalEntry.child, page ∈ live ∧ page ≠ t.rootPageId ∧ HoldsLeaf t page

/-- The root is a leaf, or has leaves for children. Leaves that no descent reaches are left behind by
calls that throw, so nothing is said of the chain. -/
structure Shallow (t : BTree) (live : List PageId) : Prop where
  owns : t.pager.Owns live
  root : t.rootPageId ∈ live
  shape : HoldsLeaf t t.rootPageId ∨ ∃ ies, HoldsIndex t live ies

theorem HoldsLeaf.of_frame {t t' : BTree} {page : PageId} {touched : List PageId} (h : HoldsLeaf t page)
    (hframe : t.pager.Frame t'.pager touched) (hpage : page ∉ touched) : HoldsLeaf t' page := by
  obtain ⟨sibling, es, hload, hsmall⟩ := h
  exact ⟨sibling, es, (BTree.loadNode_congr (hframe.pages page hpage)).trans hload, hsmall⟩

theorem HoldsIndex.of_frame {t t' : BTree} {live live' touched : List PageId}
    {ies : List InternalEntry} (h : HoldsIndex t live ies) (hframe : t.pager.Frame t'.pager touched)
    (hroot : t'.rootPageId = t.rootPageId) (huntouched : t.rootPageId ∉ touched) (hsub : live ⊆ live')
    (hleaf : ∀ page ∈ ies.map InternalEntry.child, page ∈ touched → HoldsLeaf t' page) :
    HoldsIndex t' live' ies where
  load := by
    rw [hroot, BTree.loadNode_congr (hframe.pages _ huntouched)]
    exact h.load
  ne_nil := h.ne_nil
  few := h.few
  children page hpage := by
    obtain ⟨hlive, hne, hholds⟩ := h.children page hpage
    refine ⟨hsub hlive, by rwa [hroot], ?_⟩
    by_cases htouched : page ∈ touched
    · exact hleaf page hpage htouched
    · exact hholds.of_frame hframe htouched

/-- Every represented tree has at most two levels. -/
theorem Rep.shallow {t : BTree} {L : Layout} {others : List PageId} (h : Rep t L others) :
    Shallow t (L.pages t.rootPageId ++ others) := by
  have hleaf : ∀ page ∈ L.leaves.pages, HoldsLeaf t page := by
    intro page hpage
    obtain ⟨s, hs, rfl⟩ := List.mem_map.1 hpage
    obtain ⟨pre, post, hsplit⟩ := List.append_of_mem hs
    exact ⟨_, s.2, h.loadNode_leaf hsplit, h.small s hs⟩
  cases hix : L.index with
  | none =>
    obtain ⟨es, hl⟩ := h.leaves_eq_of_index_none hix
    have hmem : t.rootPageId ∈ L.leaves.pages := by simp [hl]
    exact ⟨h.owns, List.mem_append_left _ (Rep.leafPages_subset L _ hmem), .inl (hleaf _ hmem)⟩
  | some ies =>
    obtain ⟨hload, hok⟩ := h.loadNode_root_of_index_some hix
    refine ⟨h.owns, by simp [Layout.pages, hix], .inr ⟨ies, hload, ?_, hok.few, fun page hpage => ?_⟩⟩
    · obtain ⟨rest, rfl⟩ := hok.head
      exact List.cons_ne_nil _ _
    · have hpage' := hok.children.mem_iff.1 hpage
      exact ⟨List.mem_append_left _ (Rep.leafPages_subset L _ hpage'),
        fun heq => h.root_not_mem_leaves hix (heq ▸ hpage'), hleaf page hpage'⟩

/-! ## Descent -/

theorem childFor_mem (key : Value) {ies : List InternalEntry} (hne : ies ≠ []) :
    ∃ page ∈ ies.map InternalEntry.child, BTree.childFor key ies = .ok page := by
  obtain ⟨e, rest, rfl⟩ := List.exists_cons_of_ne_nil hne
  rw [BTree.childFor]
  split_ifs with hzero
  · exact ⟨e.child, by simp, rfl⟩
  · exact ⟨_, (lastChild_mem key 0 _).resolve_left hzero, rfl⟩

/-- The page is the root, or a child of it. -/
def Below (t : BTree) (live : List PageId) (page : PageId) : Prop :=
  (page = t.rootPageId ∧ HoldsLeaf t page) ∨
    ∃ ies, HoldsIndex t live ies ∧ page ∈ ies.map InternalEntry.child

/-- A descent ends at a leaf. -/
theorem Shallow.findLeaf {t : BTree} {live : List PageId} (h : Shallow t live) (key : Value) :
    ∃ page sibling es, t.findLeaf key = .ok page ∧ page ∈ live ∧ Below t live page ∧
      BTree.loadNode t.pager page = .ok (Node.ofLeaf sibling es) ∧ es.length ≤ 64 := by
  obtain ⟨k, hk⟩ : ∃ k, t.pager.header.pageCount.toNat = k + 1 :=
    ⟨t.pager.header.pageCount.toNat - 1, by have := h.owns.backed.pos; omega⟩
  have hstop : ∀ {fuel page sibling es}, BTree.loadNode t.pager page = .ok (Node.ofLeaf sibling es) →
      BTree.findLeafFrom t.pager key (fuel + 1) page = .ok page := by
    intro fuel page sibling es hload
    rw [BTree.findLeafFrom, hload]
    rfl
  rw [BTree.findLeaf, hk]
  rcases h.shape with ⟨sibling, es, hload, hsmall⟩ | ⟨ies, hindex⟩
  · exact ⟨_, sibling, es, hstop hload, h.root, .inl ⟨rfl, sibling, es, hload, hsmall⟩, hload, hsmall⟩
  · obtain ⟨page, hpage, hchild⟩ := childFor_mem key hindex.ne_nil
    obtain ⟨hlive, -, sibling, es, hload, hsmall⟩ := hindex.children page hpage
    refine ⟨page, sibling, es, ?_, hlive, .inr ⟨ies, hindex, hpage⟩, hload, hsmall⟩
    rw [BTree.findLeafFrom, hindex.load]
    show (do
      let child ← BTree.childFor key ies
      BTree.findLeafFrom t.pager key (k + 1) child) = _
    rw [hchild]
    exact hstop hload

/-! ## The split of a leaf -/

/-- A leaf has been split, and its parent does not know yet. -/
structure Halved (t t' : BTree) (live : List PageId) (page x : PageId) : Prop where
  owns : t'.pager.Owns (x :: live)
  frame : t.pager.Frame t'.pager [page, x]
  room : t'.pager.room + 1 = t.pager.room
  root : t'.rootPageId = t.rootPageId
  left : HoldsLeaf t' page
  right : HoldsLeaf t' x

/-- A split stops when there is no page, or at the first half that does not fit. -/
theorem splitLeaf_cases {t : BTree} {live : List PageId} (howns : t.pager.Owns live)
    {page : PageId} (hpage : page ∈ live) (n : UInt16) (sibling : PageId) {leaf : List LeafEntry}
    (hlen : leaf.length ≤ 65) {first : LeafEntry} {rest : List LeafEntry}
    (hright : rightHalf leaf = first :: rest) :
    (t.pager.room = 0 ∧
      (BTree.splitLeaf page ⟨.leaf, n, sibling⟩ leaf).run t = .error Pager.extendFailed t) ∨
    (t.pager.room ≠ 0 ∧ ¬ (approxBytes (leftHalf leaf) ≤ 4080 ∧ approxBytes (rightHalf leaf) ≤ 4080) ∧
      ∃ f t', (BTree.splitLeaf page ⟨.leaf, n, sibling⟩ leaf).run t = .error f t' ∧ Overrun f) ∨
    (t.pager.room ≠ 0 ∧ approxBytes (leftHalf leaf) ≤ 4080 ∧ approxBytes (rightHalf leaf) ≤ 4080 ∧
      ∃ x t', (BTree.splitLeaf page ⟨.leaf, n, sibling⟩ leaf).run t = .ok (x, first.key) t' ∧
        Halved t t' live page x) := by
  have hl := length_leftHalf_le leaf
  have hr := length_rightHalf leaf
  have hpos : 0 < (rightHalf leaf).length := by simp [hright]
  rw [run_splitLeaf t page n sibling hright, EStateM.run_bind]
  rcases BTree.newPage_cases howns .leaf (.inl rfl) with ⟨hfull, hnew⟩ | ⟨x, t₁, hnew, howns₁, -,
    hframe, hroom, hroot⟩
  · exact .inl ⟨hfull, by rw [hnew]⟩
  have hroom₀ : t.pager.room ≠ 0 := by omega
  have hpageRange := howns₁.range page (by simp [hpage])
  have hxRange := howns₁.range x (by simp)
  have hfresh : x ∉ live := (List.nodup_cons.1 (List.nodup_append.1 howns₁.nodup).2.1).1
  have hne : page ≠ x := fun e => hfresh (e ▸ hpage)
  rw [hnew]
  dsimp only
  rw [EStateM.run_bind]
  -- the left half is saved first, so it is the one that overruns when both are too big
  by_cases hleft : (Node.ofLeaf x (leftHalf leaf)).Fits
  swap
  · obtain ⟨f, hrun, hover⟩ := run_saveNode_overrun page hleft t₁
    exact .inr (.inl ⟨hroom₀, fun h => hleft (Node.fits_ofLeaf_iff.2 h.1), f, t₁, by rw [hrun],
      hover⟩)
  rw [BTree.run_saveNode hpageRange.1 hpageRange.2 hleft]
  dsimp only
  rw [EStateM.run_bind]
  set t₂ := t₁.withNode page (Node.ofLeaf x (leftHalf leaf)) with ht₂
  by_cases hrightFits : (Node.ofLeaf sibling (rightHalf leaf)).Fits
  swap
  · obtain ⟨f, hrun, hover⟩ := run_saveNode_overrun x hrightFits t₂
    exact .inr (.inl ⟨hroom₀, fun h => hrightFits (Node.fits_ofLeaf_iff.2 h.2), f, t₂, by rw [hrun],
      hover⟩)
  rw [BTree.run_saveNode (t := t₂) hxRange.1 hxRange.2 hrightFits]
  have howns₂ : t₂.pager.Owns (x :: live) := howns₁.withPage hpageRange.2
  have hf₁ : t₁.pager.Frame t₂.pager [page] :=
    Pager.frame_withPage howns₁.backed hpageRange.1 hpageRange.2
  have hf₂ : t₂.pager.Frame (t₂.withNode x (Node.ofLeaf sibling (rightHalf leaf))).pager [x] :=
    Pager.frame_withPage howns₂.backed hxRange.1 hxRange.2
  refine .inr (.inr ⟨hroom₀, Node.fits_ofLeaf_iff.1 hleft, Node.fits_ofLeaf_iff.1 hrightFits, x, _, rfl,
    howns₂.withPage hxRange.2, ((hframe.trans hf₁).trans hf₂).mono (by simp), ?_, hroot, ?_, ?_⟩)
  · have h₁ : t₂.pager.room = t₁.pager.room := Pager.room_withPage howns₁.backed hpageRange.2
    have h₂ : (t₂.withNode x (Node.ofLeaf sibling (rightHalf leaf))).pager.room = t₂.pager.room :=
      Pager.room_withPage howns₂.backed hxRange.2
    omega
  · refine ⟨x, leftHalf leaf, ?_, by omega⟩
    rw [BTree.loadNode_withNode_of_ne howns₂.backed hxRange.2 hne]
    exact BTree.loadNode_withNode_self hpageRange.1 hpageRange.2 hleft
      (Node.counted_ofLeaf (by omega))
  · exact ⟨sibling, rightHalf leaf, BTree.loadNode_withNode_self hxRange.1 hxRange.2
      hrightFits (Node.counted_ofLeaf (by omega)), by omega⟩

namespace Halved

variable {t t' : BTree} {live : List PageId} {page x : PageId} {key : Value}

theorem fresh (h : Halved t t' live page x) : x ∉ live :=
  (List.nodup_cons.1 (List.nodup_append.1 h.owns.nodup).2.1).1

/-- The separators of the root are the same, and its children are still leaves. -/
theorem index (h : Halved t t' live page x) (hroot : t.rootPageId ∈ live) {ies : List InternalEntry}
    (hindex : HoldsIndex t live ies) (hpage : page ∈ ies.map InternalEntry.child) :
    HoldsIndex t' (x :: live) ies := by
  have hne : t.rootPageId ≠ page := fun e => (hindex.children page hpage).2.1 e.symm
  have hnew : t.rootPageId ≠ x := fun e => h.fresh (e ▸ hroot)
  refine hindex.of_frame h.frame h.root (by simp [hne, hnew]) (List.subset_cons_self _ _)
    fun child hchild htouched => ?_
  rw [List.mem_cons, List.mem_singleton] at htouched
  rcases htouched with rfl | rfl
  · exact h.left
  · exact h.right

/-- The tree with the new page still has two levels. -/
theorem shallow (h : Halved t t' live page x) (hroot : t.rootPageId ∈ live)
    (hbelow : Below t live page) : Shallow t' (x :: live) := by
  refine ⟨h.owns, by rw [h.root]; exact List.mem_cons_of_mem _ hroot, ?_⟩
  rcases hbelow with ⟨rfl, -⟩ | ⟨ies, hindex, hpage⟩
  · exact .inl (h.root ▸ h.left)
  · exact .inr ⟨ies, h.index hroot hindex hpage⟩

end Halved

/-! ## The parent -/

/-- The run raises no fault of `saveNode`, and ends in a tree of two levels. -/
def Keeps {α : Type} (x : EStateM Fault BTree α) (t : BTree) : Prop :=
  ∃ live, Shallow (endState (x.run t)) live ∧ ∀ f t', x.run t = .error f t' → ¬ Overrun f

theorem keeps_of_ok {α : Type} {x : EStateM Fault BTree α} {t t' : BTree} {a : α} {live : List PageId}
    (hrun : x.run t = .ok a t') (h : Shallow t' live) : Keeps x t := by
  refine ⟨live, by rwa [hrun], fun f t'' herror => ?_⟩
  rw [hrun] at herror
  cases herror

theorem keeps_of_error {α : Type} {x : EStateM Fault BTree α} {t t' : BTree} {f : Fault}
    {live : List PageId} (hrun : x.run t = .error f t') (hf : ¬ Overrun f) (h : Shallow t' live) :
    Keeps x t := by
  refine ⟨live, by rwa [hrun], fun f' t'' herror => ?_⟩
  rw [hrun] at herror
  cases herror
  exact hf

theorem indexBytes_insertSeparator (key : Value) (x : PageId) (ies : List InternalEntry) :
    indexBytes (BTree.insertSeparator ⟨key, x⟩ ies) =
      indexBytes (BTree.insertSeparator ⟨key, 0⟩ ies) :=
  indexBytes_congr (map_key_insertSeparator key x 0 ies)

theorem fits_halves_iff (key : Value) (x : PageId) (ies : List InternalEntry) :
    (Node.ofInternal ((BTree.insertSeparator ⟨key, x⟩ ies).take 64)).Fits ∧
        (Node.ofInternal ((BTree.insertSeparator ⟨key, x⟩ ies).drop 64)).Fits ↔
      indexBytes ((BTree.insertSeparator ⟨key, 0⟩ ies).take 64) ≤ 4080 ∧
        indexBytes ((BTree.insertSeparator ⟨key, 0⟩ ies).drop 64) ≤ 4080 := by
  have hkeys := map_key_insertSeparator key x 0 ies
  have htake : indexBytes ((BTree.insertSeparator ⟨key, x⟩ ies).take 64) =
      indexBytes ((BTree.insertSeparator ⟨key, 0⟩ ies).take 64) :=
    indexBytes_congr (by rw [List.map_take, List.map_take, hkeys])
  have hdrop : indexBytes ((BTree.insertSeparator ⟨key, x⟩ ies).drop 64) =
      indexBytes ((BTree.insertSeparator ⟨key, 0⟩ ies).drop 64) :=
    indexBytes_congr (by rw [List.map_drop, List.map_drop, hkeys])
  rw [Node.fits_ofInternal_iff, Node.fits_ofInternal_iff, htake, hdrop]

namespace Halved

variable {t t' : BTree} {live : List PageId} {page x : PageId} {key : Value}
  {ies : List InternalEntry}

/-- The split leaf was the root: a new root is made above the two halves. -/
theorem keeps_raiseRoot (h : Halved t t' live page x) (hlive : page ∈ live)
    (hroot : page = t.rootPageId) (hkey : key.toBytes.length ≤ 4055) :
    Keeps (BTree.insertIntoParent page key x) t' := by
  obtain ⟨sibling, es, hload, hsmall⟩ := h.left
  have hshallow : Shallow t' (x :: live) :=
    ⟨h.owns, by rw [h.root, ← hroot]; exact List.mem_cons_of_mem _ hlive, .inl (by
      rw [h.root, ← hroot]
      exact h.left)⟩
  have hrootLeaf : BTree.loadNode t'.pager t'.rootPageId = .ok (Node.ofLeaf sibling es) := by
    rw [h.root, ← hroot]
    exact hload
  have hfits : (Node.ofInternal [⟨.null, t'.rootPageId⟩, ⟨key, x⟩]).Fits := by
    have hnull : Value.null.toBytes.length = 1 := rfl
    rw [Node.fits_ofInternal_iff]
    simp only [indexBytes, List.map_cons, List.map_nil, List.sum_cons, List.sum_nil,
      InternalEntry.size, hnull]
    omega
  -- the root is a leaf, so the separator goes into a new root above it
  have hrun : (BTree.insertIntoParent page key x).run t' = (BTree.raiseRoot key x).run t' := by
    rw [run_insertIntoParent, run_insertLoop_of_leaf hrootLeaf]
  rw [BTree.raiseRoot, EStateM.run_bind, EStateM.run_get] at hrun
  dsimp only at hrun
  rw [EStateM.run_bind] at hrun
  rcases BTree.newPage_cases h.owns .internal (.inr rfl) with ⟨-, hnew⟩ | ⟨y, t₁, hnew, howns, -,
    hframe, -, -⟩
  · rw [hnew] at hrun
    exact keeps_of_error hrun not_overrun_extendFailed hshallow
  have hyrange := howns.range y (by simp)
  have hy : y ∉ x :: live := (List.nodup_cons.1 (List.nodup_append.1 howns.nodup).2.1).1
  set index : List InternalEntry := [⟨.null, t'.rootPageId⟩, ⟨key, x⟩] with hindex
  have hframe' : t'.pager.Frame (t₁.withNode y (Node.ofInternal index)).pager [y] :=
    (hframe.trans (Pager.frame_withPage howns.backed hyrange.1 hyrange.2)).mono (by simp)
  rw [hnew] at hrun
  dsimp only at hrun
  rw [EStateM.run_bind, show (⟨⟨.internal, 2, 0⟩, index, []⟩ : Node) = Node.ofInternal index from rfl,
    BTree.run_saveNode hyrange.1 hyrange.2 hfits] at hrun
  refine keeps_of_ok hrun (?_ : Shallow _ (y :: x :: live))
  refine ⟨howns.withPage hyrange.2, List.mem_cons_self,
    .inr ⟨index, ?_, List.cons_ne_nil _ _, by simp [hindex], fun child hchild => ?_⟩⟩
  · exact BTree.loadNode_withNode_self hyrange.1 hyrange.2 hfits
      (Node.counted_ofInternal (by simp [hindex]))
  · have hchild : child = t'.rootPageId ∨ child = x := by simpa [hindex] using hchild
    have hmem : child ∈ x :: live := by
      rcases hchild with rfl | rfl
      · exact hshallow.root
      · exact List.mem_cons_self
    have hholds : HoldsLeaf t' child := by
      rcases hchild with rfl | rfl
      · exact ⟨sibling, es, hrootLeaf, hsmall⟩
      · exact h.right
    have hne : child ≠ y := fun e => hy (e ▸ hmem)
    obtain ⟨sibling', es', hload', hsmall'⟩ := hholds
    refine ⟨List.mem_cons_of_mem _ hmem, hne, sibling', es', ?_, hsmall'⟩
    exact (BTree.loadNode_congr (hframe'.pages child (by simpa using hne))).trans hload'

/-- The children of the root with the new separator are leaves. -/
theorem child_insertSeparator (h : Halved t t' live page x) (hroot : t.rootPageId ∈ live)
    (hindex : HoldsIndex t live ies) (hpage : page ∈ ies.map InternalEntry.child) {child : PageId}
    (hchild : child ∈ (BTree.insertSeparator ⟨key, x⟩ ies).map InternalEntry.child) :
    child ∈ x :: live ∧ child ≠ t'.rootPageId ∧ HoldsLeaf t' child := by
  have hchild := ((insertSeparator_perm ⟨key, x⟩ ies).map InternalEntry.child).mem_iff.1 hchild
  rcases List.mem_cons.1 hchild with hnew | hold
  · have hnew : child = x := hnew
    rw [hnew, h.root]
    exact ⟨List.mem_cons_self, fun e => h.fresh (e ▸ hroot), h.right⟩
  · exact (h.index hroot hindex hpage).children child hold

/-- The root has fewer than 128 separators: the new one goes in, or overruns the page. -/
theorem insertIntoParent_cases_of_room (h : Halved t t' live page x) (hroot : t.rootPageId ∈ live)
    (hindex : HoldsIndex t live ies) (hpage : page ∈ ies.map InternalEntry.child)
    (hfew : ies.length < 128) :
    (¬ indexBytes (BTree.insertSeparator ⟨key, 0⟩ ies) ≤ 4080 ∧
      ∃ f t'', (BTree.insertIntoParent page key x).run t' = .error f t'' ∧ Overrun f) ∨
    (indexBytes (BTree.insertSeparator ⟨key, 0⟩ ies) ≤ 4080 ∧
      Keeps (BTree.insertIntoParent page key x) t') := by
  have hindex' := h.index hroot hindex hpage
  have hroot' : t'.rootPageId ∈ x :: live := by
    rw [h.root]
    exact List.mem_cons_of_mem _ hroot
  have hrange := h.owns.range t'.rootPageId (by simp only [List.mem_append]; exact .inr hroot')
  have hrun : (BTree.insertIntoParent page key x).run t' =
      (BTree.saveNode t'.rootPageId
        (Node.ofInternal (BTree.insertSeparator ⟨key, x⟩ ies))).run t' := by
    rw [run_insertIntoParent, run_insertLoop_of_internal hindex'.load hpage,
      if_pos ((index_has_room_iff (by omega)).2 hfew)]
  rw [← indexBytes_insertSeparator key x ies, ← Node.fits_ofInternal_iff]
  by_cases hfits : (Node.ofInternal (BTree.insertSeparator ⟨key, x⟩ ies)).Fits
  swap
  · obtain ⟨f, hsave, hf⟩ := run_saveNode_overrun t'.rootPageId hfits t'
    exact .inl ⟨hfits, f, t', hrun.trans hsave, hf⟩
  rw [BTree.run_saveNode hrange.1 hrange.2 hfits] at hrun
  have hframe : t'.pager.Frame (t'.withNode t'.rootPageId
      (Node.ofInternal (BTree.insertSeparator ⟨key, x⟩ ies))).pager [t'.rootPageId] :=
    Pager.frame_withPage h.owns.backed hrange.1 hrange.2
  have hlen := length_insertSeparator ⟨key, x⟩ ies
  refine .inr ⟨hfits, keeps_of_ok hrun ⟨h.owns.withPage hrange.2, hroot', .inr ⟨_,
    BTree.loadNode_withNode_self hrange.1 hrange.2 hfits
      (Node.counted_ofInternal (by omega)), List.ne_nil_of_length_pos (by omega), by omega,
    fun child hchild => ?_⟩⟩⟩
  have hholds := h.child_insertSeparator hroot hindex hpage hchild
  exact ⟨hholds.1, hholds.2.1, hholds.2.2.of_frame hframe (by simpa using hholds.2.1)⟩

/-- The root has 128 separators: its halves overrun their pages, or it is split and has no parent. -/
theorem insertIntoParent_cases_of_full (h : Halved t t' live page x) (hroot : t.rootPageId ∈ live)
    (hindex : HoldsIndex t live ies) (hpage : page ∈ ies.map InternalEntry.child)
    (hfull : ies.length = 128) :
    (¬ (t'.pager.room ≠ 0 → indexBytes ((BTree.insertSeparator ⟨key, 0⟩ ies).take 64) ≤ 4080 ∧
        indexBytes ((BTree.insertSeparator ⟨key, 0⟩ ies).drop 64) ≤ 4080) ∧
      ∃ f t'', (BTree.insertIntoParent page key x).run t' = .error f t'' ∧ Overrun f) ∨
    ((t'.pager.room ≠ 0 → indexBytes ((BTree.insertSeparator ⟨key, 0⟩ ies).take 64) ≤ 4080 ∧
        indexBytes ((BTree.insertSeparator ⟨key, 0⟩ ies).drop 64) ≤ 4080) ∧
      Keeps (BTree.insertIntoParent page key x) t') := by
  have hindex' := h.index hroot hindex hpage
  have hroot' : t'.rootPageId ∈ x :: live := by
    rw [h.root]
    exact List.mem_cons_of_mem _ hroot
  have hrun := run_insertIntoParent t' page key x
  rw [run_insertLoop_of_internal hindex'.load hpage,
    if_neg (fun hroom => by have := (index_has_room_iff (by omega)).1 hroom; omega),
    EStateM.run_bind] at hrun
  rw [← fits_halves_iff key x ies]
  set entries := BTree.insertSeparator ⟨key, x⟩ ies with hentries
  have hlen : entries.length = 129 := by
    rw [hentries, length_insertSeparator, hfull]
  rcases splitInternal_cases h.owns hroot' hlen with ⟨hfull, hsplit⟩ | ⟨hroom, hbig, t'', hsplit⟩ |
    ⟨-, hleft, hright, z, key', t₁, hsplit, howns, hload, hframe, hroot₁⟩
  · rw [hsplit] at hrun
    exact .inr ⟨fun hroom => absurd hfull hroom, keeps_of_error hrun not_overrun_extendFailed
      (h.shallow hroot (.inr ⟨ies, hindex, hpage⟩))⟩
  · rw [hsplit] at hrun
    exact .inl ⟨fun hfits => hbig (hfits hroom), _, t'', hrun, .pastEnd⟩
  refine .inr ⟨fun _ => ⟨hleft, hright⟩, ?_⟩
  rw [hsplit] at hrun
  dsimp only at hrun
  rw [← hroot₁] at hload hrun
  have hz : z ∉ x :: live := (List.nodup_cons.1 (List.nodup_append.1 howns.nodup).2.1).1
  -- the children of the left half are leaves, and the split has not touched them
  have hchildren : ∀ child ∈ (entries.take 64).map InternalEntry.child,
      child ∈ z :: x :: live ∧ child ≠ t₁.rootPageId ∧ HoldsLeaf t₁ child := by
    intro child hchild
    have hall : child ∈ entries.map InternalEntry.child :=
      (List.take_sublist _ _).map _ |>.subset hchild
    have hholds := h.child_insertSeparator hroot hindex hpage hall
    have hne : child ≠ z := fun e => hz (e ▸ hholds.1)
    exact ⟨List.mem_cons_of_mem _ hholds.1, by rw [hroot₁]; exact hholds.2.1,
      hholds.2.2.of_frame hframe (by simp [hholds.2.1, hne])⟩
  have hshallow : Shallow t₁ (z :: x :: live) := by
    refine ⟨howns, by rw [hroot₁]; exact List.mem_cons_of_mem _ hroot', .inr ⟨_, hload, ?_, ?_,
      hchildren⟩⟩
    · exact List.ne_nil_of_length_pos (by rw [List.length_take]; omega)
    · rw [List.length_take]
      omega
  obtain ⟨f, hloop, hf⟩ := run_insertLoop_of_root hload
    (fun child hchild => by
      obtain ⟨-, hne, sibling, es, hleaf, -⟩ := hchildren child hchild
      exact ⟨hne, sibling, es, hleaf⟩)
    (t'.pager.allocator.pool.length + t'.pager.capacity) key' z
  refine keeps_of_error (hrun.trans hloop) ?_ hshallow
  rcases hf with rfl | rfl
  · rintro ⟨⟩
  · exact not_overrun_noParent

end Halved

/-! ## One call -/

theorem Keeps.of_run_eq {α : Type} {x y : EStateM Fault BTree α} {t t' : BTree} (h : Keeps y t')
    (hrun : x.run t = y.run t') : Keeps x t := by
  rw [Keeps, hrun]
  exact h

/-- What is returned in the end changes nothing. -/
theorem Keeps.thenReturn {x : EStateM Fault BTree Unit} {t : BTree} (h : Keeps x t) (b : Bool) :
    Keeps (do x; return b) t := by
  obtain ⟨live, hshallow, hf⟩ := h
  cases hrun : x.run t with
  | ok a t' =>
    rw [hrun] at hshallow
    exact keeps_of_ok (a := b) (by rw [EStateM.run_bind, hrun]; rfl) hshallow
  | error f t' =>
    rw [hrun, endState_error] at hshallow
    exact keeps_of_error (by rw [EStateM.run_bind, hrun]) (hf f t' hrun) hshallow

theorem overruns_thenReturn {x : EStateM Fault BTree Unit} {t : BTree} {b : Bool}
    (h : ∃ f t', x.run t = .error f t' ∧ Overrun f) :
    ∃ f t', (do x; return b : EStateM Fault BTree Bool).run t = .error f t' ∧ Overrun f := by
  obtain ⟨f, t', hrun, hf⟩ := h
  exact ⟨f, t', by rw [EStateM.run_bind, hrun], hf⟩

/-- A leaf is written over. -/
theorem Shallow.withLeaf {t : BTree} {live : List PageId} (h : Shallow t live) {page : PageId}
    (hlive : page ∈ live) (hbelow : Below t live page) {sibling : PageId} {es : List LeafEntry}
    (hsmall : es.length ≤ 64) (hfits : (Node.ofLeaf sibling es).Fits) :
    Shallow (t.withNode page (Node.ofLeaf sibling es)) live := by
  have hrange := h.owns.range page (by simp [hlive])
  have hframe : t.pager.Frame (t.withNode page (Node.ofLeaf sibling es)).pager [page] :=
    Pager.frame_withPage h.owns.backed hrange.1 hrange.2
  have hself : HoldsLeaf (t.withNode page (Node.ofLeaf sibling es)) page :=
    ⟨sibling, es, BTree.loadNode_withNode_self hrange.1 hrange.2 hfits
      (Node.counted_ofLeaf (by omega)), hsmall⟩
  refine ⟨h.owns.withPage hrange.2, h.root, ?_⟩
  rcases hbelow with ⟨rfl, -⟩ | ⟨ies, hindex, hpage⟩
  · exact .inl hself
  · have hne : t.rootPageId ≠ page := fun e => (hindex.children page hpage).2.1 e.symm
    refine .inr ⟨ies, hindex.of_frame hframe rfl (by simpa using hne) (List.Subset.refl _)
      fun child _ htouched => ?_⟩
    rw [List.mem_singleton.1 htouched]
    exact hself

theorem keepsToPages_iff {t : BTree} {e : LeafEntry} {page sibling : PageId} {es : List LeafEntry}
    {root : Node} (hfind : t.findLeaf e.key = .ok page)
    (hload : BTree.loadNode t.pager page = .ok (Node.ofLeaf sibling es))
    (hroot : BTree.loadNode t.pager t.rootPageId = .ok root) :
    BTree.KeepsToPages t e ↔ (¬ BTree.occupied e es = true → Overflows (BTree.insertEntry e es) →
      t.pager.room ≠ 0 → BTree.HalvesFit t root (BTree.insertEntry e es)) := by
  refine ⟨fun h => h page _ root hfind hload hroot, fun h leafId leaf' root' hfind' hload' hroot' => ?_⟩
  rw [hfind] at hfind'
  cases hfind'
  rw [hload] at hload'
  cases hload'
  rw [hroot] at hroot'
  cases hroot'
  exact h

/-- The separator of a split leaf, below whichever root. -/
theorem Halved.insertIntoParent_cases {t t' : BTree} {live : List PageId} {page x : PageId}
    (h : Halved t t' live page x) (hshallow : Shallow t live) (hlive : page ∈ live)
    (hbelow : Below t live page) {first : LeafEntry} (hkey : first.key.toBytes.length ≤ 4055) :
    ∃ root, BTree.loadNode t.pager t.rootPageId = .ok root ∧
      ((¬ (root.hdr.type = .internal →
          BTree.IndexTakes (t.pager.room - 1) first.key root.internal) ∧
        ∃ f t'', (BTree.insertIntoParent page first.key x).run t' = .error f t'' ∧ Overrun f) ∨
      ((root.hdr.type = .internal →
          BTree.IndexTakes (t.pager.room - 1) first.key root.internal) ∧
        Keeps (BTree.insertIntoParent page first.key x) t')) := by
  rcases hbelow with ⟨hpage, sibling, es, hload, -⟩ | ⟨ies, hindex, hpage⟩
  · refine ⟨_, by rw [← hpage]; exact hload, .inr ⟨?_, h.keeps_raiseRoot hlive hpage hkey⟩⟩
    rintro ⟨⟩
  · have hroom : t.pager.room - 1 = t'.pager.room := by
      have := h.room
      omega
    have hfew := hindex.few
    refine ⟨_, hindex.load, ?_⟩
    by_cases hlen : ies.length < 128
    · have htakes : BTree.IndexTakes (t.pager.room - 1) first.key (Node.ofInternal ies).internal ↔
          indexBytes (BTree.insertSeparator ⟨first.key, 0⟩ ies) ≤ 4080 := by
        rw [BTree.IndexTakes]
        exact if_pos hlen ▸ Iff.rfl
      rw [htakes]
      exact (h.insertIntoParent_cases_of_room hshallow.root hindex hpage hlen).imp
        (fun hbig => ⟨fun himp => hbig.1 (himp rfl), hbig.2⟩)
        (fun hfits => ⟨fun _ => hfits.1, hfits.2⟩)
    · have htakes : BTree.IndexTakes (t.pager.room - 1) first.key (Node.ofInternal ies).internal ↔
          (t'.pager.room ≠ 0 →
            indexBytes ((BTree.insertSeparator ⟨first.key, 0⟩ ies).take 64) ≤ 4080 ∧
            indexBytes ((BTree.insertSeparator ⟨first.key, 0⟩ ies).drop 64) ≤ 4080) := by
        rw [BTree.IndexTakes, hroom]
        exact if_neg hlen ▸ Iff.rfl
      rw [htakes]
      exact (h.insertIntoParent_cases_of_full hshallow.root hindex hpage (by omega)).imp
        (fun hbig => ⟨fun himp => hbig.1 (himp rfl), hbig.2⟩)
        (fun hfits => ⟨fun _ => hfits.1, hfits.2⟩)

/-- A call that does not meet the condition overruns a page. One that does keeps to its pages and
leaves a tree of two levels. -/
theorem Shallow.put_cases {t : BTree} {live : List PageId} (h : Shallow t live) (e : LeafEntry) :
    (¬ BTree.KeepsToPages t e ∧ BTree.Overruns t e) ∨
      (BTree.KeepsToPages t e ∧ Keeps (BTree.put e) t) := by
  obtain ⟨page, sibling, es, hfind, hlive, hbelow, hload, hsmall⟩ := h.findLeaf e.key
  have hrun := run_put_of_leaf hfind hload hsmall
  obtain ⟨root, hroot⟩ : ∃ root, BTree.loadNode t.pager t.rootPageId = .ok root := by
    rcases h.shape with ⟨_, _, hroot, -⟩ | ⟨ies, hindex⟩
    · exact ⟨_, hroot⟩
    · exact ⟨_, hindex.load⟩
  rw [keepsToPages_iff hfind hload hroot]
  by_cases hocc : BTree.occupied e es = true
  · rw [if_pos hocc] at hrun
    exact .inr ⟨fun hfree => absurd hocc hfree, keeps_of_ok hrun h⟩
  rw [if_neg hocc] at hrun
  by_cases hover : Overflows (BTree.insertEntry e es)
  swap
  · have hrange := h.owns.range page (by simp [hlive])
    have hbound := hover
    rw [Overflows, not_or, not_lt, not_lt] at hbound
    have hfits : (Node.ofLeaf sibling (BTree.insertEntry e es)).Fits :=
      Node.fits_ofLeaf_iff.2 (by omega)
    rw [if_neg hover, EStateM.run_bind, BTree.run_saveNode hrange.1 hrange.2 hfits] at hrun
    exact .inr ⟨fun _ hover' => absurd hover' hover,
      keeps_of_ok hrun (h.withLeaf hlive hbelow hbound.1 hfits)⟩
  rw [if_pos hover, EStateM.run_bind] at hrun
  obtain ⟨first, rest, hright⟩ := rightHalf_eq_cons (insertEntry_ne_nil e es)
  have hlen : (BTree.insertEntry e es).length ≤ 65 := by
    rw [length_insertEntry]
    omega
  rcases splitLeaf_cases h.owns hlive (UInt16.ofNat es.length + 1) sibling hlen hright with
    ⟨hfull, hsplit⟩ | ⟨hroom, hbig, f, t', hsplit, hf⟩ | ⟨hroom, hleft, hrightFits, x, t', hsplit, hcut⟩
  · rw [hsplit] at hrun
    exact .inr ⟨fun _ _ hroom => absurd hfull hroom,
      keeps_of_error hrun not_overrun_extendFailed h⟩
  · rw [hsplit] at hrun
    refine .inl ⟨fun hkeeps => ?_, f, t', hrun, hf⟩
    obtain ⟨hleft, hrightFits, -⟩ := hkeeps hocc hover hroom
    exact hbig ⟨hleft, hrightFits⟩
  rw [hsplit] at hrun
  dsimp only at hrun
  have hkey : first.key.toBytes.length ≤ 4055 := length_key_le (hright ▸ hrightFits)
  obtain ⟨root', hroot', hparent⟩ := hcut.insertIntoParent_cases h hlive hbelow hkey
  rw [hroot] at hroot'
  cases hroot'
  -- the halves are saved, the separator may still be too big for the root
  rcases hparent with ⟨hbig, hfails⟩ | ⟨htakes, hkeeps⟩
  · obtain ⟨f, t'', hfail, hf⟩ := overruns_thenReturn (b := true) hfails
    refine .inl ⟨fun hcond => hbig fun htype => ?_, f, t'', hrun.trans hfail, hf⟩
    exact (hcond hocc hover hroom).2.2 htype first (by simp [hright])
  · refine .inr ⟨fun _ _ _ => ⟨hleft, hrightFits, fun htype first' hfirst => ?_⟩,
      (hkeeps.thenReturn true).of_run_eq hrun⟩
    rw [hright, List.head?_cons, Option.mem_some_iff] at hfirst
    exact hfirst ▸ htakes htype

/-! ## Runs -/

/-- In a run whose calls all meet the condition the tree keeps its two levels. -/
theorem shallow_putRun {t₀ t : BTree} {live₀ : List PageId} (h₀ : Shallow t₀ live₀)
    (hrun : BTree.PutRun BTree.KeepsToPages t₀ t) : ∃ live, Shallow t live := by
  induction hrun with
  | start => exact ⟨live₀, h₀⟩
  | returned h hcond hput ih =>
    obtain ⟨live, hshallow⟩ := ih
    obtain ⟨-, live', hshallow', -⟩ := (hshallow.put_cases _).resolve_left fun h => h.1 hcond
    rw [hput] at hshallow'
    exact ⟨live', hshallow'⟩
  | threw h hcond hput hthrown ih =>
    obtain ⟨live, hshallow⟩ := ih
    obtain ⟨-, live', hshallow', -⟩ := (hshallow.put_cases _).resolve_left fun h => h.1 hcond
    rw [hput] at hshallow'
    exact ⟨live', hshallow'⟩

/-- In every run whose calls all meet the condition, a call keeps to its pages exactly if it meets it
too. -/
theorem not_overruns_iff_of_putRun {p : Pager} {live : List PageId} (hp : p.Owns live) {root : PageId}
    {t₀ t : BTree} (hnew : BTree.createNew.run ⟨p, 0⟩ = .ok root t₀)
    (hrun : BTree.PutRun BTree.KeepsToPages t₀ t) (e : LeafEntry) :
    ¬ BTree.Overruns t e ↔ BTree.KeepsToPages t e := by
  obtain ⟨live', hshallow⟩ := shallow_putRun (rep_createNew hp hnew).1.shallow hrun
  rcases hshallow.put_cases e with ⟨hcond, hover⟩ | ⟨hcond, -, -, hkeeps⟩
  · exact iff_of_false (fun hno => hno hover) hcond
  · refine iff_of_true ?_ hcond
    rintro ⟨f, t', hput, hf⟩
    exact hkeeps f t' hput hf

/-- A call that returns meets the condition. -/
theorem Shallow.keepsToPages_of_put {t t' : BTree} {live : List PageId} (h : Shallow t live)
    {e : LeafEntry} {b : Bool} (hput : (BTree.put e).run t = .ok b t') : BTree.KeepsToPages t e := by
  rcases h.put_cases e with ⟨-, f, t'', herror, -⟩ | ⟨hcond, -⟩
  · rw [hput] at herror
    cases herror
  · exact hcond

/-- So a run of calls that return is one whose calls all meet it. -/
theorem putRun_of_putAll {t₀ t t' : BTree} {live₀ : List PageId} (h₀ : Shallow t₀ live₀)
    (hrun : BTree.PutRun BTree.KeepsToPages t₀ t) {es : List LeafEntry} {bs : List Bool}
    (hputs : (BTree.putAll es).run t = .ok bs t') : BTree.PutRun BTree.KeepsToPages t₀ t' := by
  refine hrun.putAll hputs fun t e b t' _ hrun hput => ?_
  obtain ⟨live, hshallow⟩ := shallow_putRun h₀ hrun
  exact hshallow.keepsToPages_of_put hput

/-- Rows of 1024 bytes. -/
def wideRows (keys : List Int64) : List LeafEntry := keys.map fun key => wideRow key 1 1 980

theorem approxBytes_wideRows (keys : List Int64) : approxBytes (wideRows keys) = 1024 * keys.length := by
  induction keys with
  | nil => rfl
  | cons key keys ih =>
    rw [wideRows, List.map_cons, approxBytes_cons, size_wideRow, List.length_cons]
    rw [wideRows] at ih
    omega

/-- A leaf of four of them is split in the middle. -/
theorem overflows_wideRows {keys : List Int64} (h : keys.length = 4) : Overflows (wideRows keys) ∧
    approxBytes (leftHalf (wideRows keys)) = 2048 ∧ approxBytes (rightHalf (wideRows keys)) = 2048 := by
  have hlen : (wideRows keys).length / 2 = 2 := by rw [wideRows, List.length_map, h]
  rw [Overflows, leftHalf, rightHalf, hlen, wideRows, ← List.map_take, ← List.map_drop]
  have htotal := approxBytes_wideRows keys
  have hleft := approxBytes_wideRows (keys.take 2)
  have hright := approxBytes_wideRows (keys.drop 2)
  rw [List.length_take] at hleft
  rw [List.length_drop] at hright
  rw [wideRows] at htotal hleft hright
  omega

/-- A root with two leaves, of which the second is the one for the greater keys. -/
def twoLeaves (root x : PageId) (left right : List LeafEntry) : Layout :=
  ⟨some [⟨.null, root⟩, ⟨.int64 3, x⟩], [(root, left), (x, right)]⟩

section TwoLeaves

variable {t : BTree} {root x : PageId} {left right : List LeafEntry} {others : List PageId} {e : LeafEntry}

theorem target_twoLeaves {key : Value} (hnull : key.operatorGe .null = true)
    (hkey : key.operatorGe (.int64 3) = true) : (twoLeaves root x left right).target key = x := by
  simp [twoLeaves, Layout.target, BTree.lastChild, hkey, hnull]

theorem twoLeaves_split {key : Value} (hnull : key.operatorGe .null = true)
    (hkey : key.operatorGe (.int64 3) = true) : (twoLeaves root x left right).leaves =
      [(root, left)] ++ ((twoLeaves root x left right).target key, right) :: [] := by
  rw [target_twoLeaves hnull hkey]
  rfl

theorem Rep.put_second_leaf (h : Rep t (twoLeaves root x left right) others)
    (hnull : e.key.operatorGe .null = true) (hkey : e.key.operatorGe (.int64 3) = true)
    (hocc : ¬ BTree.occupied e right = true) (hover : ¬ Overflows (BTree.insertEntry e right)) :
    ∃ t', (BTree.put e).run t = .ok true t' ∧
      Rep t' (twoLeaves root x left (BTree.insertEntry e right)) others ∧
      t'.pager.room = t.pager.room := by
  obtain ⟨t', hrun, hrep, -, -, hroom⟩ := h.put_in_leaf (twoLeaves_split hnull hkey) hocc hover
  rw [target_twoLeaves hnull hkey] at hrep
  exact ⟨t', hrun, hrep, hroom⟩

theorem Rep.keepsToPages_second_leaf (h : Rep t (twoLeaves root x left right) others)
    (hnull : e.key.operatorGe .null = true) (hkey : e.key.operatorGe (.int64 3) = true) :
    BTree.KeepsToPages t e ↔ (¬ BTree.occupied e right = true →
      Overflows (BTree.insertEntry e right) → t.pager.room ≠ 0 →
      BTree.HalvesFit t (Node.ofInternal [⟨.null, root⟩, ⟨.int64 3, x⟩]) (BTree.insertEntry e right)) :=
  keepsToPages_iff (h.findLeaf_eq e.key) (h.loadNode_leaf (twoLeaves_split hnull hkey))
    (h.loadNode_root_of_index_some rfl).1

end TwoLeaves

/-- Five rows of 1024 bytes: the fourth has split the leaf, and the last three are on the second
leaf. -/
theorem exists_two_leaves : ∃ root t₀ t x,
    BTree.createNew.run ⟨Pager.new 16 (by decide), 0⟩ = .ok root t₀ ∧
      BTree.PutRun BTree.KeepsToPages t₀ t ∧ 2 ≤ t.pager.room ∧
      Rep t (twoLeaves root x (wideRows [1, 2]) (wideRows [3, 4, 5])) [] := by
  have howns := Pager.owns_new (show 16 < 2 ^ 32 by decide) (by decide)
  obtain ⟨root, t₀, hnew, hroom₀⟩ := exists_createNew howns (by rw [Pager.room_new]; decide) 0
  rw [Pager.room_new] at hroom₀
  have hrep₀ := (rep_createNew howns hnew).1
  -- three rows fit the leaf
  have htakes : LeafTakes [] (wideRows [1, 2, 3]) :=
    ⟨by decide, by rw [approxBytes_wideRows]; decide⟩
  obtain ⟨bs, t₁, hrun₁, hrep₁, hroom₁⟩ := hrep₀.putAll_one_leaf htakes
  change Rep t₁ ⟨none, [(root, wideRows [1, 2, 3])]⟩ _ at hrep₁
  -- the fourth splits it in the middle
  have hins₄ : BTree.insertEntry (wideRow 4 1 1 980) (wideRows [1, 2, 3]) = wideRows [1, 2, 3, 4] :=
    insertEntry_last (by decide)
  obtain ⟨hover, hleft, hright⟩ := overflows_wideRows (show [1, 2, 3, 4].length = 4 from rfl)
  rw [← hins₄] at hover hleft hright
  obtain ⟨t₂, x, first, rest, hput₂, hfirst, hrep₂, hroom₂⟩ := hrep₁.put_split_leaf (by decide) hover
    (by omega) (by omega) (by omega)
  have hhalves : leftHalf (wideRows [1, 2, 3, 4]) = wideRows [1, 2] ∧
      rightHalf (wideRows [1, 2, 3, 4]) = wideRows [3, 4] := ⟨rfl, rfl⟩
  rw [hins₄, hhalves.1, hhalves.2] at hrep₂
  rw [hins₄, hhalves.2, wideRows, List.map_cons, List.cons.injEq] at hfirst
  rw [← hfirst.1] at hrep₂
  change Rep t₂ (twoLeaves root x (wideRows [1, 2]) (wideRows [3, 4])) _ at hrep₂
  -- the fifth goes to the second leaf
  have hins₅ : BTree.insertEntry (wideRow 5 1 1 980) (wideRows [3, 4]) = wideRows [3, 4, 5] :=
    insertEntry_last (by decide)
  have htakes₅ : LeafTakes (wideRows [3, 4]) (wideRows [5]) := by
    rw [LeafTakes, approxBytes_wideRows, approxBytes_wideRows]
    decide
  have hnull : (wideRow 5 1 1 980).key.operatorGe .null = true := rfl
  have hkey : (wideRow 5 1 1 980).key.operatorGe (.int64 3) = true := by decide
  have hfree : ¬ BTree.occupied (wideRow 5 1 1 980) (wideRows [3, 4]) = true := by decide
  have hfits : ¬ Overflows (BTree.insertEntry (wideRow 5 1 1 980) (wideRows [3, 4])) := htakes₅.cons.1
  obtain ⟨t₃, hput₃, hrep₃, hroom₃⟩ := hrep₂.put_second_leaf hnull hkey hfree hfits
  rw [hins₅] at hrep₃
  have hrest : (BTree.putAll [wideRow 4 1 1 980, wideRow 5 1 1 980]).run t₁ = .ok [true, true] t₃ :=
    run_putAll_cons.2 ⟨_, t₂, _, hput₂, run_putAll_cons.2 ⟨_, t₃, [], hput₃, rfl, rfl⟩, rfl⟩
  refine ⟨root, t₀, t₃, x, hnew, ?_, by omega, hrep₃⟩
  exact putRun_of_putAll hrep₀.shallow (putRun_of_putAll hrep₀.shallow .start hrun₁) hrest

/-- The sixth row splits the second leaf and keeps to its pages. A row of 4000 bytes in its place does
not. -/
theorem not_overruns_iff_of_putRun_split : ∃ root t₀ t n leafId leaf,
    BTree.createNew.run ⟨Pager.new 16 (by decide), 0⟩ = .ok root t₀ ∧
      BTree.PutRun BTree.KeepsToPages t₀ t ∧ BTree.loadNode t.pager t.rootPageId = .ok n ∧
      n.hdr.type = .internal ∧ t.findLeaf (.int64 6) = .ok leafId ∧
      BTree.loadNode t.pager leafId = .ok leaf ∧
      Overflows (BTree.insertEntry (wideRow 6 1 1 980) leaf.leaf) ∧
      ¬ BTree.Overruns t (wideRow 6 1 1 980) ∧ BTree.Overruns t (wideRow 6 1 1 3956) := by
  obtain ⟨root, t₀, t, x, hnew, hrun, hroom, hrep⟩ := exists_two_leaves
  have howns := Pager.owns_new (show 16 < 2 ^ 32 by decide) (by decide)
  have hiff := not_overruns_iff_of_putRun howns hnew hrun
  have hnull : (Value.int64 6).operatorGe .null = true := rfl
  have hkey : (Value.int64 6).operatorGe (.int64 3) = true := by decide
  have hkeeps : ∀ n, BTree.KeepsToPages t (wideRow 6 1 1 n) ↔ _ :=
    fun n => hrep.keepsToPages_second_leaf (e := wideRow 6 1 1 n) hnull hkey
  have hins : BTree.insertEntry (wideRow 6 1 1 980) (wideRows [3, 4, 5]) = wideRows [3, 4, 5, 6] :=
    insertEntry_last (by decide)
  have hins' : BTree.insertEntry (wideRow 6 1 1 3956) (wideRows [3, 4, 5]) =
      wideRows [3, 4, 5] ++ [wideRow 6 1 1 3956] := insertEntry_last (by decide)
  obtain ⟨hover, hleft, hright⟩ := overflows_wideRows (show [3, 4, 5, 6].length = 4 from rfl)
  refine ⟨root, t₀, t, _, _, _, hnew, hrun, (hrep.loadNode_root_of_index_some rfl).1, rfl,
    hrep.findLeaf_eq _, hrep.loadNode_leaf (twoLeaves_split hnull hkey), ?_, ?_, ?_⟩
  · show Overflows (BTree.insertEntry (wideRow 6 1 1 980) (wideRows [3, 4, 5]))
    rw [hins]
    exact hover
  · rw [hiff, hkeeps, hins]
    refine fun _ _ _ => ⟨by omega, by omega, fun _ first hfirst => ?_⟩
    have hlast : rightHalf (wideRows [3, 4, 5, 6]) = wideRows [5, 6] := rfl
    rw [hlast, wideRows, List.map_cons, List.head?_cons, Option.mem_some_iff] at hfirst
    have hkey₅ : first.key = .int64 5 := by
      rw [← hfirst]
      rfl
    have hindex : indexBytes (BTree.insertSeparator ⟨.int64 5, 0⟩ [⟨.null, root⟩, ⟨.int64 3, x⟩]) = 31 := by
      rw [indexBytes, ((insertSeparator_perm _ _).map _).sum_eq]
      rfl
    rw [hkey₅]
    show BTree.IndexTakes _ _ [⟨.null, root⟩, ⟨.int64 3, x⟩]
    simp [BTree.IndexTakes, hindex]
  · rw [← not_not (a := BTree.Overruns _ _), hiff, hkeeps, hins']
    intro hfit
    have hlast : rightHalf (wideRows [3, 4, 5] ++ [wideRow 6 1 1 3956]) =
        wideRows [5] ++ [wideRow 6 1 1 3956] := rfl
    have hbytes : approxBytes (wideRows [5] ++ [wideRow 6 1 1 3956]) = 5024 := by
      rw [approxBytes_append, approxBytes_wideRows, approxBytes_cons, size_wideRow]
      rfl
    have hover' : Overflows (wideRows [3, 4, 5] ++ [wideRow 6 1 1 3956]) := by
      refine Or.inr ?_
      rw [approxBytes_append, approxBytes_wideRows, approxBytes_cons, size_wideRow]
      exact show 4024 < 3072 + (4000 + 0) by decide
    have hhalf := (hfit (by decide) hover' (by omega)).2.1
    rw [hlast, hbytes] at hhalf
    omega

/-! ## Rows of at most 1024 bytes -/

/-- The entries come in the order of their keys. -/
def Ascending (es : List LeafEntry) : Prop :=
  es.Pairwise fun x e => ¬ BTree.goesBefore e x = true ∧ ¬ BTree.occupied e [x] = true

instance (es : List LeafEntry) : Decidable (Ascending es) := inferInstanceAs (Decidable (List.Pairwise _ _))

/-- Entries in the order of their keys fill a leaf from left to right. -/
theorem exists_putRun_ascending {Cond : BTree → LeafEntry → Prop} {t₀ : BTree} {root : PageId}
    {others : List PageId} (h₀ : Rep t₀ ⟨none, [(root, [])]⟩ others) {es : List LeafEntry}
    (hcond : ∀ e ∈ es, ∀ t, Cond t e) (hasc : Ascending es) (hover : ¬ Overflows es) :
    ∃ t, BTree.PutRun Cond t₀ t ∧ Rep t ⟨none, [(root, es)]⟩ others ∧
      t.pager.room = t₀.pager.room := by
  induction es using List.reverseRecOn with
  | nil => exact ⟨t₀, .start, h₀, rfl⟩
  | append_singleton es e ih =>
    obtain ⟨hbefore, -, hlast⟩ := List.pairwise_append.1 hasc
    have hfit : ¬ Overflows es := by
      rw [Overflows, approxBytes_append, List.length_append] at hover
      rw [Overflows]
      omega
    obtain ⟨t, hrun, hrep, hroom⟩ := ih (fun x hx => hcond x (List.mem_append_left _ hx)) hbefore hfit
    have hins : BTree.insertEntry e es = es ++ [e] :=
      insertEntry_last fun x hx => (hlast x hx e (List.mem_singleton_self e)).1
    have hfree : BTree.occupied e es = false := by
      rw [BTree.occupied, List.any_eq_false]
      intro x hx
      have := (hlast x hx e (List.mem_singleton_self e)).2
      simpa [BTree.occupied] using this
    obtain ⟨t', hput, hrep', hroom'⟩ := hrep.put_one_leaf (e := e) (by rwa [hins])
    rw [hfree, hins] at hrep'
    exact ⟨t', .returned hrun (hcond e (by simp) t) hput, hrep', hroom'.trans hroom⟩

/-- Three small rows, and three of 1024 bytes. -/
def mixedLeaf : List LeafEntry :=
  [row 1 1 1 false, row 2 1 1 false, row 3 1 1 false, wideRow 4 1 1 980, wideRow 5 1 1 980,
    wideRow 6 1 1 980]

/-- A fourth row of 1024 bytes: all four go to one half. -/
theorem overruns_after_mixedLeaf : ∃ root t₀ t,
    BTree.createNew.run ⟨Pager.new 16 (by decide), 0⟩ = .ok root t₀ ∧
      BTree.PutRun (fun _ e => e.size ≤ 1024) t₀ t ∧ (wideRow 7 1 1 980).size ≤ 1024 ∧
      BTree.Overruns t (wideRow 7 1 1 980) := by
  have howns := Pager.owns_new (show 16 < 2 ^ 32 by decide) (by decide)
  obtain ⟨root, t₀, hnew, hroom₀⟩ := exists_createNew howns (by rw [Pager.room_new]; decide) 0
  rw [Pager.room_new] at hroom₀
  have hwide := fun key => size_wideRow key 1 1 980
  -- the leaf is cut at its middle row, which leaves all the wide rows on the right
  have hleft : leftHalf (mixedLeaf ++ [wideRow 7 1 1 980]) =
      [row 1 1 1 false, row 2 1 1 false, row 3 1 1 false] := rfl
  have hright : rightHalf (mixedLeaf ++ [wideRow 7 1 1 980]) =
      [wideRow 4 1 1 980, wideRow 5 1 1 980, wideRow 6 1 1 980, wideRow 7 1 1 980] := rfl
  have hsmall : approxBytes [row 1 1 1 false, row 2 1 1 false, row 3 1 1 false] ≤ 120 := by decide
  have hbig : approxBytes [wideRow 4 1 1 980, wideRow 5 1 1 980, wideRow 6 1 1 980,
      wideRow 7 1 1 980] = 4096 := by simp [approxBytes, hwide]
  have hmixed : ¬ Overflows mixedLeaf := by
    have hbytes : approxBytes mixedLeaf =
        approxBytes [row 1 1 1 false, row 2 1 1 false, row 3 1 1 false] + 3072 := by
      rw [mixedLeaf, show ∀ a b c d e f : LeafEntry, [a, b, c, d, e, f] = [a, b, c] ++ [d, e, f]
        from fun _ _ _ _ _ _ => rfl, approxBytes_append]
      simp [approxBytes, hwide]
    rw [Overflows, hbytes, mixedLeaf]
    simp only [List.length_cons, List.length_nil]
    omega
  have hsizes : ∀ e ∈ mixedLeaf, e.size ≤ 1024 := by
    have hrow : ∀ key, (row key 1 1 false).size ≤ 1024 := fun key => by
      simp [row, LeafEntry.size, Value.toBytes, Tuple.encodeTuple, Tuple.empty]
    simp [mixedLeaf, hrow, hwide]
  have hcond : ∀ e ∈ mixedLeaf, ∀ _ : BTree, e.size ≤ 1024 := fun e he _ => hsizes e he
  obtain ⟨t, hrun, hrep, hroom⟩ :=
    exists_putRun_ascending (rep_createNew howns hnew).1 hcond (by decide) hmixed
  have hins : BTree.insertEntry (wideRow 7 1 1 980) mixedLeaf = mixedLeaf ++ [wideRow 7 1 1 980] :=
    insertEntry_last (by decide)
  have hover : Overflows (BTree.insertEntry (wideRow 7 1 1 980) mixedLeaf) := by
    rw [hins, ← leftHalf_append_rightHalf (mixedLeaf ++ [wideRow 7 1 1 980]), hleft, hright]
    exact .inr (by rw [approxBytes_append, hbig]; omega)
  obtain ⟨f, x, t', hput, henc, -⟩ := hrep.put_right_too_big (e := wideRow 7 1 1 980)
    (show _ = [] ++ (root, _) :: [] from rfl) (by decide) hover (by omega)
    (by rw [hins, hleft]; omega) (by rw [hins, hright, hbig]; omega)
  exact ⟨root, t₀, t, hnew, hrun, (hwide 7).le, f, t', hput, overrun_of_encodeNode henc⟩

end OpenDB
