import OpenDB.Storage.FailedPut

/-!
# When a tree gets a new root

A `put` gives the tree a new root in one place, when the loop of `insertIntoParent` finds a leaf at
the root. `SplitsRoot` says what that takes in the state before the call. Whatever the state of the
pager, a call that throws leaves the root where it is (`root_of_put_error`), and so does a call that
returns without splitting the root (`root_of_put_ok`).

No invariant of the tree or of the allocator is used: the file may be damaged, and the pages of
tables may overlap.
-/

set_option autoImplicit false

namespace OpenDB

open OpenDB.Library

namespace Pager

/-! ## Pages that hold no leaf -/

/-- The page is on file, is not the header page, and holds no leaf. -/
structure NoLeafAt (r : PageId) (p : Pager) : Prop where
  ne_zero : r ≠ 0
  noLeaf : ∃ raw, p.file[r.toNat]? = some raw ∧
    ∀ n rest, decodeNode.run raw.payload = .ok n rest → n.hdr.type ≠ .leaf

variable {p q : Pager} {r : PageId}

theorem NoLeafAt.of_file (h : NoLeafAt r p) (hfile : q.file[r.toNat]? = p.file[r.toNat]?) :
    NoLeafAt r q := by
  refine ⟨h.ne_zero, ?_⟩
  rw [hfile]
  exact h.noLeaf

theorem NoLeafAt.lt (h : NoLeafAt r p) : r.toNat < p.file.length := by
  obtain ⟨raw, hraw, -⟩ := h.noLeaf
  exact (List.getElem?_eq_some_iff.1 hraw).1

/-- A write changes no other page that is on file. -/
theorem getElem?_write_of_ne {file : Image} {i j : Nat} {page : RawPage} (hj : j < file.length)
    (hne : i ≠ j) : (Image.write file i page)[j]? = file[j]? := by
  rw [Image.write]
  split_ifs with hi
  · exact List.getElem?_set_ne hne
  · rw [List.append_assoc, List.getElem?_append_left hj]

theorem NoLeafAt.write (h : NoLeafAt r p) {i : Nat} (hne : i ≠ r.toNat) (page : RawPage) :
    NoLeafAt r { p with file := p.file.write i page } :=
  h.of_file (getElem?_write_of_ne h.lt hne)

theorem NoLeafAt.zero_ne (h : NoLeafAt r p) : 0 ≠ r.toNat := by
  intro heq
  exact h.ne_zero (UInt32.toNat_inj.1 heq.symm)

theorem preserves_noLeafAt_appendPage (r : PageId) : Preserves (NoLeafAt r) appendPage := by
  intro p h
  show NoLeafAt r (endState (appendPage p))
  rw [appendPage]
  split_ifs
  · exact h.of_file (List.getElem?_append_left h.lt)
  · exact h

theorem preserves_noLeafAt_appendPages (r : PageId) (n : Nat) :
    Preserves (NoLeafAt r) (appendPages n) := by
  induction n with
  | zero => exact .pure ()
  | succ n ih => exact .bind (preserves_noLeafAt_appendPage r) fun _ => ih

/-- A write to another page, also when the file has to be extended first. -/
theorem preserves_noLeafAt_writeRaw {r id : PageId} (hne : id ≠ r) (page : RawPage) :
    Preserves (NoLeafAt r) (writeRaw id page) := by
  have hid : id.toNat ≠ r.toNat := fun heq => hne (UInt32.toNat_inj.1 heq)
  have hwrite : Preserves (NoLeafAt r) (modify fun p : Pager =>
      { p with file := p.file.write id.toNat page } : EStateM Fault Pager PUnit) :=
    .modify fun p h => h.write hid page
  refine .bind (fun _ h => h) fun p => ?_
  split_ifs
  · refine .bind (preserves_noLeafAt_appendPages r _) fun _ => .bind ?_ fun _ => hwrite
    exact .modify fun p h => h.write h.zero_ne _
  · exact hwrite

theorem preserves_noLeafAt_flushHeader (r : PageId) : Preserves (NoLeafAt r) flushHeader :=
  .get_bind fun p h => preserves_noLeafAt_writeRaw (Ne.symm h.ne_zero) _ p h

theorem preserves_noLeafAt_extendFile (r : PageId) (n : Nat) :
    Preserves (NoLeafAt r) (extendFile n) := by
  rw [extendFile]
  split_ifs
  · exact .pure _
  · refine .bind (fun _ h => h) fun p => .bind (preserves_noLeafAt_appendPages r n) fun _ => ?_
    refine .bind (preserves_noLeafAt_flushHeader r) fun _ => .bind ?_ fun _ => .pure _
    exact .modify fun q h => h.of_file rfl

/-- Allocating a page, whatever the allocator hands out. -/
theorem preserves_noLeafAt_allocatePage (r : PageId) : Preserves (NoLeafAt r) allocatePage := by
  refine .get_bind fun p h => ?_
  cases p.allocator.allocatePages 1 with
  | some a => exact h.of_file rfl
  | none => exact preserves_noLeafAt_extendFile r 1 p h

/-- A page that is written at the root must not be a leaf; any other may be. -/
theorem preserves_noLeafAt_writePage {r id : PageId} {data : Bytes}
    (hdata : id = r → ∀ n rest, decodeNode.run data = .ok n rest → n.hdr.type ≠ .leaf) :
    Preserves (NoLeafAt r) (writePage (some id) data) := by
  intro p h
  by_cases hlen : data.length = dataPagePayloadSize
  · by_cases hid : id = 0 ∨ p.header.pageCount ≤ id
    · have hrun : ∃ e, (writePage (some id) data).run p = .error e p := by
        simp [writePage, hlen, hid]
      obtain ⟨e, he⟩ := hrun
      rw [he]
      exact h
    · rw [not_or, UInt32.le_iff_toNat_le, not_le] at hid
      rw [run_writePage hlen hid.1 hid.2]
      by_cases hr : id = r
      · subst hr
        refine ⟨hid.1, dataPage data, getElem?_write_self _ _ _, ?_⟩
        rw [payload_dataPage hlen]
        exact hdata rfl
      · exact h.write (fun heq => hr (UInt32.toNat_inj.1 heq)) _
  · have hrun : ∃ e, (writePage (some id) data).run p = .error e p := by
      simp [writePage, hlen]
    obtain ⟨e, he⟩ := hrun
    rw [he]
    exact h

end Pager

namespace BTree

open Pager

/-! ## The root stays -/

/-- The root of the tree is the page `r`. -/
def RootAt (r : PageId) (t : BTree) : Prop := t.rootPageId = r

theorem preserves_rootAt_onPager {α : Type} (r : PageId) (x : EStateM Fault Pager α) :
    Preserves (RootAt r) (onPager x) := by
  intro t h
  show RootAt r (endState (onPager x t))
  rw [onPager]
  cases x.run t.pager <;> exact h

theorem preserves_rootAt_saveNode (r id : PageId) (n : Node) :
    Preserves (RootAt r) (saveNode id n) := by
  rw [saveNode]
  cases encodeNode n with
  | ok page => exact .bind (preserves_rootAt_onPager r _) fun _ => .pure ()
  | error e => exact .throw e

theorem preserves_rootAt_newPage (r : PageId) (type : NodeType) :
    Preserves (RootAt r) (newPage type) :=
  .bind (preserves_rootAt_onPager r _) fun _ => .bind (preserves_rootAt_saveNode r _ _) fun _ =>
    .pure _

theorem preserves_rootAt_splitLeaf (r leafId : PageId) (hdr : NodeHeader) (es : List LeafEntry) :
    Preserves (RootAt r) (splitLeaf leafId hdr es) := by
  unfold splitLeaf
  dsimp only
  cases es.drop (es.length / 2) with
  | nil => exact .throw _
  | cons first right =>
    exact .bind (preserves_rootAt_newPage r _) fun _ => .bind (preserves_rootAt_saveNode r _ _)
      fun _ => .bind (preserves_rootAt_saveNode r _ _) fun _ => .pure _

theorem preserves_rootAt_splitInternal (r id : PageId) (ies : List InternalEntry) :
    Preserves (RootAt r) (splitInternal id ies) := by
  unfold splitInternal
  dsimp only
  cases ies.drop (ies.length / 2) with
  | nil => exact .throw _
  | cons first right =>
    exact .bind (preserves_rootAt_newPage r _) fun _ => .bind (preserves_rootAt_saveNode r _ _)
      fun _ => .bind (preserves_rootAt_saveNode r _ _) fun _ => .pure _

theorem preserves_findParent {P : BTree → Prop} (child : PageId) :
    Preserves P (findParent child) := by
  refine .bind (.reading _) fun parent => ?_
  split_ifs
  · exact .throw _
  · exact .pure _

/-- A new root that throws has not been set. -/
theorem rootAt_of_raiseRoot_error {t t' : BTree} {key : Value} {right : PageId} {f : Fault}
    (h : (raiseRoot key right).run t = .error f t') : t'.rootPageId = t.rootPageId := by
  rw [raiseRoot] at h
  rw [run_bind_eq_error] at h
  obtain h | ⟨_, t₁, hget, h⟩ := h
  · cases h
  cases hget
  rw [run_bind_eq_error] at h
  obtain h | ⟨newRoot, t₁, hnew, h⟩ := h
  · exact (preserves_rootAt_newPage _ _).of_error rfl h
  have hroot : RootAt t.rootPageId t₁ := (preserves_rootAt_newPage _ _).of_ok rfl hnew
  rw [run_bind_eq_error] at h
  obtain h | ⟨_, t₂, -, h⟩ := h
  · exact (preserves_rootAt_saveNode _ _ _).of_error hroot h
  · cases h

/-- The loop that throws has not set a new root either: it ends when it has. -/
theorem rootAt_of_insertLoop_error {t t' : BTree} {fuel : Nat} {left right : PageId} {key : Value}
    {f : Fault} (h : (insertLoop fuel left key right).run t = .error f t') :
    t'.rootPageId = t.rootPageId := by
  induction fuel generalizing t left key right with
  | zero =>
    cases h
    rfl
  | succ fuel ih =>
    rw [insertLoop, run_reading_bind_eq_error] at h
    obtain ⟨-, rfl⟩ | ⟨root, -, h⟩ := h
    · rfl
    split_ifs at h
    · exact rootAt_of_raiseRoot_error h
    · rw [run_bind_eq_error] at h
      obtain h | ⟨parent, t₁, hparent, h⟩ := h
      · exact (preserves_findParent _).of_error (show RootAt t.rootPageId t from rfl) h
      have ht₁ : RootAt t.rootPageId t₁ := (preserves_findParent _).of_ok rfl hparent
      rw [run_reading_bind_eq_error] at h
      obtain ⟨-, rfl⟩ | ⟨n, -, h⟩ := h
      · exact ht₁
      dsimp only at h
      split_ifs at h
      · exact (preserves_rootAt_saveNode _ _ _).of_error ht₁ h
      · rw [run_bind_eq_error] at h
        obtain h | ⟨⟨newRight, promoted⟩, t₂, hsplit, h⟩ := h
        · exact (preserves_rootAt_splitInternal _ _ _).of_error ht₁ h
        have ht₂ : RootAt t.rootPageId t₂ := (preserves_rootAt_splitInternal _ _ _).of_ok ht₁ hsplit
        exact (ih h).trans ht₂

/-! ## A root that is no leaf -/

/-- The root is the page `r`, and no leaf. -/
structure BranchRoot (r : PageId) (t : BTree) : Prop where
  rootAt : RootAt r t
  page : NoLeafAt r t.pager

theorem preserves_branchRoot_onPager {α : Type} {r : PageId} {x : EStateM Fault Pager α}
    (hx : Preserves (NoLeafAt r) x) : Preserves (BranchRoot r) (onPager x) := by
  intro t h
  have hpager := hx t.pager h.page
  show BranchRoot r (endState (onPager x t))
  rw [onPager]
  cases hrun : x.run t.pager with
  | ok a p =>
    rw [hrun] at hpager
    exact ⟨h.rootAt, hpager⟩
  | error e p =>
    rw [hrun] at hpager
    exact ⟨h.rootAt, hpager⟩

theorem type_of_decodeNode_pageBytes {n m : Node} {rest : Bytes} (htype : n.hdr.type = .internal)
    (h : decodeNode.run n.pageBytes = .ok m rest) : m.hdr.type = .internal := by
  rw [Node.pageBytes, headerBytes, htype, decodeNode] at h
  obtain ⟨byte, bs, hbyte, h⟩ := run_bind_eq_ok.1 h
  rw [List.cons_append, run_readByte_cons] at hbyte
  cases hbyte
  obtain ⟨numEntries, bs₁, -, h⟩ := run_bind_eq_ok.1 h
  obtain ⟨rightSibling, bs₂, -, h⟩ := run_bind_eq_ok.1 h
  obtain ⟨_, bs₃, -, h⟩ := run_bind_eq_ok.1 h
  dsimp only at h
  rw [if_pos (by rfl)] at h
  obtain ⟨ies, bs₄, -, h⟩ := run_bind_eq_ok.1 h
  cases h
  rfl

/-- Writing a node keeps a root that is no leaf, unless it writes a leaf over it. -/
theorem preserves_branchRoot_saveNode {r id : PageId} {n : Node}
    (h : id ≠ r ∨ n.hdr.type = .internal) : Preserves (BranchRoot r) (saveNode id n) := by
  rw [saveNode]
  cases henc : encodeNode n with
  | error e => exact .throw e
  | ok page =>
    refine .bind (preserves_branchRoot_onPager (preserves_noLeafAt_writePage ?_)) fun _ => .pure ()
    rintro hr m rest hdecode hleaf
    rw [(encodeNode_eq_ok_iff.1 henc).2] at hdecode
    rw [type_of_decodeNode_pageBytes (h.resolve_left (not_not.2 hr)) hdecode] at hleaf
    cases hleaf

theorem preserves_branchRoot_newPage_internal (r : PageId) :
    Preserves (BranchRoot r) (newPage .internal) :=
  .bind (preserves_branchRoot_onPager (preserves_noLeafAt_allocatePage r)) fun _ =>
    .bind (preserves_branchRoot_saveNode (Or.inr rfl)) fun _ => .pure _

theorem preserves_branchRoot_splitInternal (r id : PageId) (ies : List InternalEntry) :
    Preserves (BranchRoot r) (splitInternal id ies) := by
  unfold splitInternal
  dsimp only
  cases ies.drop (ies.length / 2) with
  | nil => exact .throw _
  | cons first right =>
    exact .bind (preserves_branchRoot_newPage_internal r) fun _ =>
      .bind (preserves_branchRoot_saveNode (Or.inr rfl)) fun _ =>
      .bind (preserves_branchRoot_saveNode (Or.inr rfl)) fun _ => .pure _

/-- What is read at such a root is no leaf. -/
theorem BranchRoot.type_ne {r : PageId} {t : BTree} {n : Node} (h : BranchRoot r t)
    (hload : loadNode t.pager t.rootPageId = .ok n) : n.hdr.type ≠ .leaf := by
  rw [h.rootAt] at hload
  obtain ⟨raw, hraw, hno⟩ := h.page.noLeaf
  rw [loadNode, readPage, readRaw] at hload
  rw [hraw] at hload
  split_ifs at hload
  dsimp only at hload
  split_ifs at hload
  dsimp only at hload
  cases hrun : decodeNode.run raw.payload with
  | error e rest =>
    rw [hrun] at hload
    cases hload
  | ok m rest =>
    rw [hrun] at hload
    cases hload
    exact hno n rest hrun

/-- The loop sets no new root above a root that is no leaf. -/
theorem rootAt_of_insertLoop_ok {r : PageId} {t t' : BTree} {fuel : Nat} {left right : PageId}
    {key : Value} (hbranch : BranchRoot r t)
    (h : (insertLoop fuel left key right).run t = .ok () t') : t'.rootPageId = r := by
  induction fuel generalizing t left key right with
  | zero => cases h
  | succ fuel ih =>
    rw [insertLoop, run_reading_bind_eq_ok] at h
    obtain ⟨root, hload, h⟩ := h
    rw [if_neg (hbranch.type_ne hload)] at h
    obtain ⟨parent, t₁, hparent, h⟩ := run_bind_eq_ok.1 h
    have ht₁ : BranchRoot r t₁ := (preserves_findParent _).of_ok hbranch hparent
    rw [run_reading_bind_eq_ok] at h
    obtain ⟨n, -, h⟩ := h
    dsimp only at h
    split_ifs at h
    · exact (preserves_rootAt_saveNode r _ _).of_ok ht₁.rootAt h
    · obtain ⟨⟨newRight, promoted⟩, t₂, hsplit, h⟩ := run_bind_eq_ok.1 h
      exact ih ((preserves_branchRoot_splitInternal r _ _).of_ok ht₁ hsplit) h

/-! ## The root and `put` -/

/-- The version splits the leaf that it belongs to, and the root of the tree is that leaf, or it is
the page that is handed out for the right half. -/
def SplitsRoot (t : BTree) (e : LeafEntry) : Prop :=
  ∃ leafId leaf root, t.findLeaf e.key = .ok leafId ∧ loadNode t.pager leafId = .ok leaf ∧
    loadNode t.pager t.rootPageId = .ok root ∧ ¬ occupied e leaf.leaf = true ∧
    (maxLeafEntries < leaf.hdr.numEntries + 1 ∨
      Pager.dataPagePayloadSize - 64 < approxBytes (insertEntry e leaf.leaf)) ∧
    (root.hdr.type = .leaf ∨ ∃ p, allocatePage.run t.pager = .ok t.rootPageId p)

/-- A descent starts at the root and ends at a leaf. -/
theorem of_findLeafFrom {p : Pager} {key : Value} {fuel : Nat} {cur leafId : PageId}
    (h : findLeafFrom p key fuel cur = .ok leafId) :
    (∃ n, loadNode p cur = .ok n) ∧ ∃ n, loadNode p leafId = .ok n ∧ n.hdr.type = .leaf := by
  induction fuel generalizing cur with
  | zero => cases h
  | succ fuel ih =>
    rw [findLeafFrom] at h
    cases hload : loadNode p cur with
    | error e =>
      rw [hload] at h
      cases h
    | ok n =>
      rw [hload] at h
      refine ⟨⟨n, rfl⟩, ?_⟩
      change (if n.hdr.type = .leaf then Except.ok cur else _) = _ at h
      split_ifs at h with htype
      · cases h
        exact ⟨n, hload, htype⟩
      · cases hchild : childFor key n.internal with
        | error e =>
          rw [hchild] at h
          cases h
        | ok child =>
          rw [hchild] at h
          exact (ih h).2

/-- A root that loads as something else than a leaf. -/
theorem branchRoot_of_loadNode {t : BTree} {root : Node}
    (hload : loadNode t.pager t.rootPageId = .ok root) (htype : root.hdr.type ≠ .leaf) :
    BranchRoot t.rootPageId t := by
  refine ⟨rfl, (lt_of_loadNode hload).1, ?_⟩
  rw [loadNode, readPage, readRaw] at hload
  cases hraw : t.pager.file[t.rootPageId.toNat]? with
  | none =>
    rw [hraw] at hload
    split_ifs at hload
  | some raw =>
    refine ⟨raw, rfl, fun n rest hrun => ?_⟩
    rw [hraw] at hload
    split_ifs at hload
    dsimp only at hload
    split_ifs at hload
    dsimp only at hload
    rw [hrun] at hload
    cases hload
    exact htype

/-- A leaf split next to the root keeps a root that is no leaf. -/
theorem branchRoot_of_splitLeaf_ok {r leafId newRight : PageId} {t t' : BTree} {hdr : NodeHeader}
    {es : List LeafEntry} {promoted : Value} (h : BranchRoot r t) (hleaf : leafId ≠ r)
    (hfresh : ∀ p, ¬ allocatePage.run t.pager = .ok r p)
    (hrun : (splitLeaf leafId hdr es).run t = .ok (newRight, promoted) t') : BranchRoot r t' := by
  unfold splitLeaf at hrun
  dsimp only at hrun
  cases hright : es.drop (es.length / 2) with
  | nil =>
    rw [hright] at hrun
    cases hrun
  | cons first right =>
    rw [hright] at hrun
    obtain ⟨page, t₁, hnew, hrun⟩ := run_bind_eq_ok.1 hrun
    obtain ⟨page', t₂, halloc, hnew⟩ := run_bind_eq_ok.1 hnew
    have ht₂ : BranchRoot r t₂ :=
      (preserves_branchRoot_onPager (preserves_noLeafAt_allocatePage r)).of_ok h halloc
    obtain ⟨_, t₃, hblank, hnew⟩ := run_bind_eq_ok.1 hnew
    cases hnew
    have hne : page ≠ r := by
      rintro rfl
      change onPager allocatePage t = _ at halloc
      unfold onPager at halloc
      cases hcall : allocatePage.run t.pager with
      | ok x p =>
        rw [hcall] at halloc
        cases halloc
        exact hfresh p hcall
      | error e p =>
        rw [hcall] at halloc
        cases halloc
    have ht₁ : BranchRoot r t₁ := (preserves_branchRoot_saveNode (Or.inl hne)).of_ok ht₂ hblank
    obtain ⟨_, t₄, hsave, hrun⟩ := run_bind_eq_ok.1 hrun
    have ht₄ : BranchRoot r t₄ := (preserves_branchRoot_saveNode (Or.inl hleaf)).of_ok ht₁ hsave
    obtain ⟨_, t₅, hsave', hrun⟩ := run_bind_eq_ok.1 hrun
    cases hrun
    exact (preserves_branchRoot_saveNode (Or.inl hne)).of_ok ht₄ hsave'

/-- A call that throws leaves the root where it is. -/
theorem root_of_put_error {t t' : BTree} {e : LeafEntry} {f : Fault}
    (h : (put e).run t = .error f t') : t'.rootPageId = t.rootPageId := by
  rw [put] at h
  rw [run_reading_bind_eq_error] at h
  obtain ⟨-, rfl⟩ | ⟨leafId, -, h⟩ := h
  · rfl
  rw [run_reading_bind_eq_error] at h
  obtain ⟨-, rfl⟩ | ⟨leaf, -, h⟩ := h
  · rfl
  split_ifs at h
  · cases h
  · dsimp only at h
    split_ifs at h
    · rw [run_bind_eq_error] at h
      obtain h | ⟨⟨newRight, promoted⟩, t₃, hsplit, h⟩ := h
      · exact (preserves_rootAt_splitLeaf t.rootPageId _ _ _).of_error rfl h
      have ht₃ : RootAt t.rootPageId t₃ := (preserves_rootAt_splitLeaf _ _ _ _).of_ok rfl hsplit
      dsimp only at h
      rw [run_bind_eq_error] at h
      obtain h | ⟨_, t₄, -, h⟩ := h
      · rw [insertIntoParent] at h
        exact (rootAt_of_insertLoop_error h).trans ht₃
      · cases h
    · rw [run_bind_eq_error] at h
      obtain h | ⟨_, t₃, -, h⟩ := h
      · exact (preserves_rootAt_saveNode t.rootPageId _ _).of_error rfl h
      · cases h

/-- A call that returns leaves it as well, unless it splits the root. -/
theorem root_of_put_ok {t t' : BTree} {e : LeafEntry} {b : Bool} (hroot : ¬ SplitsRoot t e)
    (h : (put e).run t = .ok b t') : t'.rootPageId = t.rootPageId := by
  rw [put] at h
  rw [run_reading_bind_eq_ok] at h
  obtain ⟨leafId, hfind, h⟩ := h
  rw [run_reading_bind_eq_ok] at h
  obtain ⟨leaf, hload, h⟩ := h
  split_ifs at h with hocc
  · cases h
    rfl
  · dsimp only at h
    split_ifs at h with hsplits
    · obtain ⟨⟨newRight, promoted⟩, t₃, hsplit, h⟩ := run_bind_eq_ok.1 h
      dsimp only at h
      obtain ⟨_, t₄, hparent, h⟩ := run_bind_eq_ok.1 h
      cases h
      -- the root is neither the leaf that is split nor its new right half
      obtain ⟨⟨root, hrootload⟩, leaf', hload', hleaf⟩ := of_findLeafFrom hfind
      have hno : ¬ (root.hdr.type = .leaf ∨ ∃ p, allocatePage.run t.pager = .ok t.rootPageId p) :=
        fun hbad => hroot ⟨leafId, leaf, root, hfind, hload, hrootload, hocc, hsplits, hbad⟩
      rw [not_or, not_exists] at hno
      have hne : leafId ≠ t.rootPageId := by
        rintro rfl
        rw [hload'] at hrootload
        cases hrootload
        exact hno.1 hleaf
      have hbranch := branchRoot_of_splitLeaf_ok (branchRoot_of_loadNode hrootload hno.1) hne hno.2
        hsplit
      exact rootAt_of_insertLoop_ok hbranch hparent
    · obtain ⟨_, t₃, hsave, h⟩ := run_bind_eq_ok.1 h
      cases h
      exact (preserves_rootAt_saveNode t.rootPageId _ _).of_ok rfl hsave

end BTree

end OpenDB
