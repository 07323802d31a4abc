import OpenDB.Storage.BTree

/-!
# What a tree looks like on its pages

A layout is what a reader of the pages sees: the leaves in chain order, each with its page and its
entries, and the separators of the root when the root is internal. `Rep t L others` says that the
tree `t` is laid out as `L` and that its pages and `others` are distinct pages in use.

A layout has at most two levels. That is no simplification: `insertIntoParent` looks for the parent
of a split root and throws, so no run of the code builds a third level.

Every read of a represented tree is a function of its layout (`Rep.scanAll_eq`, `Rep.get_eq`,
`Rep.scan_eq`).
-/

set_option autoImplicit false

namespace OpenDB

open OpenDB.Library

namespace BTree

/-! ## Loading and saving -/

theorem loadNode_congr {p p' : Pager} {id : PageId} (h : p'.readPage id = p.readPage id) :
    loadNode p' id = loadNode p id := by
  unfold loadNode
  rw [h]

/-- A page that holds a node is in range. -/
theorem lt_of_loadNode {p : Pager} {id : PageId} {n : Node} (h : loadNode p id = .ok n) :
    id ≠ 0 ∧ id.toNat < p.header.pageCount.toNat := by
  unfold loadNode at h
  cases hread : p.readPage id with
  | none =>
    rw [hread] at h
    cases h
  | some page => exact Pager.lt_of_readPage hread

/-- The tree with a node written to a page. -/
def withNode (t : BTree) (id : PageId) (n : Node) : BTree :=
  { t with pager := t.pager.withPage id n.pageBytes }

theorem run_onPager_ok {α : Type} {x : EStateM Fault Pager α} {t : BTree} {a : α} {p : Pager}
    (h : x.run t.pager = .ok a p) : (onPager x).run t = .ok a { t with pager := p } := by
  show onPager x t = _
  rw [onPager, h]

theorem run_onPager_error {α : Type} {x : EStateM Fault Pager α} {t : BTree} {e : Fault}
    {p : Pager} (h : x.run t.pager = .error e p) :
    (onPager x).run t = .error e { t with pager := p } := by
  show onPager x t = _
  rw [onPager, h]

theorem run_saveNode {t : BTree} {id : PageId} {n : Node} (hid : id ≠ 0)
    (hcount : id.toNat < t.pager.header.pageCount.toNat) (hfits : n.Fits) :
    (saveNode id n).run t = .ok () (t.withNode id n) := by
  have hwrite := run_onPager_ok (Pager.run_writePage (Node.length_pageBytes hfits) hid hcount)
  rw [saveNode, encodeNode_of_fits hfits]
  dsimp only
  rw [EStateM.run_bind, hwrite]
  rfl

theorem run_saveNode_of_not_fits (id : PageId) {n : Node} (hfits : ¬ n.Fits) (t : BTree) :
    ∃ e, encodeNode n = .error e ∧ (saveNode id n).run t = .error e t := by
  obtain ⟨e, he⟩ := encodeNode_of_not_fits hfits
  exact ⟨e, he, by rw [saveNode, he]; rfl⟩

theorem loadNode_withNode_self {t : BTree} {id : PageId} {n : Node} (hid : id ≠ 0)
    (hcount : id.toNat < t.pager.header.pageCount.toNat) (hfits : n.Fits)
    (hcounted : n.Counted) : loadNode (t.withNode id n).pager id = .ok n := by
  have hread : (t.withNode id n).pager.readPage id = some n.pageBytes :=
    Pager.readPage_withPage_self (Node.length_pageBytes hfits) hid hcount
  rw [loadNode, hread]
  dsimp only
  rw [run_decodeNode_pageBytes hfits hcounted]

theorem loadNode_withNode_of_ne {t : BTree} (hp : t.pager.Backed) {id j : PageId} {n : Node}
    (hcount : id.toNat < t.pager.header.pageCount.toNat) (hne : j ≠ id) :
    loadNode (t.withNode id n).pager j = loadNode t.pager j :=
  loadNode_congr (Pager.readPage_withPage_of_ne hp hcount hne)

/-- A node that fits is written by `saveNode` and read back by `loadNode`, and the decoder stops where
the encoder did: what it leaves unread is the padding of the page. -/
theorem loadNode_of_saveNode {t : BTree} {id : PageId} {n : Node} (hid : id ≠ 0)
    (hcount : id.toNat < t.pager.header.pageCount.toNat) (hfits : n.Fits)
    (hcounted : n.Counted) :
    ∃ t', (saveNode id n).run t = .ok () t' ∧ loadNode t'.pager id = .ok n ∧
      ∃ written padding, (emitEntries n).run (headerBytes n.hdr) = .ok () written ∧
        t'.pager.readPage id = some (written ++ padding) ∧
        decodeNode.run (written ++ padding) = .ok n padding := by
  have hread : (t.withNode id n).pager.readPage id = some n.pageBytes :=
    Pager.readPage_withPage_self (Node.length_pageBytes hfits) hid hcount
  have hdecode := run_decodeNode_pageBytes hfits hcounted
  have hwritten := (appends_emitEntries n _ (length_headerBytes_le n.hdr)).1
    (by rw [length_headerBytes]; exact hfits)
  refine ⟨_, run_saveNode hid hcount hfits, ?_, _,
    List.replicate (Pager.dataPagePayloadSize - (nodeHeaderSize + n.entryBytes.length)) 0, hwritten,
    ?_, ?_⟩
  · rw [loadNode, hread]
    dsimp only
    rw [hdecode]
  · rw [hread, Node.pageBytes, List.append_assoc]
  · rw [List.append_assoc]
    exact hdecode

/-- Everything `newPage` can do: fail with nothing changed, or hand out a fresh page with an empty
node on it. -/
theorem newPage_cases {t : BTree} {live : List PageId} (howns : t.pager.Owns live)
    (type : NodeType) (htype : type = .leaf ∨ type = .internal) :
    (t.pager.room = 0 ∧ (newPage type).run t = .error Pager.extendFailed t) ∨
    ∃ x t', (newPage type).run t = .ok x t' ∧ t'.pager.Owns (x :: live) ∧
      loadNode t'.pager x = .ok ⟨⟨type, 0, 0⟩, [], []⟩ ∧ t.pager.Frame t'.pager [x] ∧
      t'.pager.room + 1 = t.pager.room ∧ t'.rootPageId = t.rootPageId := by
  cases halloc : Pager.allocatePage.run t.pager with
  | error e p =>
    obtain ⟨rfl, hroom, rfl⟩ := Pager.allocatePage_error howns.backed halloc
    refine Or.inl ⟨hroom, ?_⟩
    rw [newPage, EStateM.run_bind, run_onPager_error halloc]
  | ok x p =>
    obtain ⟨howns', hframe, hroom⟩ := Pager.allocatePage_ok howns halloc
    obtain ⟨hx0, hx⟩ := howns'.range x (by simp)
    have hfits : Node.Fits ⟨⟨type, 0, 0⟩, [], []⟩ := by
      rcases htype with rfl | rfl <;> decide
    have hcounted : Node.Counted ⟨⟨type, 0, 0⟩, [], []⟩ := by
      rcases htype with rfl | rfl <;> exact ⟨rfl, rfl⟩
    -- the allocation and the empty node are two writes; the pager between them owns the page
    refine Or.inr ⟨x, ({ t with pager := p } : BTree).withNode x ⟨⟨type, 0, 0⟩, [], []⟩, ?_,
      howns'.withPage hx, ?_, ?_, ?_, rfl⟩
    · rw [newPage, EStateM.run_bind, run_onPager_ok halloc]
      dsimp only
      rw [EStateM.run_bind, run_saveNode hx0 hx hfits]
      rfl
    · exact loadNode_withNode_self hx0 hx hfits hcounted
    · exact (hframe.trans (Pager.frame_withPage howns'.backed hx0 hx)).mono (by simp)
    · rw [← hroom]
      exact congrArg (· + 1) (Pager.room_withPage howns'.backed hx)

/-- A leaf of two versions of one row, on a page of its own. -/
theorem loadNode_of_saveNode_two_versions : ∃ (t t' : BTree) (id : PageId) (n : Node),
    n = Node.ofLeaf 0 [⟨.text (ascii "k"), 0, 5, true, Tuple.empty⟩,
      ⟨.text (ascii "k"), 3, 4, false, Tuple.empty.set (ascii "v") (.int64 7)⟩] ∧
    (saveNode id n).run t = .ok () t' ∧ loadNode t'.pager id = .ok n ∧
      ∃ written padding, (emitEntries n).run (headerBytes n.hdr) = .ok () written ∧
        t'.pager.readPage id = some (written ++ padding) ∧
        decodeNode.run (written ++ padding) = .ok n padding := by
  have howns := Pager.owns_new (show 16 < 2 ^ 32 by decide) (by decide)
  rcases newPage_cases (t := ⟨Pager.new 16 (by decide), 0⟩) howns .leaf (Or.inl rfl) with
    ⟨hfull, -⟩ | ⟨x, t, -, howns', -⟩
  · rw [Pager.room_new] at hfull
    cases hfull
  · obtain ⟨hx, hlt⟩ := howns'.range x (by simp)
    have hfits : (Node.ofLeaf 0 [⟨.text (ascii "k"), 0, 5, true, Tuple.empty⟩,
        ⟨.text (ascii "k"), 3, 4, false, Tuple.empty.set (ascii "v") (.int64 7)⟩]).Fits := by
      decide
    obtain ⟨t', hsave, hload⟩ := loadNode_of_saveNode hx hlt hfits ⟨rfl, rfl⟩
    exact ⟨t, t', x, _, rfl, hsave, hload⟩

end BTree

/-! ## The leaf chain -/

/-- Leaves in chain order, each with its page and its entries. -/
abbrev Leaves := List (PageId × List LeafEntry)

namespace Leaves

/-- The pages of the leaves. -/
def pages (ls : Leaves) : List PageId := ls.map Prod.fst

/-- The entries of all leaves, in chain order. -/
def entries (ls : Leaves) : List LeafEntry := (ls.map Prod.snd).flatten

/-- The first page, or `next` when there is no leaf. -/
def first (ls : Leaves) (next : PageId) : PageId :=
  match ls with
  | [] => next
  | s :: _ => s.1

@[simp] theorem pages_nil : pages [] = [] := rfl

@[simp] theorem pages_cons (s : PageId × List LeafEntry) (ls : Leaves) :
    pages (s :: ls) = s.1 :: pages ls := rfl

@[simp] theorem pages_append (ls ls' : Leaves) : pages (ls ++ ls') = pages ls ++ pages ls' :=
  List.map_append

@[simp] theorem entries_cons (s : PageId × List LeafEntry) (ls : Leaves) :
    entries (s :: ls) = s.2 ++ entries ls := rfl

@[simp] theorem entries_nil : entries [] = [] := rfl

@[simp] theorem entries_append (ls ls' : Leaves) :
    entries (ls ++ ls') = entries ls ++ entries ls' := by
  simp [entries]

@[simp] theorem first_cons (s : PageId × List LeafEntry) (ls : Leaves) (next : PageId) :
    first (s :: ls) next = s.1 := rfl

/-- The pages hold the leaves, and each leaf points at the one after it, the last at `next`. -/
def Chain (p : Pager) : Leaves → PageId → Prop
  | [], _ => True
  | s :: rest, next =>
    BTree.loadNode p s.1 = .ok (Node.ofLeaf (first rest next) s.2) ∧ Chain p rest next

theorem chain_append {p : Pager} {ls ls' : Leaves} {next : PageId} :
    Chain p (ls ++ ls') next ↔ Chain p ls (first ls' next) ∧ Chain p ls' next := by
  induction ls with
  | nil => simp [Chain]
  | cons s rest ih =>
    have hfirst : first (rest ++ ls') next = first rest (first ls' next) := by
      cases rest <;> rfl
    simp only [List.cons_append, Chain, ih, hfirst, and_assoc]

theorem Chain.congr {p p' : Pager} {ls : Leaves} {next : PageId} (h : Chain p ls next)
    (hsame : ∀ x ∈ ls.pages, p'.readPage x = p.readPage x) : Chain p' ls next := by
  induction ls with
  | nil => trivial
  | cons s rest ih =>
    refine ⟨?_, ih h.2 fun x hx => hsame x (List.mem_cons_of_mem _ hx)⟩
    rw [BTree.loadNode_congr (hsame s.1 List.mem_cons_self)]
    exact h.1

/-- A walk with fuel for every leaf reads the chain. -/
theorem Chain.chainFrom_eq {p : Pager} {ls : Leaves} (h : Chain p ls 0) {fuel : Nat}
    (hfuel : ls.length ≤ fuel) : BTree.chainFrom p fuel (first ls 0) = .ok ls := by
  induction ls generalizing fuel with
  | nil =>
    unfold BTree.chainFrom
    exact if_pos rfl
  | cons s rest ih =>
    obtain ⟨fuel, rfl⟩ : ∃ k, fuel = k + 1 := ⟨fuel - 1, by simp at hfuel; omega⟩
    have hs := BTree.lt_of_loadNode h.1
    unfold BTree.chainFrom
    rw [first_cons, if_neg hs.1, h.1]
    have hrest := ih h.2 (by simpa using hfuel)
    show (do
      let rest ← BTree.chainFrom p fuel (first rest 0)
      pure ((s.1, s.2) :: rest)) = _
    rw [hrest]
    rfl

end Leaves

/-! ## Layouts -/

/-- The root's separators, when the root is internal, and the leaves. -/
structure Layout where
  index : Option (List InternalEntry)
  leaves : Leaves

namespace Layout

/-- The pages of a tree with its root at `root`. -/
def pages (L : Layout) (root : PageId) : List PageId :=
  match L.index with
  | none => L.leaves.pages
  | some _ => root :: L.leaves.pages

/-- The children of an internal root are the leaves, in some order but with the first leaf first,
under the separator that is below every key. -/
structure IndexOk (ies : List InternalEntry) (ls : Leaves) : Prop where
  few : ies.length ≤ 128
  children : (ies.map InternalEntry.child).Perm ls.pages
  head : ∃ rest, ies = ⟨.null, ls.first 0⟩ :: rest

/-- The children of an internal root are leaves of the chain, not necessarily all of them. -/
structure Leads (ies : List InternalEntry) (ls : Leaves) : Prop where
  few : ies.length ≤ 128
  children : (ies.map InternalEntry.child).Subperm ls.pages
  head : ∃ rest, ies = ⟨.null, ls.first 0⟩ :: rest

theorem IndexOk.leads {ies : List InternalEntry} {ls : Leaves} (h : IndexOk ies ls) : Leads ies ls :=
  ⟨h.few, h.children.subperm, h.head⟩

/-- What the root page holds. -/
def RootAt (L : Layout) (p : Pager) (root : PageId) : Prop :=
  match L.index with
  | none => L.leaves.pages = [root]
  | some ies => BTree.loadNode p root = .ok (Node.ofInternal ies) ∧ IndexOk ies L.leaves

/-- The root page is the first leaf, or leads to leaves of the chain. -/
def EntryAt (L : Layout) (p : Pager) (root : PageId) : Prop :=
  match L.index with
  | none => ∃ es rest, L.leaves = (root, es) :: rest
  | some ies => BTree.loadNode p root = .ok (Node.ofInternal ies) ∧ Leads ies L.leaves

/-- The page `findLeaf` descends to. -/
def target (L : Layout) (key : Value) : PageId :=
  match L.index with
  | none => L.leaves.first 0
  | some ies => BTree.lastChild key 0 ies

/-- The entries of a page. -/
def entriesAt (L : Layout) (page : PageId) : List LeafEntry :=
  ((L.leaves.find? fun s => s.1 == page).map Prod.snd).getD []

/-- `scanAll` of a layout. -/
def scanAll (L : Layout) : List LeafEntry := L.leaves.entries

/-- `get` of a layout. -/
def get (L : Layout) (key : Value) (txn visibleSeq : UInt64) : LookupResult :=
  .ofOption (BTree.lookup key txn visibleSeq (L.entriesAt (L.target key)))

/-- `scan` of a layout. -/
def scan (L : Layout) (txn visibleSeq : UInt64) : Except Fault (List (Value × LookupResult)) :=
  BTree.scanLeaves txn visibleSeq (L.leaves.map Prod.snd)

/-- Distinct pages make the entries of a page unambiguous. -/
theorem entriesAt_eq {L : Layout} (hnodup : L.leaves.pages.Nodup) {page : PageId}
    {pre post : Leaves} {es : List LeafEntry} (hsplit : L.leaves = pre ++ (page, es) :: post) :
    L.entriesAt page = es := by
  rw [hsplit, Leaves.pages_append, List.nodup_append] at hnodup
  have hpre : pre.find? (fun s => s.1 == page) = none := by
    rw [List.find?_eq_none]
    intro s hs heq
    exact hnodup.2.2 s.1 (List.mem_map_of_mem hs) page (by simp) (by simpa using heq)
  rw [Layout.entriesAt, hsplit, List.find?_append, hpre]
  simp

end Layout

/-- The leaf chain of the tree holds the leaves of `L`, and the root leads into it; the pages are apart
from `others`. Calls that throw leave leaves in the chain that the root does not lead to. -/
structure Linked (t : BTree) (L : Layout) (others : List PageId) : Prop where
  chain : L.leaves.Chain t.pager 0
  root : L.EntryAt t.pager t.rootPageId
  small : ∀ s ∈ L.leaves, s.2.length ≤ 64
  owns : t.pager.Owns (L.pages t.rootPageId ++ others)

/-- The tree is laid out as `L`, on pages apart from `others`. -/
structure Rep (t : BTree) (L : Layout) (others : List PageId) : Prop where
  chain : L.leaves.Chain t.pager 0
  root : L.RootAt t.pager t.rootPageId
  small : ∀ s ∈ L.leaves, s.2.length ≤ 64
  owns : t.pager.Owns (L.pages t.rootPageId ++ others)

theorem lastChild_mem (key : Value) (next : PageId) (ies : List InternalEntry) :
    BTree.lastChild key next ies = next ∨
      BTree.lastChild key next ies ∈ ies.map InternalEntry.child := by
  induction ies generalizing next with
  | nil => exact Or.inl rfl
  | cons e es ih =>
    unfold BTree.lastChild
    split_ifs
    · rcases ih e.child with h | h
      · exact Or.inr (by rw [h]; simp)
      · exact Or.inr (List.mem_cons_of_mem _ h)
    · exact Or.inl rfl

theorem Rep.leafPages_subset (L : Layout) (root : PageId) : L.leaves.pages ⊆ L.pages root := by
  unfold Layout.pages
  cases L.index with
  | none => exact List.Subset.refl _
  | some ies => exact List.subset_cons_self _ _

namespace Linked

variable {t : BTree} {L : Layout} {others : List PageId}

theorem nodup_leafPages (h : Linked t L others) : L.leaves.pages.Nodup := by
  have hall := (List.nodup_append.1 (List.nodup_append.1 h.owns.nodup).2.1).1
  unfold Layout.pages at hall
  cases hix : L.index with
  | none =>
    rw [hix] at hall
    exact hall
  | some ies =>
    rw [hix] at hall
    exact (List.nodup_cons.1 hall).2

theorem range_leaf (h : Linked t L others) {x : PageId} (hx : x ∈ L.leaves.pages) :
    x ≠ 0 ∧ x.toNat < t.pager.header.pageCount.toNat :=
  h.owns.range x (List.mem_append_right _
    (List.mem_append_left _ (Rep.leafPages_subset L t.rootPageId hx)))

/-- Distinct pages of the file, none of them page 0, are fewer than the file has. -/
theorem length_leaves_lt (h : Linked t L others) :
    L.leaves.length < t.pager.header.pageCount.toNat := by
  have hnodup : (0 :: L.leaves.pages.map UInt32.toNat).Nodup := by
    rw [List.nodup_cons]
    refine ⟨fun hmem => ?_, h.nodup_leafPages.map fun x y hxy => UInt32.toNat_inj.1 hxy⟩
    obtain ⟨x, hx, hzero⟩ := List.mem_map.1 hmem
    exact (h.range_leaf hx).1 (UInt32.toNat_inj.1 hzero)
  have hsub : 0 :: L.leaves.pages.map UInt32.toNat ⊆
      List.range t.pager.header.pageCount.toNat := by
    intro n hn
    rcases List.mem_cons.1 hn with rfl | hn
    · exact List.mem_range.2 h.owns.backed.pos
    · obtain ⟨x, hx, rfl⟩ := List.mem_map.1 hn
      exact List.mem_range.2 (h.range_leaf hx).2
  have hlen := (List.subperm_of_subset hnodup hsub).length_le
  simpa [Leaves.pages, Nat.succ_le_iff] using hlen

/-- The root is the first leaf. -/
theorem leaves_of_index_none (h : Linked t L others) (hix : L.index = none) :
    ∃ es rest, L.leaves = (t.rootPageId, es) :: rest := by
  have hroot := h.root
  rw [Layout.EntryAt, hix] at hroot
  exact hroot

theorem leads_of_index_some (h : Linked t L others) {ies : List InternalEntry}
    (hix : L.index = some ies) :
    BTree.loadNode t.pager t.rootPageId = .ok (Node.ofInternal ies) ∧ Layout.Leads ies L.leaves := by
  have hroot := h.root
  rw [Layout.EntryAt, hix] at hroot
  exact hroot

/-- A descent from an internal root comes to one of its children. -/
theorem target_mem_children (h : Linked t L others) {ies : List InternalEntry}
    (hix : L.index = some ies) (key : Value) : L.target key ∈ ies.map InternalEntry.child := by
  obtain ⟨rest, hrest⟩ := (h.leads_of_index_some hix).2.head
  rw [Layout.target, hix]
  dsimp only
  rw [hrest, BTree.lastChild, if_pos (Value.operatorGe_null key)]
  rcases lastChild_mem key (L.leaves.first 0) rest with hc | hc
  · rw [hc]
    simp
  · exact List.mem_cons_of_mem _ hc

theorem target_mem (h : Linked t L others) (key : Value) : L.target key ∈ L.leaves.pages := by
  cases hix : L.index with
  | none =>
    obtain ⟨es, rest, hl⟩ := h.leaves_of_index_none hix
    rw [Layout.target, hix, hl]
    exact List.mem_cons_self
  | some ies => exact (h.leads_of_index_some hix).2.children.subset (h.target_mem_children hix key)

/-- The leaf that a key belongs to, with the leaves before and after it. -/
theorem exists_leaf (h : Linked t L others) (key : Value) :
    ∃ pre es post, L.leaves = pre ++ (L.target key, es) :: post := by
  obtain ⟨s, hs, hpage⟩ := List.mem_map.1 (h.target_mem key)
  obtain ⟨pre, post, hsplit⟩ := List.append_of_mem hs
  refine ⟨pre, s.2, post, ?_⟩
  rw [hsplit, ← hpage]

theorem loadNode_leaf (h : Linked t L others) {page : PageId} {pre post : Leaves}
    {es : List LeafEntry} (hsplit : L.leaves = pre ++ (page, es) :: post) :
    BTree.loadNode t.pager page = .ok (Node.ofLeaf (post.first 0) es) := by
  have hchain := h.chain
  rw [hsplit, Leaves.chain_append] at hchain
  exact hchain.2.1

theorem pageCount_pos (h : Linked t L others) :
    ∃ k, t.pager.header.pageCount.toNat = k + 1 :=
  ⟨t.pager.header.pageCount.toNat - 1, by have := h.owns.backed.pos; omega⟩

theorem findLeaf_eq (h : Linked t L others) (key : Value) :
    t.findLeaf key = .ok (L.target key) := by
  obtain ⟨k, hk⟩ := h.pageCount_pos
  obtain ⟨pre, es, post, hsplit⟩ := h.exists_leaf key
  have hleaf := h.loadNode_leaf hsplit
  have hstop : ∀ fuel, BTree.findLeafFrom t.pager key (fuel + 1) (L.target key) =
      .ok (L.target key) := by
    intro fuel
    rw [BTree.findLeafFrom, hleaf]
    rfl
  rw [BTree.findLeaf, hk]
  cases hix : L.index with
  | none =>
    obtain ⟨es', rest, hl⟩ := h.leaves_of_index_none hix
    have htarget : L.target key = t.rootPageId := by
      rw [Layout.target, hix]
      dsimp only
      rw [hl]
      rfl
    rw [htarget] at hstop ⊢
    exact hstop _
  | some ies =>
    obtain ⟨hroot, -⟩ := h.leads_of_index_some hix
    have htarget : L.target key = BTree.lastChild key 0 ies := by
      rw [Layout.target, hix]
    have hchild : BTree.childFor key ies = .ok (L.target key) := by
      unfold BTree.childFor
      rw [← htarget]
      exact if_neg (h.range_leaf (h.target_mem key)).1
    rw [BTree.findLeafFrom, hroot]
    show (do
      let child ← BTree.childFor key ies
      BTree.findLeafFrom t.pager key (k + 1) child) = _
    rw [hchild]
    exact hstop k

theorem leftmost_eq (h : Linked t L others) : t.leftmost = .ok (L.leaves.first 0) := by
  obtain ⟨k, hk⟩ := h.pageCount_pos
  have hstop : ∀ fuel s rest, L.leaves = s :: rest →
      BTree.leftmostFrom t.pager (fuel + 1) s.1 = .ok s.1 := by
    intro fuel s rest hl
    have hleaf : BTree.loadNode t.pager s.1 = .ok (Node.ofLeaf (Leaves.first rest 0) s.2) :=
      h.loadNode_leaf (show L.leaves = [] ++ (s.1, s.2) :: rest from hl)
    rw [BTree.leftmostFrom, hleaf]
    rfl
  rw [BTree.leftmost, hk]
  cases hix : L.index with
  | none =>
    obtain ⟨es, rest, hl⟩ := h.leaves_of_index_none hix
    rw [hl, Leaves.first_cons]
    exact hstop _ _ _ hl
  | some ies =>
    obtain ⟨hroot, hleads⟩ := h.leads_of_index_some hix
    obtain ⟨rest, hrest⟩ := hleads.head
    cases hl : L.leaves with
    | nil =>
      have hlen := hleads.children.length_le
      rw [hl, hrest] at hlen
      simp at hlen
    | cons s ls =>
      rw [BTree.leftmostFrom, hroot, hrest, hl]
      exact hstop k s ls hl

theorem leafChain_eq (h : Linked t L others) : t.leafChain = .ok L.leaves := by
  rw [BTree.leafChain, h.leftmost_eq]
  exact h.chain.chainFrom_eq (by have := h.length_leaves_lt; omega)

theorem scanAll_eq (h : Linked t L others) : t.scanAll = .ok L.scanAll := by
  rw [BTree.scanAll, h.leafChain_eq]
  rfl

theorem scan_eq (h : Linked t L others) (txn visibleSeq : UInt64) :
    t.scan txn visibleSeq = L.scan txn visibleSeq := by
  rw [BTree.scan, h.leafChain_eq]
  rfl

theorem get_eq (h : Linked t L others) (key : Value) (txn visibleSeq : UInt64) :
    t.get key txn visibleSeq = .ok (L.get key txn visibleSeq) := by
  obtain ⟨pre, es, post, hsplit⟩ := h.exists_leaf key
  rw [BTree.get, h.findLeaf_eq]
  show (do
    let n ← BTree.loadNode t.pager (L.target key)
    pure (LookupResult.ofOption (BTree.lookup key txn visibleSeq n.leaf))) = _
  rw [h.loadNode_leaf hsplit, Layout.get, Layout.entriesAt_eq h.nodup_leafPages hsplit]
  rfl

end Linked

namespace Rep

variable {t : BTree} {L : Layout} {others : List PageId}

/-- The root is a leaf: the only one. -/
theorem leaves_eq_of_index_none (h : Rep t L others) (hix : L.index = none) :
    ∃ es, L.leaves = [(t.rootPageId, es)] := by
  have hroot := h.root
  rw [Layout.RootAt, hix] at hroot
  obtain ⟨s, hs, hpage⟩ := List.map_eq_singleton_iff.1 hroot
  exact ⟨s.2, by rw [hs, ← hpage]⟩

theorem loadNode_root_of_index_some (h : Rep t L others) {ies : List InternalEntry}
    (hix : L.index = some ies) :
    BTree.loadNode t.pager t.rootPageId = .ok (Node.ofInternal ies) ∧
      Layout.IndexOk ies L.leaves := by
  have hroot := h.root
  rw [Layout.RootAt, hix] at hroot
  exact hroot

/-- Every leaf of the chain of a represented tree is a child of its root. -/
theorem linked (h : Rep t L others) : Linked t L others := by
  refine ⟨h.chain, ?_, h.small, h.owns⟩
  rw [Layout.EntryAt]
  cases hix : L.index with
  | none =>
    obtain ⟨es, hl⟩ := h.leaves_eq_of_index_none hix
    exact ⟨es, [], hl⟩
  | some ies =>
    obtain ⟨hload, hok⟩ := h.loadNode_root_of_index_some hix
    exact ⟨hload, hok.leads⟩

theorem nodup_leafPages (h : Rep t L others) : L.leaves.pages.Nodup := h.linked.nodup_leafPages

theorem range_leaf (h : Rep t L others) {x : PageId} (hx : x ∈ L.leaves.pages) :
    x ≠ 0 ∧ x.toNat < t.pager.header.pageCount.toNat := h.linked.range_leaf hx

theorem length_leaves_lt (h : Rep t L others) :
    L.leaves.length < t.pager.header.pageCount.toNat := h.linked.length_leaves_lt

theorem target_mem (h : Rep t L others) (key : Value) : L.target key ∈ L.leaves.pages :=
  h.linked.target_mem key

theorem exists_leaf (h : Rep t L others) (key : Value) :
    ∃ pre es post, L.leaves = pre ++ (L.target key, es) :: post := h.linked.exists_leaf key

theorem loadNode_leaf (h : Rep t L others) {page : PageId} {pre post : Leaves}
    {es : List LeafEntry} (hsplit : L.leaves = pre ++ (page, es) :: post) :
    BTree.loadNode t.pager page = .ok (Node.ofLeaf (post.first 0) es) := h.linked.loadNode_leaf hsplit

theorem pageCount_pos (h : Rep t L others) :
    ∃ k, t.pager.header.pageCount.toNat = k + 1 := h.linked.pageCount_pos

theorem findLeaf_eq (h : Rep t L others) (key : Value) : t.findLeaf key = .ok (L.target key) :=
  h.linked.findLeaf_eq key

theorem leafChain_eq (h : Rep t L others) : t.leafChain = .ok L.leaves := h.linked.leafChain_eq

theorem scanAll_eq (h : Rep t L others) : t.scanAll = .ok L.scanAll := h.linked.scanAll_eq

theorem scan_eq (h : Rep t L others) (txn visibleSeq : UInt64) :
    t.scan txn visibleSeq = L.scan txn visibleSeq := h.linked.scan_eq txn visibleSeq

theorem get_eq (h : Rep t L others) (key : Value) (txn visibleSeq : UInt64) :
    t.get key txn visibleSeq = .ok (L.get key txn visibleSeq) := h.linked.get_eq key txn visibleSeq

end Rep

end OpenDB
