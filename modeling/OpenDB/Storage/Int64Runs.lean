import OpenDB.Storage.DistinctKeys

/-!
# Runs with distinct Int64 keys and small entries

Entries of at most 60 bytes never overflow a page by size: a leaf is split when it has more than 64
entries, its halves always fit, and so do 128 separators. What is left of the ways to fail is a pager
that cannot allocate, and a root that already has 128 children when one of them has to be split.
`putAll_int64_iff` says that without the first the run inserts everything exactly when the second
never happens; since a tree then has at most 128 leaves, no run of more than 8192 entries can do it
(`not_insertsAll_ascending`).
-/

set_option autoImplicit false

namespace OpenDB

open OpenDB.Library

namespace BTree

/-- The root is an internal node with 128 entries and the leaf of the key holds 64. -/
def RootFull (t : BTree) (key : Value) : Prop :=
  ∃ root leafId leaf, loadNode t.pager t.rootPageId = .ok root ∧ root.hdr.type = .internal ∧
    root.internal.length = 128 ∧ t.findLeaf key = .ok leafId ∧
    loadNode t.pager leafId = .ok leaf ∧ leaf.leaf.length = 64

/-- No call of the run throws, a scan of all entries yields the entries of the run, each once, and a
lookup of an inserted key that sees the version finds it. -/
def InsertsAll (t₀ : BTree) (es : List LeafEntry) : Prop :=
  ∃ bs t, (putAll es).run t₀ = .ok bs t ∧ (∃ all, t.scanAll = .ok all ∧ all.Perm es) ∧
    ∀ e ∈ es, ∀ txn visibleSeq, visible txn visibleSeq e = true →
      t.get e.key txn visibleSeq = .ok (.ofEntry e)

end BTree

/-! ## One small entry -/

/-- Entries that are small, and separators that are. -/
structure SmallLayout (L : Layout) : Prop where
  entries : ∀ e ∈ L.scanAll, e.size ≤ 60 ∧ e.key.toBytes.length ≤ 9
  index : ∀ ies, L.index = some ies → ∀ i ∈ ies, i.key.toBytes.length ≤ 9

theorem approxBytes_le {es : List LeafEntry} (h : ∀ e ∈ es, e.size ≤ 60) :
    approxBytes es ≤ 60 * es.length := by
  induction es with
  | nil => simp [approxBytes]
  | cons e es ih =>
    have he := h e List.mem_cons_self
    have hes := ih fun x hx => h x (List.mem_cons_of_mem _ hx)
    simp only [approxBytes, List.map_cons, List.sum_cons, List.length_cons] at hes ⊢
    omega

theorem fits_ofInternal {ies : List InternalEntry} (hlen : ies.length ≤ 128)
    (hkeys : ∀ i ∈ ies, i.key.toBytes.length ≤ 9) : (Node.ofInternal ies).Fits := by
  have hsum : (ies.map InternalEntry.bytes).flatten.length ≤ 13 * ies.length := by
    clear hlen
    induction ies with
    | nil => simp
    | cons i ies ih =>
      have hi := hkeys i List.mem_cons_self
      have hrest := ih fun x hx => hkeys x (List.mem_cons_of_mem _ hx)
      simp only [List.map_cons, List.flatten_cons, List.length_append, InternalEntry.bytes,
        length_leBytes, List.length_cons]
      omega
  show 8 + (ies.map InternalEntry.bytes).flatten.length ≤ 4088
  omega

section SmallStep

variable {t : BTree} {L : Layout} {others : List PageId} {e : LeafEntry}

theorem Rep.rootFull_iff (h : Rep t L others) {pre post : Leaves} {es : List LeafEntry}
    {key : Value} (hsplit : L.leaves = pre ++ (L.target key, es) :: post) :
    t.RootFull key ↔ (∃ ies, L.index = some ies ∧ ies.length = 128) ∧ es.length = 64 := by
  constructor
  · rintro ⟨root, leafId, leaf, hroot, htype, hlen, hfind, hleaf, hfull⟩
    rw [h.findLeaf_eq] at hfind
    cases hfind
    rw [h.loadNode_leaf hsplit] at hleaf
    cases hleaf
    refine ⟨?_, hfull⟩
    cases hix : L.index with
    | none =>
      obtain ⟨es', hl⟩ := h.leaves_eq_of_index_none hix
      rw [h.loadNode_leaf (show L.leaves = [] ++ (t.rootPageId, es') :: [] from hl)] at hroot
      cases hroot
      cases htype
    | some ies =>
      rw [(h.loadNode_root_of_index_some hix).1] at hroot
      cases hroot
      exact ⟨ies, rfl, hlen⟩
  · rintro ⟨⟨ies, hix, hlen⟩, hfull⟩
    exact ⟨_, _, _, (h.loadNode_root_of_index_some hix).1, rfl, hlen, h.findLeaf_eq key,
      h.loadNode_leaf hsplit, hfull⟩

/-- A small entry at a free position goes in, unless the root is full or no page can be
allocated. -/
theorem Rep.put_small (h : Rep t L others) (hL : SmallLayout L) (hsize : e.size ≤ 60)
    (hkey : e.key.toBytes.length ≤ 9) (hfree : ¬ BTree.occupied e L.scanAll = true) :
    (∃ t', (BTree.put e).run t = .ok true t' ∧ ¬ t.RootFull e.key) ∨
    (∃ f t', (BTree.put e).run t = .error f t' ∧ t.RootFull e.key ∧
      (f = Pager.extendFailed → t.pager.room ≤ 1)) ∨
    ∃ t', (BTree.put e).run t = .error Pager.extendFailed t' ∧ t.pager.room ≤ 1 := by
  obtain ⟨pre, es, post, hsplit⟩ := h.exists_leaf e.key
  have hes : ∀ x ∈ es, x ∈ L.scanAll := by
    intro x hx
    rw [Layout.scanAll, hsplit, Leaves.entries_append, Leaves.entries_cons]
    exact List.mem_append_right _ (List.mem_append_left _ hx)
  have hleaf : ∀ x ∈ BTree.insertEntry e es, x.size ≤ 60 ∧ x.key.toBytes.length ≤ 9 := by
    intro x hx
    rcases (List.mem_orderedInsert _).1 hx with rfl | hx
    · exact ⟨hsize, hkey⟩
    · exact hL.entries x (hes x hx)
  have hocc : ¬ BTree.occupied e es = true := by
    intro hocc
    apply hfree
    rw [BTree.occupied, List.any_eq_true] at hocc ⊢
    obtain ⟨x, hx, hsame⟩ := hocc
    exact ⟨x, hes x hx, hsame⟩
  have hlen := h.length_insert_le hsplit
  have hbytes := approxBytes_le fun x hx => (hleaf x hx).1
  have hsmall : es.length ≤ 64 := h.small (L.target e.key, es) (by rw [hsplit]; simp)
  by_cases hover : Overflows (BTree.insertEntry e es)
  swap
  · obtain ⟨t', hrun, -⟩ := h.put_in_leaf hsplit hocc hover
    refine Or.inl ⟨t', hrun, fun hfull => hover (Or.inl ?_)⟩
    rw [length_insertEntry, ((h.rootFull_iff hsplit).1 hfull).2]
    omega
  have hfull64 : es.length = 64 := by
    rw [length_insertEntry] at hlen hbytes
    rcases hover with hover | hover
    · rw [length_insertEntry] at hover
      omega
    · omega
  by_cases hroom : t.pager.room = 0
  · exact Or.inr (Or.inr ⟨t, h.put_no_page hsplit hocc hover hroom, by omega⟩)
  have hhalves := approxBytes_append (leftHalf (BTree.insertEntry e es))
    (rightHalf (BTree.insertEntry e es))
  rw [leftHalf_append_rightHalf] at hhalves
  rcases h.put_halves_cases hsplit hocc hover hroom (by omega) (by omega) with
    ⟨t', L', hrun, hstep, -⟩ | ⟨t', -, ies, x, first, hix, hlt, hfirst, hbig⟩ | ⟨t', hrun, -, hone⟩ |
    ⟨f, t', hrun, hf, ies, hix, hlen'⟩
  · refine Or.inl ⟨t', hrun, fun hfull => ?_⟩
    obtain ⟨⟨ies, hix, h128⟩, -⟩ := (h.rootFull_iff hsplit).1 hfull
    -- a full root cannot have taken a separator
    cases hstep with
    | inLeaf hsplit' hocc' hover' =>
      rw [← Layout.entriesAt_eq h.nodup_leafPages hsplit',
        Layout.entriesAt_eq h.nodup_leafPages hsplit] at hover'
      exact hover' hover
    | newRoot hsplit' hocc' hover' hright' hix' =>
      rw [hix] at hix'
      cases hix'
    | newSeparator hsplit' hocc' hover' hright' hix' hlen' =>
      rw [hix] at hix'
      cases hix'
      omega
  · refine absurd (fits_ofInternal (by rw [length_insertSeparator]; omega) ?_) hbig
    intro i hi
    rcases List.mem_cons.1 ((insertSeparator_perm _ _).mem_iff.1 hi) with rfl | hi
    · exact (hleaf first hfirst).2
    · exact hL.index ies hix i hi
  · exact Or.inr (Or.inr ⟨t', hrun, by omega⟩)
  · refine Or.inr (Or.inl ⟨f, t', hrun, (h.rootFull_iff hsplit).2 ⟨⟨ies, hix, hlen'⟩, hfull64⟩, ?_⟩)
    intro he
    rw [hf he]

/-- A step keeps entries and separators small. -/
theorem SmallLayout.step {L' : Layout} {b : Bool} (h : SmallLayout L) (hput : PutStep e L b L')
    (hsize : e.size ≤ 60) (hkey : e.key.toBytes.length ≤ 9) : SmallLayout L' := by
  have hentries : ∀ x ∈ L'.scanAll, x.size ≤ 60 ∧ x.key.toBytes.length ≤ 9 := by
    intro x hx
    have := hput.scanAll_perm.mem_iff.1 hx
    split_ifs at this
    · rcases List.mem_cons.1 this with rfl | hx
      · exact ⟨hsize, hkey⟩
      · exact h.entries x hx
    · exact h.entries x this
  refine ⟨hentries, ?_⟩
  have hfirst : ∀ {pre post : Leaves} {leaf rest : List LeafEntry} {first : LeafEntry}
      {page x : PageId}, rightHalf leaf = first :: rest →
      L'.leaves = pre ++ (page, leftHalf leaf) :: (x, rightHalf leaf) :: post →
      first.key.toBytes.length ≤ 9 := by
    intro pre post leaf rest first page x hright hl
    refine (hentries first ?_).2
    rw [Layout.scanAll, hl, entries_halves, ← leftHalf_append_rightHalf leaf, hright]
    simp
  cases hput with
  | occupied hsplit hocc => exact h.index
  | inLeaf hsplit hocc hover => exact h.index
  | newRoot hsplit hocc hover hright hix =>
    intro ies hies i hi
    cases hies
    rcases List.mem_cons.1 hi with rfl | hi
    · show 1 ≤ 9
      omega
    · rw [List.mem_singleton.1 hi]
      exact hfirst hright rfl
  | newSeparator hsplit hocc hover hright hix hlen =>
    intro ies hies i hi
    cases hies
    rcases List.mem_cons.1 ((insertSeparator_perm _ _).mem_iff.1 hi) with rfl | hi
    · exact hfirst hright rfl
    · exact h.index _ hix i hi

end SmallStep

/-! ## Whole runs -/

/-- An entry of the runs considered here. -/
structure SmallEntry (e : LeafEntry) : Prop where
  size : e.size ≤ 60
  key : e.key.toBytes.length ≤ 9
  notNaN : e.key.isNaN = false

/-- At some call of the run the root is full. -/
def MeetsFullRoot (t : BTree) (es : List LeafEntry) : Prop :=
  ∃ pre e post, es = pre ++ e :: post ∧
    ∃ bs t', (BTree.putAll pre).run t = .ok bs t' ∧ t'.RootFull e.key

theorem meetsFullRoot_cons {t t₁ : BTree} {e : LeafEntry} {b : Bool} {es : List LeafEntry}
    (hput : (BTree.put e).run t = .ok b t₁) :
    MeetsFullRoot t (e :: es) ↔ t.RootFull e.key ∨ MeetsFullRoot t₁ es := by
  constructor
  · rintro ⟨pre, e', post, hes, bs, t', hrun, hfull⟩
    cases pre with
    | nil =>
      rw [List.nil_append, List.cons.injEq] at hes
      cases hrun
      rw [hes.1]
      exact Or.inl hfull
    | cons x pre =>
      rw [List.cons_append, List.cons.injEq] at hes
      obtain ⟨rfl, hes⟩ := hes
      obtain ⟨b', t₂, bs', hput', hrest, -⟩ := run_putAll_cons.1 hrun
      rw [hput] at hput'
      cases hput'
      exact Or.inr ⟨pre, e', post, hes, bs', t', hrest, hfull⟩
  · rintro (hfull | ⟨pre, e', post, hes, bs, t', hrun, hfull⟩)
    · exact ⟨[], e, es, rfl, [], t, rfl, hfull⟩
    · refine ⟨e :: pre, e', post, by rw [hes, List.cons_append], b :: bs, t', ?_, hfull⟩
      exact run_putAll_cons.2 ⟨b, t₁, bs, hput, hrun, rfl⟩

/-- A run of small entries with distinct keys succeeds and never meets a full root, or it fails at a
full root or for want of a page. Each call takes at most two pages. -/
theorem Rep.putAll_small {others : List PageId} {es : List LeafEntry}
    (hes : ∀ e ∈ es, SmallEntry e) {t : BTree} {L : Layout} {done : List (LeafEntry × Bool)}
    (hrep : Rep t L others) (hinv : DistinctInv done L) (hL : SmallLayout L)
    (hranks : DistinctRanks (done.map Prod.fst ++ es)) :
    (∃ bs t', (BTree.putAll es).run t = .ok bs t' ∧ ¬ MeetsFullRoot t es) ∨
    ∃ f t', (BTree.putAll es).run t = .error f t' ∧
      (f = Pager.extendFailed → t.pager.room ≤ 2 * es.length) ∧
      (f = Pager.extendFailed ∨ MeetsFullRoot t es) := by
  induction es generalizing t L done with
  | nil =>
    refine Or.inl ⟨[], t, rfl, ?_⟩
    rintro ⟨pre, e, post, hsplit, -⟩
    exact absurd hsplit (by simp)
  | cons e es ih =>
    have he := hes e List.mem_cons_self
    have hdone : DistinctRanks (e :: done.map Prod.fst) := by
      refine (hranks.sublist ?_).perm (List.perm_append_singleton e (done.map Prod.fst)).symm
      exact (List.singleton_sublist.2 List.mem_cons_self).append_left _
    have hfree : ¬ BTree.occupied e L.scanAll = true := by
      rw [occupied_eq_false fun x hx =>
        ((List.pairwise_cons.1 hdone).1 x (hinv.entries.mem_iff.1 hx)).symm]
      simp
    have herror : ∀ {f t'}, (BTree.put e).run t = .error f t' →
        (BTree.putAll (e :: es)).run t = .error f t' := by
      intro f t' hput
      rw [BTree.putAll, EStateM.run_bind, hput]
    rcases hrep.put_small hL he.size he.key hfree with ⟨t₁, hput, hnot⟩ | ⟨f, t', hput, hfull, hf⟩ |
      ⟨t', hput, hroom⟩
    -- the first row is stored, and the others go into the tree that holds it
    · obtain ⟨L₁, hstep, hrep₁, -, hroom, -⟩ := hrep.put_ok hput
      have hranks₁ : DistinctRanks ((done ++ [(e, true)]).map Prod.fst ++ es) := by
        rw [List.map_append, List.append_assoc]
        exact hranks
      rcases ih (fun x hx => hes x (List.mem_cons_of_mem _ hx)) hrep₁
        (hinv.step hrep.nodup_leafPages hstep he.notNaN hdone) (hL.step hstep he.size he.key)
        hranks₁ with ⟨bs, t', hrun, hmeets⟩ | ⟨f, t', hrun, hf, hwhy⟩
      · refine Or.inl ⟨true :: bs, t', run_putAll_cons.2 ⟨true, t₁, bs, hput, hrun, rfl⟩, ?_⟩
        rw [meetsFullRoot_cons hput]
        exact fun h => h.elim hnot hmeets
      · refine Or.inr ⟨f, t', ?_, ?_, ?_⟩
        · rw [BTree.putAll, EStateM.run_bind, hput]
          dsimp only
          rw [EStateM.run_bind, hrun]
        · intro he'
          have := hf he'
          rw [List.length_cons]
          omega
        · rw [meetsFullRoot_cons hput]
          exact hwhy.imp id Or.inr
    · refine Or.inr ⟨f, t', herror hput, fun he' => ?_, Or.inr ?_⟩
      · have := hf he'
        rw [List.length_cons]
        omega
      -- the first row itself meets the full root
      · exact ⟨[], e, es, rfl, [], t, rfl, hfull⟩
    · refine Or.inr ⟨_, t', herror hput, fun _ => ?_, Or.inl rfl⟩
      rw [List.length_cons]
      omega

/-- The hypotheses on the entries of a run. -/
structure Int64Run (es : List LeafEntry) : Prop where
  keys : ∀ e ∈ es, ∃ x, e.key = .int64 x
  sizes : ∀ e ∈ es, e.size ≤ 60
  distinct : DistinctKeys es

theorem Int64Run.small {es : List LeafEntry} (h : Int64Run es) : ∀ e ∈ es, SmallEntry e := by
  intro e he
  obtain ⟨x, hx⟩ := h.keys e he
  exact ⟨h.sizes e he, by rw [hx]; simp [Value.toBytes], by rw [hx]; rfl⟩

theorem smallLayout_empty (root : PageId) : SmallLayout (Layout.empty root) := by
  refine ⟨fun e he => absurd he List.not_mem_nil, fun ies hies => ?_⟩
  cases hies

/-- The two ways a run of small Int64 entries on a new tree can end. -/
theorem putAll_int64_cases {p : Pager} {live : List PageId} (hp : p.Owns live) {root : PageId}
    {t₀ : BTree} (hnew : BTree.createNew.run ⟨p, 0⟩ = .ok root t₀) {es : List LeafEntry}
    (hes : Int64Run es) :
    (∃ bs t', (BTree.putAll es).run t₀ = .ok bs t' ∧ ¬ MeetsFullRoot t₀ es) ∨
    ∃ f t', (BTree.putAll es).run t₀ = .error f t' ∧
      (f = Pager.extendFailed → t₀.pager.room ≤ 2 * es.length) ∧
      (f = Pager.extendFailed ∨ MeetsFullRoot t₀ es) :=
  Rep.putAll_small hes.small (rep_createNew hp hnew).1 (distinctInv_empty root)
    (smallLayout_empty root) (hes.distinct.ranks fun e he => (hes.small e he).notNaN)

/-- A pager that never fails to allocate: the run inserts everything exactly when no call of it meets
a root with 128 children and a leaf with 64 entries. -/
theorem putAll_int64_iff {p : Pager} {live : List PageId} (hp : p.Owns live) {root : PageId}
    {t₀ : BTree} (hnew : BTree.createNew.run ⟨p, 0⟩ = .ok root t₀) {es : List LeafEntry}
    (hes : Int64Run es)
    (halloc : ∀ t', (BTree.putAll es).run t₀ ≠ .error Pager.extendFailed t') :
    t₀.InsertsAll es ↔ ∀ pre e post, es = pre ++ e :: post →
      ∀ bs t, (BTree.putAll pre).run t₀ = .ok bs t → ¬ t.RootFull e.key := by
  have hnan : ∀ e ∈ es, e.key.isNaN = false := fun e he => (hes.small e he).notNaN
  have hmeets : (∀ pre e post, es = pre ++ e :: post →
      ∀ bs t, (BTree.putAll pre).run t₀ = .ok bs t → ¬ t.RootFull e.key) ↔
      ¬ MeetsFullRoot t₀ es := by
    constructor
    · rintro h ⟨pre, e, post, hsplit, bs, t, hrun, hfull⟩
      exact h pre e post hsplit bs t hrun hfull
    · intro h pre e post hsplit bs t hrun hfull
      exact h ⟨pre, e, post, hsplit, bs, t, hrun, hfull⟩
  rw [hmeets]
  constructor
  · rintro ⟨bs, t, hrun, -⟩
    rcases putAll_int64_cases hp hnew hes with ⟨bs', t', -, hnot⟩ | ⟨f, t', hrun', -⟩
    · exact hnot
    · rw [hrun'] at hrun
      cases hrun
  · intro hnot
    rcases putAll_int64_cases hp hnew hes with ⟨bs, t, hrun, -⟩ | ⟨f, t', hrun', -, rfl | hfull⟩
    · obtain ⟨L, hrep, hordered, hperm⟩ := rep_putAll_distinct hp hnew hrun hnan hes.distinct
      refine ⟨bs, t, hrun, ⟨L.scanAll, hrep.scanAll_eq, hperm⟩, ?_⟩
      intro e he txn visibleSeq hvis
      have hmem : e ∈ L.scanAll := hperm.mem_iff.2 he
      have hranks : DistinctRanks L.scanAll := (hes.distinct.ranks hnan).perm hperm
      obtain ⟨pre, leaf, post, hsplit⟩ := hrep.exists_leaf e.key
      rw [hrep.get_eq, hordered.get_eq hrep.nodup_leafPages (hnan e he) hsplit]
      -- the stored ranks are distinct, so a lookup of the key meets `e` alone
      have hlookup : BTree.lookup e.key txn visibleSeq L.scanAll = some e := by
        cases hfind : BTree.lookup e.key txn visibleSeq L.scanAll with
        | none =>
          rw [BTree.lookup, List.find?_eq_none] at hfind
          refine absurd ?_ (hfind e hmem)
          rw [hvis, Bool.and_true, Bool.not_eq_true',
            Value.operatorNe_eq_false_iff (hnan e he) (hnan e he)]
        | some e' =>
          have he' := List.mem_of_find?_eq_some hfind
          have hsat := List.find?_some hfind
          rw [Bool.and_eq_true, Bool.not_eq_true',
            Value.operatorNe_eq_false_iff (hordered.versions.keys e' he') (hnan e he)] at hsat
          rw [hranks.eq_of_rank_eq he' hmem hsat.1]
      rw [hlookup]
      rfl
    · exact absurd hrun' (halloc t')
    · exact absurd hfull hnot

/-! ## The limit -/

/-- A tree holds at most 128 leaves of 64 entries. -/
theorem Rep.length_scanAll_le {t : BTree} {L : Layout} {others : List PageId}
    (h : Rep t L others) : L.scanAll.length ≤ 8192 := by
  have hleaves : L.leaves.length ≤ 128 := by
    cases hix : L.index with
    | none =>
      obtain ⟨es, hl⟩ := h.leaves_eq_of_index_none hix
      rw [hl]
      simp
    | some ies =>
      have hok := (h.loadNode_root_of_index_some hix).2
      have hlen := hok.children.length_eq
      rw [List.length_map, Leaves.pages, List.length_map] at hlen
      rw [← hlen]
      exact hok.few
  have hsum : ∀ ls : Leaves, (∀ s ∈ ls, s.2.length ≤ 64) → ls.entries.length ≤ 64 * ls.length := by
    intro ls hls
    induction ls with
    | nil => simp
    | cons s ls ih =>
      have hs := hls s List.mem_cons_self
      have hrest := ih fun x hx => hls x (List.mem_cons_of_mem _ hx)
      rw [Leaves.entries_cons, List.length_append, List.length_cons]
      omega
  have := hsum L.leaves h.small
  rw [Layout.scanAll]
  omega

/-- Rows with the keys 0, 1, 2 and so on. -/
def ascending (n : Nat) : List LeafEntry :=
  (List.range n).map fun i => row (Int64.ofNat i) 1 1 false

theorem int64Run_ascending {n : Nat} (hn : n ≤ 2 ^ 53) : Int64Run (ascending n) := by
  refine ⟨?_, ?_, ?_⟩
  · intro e he
    obtain ⟨i, -, rfl⟩ := List.mem_map.1 he
    exact ⟨_, rfl⟩
  · intro e he
    obtain ⟨i, -, rfl⟩ := List.mem_map.1 he
    simp [row, LeafEntry.size, Value.toBytes, Tuple.length_encodeTuple_empty]
  · unfold DistinctKeys ascending
    rw [List.pairwise_map]
    refine List.Pairwise.imp_of_mem ?_ List.pairwise_lt_range
    intro a b _ hb hab heq
    have hb' := List.mem_range.1 hb
    have hlt := Value.rank_int64_lt hab (by omega)
    exact hlt.ne ((Value.compare_eq_eq_iff rfl rfl).1 heq)

/-- With enough pages left, a run of small Int64 entries never fails to allocate. -/
theorem putAll_int64_alloc {p : Pager} {live : List PageId} (hp : p.Owns live) {root : PageId}
    {t₀ : BTree} (hnew : BTree.createNew.run ⟨p, 0⟩ = .ok root t₀) {es : List LeafEntry}
    (hes : Int64Run es) (hroom : 2 * es.length < t₀.pager.room) :
    ∀ t', (BTree.putAll es).run t₀ ≠ .error Pager.extendFailed t' := by
  intro t' hrun
  rcases putAll_int64_cases hp hnew hes with ⟨bs, t, hrun', -⟩ | ⟨f, t, hrun', hf, -⟩
  · rw [hrun'] at hrun
    cases hrun
  · rw [hrun'] at hrun
    cases hrun
    have := hf rfl
    omega

/-- A new tree on a new file of 65536 pages. -/
theorem exists_new_tree : ∃ root t₀,
    BTree.createNew.run ⟨Pager.new 65536 (by decide), 0⟩ = .ok root t₀ ∧
      t₀.pager.room = 65534 := by
  have howns := Pager.owns_new (show 65536 < 2 ^ 32 by decide) (by decide)
  obtain ⟨root, t₀, hnew, hroom⟩ := exists_createNew howns (by rw [Pager.room_new]; decide) 0
  rw [Pager.room_new] at hroom
  exact ⟨root, t₀, hnew, by omega⟩

/-- Three rows in ascending order. -/
theorem putAll_int64_iff_three : ∃ root t₀,
    BTree.createNew.run ⟨Pager.new 65536 (by decide), 0⟩ = .ok root t₀ ∧
      (t₀.InsertsAll (ascending 3) ↔ ∀ pre e post, ascending 3 = pre ++ e :: post →
        ∀ bs t, (BTree.putAll pre).run t₀ = .ok bs t → ¬ t.RootFull e.key) := by
  have howns := Pager.owns_new (show 65536 < 2 ^ 32 by decide) (by decide)
  obtain ⟨root, t₀, hnew, hroom⟩ := exists_new_tree
  have hes : Int64Run (ascending 3) := int64Run_ascending (by norm_num)
  refine ⟨root, t₀, hnew, putAll_int64_iff howns hnew hes (putAll_int64_alloc howns hnew hes ?_)⟩
  rw [hroom]
  decide

/-- 8193 rows in ascending order on a file with room for far more pages than they need: not all of
them go in. -/
theorem not_insertsAll_ascending : ∃ root t₀,
    BTree.createNew.run ⟨Pager.new 65536 (by decide), 0⟩ = .ok root t₀ ∧
      Int64Run (ascending 8193) ∧
      (∀ t', (BTree.putAll (ascending 8193)).run t₀ ≠ .error Pager.extendFailed t') ∧
      ¬ t₀.InsertsAll (ascending 8193) := by
  have howns := Pager.owns_new (show 65536 < 2 ^ 32 by decide) (by decide)
  obtain ⟨root, t₀, hnew, hroom⟩ := exists_new_tree
  have hes : Int64Run (ascending 8193) := int64Run_ascending (by norm_num)
  have hlen : (ascending 8193).length = 8193 := by
    rw [ascending, List.length_map, List.length_range]
  refine ⟨root, t₀, hnew, hes, putAll_int64_alloc howns hnew hes (by omega), ?_⟩
  rintro ⟨bs, t, hrun, -⟩
  obtain ⟨L, hrep, -, hperm⟩ := rep_putAll_distinct howns hnew hrun
    (fun e he => (hes.small e he).notNaN) hes.distinct
  have hcount := hrep.length_scanAll_le
  rw [hperm.length_eq, hlen] at hcount
  omega

end OpenDB
