import OpenDB.Storage.Insertion

/-!
# Runs of `put`

A run is a sequence of `put` calls on a tree that `createNew` has just made. `putAll_induct` is
the rule for runs: what holds of the layout of a new tree and is kept by every `PutStep` holds of the
layout a run ends in. With it, `scanAll_putAll` says that nothing is lost and nothing is duplicated:
a scan of all entries yields those whose `put` returned true, and the leaf chain visits every leaf
once.
-/

set_option autoImplicit false

namespace OpenDB

open OpenDB.Library

namespace BTree

/-- The calls of a run, one after the other, with what they return. -/
def putAll : List LeafEntry → EStateM Fault BTree (List Bool)
  | [] => return []
  | e :: es => do
    let b ← put e
    let bs ← putAll es
    return b :: bs

/-- A page that the root leads to through children. -/
inductive Reachable (t : BTree) : PageId → Prop where
  | root : Reachable t t.rootPageId
  | child {id : PageId} {n : Node} {e : InternalEntry} (hid : Reachable t id)
      (hload : loadNode t.pager id = .ok n) (htype : n.hdr.type = .internal)
      (hmem : e ∈ n.internal) : Reachable t e.child

/-- A leaf of the tree. -/
def IsLeaf (t : BTree) (id : PageId) : Prop :=
  t.Reachable id ∧ ∃ n, loadNode t.pager id = .ok n ∧ n.hdr.type = .leaf

end BTree

/-- The entries whose `put` returned true. -/
def accepted (es : List LeafEntry) (bs : List Bool) : List LeafEntry :=
  ((es.zip bs).filter Prod.snd).map Prod.fst

/-- The layout of a tree without entries. -/
def Layout.empty (root : PageId) : Layout := ⟨none, [(root, [])]⟩

/-- A new tree is empty. -/
theorem rep_createNew {p : Pager} {live : List PageId} (hp : p.Owns live) {root root' : PageId}
    {t : BTree} (h : BTree.createNew.run ⟨p, root'⟩ = .ok root t) :
    Rep t (Layout.empty root) live ∧ t.rootPageId = root ∧ p.Frame t.pager [root] ∧
      root ∉ live ∧ t.pager.room + 1 = p.room := by
  rw [BTree.createNew, EStateM.run_bind] at h
  rcases BTree.newPage_cases (t := ⟨p, root'⟩) hp .leaf (Or.inl rfl) with ⟨-, hrun⟩ | ⟨x, t₁, hrun,
    howns, hload, hframe, hroom, -⟩
  · rw [hrun] at h
    cases h
  · rw [hrun] at h
    cases h
    refine ⟨⟨⟨hload, trivial⟩, rfl, ?_, howns⟩, rfl, hframe, ?_, hroom⟩
    · intro s hs
      rw [List.mem_singleton.1 hs]
      exact Nat.zero_le _
    · exact (List.nodup_cons.1 (List.nodup_append.1 howns.nodup).2.1).1

/-- A new tree can be made while there is room for a page. -/
theorem exists_createNew {p : Pager} {live : List PageId} (hp : p.Owns live) (hroom : p.room ≠ 0)
    (root' : PageId) :
    ∃ root t, BTree.createNew.run ⟨p, root'⟩ = .ok root t ∧ t.pager.room + 1 = p.room := by
  rcases BTree.newPage_cases (t := ⟨p, root'⟩) hp .leaf (Or.inl rfl) with ⟨hfull, -⟩ | ⟨x, t₁, hrun,
    -, -, -, hroom', -⟩
  · exact absurd hfull hroom
  · refine ⟨x, { t₁ with rootPageId := x }, ?_, hroom'⟩
    rw [BTree.createNew, EStateM.run_bind, hrun]
    rfl

theorem run_putAll_cons {t t' : BTree} {e : LeafEntry} {es : List LeafEntry} {bs : List Bool} :
    (BTree.putAll (e :: es)).run t = .ok bs t' ↔
      ∃ b t₁ bs', (BTree.put e).run t = .ok b t₁ ∧ (BTree.putAll es).run t₁ = .ok bs' t' ∧
        bs = b :: bs' := by
  rw [BTree.putAll, run_bind_eq_ok]
  constructor
  · rintro ⟨b, t₁, hput, hrest⟩
    obtain ⟨bs', t₂, hrun, hpure⟩ := run_bind_eq_ok.1 hrest
    cases hpure
    exact ⟨b, t₁, bs', hput, hrun, rfl⟩
  · rintro ⟨b, t₁, bs', hput, hrun, rfl⟩
    exact ⟨b, t₁, hput, run_bind_eq_ok.2 ⟨bs', t', hrun, rfl⟩⟩

/-- A call on a tree of one leaf, when the entry fits. -/
theorem Rep.put_one_leaf {t : BTree} {root : PageId} {es : List LeafEntry} {others : List PageId}
    (h : Rep t ⟨none, [(root, es)]⟩ others) {e : LeafEntry}
    (hover : ¬ Overflows (BTree.insertEntry e es)) :
    ∃ t', (BTree.put e).run t = .ok (!BTree.occupied e es) t' ∧
      Rep t' ⟨none, [(root, if BTree.occupied e es then es else BTree.insertEntry e es)]⟩ others ∧
      t'.pager.room = t.pager.room := by
  have hsplit : (⟨none, [(root, es)]⟩ : Layout).leaves =
      [] ++ ((⟨none, [(root, es)]⟩ : Layout).target e.key, es) :: [] := rfl
  cases hocc : BTree.occupied e es with
  | true => exact ⟨t, h.put_occupied hsplit hocc, h, rfl⟩
  | false =>
    obtain ⟨t', hrun, hrep, -, -, hroom⟩ := h.put_in_leaf hsplit (by simp [hocc]) hover
    exact ⟨t', hrun, hrep, hroom⟩

/-- The only leaf is the one that a split of the chain finds. -/
theorem Leaves.eq_of_singleton {pre post : Leaves} {es zs : List LeafEntry} {root target : PageId}
    (h : [(root, es)] = pre ++ (target, zs) :: post) :
    pre = [] ∧ post = [] ∧ target = root ∧ zs = es := by
  cases pre with
  | nil =>
    cases h
    exact ⟨rfl, rfl, rfl, rfl⟩
  | cons p pre =>
    have hlength := congrArg List.length h
    simp at hlength

/-- A call on a tree of one leaf, when the leaf has to be split and its halves fit. -/
theorem Rep.put_split_leaf {t : BTree} {root : PageId} {es : List LeafEntry} {others : List PageId}
    (h : Rep t ⟨none, [(root, es)]⟩ others) {e : LeafEntry} (hocc : ¬ BTree.occupied e es = true)
    (hover : Overflows (BTree.insertEntry e es)) (hroom : 2 ≤ t.pager.room)
    (hleft : approxBytes (leftHalf (BTree.insertEntry e es)) ≤ 4080)
    (hright : approxBytes (rightHalf (BTree.insertEntry e es)) ≤ 4080) :
    ∃ t' x first rest, (BTree.put e).run t = .ok true t' ∧
      rightHalf (BTree.insertEntry e es) = first :: rest ∧
      Rep t' ⟨some [⟨.null, root⟩, ⟨first.key, x⟩], [(root, leftHalf (BTree.insertEntry e es)),
        (x, rightHalf (BTree.insertEntry e es))]⟩ others ∧
      t.pager.room ≤ t'.pager.room + 2 := by
  have hsplit : (⟨none, [(root, es)]⟩ : Layout).leaves =
      [] ++ ((⟨none, [(root, es)]⟩ : Layout).target e.key, es) :: [] := rfl
  rcases h.put_halves_cases hsplit hocc hover (by omega) hleft hright with
    ⟨t', L', hrun, hstep, hrep, -, hroom', -⟩ | ⟨t', -, ies, x, first, hix, -⟩ | ⟨t', -, -, hone⟩ |
    ⟨f, t', -, -, ies, hix, -⟩
  · cases hstep with
    | inLeaf hsplit' hocc' hover' =>
      obtain ⟨-, -, -, rfl⟩ := Leaves.eq_of_singleton hsplit'
      exact absurd hover hover'
    | @newRoot pre post es' rest first x hsplit' hocc' hover' hright' hix' =>
      obtain ⟨rfl, rfl, htarget, rfl⟩ := Leaves.eq_of_singleton hsplit'
      rw [htarget] at hrep
      exact ⟨t', x, first, rest, hrun, hright', hrep, hroom'⟩
    | newSeparator hsplit' hocc' hover' hright' hix' hlen' => cases hix'
  · cases hix
  · omega
  · cases hix

/-! ## Runs on one leaf -/

/-- The leaf takes all of the entries without being split. -/
def LeafTakes (es ps : List LeafEntry) : Prop :=
  es.length + ps.length ≤ 64 ∧ approxBytes es + approxBytes ps ≤ 4024

instance (es ps : List LeafEntry) : Decidable (LeafTakes es ps) := inferInstanceAs (Decidable (_ ∧ _))

/-- What a run leaves on such a leaf. -/
def leafAfter (es : List LeafEntry) : List LeafEntry → List LeafEntry
  | [] => es
  | e :: ps => leafAfter (if BTree.occupied e es then es else BTree.insertEntry e es) ps

theorem approxBytes_cons (e : LeafEntry) (es : List LeafEntry) :
    approxBytes (e :: es) = e.size + approxBytes es := by
  simp [approxBytes]

theorem approxBytes_insertEntry (e : LeafEntry) (es : List LeafEntry) :
    approxBytes (BTree.insertEntry e es) = e.size + approxBytes es := by
  rw [← approxBytes_cons]
  exact ((insertEntry_perm e es).map _).sum_eq

theorem mem_insertEntry {x e : LeafEntry} {es : List LeafEntry} :
    x ∈ BTree.insertEntry e es ↔ x = e ∨ x ∈ es :=
  List.mem_orderedInsert _

theorem LeafTakes.cons {e : LeafEntry} {es ps : List LeafEntry} (h : LeafTakes es (e :: ps)) :
    ¬ Overflows (BTree.insertEntry e es) ∧
      LeafTakes (if BTree.occupied e es then es else BTree.insertEntry e es) ps := by
  obtain ⟨hlen, hbytes⟩ := h
  rw [List.length_cons] at hlen
  rw [approxBytes_cons] at hbytes
  have hcount := length_insertEntry e es
  have hsize := approxBytes_insertEntry e es
  constructor
  · rw [Overflows]
    omega
  · rw [LeafTakes]
    split_ifs <;> omega

theorem mem_leafAfter {es ps : List LeafEntry} {y : LeafEntry} (hy : y ∈ leafAfter es ps) :
    y ∈ es ∨ y ∈ ps := by
  induction ps generalizing es with
  | nil => exact Or.inl hy
  | cons e ps ih =>
    rcases ih hy with hy | hy
    · split_ifs at hy
      · exact Or.inl hy
      · exact (mem_insertEntry.1 hy).elim (fun h => Or.inr (h ▸ List.mem_cons_self)) Or.inl
    · exact Or.inr (List.mem_cons_of_mem _ hy)

theorem length_leafAfter_le (es ps : List LeafEntry) :
    (leafAfter es ps).length ≤ es.length + ps.length := by
  induction ps generalizing es with
  | nil => exact Nat.le_refl _
  | cons e ps ih =>
    have hrest := ih (if BTree.occupied e es then es else BTree.insertEntry e es)
    have hcount := length_insertEntry e es
    rw [leafAfter, List.length_cons]
    split_ifs at hrest ⊢ <;> omega

/-- A run whose entries fit one leaf succeeds. -/
theorem Rep.putAll_one_leaf {root : PageId} {others : List PageId} {es ps : List LeafEntry} {t : BTree}
    (h : Rep t ⟨none, [(root, es)]⟩ others) (htakes : LeafTakes es ps) :
    ∃ bs t', (BTree.putAll ps).run t = .ok bs t' ∧
      Rep t' ⟨none, [(root, leafAfter es ps)]⟩ others ∧ t'.pager.room = t.pager.room := by
  induction ps generalizing t es with
  | nil => exact ⟨[], t, rfl, h, rfl⟩
  | cons e ps ih =>
    obtain ⟨hover, hrest⟩ := htakes.cons
    obtain ⟨t₁, hput, hrep, hroom⟩ := h.put_one_leaf hover
    obtain ⟨bs, t', hrun, hrep', hroom'⟩ := ih hrep hrest
    exact ⟨_, t', run_putAll_cons.2 ⟨_, t₁, bs, hput, hrun, rfl⟩, hrep', hroom'.trans hroom⟩

/-! ## Runs of any length -/

/-- The rule for runs. `Inv` relates the calls made so far, with what they returned, to the
layout; `all` are the calls of the whole run. -/
theorem Rep.putAll_induct (Inv : List (LeafEntry × Bool) → Layout → Prop) {others : List PageId}
    {all : List LeafEntry}
    (hstep : ∀ done e rest L b L', done.map Prod.fst ++ e :: rest = all → L.leaves.pages.Nodup →
      Inv done L → PutStep e L b L' → Inv (done ++ [(e, b)]) L')
    {t t' : BTree} {L : Layout} {es : List LeafEntry} {bs : List Bool}
    {done : List (LeafEntry × Bool)} (hall : done.map Prod.fst ++ es = all)
    (hrep : Rep t L others) (hinv : Inv done L) (hrun : (BTree.putAll es).run t = .ok bs t') :
    ∃ L', Rep t' L' others ∧ Inv (done ++ es.zip bs) L' ∧ bs.length = es.length := by
  induction es generalizing t L bs done with
  | nil =>
    cases hrun
    exact ⟨L, hrep, by simpa using hinv, rfl⟩
  | cons e es ih =>
    obtain ⟨b, t₁, bs', hput, hrest, rfl⟩ := run_putAll_cons.1 hrun
    obtain ⟨L₁, hput₁, hrep₁, -⟩ := hrep.put_ok hput
    have hall' : (done ++ [(e, b)]).map Prod.fst ++ es = all := by
      rw [← hall]
      simp
    obtain ⟨L', hrep', hinv', hlen⟩ := ih hall' hrep₁
      (hstep done e es L b L₁ hall hrep.nodup_leafPages hinv hput₁) hrest
    refine ⟨L', hrep', ?_, by rw [List.length_cons, hlen, List.length_cons]⟩
    rw [List.append_assoc] at hinv'
    exact hinv'

/-- The rule for runs on a new tree. -/
theorem putAll_induct (Inv : List (LeafEntry × Bool) → Layout → Prop) {p : Pager}
    {live : List PageId} (hp : p.Owns live) {root : PageId} {t₀ t : BTree}
    (hnew : BTree.createNew.run ⟨p, 0⟩ = .ok root t₀) {es : List LeafEntry} {bs : List Bool}
    (hrun : (BTree.putAll es).run t₀ = .ok bs t) (hempty : Inv [] (Layout.empty root))
    (hstep : ∀ done e rest L b L', done.map Prod.fst ++ e :: rest = es → L.leaves.pages.Nodup →
      Inv done L → PutStep e L b L' → Inv (done ++ [(e, b)]) L') :
    ∃ L, Rep t L live ∧ Inv (es.zip bs) L ∧ bs.length = es.length :=
  Rep.putAll_induct Inv hstep (show ([] : List (LeafEntry × Bool)).map Prod.fst ++ es = es from rfl)
    (rep_createNew hp hnew).1 hempty hrun

/-! ## Nothing lost, nothing duplicated -/

/-- A step adds the entry when it returns true, and nothing else. -/
theorem PutStep.scanAll_perm {e : LeafEntry} {L L' : Layout} {b : Bool} (h : PutStep e L b L') :
    L'.scanAll.Perm (if b then e :: L.scanAll else L.scanAll) := by
  have hmiddle : ∀ (pre post : Leaves) (page : PageId) (es : List LeafEntry),
      L.leaves = pre ++ (page, es) :: post →
      (pre.entries ++ (BTree.insertEntry e es ++ post.entries)).Perm (e :: L.scanAll) := by
    intro pre post page es hsplit
    have hall : L.scanAll = pre.entries ++ (es ++ post.entries) := by
      rw [Layout.scanAll, hsplit, Leaves.entries_append, Leaves.entries_cons]
    rw [hall]
    have hins : (BTree.insertEntry e es ++ post.entries).Perm (e :: (es ++ post.entries)) :=
      (insertEntry_perm e es).append_right _
    exact (hins.append_left _).trans List.perm_middle
  cases h with
  | occupied hsplit hocc => exact List.Perm.refl _
  | inLeaf hsplit hocc hover =>
    have := hmiddle _ _ _ _ hsplit
    simpa [Layout.scanAll] using this
  | newRoot hsplit hocc hover hright hix =>
    have := hmiddle _ _ _ _ hsplit
    rw [if_pos rfl, Layout.scanAll, entries_halves]
    exact this
  | newSeparator hsplit hocc hover hright hix hlen =>
    have := hmiddle _ _ _ _ hsplit
    rw [if_pos rfl, Layout.scanAll, entries_halves]
    exact this

/-- The leaves of a represented tree are the pages of its chain. -/
theorem Rep.isLeaf_iff {t : BTree} {L : Layout} {others : List PageId} (h : Rep t L others)
    (id : PageId) : t.IsLeaf id ↔ id ∈ L.leaves.pages := by
  have hleaf : ∀ x ∈ L.leaves.pages,
      ∃ sibling es, BTree.loadNode t.pager x = .ok (Node.ofLeaf sibling es) := by
    intro x hx
    obtain ⟨s, hs, rfl⟩ := List.mem_map.1 hx
    obtain ⟨pre, post, hsplit⟩ := List.append_of_mem hs
    exact ⟨Leaves.first post 0, s.2, h.loadNode_leaf (show L.leaves = pre ++ (s.1, s.2) :: post
      from hsplit)⟩
  -- everything reachable is the root or a leaf of the chain
  have hreach : ∀ {id}, t.Reachable id → id = t.rootPageId ∨ id ∈ L.leaves.pages := by
    intro id hr
    induction hr with
    | root => exact Or.inl rfl
    | @child id n e hid hload htype hmem ih =>
      right
      have hnotLeaf : ∀ x ∈ L.leaves.pages, BTree.loadNode t.pager x ≠ .ok n := by
        intro x hx hx'
        obtain ⟨sibling, es, hl⟩ := hleaf x hx
        rw [hl] at hx'
        cases hx'
        cases htype
      rcases ih with rfl | ih
      · cases hix : L.index with
        | none =>
          obtain ⟨es, hl⟩ := h.leaves_eq_of_index_none hix
          exact absurd hload (hnotLeaf _ (by rw [hl]; simp))
        | some ies =>
          obtain ⟨hroot, hok⟩ := h.loadNode_root_of_index_some hix
          rw [hroot] at hload
          cases hload
          exact hok.children.mem_iff.1 (List.mem_map_of_mem hmem)
      · exact absurd hload (hnotLeaf _ ih)
  constructor
  · rintro ⟨hr, n, hload, htype⟩
    rcases hreach hr with rfl | hmem
    · cases hix : L.index with
      | none =>
        obtain ⟨es, hl⟩ := h.leaves_eq_of_index_none hix
        rw [hl]
        simp
      | some ies =>
        rw [(h.loadNode_root_of_index_some hix).1] at hload
        cases hload
        cases htype
    · exact hmem
  · intro hmem
    obtain ⟨sibling, es, hload⟩ := hleaf id hmem
    refine ⟨?_, _, hload, rfl⟩
    cases hix : L.index with
    | none =>
      obtain ⟨es', hl⟩ := h.leaves_eq_of_index_none hix
      rw [hl, Leaves.pages_cons, Leaves.pages_nil, List.mem_singleton] at hmem
      rw [hmem]
      exact .root
    | some ies =>
      obtain ⟨hroot, hok⟩ := h.loadNode_root_of_index_some hix
      obtain ⟨ie, hie, rfl⟩ := List.mem_map.1 (hok.children.mem_iff.2 hmem)
      exact .child .root hroot rfl hie

theorem accepted_append {done : List (LeafEntry × Bool)} {e : LeafEntry} {b : Bool} :
    (((done ++ [(e, b)]).filter Prod.snd).map Prod.fst).Perm
      (if b then e :: (done.filter Prod.snd).map Prod.fst else (done.filter Prod.snd).map Prod.fst)
    := by
  rw [List.filter_append, List.map_append]
  cases b with
  | false => simp
  | true => exact List.perm_append_singleton e ((done.filter Prod.snd).map Prod.fst)

/-- Nothing is lost and nothing is duplicated: after a run without a fault, a scan of all entries
yields exactly those whose `put` returned true, and the leaf chain has no cycle and visits every leaf
once. -/
theorem scanAll_putAll {p : Pager} {live : List PageId} (hp : p.Owns live) {root : PageId}
    {t₀ t : BTree} (hnew : BTree.createNew.run ⟨p, 0⟩ = .ok root t₀) {es : List LeafEntry}
    {bs : List Bool} (hrun : (BTree.putAll es).run t₀ = .ok bs t) :
    (∃ all, t.scanAll = .ok all ∧ all.Perm (accepted es bs)) ∧
      ∃ chain, t.leafChain = .ok chain ∧ (chain.map Prod.fst).Nodup ∧
        ∀ id, id ∈ chain.map Prod.fst ↔ t.IsLeaf id := by
  obtain ⟨L, hrep, hperm, -⟩ := putAll_induct
    (fun done L => L.scanAll.Perm ((done.filter Prod.snd).map Prod.fst)) hp hnew hrun
    (List.Perm.refl _) (by
      intro done e rest L b L' _ _ hinv hput
      refine hput.scanAll_perm.trans (List.Perm.trans ?_ accepted_append.symm)
      split_ifs
      · exact hinv.cons e
      · exact hinv)
  refine ⟨⟨L.scanAll, hrep.scanAll_eq, hperm⟩, L.leaves, hrep.leafChain_eq, hrep.nodup_leafPages, ?_⟩
  intro id
  exact (hrep.isLeaf_iff id).symm

/-- A version without columns. -/
def row (key : Int64) (commitSeq txnId : UInt64) (tombstone : Bool) : LeafEntry :=
  ⟨.int64 key, commitSeq, txnId, tombstone, Tuple.empty⟩

/-- Two writes to one position: the second is not accepted. -/
theorem scanAll_putAll_twice :
    ∃ p root t₀ t bs, Pager.Owns p [] ∧ BTree.createNew.run ⟨p, 0⟩ = .ok root t₀ ∧
      (BTree.putAll [row 7 3 1 false, row 7 3 1 true]).run t₀ = .ok bs t ∧
      (∃ all, t.scanAll = .ok all ∧
        all.Perm (accepted [row 7 3 1 false, row 7 3 1 true] bs)) ∧
      ∃ chain, t.leafChain = .ok chain ∧ (chain.map Prod.fst).Nodup ∧
        ∀ id, id ∈ chain.map Prod.fst ↔ t.IsLeaf id := by
  have howns := Pager.owns_new (show 16 < 2 ^ 32 by decide) (by decide)
  obtain ⟨root, t₀, hnew, -⟩ := exists_createNew howns (by rw [Pager.room_new]; decide) 0
  obtain ⟨bs, t, hrun, -⟩ := (rep_createNew howns hnew).1.putAll_one_leaf
    (show LeafTakes [] [row 7 3 1 false, row 7 3 1 true] by decide)
  exact ⟨_, root, t₀, t, bs, howns, hnew, hrun, scanAll_putAll howns hnew hrun⟩

end OpenDB
