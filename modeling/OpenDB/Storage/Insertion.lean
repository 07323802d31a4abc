import OpenDB.Storage.Split

/-!
# What `put` does to a layout

One theorem per way a `put` on a represented tree can end: the position is taken, the leaf has room,
the leaf is split and the root gets a separator, the leaf is the root and a new root is made, and the
ways to fail. `PutStep` is what a successful call does to the layout, and `Rep.put_ok` says that the
code does nothing else.
-/

set_option autoImplicit false

namespace OpenDB

open OpenDB.Library

section Put

variable {t : BTree} {L : Layout} {others : List PageId} {pre post : Leaves} {e : LeafEntry}
  {es : List LeafEntry}

/-- `put` past the descent. -/
theorem run_put_of_leaf {page sibling : PageId} (hfind : t.findLeaf e.key = .ok page)
    (hload : BTree.loadNode t.pager page = .ok (Node.ofLeaf sibling es)) (hsmall : es.length ≤ 64) :
    (BTree.put e).run t =
      (if BTree.occupied e es = true then return false
      else if Overflows (BTree.insertEntry e es) then do
        let (newRight, promotedKey) ← BTree.splitLeaf page
          ⟨.leaf, UInt16.ofNat es.length + 1, sibling⟩ (BTree.insertEntry e es)
        BTree.insertIntoParent page promotedKey newRight
        return true
      else do
        BTree.saveNode page (Node.ofLeaf sibling (BTree.insertEntry e es))
        return true : EStateM Fault BTree Bool).run t := by
  have hfind : (reading fun t : BTree => t.findLeaf e.key).run t = .ok page t :=
    run_reading_ok hfind
  have hload : (reading fun s : BTree => BTree.loadNode s.pager page).run t =
      .ok (Node.ofLeaf sibling es) t := run_reading_ok hload
  rw [BTree.put, EStateM.run_bind, hfind]
  dsimp only
  rw [EStateM.run_bind, hload]
  dsimp only [Node.ofLeaf]
  by_cases hocc : BTree.occupied e es = true
  · rw [if_pos hocc, if_pos hocc]
  · rw [if_neg hocc, if_neg hocc]
    by_cases hover : Overflows (BTree.insertEntry e es)
    · rw [if_pos hover, if_pos ((overflows_iff hsmall).2 hover)]
    · rw [if_neg hover, if_neg (fun hc => hover ((overflows_iff hsmall).1 hc)),
        ofLeaf_insertEntry]
      rfl

/-- `put` past the descent of a tree whose root leads to its leaves. -/
theorem Linked.run_put (h : Linked t L others) (hsplit : L.leaves = pre ++ (L.target e.key, es) :: post) :
    (BTree.put e).run t =
      (if BTree.occupied e es = true then return false
      else if Overflows (BTree.insertEntry e es) then do
        let (newRight, promotedKey) ← BTree.splitLeaf (L.target e.key)
          ⟨.leaf, UInt16.ofNat es.length + 1, post.first 0⟩ (BTree.insertEntry e es)
        BTree.insertIntoParent (L.target e.key) promotedKey newRight
        return true
      else do
        BTree.saveNode (L.target e.key) (Node.ofLeaf (post.first 0) (BTree.insertEntry e es))
        return true : EStateM Fault BTree Bool).run t :=
  run_put_of_leaf (h.findLeaf_eq e.key) (h.loadNode_leaf hsplit)
    (h.small (L.target e.key, es) (by rw [hsplit]; simp))

/-- `put` on a represented tree. -/
theorem Rep.run_put (h : Rep t L others) (hsplit : L.leaves = pre ++ (L.target e.key, es) :: post) :
    (BTree.put e).run t =
      (if BTree.occupied e es = true then return false
      else if Overflows (BTree.insertEntry e es) then do
        let (newRight, promotedKey) ← BTree.splitLeaf (L.target e.key)
          ⟨.leaf, UInt16.ofNat es.length + 1, post.first 0⟩ (BTree.insertEntry e es)
        BTree.insertIntoParent (L.target e.key) promotedKey newRight
        return true
      else do
        BTree.saveNode (L.target e.key) (Node.ofLeaf (post.first 0) (BTree.insertEntry e es))
        return true : EStateM Fault BTree Bool).run t :=
  h.linked.run_put hsplit

theorem Rep.put_occupied (h : Rep t L others)
    (hsplit : L.leaves = pre ++ (L.target e.key, es) :: post)
    (hocc : BTree.occupied e es = true) : (BTree.put e).run t = .ok false t := by
  rw [h.run_put hsplit, if_pos hocc]
  rfl

/-- The leaf has room: the entry goes in, and nothing else changes. -/
theorem Rep.put_in_leaf (h : Rep t L others)
    (hsplit : L.leaves = pre ++ (L.target e.key, es) :: post)
    (hocc : ¬ BTree.occupied e es = true) (hover : ¬ Overflows (BTree.insertEntry e es)) :
    ∃ t', (BTree.put e).run t = .ok true t' ∧
      Rep t' { L with leaves := pre ++ (L.target e.key, BTree.insertEntry e es) :: post } others ∧
      t.pager.Frame t'.pager [L.target e.key] ∧ t'.rootPageId = t.rootPageId ∧
      t'.pager.room = t.pager.room := by
  have hrange := h.range_leaf (h.target_mem e.key)
  rw [Overflows, not_or, not_lt, not_lt] at hover
  have hfits : (Node.ofLeaf (post.first 0) (BTree.insertEntry e es)).Fits :=
    Node.fits_ofLeaf_iff.2 (by omega)
  refine ⟨t.withNode (L.target e.key) (Node.ofLeaf (post.first 0) (BTree.insertEntry e es)), ?_,
    h.withLeaf hsplit hover.1 hfits, Pager.frame_withPage h.owns.backed hrange.1 hrange.2, rfl,
    Pager.room_withPage h.owns.backed hrange.2⟩
  have hnot : ¬ Overflows (BTree.insertEntry e es) := by
    rw [Overflows]
    omega
  rw [h.run_put hsplit, if_neg hocc, if_neg hnot, EStateM.run_bind,
    BTree.run_saveNode hrange.1 hrange.2 hfits]
  rfl

/-- `put` on a leaf that overflows. -/
theorem Rep.run_put_overflow (h : Rep t L others)
    (hsplit : L.leaves = pre ++ (L.target e.key, es) :: post)
    (hocc : ¬ BTree.occupied e es = true) (hover : Overflows (BTree.insertEntry e es)) :
    (BTree.put e).run t =
      (do
        let (newRight, promotedKey) ← BTree.splitLeaf (L.target e.key)
          ⟨.leaf, UInt16.ofNat es.length + 1, post.first 0⟩ (BTree.insertEntry e es)
        BTree.insertIntoParent (L.target e.key) promotedKey newRight
        return true : EStateM Fault BTree Bool).run t := by
  rw [h.run_put hsplit, if_neg hocc, if_pos hover]

theorem Linked.length_insert_le (h : Linked t L others)
    (hsplit : L.leaves = pre ++ (L.target e.key, es) :: post) :
    (BTree.insertEntry e es).length ≤ 65 := by
  have hsmall : es.length ≤ 64 := h.small (L.target e.key, es) (by rw [hsplit]; simp)
  rw [length_insertEntry]
  omega

theorem Rep.length_insert_le (h : Rep t L others)
    (hsplit : L.leaves = pre ++ (L.target e.key, es) :: post) :
    (BTree.insertEntry e es).length ≤ 65 :=
  h.linked.length_insert_le hsplit

/-- No page can be allocated: nothing has been written. -/
theorem Rep.put_no_page (h : Rep t L others)
    (hsplit : L.leaves = pre ++ (L.target e.key, es) :: post)
    (hocc : ¬ BTree.occupied e es = true) (hover : Overflows (BTree.insertEntry e es))
    (hroom : t.pager.room = 0) : (BTree.put e).run t = .error Pager.extendFailed t := by
  rw [h.run_put_overflow hsplit hocc hover, EStateM.run_bind]
  rcases h.splitLeaf_cases hsplit (UInt16.ofNat es.length + 1) (insertEntry_ne_nil e es)
      (h.length_insert_le hsplit) with
    ⟨-, hrun⟩ | ⟨hpos, -⟩ | ⟨hpos, -⟩ | ⟨hpos, -⟩
  · rw [hrun]
  · exact absurd hroom hpos
  · exact absurd hroom hpos
  · exact absurd hroom hpos

/-- The left half does not fit its page: the tree is as it was, next to a page that is lost. -/
theorem Rep.put_left_too_big (h : Rep t L others)
    (hsplit : L.leaves = pre ++ (L.target e.key, es) :: post)
    (hocc : ¬ BTree.occupied e es = true) (hover : Overflows (BTree.insertEntry e es))
    (hroom : t.pager.room ≠ 0) (hleft : 4080 < approxBytes (leftHalf (BTree.insertEntry e es))) :
    ∃ f x t', (BTree.put e).run t = .error f t' ∧
      encodeNode (Node.ofLeaf x (leftHalf (BTree.insertEntry e es))) = .error f ∧
      Rep t' L (x :: others) ∧ t.pager.Frame t'.pager [x] := by
  rw [h.run_put_overflow hsplit hocc hover, EStateM.run_bind]
  rcases h.splitLeaf_cases hsplit (UInt16.ofNat es.length + 1) (insertEntry_ne_nil e es)
      (h.length_insert_le hsplit) with
    ⟨hfull, -⟩ | ⟨-, -, f, x, t', hrun, henc, hrep, hframe⟩ | ⟨-, hfits, -⟩ | ⟨-, hfits, -⟩
  · exact absurd hfull hroom
  · exact ⟨f, x, t', by rw [hrun], henc, hrep, hframe⟩
  · omega
  · omega

/-- The right half does not fit its page: the left half has been written and the rest of the chain
is cut off. -/
theorem Rep.put_right_too_big (h : Rep t L others)
    (hsplit : L.leaves = pre ++ (L.target e.key, es) :: post)
    (hocc : ¬ BTree.occupied e es = true) (hover : Overflows (BTree.insertEntry e es))
    (hroom : t.pager.room ≠ 0) (hleft : approxBytes (leftHalf (BTree.insertEntry e es)) ≤ 4080)
    (hright : 4080 < approxBytes (rightHalf (BTree.insertEntry e es))) :
    ∃ f x t', (BTree.put e).run t = .error f t' ∧
      encodeNode (Node.ofLeaf (post.first 0) (rightHalf (BTree.insertEntry e es))) = .error f ∧
      Split t t' L others pre post (L.target e.key) (leftHalf (BTree.insertEntry e es)) x [] 0 := by
  rw [h.run_put_overflow hsplit hocc hover, EStateM.run_bind]
  rcases h.splitLeaf_cases hsplit (UInt16.ofNat es.length + 1) (insertEntry_ne_nil e es)
      (h.length_insert_le hsplit) with
    ⟨hfull, -⟩ | ⟨-, hbig, -⟩ | ⟨-, -, -, f, x, t', hrun, henc, hcut⟩ | ⟨-, -, hfits, -⟩
  · exact absurd hfull hroom
  · omega
  · exact ⟨f, x, t', by rw [hrun], henc, hcut⟩
  · omega

/-- Both halves fit: they are written before the parent is looked at. -/
theorem Rep.put_halves (h : Rep t L others)
    (hsplit : L.leaves = pre ++ (L.target e.key, es) :: post)
    (hocc : ¬ BTree.occupied e es = true) (hover : Overflows (BTree.insertEntry e es))
    (hroom : t.pager.room ≠ 0) (hleft : approxBytes (leftHalf (BTree.insertEntry e es)) ≤ 4080)
    (hright : approxBytes (rightHalf (BTree.insertEntry e es)) ≤ 4080) :
    ∃ x first rest t', rightHalf (BTree.insertEntry e es) = first :: rest ∧
      Split t t' L others pre post (L.target e.key) (leftHalf (BTree.insertEntry e es)) x
        (rightHalf (BTree.insertEntry e es)) (post.first 0) ∧
      (BTree.put e).run t =
        (do
          BTree.insertIntoParent (L.target e.key) first.key x
          return true : EStateM Fault BTree Bool).run t' := by
  rw [h.run_put_overflow hsplit hocc hover, EStateM.run_bind]
  rcases h.splitLeaf_cases hsplit (UInt16.ofNat es.length + 1) (insertEntry_ne_nil e es)
      (h.length_insert_le hsplit) with
    ⟨hfull, -⟩ | ⟨-, hbig, -⟩ | ⟨-, -, hbig, -⟩ | ⟨-, -, -, x, first, rest, t', hcons, hrun, hcut⟩
  · exact absurd hfull hroom
  · omega
  · omega
  · exact ⟨x, first, rest, t', hcons, hcut, by rw [hrun]⟩

theorem length_key_le {first : LeafEntry} {rest : List LeafEntry}
    (h : approxBytes (first :: rest) ≤ 4080) : first.key.toBytes.length ≤ 4055 := by
  have hpayload := Tuple.four_le_length_encodeTuple first.payload
  simp only [approxBytes, List.map_cons, List.sum_cons, LeafEntry.size] at h
  omega

theorem small_halves (h : Linked t L others)
    (hsplit : L.leaves = pre ++ (L.target e.key, es) :: post) :
    (leftHalf (BTree.insertEntry e es)).length ≤ 64 ∧
      (rightHalf (BTree.insertEntry e es)).length ≤ 64 := by
  have hlen := h.length_insert_le hsplit
  have hl := length_leftHalf_le (BTree.insertEntry e es)
  have hr := length_rightHalf (BTree.insertEntry e es)
  have hpos : 0 < (BTree.insertEntry e es).length :=
    List.length_pos_of_ne_nil (insertEntry_ne_nil e es)
  omega

/-- What a successful `put` does to a layout, and what it returns. -/
inductive PutStep (e : LeafEntry) (L : Layout) : Bool → Layout → Prop where
  | occupied {pre post : Leaves} {es : List LeafEntry}
      (hsplit : L.leaves = pre ++ (L.target e.key, es) :: post)
      (hocc : BTree.occupied e es = true) : PutStep e L false L
  | inLeaf {pre post : Leaves} {es : List LeafEntry}
      (hsplit : L.leaves = pre ++ (L.target e.key, es) :: post)
      (hocc : ¬ BTree.occupied e es = true) (hover : ¬ Overflows (BTree.insertEntry e es)) :
      PutStep e L true
        { L with leaves := pre ++ (L.target e.key, BTree.insertEntry e es) :: post }
  | newRoot {pre post : Leaves} {es rest : List LeafEntry} {first : LeafEntry} {x : PageId}
      (hsplit : L.leaves = pre ++ (L.target e.key, es) :: post)
      (hocc : ¬ BTree.occupied e es = true) (hover : Overflows (BTree.insertEntry e es))
      (hright : rightHalf (BTree.insertEntry e es) = first :: rest) (hix : L.index = none) :
      PutStep e L true ⟨some [⟨.null, L.target e.key⟩, ⟨first.key, x⟩],
        pre ++ (L.target e.key, leftHalf (BTree.insertEntry e es)) ::
          (x, rightHalf (BTree.insertEntry e es)) :: post⟩
  | newSeparator {pre post : Leaves} {es rest : List LeafEntry} {first : LeafEntry} {x : PageId}
      {ies : List InternalEntry} (hsplit : L.leaves = pre ++ (L.target e.key, es) :: post)
      (hocc : ¬ BTree.occupied e es = true) (hover : Overflows (BTree.insertEntry e es))
      (hright : rightHalf (BTree.insertEntry e es) = first :: rest) (hix : L.index = some ies)
      (hlen : ies.length < 128) :
      PutStep e L true ⟨some (BTree.insertSeparator ⟨first.key, x⟩ ies),
        pre ++ (L.target e.key, leftHalf (BTree.insertEntry e es)) ::
          (x, rightHalf (BTree.insertEntry e es)) :: post⟩

/-- From one pager to the next only pages of the tree and pages that were free have changed. -/
def Confined (t t' : BTree) (others : List PageId) : Prop :=
  ∃ touched, t.pager.Frame t'.pager touched ∧ ∀ y ∈ others, y ∉ touched

theorem Linked.not_mem_others (h : Linked t L others) {y : PageId} (hy : y ∈ L.pages t.rootPageId) :
    y ∉ others := by
  intro ho
  have hnodup := (List.nodup_append.1 h.owns.nodup).2.1
  exact (List.nodup_append.1 hnodup).2.2 y hy y ho rfl

theorem Rep.not_mem_others (h : Rep t L others) {y : PageId} (hy : y ∈ L.pages t.rootPageId) :
    y ∉ others :=
  h.linked.not_mem_others hy

theorem Rep.target_mem_pages (h : Rep t L others) (key : Value) :
    L.target key ∈ L.pages t.rootPageId :=
  Rep.leafPages_subset L _ (h.target_mem key)

/-- The new page of a split belongs to nobody else. -/
theorem Split.fresh_others {t' : BTree} {page x next : PageId} {left right : List LeafEntry}
    (h : Split t t' L others pre post page left x right next) : x ∉ others := by
  intro hx
  have hnodup := (List.nodup_append.1 h.owns.nodup).2.1
  exact (List.nodup_cons.1 hnodup).1 (List.mem_append_right _ hx)

/-- The ways a `put` ends when both halves of an overflowing leaf have been written. -/
theorem Rep.put_halves_cases (h : Rep t L others)
    (hsplit : L.leaves = pre ++ (L.target e.key, es) :: post)
    (hocc : ¬ BTree.occupied e es = true) (hover : Overflows (BTree.insertEntry e es))
    (hroom : t.pager.room ≠ 0) (hleft : approxBytes (leftHalf (BTree.insertEntry e es)) ≤ 4080)
    (hright : approxBytes (rightHalf (BTree.insertEntry e es)) ≤ 4080) :
    (∃ t' L', (BTree.put e).run t = .ok true t' ∧ PutStep e L true L' ∧ Rep t' L' others ∧
      Confined t t' others ∧ t.pager.room ≤ t'.pager.room + 2 ∧ t'.pager.room < t.pager.room ∧
      t'.pager.room + (L'.pages t'.rootPageId).length =
        t.pager.room + (L.pages t.rootPageId).length) ∨
    (∃ t', (BTree.put e).run t = .error .outOfBounds t' ∧ ∃ ies x first,
      L.index = some ies ∧ ies.length < 128 ∧ first ∈ BTree.insertEntry e es ∧
      ¬ (Node.ofInternal (BTree.insertSeparator ⟨first.key, x⟩ ies)).Fits) ∨
    (∃ t', (BTree.put e).run t = .error Pager.extendFailed t' ∧ L.index = none ∧
      t.pager.room = 1) ∨
    ∃ f t', (BTree.put e).run t = .error f t' ∧ (f = Pager.extendFailed → t.pager.room = 1) ∧
      ∃ ies, L.index = some ies ∧ ies.length = 128 := by
  obtain ⟨x, first, rest, t₁, hcons, hcut, hrun⟩ := h.put_halves hsplit hocc hover hroom hleft hright
  have hkey : first.key.toBytes.length ≤ 4055 := by
    rw [hcons] at hright
    exact length_key_le hright
  have hsmall := small_halves h.linked hsplit
  have htarget : L.target e.key ∉ others := h.not_mem_others (h.target_mem_pages e.key)
  rw [hrun, EStateM.run_bind]
  cases hix : L.index with
  -- the leaf was the root, and a new root goes above its halves
  | none =>
    rcases hcut.newRoot_cases h hsplit hix hsmall hkey with ⟨hfull, hins⟩ | ⟨t', hins, hrep,
      ⟨y, hframe, hy, -⟩, hroom'⟩
    · exact Or.inr (Or.inr (Or.inl ⟨t₁, by rw [hins], rfl, by rw [← hcut.room, hfull]⟩))
    · refine Or.inl ⟨t', _, by rw [hins]; rfl, .newRoot hsplit hocc hover hcons hix, hrep,
        ⟨_, hcut.frame.trans hframe, ?_⟩, by have := hcut.room; omega, by have := hcut.room; omega,
        ?_⟩
      · intro z hz hmem
        simp only [List.cons_append, List.nil_append, List.mem_cons, List.not_mem_nil,
          or_false] at hmem
        rcases hmem with rfl | rfl | rfl
        · exact htarget hz
        · exact hcut.fresh_others hz
        · exact hy (List.mem_append_right _ hz)
      · have := hcut.room
        simp only [Layout.pages, hix, hsplit, Leaves.pages, List.map_append, List.map_cons,
          List.length_append, List.length_cons, List.length_map]
        omega
  | some ies =>
    have hfew := (h.loadNode_root_of_index_some hix).2.few
    -- the root takes one more separator unless it holds 128 of them
    by_cases hlen : ies.length < 128
    · rcases hcut.newSeparator_cases h hsplit hix hlen hsmall with ⟨hbig, hins⟩ | ⟨t', hins,
        hrep, hframe, -, hroom'⟩
      · refine Or.inr (Or.inl ⟨t₁, by rw [hins], ies, x, first, rfl, hlen, ?_, hbig⟩)
        rw [← leftHalf_append_rightHalf (BTree.insertEntry e es), hcons]
        simp
      · refine Or.inl ⟨t', _, by rw [hins]; rfl, .newSeparator hsplit hocc hover hcons hix hlen, hrep,
          ⟨_, hcut.frame.trans hframe, ?_⟩, by have := hcut.room; omega, by have := hcut.room; omega,
          ?_⟩
        · intro z hz hmem
          simp only [List.cons_append, List.nil_append, List.mem_cons, List.not_mem_nil,
            or_false] at hmem
          rcases hmem with rfl | rfl | rfl
          · exact htarget hz
          · exact hcut.fresh_others hz
          · exact h.not_mem_others (by simp [Layout.pages, hix]) hz
        · have := hcut.room
          simp only [Layout.pages, hix, hsplit, Leaves.pages, List.map_append, List.map_cons,
            List.length_append, List.length_cons, List.length_map]
          omega
    · obtain ⟨f, t', hins, hf⟩ := hcut.rootFull h hsplit hix (by omega)
      refine Or.inr (Or.inr (Or.inr ⟨f, t', by rw [hins], fun he => ?_, ies, rfl, by omega⟩))
      rw [← hcut.room, hf he]

/-- The tree has the same pages as before, or pages have been allocated. It has all that were. -/
structure SamePages (t : BTree) (L : Layout) (t' : BTree) (L' : Layout) : Prop where
  accounts : t'.pager.room + (L'.pages t'.rootPageId).length =
    t.pager.room + (L.pages t.rootPageId).length
  pages : t'.pager.room < t.pager.room ∨
    (t'.pager.room = t.pager.room ∧ L'.pages t'.rootPageId = L.pages t.rootPageId)

theorem samePages_refl (t : BTree) (L : Layout) : SamePages t L t L :=
  ⟨rfl, Or.inr ⟨rfl, rfl⟩⟩

/-- What a successful `put` does: one step of the layout, on pages of the tree and fresh pages. -/
theorem Rep.put_ok (h : Rep t L others) {b : Bool} {t' : BTree}
    (hrun : (BTree.put e).run t = .ok b t') :
    ∃ L', PutStep e L b L' ∧ Rep t' L' others ∧ Confined t t' others ∧
      t.pager.room ≤ t'.pager.room + 2 ∧ SamePages t L t' L' := by
  obtain ⟨pre, es, post, hsplit⟩ := h.exists_leaf e.key
  by_cases hocc : BTree.occupied e es = true
  -- the cases of `put` in turn: those that report no error keep the tree represented
  · rw [h.put_occupied hsplit hocc] at hrun
    cases hrun
    exact ⟨L, .occupied hsplit hocc, h, ⟨[], Pager.Frame.refl _, by simp⟩, by omega,
      samePages_refl t L⟩
  by_cases hover : Overflows (BTree.insertEntry e es)
  swap
  · obtain ⟨t'', hrun', hrep, hframe, hroot, hroom⟩ := h.put_in_leaf hsplit hocc hover
    rw [hrun'] at hrun
    cases hrun
    have hpages : Layout.pages { L with leaves := pre ++ (L.target e.key, BTree.insertEntry e es) ::
        post } t'.rootPageId = L.pages t.rootPageId := by
      unfold Layout.pages
      rw [hsplit, hroot]
      simp
    refine ⟨_, .inLeaf hsplit hocc hover, hrep, ⟨_, hframe, ?_⟩, by omega,
      ⟨by rw [hroom, hpages], Or.inr ⟨hroom, hpages⟩⟩⟩
    intro z hz hmem
    rw [List.mem_singleton.1 hmem] at hz
    exact h.not_mem_others (h.target_mem_pages e.key) hz
  by_cases hroom : t.pager.room = 0
  · rw [h.put_no_page hsplit hocc hover hroom] at hrun
    cases hrun
  by_cases hleft : approxBytes (leftHalf (BTree.insertEntry e es)) ≤ 4080
  swap
  · obtain ⟨f, x, t'', hrun', -⟩ := h.put_left_too_big hsplit hocc hover hroom (not_le.1 hleft)
    rw [hrun'] at hrun
    cases hrun
  by_cases hright : approxBytes (rightHalf (BTree.insertEntry e es)) ≤ 4080
  swap
  · obtain ⟨f, x, t'', hrun', -⟩ :=
      h.put_right_too_big hsplit hocc hover hroom hleft (not_le.1 hright)
    rw [hrun'] at hrun
    cases hrun
  rcases h.put_halves_cases hsplit hocc hover hroom hleft hright with ⟨t'', L', hrun', hstep, hrep,
    hconf, hroom', hless, haccounts⟩ | ⟨t'', hrun', -⟩ | ⟨t'', hrun', -⟩ | ⟨f, t'', hrun', -⟩
  · rw [hrun'] at hrun
    cases hrun
    exact ⟨L', hstep, hrep, hconf, hroom', haccounts, Or.inl hless⟩
  · rw [hrun'] at hrun
    cases hrun
  · rw [hrun'] at hrun
    cases hrun
  · rw [hrun'] at hrun
    cases hrun

end Put

end OpenDB
