import OpenDB.Library.Postconditions
import OpenDB.Storage.PageFit

/-!
# Chains that end

`put` links leaves in one place, the split, and there the new leaf takes over the right sibling of the
old one. A call that throws in the middle can cut the chain short, but not close it into a circle. So in
every tree that a run of `put` leads to, whatever the keys and whatever has thrown, the root leads to a
leaf, and the chain from every leaf comes to an end (`exists_walkable_of_putRun`).
-/

set_option autoImplicit false

namespace OpenDB

open OpenDB.Library

/-- The chain of leaves from a page on comes to an end; all its leaves are pages of the tree, and all
their entries have `Q`. -/
inductive ChainEnds (p : Pager) (live : List PageId) (Q : LeafEntry → Prop) : PageId → Prop where
  | last : ChainEnds p live Q 0
  | leaf {page sibling : PageId} {es : List LeafEntry} (hlive : page ∈ live)
      (hload : BTree.loadNode p page = .ok (Node.ofLeaf sibling es)) (hsmall : es.length ≤ 64)
      (hentries : ∀ e ∈ es, Q e) (hrest : ChainEnds p live Q sibling) : ChainEnds p live Q page

/-- The root is a leaf or has leaves for children, and every other page of the tree is a leaf. -/
structure Walkable (Q : LeafEntry → Prop) (t : BTree) (live : List PageId) : Prop where
  owns : t.pager.Owns live
  root : t.rootPageId ∈ live
  leaves : ∀ page ∈ live, page ≠ t.rootPageId → ChainEnds t.pager live Q page
  entry : ChainEnds t.pager live Q t.rootPageId ∨
    ∃ ies, BTree.loadNode t.pager t.rootPageId = .ok (Node.ofInternal ies) ∧ ies ≠ [] ∧
      ies.length ≤ 128 ∧ ∀ child ∈ ies.map InternalEntry.child, child ∈ live ∧ child ≠ t.rootPageId

section

variable {p p' : Pager} {live live' touched : List PageId} {Q : LeafEntry → Prop} {page : PageId}

/-- A page holds one leaf. -/
theorem leaf_unique {sibling sibling' : PageId} {es es' : List LeafEntry}
    (h : BTree.loadNode p page = .ok (Node.ofLeaf sibling es))
    (h' : BTree.loadNode p page = .ok (Node.ofLeaf sibling' es')) : sibling = sibling' ∧ es = es' := by
  have hnode : Node.ofLeaf sibling es = Node.ofLeaf sibling' es' := Except.ok.inj (h.symm.trans h')
  exact ⟨congrArg (fun n : Node => n.hdr.rightSibling) hnode, congrArg Node.leaf hnode⟩

/-- A chain is still a chain that ends when the leaves that are written over still lead to one. -/
theorem ChainEnds.of_frame (h : ChainEnds p live Q page) (hframe : p.Frame p' touched)
    (hsub : live ⊆ live')
    (hkept : ∀ q ∈ live, q ∈ touched → ∀ sibling es,
      BTree.loadNode p q = .ok (Node.ofLeaf sibling es) → ChainEnds p' live' Q sibling →
        ChainEnds p' live' Q q) : ChainEnds p' live' Q page := by
  induction h with
  | last => exact .last
  | @leaf q sibling es hlive hload hsmall hentries hrest ih =>
    by_cases htouched : q ∈ touched
    · exact hkept q hlive htouched sibling es hload ih
    · exact .leaf (hsub hlive) ((BTree.loadNode_congr (hframe.pages q htouched)).trans hload) hsmall
        hentries ih

theorem ChainEnds.exists_leaf (h : ChainEnds p live Q page) (hpage : page ≠ 0) :
    ∃ sibling es, page ∈ live ∧ BTree.loadNode p page = .ok (Node.ofLeaf sibling es) ∧
      es.length ≤ 64 ∧ (∀ e ∈ es, Q e) ∧ ChainEnds p live Q sibling := by
  cases h with
  | last => exact absurd rfl hpage
  | leaf hlive hload hsmall hentries hrest => exact ⟨_, _, hlive, hload, hsmall, hentries, hrest⟩

end

namespace Walkable

variable {Q : LeafEntry → Prop} {t t' : BTree} {live live' touched : List PageId} {page : PageId}

theorem ne_zero (h : Walkable Q t live) (hpage : page ∈ live) : page ≠ 0 :=
  (h.owns.range page (List.mem_append_right _ hpage)).1

/-- What a page holds that holds a leaf. -/
theorem of_load (h : Walkable Q t live) (hpage : page ∈ live) {sibling : PageId} {es : List LeafEntry}
    (hload : BTree.loadNode t.pager page = .ok (Node.ofLeaf sibling es)) :
    es.length ≤ 64 ∧ (∀ e ∈ es, Q e) ∧ ChainEnds t.pager live Q sibling := by
  have hends : ChainEnds t.pager live Q page := by
    by_cases hroot : page = t.rootPageId
    · subst hroot
      rcases h.entry with hends | ⟨ies, hindex, -⟩
      · exact hends
      · rw [hload] at hindex
        cases hindex
    · exact h.leaves page hpage hroot
  obtain ⟨sibling', es', -, hload', hsmall, hentries, hrest⟩ := hends.exists_leaf (h.ne_zero hpage)
  obtain ⟨rfl, rfl⟩ := leaf_unique hload hload'
  exact ⟨hsmall, hentries, hrest⟩

theorem shallow (h : Walkable Q t live) : Shallow t live := by
  have hholds : ∀ q ∈ live, ChainEnds t.pager live Q q → HoldsLeaf t q := by
    intro q hq hends
    obtain ⟨sibling, es, -, hload, hsmall, -⟩ := hends.exists_leaf (h.ne_zero hq)
    exact ⟨sibling, es, hload, hsmall⟩
  refine ⟨h.owns, h.root, ?_⟩
  rcases h.entry with hends | ⟨ies, hload, hne, hfew, hchildren⟩
  · exact .inl (hholds _ h.root hends)
  · refine .inr ⟨ies, hload, hne, hfew, fun child hchild => ?_⟩
    obtain ⟨hlive, hroot⟩ := hchildren child hchild
    exact ⟨hlive, hroot, hholds child hlive (h.leaves child hlive hroot)⟩

/-- Leaves have been written, old ones and new ones. -/
theorem of_frame (h : Walkable Q t live) (howns : t'.pager.Owns live')
    (hroot : t'.rootPageId = t.rootPageId) (hframe : t.pager.Frame t'.pager touched)
    (hsub : live ⊆ live')
    (hkept : ∀ q ∈ live, q ∈ touched → ∀ sibling es,
      BTree.loadNode t.pager q = .ok (Node.ofLeaf sibling es) → ChainEnds t'.pager live' Q sibling →
        ChainEnds t'.pager live' Q q)
    (hleaf : t.rootPageId ∈ touched → HoldsLeaf t t.rootPageId)
    (hnew : ∀ q ∈ live', q ∉ live → ChainEnds t'.pager live' Q q) : Walkable Q t' live' := by
  refine ⟨howns, by rw [hroot]; exact hsub h.root, fun q hq hne => ?_, ?_⟩
  · rw [hroot] at hne
    by_cases hold : q ∈ live
    · exact (h.leaves q hold hne).of_frame hframe hsub hkept
    · exact hnew q hq hold
  · rw [hroot]
    rcases h.entry with hends | ⟨ies, hload, hne, hfew, hchildren⟩
    · exact .inl (hends.of_frame hframe hsub hkept)
    · have huntouched : t.rootPageId ∉ touched := by
        intro htouched
        obtain ⟨sibling, es, hload', -⟩ := hleaf htouched
        rw [hload] at hload'
        cases hload'
      refine .inr ⟨ies, ?_, hne, hfew, fun child hchild => ?_⟩
      · rw [BTree.loadNode_congr (hframe.pages _ huntouched)]
        exact hload
      · exact ⟨hsub (hchildren child hchild).1, (hchildren child hchild).2⟩

/-- The root is an internal node and has been written. -/
theorem withIndex (h : Walkable Q t live) (howns : t'.pager.Owns live)
    (hroot : t'.rootPageId = t.rootPageId) (hframe : t.pager.Frame t'.pager touched)
    (htouched : ∀ q ∈ live, q ∈ touched → q = t.rootPageId) {ies ies' : List InternalEntry}
    (hold : BTree.loadNode t.pager t.rootPageId = .ok (Node.ofInternal ies))
    (hload : BTree.loadNode t'.pager t.rootPageId = .ok (Node.ofInternal ies')) (hne : ies' ≠ [])
    (hfew : ies'.length ≤ 128)
    (hchildren : ∀ child ∈ ies'.map InternalEntry.child, child ∈ live ∧ child ≠ t.rootPageId) :
    Walkable Q t' live := by
  refine ⟨howns, by rw [hroot]; exact h.root, fun q hq hnot => ?_, ?_⟩
  · rw [hroot] at hnot
    refine (h.leaves q hq hnot).of_frame hframe (List.Subset.refl _) fun r hr hmem sibling es hleaf => ?_
    -- a chain of leaves does not lead through the root
    rw [htouched r hr hmem, hold] at hleaf
    cases hleaf
  · rw [hroot]
    exact .inr ⟨ies', hload, hne, hfew, hchildren⟩

end Walkable

/-! ## One call -/

/-- A run ends in a walkable tree, also when it throws. -/
def Settles {α : Type} (Q : LeafEntry → Prop) (x : EStateM Fault BTree α) (t : BTree) : Prop :=
  EndsIn x t (fun _ t' => ∃ live, Walkable Q t' live)
    fun f t' => f.isThrown = true → ∃ live, Walkable Q t' live

theorem Settles.thenReturn {Q : LeafEntry → Prop} {x : EStateM Fault BTree Unit} {t : BTree}
    (h : Settles Q x t) (b : Bool) : Settles Q (do x; return b) t :=
  EndsIn.bind h fun _ _ hwalk => hwalk

/-- The page is the root, or a child of the root. -/
def UnderRoot (t : BTree) (page : PageId) : Prop :=
  ∀ ies, BTree.loadNode t.pager t.rootPageId = .ok (Node.ofInternal ies) →
    page ∈ ies.map InternalEntry.child

section Call

variable {Q : LeafEntry → Prop} {t t' : BTree} {live : List PageId} {page sibling : PageId}
  {es : List LeafEntry}

theorem UnderRoot.of_frame {touched : List PageId} (h : UnderRoot t page)
    (hroot : t'.rootPageId = t.rootPageId) (hframe : t.pager.Frame t'.pager touched)
    (hleaf : t.rootPageId ∈ touched → ∃ sibling es,
      BTree.loadNode t'.pager t.rootPageId = .ok (Node.ofLeaf sibling es)) : UnderRoot t' page := by
  intro ies hindex
  rw [hroot] at hindex
  have huntouched : t.rootPageId ∉ touched := by
    intro htouched
    obtain ⟨sibling, es, hload⟩ := hleaf htouched
    rw [hindex] at hload
    cases hload
  refine h ies ?_
  rw [← BTree.loadNode_congr (hframe.pages _ huntouched)]
  exact hindex

/-- A leaf is written over, and keeps its sibling. -/
theorem Walkable.saveLeaf (h : Walkable Q t live) (hpage : page ∈ live)
    (hload : BTree.loadNode t.pager page = .ok (Node.ofLeaf sibling es)) {es' : List LeafEntry}
    (hsmall : es'.length ≤ 64) (hentries : ∀ e ∈ es', Q e) :
    Settles Q (BTree.saveNode page (Node.ofLeaf sibling es')) t := by
  have hrange := h.owns.range page (List.mem_append_right _ hpage)
  by_cases hfits : (Node.ofLeaf sibling es').Fits
  swap
  · obtain ⟨f, -, hrun⟩ := BTree.run_saveNode_of_not_fits page hfits t
    exact EndsIn.of_run_error hrun fun _ => ⟨live, h⟩
  refine EndsIn.of_run_ok (BTree.run_saveNode hrange.1 hrange.2 hfits) ⟨live, ?_⟩
  have hcounted : (Node.ofLeaf sibling es').Counted := Node.counted_ofLeaf (by omega)
  have hself := BTree.loadNode_withNode_self hrange.1 hrange.2 hfits hcounted
  refine h.of_frame (h.owns.withPage hrange.2) rfl
    (Pager.frame_withPage h.owns.backed hrange.1 hrange.2) (List.Subset.refl _) ?_ ?_
    fun q hq hnot => absurd hq hnot
  · intro q hq htouched sibling' es₀ hold hrest
    rw [List.mem_singleton.1 htouched] at hold ⊢
    exact .leaf hpage hself hsmall hentries ((leaf_unique hload hold).1 ▸ hrest)
  · intro htouched
    rw [List.mem_singleton.1 htouched]
    exact ⟨sibling, es, hload, (h.of_load hpage hload).1⟩

/-- A leaf and a new page have been written, and still lead to the old sibling of the leaf or to the end
of the chain. -/
theorem Walkable.withLeaves (h : Walkable Q t live) (hpage : page ∈ live)
    (hload : BTree.loadNode t.pager page = .ok (Node.ofLeaf sibling es)) {x : PageId} (hfresh : x ∉ live)
    (howns : t'.pager.Owns (x :: live)) (hroot : t'.rootPageId = t.rootPageId)
    (hframe : t.pager.Frame t'.pager [page, x])
    (hpageEnds : ChainEnds t'.pager (x :: live) Q sibling → ChainEnds t'.pager (x :: live) Q page)
    (hxEnds : ChainEnds t'.pager (x :: live) Q sibling → ChainEnds t'.pager (x :: live) Q x) :
    Walkable Q t' (x :: live) := by
  have hsub : live ⊆ x :: live := List.subset_cons_self x live
  have hkept : ∀ q ∈ live, q ∈ [page, x] → ∀ sibling' es',
      BTree.loadNode t.pager q = .ok (Node.ofLeaf sibling' es') →
        ChainEnds t'.pager (x :: live) Q sibling' → ChainEnds t'.pager (x :: live) Q q := by
    intro q hq htouched sibling' es' hold hrest
    have hqx : q ≠ x := fun e => hfresh (e ▸ hq)
    obtain rfl : q = page := by simpa [hqx] using htouched
    exact hpageEnds ((leaf_unique hload hold).1 ▸ hrest)
  have hrest := (h.of_load hpage hload).2.2.of_frame hframe hsub hkept
  refine h.of_frame howns hroot hframe hsub hkept (fun htouched => ?_) fun q hq hnot => ?_
  · have hrootx : t.rootPageId ≠ x := fun e => hfresh (e ▸ h.root)
    have hrootPage : t.rootPageId = page := by simpa [hrootx] using htouched
    rw [hrootPage]
    exact ⟨sibling, es, hload, (h.of_load hpage hload).1⟩
  · obtain rfl : q = x := (List.mem_cons.1 hq).resolve_right hnot
    exact hxEnds hrest

/-- A leaf is split. The new leaf takes over its sibling and becomes its sibling; when the second half
is refused, the new leaf is empty and the chain ends with it. -/
theorem Walkable.splitLeaf (h : Walkable Q t live) (hpage : page ∈ live) (hunder : UnderRoot t page)
    (hload : BTree.loadNode t.pager page = .ok (Node.ofLeaf sibling es)) (n : UInt16)
    {leaf : List LeafEntry} (hlen : leaf.length ≤ 65) (hentries : ∀ e ∈ leaf, Q e) {first : LeafEntry}
    {rest : List LeafEntry} (hright : rightHalf leaf = first :: rest) :
    EndsIn (BTree.splitLeaf page ⟨.leaf, n, sibling⟩ leaf) t
      (fun r t' => Walkable Q t' (r.1 :: live) ∧ r.1 ≠ t'.rootPageId ∧ UnderRoot t' page)
      fun f t' => f.isThrown = true → ∃ live', Walkable Q t' live' := by
  have hl := length_leftHalf_le leaf
  have hr := length_rightHalf leaf
  have hleftEntries : ∀ e ∈ leftHalf leaf, Q e := fun e he => hentries e (List.mem_of_mem_take he)
  have hrightEntries : ∀ e ∈ rightHalf leaf, Q e := fun e he => hentries e (List.mem_of_mem_drop he)
  refine EndsIn.of_run_eq (run_splitLeaf t page n sibling hright) ?_
  rcases BTree.newPage_cases h.owns .leaf (.inl rfl) with ⟨-, hnew⟩ | ⟨x, t₁, hnew, howns₁, hempty,
    hframe, -, hroot⟩
  · exact EndsIn.bind_of_error hnew fun _ => ⟨live, h⟩
  refine EndsIn.bind_of_ok hnew ?_
  have hpageRange := howns₁.range page (by simp [hpage])
  have hxRange := howns₁.range x (by simp)
  have hfresh : x ∉ live := (List.nodup_cons.1 (List.nodup_append.1 howns₁.nodup).2.1).1
  have hne : page ≠ x := fun e => hfresh (e ▸ hpage)
  have hsub : live ⊆ x :: live := List.subset_cons_self x live
  have hempty : BTree.loadNode t₁.pager x = .ok (Node.ofLeaf 0 []) := hempty
  have hlast : ∀ {p : Pager}, BTree.loadNode p x = .ok (Node.ofLeaf 0 []) →
      ChainEnds p (x :: live) Q x := by
    intro p hp
    exact .leaf List.mem_cons_self hp (Nat.zero_le _) (fun e he => absurd he List.not_mem_nil) .last
  -- saving the left half fails: the page keeps its old entries, the new page is empty
  by_cases hleft : (Node.ofLeaf x (leftHalf leaf)).Fits
  swap
  · obtain ⟨f, -, hrun⟩ := BTree.run_saveNode_of_not_fits page hleft t₁
    refine EndsIn.bind_of_error hrun fun _ => ⟨x :: live, ?_⟩
    refine h.withLeaves hpage hload hfresh howns₁ hroot (hframe.mono (by simp)) (fun hrest => ?_)
      fun _ => ?_
    · obtain ⟨hsmall, hold, -⟩ := h.of_load hpage hload
      exact .leaf (hsub hpage) ((BTree.loadNode_congr (hframe.pages page (by simpa using hne))).trans
        hload) hsmall hold hrest
    · exact hlast hempty
  refine EndsIn.bind_of_ok (BTree.run_saveNode hpageRange.1 hpageRange.2 hleft) ?_
  set t₂ := t₁.withNode page (Node.ofLeaf x (leftHalf leaf)) with ht₂
  have howns₂ : t₂.pager.Owns (x :: live) := howns₁.withPage hpageRange.2
  have hframe₂ : t.pager.Frame t₂.pager [page, x] :=
    (hframe.trans (Pager.frame_withPage howns₁.backed hpageRange.1 hpageRange.2)).mono (by simp)
  have hpage₂ : BTree.loadNode t₂.pager page = .ok (Node.ofLeaf x (leftHalf leaf)) :=
    BTree.loadNode_withNode_self hpageRange.1 hpageRange.2 hleft (Node.counted_ofLeaf (by omega))
  have hleftEnds : ∀ {p : Pager}, BTree.loadNode p page = .ok (Node.ofLeaf x (leftHalf leaf)) →
      ChainEnds p (x :: live) Q x → ChainEnds p (x :: live) Q page := by
    intro p hp hx
    exact .leaf (hsub hpage) hp (by omega) hleftEntries hx
  -- saving the right half fails: the chain goes over the new page, which ends it
  by_cases hrightFits : (Node.ofLeaf sibling (rightHalf leaf)).Fits
  swap
  · obtain ⟨f, -, hrun⟩ := BTree.run_saveNode_of_not_fits x hrightFits t₂
    have hx₂ : ChainEnds t₂.pager (x :: live) Q x :=
      hlast ((BTree.loadNode_withNode_of_ne howns₁.backed hpageRange.2 hne.symm).trans hempty)
    refine EndsIn.bind_of_error hrun fun _ => ⟨x :: live, ?_⟩
    exact h.withLeaves hpage hload hfresh howns₂ hroot hframe₂ (fun _ => hleftEnds hpage₂ hx₂)
      fun _ => hx₂
  refine EndsIn.bind_of_ok (BTree.run_saveNode (t := t₂) hxRange.1 hxRange.2 hrightFits) ?_
  set t₃ := t₂.withNode x (Node.ofLeaf sibling (rightHalf leaf)) with ht₃
  have hframe₃ : t.pager.Frame t₃.pager [page, x] :=
    (hframe₂.trans (Pager.frame_withPage howns₂.backed hxRange.1 hxRange.2)).mono (by simp)
  have hpage₃ : BTree.loadNode t₃.pager page = .ok (Node.ofLeaf x (leftHalf leaf)) :=
    (BTree.loadNode_withNode_of_ne howns₂.backed hxRange.2 hne).trans hpage₂
  have hx₃ : ChainEnds t₃.pager (x :: live) Q sibling → ChainEnds t₃.pager (x :: live) Q x := by
    intro hrest
    have hself := BTree.loadNode_withNode_self (t := t₂) hxRange.1 hxRange.2 hrightFits
      (Node.counted_ofLeaf (by omega))
    exact .leaf List.mem_cons_self hself (by omega) hrightEntries hrest
  have hroot₃ : t₃.rootPageId = t.rootPageId := hroot
  have hrootx : t.rootPageId ≠ x := fun e => hfresh (e ▸ h.root)
  refine EndsIn.pure ⟨?_, ?_, hunder.of_frame hroot₃ hframe₃ fun htouched => ?_⟩
  · exact h.withLeaves hpage hload hfresh (howns₂.withPage hxRange.2) hroot hframe₃
      (fun hrest => hleftEnds hpage₃ (hx₃ hrest)) hx₃
  · rw [hroot₃]
    exact hrootx.symm
  · have hrootPage : t.rootPageId = page := by simpa [hrootx] using htouched
    exact ⟨x, leftHalf leaf, hrootPage ▸ hpage₃⟩

/-- A new root above the old one, which is a leaf, and another leaf. -/
theorem Walkable.raiseRoot (h : Walkable Q t live)
    (hroot : ChainEnds t.pager live Q t.rootPageId) (key : Value) {x : PageId} (hx : x ∈ live) :
    Settles Q (BTree.raiseRoot key x) t := by
  rw [BTree.raiseRoot]
  refine EndsIn.get_bind ?_
  rcases BTree.newPage_cases h.owns .internal (.inr rfl) with ⟨-, hnew⟩ | ⟨y, t₁, hnew, howns₁, -,
    hframe, -, -⟩
  · exact EndsIn.bind_of_error hnew fun _ => ⟨live, h⟩
  refine EndsIn.bind_of_ok hnew ?_
  have hyRange := howns₁.range y (by simp)
  have hfresh : y ∉ live := (List.nodup_cons.1 (List.nodup_append.1 howns₁.nodup).2.1).1
  set index : List InternalEntry := [⟨.null, t.rootPageId⟩, ⟨key, x⟩] with hindex
  have hnode : (⟨⟨.internal, 2, 0⟩, index, []⟩ : Node) = Node.ofInternal index := rfl
  rw [hnode]
  by_cases hfits : (Node.ofInternal index).Fits
  swap
  · refine EndsIn.bind_of_error (run_saveNode_internal_of_not_fits y hfits t₁) ?_
    rintro ⟨⟩
  refine EndsIn.bind_of_ok (BTree.run_saveNode hyRange.1 hyRange.2 hfits) ?_
  refine EndsIn.of_run_ok (a := ⟨⟩) rfl ⟨y :: live, howns₁.withPage hyRange.2, List.mem_cons_self, ?_, ?_⟩
  · intro q hq hne
    have hold : q ∈ live := (List.mem_cons.1 hq).resolve_left hne
    have hends : ChainEnds t.pager live Q q := by
      by_cases hqroot : q = t.rootPageId
      · exact hqroot ▸ hroot
      · exact h.leaves q hold hqroot
    have hframe' : t.pager.Frame (t₁.withNode y (Node.ofInternal index)).pager [y] :=
      (hframe.trans (Pager.frame_withPage howns₁.backed hyRange.1 hyRange.2)).mono (by simp)
    refine hends.of_frame hframe' (List.subset_cons_self y live) fun r hr htouched => ?_
    exact absurd hr (List.mem_singleton.1 htouched ▸ hfresh)
  · refine .inr ⟨index, ?_, List.cons_ne_nil _ _, by simp [hindex], fun child hchild => ?_⟩
    · exact BTree.loadNode_withNode_self hyRange.1 hyRange.2 hfits
        (Node.counted_ofInternal (by simp [hindex]))
    · have hmem : child ∈ live := by
        have hchild : child = t.rootPageId ∨ child = x := by simpa [hindex] using hchild
        rcases hchild with rfl | rfl
        · exact h.root
        · exact hx
      exact ⟨List.mem_cons_of_mem _ hmem, fun e : child = y => hfresh (e ▸ hmem)⟩

/-- The separator of a leaf that has been split off. -/
theorem Walkable.insertIntoParent (h : Walkable Q t live) (hunder : UnderRoot t page) (key : Value)
    {x : PageId} (hx : x ∈ live) (hxroot : x ≠ t.rootPageId) :
    Settles Q (BTree.insertIntoParent page key x) t := by
  refine EndsIn.of_run_eq (run_insertIntoParent t page key x) ?_
  rcases h.entry with hroot | ⟨ies, hload, hne, hfew, hchildren⟩
  · obtain ⟨sibling, es, -, hleaf, -⟩ := hroot.exists_leaf (h.ne_zero h.root)
    exact EndsIn.of_run_eq (run_insertLoop_of_leaf hleaf _ page key x) (h.raiseRoot hroot key hx)
  have hrange := h.owns.range t.rootPageId (List.mem_append_right _ h.root)
  have hlen := length_insertSeparator ⟨key, x⟩ ies
  have hchildren' : ∀ child ∈ (BTree.insertSeparator ⟨key, x⟩ ies).map InternalEntry.child,
      child ∈ live ∧ child ≠ t.rootPageId := by
    intro child hchild
    have hchild := ((insertSeparator_perm ⟨key, x⟩ ies).map InternalEntry.child).mem_iff.1 hchild
    rcases List.mem_cons.1 hchild with hnew | hold
    · obtain rfl : child = x := hnew
      exact ⟨hx, hxroot⟩
    · exact hchildren child hold
  refine EndsIn.of_run_eq (run_insertLoop_of_internal hload (hunder ies hload) _ key x) ?_
  split_ifs with hroom
  · have hlt := (index_has_room_iff hfew).1 hroom
    by_cases hfits : (Node.ofInternal (BTree.insertSeparator ⟨key, x⟩ ies)).Fits
    swap
    · refine EndsIn.of_run_error (run_saveNode_internal_of_not_fits _ hfits t) ?_
      rintro ⟨⟩
    refine EndsIn.of_run_ok (BTree.run_saveNode hrange.1 hrange.2 hfits) ⟨live, ?_⟩
    exact h.withIndex (h.owns.withPage hrange.2) rfl
      (Pager.frame_withPage h.owns.backed hrange.1 hrange.2) (fun q _ hq => List.mem_singleton.1 hq)
      hload (BTree.loadNode_withNode_self hrange.1 hrange.2 hfits
        (Node.counted_ofInternal (by omega))) (List.ne_nil_of_length_pos (by omega)) (by omega) hchildren'
  · have hfull : ies.length = 128 := by
      have := mt (index_has_room_iff hfew).2 hroom
      omega
    -- a full root is split, and then nothing is its parent
    rcases splitInternal_cases h.owns h.root (hlen.trans (by omega)) with ⟨-, hsplit⟩ |
      ⟨-, -, t', hsplit⟩ | ⟨-, -, -, z, key', t', hsplit, howns', hload', hframe, hroot'⟩
    · exact EndsIn.bind_of_error hsplit fun _ => ⟨live, h⟩
    · refine EndsIn.bind_of_error hsplit ?_
      rintro ⟨⟩
    refine EndsIn.bind_of_ok hsplit ?_
    have hz : z ∉ live := (List.nodup_cons.1 (List.nodup_append.1 howns'.nodup).2.1).1
    have hleft : ∀ child ∈ ((BTree.insertSeparator ⟨key, x⟩ ies).take 64).map InternalEntry.child,
        child ∈ live ∧ child ≠ t.rootPageId := fun child hchild =>
      hchildren' child ((List.take_sublist _ _).map _ |>.subset hchild)
    have hwalk : Walkable Q t' live := by
      refine h.withIndex (howns'.subperm (List.sublist_cons_self z live).subperm) hroot' hframe
        (fun q hq htouched => ?_) hload hload' (List.ne_nil_of_length_pos ?_) ?_ hleft
      · have hqz : q ≠ z := fun e => hz (e ▸ hq)
        simpa [hqz] using htouched
      · rw [List.length_take]
        omega
      · rw [List.length_take]
        omega
    rw [← hroot'] at hload' hleft ⊢
    obtain ⟨f, hloop, -⟩ := run_insertLoop_of_root hload' (fun child hchild => by
      obtain ⟨hlive, hnot⟩ := hleft child hchild
      obtain ⟨sibling, es, -, hleaf, -⟩ := (hwalk.leaves child hlive hnot).exists_leaf (hwalk.ne_zero hlive)
      exact ⟨hnot, sibling, es, hleaf⟩) (t.pager.allocator.pool.length + t.pager.capacity) key' z
    exact EndsIn.of_run_error hloop fun _ => ⟨live, hwalk⟩

/-- A call leaves a walkable tree behind, also when it throws. -/
theorem Walkable.put (h : Walkable Q t live) {e : LeafEntry} (he : Q e) : Settles Q (BTree.put e) t := by
  obtain ⟨page, sibling, es, hfind, hpage, hbelow, hload, hsmall⟩ := h.shallow.findLeaf e.key
  have hunder : UnderRoot t page := by
    intro ies hindex
    rcases hbelow with ⟨rfl, sibling', es', hleaf, -⟩ | ⟨ies', hindex', hmem⟩
    · rw [hindex] at hleaf
      cases hleaf
    · have hsame : ies = ies' :=
        congrArg Node.internal (Except.ok.inj (hindex.symm.trans hindex'.load))
      exact hsame ▸ hmem
  have hentries : ∀ x ∈ BTree.insertEntry e es, Q x := by
    intro x hx
    rcases List.mem_cons.1 ((insertEntry_perm e es).mem_iff.1 hx) with rfl | hold
    · exact he
    · exact (h.of_load hpage hload).2.1 x hold
  have hlen := length_insertEntry e es
  refine EndsIn.of_run_eq (run_put_of_leaf hfind hload hsmall) ?_
  split_ifs with hocc hover
  · exact EndsIn.pure ⟨live, h⟩
  · obtain ⟨first, rest, hright⟩ := rightHalf_eq_cons (insertEntry_ne_nil e es)
    refine (h.splitLeaf hpage hunder hload _ (by omega) hentries hright).bind ?_
    rintro ⟨x, key⟩ t' ⟨hwalk, hroot, hunder'⟩
    exact (hwalk.insertIntoParent hunder' key List.mem_cons_self hroot).thenReturn true
  · rw [Overflows, not_or, not_lt] at hover
    exact (h.saveLeaf hpage hload hover.1 hentries).thenReturn true

end Call

/-! ## Runs -/

/-- A new tree is a leaf without entries. -/
theorem walkable_createNew {p : Pager} {live : List PageId} (hp : p.Owns live) {root root' : PageId}
    {t : BTree} (hnew : BTree.createNew.run ⟨p, root'⟩ = .ok root t) (Q : LeafEntry → Prop) :
    Walkable Q t [root] := by
  obtain ⟨hrep, hroot, -⟩ := rep_createNew (hp.subperm List.nil_subperm) hnew
  have hleaf : BTree.loadNode t.pager root = .ok (Node.ofLeaf 0 []) :=
    hrep.loadNode_leaf (show _ = [] ++ (root, []) :: [] from rfl)
  have hpages : (Layout.empty root).pages t.rootPageId ++ [] = [root] := rfl
  refine ⟨hpages ▸ hrep.owns, by simp [hroot], fun page hpage hne => ?_, ?_⟩
  · rw [hroot] at hne
    exact absurd (List.mem_singleton.1 hpage) hne
  · rw [hroot]
    exact .inl (.leaf (List.mem_singleton_self root) hleaf (Nat.zero_le _)
      (fun e he => absurd he List.not_mem_nil) .last)

/-- In every run from a new tree, whatever returns or throws, the chains end. -/
theorem exists_walkable_of_putRun {p : Pager} {live : List PageId} (hp : p.Owns live) {root : PageId}
    {t₀ t : BTree} (hnew : BTree.createNew.run ⟨p, 0⟩ = .ok root t₀) {Q : LeafEntry → Prop}
    (hrun : BTree.PutRun (fun _ e => Q e) t₀ t) : ∃ live', Walkable Q t live' := by
  induction hrun with
  | start => exact ⟨[root], walkable_createNew hp hnew Q⟩
  | returned h hcond hput ih =>
    obtain ⟨live', hwalk⟩ := ih
    exact (hwalk.put hcond).of_ok hput
  | threw h hcond hput hthrown ih =>
    obtain ⟨live', hwalk⟩ := ih
    exact (hwalk.put hcond).of_error hput hthrown

end OpenDB
