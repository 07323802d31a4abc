import OpenDB.Storage.Forest
import Mathlib.Data.List.TakeWhile

/-!
# The versions of a key

A table keeps every version of a row in its tree. `Tidy` says of the leaves of a tree that its keys
can be told apart and that the versions of one key lie in one leaf. A `put` only ever refines the
leaves, so a tree that is tidy at the end of a run has been tidy all along, and the run is a sequence
of insertions into one sorted list (`Ordered.steps_tidy`).

On such a list the two readers agree: a lookup returns the version of least position among those the
reader can see (`Versions.lookup_eq_some_iff`), and a scan reports that version and no other
(`Ordered.scan_reports`).
-/

set_option autoImplicit false

namespace OpenDB

open OpenDB.Library

/-- No key is NaN, keys that compare equal are equal, and the versions of one key lie in one leaf. -/
structure Tidy (leaves : List (List LeafEntry)) : Prop where
  keys : ∀ e ∈ leaves.flatten, e.key.isNaN = false
  noAlias : ∀ a ∈ leaves.flatten, ∀ b ∈ leaves.flatten,
    a.key.compare b.key = .eq → a.key.operatorEq b.key = true
  groups : leaves.Pairwise fun a b => ∀ x ∈ a, ∀ y ∈ b, x.key.compare y.key ≠ .eq

/-- The leaves of the layout are tidy. -/
def Layout.Tidy (L : Layout) : Prop := OpenDB.Tidy (L.leaves.map Prod.snd)

namespace Tidy

variable {pre mid post : List (List LeafEntry)} {es : List LeafEntry} {leaves : List (List LeafEntry)}

theorem rank_noAlias (h : Tidy leaves) {a b : LeafEntry} (ha : a ∈ leaves.flatten)
    (hb : b ∈ leaves.flatten) (hrank : a.key.rank = b.key.rank) :
    a.key.operatorEq b.key = true := by
  apply h.noAlias a ha b hb
  exact (Value.compare_eq_eq_iff (h.keys a ha) (h.keys b hb)).2 hrank

/-- Leaves that are put together again from their pieces are tidy when the pieces are. -/
theorem coarsen (h : Tidy (pre ++ (mid ++ post))) (hsub : es ⊆ mid.flatten) :
    Tidy (pre ++ es :: post) := by
  have hmem : ∀ x ∈ (pre ++ es :: post).flatten, x ∈ (pre ++ (mid ++ post)).flatten := by
    intro x hx
    rw [List.flatten_append, List.flatten_cons, List.mem_append, List.mem_append] at hx
    rw [List.flatten_append, List.flatten_append, List.mem_append, List.mem_append]
    rcases hx with hx | hx | hx
    · exact Or.inl hx
    · exact Or.inr (Or.inl (hsub hx))
    · exact Or.inr (Or.inr hx)
  refine ⟨?_, ?_, ?_⟩
  · intro e he
    exact h.keys e (hmem e he)
  · intro a ha b hb
    exact h.noAlias a (hmem a ha) b (hmem b hb)
  · have hgroups := h.groups
    rw [List.pairwise_append, List.pairwise_append] at hgroups
    obtain ⟨hpre, ⟨-, hpost, hmidpost⟩, hcross⟩ := hgroups
    rw [List.pairwise_append, List.pairwise_cons]
    refine ⟨hpre, ⟨?_, hpost⟩, ?_⟩
    · intro b hb x hx
      obtain ⟨m, hm, hxm⟩ := List.mem_flatten.1 (hsub hx)
      exact hmidpost m hm b hb x hxm
    · intro a ha b hb x hx y hy
      rcases List.mem_cons.1 hb with rfl | hb
      · obtain ⟨m, hm, hym⟩ := List.mem_flatten.1 (hsub hy)
        exact hcross a ha m (List.mem_append_left _ hm) x hx y hym
      · exact hcross a ha b (List.mem_append_right _ hb) x hx y hy

end Tidy

/-! ## A run of calls on a tidy tree -/

/-- A version goes into the list unless its position is taken. -/
def store (es : List LeafEntry) (e : LeafEntry) : List LeafEntry :=
  if BTree.occupied e es then es else BTree.insertEntry e es

/-- A step leaves the tree alone, or replaces one leaf by pieces that hold the new version too. -/
theorem PutStep.leaves_cases {e : LeafEntry} {L L' : Layout} {b : Bool} (h : PutStep e L b L') :
    (L' = L ∧ BTree.occupied e L.scanAll = true) ∨
      ∃ pre post es mid, b = true ∧ L.leaves.map Prod.snd = pre ++ es :: post ∧
        L'.leaves.map Prod.snd = pre ++ (mid ++ post) ∧ mid.flatten = BTree.insertEntry e es := by
  cases h with
  | @occupied pre post es hsplit hocc =>
    refine Or.inl ⟨rfl, ?_⟩
    rw [Layout.scanAll, hsplit, Leaves.entries_append, Leaves.entries_cons, occupied_append,
      occupied_append, hocc, Bool.true_or, Bool.or_true]
  | @inLeaf pre post es hsplit hocc hover =>
    refine Or.inr ⟨pre.map Prod.snd, post.map Prod.snd, es, [BTree.insertEntry e es], rfl, ?_, ?_, ?_⟩
    · rw [hsplit, List.map_append, List.map_cons]
    · simp
    · simp
  | @newRoot pre post es rest first x hsplit hocc hover hright hix =>
    refine Or.inr ⟨pre.map Prod.snd, post.map Prod.snd, es,
      [leftHalf (BTree.insertEntry e es), rightHalf (BTree.insertEntry e es)], rfl, ?_, ?_, ?_⟩
    · rw [hsplit, List.map_append, List.map_cons]
    · simp
    · simp [leftHalf_append_rightHalf]
  | @newSeparator pre post es rest first x ies hsplit hocc hover hright hix hlen =>
    refine Or.inr ⟨pre.map Prod.snd, post.map Prod.snd, es,
      [leftHalf (BTree.insertEntry e es), rightHalf (BTree.insertEntry e es)], rfl, ?_, ?_, ?_⟩
    · rw [hsplit, List.map_append, List.map_cons]
    · simp
    · simp [leftHalf_append_rightHalf]

/-- A tree that is tidy after a step was tidy before it. -/
theorem PutStep.tidy_before {e : LeafEntry} {L L' : Layout} {b : Bool} (h : PutStep e L b L')
    (htidy : L'.Tidy) : L.Tidy := by
  rcases h.leaves_cases with ⟨rfl, -⟩ | ⟨pre, post, es, mid, -, hleaves, hleaves', hmid⟩
  · exact htidy
  · unfold Layout.Tidy at htidy ⊢
    rw [hleaves'] at htidy
    rw [hleaves]
    apply htidy.coarsen
    intro x hx
    rw [hmid]
    exact mem_insertEntry.2 (Or.inr hx)

theorem PutSteps.tidy_before {es : List LeafEntry} {L L' : Layout} (h : PutSteps es L L')
    (htidy : L'.Tidy) : L.Tidy := by
  induction h with
  | nil => exact htidy
  | cons _ hput _ ih => exact hput.tidy_before (ih htidy)

/-- A split that ends tidy has not cut a group. -/
theorem PutStep.not_cutsGroup {e : LeafEntry} {L L' : Layout} {b : Bool} (h : PutStep e L b L')
    (hnodup : L.leaves.pages.Nodup) (hb : b = true) (htidy : L'.Tidy) : ¬ L.CutsGroup e := by
  have hhalves : ∀ {pre post : Leaves} {es : List LeafEntry} {x : PageId} {ix : List InternalEntry},
      L.leaves = pre ++ (L.target e.key, es) :: post →
      Layout.Tidy ⟨some ix, pre ++ (L.target e.key, leftHalf (BTree.insertEntry e es)) ::
        (x, rightHalf (BTree.insertEntry e es)) :: post⟩ → ¬ L.CutsGroup e := by
    rintro pre post es x ix hsplit htidy ⟨-, l, hl, r, hr, hrank⟩
    rw [Layout.entriesAt_eq hnodup hsplit] at hl hr
    have hgroups := htidy.groups
    rw [List.map_append, List.map_cons, List.map_cons, List.pairwise_append,
      List.pairwise_cons] at hgroups
    apply hgroups.2.1.1 _ List.mem_cons_self l hl r hr
    have hkey : ∀ y, y ∈ leftHalf (BTree.insertEntry e es) ∨ y ∈ rightHalf (BTree.insertEntry e es) →
        y.key.isNaN = false := by
      intro y hy
      apply htidy.keys y
      rcases hy with hy | hy
      · simp [hy]
      · simp [hy]
    exact (Value.compare_eq_eq_iff (hkey l (Or.inl hl)) (hkey r (Or.inr hr))).2 hrank
  cases h with
  | occupied hsplit hocc => cases hb
  | inLeaf hsplit hocc hover =>
    rintro ⟨hover', -⟩
    rw [Layout.entriesAt_eq hnodup hsplit] at hover'
    exact hover hover'
  | newRoot hsplit hocc hover hright hix => exact hhalves hsplit htidy
  | newSeparator hsplit hocc hover hright hix hlen => exact hhalves hsplit htidy

/-- A step that ends in a tidy tree stores the version in the sorted list. -/
theorem Ordered.step_tidy {L L' : Layout} {e : LeafEntry} {b : Bool} (h : Ordered L)
    (hnodup : L.leaves.pages.Nodup) (hput : PutStep e L b L') (htidy : L'.Tidy) :
    Ordered L' ∧ L'.scanAll = store L.scanAll e := by
  rcases hput.leaves_cases with ⟨rfl, hocc⟩ | ⟨pre, post, es, mid, rfl, hleaves, hleaves', hmid⟩
  · exact ⟨h, by rw [store, if_pos hocc]⟩
  · have hflat' : (L'.leaves.map Prod.snd).flatten =
        pre.flatten ++ (BTree.insertEntry e es ++ post.flatten) := by
      rw [hleaves', List.flatten_append, List.flatten_append, hmid]
    have hflat : L.scanAll = pre.flatten ++ (es ++ post.flatten) := by
      show (L.leaves.map Prod.snd).flatten = _
      rw [hleaves, List.flatten_append, List.flatten_cons]
    have hmem : e ∈ (L'.leaves.map Prod.snd).flatten := by
      rw [hflat']
      simp [mem_insertEntry]
    have hsub : ∀ x ∈ L.scanAll, x ∈ (L'.leaves.map Prod.snd).flatten := by
      intro x hx
      rw [hflat, List.mem_append, List.mem_append] at hx
      rw [hflat', List.mem_append, List.mem_append, mem_insertEntry]
      tauto
    have halias : NoAlias e.key L.scanAll := by
      intro x hx hrank
      exact ⟨htidy.rank_noAlias (hsub x hx) hmem hrank, htidy.rank_noAlias hmem (hsub x hx) hrank.symm⟩
    obtain ⟨hordered, hall, hfree⟩ := h.step hnodup hput (htidy.keys e hmem) halias
      (hput.not_cutsGroup hnodup rfl htidy)
    refine ⟨hordered, ?_⟩
    rw [hall, if_pos rfl, store, if_neg (hfree.1 rfl)]

/-- A run that ends in a tidy tree stores its versions one after the other. -/
theorem Ordered.steps_tidy {L L' : Layout} {es : List LeafEntry} (h : Ordered L)
    (hsteps : PutSteps es L L') (htidy : L'.Tidy) :
    Ordered L' ∧ L'.scanAll = es.foldl store L.scanAll := by
  induction hsteps with
  | nil L => exact ⟨h, rfl⟩
  | cons hnodup hput hrest ih =>
    obtain ⟨h₁, hall⟩ := h.step_tidy hnodup hput (hrest.tidy_before htidy)
    obtain ⟨h', hall'⟩ := ih h₁ htidy
    refine ⟨h', ?_⟩
    rw [hall', hall, List.foldl_cons]

/-! ## Lookup -/

/-- A lookup stops at the version of least position among those the reader can see. -/
theorem Versions.lookup_eq_some_iff {es : List LeafEntry} (h : Versions es) {k : Value}
    (hk : k.isNaN = false) {txn visibleSeq : UInt64} {e : LeafEntry} :
    BTree.lookup k txn visibleSeq es = some e ↔
      e ∈ es ∧ (e.key.rank = k.rank ∧ BTree.visible txn visibleSeq e = true) ∧
        ∀ x ∈ es, x.key.rank = k.rank → BTree.visible txn visibleSeq x = true →
          e.position ≤ x.position := by
  have hmatch : ∀ x ∈ es, (!x.key.operatorNe k && BTree.visible txn visibleSeq x) = true ↔
      x.key.rank = k.rank ∧ BTree.visible txn visibleSeq x = true := by
    intro x hx
    rw [Bool.and_eq_true, Bool.not_eq_true', Value.operatorNe_eq_false_iff (h.keys x hx) hk]
  rw [BTree.lookup, find?_eq_some_iff_least h.sorted]
  constructor
  · rintro ⟨hmem, hsat, hleast⟩
    refine ⟨hmem, (hmatch e hmem).1 hsat, ?_⟩
    intro x hx hrank hvis
    exact hleast x hx ((hmatch x hx).2 ⟨hrank, hvis⟩)
  · rintro ⟨hmem, hsat, hleast⟩
    refine ⟨hmem, (hmatch e hmem).2 hsat, ?_⟩
    intro x hx hx'
    obtain ⟨hrank, hvis⟩ := (hmatch x hx).1 hx'
    exact hleast x hx hrank hvis

theorem Versions.lookup_eq_none_iff {es : List LeafEntry} (h : Versions es) {k : Value}
    (hk : k.isNaN = false) {txn visibleSeq : UInt64} :
    BTree.lookup k txn visibleSeq es = none ↔
      ∀ x ∈ es, x.key.rank = k.rank → BTree.visible txn visibleSeq x = false := by
  rw [BTree.lookup, List.find?_eq_none]
  refine forall₂_congr fun x hx => ?_
  rw [Bool.and_eq_true, Bool.not_eq_true', Value.operatorNe_eq_false_iff (h.keys x hx) hk, not_and,
    Bool.not_eq_true]

theorem lookup_append (k : Value) (txn visibleSeq : UInt64) (es₁ es₂ : List LeafEntry) :
    BTree.lookup k txn visibleSeq (es₁ ++ es₂) =
      (BTree.lookup k txn visibleSeq es₁).or (BTree.lookup k txn visibleSeq es₂) :=
  List.find?_append

/-! ## Scan -/

theorem Versions.sublist {es es' : List LeafEntry} (h : Versions es) (hs : es'.Sublist es) :
    Versions es' := by
  refine ⟨?_, ?_, h.sorted.sublist hs⟩
  · intro e he
    exact h.keys e (hs.subset he)
  · intro a ha b hb
    exact h.noAlias a (hs.subset ha) b (hs.subset hb)

/-- The calls of a scan for one key. -/
def callsFor (k : Value) (reported : List (Value × LookupResult)) : List LookupResult :=
  (reported.filter fun r => r.1.compare k == .eq).map Prod.snd

theorem callsFor_append (k : Value) (r₁ r₂ : List (Value × LookupResult)) :
    callsFor k (r₁ ++ r₂) = callsFor k r₁ ++ callsFor k r₂ := by
  rw [callsFor, List.filter_append, List.map_append]
  rfl

/-- What a scan has to report about the versions `es`: for every key what a lookup finds. -/
def Reports (txn visibleSeq : UInt64) (es : List LeafEntry)
    (reported : List (Value × LookupResult)) : Prop :=
  ∀ k : Value, k.isNaN = false →
    callsFor k reported = ((BTree.lookup k txn visibleSeq es).map LookupResult.ofEntry).toList

/-- Parts that share no key are reported one after the other. -/
theorem Reports.append {txn visibleSeq : UInt64} {es₁ es₂ : List LeafEntry}
    {r₁ r₂ : List (Value × LookupResult)} (h₁ : Reports txn visibleSeq es₁ r₁)
    (h₂ : Reports txn visibleSeq es₂ r₂) (hkeys : ∀ x ∈ es₁ ++ es₂, x.key.isNaN = false)
    (hdisj : ∀ x ∈ es₁, ∀ y ∈ es₂, x.key.rank ≠ y.key.rank) :
    Reports txn visibleSeq (es₁ ++ es₂) (r₁ ++ r₂) := by
  intro k hk
  rw [callsFor_append, h₁ k hk, h₂ k hk, lookup_append]
  cases hfound : BTree.lookup k txn visibleSeq es₁ with
  | none => rfl
  | some e =>
    -- the key is one of the first part, so the second has no version of it
    have hnone : BTree.lookup k txn visibleSeq es₂ = none := by
      have hmem := List.mem_of_find?_eq_some hfound
      have hsat := List.find?_some hfound
      have hnan := hkeys e (List.mem_append_left _ hmem)
      rw [Bool.and_eq_true, Bool.not_eq_true', Value.operatorNe_eq_false_iff hnan hk] at hsat
      apply lookup_eq_none hk
      intro y hy
      refine ⟨hkeys y (List.mem_append_right _ hy), ?_⟩
      rw [← hsat.1]
      exact (hdisj e hmem y hy).symm
    rw [hnone]
    rfl

/-- The versions of one key: the scan makes one call, for the first that the reader can see. -/
theorem reports_group (txn visibleSeq : UInt64) {e : LeafEntry} {group : List LeafEntry}
    (he : e.key.isNaN = false) (hkeys : ∀ x ∈ group, x.key.isNaN = false)
    (hgroup : ∀ x ∈ group, x.key.rank = e.key.rank) :
    Reports txn visibleSeq group
      ((group.find? (BTree.visible txn visibleSeq)).map fun v => (e.key, .ofEntry v)).toList := by
  intro k hk
  by_cases hrank : e.key.rank = k.rank
  · have hlookup : BTree.lookup k txn visibleSeq group =
        group.find? (BTree.visible txn visibleSeq) := by
      unfold BTree.lookup
      apply List.find?_congr
      intro x hx
      have hmatch : x.key.operatorNe k = false :=
        (Value.operatorNe_eq_false_iff (hkeys x hx) hk).2 ((hgroup x hx).trans hrank)
      rw [hmatch]
      rfl
    rw [hlookup]
    cases group.find? (BTree.visible txn visibleSeq) with
    | none => rfl
    | some v =>
      have hsame : e.key.compare k = .eq := (Value.compare_eq_eq_iff he hk).2 hrank
      simp [callsFor, hsame]
  · have hnone : BTree.lookup k txn visibleSeq group = none := by
      apply lookup_eq_none hk
      intro x hx
      refine ⟨hkeys x hx, ?_⟩
      rw [hgroup x hx]
      exact hrank
    rw [hnone]
    cases group.find? (BTree.visible txn visibleSeq) with
    | none => rfl
    | some v =>
      have hother : e.key.compare k ≠ .eq := by
        intro heq
        exact hrank ((Value.compare_eq_eq_iff he hk).1 heq)
      simp [callsFor, hother]

/-- Behind the versions of the first key there are none of it. -/
theorem Versions.rank_ne_of_mem_dropWhile {e : LeafEntry} {es : List LeafEntry}
    (h : Versions (e :: es)) :
    ∀ y ∈ (e :: es).dropWhile (fun x => x.key.operatorEq e.key), e.key.rank ≠ y.key.rank := by
  intro y hy
  cases hrest : (e :: es).dropWhile (fun x => x.key.operatorEq e.key) with
  | nil =>
    rw [hrest] at hy
    exact absurd hy List.not_mem_nil
  | cons z zs =>
    have hz : z.key.operatorEq e.key = false := by
      have := List.head?_dropWhile_not (fun x : LeafEntry => x.key.operatorEq e.key) (e :: es)
      rw [hrest] at this
      exact this
    have hsub : (z :: zs).Sublist (e :: es) := by
      rw [← hrest]
      exact List.dropWhile_sublist _
    have hsorted := h.sorted.sublist hsub
    have hzmem : z ∈ e :: es := hsub.subset List.mem_cons_self
    have hze : e.key.rank ≠ z.key.rank := by
      intro heq
      have := h.noAlias z hzmem e List.mem_cons_self heq.symm
      rw [hz] at this
      cases this
    have hle : e.key.rank ≤ z.key.rank := by
      rcases List.mem_cons.1 hzmem with rfl | hmem
      · exact le_refl _
      · exact rank_le_of_position_lt ((List.pairwise_cons.1 h.sorted).1 z hmem)
    have hlt := lt_of_le_of_ne hle hze
    rw [hrest] at hy
    rcases List.mem_cons.1 hy with rfl | hy
    · exact hlt.ne
    · exact (lt_of_lt_of_le hlt (rank_le_of_position_lt ((List.pairwise_cons.1 hsorted).1 y hy))).ne

/-- The loop over the groups of one leaf. -/
theorem scanGroups_versions (txn visibleSeq : UInt64) {fuel : Nat} {es : List LeafEntry}
    (h : Versions es) (hfuel : es.length ≤ fuel) :
    ∃ reported, BTree.scanGroups txn visibleSeq fuel es = .ok reported ∧
      Reports txn visibleSeq es reported := by
  induction fuel generalizing es with
  | zero =>
    have hnil : es = [] := List.length_eq_zero_iff.1 (Nat.le_zero.1 hfuel)
    rw [hnil]
    exact ⟨[], rfl, fun k _ => rfl⟩
  | succ fuel ih =>
    cases es with
    | nil => exact ⟨[], rfl, fun k _ => rfl⟩
    | cons e es =>
      have he := h.keys e List.mem_cons_self
      have hself := (Value.operatorEq_self_iff e.key).2 he
      set same : LeafEntry → Bool := fun x => x.key.operatorEq e.key with hsame
      have hsplit : (e :: es).takeWhile same ++ (e :: es).dropWhile same = e :: es :=
        List.takeWhile_append_dropWhile
      -- the versions of one key stand together, so the first group is all of them
      have hgroup : ∀ x ∈ (e :: es).takeWhile same, x.key.rank = e.key.rank := by
        intro x hx
        have hx' : same x = true := List.mem_takeWhile_imp hx
        exact Value.rank_eq_of_operatorEq hx'
      have hlen : ((e :: es).dropWhile same).length ≤ fuel := by
        rw [List.dropWhile_cons, if_pos (show same e = true from hself)]
        have := (List.dropWhile_sublist same (l := es)).length_le
        rw [List.length_cons] at hfuel
        omega
      obtain ⟨more, hmore, hreports⟩ := ih (h.sublist (List.dropWhile_sublist same)) hlen
      have hfirst := reports_group txn visibleSeq he
        (fun x hx => h.keys x ((List.takeWhile_sublist same).subset hx)) hgroup
      have hall := hfirst.append hreports (by rw [hsplit]; exact h.keys) (by
        intro x hx y hy
        rw [hgroup x hx]
        exact h.rank_ne_of_mem_dropWhile y hy)
      rw [hsplit] at hall
      refine ⟨_, ?_, hall⟩
      rw [BTree.scanGroups, hmore]
      cases ((e :: es).takeWhile same).find? (BTree.visible txn visibleSeq) with
      | none => rfl
      | some v => rfl

/-- The leaves of a tidy tree one after the other. -/
theorem scanLeaves_tidy (txn visibleSeq : UInt64) {leaves : List (List LeafEntry)}
    (h : Versions leaves.flatten) (htidy : Tidy leaves) :
    ∃ reported, BTree.scanLeaves txn visibleSeq leaves = .ok reported ∧
      Reports txn visibleSeq leaves.flatten reported := by
  induction leaves with
  | nil => exact ⟨[], rfl, fun k _ => rfl⟩
  | cons leaf leaves ih =>
    rw [List.flatten_cons] at h ⊢
    have hgroups := List.pairwise_cons.1 htidy.groups
    have htidy' : Tidy leaves := by
      refine ⟨?_, ?_, hgroups.2⟩
      · intro e he
        exact htidy.keys e (by rw [List.flatten_cons]; exact List.mem_append_right _ he)
      · intro a ha b hb
        apply htidy.noAlias
        · rw [List.flatten_cons]
          exact List.mem_append_right _ ha
        · rw [List.flatten_cons]
          exact List.mem_append_right _ hb
    obtain ⟨more, hmore, hreports'⟩ := ih (h.sublist (List.sublist_append_right _ _)) htidy'
    obtain ⟨first, hfirst, hreports⟩ := scanGroups_versions txn visibleSeq
      (h.sublist (List.sublist_append_left _ _)) (le_refl leaf.length)
    refine ⟨first ++ more, ?_, ?_⟩
    · rw [BTree.scanLeaves, BTree.scanLeaf, hfirst, hmore]
      rfl
    · apply hreports.append hreports' h.keys
      intro x hx y hy hrank
      obtain ⟨leaf', hleaf', hy'⟩ := List.mem_flatten.1 hy
      apply hgroups.1 leaf' hleaf' x hx y hy'
      exact (Value.compare_eq_eq_iff (h.keys x (List.mem_append_left _ hx))
        (h.keys y (List.mem_append_right _ hy))).2 hrank

/-- A search tree is tidy: its separators keep the versions of one key in one leaf. -/
theorem Ordered.tidy {L : Layout} (h : Ordered L) : L.Tidy := by
  obtain ⟨ps, hp⟩ := h.parts
  refine ⟨h.versions.keys, ?_, ?_⟩
  · intro a ha b hb heq
    apply h.versions.noAlias a ha b hb
    exact (Value.compare_eq_eq_iff (h.versions.keys a ha) (h.versions.keys b hb)).1 heq
  · rw [hp.leaves, List.map_map, List.pairwise_map]
    refine hp.order.imp_of_mem ?_
    intro a b ha hb hab x hx y hy heq
    have hmem : ∀ q ∈ ps, ∀ z ∈ q.2.2, z ∈ L.scanAll := by
      intro q hq z hz
      rw [Layout.scanAll, hp.leaves]
      exact mem_entries_map.2 ⟨q, hq, hz⟩
    have hx' := h.versions.keys x (hmem a ha x hx)
    have hy' := h.versions.keys y (hmem b hb y hy)
    have hlt : x.key.rank < y.key.rank := lt_of_lt_of_le (hab.2 x hx) ((hp.bound b hb).2 y hy)
    exact hlt.ne ((Value.compare_eq_eq_iff hx' hy').1 heq)

/-- A scan of a search tree reports for every key what a lookup among all versions finds. -/
theorem Ordered.scan_reports {t : BTree} {L : Layout} {others : List PageId} (h : Ordered L)
    (hrep : Rep t L others) (txn visibleSeq : UInt64) :
    ∃ reported, t.scan txn visibleSeq = .ok reported ∧
      Reports txn visibleSeq L.scanAll reported := by
  rw [hrep.scan_eq]
  exact scanLeaves_tidy txn visibleSeq h.versions h.tidy

/-- So does the lookup that descends through the separators. -/
theorem Ordered.get_rep {t : BTree} {L : Layout} {others : List PageId} (h : Ordered L)
    (hrep : Rep t L others) {k : Value} (hk : k.isNaN = false) (txn visibleSeq : UInt64) :
    t.get k txn visibleSeq = .ok (.ofOption (BTree.lookup k txn visibleSeq L.scanAll)) := by
  obtain ⟨pre, es, post, hsplit⟩ := hrep.exists_leaf k
  rw [hrep.get_eq, h.get_eq hrep.nodup_leafPages hk hsplit]

end OpenDB
