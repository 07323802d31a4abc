import OpenDB.Storage.Int64Runs
import OpenDB.Storage.VersionGroups

/-!
# Runs with many versions of a key

Runs of `put` with committed versions, any number of them for each key. The lookup and the scan agree
on the newest version a reader may see exactly when two things never happen in the run: no two keys
compare equal without being equal, and no split of a leaf separates versions of one key
(`agree_putAll_versions_iff`). When a split does, the scan reports the key once in each of the two
leaves, and the lookup, which follows the separators into the right one, sees none of the versions in
the left one.
-/

set_option autoImplicit false

namespace OpenDB

open OpenDB.Library

/-! ## What the readers of a tree have to agree on -/

/-- The scan reports the key at most once, the lookup finds it exactly when the scan reports it and
with the same result, and that is the version of the key with the highest commit sequence not above
`visibleSeq`. -/
structure AgreeOn (es : List LeafEntry) (visibleSeq : UInt64) (k : Value) (calls : List LookupResult)
    (r : LookupResult) : Prop where
  once : calls.length ≤ 1
  found : r.found = true ↔ calls ≠ []
  same : ∀ c ∈ calls, c = r
  version : r.found = true →
    ∃ e ∈ es, e.key.compare k = .eq ∧ e.commitSeq ≤ visibleSeq ∧ r = .ofEntry e
  newest : ∀ e ∈ es, e.key.compare k = .eq → e.commitSeq ≤ visibleSeq →
    r.found = true ∧ e.commitSeq ≤ r.commitSeq

/-- Lookup and scan agree for every reader. -/
def BTree.ReadersAgree (t : BTree) (es : List LeafEntry) : Prop :=
  ∀ txn visibleSeq, ∃ reported, t.scan txn visibleSeq = .ok reported ∧
    ∀ k : Value, k.isNaN = false → ∃ r, t.get k txn visibleSeq = .ok r ∧
      AgreeOn es visibleSeq k (callsFor k reported) r

/-- Committed versions: no key is NaN and no commit sequence occurs twice for a key. -/
structure CommittedVersions (es : List LeafEntry) : Prop where
  keys : ∀ e ∈ es, e.key.isNaN = false
  committed : ∀ e ∈ es, e.commitSeq ≠ 0
  distinct : es.Pairwise fun a b => a.key.operatorEq b.key = true → a.commitSeq ≠ b.commitSeq

/-- Keys that compare equal are equal. -/
def KeysToldApart (es : List LeafEntry) : Prop :=
  ∀ a ∈ es, ∀ b ∈ es, a.key.compare b.key = .eq → a.key.operatorEq b.key = true

/-- `put` of the version would split its leaf between two versions of one key. -/
def BTree.SplitsGroup (t : BTree) (e : LeafEntry) : Prop :=
  ∃ leafId n, t.findLeaf e.key = .ok leafId ∧ BTree.loadNode t.pager leafId = .ok n ∧
    ¬ BTree.occupied e n.leaf = true ∧ Overflows (BTree.insertEntry e n.leaf) ∧
    ∃ l ∈ leftHalf (BTree.insertEntry e n.leaf), ∃ r ∈ rightHalf (BTree.insertEntry e n.leaf),
      l.key.compare r.key = .eq

/-! ## An ordered tree without cut groups -/

theorem visible_committed {e : LeafEntry} (he : e.commitSeq ≠ 0) (txn visibleSeq : UInt64) :
    BTree.visible txn visibleSeq e = true ↔ e.commitSeq ≤ visibleSeq := by
  rw [BTree.visible, if_neg he, decide_eq_true_eq]

/-- What a lookup finds among committed versions is what the readers have to agree on. -/
theorem agreeOn_lookup {all es : List LeafEntry} (hversions : Versions all) (hperm : all.Perm es)
    (hcommitted : ∀ e ∈ es, e.commitSeq ≠ 0) {txn visibleSeq : UInt64} {k : Value}
    (hk : k.isNaN = false) :
    AgreeOn es visibleSeq k
      ((BTree.lookup k txn visibleSeq all).map LookupResult.ofEntry).toList
      (.ofOption (BTree.lookup k txn visibleSeq all)) := by
  have hmatch : ∀ e ∈ es, e.key.compare k = .eq ↔ e.key.rank = k.rank := by
    intro e he
    exact Value.compare_eq_eq_iff (hversions.keys e (hperm.mem_iff.2 he)) hk
  cases hfound : BTree.lookup k txn visibleSeq all with
  | none =>
    have hnone := (hversions.lookup_eq_none_iff hk).1 hfound
    refine ⟨Nat.zero_le 1, ?_, ?_, ?_, ?_⟩
    · simp [LookupResult.ofOption, LookupResult.none]
    · intro c hc
      exact absurd hc List.not_mem_nil
    · intro hf
      cases hf
    · intro e he heq hle
      have hinvisible := hnone e (hperm.mem_iff.2 he) ((hmatch e he).1 heq)
      rw [(visible_committed (hcommitted e he) txn visibleSeq).2 hle] at hinvisible
      cases hinvisible
  | some v =>
    obtain ⟨hmem, ⟨hrank, hvis⟩, hleast⟩ := (hversions.lookup_eq_some_iff hk).1 hfound
    have hv := hperm.mem_iff.1 hmem
    refine ⟨le_refl 1, ?_, ?_, ?_, ?_⟩
    · simp [LookupResult.ofOption, LookupResult.ofEntry]
    · intro c hc
      exact List.mem_singleton.1 hc
    · intro _
      exact ⟨v, hv, (hmatch v hv).2 hrank, (visible_committed (hcommitted v hv) _ _).1 hvis, rfl⟩
    · intro e he heq hle
      refine ⟨rfl, ?_⟩
      have hrank' := (hmatch e he).1 heq
      have hpos := hleast e (hperm.mem_iff.2 he) hrank'
        ((visible_committed (hcommitted e he) txn visibleSeq).2 hle)
      -- a smaller position of the same key has a higher commit sequence
      show e.commitSeq ≤ v.commitSeq
      rw [UInt64.le_iff_toNat_le]
      by_contra hlt
      rw [not_le] at hlt
      refine absurd hpos (not_le.2 (position_lt_iff.2 (Or.inr ⟨?_, Or.inl hlt⟩)))
      exact hrank'.trans hrank.symm

theorem Ordered.readersAgree {t : BTree} {L : Layout} {others : List PageId} (h : Ordered L)
    (hrep : Rep t L others) {es : List LeafEntry} (hperm : L.scanAll.Perm es)
    (hcommitted : ∀ e ∈ es, e.commitSeq ≠ 0) : t.ReadersAgree es := by
  intro txn visibleSeq
  obtain ⟨reported, hscan, hreports⟩ := h.scan_reports hrep txn visibleSeq
  refine ⟨reported, hscan, ?_⟩
  intro k hk
  refine ⟨_, h.get_rep hrep hk txn visibleSeq, ?_⟩
  rw [hreports k hk]
  exact agreeOn_lookup h.versions hperm hcommitted hk

/-! ## A tree with a cut group -/

theorem operatorEq_of_common {a b c : Value} (ha : a.operatorEq c = true)
    (hb : b.operatorEq c = true) : a.operatorEq b = true := by
  cases a <;> cases c <;> cases b <;> simp_all [Value.operatorEq, Double.eq]

/-- A reader who sees every version: the groups of a leaf are all reported. -/
theorem scanGroups_covers {txn visibleSeq : UInt64} {fuel : Nat} {es : List LeafEntry}
    {reported : List (Value × LookupResult)} (hkeys : ∀ e ∈ es, e.key.isNaN = false)
    (hvis : ∀ e ∈ es, BTree.visible txn visibleSeq e = true)
    (hrun : BTree.scanGroups txn visibleSeq fuel es = .ok reported) :
    ∀ x ∈ es, ∃ r ∈ reported, x.key.operatorEq r.1 = true := by
  induction fuel generalizing es reported with
  | zero =>
    cases es with
    | nil =>
      intro x hx
      exact absurd hx List.not_mem_nil
    | cons e es => cases hrun
  | succ fuel ih =>
    cases es with
    | nil =>
      intro x hx
      exact absurd hx List.not_mem_nil
    | cons e es =>
      have hself := (Value.operatorEq_self_iff e.key).2 (hkeys e List.mem_cons_self)
      set same : LeafEntry → Bool := fun x => x.key.operatorEq e.key with hsame
      have hsub : ∀ y ∈ (e :: es).dropWhile same, y ∈ e :: es :=
        fun y hy => (List.dropWhile_sublist same).subset hy
      have hfirst : ((e :: es).takeWhile same).find? (BTree.visible txn visibleSeq) = some e := by
        rw [List.takeWhile_cons, if_pos (show same e = true from hself)]
        exact List.find?_cons_of_pos (hvis e List.mem_cons_self)
      rw [BTree.scanGroups] at hrun
      obtain ⟨more, hmore, hrun⟩ := except_bind_eq_ok.1 hrun
      rw [hfirst] at hrun
      cases hrun
      have hcovers := ih (fun y hy => hkeys y (hsub y hy)) (fun y hy => hvis y (hsub y hy)) hmore
      intro x hx
      rw [← List.takeWhile_append_dropWhile (p := same) (l := e :: es), List.mem_append] at hx
      rcases hx with hx | hx
      · exact ⟨_, List.mem_cons_self, List.mem_takeWhile_imp (p := same) hx⟩
      · obtain ⟨r, hr, heq⟩ := hcovers x hx
        exact ⟨r, List.mem_cons_of_mem _ hr, heq⟩

theorem scanLeaves_cons_ok {txn visibleSeq : UInt64} {leaf : List LeafEntry}
    {leaves : List (List LeafEntry)} {reported : List (Value × LookupResult)}
    (hrun : BTree.scanLeaves txn visibleSeq (leaf :: leaves) = .ok reported) :
    ∃ first more, BTree.scanLeaf txn visibleSeq leaf = .ok first ∧
      BTree.scanLeaves txn visibleSeq leaves = .ok more ∧ reported = first ++ more := by
  rw [BTree.scanLeaves] at hrun
  obtain ⟨first, hfirst, hrun⟩ := except_bind_eq_ok.1 hrun
  obtain ⟨more, hmore, hrun⟩ := except_bind_eq_ok.1 hrun
  exact ⟨first, more, hfirst, hmore, (Except.ok.inj hrun).symm⟩

theorem scanLeaves_covers {txn visibleSeq : UInt64} {leaves : List (List LeafEntry)}
    {reported : List (Value × LookupResult)} (hkeys : ∀ e ∈ leaves.flatten, e.key.isNaN = false)
    (hvis : ∀ e ∈ leaves.flatten, BTree.visible txn visibleSeq e = true)
    (hrun : BTree.scanLeaves txn visibleSeq leaves = .ok reported) :
    ∀ x ∈ leaves.flatten, ∃ r ∈ reported, x.key.operatorEq r.1 = true := by
  induction leaves generalizing reported with
  | nil =>
    intro x hx
    exact absurd hx List.not_mem_nil
  | cons leaf leaves ih =>
    obtain ⟨first, more, hfirst, hmore, rfl⟩ := scanLeaves_cons_ok hrun
    rw [List.flatten_cons] at hkeys hvis ⊢
    have hleaf := scanGroups_covers (fun e he => hkeys e (List.mem_append_left _ he))
      (fun e he => hvis e (List.mem_append_left _ he)) hfirst
    have hrest := ih (fun e he => hkeys e (List.mem_append_right _ he))
      (fun e he => hvis e (List.mem_append_right _ he)) hmore
    intro x hx
    rcases List.mem_append.1 hx with hx | hx
    · obtain ⟨r, hr, heq⟩ := hleaf x hx
      exact ⟨r, List.mem_append_left _ hr, heq⟩
    · obtain ⟨r, hr, heq⟩ := hrest x hx
      exact ⟨r, List.mem_append_right _ hr, heq⟩

/-- A call for a key that compares equal to `k`. -/
theorem mem_callsFor {k : Value} (hk : k.isNaN = false) {x : LeafEntry} {r : Value × LookupResult}
    {reported : List (Value × LookupResult)} (hr : r ∈ reported)
    (hkey : x.key.operatorEq r.1 = true) (hrank : x.key.rank = k.rank) :
    r ∈ reported.filter fun r => r.1.compare k == .eq := by
  rw [List.mem_filter, beq_iff_eq,
    Value.compare_eq_eq_iff (Value.isNaN_of_operatorEq hkey).2 hk]
  exact ⟨hr, (Value.rank_eq_of_operatorEq hkey).symm.trans hrank⟩

theorem eq_of_length_le_one {α : Type} {l : List α} (h : l.length ≤ 1) {a b : α} (ha : a ∈ l)
    (hb : b ∈ l) : a = b := by
  match l, h with
  | [c], _ => rw [List.mem_singleton.1 ha, List.mem_singleton.1 hb]

/-- When a reader who sees every version is told each key at most once, the leaves are tidy. -/
theorem tidy_of_once {txn visibleSeq : UInt64} {leaves : List (List LeafEntry)}
    {reported : List (Value × LookupResult)} (hkeys : ∀ e ∈ leaves.flatten, e.key.isNaN = false)
    (hvis : ∀ e ∈ leaves.flatten, BTree.visible txn visibleSeq e = true)
    (hrun : BTree.scanLeaves txn visibleSeq leaves = .ok reported)
    (honce : ∀ k : Value, k.isNaN = false → (callsFor k reported).length ≤ 1) : Tidy leaves := by
  have hcovers := scanLeaves_covers hkeys hvis hrun
  refine ⟨hkeys, ?_, ?_⟩
  · intro a ha b hb heq
    have ha' := hkeys a ha
    have hrank := (Value.compare_eq_eq_iff ha' (hkeys b hb)).1 heq
    obtain ⟨r, hr, har⟩ := hcovers a ha
    obtain ⟨q, hq, hbq⟩ := hcovers b hb
    have hlen := honce a.key ha'
    rw [callsFor, List.length_map] at hlen
    have hsame := eq_of_length_le_one hlen (mem_callsFor ha' hr har rfl)
      (mem_callsFor ha' hq hbq hrank.symm)
    rw [hsame] at har
    exact operatorEq_of_common har hbq
  · -- two leaves with the same key would give two calls
    clear hcovers
    induction leaves generalizing reported with
    | nil => exact List.Pairwise.nil
    | cons leaf leaves ih =>
      obtain ⟨first, more, hfirst, hmore, rfl⟩ := scanLeaves_cons_ok hrun
      rw [List.flatten_cons] at hkeys hvis
      have hkeys' := fun e he => hkeys e (List.mem_append_right leaf he)
      have hvis' := fun e he => hvis e (List.mem_append_right leaf he)
      have honce' : ∀ k : Value, k.isNaN = false → (callsFor k more).length ≤ 1 := by
        intro k hk
        have hlen := honce k hk
        rw [callsFor_append, List.length_append] at hlen
        omega
      rw [List.pairwise_cons]
      refine ⟨?_, ih hkeys' hvis' hmore honce'⟩
      intro leaf' hleaf' x hx y hy heq
      have hx' := hkeys x (List.mem_append_left _ hx)
      have hy' := List.mem_flatten_of_mem hleaf' hy
      have hrank := (Value.compare_eq_eq_iff hx' (hkeys' y hy')).1 heq
      obtain ⟨r, hr, hxr⟩ := scanGroups_covers (fun e he => hkeys e (List.mem_append_left _ he))
        (fun e he => hvis e (List.mem_append_left _ he)) hfirst x hx
      obtain ⟨q, hq, hyq⟩ := scanLeaves_covers hkeys' hvis' hmore y hy'
      have hlen := honce x.key hx'
      rw [callsFor_append, List.length_append, callsFor, callsFor, List.length_map,
        List.length_map] at hlen
      have hone := List.length_pos_of_mem (mem_callsFor hx' hr hxr rfl)
      have htwo := List.length_pos_of_mem (mem_callsFor hx' hq hyq hrank.symm)
      omega

/-! ## Runs -/

theorem Rep.splitsGroup_iff {t : BTree} {L : Layout} {others : List PageId} (h : Rep t L others)
    {e : LeafEntry} (hkeys : ∀ x ∈ e :: L.scanAll, x.key.isNaN = false)
    (hfree : ¬ BTree.occupied e L.scanAll = true) : t.SplitsGroup e ↔ L.CutsGroup e := by
  obtain ⟨pre, es, post, hsplit⟩ := h.exists_leaf e.key
  have hentries := Layout.entriesAt_eq h.nodup_leafPages hsplit
  have hload := h.loadNode_leaf hsplit
  have hmem : ∀ x ∈ BTree.insertEntry e es, x.key.isNaN = false := by
    intro x hx
    apply hkeys
    rcases mem_insertEntry.1 hx with rfl | hx
    · exact List.mem_cons_self
    · apply List.mem_cons_of_mem
      rw [Layout.scanAll, hsplit, Leaves.entries_append, Leaves.entries_cons]
      exact List.mem_append_right _ (List.mem_append_left _ hx)
  have hocc : ¬ BTree.occupied e es = true := by
    rw [Layout.scanAll, hsplit, Leaves.entries_append, Leaves.entries_cons, occupied_append,
      occupied_append, Bool.or_eq_true, Bool.or_eq_true, not_or, not_or] at hfree
    exact hfree.2.1
  have hhalf : ∀ x, x ∈ leftHalf (BTree.insertEntry e es) ∨ x ∈ rightHalf (BTree.insertEntry e es) →
      x.key.isNaN = false := by
    intro x hx
    apply hmem
    rw [← leftHalf_append_rightHalf (BTree.insertEntry e es)]
    exact List.mem_append.2 hx
  rw [Layout.CutsGroup, hentries]
  constructor
  · rintro ⟨leafId, n, hfind, hn, -, hover, l, hl, r, hr, heq⟩
    rw [h.findLeaf_eq] at hfind
    cases hfind
    rw [hload] at hn
    cases hn
    exact ⟨hover, l, hl, r, hr,
      (Value.compare_eq_eq_iff (hhalf l (Or.inl hl)) (hhalf r (Or.inr hr))).1 heq⟩
  · rintro ⟨hover, l, hl, r, hr, heq⟩
    exact ⟨_, _, h.findLeaf_eq e.key, hload, hocc, hover, l, hl, r, hr,
      (Value.compare_eq_eq_iff (hhalf l (Or.inl hl)) (hhalf r (Or.inr hr))).2 heq⟩

theorem run_putAll_rest {pre rest : List LeafEntry} {t t₁ t' : BTree} {bs bs₁ : List Bool}
    (hrun : (BTree.putAll (pre ++ rest)).run t = .ok bs t')
    (hpre : (BTree.putAll pre).run t = .ok bs₁ t₁) :
    ∃ bs₂, (BTree.putAll rest).run t₁ = .ok bs₂ t' := by
  induction pre generalizing t bs bs₁ with
  | nil =>
    cases hpre
    exact ⟨bs, hrun⟩
  | cons e pre ih =>
    obtain ⟨b, u, bs', hput, hrest, -⟩ := run_putAll_cons.1 hrun
    obtain ⟨b', u', bs₁', hput', hpre', -⟩ := run_putAll_cons.1 hpre
    rw [hput] at hput'
    cases hput'
    exact ih hrest hpre'

theorem run_putAll_append {pre rest : List LeafEntry} {t t₁ t' : BTree} {bs₁ bs₂ : List Bool}
    (hpre : (BTree.putAll pre).run t = .ok bs₁ t₁) (hrest : (BTree.putAll rest).run t₁ = .ok bs₂ t') :
    ∃ bs, (BTree.putAll (pre ++ rest)).run t = .ok bs t' := by
  induction pre generalizing t bs₁ with
  | nil =>
    cases hpre
    exact ⟨bs₂, hrest⟩
  | cons e pre ih =>
    obtain ⟨b, u, bs', hput, hpre', -⟩ := run_putAll_cons.1 hpre
    obtain ⟨bs, hrun⟩ := ih hpre'
    exact ⟨b :: bs, run_putAll_cons.2 ⟨b, u, bs, hput, hrun, rfl⟩⟩

/-- The position of a version that has not been put yet is free. -/
theorem CommittedVersions.free {done rest : List LeafEntry} {e : LeafEntry}
    (h : CommittedVersions (done ++ e :: rest)) {all : List LeafEntry} (hperm : all.Perm done) :
    ¬ BTree.occupied e all = true := by
  intro hocc
  rw [BTree.occupied, List.any_eq_true] at hocc
  obtain ⟨x, hx, hsame⟩ := hocc
  simp only [Bool.and_eq_true, beq_iff_eq] at hsame
  have hx' := hperm.mem_iff.1 hx
  exact (List.pairwise_append.1 h.distinct).2.2 x hx' e List.mem_cons_self hsame.1.1 hsame.1.2

/-- Every version of the run is accepted. -/
theorem rep_putAll_versions {p : Pager} {live : List PageId} (hp : p.Owns live) {root : PageId}
    {t₀ t : BTree} (hnew : BTree.createNew.run ⟨p, 0⟩ = .ok root t₀) {es : List LeafEntry}
    {bs : List Bool} (hrun : (BTree.putAll es).run t₀ = .ok bs t) (hes : CommittedVersions es) :
    ∃ L, Rep t L live ∧ L.scanAll.Perm es := by
  obtain ⟨L, hrep, hperm, hlen⟩ := putAll_induct
    (fun done L => L.scanAll.Perm (done.map Prod.fst)) hp hnew hrun (List.Perm.refl _) (by
      intro done e rest L b L' hall hnodup hinv hput
      rw [← hall] at hes
      have hfree := hes.free hinv
      have htrue : b = true := by
        rcases hput.leaves_cases with ⟨-, hocc⟩ | ⟨-, -, -, -, hb, -⟩
        · exact absurd hocc hfree
        · exact hb
      have hstep := hput.scanAll_perm
      rw [htrue, if_pos rfl] at hstep
      rw [List.map_append, List.map_cons, List.map_nil]
      exact hstep.trans ((hinv.cons e).trans (List.perm_append_singleton e _).symm))
  rw [List.map_fst_zip hlen.ge] at hperm
  exact ⟨L, hrep, hperm⟩

/-- A run that never splits a group ends in a search tree. -/
theorem Rep.putAll_uncut {t t' : BTree} {L : Layout} {others : List PageId}
    {done es : List LeafEntry} {bs : List Bool} (hrep : Rep t L others) (hordered : Ordered L)
    (hperm : L.scanAll.Perm done) (hes : CommittedVersions (done ++ es))
    (hkeys : KeysToldApart (done ++ es))
    (hcut : ∀ pre e post, es = pre ++ e :: post →
      ∀ bs u, (BTree.putAll pre).run t = .ok bs u → ¬ u.SplitsGroup e)
    (hrun : (BTree.putAll es).run t = .ok bs t') : ∃ L', Rep t' L' others ∧ Ordered L' := by
  induction es generalizing t L done bs with
  | nil =>
    cases hrun
    exact ⟨L, hrep, hordered⟩
  | cons e es ih =>
    obtain ⟨b, t₁, bs', hput, hrest, -⟩ := run_putAll_cons.1 hrun
    obtain ⟨L₁, hstep, hrep₁, -⟩ := hrep.put_ok hput
    have hfree := hes.free hperm
    have he := hes.keys e (by simp)
    have hnan : ∀ x ∈ e :: L.scanAll, x.key.isNaN = false := by
      intro x hx
      rcases List.mem_cons.1 hx with rfl | hx
      · exact he
      · exact hes.keys x (List.mem_append_left _ (hperm.mem_iff.1 hx))
    have halias : NoAlias e.key L.scanAll := by
      intro x hx hrank
      have hx' : x ∈ done ++ e :: es := List.mem_append_left _ (hperm.mem_iff.1 hx)
      have heq := (Value.compare_eq_eq_iff (hes.keys x hx') he).2 hrank
      have heq' := (Value.compare_eq_eq_iff he (hes.keys x hx')).2 hrank.symm
      exact ⟨hkeys x hx' e (by simp) heq, hkeys e (by simp) x hx' heq'⟩
    -- the run up to here is empty, so the hypothesis speaks of the first row itself
    have hnot : ¬ L.CutsGroup e := by
      rw [← hrep.splitsGroup_iff hnan hfree]
      exact hcut [] e es rfl [] t rfl
    obtain ⟨hordered₁, hall, hb⟩ := hordered.step hrep.nodup_leafPages hstep he halias hnot
    rw [hb.2 hfree, if_pos rfl] at hall
    have hperm₁ : L₁.scanAll.Perm (done ++ [e]) := by
      rw [hall]
      exact (insertEntry_perm e _).trans ((hperm.cons e).trans (List.perm_append_singleton e _).symm)
    have hassoc : done ++ [e] ++ es = done ++ e :: es := by simp
    refine ih hrep₁ hordered₁ hperm₁ (by rw [hassoc]; exact hes) (by rw [hassoc]; exact hkeys) ?_ hrest
    intro pre x post hsplit bs u hpre
    refine hcut (e :: pre) x post (by rw [hsplit]; rfl) (b :: bs) u ?_
    exact run_putAll_cons.2 ⟨b, t₁, bs, hput, hpre, rfl⟩

/-- When the readers agree, the leaves are tidy. -/
theorem Rep.tidy_of_readersAgree {t : BTree} {L : Layout} {others : List PageId}
    {es : List LeafEntry} (hrep : Rep t L others) (hperm : L.scanAll.Perm es)
    (hes : CommittedVersions es) (hagree : t.ReadersAgree es) : L.Tidy := by
  obtain ⟨reported, hscan, hreaders⟩ := hagree 0 (UInt64.ofNat (2 ^ 64 - 1))
  rw [hrep.scan_eq] at hscan
  have hmem : ∀ x ∈ (L.leaves.map Prod.snd).flatten, x ∈ es := fun x hx => hperm.mem_iff.1 hx
  -- the reader of the highest sequence number sees everything
  have hvis : ∀ x ∈ (L.leaves.map Prod.snd).flatten,
      BTree.visible 0 (UInt64.ofNat (2 ^ 64 - 1)) x = true := by
    intro x hx
    apply (visible_committed (hes.committed x (hmem x hx)) _ _).2
    rw [UInt64.le_iff_toNat_le, UInt64.toNat_ofNat']
    have := x.commitSeq.toNat_lt
    omega
  refine tidy_of_once (fun x hx => hes.keys x (hmem x hx)) hvis hscan ?_
  intro k hk
  obtain ⟨r, -, hon⟩ := hreaders k hk
  exact hon.once

/-- Lookup and scan after a run with any number of committed versions for each key: they agree for
every reader exactly when keys that compare equal are equal and no call of the run splits a leaf
between two versions of one key. -/
theorem agree_putAll_versions_iff {p : Pager} {live : List PageId} (hp : p.Owns live) {root : PageId}
    {t₀ t : BTree} (hnew : BTree.createNew.run ⟨p, 0⟩ = .ok root t₀) {es : List LeafEntry}
    {bs : List Bool} (hrun : (BTree.putAll es).run t₀ = .ok bs t) (hes : CommittedVersions es) :
    t.ReadersAgree es ↔ KeysToldApart es ∧ ∀ pre e post, es = pre ++ e :: post →
      ∀ bs u, (BTree.putAll pre).run t₀ = .ok bs u → ¬ u.SplitsGroup e := by
  have hrep₀ := (rep_createNew hp hnew).1
  constructor
  · intro hagree
    obtain ⟨L, hrep, hperm⟩ := rep_putAll_versions hp hnew hrun hes
    have htidy := hrep.tidy_of_readersAgree hperm hes hagree
    refine ⟨?_, ?_⟩
    · intro a ha b hb
      exact htidy.noAlias a (hperm.mem_iff.2 ha) b (hperm.mem_iff.2 hb)
    · intro pre e post hsplit bs₁ u hpre
      rw [hsplit] at hes hrun
      obtain ⟨bs₂, hrest⟩ := run_putAll_rest hrun hpre
      obtain ⟨b, u₁, bs₃, hput, hpost, -⟩ := run_putAll_cons.1 hrest
      have hpre' : CommittedVersions pre := by
        refine ⟨fun x hx => hes.keys x (List.mem_append_left _ hx),
          fun x hx => hes.committed x (List.mem_append_left _ hx), ?_⟩
        exact (List.pairwise_append.1 hes.distinct).1
      obtain ⟨L₁, hrep₁, hperm₁⟩ := rep_putAll_versions hp hnew hpre hpre'
      obtain ⟨L₂, hstep, hrep₂, -⟩ := hrep₁.put_ok hput
      obtain ⟨L₃, hsteps, hrep₃, -⟩ := hrep₂.putAll_ok hpost
      -- the tree has one layout, so the last one is tidy
      have hsame : L₃.leaves = L.leaves := by
        have hchain := hrep₃.leafChain_eq
        rw [hrep.leafChain_eq] at hchain
        exact (Except.ok.inj hchain).symm
      have htidy₃ : L₃.Tidy := by
        unfold Layout.Tidy
        rw [hsame]
        exact htidy
      have hfree := hes.free hperm₁
      have htrue : b = true := by
        rcases hstep.leaves_cases with ⟨-, hocc⟩ | ⟨-, -, -, -, hb, -⟩
        · exact absurd hocc hfree
        · exact hb
      have hnan : ∀ x ∈ e :: L₁.scanAll, x.key.isNaN = false := by
        intro x hx
        rcases List.mem_cons.1 hx with rfl | hx
        · exact hes.keys x (by simp)
        · exact hes.keys x (List.mem_append_left _ (hperm₁.mem_iff.1 hx))
      rw [hrep₁.splitsGroup_iff hnan hfree]
      exact hstep.not_cutsGroup hrep₁.nodup_leafPages htrue (hsteps.tidy_before htidy₃)
  · rintro ⟨hkeys, hcut⟩
    obtain ⟨L, hrep, hordered⟩ := hrep₀.putAll_uncut (ordered_empty root)
      (show (Layout.empty root).scanAll.Perm [] from List.Perm.refl _) hes hkeys hcut hrun
    obtain ⟨L', hrep', hperm⟩ := rep_putAll_versions hp hnew hrun hes
    have hsame : L'.scanAll = L.scanAll := by
      have hall := hrep'.scanAll_eq
      rw [hrep.scanAll_eq] at hall
      exact (Except.ok.inj hall).symm
    rw [hsame] at hperm
    exact hordered.readersAgree hrep hperm hes.committed

/-- Versions 1 to `n` of the row 500. -/
def versions (n : Nat) : List LeafEntry :=
  (List.range n).map fun i => row 500 (UInt64.ofNat (i + 1)) 1 false

theorem committedVersions_versions {n : Nat} (hn : n ≤ 65) : CommittedVersions (versions n) := by
  have hseq : ∀ i < n, (UInt64.ofNat (i + 1)).toNat = i + 1 := by
    intro i hi
    rw [UInt64.toNat_ofNat', Nat.mod_eq_of_lt (by omega)]
  refine ⟨?_, ?_, ?_⟩
  · intro e he
    obtain ⟨i, -, rfl⟩ := List.mem_map.1 he
    rfl
  · intro e he heq
    obtain ⟨i, hi, rfl⟩ := List.mem_map.1 he
    have hzero : (UInt64.ofNat (i + 1)).toNat = 0 := congrArg UInt64.toNat heq
    rw [hseq i (List.mem_range.1 hi)] at hzero
    omega
  · rw [versions, List.pairwise_map]
    refine List.pairwise_lt_range.imp_of_mem ?_
    intro i j hi hj hlt _ heq
    have hsame : (UInt64.ofNat (i + 1)).toNat = (UInt64.ofNat (j + 1)).toNat :=
      congrArg UInt64.toNat heq
    rw [hseq i (List.mem_range.1 hi), hseq j (List.mem_range.1 hj)] at hsame
    omega

/-- Three versions of one row fit a leaf. -/
theorem agree_putAll_three_versions : ∃ root t₀ t bs,
    BTree.createNew.run ⟨Pager.new 65536 (by decide), 0⟩ = .ok root t₀ ∧
      (BTree.putAll (versions 3)).run t₀ = .ok bs t ∧
      (t.ReadersAgree (versions 3) ↔ KeysToldApart (versions 3) ∧
        ∀ pre e post, versions 3 = pre ++ e :: post →
          ∀ bs u, (BTree.putAll pre).run t₀ = .ok bs u → ¬ u.SplitsGroup e) := by
  have howns := Pager.owns_new (show 65536 < 2 ^ 32 by decide) (by decide)
  obtain ⟨root, t₀, hnew, -⟩ := exists_new_tree
  obtain ⟨bs, t, hrun, -⟩ := (rep_createNew howns hnew).1.putAll_one_leaf
    (show LeafTakes [] (versions 3) by decide)
  exact ⟨root, t₀, t, bs, hnew, hrun,
    agree_putAll_versions_iff howns hnew hrun (committedVersions_versions (by decide))⟩

theorem Rep.room_putAll {t t' : BTree} {L : Layout} {others : List PageId} {es : List LeafEntry}
    {bs : List Bool} (h : Rep t L others) (hrun : (BTree.putAll es).run t = .ok bs t') :
    t.pager.room ≤ t'.pager.room + 2 * es.length := by
  induction es generalizing t L bs with
  | nil =>
    cases hrun
    exact Nat.le_refl _
  | cons e es ih =>
    obtain ⟨b, t₁, bs', hput, hrest, -⟩ := run_putAll_cons.1 hrun
    obtain ⟨L₁, -, hrep₁, -, hroom, -⟩ := h.put_ok hput
    have hmore := ih hrep₁ hrest
    rw [List.length_cons]
    omega

/-- 65 versions of one row: the last call splits the leaf in the middle of them, and the readers do
not agree any more. -/
theorem readers_disagree_after_65_versions : ∃ root t₀ t bs,
    BTree.createNew.run ⟨Pager.new 65536 (by decide), 0⟩ = .ok root t₀ ∧
      (BTree.putAll (versions 65)).run t₀ = .ok bs t ∧ CommittedVersions (versions 65) ∧
      (∀ e ∈ versions 65, e.key.type = .int64) ∧ ¬ t.ReadersAgree (versions 65) := by
  have howns := Pager.owns_new (show 65536 < 2 ^ 32 by decide) (by decide)
  obtain ⟨root, t₀, hnew, hroom₀⟩ := exists_new_tree
  have hrep₀ := (rep_createNew howns hnew).1
  have hsmall : ∀ n, ∀ e ∈ versions n, e.size ≤ 60 ∧ e.key = .int64 500 := by
    intro n e he
    obtain ⟨i, -, rfl⟩ := List.mem_map.1 he
    refine ⟨?_, rfl⟩
    simp [row, LeafEntry.size, Value.toBytes, Tuple.length_encodeTuple_empty]
  have hlen : ∀ n, (versions n).length = n := by
    intro n
    rw [versions, List.length_map, List.length_range]
  have hbytes := approxBytes_le fun e he => (hsmall 64 e he).1
  rw [hlen] at hbytes
  -- the first 64 versions fill one leaf
  obtain ⟨bs₁, t₁, hrun₁, hrep₁, -⟩ := hrep₀.putAll_one_leaf
    (show LeafTakes [] (versions 64) from ⟨show 0 + (versions 64).length ≤ 64 by rw [hlen],
      show 0 + approxBytes (versions 64) ≤ 4024 by omega⟩)
  generalize leafAfter [] (versions 64) = ys at hrep₁
  have hes := committedVersions_versions (le_refl 65)
  set e : LeafEntry := row 500 65 1 false with he
  have hsplit : versions 65 = versions 64 ++ [e] := by
    unfold versions
    rw [List.range_succ, List.map_append]
    rfl
  obtain ⟨L, hrepL, hperm⟩ := rep_putAll_versions howns hnew hrun₁
    (committedVersions_versions (show 64 ≤ 65 by decide))
  have hall : L.scanAll = ys := by
    have hscan := hrepL.scanAll_eq
    rw [hrep₁.scanAll_eq] at hscan
    have heq := Except.ok.inj hscan
    rw [← heq]
    simp [Layout.scanAll, Leaves.entries]
  rw [hall] at hperm
  have hys : ∀ x ∈ ys, x.size ≤ 60 ∧ x.key = .int64 500 :=
    fun x hx => hsmall 64 x (hperm.mem_iff.1 hx)
  have hcount : ys.length = 64 := by rw [hperm.length_eq, hlen]
  have hscanAll : (⟨none, [(root, ys)]⟩ : Layout).scanAll = ys := by
    simp [Layout.scanAll, Leaves.entries]
  have hlayout : SmallLayout ⟨none, [(root, ys)]⟩ := by
    refine ⟨?_, fun ies hies => by cases hies⟩
    intro x hx
    rw [hscanAll] at hx
    refine ⟨(hys x hx).1, ?_⟩
    rw [(hys x hx).2]
    decide
  rw [hsplit] at hes
  have hfree : ¬ BTree.occupied e (⟨none, [(root, ys)]⟩ : Layout).scanAll = true := by
    rw [hscanAll]
    exact hes.free hperm
  have hroom := hrep₀.room_putAll hrun₁
  rw [hlen, hroom₀] at hroom
  -- the 65th version finds room for two new pages
  rcases hrep₁.put_small hlayout (show e.size ≤ 60 by decide) (show e.key.toBytes.length ≤ 9 by decide)
    hfree with ⟨t, hput, -⟩ | ⟨f, t', hput, hfull, -⟩ | ⟨t', -, hfew⟩
  · have hone : (BTree.putAll [e]).run t₁ = .ok [true] t := run_putAll_cons.2 ⟨true, t, [], hput, rfl, rfl⟩
    have hrun : ∃ bs, (BTree.putAll (versions 64 ++ [e])).run t₀ = .ok bs t :=
      run_putAll_append hrun₁ hone
    obtain ⟨bs, hrun⟩ := hrun
    rw [hsplit]
    refine ⟨root, t₀, t, bs, hnew, hrun, hes, ?_, ?_⟩
    · intro x hx
      rw [← hsplit] at hx
      rw [(hsmall 65 x hx).2]
      rfl
    · intro hagree
      obtain ⟨L₁, hstep, hrep, -⟩ := hrep₁.put_ok hput
      obtain ⟨L₂, hrep₂, hperm₂⟩ := rep_putAll_versions howns hnew hrun hes
      have htidy₂ := hrep₂.tidy_of_readersAgree hperm₂ hes hagree
      have htidy : L₁.Tidy := by
        have hchain := hrep.leafChain_eq
        rw [hrep₂.leafChain_eq] at hchain
        have hsame := Except.ok.inj hchain
        unfold Layout.Tidy at htidy₂ ⊢
        rw [← hsame]
        exact htidy₂
      refine hstep.not_cutsGroup hrep₁.nodup_leafPages rfl htidy ?_
      have hleaf : Layout.entriesAt ⟨none, [(root, ys)]⟩
          (Layout.target ⟨none, [(root, ys)]⟩ e.key) = ys := by
        simp [Layout.entriesAt, Layout.target]
      rw [Layout.CutsGroup, hleaf]
      have hinsert : ∀ x ∈ BTree.insertEntry e ys, x.key = .int64 500 := by
        intro x hx
        rcases mem_insertEntry.1 hx with rfl | hx
        · rfl
        · exact (hys x hx).2
      have htotal : (BTree.insertEntry e ys).length = 65 := by
        rw [length_insertEntry, hcount]
      have hleft : leftHalf (BTree.insertEntry e ys) ≠ [] := by
        intro hnil
        have := congrArg List.length hnil
        rw [leftHalf, List.length_take, htotal] at this
        simp at this
      have hright : rightHalf (BTree.insertEntry e ys) ≠ [] := by
        intro hnil
        have := congrArg List.length hnil
        rw [rightHalf, List.length_drop, htotal] at this
        simp at this
      obtain ⟨l, hl⟩ := List.exists_mem_of_ne_nil _ hleft
      obtain ⟨r, hr⟩ := List.exists_mem_of_ne_nil _ hright
      refine ⟨Or.inl (by omega), l, hl, r, hr, ?_⟩
      rw [hinsert l (List.mem_of_mem_take hl), hinsert r (List.mem_of_mem_drop hr)]
  · obtain ⟨⟨ies, hix, -⟩, -⟩ := (hrep₁.rootFull_iff (show
      (⟨none, [(root, ys)]⟩ : Layout).leaves = [] ++ (_, ys) :: [] from rfl)).1 hfull
    cases hix
  · omega

end OpenDB
