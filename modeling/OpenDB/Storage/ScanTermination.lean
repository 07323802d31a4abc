import OpenDB.Library.Halting
import OpenDB.Storage.FiniteChains
import OpenDB.Types.ValueOrder
import Mathlib.Data.List.TakeWhile

/-!
# Scans that end

`scan` goes down to the leftmost leaf and along the chain, and in a leaf from one group of equal keys to
the next. It is taken here step by step, without a bound on the number of steps, and with a callback
that has a state of its own and may stop the scan or throw.

The tree and the chain are finite in every tree that calls of `put` lead to, so what decides is whether
the scan gets out of every group. A group is what equals its first key, and a NaN does not equal itself:
the scan ends if and only if no NaN is among the keys that it comes across (`scansTerminate_iff`).
-/

set_option autoImplicit false

namespace OpenDB

open OpenDB.Library

namespace BTree

variable {σ : Type}

/-- What `scan` hands its findings to. It says whether the scan is to go on. -/
abbrev ScanCallback (σ : Type) := Value → LookupResult → EStateM Fault σ Bool

/-- Where a scan is: on its way down, at a page of the chain, in a leaf with the entries that are left of
it, or at its end. -/
inductive ScanPoint where
  | descent (cur : PageId)
  | chain (cur : PageId)
  | groups (rest : List LeafEntry) (rightSibling : PageId)
  | stopped (fault : Option Fault)

/-- The scan after the callback. -/
def afterCallback (next : ScanPoint) : EStateM.Result Fault σ Bool → ScanPoint × σ
  | .ok true s => (next, s)
  | .ok false s => (.stopped none, s)
  | .error f s => (.stopped (some f), s)

/-- One round of one of the loops of `scan`. -/
def scanStep (p : Pager) (txn visibleSeq : UInt64) (cb : ScanCallback σ) :
    ScanPoint × σ → Option (ScanPoint × σ)
  | (.descent cur, s) =>
    match loadNode p cur with
    | .error f => some (.stopped (some f), s)
    | .ok n =>
      if n.hdr.type = .leaf then some (.chain cur, s)
      else
        match n.internal with
        | [] => some (.stopped (some .outOfBounds), s)
        | e :: _ => some (.descent e.child, s)
  | (.chain cur, s) =>
    if cur = 0 then some (.stopped none, s)
    else
      match loadNode p cur with
      | .error f => some (.stopped (some f), s)
      | .ok n => some (.groups n.leaf n.hdr.rightSibling, s)
  | (.groups [] rightSibling, s) => some (.chain rightSibling, s)
  | (.groups (e :: es) rightSibling, s) =>
    let group := (e :: es).takeWhile fun x => x.key.operatorEq e.key
    let next := ScanPoint.groups ((e :: es).dropWhile fun x => x.key.operatorEq e.key) rightSibling
    match group.find? (visible txn visibleSeq) with
    | none => some (next, s)
    | some v => some (afterCallback next ((cb e.key (.ofEntry v)).run s))
  | (.stopped _, _) => none

/-- The scan comes to an end. -/
def ScanTerminates (t : BTree) (txn visibleSeq : UInt64) (cb : ScanCallback σ) (s : σ) : Prop :=
  Halts (scanStep t.pager txn visibleSeq cb) (.descent t.rootPageId, s)

/-- All scans come to an end. -/
def ScansTerminate (t : BTree) : Prop :=
  ∀ (σ : Type) (txn visibleSeq : UInt64) (cb : ScanCallback σ) (s : σ),
    t.ScanTerminates txn visibleSeq cb s

/-- The chain from a page on holds the entry. -/
inductive OnChain (p : Pager) : PageId → LeafEntry → Prop where
  | here {page : PageId} {n : Node} {e : LeafEntry} (hpage : page ≠ 0)
      (hload : loadNode p page = .ok n) (hmem : e ∈ n.leaf) : OnChain p page e
  | next {page : PageId} {n : Node} {e : LeafEntry} (hpage : page ≠ 0)
      (hload : loadNode p page = .ok n) (hrest : OnChain p n.hdr.rightSibling e) : OnChain p page e

/-- A scan comes across the entry. -/
def Scanned (t : BTree) (e : LeafEntry) : Prop :=
  ∃ first, t.leftmost = .ok first ∧ OnChain t.pager first e

/-! ## One leaf -/

section Steps

variable {p : Pager} {txn visibleSeq : UInt64} {cb : ScanCallback σ} {page sibling : PageId}
  {rest : List LeafEntry} {s : σ}

/-- A NaN does not even equal itself, so it has no group to get past. -/
theorem group_of_isNaN {e : LeafEntry} (h : e.key.isNaN = true) (es : List LeafEntry) :
    (e :: es).takeWhile (fun x => x.key.operatorEq e.key) = [] ∧
      (e :: es).dropWhile (fun x => x.key.operatorEq e.key) = e :: es := by
  have hself : ¬ e.key.operatorEq e.key = true := by
    rw [Value.operatorEq_self_iff, h]
    decide
  exact ⟨List.takeWhile_cons_of_neg hself, List.dropWhile_cons_of_neg hself⟩

theorem length_dropWhile_lt {e : LeafEntry} (h : e.key.isNaN = false) (es : List LeafEntry) :
    ((e :: es).dropWhile fun x => x.key.operatorEq e.key).length < (e :: es).length := by
  have hself : e.key.operatorEq e.key = true := (Value.operatorEq_self_iff e.key).2 h
  rw [List.dropWhile_cons, if_pos hself, List.length_cons]
  exact Nat.lt_succ_of_le (List.dropWhile_sublist _).length_le

/-- A scan does not get past a NaN. -/
theorem not_halts_of_isNaN {e : LeafEntry} {es : List LeafEntry} (h : e.key.isNaN = true) :
    ¬ Halts (scanStep p txn visibleSeq cb) (.groups (e :: es) sibling, s) := by
  refine not_halts_of_fixed ?_
  rw [scanStep, (group_of_isNaN h es).1, (group_of_isNaN h es).2]
  rfl

/-- Without one it gets through the leaf, unless the callback stops it. -/
theorem halts_groups (hkeys : ∀ e ∈ rest, e.key.isNaN = false)
    (hnext : ∀ s, Halts (scanStep p txn visibleSeq cb) (.chain sibling, s)) (s : σ) :
    Halts (scanStep p txn visibleSeq cb) (.groups rest sibling, s) := by
  induction hlen : rest.length using Nat.strong_induction_on generalizing rest s with
  | _ n ih =>
    cases rest with
    | nil =>
      have hstep : scanStep p txn visibleSeq cb (.groups [] sibling, s) = some (.chain sibling, s) := rfl
      exact (halts_iff hstep).2 (hnext s)
    | cons e es =>
      have hrest : ∀ s, Halts (scanStep p txn visibleSeq cb)
          (.groups ((e :: es).dropWhile fun x => x.key.operatorEq e.key) sibling, s) := by
        intro s
        refine ih _ ?_ (fun x hx => hkeys x ((List.dropWhile_sublist _).subset hx)) s rfl
        exact hlen ▸ length_dropWhile_lt (hkeys e List.mem_cons_self) es
      cases hfind : ((e :: es).takeWhile fun x => x.key.operatorEq e.key).find?
          (visible txn visibleSeq) with
      | none =>
        refine (halts_iff ?_).2 (hrest s)
        rw [scanStep, hfind]
      | some v =>
        have hstep : scanStep p txn visibleSeq cb (.groups (e :: es) sibling, s) =
            some (afterCallback (.groups ((e :: es).dropWhile fun x => x.key.operatorEq e.key) sibling)
              ((cb e.key (.ofEntry v)).run s)) := by
          rw [scanStep, hfind]
        rw [halts_iff hstep]
        cases (cb e.key (.ofEntry v)).run s with
        | error f s' => exact halts_of_none rfl
        | ok goOn s' =>
          cases goOn with
          | false => exact halts_of_none rfl
          | true => exact hrest s'

/-! ## The chain -/

theorem scanStep_chain {n : Node} (hpage : page ≠ 0) (hload : loadNode p page = .ok n) :
    scanStep p txn visibleSeq cb (.chain page, s) = some (.groups n.leaf n.hdr.rightSibling, s) := by
  rw [scanStep, if_neg hpage, hload]

theorem halts_chain {live : List PageId}
    (h : ChainEnds p live (fun e => e.key.isNaN = false) page) (s : σ) :
    Halts (scanStep p txn visibleSeq cb) (.chain page, s) := by
  have hlast : ∀ s, Halts (scanStep p txn visibleSeq cb) (.chain 0, s) := by
    intro s
    have hstep : scanStep p txn visibleSeq cb (.chain 0, s) = some (.stopped none, s) := by
      rw [scanStep, if_pos rfl]
    exact (halts_iff hstep).2 (halts_of_none rfl)
  induction h generalizing s with
  | last => exact hlast s
  | @leaf page sibling es hlive hload hsmall hentries hrest ih =>
    by_cases hpage : page = 0
    · rw [hpage]
      exact hlast s
    · exact (halts_iff (scanStep_chain hpage hload)).2 (halts_groups hentries ih s)

/-- The callback never stops the scan. -/
def GoesOn (cb : ScanCallback σ) : Prop := ∀ key r s, ∃ s', (cb key r).run s = .ok true s'

/-- Then one round in a leaf takes the scan past the first group. -/
theorem scanStep_groups (hcb : GoesOn cb) (e : LeafEntry) (es : List LeafEntry) :
    ∃ s', scanStep p txn visibleSeq cb (.groups (e :: es) sibling, s) =
      some (.groups ((e :: es).dropWhile fun x => x.key.operatorEq e.key) sibling, s') := by
  cases hfind : ((e :: es).takeWhile fun x => x.key.operatorEq e.key).find?
      (visible txn visibleSeq) with
  | none => exact ⟨s, by rw [scanStep, hfind]⟩
  | some v =>
    obtain ⟨s', hgoOn⟩ := hcb e.key (.ofEntry v) s
    exact ⟨s', by rw [scanStep, hfind]; dsimp only; rw [hgoOn]; rfl⟩

/-- It stops in a leaf exactly when the leaf holds a NaN. -/
theorem groups_cases (hcb : GoesOn cb) (rest : List LeafEntry) (s : σ) :
    (∃ e ∈ rest, e.key.isNaN = true) ∧
        ¬ Halts (scanStep p txn visibleSeq cb) (.groups rest sibling, s) ∨
      (∀ e ∈ rest, e.key.isNaN = false) ∧
        ∃ s', StateTransition.Reaches (scanStep p txn visibleSeq cb) (.groups rest sibling, s)
          (.chain sibling, s') := by
  induction hlen : rest.length using Nat.strong_induction_on generalizing rest s with
  | _ n ih =>
    cases rest with
    | nil => exact .inr ⟨fun e he => absurd he List.not_mem_nil, s, .single rfl⟩
    | cons e es =>
      cases hnan : e.key.isNaN with
      | true => exact .inl ⟨⟨e, List.mem_cons_self, hnan⟩, not_halts_of_isNaN hnan⟩
      | false =>
        obtain ⟨s', hstep⟩ : ∃ s', scanStep p txn visibleSeq cb (.groups (e :: es) sibling, s) =
            some (.groups ((e :: es).dropWhile fun x => x.key.operatorEq e.key) sibling, s') :=
          scanStep_groups hcb e es
        rcases ih _ (hlen ▸ length_dropWhile_lt hnan es) _ s' rfl with ⟨⟨x, hx, hxnan⟩, hstuck⟩ |
          ⟨hkeys, s'', hreach⟩
        · refine .inl ⟨⟨x, (List.dropWhile_sublist _).subset hx, hxnan⟩, ?_⟩
          rwa [halts_iff hstep]
        · refine .inr ⟨fun x hx => ?_, s'', .head hstep hreach⟩
          have hsplit : (e :: es).takeWhile (fun x => x.key.operatorEq e.key) ++
              (e :: es).dropWhile (fun x => x.key.operatorEq e.key) = e :: es :=
            List.takeWhile_append_dropWhile
          rw [← hsplit, List.mem_append] at hx
          -- what equals the first key is no NaN either
          rcases hx with hx | hx
          · have hequal := List.mem_takeWhile_imp hx
            exact (Value.isNaN_of_operatorEq hequal).1
          · exact hkeys x hx

/-- A scan that ends has come across no NaN. -/
theorem not_halts_of_onChain (hcb : GoesOn cb) {e : LeafEntry} (h : OnChain p page e)
    (hnan : e.key.isNaN = true) (s : σ) :
    ¬ Halts (scanStep p txn visibleSeq cb) (.chain page, s) := by
  induction h generalizing s with
  | @here page n e hpage hload hmem =>
    rw [halts_iff (scanStep_chain hpage hload)]
    rcases groups_cases hcb n.leaf s with ⟨-, hstuck⟩ | ⟨hkeys, -⟩
    · exact hstuck
    · rw [hkeys e hmem] at hnan
      cases hnan
  | @next page n e hpage hload hrest ih =>
    rw [halts_iff (scanStep_chain hpage hload)]
    rcases groups_cases hcb n.leaf s with ⟨-, hstuck⟩ | ⟨-, s', hreach⟩
    · exact hstuck
    · rw [halts_iff_of_reaches hreach]
      exact ih hnan s'

end Steps

/-! ## The calls of a scan that is never stopped -/

/-- A callback that writes its calls down. -/
def recordCall : ScanCallback (List (Value × LookupResult)) := fun key r => do
  modify fun log => log ++ [(key, r)]
  return true

section Record

variable {p : Pager} {txn visibleSeq : UInt64} {sibling : PageId} {log : List (Value × LookupResult)}

theorem reaches_of_scanGroups {fuel : Nat} {rest : List LeafEntry}
    {calls : List (Value × LookupResult)} (h : scanGroups txn visibleSeq fuel rest = .ok calls) :
    StateTransition.Reaches (scanStep p txn visibleSeq recordCall) (.groups rest sibling, log)
      (.chain sibling, log ++ calls) := by
  induction fuel generalizing rest calls log with
  | zero =>
    cases rest with
    | nil =>
      cases h
      rw [List.append_nil]
      exact .single rfl
    | cons e es => cases h
  | succ fuel ih =>
    cases rest with
    | nil =>
      cases h
      rw [List.append_nil]
      exact .single rfl
    | cons e es =>
      rw [scanGroups] at h
      obtain ⟨more, hmore, h⟩ := except_bind_eq_ok.1 h
      cases hfind : ((e :: es).takeWhile fun x => x.key.operatorEq e.key).find?
          (visible txn visibleSeq) with
      | none =>
        rw [hfind] at h
        cases h
        refine .head ?_ (ih hmore)
        show scanStep _ _ _ _ _ = some _
        rw [scanStep, hfind]
      | some v =>
        rw [hfind] at h
        cases h
        rw [List.append_cons]
        refine .head ?_ (ih hmore)
        show scanStep _ _ _ _ _ = some _
        rw [scanStep, hfind]
        rfl

theorem reaches_of_chainFrom {fuel : Nat} {cur : PageId} {ls : List (PageId × List LeafEntry)}
    {calls : List (Value × LookupResult)} (hchain : chainFrom p fuel cur = .ok ls)
    (h : scanLeaves txn visibleSeq (ls.map Prod.snd) = .ok calls) :
    StateTransition.Reaches (scanStep p txn visibleSeq recordCall) (.chain cur, log)
      (.stopped none, log ++ calls) := by
  -- behind the last leaf the scan is over
  have hlast : ∀ {cur : PageId} {log : List (Value × LookupResult)}, cur = 0 →
      StateTransition.Reaches (scanStep p txn visibleSeq recordCall) (.chain cur, log)
        (.stopped none, log ++ []) := by
    intro cur log hcur
    rw [List.append_nil]
    exact .single (by rw [scanStep, if_pos hcur]; rfl)
  induction fuel generalizing cur ls calls log with
  | zero =>
    rw [chainFrom] at hchain
    split_ifs at hchain with hcur
    cases hchain
    cases h
    exact hlast hcur
  | succ fuel ih =>
    rw [chainFrom] at hchain
    split_ifs at hchain with hcur
    · cases hchain
      cases h
      exact hlast hcur
    · obtain ⟨n, hload, hchain⟩ := except_bind_eq_ok.1 hchain
      obtain ⟨rest, hrest, hchain⟩ := except_bind_eq_ok.1 hchain
      cases hchain
      rw [List.map_cons, scanLeaves] at h
      obtain ⟨reported, hreported, h⟩ := except_bind_eq_ok.1 h
      obtain ⟨more, hmore, h⟩ := except_bind_eq_ok.1 h
      cases h
      rw [← List.append_assoc]
      exact .head (scanStep_chain hcur hload) ((reaches_of_scanGroups hreported).trans (ih hrest hmore))

theorem reaches_of_leftmostFrom {fuel : Nat} {cur first : PageId}
    (h : leftmostFrom p fuel cur = .ok first) :
    StateTransition.Reaches (scanStep p txn visibleSeq recordCall) (.descent cur, log)
      (.chain first, log) := by
  induction fuel generalizing cur with
  | zero => cases h
  | succ fuel ih =>
    rw [leftmostFrom] at h
    obtain ⟨n, hload, h⟩ := except_bind_eq_ok.1 h
    by_cases htype : n.hdr.type = .leaf
    · rw [if_pos htype] at h
      cases h
      refine .single ?_
      show scanStep _ _ _ _ _ = some _
      rw [scanStep, hload]
      dsimp only
      rw [if_pos htype]
    · rw [if_neg htype] at h
      cases hinternal : n.internal with
      | nil =>
        rw [hinternal] at h
        cases h
      | cons e es =>
        rw [hinternal] at h
        refine .head ?_ (ih h)
        show scanStep _ _ _ _ _ = some _
        rw [scanStep, hload]
        dsimp only
        rw [if_neg htype, hinternal]

/-- What `scan` returns are the calls that the scan makes, step by step, to a callback that never stops
it. -/
theorem reaches_of_scan {t : BTree} {calls : List (Value × LookupResult)}
    (h : t.scan txn visibleSeq = .ok calls) :
    StateTransition.Reaches (scanStep t.pager txn visibleSeq recordCall) (.descent t.rootPageId, [])
      (.stopped none, calls) := by
  rw [scan] at h
  obtain ⟨ls, hls, h⟩ := except_bind_eq_ok.1 h
  rw [leafChain] at hls
  obtain ⟨first, hfirst, hls⟩ := except_bind_eq_ok.1 hls
  exact (reaches_of_leftmostFrom hfirst).trans (reaches_of_chainFrom hls h)

end Record

end BTree

/-! ## Whole scans -/

section Scans

variable {Q : LeafEntry → Prop} {p : Pager} {t : BTree} {live : List PageId}

/-- A chain whose entries all have `Q`. -/
theorem ChainEnds.of_onChain {page : PageId} (h : ChainEnds p live (fun _ => True) page)
    (hentries : ∀ e, BTree.OnChain p page e → Q e) (hpages : ∀ q ∈ live, q ≠ 0) :
    ChainEnds p live Q page := by
  induction h with
  | last => exact .last
  | @leaf page sibling es hlive hload hsmall _ hrest ih =>
    have hpage := hpages page hlive
    exact .leaf hlive hload hsmall (fun e he => hentries e (.here hpage hload he))
      (ih fun e he => hentries e (.next hpage hload he))

/-- A scan goes down to the leftmost leaf. -/
theorem Walkable.exists_first (h : Walkable Q t live) :
    ∃ first, t.leftmost = .ok first ∧ ChainEnds t.pager live Q first ∧
      ∀ (σ : Type) (txn visibleSeq : UInt64) (cb : BTree.ScanCallback σ) (s : σ),
        StateTransition.Reaches (BTree.scanStep t.pager txn visibleSeq cb) (.descent t.rootPageId, s)
          (.chain first, s) := by
  obtain ⟨k, hk⟩ : ∃ k, t.pager.header.pageCount.toNat = k + 1 :=
    ⟨t.pager.header.pageCount.toNat - 1, by have := h.owns.backed.pos; omega⟩
  -- the descent stops at a leaf
  have hleaf : ∀ {page sibling es}, BTree.loadNode t.pager page = .ok (Node.ofLeaf sibling es) →
      (∀ fuel, BTree.leftmostFrom t.pager (fuel + 1) page = .ok page) ∧
      ∀ (σ : Type) (txn visibleSeq : UInt64) (cb : BTree.ScanCallback σ) (s : σ),
        BTree.scanStep t.pager txn visibleSeq cb (.descent page, s) = some (.chain page, s) := by
    intro page sibling es hload
    refine ⟨fun fuel => ?_, fun σ txn visibleSeq cb s => ?_⟩
    · rw [BTree.leftmostFrom, hload]
      rfl
    · rw [BTree.scanStep, hload]
      rfl
  rw [BTree.leftmost, hk]
  rcases h.entry with hends | ⟨ies, hload, hne, -, hchildren⟩
  · obtain ⟨sibling, es, -, hload, -⟩ := hends.exists_leaf (h.ne_zero h.root)
    exact ⟨_, (hleaf hload).1 _, hends, fun σ txn visibleSeq cb s => .single ((hleaf hload).2 _ _ _ _ _)⟩
  · obtain ⟨e, ies, rfl⟩ := List.exists_cons_of_ne_nil hne
    obtain ⟨hlive, hroot⟩ := hchildren e.child (by simp)
    have hends := h.leaves e.child hlive hroot
    obtain ⟨sibling, es, -, hchild, -⟩ := hends.exists_leaf (h.ne_zero hlive)
    refine ⟨e.child, ?_, hends, fun σ txn visibleSeq cb s => ?_⟩
    · rw [BTree.leftmostFrom, hload]
      exact (hleaf hchild).1 k
    · refine .head ?_ (.single ((hleaf hchild).2 _ _ _ _ _))
      show BTree.scanStep _ _ _ _ _ = some _
      rw [BTree.scanStep, hload]
      rfl

/-- Without a NaN among its keys all scans of a tree end. -/
theorem Walkable.scansTerminate (h : Walkable (fun e => e.key.isNaN = false) t live) :
    t.ScansTerminate := by
  obtain ⟨first, -, hends, hreach⟩ := h.exists_first
  intro σ txn visibleSeq cb s
  rw [BTree.ScanTerminates, halts_iff_of_reaches (hreach σ txn visibleSeq cb s)]
  exact BTree.halts_chain hends s

/-- All scans of a tree end exactly when they come across no NaN. -/
theorem Walkable.scansTerminate_iff (h : Walkable (fun _ => True) t live) :
    t.ScansTerminate ↔ ∀ e, t.Scanned e → e.key.isNaN = false := by
  obtain ⟨first, hfirst, hends, hreach⟩ := h.exists_first
  constructor
  · rintro hall e ⟨first', hfirst', hmem⟩
    rw [hfirst] at hfirst'
    obtain rfl := Except.ok.inj hfirst'
    by_contra hnan
    have hgoesOn : BTree.GoesOn fun _ _ => (pure true : EStateM Fault Unit Bool) :=
      fun _ _ s => ⟨s, rfl⟩
    have hhalts := hall Unit 0 0 (fun _ _ => pure true) ()
    rw [BTree.ScanTerminates, halts_iff_of_reaches (hreach _ _ _ _ _)] at hhalts
    exact BTree.not_halts_of_onChain hgoesOn hmem (Bool.eq_true_of_not_eq_false hnan) () hhalts
  · intro hkeys σ txn visibleSeq cb s
    rw [BTree.ScanTerminates, halts_iff_of_reaches (hreach σ txn visibleSeq cb s)]
    refine BTree.halts_chain (hends.of_onChain (fun e he => ?_) fun q => h.ne_zero) s
    exact hkeys e ⟨first, hfirst, he⟩

/-- In every run of calls whose keys are no NaN all scans end, whatever returns or throws. In a run with
any keys they end as long as they come across no NaN. -/
theorem scansTerminate_of_putRun {p : Pager} {live : List PageId} (hp : p.Owns live) {root : PageId}
    {t₀ : BTree} (hnew : BTree.createNew.run ⟨p, 0⟩ = .ok root t₀) :
    (∀ t, BTree.PutRun (fun _ e => e.key.isNaN = false) t₀ t → t.ScansTerminate) ∧
      ∀ t, BTree.PutRun (fun _ _ => True) t₀ t →
        (t.ScansTerminate ↔ ∀ e, t.Scanned e → e.key.isNaN = false) := by
  refine ⟨fun t hrun => ?_, fun t hrun => ?_⟩
  · obtain ⟨live', hwalk⟩ := exists_walkable_of_putRun hp hnew hrun
    exact hwalk.scansTerminate
  · obtain ⟨live', hwalk⟩ := exists_walkable_of_putRun hp hnew (Q := fun _ => True) hrun
    exact hwalk.scansTerminate_iff

/-- A row of 1024 bytes under a key of nine. -/
def keyedWideRow (key : Value) (commitSeq : UInt64) : LeafEntry :=
  { wideRow 0 commitSeq 1 980 with key }

theorem size_keyedWideRow {key : Value} (h : key.toBytes.length = 9) (commitSeq : UInt64) :
    (keyedWideRow key commitSeq).size = 1024 := by
  have hwide := size_wideRow 0 commitSeq 1 980
  have hint : (Value.int64 0).toBytes.length = 9 := by simp [Value.toBytes]
  rw [LeafEntry.size] at hwide ⊢
  show key.toBytes.length + 8 + 8 + 1 + 4 + (wideRow 0 commitSeq 1 980).payload.encodeTuple.length = 1024
  have hkey : (wideRow 0 commitSeq 1 980).key = .int64 0 := rfl
  rw [hkey] at hwide
  omega

/-- Two keys that compare equal, between two others. -/
def equalKeyRows : List LeafEntry :=
  [keyedWideRow (.int64 1) 1, keyedWideRow (.int64 2) 2, keyedWideRow (.real ⟨0x4000000000000000⟩) 1,
    keyedWideRow (.int64 3) 1]

theorem approxBytes_equalKeyRows : approxBytes (equalKeyRows.take 2) = 2048 ∧
    approxBytes (equalKeyRows.drop 2) = 2048 ∧ approxBytes (equalKeyRows.take 3) = 3072 ∧
    approxBytes equalKeyRows = 4096 := by
  have hint : ∀ x, (Value.int64 x).toBytes.length = 9 := fun x => by simp [Value.toBytes]
  have hreal : ∀ x, (Value.real x).toBytes.length = 9 := fun x => by simp [Value.toBytes]
  simp [equalKeyRows, approxBytes, size_keyedWideRow, hint, hreal]

/-- The fourth row splits the leaf between the keys that compare equal. -/
theorem scansTerminate_of_putRun_split : ∃ root t₀ t x,
    BTree.createNew.run ⟨Pager.new 16 (by decide), 0⟩ = .ok root t₀ ∧
      BTree.PutRun (fun _ e => e.key.isNaN = false) t₀ t ∧
      t.leafChain = .ok [(root, equalKeyRows.take 2), (x, equalKeyRows.drop 2)] ∧
      t.ScansTerminate := by
  have howns := Pager.owns_new (show 16 < 2 ^ 32 by decide) (by decide)
  obtain ⟨root, t₀, hnew, hroom₀⟩ := exists_createNew howns (by rw [Pager.room_new]; decide) 0
  rw [Pager.room_new] at hroom₀
  obtain ⟨hleft, hright, hthree, hfour⟩ := approxBytes_equalKeyRows
  have htakes : LeafTakes [] (equalKeyRows.take 3) := ⟨by decide, by rw [hthree]; decide⟩
  obtain ⟨bs, t₁, hrun₁, hrep₁, hroom₁⟩ := (rep_createNew howns hnew).1.putAll_one_leaf htakes
  have hafter : leafAfter [] (equalKeyRows.take 3) = equalKeyRows.take 3 := by rfl
  rw [hafter] at hrep₁
  have hins : BTree.insertEntry (keyedWideRow (.int64 3) 1) (equalKeyRows.take 3) = equalKeyRows :=
    insertEntry_last (by decide)
  have hover : Overflows equalKeyRows := Or.inr (by rw [hfour]; decide)
  have hhalves : leftHalf equalKeyRows = equalKeyRows.take 2 ∧
      rightHalf equalKeyRows = equalKeyRows.drop 2 := ⟨rfl, rfl⟩
  rw [← hins] at hover
  obtain ⟨t₂, x, first, rest, hput₂, -, hrep₂, -⟩ := hrep₁.put_split_leaf (by decide) hover
    (by omega) (by rw [hins, hhalves.1]; omega) (by rw [hins, hhalves.2]; omega)
  rw [hins, hhalves.1, hhalves.2] at hrep₂
  have hkeys : ∀ e ∈ equalKeyRows, e.key.isNaN = false := by decide
  have hrun : BTree.PutRun (fun _ e => e.key.isNaN = false) t₀ t₂ :=
    (BTree.PutRun.start.putAll hrun₁ fun _ e _ _ he _ _ => hkeys e (List.mem_of_mem_take he)).returned
      (hkeys _ (show keyedWideRow (.int64 3) 1 ∈ equalKeyRows by simp [equalKeyRows])) hput₂
  exact ⟨root, t₀, t₂, x, hnew, hrun, hrep₂.leafChain_eq,
    (scansTerminate_of_putRun howns hnew).1 t₂ hrun⟩

/-- A version whose key is a NaN. -/
def nanRow : LeafEntry := ⟨.real ⟨0x7FF8000000000000⟩, 1, 1, false, Tuple.empty⟩

/-- One call with such a key, and no scan ends any more. -/
theorem not_scanTerminates_after_nanRow : ∃ root t₀ t,
    BTree.createNew.run ⟨Pager.new 16 (by decide), 0⟩ = .ok root t₀ ∧
      (BTree.put nanRow).run t₀ = .ok true t ∧ ¬ t.ScansTerminate ∧
      ∀ (σ : Type) (txn visibleSeq : UInt64) (cb : BTree.ScanCallback σ) (s : σ),
        ¬ t.ScanTerminates txn visibleSeq cb s := by
  have howns := Pager.owns_new (show 16 < 2 ^ 32 by decide) (by decide)
  obtain ⟨root, t₀, hnew, -⟩ := exists_createNew howns (by rw [Pager.room_new]; decide) 0
  obtain ⟨t, hput, hrep, -⟩ := (rep_createNew howns hnew).1.put_one_leaf
    (show ¬ Overflows (BTree.insertEntry nanRow []) by decide)
  have hrep : Rep t ⟨none, [(root, [nanRow])]⟩ [] := hrep
  have hload : BTree.loadNode t.pager root = .ok (Node.ofLeaf 0 [nanRow]) :=
    hrep.loadNode_leaf (show _ = [] ++ (root, [nanRow]) :: [] from rfl)
  have hroot : t.rootPageId = root := (List.cons.inj hrep.root).1.symm
  have hnever : ∀ (σ : Type) (txn visibleSeq : UInt64) (cb : BTree.ScanCallback σ) (s : σ),
      ¬ t.ScanTerminates txn visibleSeq cb s := by
    intro σ txn visibleSeq cb s
    have hdescent : BTree.scanStep t.pager txn visibleSeq cb (.descent root, s) = some (.chain root, s) := by
      rw [BTree.scanStep, hload]
      rfl
    rw [BTree.ScanTerminates, hroot, halts_iff hdescent,
      halts_iff (BTree.scanStep_chain (BTree.lt_of_loadNode hload).1 hload)]
    exact BTree.not_halts_of_isNaN rfl
  exact ⟨root, t₀, t, hnew, hput, fun hall => hnever Unit 0 0 (fun _ _ => pure true) () (hall _ _ _ _ _),
    hnever⟩

end Scans

end OpenDB
