import OpenDB.Library.OrderedInsert
import OpenDB.Storage.PutRun

/-!
# Search-tree order

`position` is where a version belongs: by key, then newest commit sequence first, then transaction.
A layout is `Ordered` when its entries are in strictly ascending position, its separators bound the
keys of the leaves on both sides, and keys that `compare` equal are also equal under `operator==`.

On an ordered layout the descent finds the only leaf that can hold a key, so a lookup is a lookup in
the list of all entries (`Ordered.get_eq`), and a `put` inserts into that list
(`Ordered.step`). The one thing that breaks the order is a split that separates versions of one key:
`CutsGroup` names it.
-/

set_option autoImplicit false

namespace OpenDB

open OpenDB.Library

/-! ## Positions -/

/-- Order of the versions in a tree: key ascending, commit sequence descending, transaction
ascending. -/
def LeafEntry.position (e : LeafEntry) : (ℕ ×ₗ (ℤ ×ₗ List ℕ)) ×ₗ (ℕᵒᵈ ×ₗ ℕ) :=
  toLex (e.key.rank, toLex (OrderDual.toDual e.commitSeq.toNat, e.txnId.toNat))

theorem position_lt_iff {a b : LeafEntry} :
    a.position < b.position ↔ a.key.rank < b.key.rank ∨ (a.key.rank = b.key.rank ∧
      (b.commitSeq.toNat < a.commitSeq.toNat ∨
        (a.commitSeq.toNat = b.commitSeq.toNat ∧ a.txnId.toNat < b.txnId.toNat))) := by
  simp only [LeafEntry.position, Prod.Lex.toLex_lt_toLex, OrderDual.toDual_lt_toDual,
    OrderDual.toDual_inj]

/-- Keys that `compare` equal to `key` also equal it. -/
def NoAlias (key : Value) (es : List LeafEntry) : Prop :=
  ∀ x ∈ es, x.key.rank = key.rank → x.key.operatorEq key = true ∧ key.operatorEq x.key = true

theorem rank_le_of_position_lt {a b : LeafEntry} (h : a.position < b.position) :
    a.key.rank ≤ b.key.rank := by
  rcases position_lt_iff.1 h with hlt | ⟨heq, -⟩
  · exact hlt.le
  · exact heq.le

theorem goesBefore_iff {e x : LeafEntry} (he : e.key.isNaN = false) (hx : x.key.isNaN = false)
    (halias : x.key.rank = e.key.rank → e.key.operatorEq x.key = true) :
    BTree.goesBefore e x = true ↔ e.position < x.position := by
  rw [position_lt_iff]
  simp only [BTree.goesBefore, Bool.or_eq_true, Bool.and_eq_true, decide_eq_true_eq, beq_iff_eq,
    Value.operatorLt_iff he hx, UInt64.lt_iff_toNat_lt]
  constructor
  · rintro ((hlt | ⟨heq, hseq⟩) | ⟨⟨heq, hseq⟩, htxn⟩)
    · exact Or.inl hlt
    · exact Or.inr ⟨Value.rank_eq_of_operatorEq heq, Or.inl hseq⟩
    · exact Or.inr ⟨Value.rank_eq_of_operatorEq heq, Or.inr ⟨congrArg _ hseq, htxn⟩⟩
  · rintro (hlt | ⟨heq, hseq | ⟨hseq, htxn⟩⟩)
    · exact Or.inl (Or.inl hlt)
    · exact Or.inl (Or.inr ⟨halias heq.symm, hseq⟩)
    · exact Or.inr ⟨⟨halias heq.symm, UInt64.toNat_inj.1 hseq⟩, htxn⟩

/-- A version goes behind those of smaller keys. -/
theorem not_goesBefore_of_rank_lt {e x : LeafEntry} (he : e.key.isNaN = false)
    (hx : x.key.isNaN = false) (hlt : x.key.rank < e.key.rank) : ¬ BTree.goesBefore e x = true := by
  rw [goesBefore_iff he hx fun heq => absurd heq hlt.ne, position_lt_iff]
  rintro (hlt' | ⟨heq, -⟩)
  · exact absurd hlt' (not_lt.2 hlt.le)
  · exact hlt.ne heq.symm

theorem goesBefore_of_rank_lt {e x : LeafEntry} (he : e.key.isNaN = false)
    (hx : x.key.isNaN = false) (hlt : e.key.rank < x.key.rank) : BTree.goesBefore e x = true :=
  (goesBefore_iff he hx fun heq => absurd heq.symm hlt.ne).2 (position_lt_iff.2 (Or.inl hlt))

theorem occupied_iff {e : LeafEntry} {es : List LeafEntry} (halias : NoAlias e.key es) :
    BTree.occupied e es = true ↔ ∃ x ∈ es, x.position = e.position := by
  have hpos : ∀ x ∈ es, x.position = e.position ↔
      x.key.operatorEq e.key = true ∧ x.commitSeq = e.commitSeq ∧ x.txnId = e.txnId := by
    intro x hx
    simp only [LeafEntry.position, EmbeddingLike.apply_eq_iff_eq, Prod.mk.injEq,
      UInt64.toNat_inj]
    constructor
    · rintro ⟨hrank, hseq, htxn⟩
      exact ⟨(halias x hx hrank).1, hseq, htxn⟩
    · rintro ⟨hkey, hseq, htxn⟩
      exact ⟨Value.rank_eq_of_operatorEq hkey, hseq, htxn⟩
  simp only [BTree.occupied, List.any_eq_true, Bool.and_eq_true, beq_iff_eq]
  constructor
  · rintro ⟨x, hx, ⟨hkey, hseq⟩, htxn⟩
    exact ⟨x, hx, (hpos x hx).2 ⟨hkey, hseq, htxn⟩⟩
  · rintro ⟨x, hx, hxe⟩
    obtain ⟨hkey, hseq, htxn⟩ := (hpos x hx).1 hxe
    exact ⟨x, hx, ⟨hkey, hseq⟩, htxn⟩

/-- The versions of a table in the order of their positions. -/
structure Versions (es : List LeafEntry) : Prop where
  keys : ∀ e ∈ es, e.key.isNaN = false
  noAlias : ∀ a ∈ es, ∀ b ∈ es, a.key.rank = b.key.rank → a.key.operatorEq b.key = true
  sorted : es.Pairwise fun a b => a.position < b.position

theorem versions_nil : Versions [] :=
  ⟨by simp, by simp, List.Pairwise.nil⟩

/-- A version goes in at its position. -/
theorem Versions.insert {es : List LeafEntry} (h : Versions es) {e : LeafEntry}
    (he : e.key.isNaN = false) (halias : NoAlias e.key es)
    (hfree : ¬ BTree.occupied e es = true) : Versions (BTree.insertEntry e es) := by
  have hmem : ∀ x, x ∈ BTree.insertEntry e es ↔ x = e ∨ x ∈ es := by
    intro x
    exact List.mem_orderedInsert _
  refine ⟨?_, ?_, ?_⟩
  · intro x hx
    rcases (hmem x).1 hx with rfl | hx
    · exact he
    · exact h.keys x hx
  · intro a ha b hb hrank
    rcases (hmem a).1 ha with hae | ha'
    · rcases (hmem b).1 hb with hbe | hb'
      · rw [hae, hbe]
        exact (Value.operatorEq_self_iff _).2 he
      · rw [hae] at hrank ⊢
        exact (halias b hb' hrank.symm).2
    · rcases (hmem b).1 hb with hbe | hb'
      · rw [hbe] at hrank ⊢
        exact (halias a ha' hrank).1
      · exact h.noAlias a ha' b hb' hrank
  · refine pairwise_orderedInsert (R := fun a b : LeafEntry => a.position < b.position)
      (fun a b c => lt_trans) h.sorted ?_ ?_
    · intro x hx
      exact (goesBefore_iff he (h.keys x hx) fun hr => (halias x hx hr).2).1
    · intro x hx hnot
      rw [goesBefore_iff he (h.keys x hx) fun hr => (halias x hx hr).2, not_lt] at hnot
      refine lt_of_le_of_ne hnot fun heq => hfree ?_
      exact (occupied_iff halias).2 ⟨x, hx, heq⟩

/-! ## Separators -/

/-- A leaf under its separator. -/
abbrev Part := Value × (PageId × List LeafEntry)

/-- The index entry of a part. -/
def Part.separator (q : Part) : InternalEntry := ⟨q.1, q.2.1⟩

/-- The leaves of the layout are the parts, the separators ascend, and the keys of a leaf lie between
its separator and the next one. -/
structure Parts (L : Layout) (ps : List Part) : Prop where
  leaves : L.leaves = ps.map Prod.snd
  index : ∀ ies, L.index = some ies → ies = ps.map Part.separator
  single : L.index = none → ∃ s, L.leaves = [s]
  head : ∃ s rest, ps = (.null, s) :: rest
  order : ps.Pairwise fun a b => a.1.rank ≤ b.1.rank ∧ ∀ e ∈ a.2.2, e.key.rank < b.1.rank
  bound : ∀ q ∈ ps, q.1.isNaN = false ∧ ∀ e ∈ q.2.2, q.1.rank ≤ e.key.rank

theorem rank_null_le {v : Value} (h : v.isNaN = false) : Value.null.rank ≤ v.rank :=
  (Value.operatorGe_iff h rfl).1 (Value.operatorGe_null v)

/-- The descent stops at the last separator that is not above the key. -/
theorem lastChild_eq {k : Value} (hk : k.isNaN = false) {q₀ : Part} {ps : List Part}
    (hq₀ : q₀.1.rank ≤ k.rank) (hnan : ∀ q ∈ ps, q.1.isNaN = false)
    (horder : ps.Pairwise fun a b => a.1.rank ≤ b.1.rank) :
    ∃ A q B, q₀ :: ps = A ++ q :: B ∧
      BTree.lastChild k q₀.2.1 (ps.map Part.separator) = q.2.1 ∧ q.1.rank ≤ k.rank ∧
      ∀ q' ∈ B, k.rank < q'.1.rank := by
  induction ps generalizing q₀ with
  | nil => exact ⟨[], q₀, [], rfl, rfl, hq₀, by simp⟩
  | cons p ps ih =>
    rw [List.pairwise_cons] at horder
    have hp : p.1.isNaN = false := hnan p List.mem_cons_self
    rw [List.map_cons, BTree.lastChild]
    by_cases hge : k.operatorGe p.1 = true
    · have hle := (Value.operatorGe_iff hk hp).1 hge
      obtain ⟨A, q, B, hsplit, hlast, hq, hB⟩ :=
        ih hle (fun q hq => hnan q (List.mem_cons_of_mem _ hq)) horder.2
      exact ⟨q₀ :: A, q, B, by rw [hsplit, List.cons_append], (if_pos hge).trans hlast, hq, hB⟩
    · have hlt : k.rank < p.1.rank := by
        rw [Value.operatorGe_iff hk hp, not_le] at hge
        exact hge
      refine ⟨[], q₀, p :: ps, rfl, if_neg hge, hq₀, ?_⟩
      intro q' hq'
      rcases List.mem_cons.1 hq' with rfl | hq'
      · exact hlt
      · exact lt_of_lt_of_le hlt (horder.1 q' hq')

/-- A place in a list is determined by what is there, when nothing else has the same label. -/
theorem split_unique {ls ls' : Leaves} {s s' : PageId × List LeafEntry} {ms ms' : Leaves}
    (hnodup : (Leaves.pages (ls ++ s :: ms)).Nodup) (hpage : s.1 = s'.1)
    (h : ls ++ s :: ms = ls' ++ s' :: ms') : ls = ls' ∧ s = s' ∧ ms = ms' := by
  induction ls generalizing ls' with
  | nil =>
    cases ls' with
    | nil =>
      rw [List.nil_append, List.nil_append, List.cons.injEq] at h
      exact ⟨rfl, h⟩
    | cons a ls' =>
      rw [List.nil_append, List.cons_append, List.cons.injEq] at h
      rw [List.nil_append, Leaves.pages_cons, List.nodup_cons] at hnodup
      exact absurd (by rw [h.2, hpage]; simp) hnodup.1
  | cons a ls ih =>
    cases ls' with
    | nil =>
      rw [List.cons_append, List.nil_append, List.cons.injEq] at h
      rw [List.cons_append, Leaves.pages_cons, List.nodup_cons] at hnodup
      exact absurd (by rw [h.1, ← hpage]; simp) hnodup.1
    | cons b ls' =>
      rw [List.cons_append, List.cons_append, List.cons.injEq] at h
      rw [List.cons_append, Leaves.pages_cons, List.nodup_cons] at hnodup
      obtain ⟨hls, hrest⟩ := ih hnodup.2 h.2
      exact ⟨by rw [h.1, hls], hrest⟩

/-- The leaf of a key: its separator is not above the key and the next ones are. -/
theorem Parts.at_target {L : Layout} {ps : List Part} (h : Parts L ps)
    (hnodup : L.leaves.pages.Nodup) {k : Value} (hk : k.isNaN = false) {pre post : Leaves}
    {es : List LeafEntry} (hsplit : L.leaves = pre ++ (L.target k, es) :: post) :
    ∃ A s B, ps = A ++ (s, (L.target k, es)) :: B ∧ A.map Prod.snd = pre ∧ B.map Prod.snd = post ∧
      s.rank ≤ k.rank ∧ ∀ q ∈ B, k.rank < q.1.rank := by
  obtain ⟨s₀, rest, hps⟩ := h.head
  have hnull : Value.null.rank ≤ k.rank := rank_null_le hk
  -- the last part whose separator is not above `k`, which the descent chooses
  obtain ⟨A, q, B, hAB, hlast, hq, hB⟩ : ∃ A q B, ps = A ++ q :: B ∧ L.target k = q.2.1 ∧
      q.1.rank ≤ k.rank ∧ ∀ q' ∈ B, k.rank < q'.1.rank := by
    cases hix : L.index with
    | none =>
      obtain ⟨s, hs⟩ := h.single hix
      have hrest : rest = [] := by
        have := h.leaves
        rw [hs, hps, List.map_cons, List.cons.injEq] at this
        exact List.map_eq_nil_iff.1 this.2.symm
      refine ⟨[], (.null, s₀), [], by rw [hps, hrest]; rfl, ?_, hnull, by simp⟩
      rw [Layout.target, hix]
      dsimp only
      rw [h.leaves, hps]
      rfl
    | some ies =>
      have hies := h.index ies hix
      have horder := h.order
      have hbound := h.bound
      rw [hps] at horder hbound
      rw [List.pairwise_cons] at horder
      obtain ⟨A, q, B, hAB, hlast, hq, hB⟩ := lastChild_eq hk
        (show ((.null, s₀) : Part).1.rank ≤ k.rank from hnull)
        (fun q hq => (hbound q (List.mem_cons_of_mem _ hq)).1)
        (horder.2.imp fun hab => hab.1)
      refine ⟨A, q, B, hps.trans hAB, ?_, hq, hB⟩
      rw [Layout.target, hix]
      dsimp only
      rw [hies, hps, List.map_cons, BTree.lastChild]
      exact (if_pos (Value.operatorGe_null k)).trans hlast
  have hall : A.map Prod.snd ++ q.2 :: B.map Prod.snd = pre ++ (L.target k, es) :: post := by
    rw [← hsplit, h.leaves, hAB, List.map_append, List.map_cons]
  have hnodup' : (Leaves.pages (A.map Prod.snd ++ q.2 :: B.map Prod.snd)).Nodup := by
    rw [hall, ← hsplit]
    exact hnodup
  obtain ⟨hA, hqs, hBs⟩ := split_unique hnodup' hlast.symm hall
  refine ⟨A, q.1, B, ?_, hA, hBs, hq, hB⟩
  rw [hAB, ← hqs]

/-! ## Ordered layouts -/

/-- A search tree. -/
structure Ordered (L : Layout) : Prop where
  parts : ∃ ps, Parts L ps
  versions : Versions L.scanAll

theorem ordered_empty (root : PageId) : Ordered (Layout.empty root) := by
  refine ⟨⟨[(.null, (root, []))], rfl, ?_, ?_, ⟨_, _, rfl⟩, ?_, ?_⟩, versions_nil⟩
  · intro ies hies
    cases hies
  · intro _
    exact ⟨_, rfl⟩
  · exact List.pairwise_singleton _ _
  · intro q hq
    rw [List.mem_singleton.1 hq]
    exact ⟨rfl, by simp⟩

/-- The split of the leaf that `e` goes to separates versions of one key. -/
def Layout.CutsGroup (L : Layout) (e : LeafEntry) : Prop :=
  let leaf := BTree.insertEntry e (L.entriesAt (L.target e.key))
  Overflows leaf ∧ ∃ l ∈ leftHalf leaf, ∃ r ∈ rightHalf leaf, l.key.rank = r.key.rank

section Locate

variable {L : Layout} {ps A B : List Part} {s k : Value} {page : PageId} {es : List LeafEntry}

theorem Parts.scanAll_eq (h : Parts L ps) (hps : ps = A ++ (s, (page, es)) :: B) :
    L.scanAll = Leaves.entries (A.map Prod.snd) ++ (es ++ Leaves.entries (B.map Prod.snd)) := by
  rw [Layout.scanAll, h.leaves, hps, List.map_append, List.map_cons, Leaves.entries_append,
    Leaves.entries_cons]

theorem mem_entries_map {qs : List Part} {e : LeafEntry} :
    e ∈ Leaves.entries (qs.map Prod.snd) ↔ ∃ q ∈ qs, e ∈ q.2.2 := by
  simp only [Leaves.entries, List.mem_flatten, List.mem_map]
  constructor
  · rintro ⟨l, ⟨_, ⟨q, hq, rfl⟩, rfl⟩, he⟩
    exact ⟨q, hq, he⟩
  · rintro ⟨q, hq, he⟩
    exact ⟨q.2.2, ⟨q.2, ⟨q, hq, rfl⟩, rfl⟩, he⟩

/-- Keys in leaves before the leaf of `k` are below `k`. -/
theorem Parts.lt_of_mem_before (h : Parts L ps) (hps : ps = A ++ (s, (page, es)) :: B)
    (hs : s.rank ≤ k.rank) : ∀ x ∈ Leaves.entries (A.map Prod.snd), x.key.rank < k.rank := by
  intro x hx
  obtain ⟨q, hq, hxq⟩ := mem_entries_map.1 hx
  have horder := h.order
  rw [hps, List.pairwise_append] at horder
  exact lt_of_lt_of_le ((horder.2.2 q hq _ List.mem_cons_self).2 x hxq) hs

/-- Keys in leaves after the leaf of `k` are above `k`. -/
theorem Parts.lt_of_mem_after (h : Parts L ps) (hps : ps = A ++ (s, (page, es)) :: B)
    (hB : ∀ q ∈ B, k.rank < q.1.rank) :
    ∀ x ∈ Leaves.entries (B.map Prod.snd), k.rank < x.key.rank := by
  intro x hx
  obtain ⟨q, hq, hxq⟩ := mem_entries_map.1 hx
  have hmem : q ∈ ps := by
    rw [hps]
    simp [hq]
  exact lt_of_lt_of_le (hB q hq) ((h.bound q hmem).2 x hxq)

end Locate

theorem lookup_eq_none {k : Value} {txn visibleSeq : UInt64} {es : List LeafEntry}
    (hk : k.isNaN = false) (hes : ∀ x ∈ es, x.key.isNaN = false ∧ x.key.rank ≠ k.rank) :
    BTree.lookup k txn visibleSeq es = none := by
  rw [BTree.lookup, List.find?_eq_none]
  intro x hx
  obtain ⟨hnan, hne⟩ := hes x hx
  have : x.key.operatorNe k = true := by
    rw [← Bool.not_eq_false, Value.operatorNe_eq_false_iff hnan hk]
    exact hne
  simp [this]

/-- A lookup in the leaf of the key is a lookup among all entries. -/
theorem Ordered.get_eq {L : Layout} (h : Ordered L) (hnodup : L.leaves.pages.Nodup) {k : Value}
    (hk : k.isNaN = false) {pre post : Leaves} {es : List LeafEntry}
    (hsplit : L.leaves = pre ++ (L.target k, es) :: post) (txn visibleSeq : UInt64) :
    L.get k txn visibleSeq = .ofOption (BTree.lookup k txn visibleSeq L.scanAll) := by
  obtain ⟨ps, hp⟩ := h.parts
  obtain ⟨A, s, B, hps, -, -, hs, hB⟩ := hp.at_target hnodup hk hsplit
  have hall := hp.scanAll_eq hps
  have hbefore : BTree.lookup k txn visibleSeq (Leaves.entries (A.map Prod.snd)) = none := by
    refine lookup_eq_none hk fun x hx => ⟨h.versions.keys x ?_, (hp.lt_of_mem_before hps hs x hx).ne⟩
    rw [hall]
    exact List.mem_append_left _ hx
  have hafter : BTree.lookup k txn visibleSeq (Leaves.entries (B.map Prod.snd)) = none := by
    refine lookup_eq_none hk fun x hx => ⟨h.versions.keys x ?_, (hp.lt_of_mem_after hps hB x hx).ne'⟩
    rw [hall]
    exact List.mem_append_right _ (List.mem_append_right _ hx)
  have hlookup : BTree.lookup k txn visibleSeq L.scanAll = BTree.lookup k txn visibleSeq es := by
    unfold BTree.lookup at hbefore hafter ⊢
    rw [hall, List.find?_append, List.find?_append, hbefore, hafter]
    simp
  rw [hlookup, Layout.get, Layout.entriesAt_eq hnodup hsplit]

/-! ## Insertion -/

section Step

variable {L : Layout} {ps A B : List Part} {s : Value} {page : PageId} {es : List LeafEntry}
  {e : LeafEntry}

/-- Insertion into the leaf of the key is insertion among all entries. -/
theorem Parts.insertEntry_scanAll (h : Parts L ps) (hps : ps = A ++ (s, (page, es)) :: B)
    (hkeys : ∀ x ∈ L.scanAll, x.key.isNaN = false) (he : e.key.isNaN = false)
    (hs : s.rank ≤ e.key.rank) (hB : ∀ q ∈ B, e.key.rank < q.1.rank) :
    BTree.insertEntry e L.scanAll = Leaves.entries (A.map Prod.snd) ++
      (BTree.insertEntry e es ++ Leaves.entries (B.map Prod.snd)) := by
  have hall := h.scanAll_eq hps
  have hbefore : ∀ x ∈ Leaves.entries (A.map Prod.snd), ¬ BTree.goesBefore e x = true := by
    intro x hx
    have hnan := hkeys x (by rw [hall]; exact List.mem_append_left _ hx)
    exact not_goesBefore_of_rank_lt he hnan (h.lt_of_mem_before hps hs x hx)
  have hafter : ∀ x ∈ Leaves.entries (B.map Prod.snd), BTree.goesBefore e x = true := by
    intro x hx
    have hnan := hkeys x (by
      rw [hall]
      exact List.mem_append_right _ (List.mem_append_right _ hx))
    exact goesBefore_of_rank_lt he hnan (h.lt_of_mem_after hps hB x hx)
  unfold BTree.insertEntry
  rw [hall, orderedInsert_append_left hbefore, orderedInsert_append_right _ hafter]

/-- The parts with the entries of one leaf replaced. -/
theorem Parts.withLeaf (h : Parts L ps) (hps : ps = A ++ (s, (page, es)) :: B)
    {es' : List LeafEntry}
    (hbound : ∀ x ∈ es', s.rank ≤ x.key.rank ∧ ∀ q ∈ B, x.key.rank < q.1.rank) :
    Parts { L with leaves := A.map Prod.snd ++ (page, es') :: B.map Prod.snd }
      (A ++ (s, (page, es')) :: B) := by
  have horder := h.order
  have hb := h.bound
  rw [hps] at horder hb
  rw [List.pairwise_append, List.pairwise_cons] at horder
  obtain ⟨hA, ⟨hsB, hBB⟩, hAs⟩ := horder
  refine ⟨by rw [List.map_append, List.map_cons], ?_, ?_, ?_, ?_, ?_⟩
  · intro ies hies
    rw [h.index ies hies, hps]
    simp [Part.separator]
  · intro hix
    obtain ⟨s', hs'⟩ := h.single hix
    have hl := h.leaves
    rw [hs', hps] at hl
    cases A with
    | nil =>
      rw [List.nil_append, List.map_cons, List.cons.injEq] at hl
      exact ⟨(page, es'), by rw [← hl.2]; rfl⟩
    | cons a A =>
      rw [List.cons_append, List.map_cons, List.cons.injEq] at hl
      exact absurd hl.2 (by simp)
  · obtain ⟨s₀, rest, h₀⟩ := h.head
    rw [hps] at h₀
    cases A with
    | nil =>
      rw [List.nil_append, List.cons.injEq, Prod.mk.injEq] at h₀
      exact ⟨(page, es'), B, by rw [h₀.1.1]; rfl⟩
    | cons a A =>
      rw [List.cons_append, List.cons.injEq] at h₀
      exact ⟨s₀, A ++ (s, (page, es')) :: B, by rw [h₀.1, List.cons_append]⟩
  -- the new entries stay between the leaf's separator and the next one
  · rw [List.pairwise_append, List.pairwise_cons]
    refine ⟨hA, ⟨?_, hBB⟩, ?_⟩
    · intro q hq
      exact ⟨(hsB q hq).1, fun x hx => (hbound x hx).2 q hq⟩
    · intro a ha b hb'
      rcases List.mem_cons.1 hb' with rfl | hb'
      · exact hAs a ha (s, (page, es)) List.mem_cons_self
      · exact hAs a ha b (List.mem_cons_of_mem _ hb')
  · intro q hq
    rw [List.mem_append, List.mem_cons] at hq
    rcases hq with hq | rfl | hq
    · exact hb q (List.mem_append_left _ hq)
    · exact ⟨(hb (s, (page, es)) (by simp)).1, fun x hx => (hbound x hx).1⟩
    · exact hb q (List.mem_append_right _ (List.mem_cons_of_mem _ hq))

/-- The parts with one leaf split in two. -/
theorem Parts.split (h : Parts L ps) (hps : ps = A ++ (s, (page, es)) :: B)
    {left right : List LeafEntry} {k : Value} {x : PageId} (hk : k.isNaN = false)
    (hsk : s.rank ≤ k.rank) (hkB : ∀ q ∈ B, k.rank < q.1.rank)
    (hleft : ∀ y ∈ left, s.rank ≤ y.key.rank ∧ y.key.rank < k.rank)
    (hright : ∀ y ∈ right, k.rank ≤ y.key.rank ∧ ∀ q ∈ B, y.key.rank < q.1.rank) :
    Parts ⟨some ((A ++ (s, (page, left)) :: (k, (x, right)) :: B).map Part.separator),
      A.map Prod.snd ++ (page, left) :: (x, right) :: B.map Prod.snd⟩
      (A ++ (s, (page, left)) :: (k, (x, right)) :: B) := by
  have horder := h.order
  have hb := h.bound
  rw [hps] at horder hb
  rw [List.pairwise_append, List.pairwise_cons] at horder
  obtain ⟨hA, ⟨hsB, hBB⟩, hAs⟩ := horder
  refine ⟨by simp, ?_, ?_, ?_, ?_, ?_⟩
  · intro ies hies
    cases hies
    rfl
  · intro hix
    cases hix
  · obtain ⟨s₀, rest, h₀⟩ := h.head
    rw [hps] at h₀
    cases A with
    | nil =>
      rw [List.nil_append, List.cons.injEq, Prod.mk.injEq] at h₀
      exact ⟨(page, left), _, by rw [h₀.1.1]; rfl⟩
    | cons a A =>
      rw [List.cons_append, List.cons.injEq] at h₀
      exact ⟨s₀, _, by rw [h₀.1, List.cons_append]⟩
  -- `k` stands between the halves, and nothing else has moved
  · rw [List.pairwise_append, List.pairwise_cons, List.pairwise_cons]
    refine ⟨hA, ⟨?_, ?_, hBB⟩, ?_⟩
    · intro q hq
      rcases List.mem_cons.1 hq with rfl | hq
      · exact ⟨hsk, fun y hy => (hleft y hy).2⟩
      · exact ⟨(hsB q hq).1, fun y hy => lt_trans (hleft y hy).2 (hkB q hq)⟩
    · intro q hq
      exact ⟨(hkB q hq).le, fun y hy => (hright y hy).2 q hq⟩
    · intro a ha b hb'
      have has := hAs a ha (s, (page, es)) List.mem_cons_self
      rcases List.mem_cons.1 hb' with rfl | hb'
      · exact has
      · rcases List.mem_cons.1 hb' with rfl | hb'
        · exact ⟨has.1.trans hsk, fun y hy => lt_of_lt_of_le (has.2 y hy) hsk⟩
        · exact hAs a ha b (List.mem_cons_of_mem _ hb')
  · intro q hq
    rw [List.mem_append, List.mem_cons, List.mem_cons] at hq
    rcases hq with hq | rfl | rfl | hq
    · exact hb q (List.mem_append_left _ hq)
    · exact ⟨(hb (s, (page, es)) (by simp)).1, fun y hy => (hleft y hy).1⟩
    · exact ⟨hk, fun y hy => (hright y hy).1⟩
    · exact hb q (List.mem_append_right _ (List.mem_cons_of_mem _ hq))

/-- The new separator goes behind that of the split leaf. -/
theorem insertSeparator_eq {k : Value} {x : PageId} (hk : k.isNaN = false)
    (hnan : ∀ q ∈ A ++ (s, (page, es)) :: B, q.1.isNaN = false)
    (hA : ∀ q ∈ A, q.1.rank ≤ k.rank) (hsk : s.rank ≤ k.rank)
    (hkB : ∀ q ∈ B, k.rank < q.1.rank) (left right : List LeafEntry) :
    BTree.insertSeparator ⟨k, x⟩ ((A ++ (s, (page, es)) :: B).map Part.separator) =
      (A ++ (s, (page, left)) :: (k, (x, right)) :: B).map Part.separator := by
  have hsplit : (A ++ (s, (page, es)) :: B).map Part.separator =
      (A ++ [(s, (page, es))]).map Part.separator ++ B.map Part.separator := by
    simp
  have hfront : ∀ i ∈ (A ++ [(s, (page, es))]).map Part.separator,
      ¬ (InternalEntry.mk k x).key.operatorGe i.key = false := by
    intro i hi
    obtain ⟨q, hq, rfl⟩ := List.mem_map.1 hi
    have hqnan : q.1.isNaN = false := hnan q (by
      rw [List.mem_append, List.mem_singleton] at hq
      rw [List.mem_append, List.mem_cons]
      tauto)
    have hle : q.1.rank ≤ k.rank := by
      rw [List.mem_append, List.mem_singleton] at hq
      rcases hq with hq | rfl
      · exact hA q hq
      · exact hsk
    rw [Bool.not_eq_false]
    exact (Value.operatorGe_iff hk hqnan).2 hle
  have hback : ∀ i ∈ B.map Part.separator, (InternalEntry.mk k x).key.operatorGe i.key = false := by
    intro i hi
    obtain ⟨q, hq, rfl⟩ := List.mem_map.1 hi
    have hqnan : q.1.isNaN = false := hnan q (by simp [hq])
    rw [← Bool.not_eq_true]
    intro hge
    exact absurd ((Value.operatorGe_iff hk hqnan).1 hge) (not_le.2 (hkB q hq))
  unfold BTree.insertSeparator
  rw [hsplit, orderedInsert_append_left hfront]
  have := orderedInsert_append_right (r := fun a b : InternalEntry => a.key.operatorGe b.key = false)
    [] hback
  rw [List.nil_append] at this
  rw [this]
  simp [Part.separator]

theorem occupied_append {es₁ es₂ : List LeafEntry} :
    BTree.occupied e (es₁ ++ es₂) = (BTree.occupied e es₁ || BTree.occupied e es₂) :=
  List.any_append

theorem occupied_eq_false (h : ∀ x ∈ es, x.key.rank ≠ e.key.rank) :
    BTree.occupied e es = false := by
  rw [BTree.occupied, List.any_eq_false]
  intro x hx hocc
  simp only [Bool.and_eq_true] at hocc
  exact h x hx (Value.rank_eq_of_operatorEq hocc.1.1)

end Step

section OrderedStep

variable {L : Layout} {e : LeafEntry} {ps A B : List Part} {s : Value} {pre post : Leaves}
  {es : List LeafEntry}

/-- The position of an entry can only be taken in the leaf of its key. -/
theorem Parts.occupied_scanAll (hp : Parts L ps) (hps : ps = A ++ (s, (L.target e.key, es)) :: B)
    (hs : s.rank ≤ e.key.rank) (hB : ∀ q ∈ B, e.key.rank < q.1.rank) :
    BTree.occupied e L.scanAll = BTree.occupied e es := by
  rw [hp.scanAll_eq hps, occupied_append, occupied_append,
    occupied_eq_false fun x hx => (hp.lt_of_mem_before hps hs x hx).ne,
    occupied_eq_false fun x hx => (hp.lt_of_mem_after hps hB x hx).ne', Bool.false_or, Bool.or_false]

/-- Bounds of the keys of the leaf once the entry is in. -/
theorem Parts.insertEntry_bounds (hp : Parts L ps)
    (hps : ps = A ++ (s, (L.target e.key, es)) :: B) (hs : s.rank ≤ e.key.rank)
    (hB : ∀ q ∈ B, e.key.rank < q.1.rank) :
    ∀ x ∈ BTree.insertEntry e es, s.rank ≤ x.key.rank ∧ ∀ q ∈ B, x.key.rank < q.1.rank := by
  intro x hx
  rcases (List.mem_orderedInsert _).1 hx with rfl | hx
  · exact ⟨hs, hB⟩
  · refine ⟨(hp.bound (s, (L.target e.key, es)) (by rw [hps]; simp)).2 x hx, fun q hq => ?_⟩
    have horder := hp.order
    rw [hps, List.pairwise_append, List.pairwise_cons] at horder
    exact (horder.2.1.1 q hq).2 x hx

/-- A split that does not cut a group yields parts again, and its separator goes behind that of the
split leaf. -/
theorem Ordered.parts_split (h : Ordered L) (hp : Parts L ps)
    (hps : ps = A ++ (s, (L.target e.key, es)) :: B) (hs : s.rank ≤ e.key.rank)
    (hB : ∀ q ∈ B, e.key.rank < q.1.rank) (he : e.key.isNaN = false)
    (hversions : Versions (BTree.insertEntry e L.scanAll)) {first : LeafEntry}
    {rest : List LeafEntry} (hright : rightHalf (BTree.insertEntry e es) = first :: rest)
    (hcut : ∀ l ∈ leftHalf (BTree.insertEntry e es), l.key.rank ≠ first.key.rank) (x : PageId) :
    Parts ⟨some (BTree.insertSeparator ⟨first.key, x⟩ (ps.map Part.separator)),
      A.map Prod.snd ++ (L.target e.key, leftHalf (BTree.insertEntry e es)) ::
        (x, rightHalf (BTree.insertEntry e es)) :: B.map Prod.snd⟩
      (A ++ (s, (L.target e.key, leftHalf (BTree.insertEntry e es))) ::
        (first.key, (x, rightHalf (BTree.insertEntry e es))) :: B) := by
  have hins := hp.insertEntry_scanAll hps h.versions.keys he hs hB
  have hbounds := hp.insertEntry_bounds hps hs hB
  set leaf := BTree.insertEntry e es with hleaf
  have hhalves := leftHalf_append_rightHalf leaf
  have hfirst : first ∈ leaf := by
    rw [← hhalves, hright]
    simp
  -- the leaf is a stretch of the sorted list of all entries
  have hsorted : (leftHalf leaf ++ rightHalf leaf).Pairwise fun a b => a.position < b.position := by
    have hall := hversions.sorted
    rw [hins, List.pairwise_append, List.pairwise_append] at hall
    rw [hhalves]
    exact hall.2.1.1
  rw [List.pairwise_append] at hsorted
  have hfirstKey : first.key.isNaN = false := by
    refine hversions.keys first ?_
    rw [hins]
    exact List.mem_append_right _ (List.mem_append_left _ hfirst)
  have hle : ∀ y ∈ rightHalf leaf, first.key.rank ≤ y.key.rank := by
    intro y hy
    have hsr := hsorted.2.1
    rw [hright] at hy hsr
    rcases List.mem_cons.1 hy with rfl | hy
    · exact le_refl _
    · exact rank_le_of_position_lt ((List.pairwise_cons.1 hsr).1 y hy)
  have hlt : ∀ y ∈ leftHalf leaf, y.key.rank < first.key.rank := by
    intro y hy
    refine lt_of_le_of_ne (rank_le_of_position_lt (hsorted.2.2 y hy first ?_)) (hcut y hy)
    rw [hright]
    exact List.mem_cons_self
  have horder := hp.order
  rw [hps, List.pairwise_append] at horder
  have hA : ∀ q ∈ A, q.1.rank ≤ first.key.rank := by
    intro q hq
    exact (horder.2.2 q hq _ List.mem_cons_self).1.trans (hbounds first hfirst).1
  have hnan : ∀ q ∈ A ++ (s, (L.target e.key, es)) :: B, q.1.isNaN = false := by
    intro q hq
    exact (hp.bound q (by rw [hps]; exact hq)).1
  rw [hps, insertSeparator_eq hfirstKey hnan hA (hbounds first hfirst).1 (hbounds first hfirst).2
    (leftHalf leaf) (rightHalf leaf)]
  refine hp.split hps hfirstKey (hbounds first hfirst).1 (hbounds first hfirst).2 ?_ ?_
  · intro y hy
    refine ⟨(hbounds y ?_).1, hlt y hy⟩
    rw [← hhalves]
    exact List.mem_append_left _ hy
  · intro y hy
    refine ⟨hle y hy, (hbounds y ?_).2⟩
    rw [← hhalves]
    exact List.mem_append_right _ hy

/-- What a `put` does to an ordered layout that it does not cut: it stays ordered, and its entries
are those from before with the new one inserted, or it returns false because the position was
taken. -/
theorem Ordered.step {L' : Layout} {b : Bool} (h : Ordered L) (hnodup : L.leaves.pages.Nodup)
    (hput : PutStep e L b L') (he : e.key.isNaN = false) (halias : NoAlias e.key L.scanAll)
    (hcut : ¬ L.CutsGroup e) :
    Ordered L' ∧ L'.scanAll = (if b then BTree.insertEntry e L.scanAll else L.scanAll) ∧
      (b = true ↔ ¬ BTree.occupied e L.scanAll = true) := by
  obtain ⟨ps, hp⟩ := h.parts
  have hnotcut : ∀ {pre post : Leaves} {es rest : List LeafEntry} {first : LeafEntry},
      L.leaves = pre ++ (L.target e.key, es) :: post → Overflows (BTree.insertEntry e es) →
      rightHalf (BTree.insertEntry e es) = first :: rest →
      ∀ l ∈ leftHalf (BTree.insertEntry e es), l.key.rank ≠ first.key.rank := by
    intro pre post es rest first hsplit hover hright l hl heq
    refine hcut ?_
    rw [Layout.CutsGroup, Layout.entriesAt_eq hnodup hsplit]
    exact ⟨hover, l, hl, first, by rw [hright]; exact List.mem_cons_self, heq⟩
  cases hput with
  | occupied hsplit hocc =>
    obtain ⟨A, s, B, hps, -, -, hs, hB⟩ := hp.at_target hnodup he hsplit
    refine ⟨h, rfl, ?_⟩
    rw [hp.occupied_scanAll hps hs hB, hocc]
    simp
  | @inLeaf pre post es hsplit hocc hover =>
    obtain ⟨A, s, B, hps, rfl, rfl, hs, hB⟩ := hp.at_target hnodup he hsplit
    rw [← hp.occupied_scanAll hps hs hB] at hocc
    have hall : Layout.scanAll { L with leaves := A.map Prod.snd ++
        (L.target e.key, BTree.insertEntry e es) :: B.map Prod.snd } =
        BTree.insertEntry e L.scanAll := by
      rw [Layout.scanAll, Leaves.entries_append, Leaves.entries_cons,
        hp.insertEntry_scanAll hps h.versions.keys he hs hB]
    exact ⟨⟨⟨_, hp.withLeaf hps (hp.insertEntry_bounds hps hs hB)⟩,
      by rw [hall]; exact h.versions.insert he halias hocc⟩, hall, by simp [hocc]⟩
  | @newRoot pre post es rest first x hsplit hocc hover hright hix =>
    obtain ⟨A, s, B, hps, rfl, rfl, hs, hB⟩ := hp.at_target hnodup he hsplit
    rw [← hp.occupied_scanAll hps hs hB] at hocc
    have hversions := h.versions.insert he halias hocc
    have hparts := h.parts_split hp hps hs hB he hversions hright (hnotcut hsplit hover hright) x
    -- the only part is the root under the null separator
    have hindex : ps.map Part.separator = [⟨.null, L.target e.key⟩] := by
      obtain ⟨s₀, hs₀⟩ := hp.single hix
      obtain ⟨s₁, rest', hhead⟩ := hp.head
      have hl := hp.leaves
      rw [hs₀, hhead, List.map_cons, List.cons.injEq] at hl
      rw [hhead, List.map_eq_nil_iff.1 hl.2.symm] at hps ⊢
      cases A with
      | nil =>
        rw [List.nil_append, List.cons.injEq, Prod.mk.injEq] at hps
        rw [hps.1.2]
        rfl
      | cons a A =>
        rw [List.cons_append, List.cons.injEq] at hps
        exact absurd hps.2 (by simp)
    rw [hindex, insertSeparator_cons_null] at hparts
    have hall := entries_halves (A.map Prod.snd) (B.map Prod.snd) (L.target e.key) x
      (BTree.insertEntry e es)
    rw [← hp.insertEntry_scanAll hps h.versions.keys he hs hB] at hall
    exact ⟨⟨⟨_, hparts⟩, by rw [Layout.scanAll, hall]; exact hversions⟩, hall, by simp [hocc]⟩
  | @newSeparator pre post es rest first x ies hsplit hocc hover hright hix hlen =>
    obtain ⟨A, s, B, hps, rfl, rfl, hs, hB⟩ := hp.at_target hnodup he hsplit
    rw [← hp.occupied_scanAll hps hs hB] at hocc
    have hversions := h.versions.insert he halias hocc
    have hparts := h.parts_split hp hps hs hB he hversions hright (hnotcut hsplit hover hright) x
    rw [← hp.index ies hix] at hparts
    have hall := entries_halves (A.map Prod.snd) (B.map Prod.snd) (L.target e.key) x
      (BTree.insertEntry e es)
    rw [← hp.insertEntry_scanAll hps h.versions.keys he hs hB] at hall
    exact ⟨⟨⟨_, hparts⟩, by rw [Layout.scanAll, hall]; exact hversions⟩, hall, by simp [hocc]⟩

end OrderedStep

end OpenDB
