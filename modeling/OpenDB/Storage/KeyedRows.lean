import OpenDB.Core.Executors
import OpenDB.Storage.InMemoryRefinement

/-!
# Rows under their own keys

The executors store a row under the `_id` it carries and later write it by that `_id`, without the
key it was found under. `KeyedStore` is what makes this right: every row of the in-memory store has an
`_id` of the position it stands at.

`rowAt` is the row that a transaction sees at a position. A write of the transaction changes it at the
key written and nowhere else, a commit shows everybody what its transaction saw, and a scan emits the
rows position by position.
-/

set_option autoImplicit false

namespace OpenDB

open OpenDB.Library

namespace InMemory

/-- The row has an `_id` of the position, one that the order of values can place. -/
def HasKey (r : Rank) (row : Tuple) : Prop :=
  ∃ id, row.maybeGet idColumn = some id ∧ id.isNull = false ∧ id.isNaN = false ∧ id.rank = r

/-- Tables are ordered, committed versions are visible, and rows stand under their own keys. -/
structure KeyedStore (s : InMemoryStore) : Prop where
  ordered : ∀ table, OrderedRows (rowsOf s table)
  stamped : ∀ table r, ∀ v ∈ chainAt (rowsOf s table) r, v.commitSeq ≤ s.visibleSeq
  keyed : ∀ table r, ∀ v ∈ chainAt (rowsOf s table) r, v.tombstone = false → HasKey r v.payload

/-- The transaction has no version in the table that awaits its commit. -/
def Unstaged (s : InMemoryStore) (table : Bytes) (txn : UInt64) : Prop :=
  ∀ r, ∀ v ∈ chainAt (rowsOf s table) r, isStagedBy txn v = false

/-- The row that a transaction sees at a position. -/
def rowAt (s : InMemoryStore) (txn : UInt64) (table : Bytes) (r : Rank) : Option Tuple :=
  visibleRow s.visibleSeq txn (chainAt (rowsOf s table) r)

section

variable {s s' : InMemoryStore} {table : Bytes} {txn u seq : UInt64} {key : Value} {v : Version}
  {chain : List Version} {r : Rank} {row : Tuple}

/-! ## Chains -/

theorem visibleRow_eq_bind (seq txn : UInt64) (chain : List Version) :
    visibleRow seq txn chain = (chain.reverse.find? (isVisible seq txn)).bind content := by
  rw [visibleRow]
  cases chain.reverse.find? (isVisible seq txn) <;> rfl

/-- A row that is seen is the row of a version of the chain. -/
theorem exists_mem_of_visibleRow (h : visibleRow seq txn chain = some row) :
    ∃ v ∈ chain, v.tombstone = false ∧ v.payload = row := by
  rw [visibleRow_eq_bind] at h
  obtain ⟨v, hfind, hcontent⟩ := Option.bind_eq_some_iff.1 h
  refine ⟨v, List.mem_reverse.1 (List.mem_of_find?_eq_some hfind), ?_⟩
  rw [content] at hcontent
  split_ifs at hcontent with htomb
  exact ⟨Bool.eq_false_iff.2 htomb, Option.some.inj hcontent⟩

/-- The writer sees what it has just written; for everybody else nothing has happened. -/
theorem visibleRow_push (hzero : v.commitSeq = 0) (seq u : UInt64) (chain : List Version) :
    visibleRow seq u (chain ++ [v]) =
      if v.txnId = u then content v else visibleRow seq u chain := by
  have hvisible : isVisible seq u v = decide (v.txnId = u) := by
    rw [isVisible, if_pos hzero]
  -- the new version stands at the end, where the search of a reader begins
  rw [visibleRow_eq_bind, visibleRow_eq_bind, List.reverse_append, List.reverse_singleton,
    List.singleton_append, List.find?_cons, hvisible]
  by_cases h : v.txnId = u
  · rw [if_pos h, decide_eq_true h]
    rfl
  · rw [if_neg h, decide_eq_false h]

/-- What a version is to a reader after a commit, it was to the committing transaction before. -/
theorem isVisible_stamp (hseq : seq ≠ 0) {visibleSeq : UInt64} (hv : v.commitSeq ≤ visibleSeq)
    (hu : u = txn ∨ isStagedBy u v = false) :
    isVisible (max visibleSeq seq) u (stamp txn seq v) = isVisible visibleSeq txn v := by
  have hmax := le_max_seq visibleSeq seq
  by_cases hzero : v.commitSeq = 0
  · by_cases ht : v.txnId = txn
    · -- its own version becomes visible to all
      have hstaged : isStagedBy txn v = true := isStagedBy_iff.2 ⟨ht, hzero⟩
      rw [stamp, if_pos hstaged, isVisible, if_neg hseq, isVisible, if_pos hzero,
        decide_eq_true ht]
      exact decide_eq_true hmax.2
    · have hnot : isStagedBy txn v = false := by
        simp [isStagedBy, ht]
      rw [stamp, if_neg (by rw [hnot]; exact Bool.false_ne_true), isVisible, if_pos hzero,
        isVisible, if_pos hzero, decide_eq_false ht, decide_eq_false]
      rintro rfl
      -- a version somebody else has staged: the reader has none
      rcases hu with hu | hu
      · exact ht hu
      · exact absurd (isStagedBy_iff.2 ⟨rfl, hzero⟩) (by rw [hu]; exact Bool.false_ne_true)
  · have hnot : isStagedBy txn v = false := by
      simp [isStagedBy, hzero]
    -- a committed version keeps its number, which the new limit does not hide
    rw [stamp, if_neg (by rw [hnot]; exact Bool.false_ne_true), isVisible, if_neg hzero, isVisible,
      if_neg hzero, decide_eq_true hv, decide_eq_true (UInt64.le_trans hv hmax.1)]

theorem visibleRow_stamp (hseq : seq ≠ 0) {visibleSeq : UInt64}
    (hchain : ∀ v ∈ chain, v.commitSeq ≤ visibleSeq)
    (hu : u = txn ∨ ∀ v ∈ chain, isStagedBy u v = false) :
    visibleRow (max visibleSeq seq) u (chain.map (stamp txn seq)) =
      visibleRow visibleSeq txn chain := by
  have hsame : chain.reverse.find? (isVisible (max visibleSeq seq) u ∘ stamp txn seq) =
      chain.reverse.find? (isVisible visibleSeq txn) := by
    apply List.find?_congr
    intro v hv
    have hmem := List.mem_reverse.1 hv
    exact isVisible_stamp hseq (hchain v hmem) (hu.imp_right fun h => h v hmem)
  rw [visibleRow_eq_bind, visibleRow_eq_bind, ← List.map_reverse, List.find?_map, hsame]
  cases chain.reverse.find? (isVisible visibleSeq txn) with
  | none => rfl
  | some v => exact content_stamp txn seq v

/-- A commit number of zero stamps nothing. -/
theorem stamp_zero (txn : UInt64) (v : Version) : stamp txn 0 v = v := by
  rw [stamp]
  split_ifs with hstaged
  · rw [← (isStagedBy_iff.1 hstaged).2]
  · rfl

/-! ## Rows at positions -/

theorem KeyedStore.hasKey (h : KeyedStore s) (hrow : rowAt s txn table r = some row) :
    HasKey r row := by
  obtain ⟨v, hv, htomb, rfl⟩ := exists_mem_of_visibleRow hrow
  exact h.keyed table r v hv htomb

/-- Transactions with nothing staged see the same rows. -/
theorem rowAt_eq_of_unstaged (htxn : Unstaged s table txn) (hu : Unstaged s table u) (r : Rank) :
    rowAt s txn table r = rowAt s u table r := by
  have hsame : ∀ v ∈ (chainAt (rowsOf s table) r).reverse,
      isVisible s.visibleSeq txn v = isVisible s.visibleSeq u v := by
    intro v hv
    rw [List.mem_reverse] at hv
    rw [isVisible, isVisible]
    split_ifs with hzero
    · have hnot : ∀ w, Unstaged s table w → decide (v.txnId = w) = false := by
        intro w hw
        apply decide_eq_false
        intro hown
        have hstaged := isStagedBy_iff.2 ⟨hown, hzero⟩
        rw [hw r v hv] at hstaged
        cases hstaged
      rw [hnot txn htxn, hnot u hu]
    · rfl
  rw [rowAt, rowAt, visibleRow_eq_bind, visibleRow_eq_bind, List.find?_congr hsame]

theorem rowAt_pushRow (h : OrderedRows (rowsOf s table)) (hkey : key.isNaN = false)
    (hzero : v.commitSeq = 0) (u : UInt64) (t : Bytes) (r : Rank) :
    rowAt (pushRow table key v s) u t r =
      if t = table ∧ r = key.rank ∧ v.txnId = u then content v else rowAt s u t r := by
  rw [rowAt, rowsOf_pushRow]
  by_cases ht : t = table
  · subst ht
    rw [if_pos rfl, chainAt_push h hkey]
    by_cases hr : r = key.rank
    · rw [if_pos hr, show (pushRow t key v s).visibleSeq = s.visibleSeq from rfl,
        visibleRow_push hzero]
      by_cases hu : v.txnId = u
      · rw [if_pos hu, if_pos ⟨rfl, hr, hu⟩]
      · rw [if_neg hu, if_neg fun hall => hu hall.2.2]
        rfl
    · rw [if_neg hr, if_neg fun hall => hr hall.2.1]
      rfl
  · rw [if_neg ht, if_neg fun hall => ht hall.1]
    rfl

/-- After a commit every reader with nothing staged of its own sees what the transaction saw. -/
theorem rowAt_commit (h : KeyedStore s) (hseq : seq ≠ 0) (hu : u = txn ∨ Unstaged s table u)
    (r : Rank) : rowAt (commit txn seq s) u table r = rowAt s txn table r := by
  rw [rowAt, rowsOf_commit, chainAt_stampRows]
  exact visibleRow_stamp hseq (h.stamped table r) (hu.imp_right fun hnone => hnone r)

theorem rowAt_commit_zero (u : UInt64) (table : Bytes) (r : Rank) :
    rowAt (commit txn 0 s) u table r = rowAt s u table r := by
  -- no number is below zero, so that the limit stays as well
  have hmax : max s.visibleSeq 0 = s.visibleSeq := by
    show (if s.visibleSeq ≤ 0 then 0 else s.visibleSeq) = s.visibleSeq
    split_ifs with hle
    · exact (UInt64.le_antisymm hle UInt64.zero_le).symm
    · rfl
  rw [rowAt, rowsOf_commit, chainAt_stampRows, rowAt]
  rw [show (commit txn 0 s).visibleSeq = max s.visibleSeq 0 from rfl, hmax,
    funext (stamp_zero txn), List.map_id']

/-! ## Scans -/

/-- The order of the positions is the order of a scan. -/
theorem scan_eq_filterMap (h : OrderedRows (rowsOf s table)) {keys : List Rank}
    (hsorted : keys.Pairwise (· < ·))
    (hall : ∀ r, (rowAt s txn table r).isSome = true → r ∈ keys) :
    scan txn table s = keys.filterMap (rowAt s txn table) := by
  obtain ⟨shown, hshown, hmem, hscan⟩ := exists_keys_of_scan h txn
  -- the positions that show a row are among the keys
  have hkeys : shown = keys.filter fun r => (rowAt s txn table r).isSome := by
    refine hshown.eq_of_mem_iff (hsorted.filter _) fun r => ?_
    rw [hmem, List.mem_filter]
    exact ⟨fun hr => ⟨hall r hr, hr⟩, fun hr => hr.2⟩
  apply List.map_injective_iff.2 (Option.some_injective _)
  -- the two lists of rows are compared inside `some`, where the scan is known
  rw [hscan, map_some_filterMap, hkeys]
  rfl

theorem mem_scan_iff (h : OrderedRows (rowsOf s table)) :
    row ∈ scan txn table s ↔ ∃ r, rowAt s txn table r = some row := by
  obtain ⟨keys, -, hmem, hscan⟩ := exists_keys_of_scan h txn
  have hmap : row ∈ scan txn table s ↔ some row ∈ (scan txn table s).map some := by
    rw [List.mem_map_of_injective (Option.some_injective _)]
  rw [hmap, hscan, List.mem_map]
  constructor
  · rintro ⟨r, -, hr⟩
    exact ⟨r, hr⟩
  · rintro ⟨r, hr⟩
    refine ⟨r, (hmem r).2 ?_, hr⟩
    rw [show visibleRow s.visibleSeq txn (chainAt (rowsOf s table) r) = some row from hr]
    rfl

/-- Two stores, one of which shows at every position what is left of the other's row. -/
theorem scan_eq_filter (h : OrderedRows (rowsOf s table)) (h' : OrderedRows (rowsOf s' table))
    {q : Tuple → Bool} (hrows : ∀ r, rowAt s' u table r = (rowAt s txn table r).filter q) :
    scan u table s' = (scan txn table s).filter q := by
  obtain ⟨keys, hsorted, hmem, -⟩ := exists_keys_of_scan h txn
  -- both scans go through the positions of the first
  rw [scan_eq_filterMap h hsorted fun r hr => (hmem r).2 hr, scan_eq_filterMap h' hsorted]
  · rw [List.filter_filterMap]
    exact List.filterMap_congr fun r _ => hrows r
  · intro r hr
    rw [hrows] at hr
    rw [hmem]
    cases hrow : rowAt s txn table r with
    | none =>
      rw [hrow] at hr
      cases hr
    | some row =>
      rw [show visibleRow s.visibleSeq txn (chainAt (rowsOf s table) r) = some row from hrow]
      rfl

/-! ## Writes -/

/-- One write of a transaction to a table: a tombstone, or a row under its own key. -/
def Write (txn : UInt64) (table : Bytes) (s s' : InMemoryStore) : Prop :=
  ∃ key v ids, key.isNaN = false ∧ v.commitSeq = 0 ∧ v.txnId = txn ∧
    (v.tombstone = false → HasKey key.rank v.payload) ∧
      s' = pushRow table key v { s with autoId := ids }

/-- The writes of a statement. -/
abbrev Writes (txn : UInt64) (table : Bytes) := Relation.ReflTransGen (Write txn table)

theorem write_remove (hkey : key.isNaN = false) (s : InMemoryStore) :
    Write txn table s (remove txn table key s) := by
  refine ⟨key, ⟨0, txn, .empty, true⟩, s.autoId, hkey, rfl, rfl, ?_, rfl⟩
  intro htomb
  cases htomb

/-- A row that is written to its `_id`. -/
theorem write_put (hid : row.maybeGet idColumn = some key) (hnull : key.isNull = false)
    (hkey : key.isNaN = false) (s : InMemoryStore) :
    Write txn table s (put txn table key row s) := by
  rw [put_explicit hnull]
  exact ⟨key, _, s.autoId, hkey, rfl, rfl, fun _ => ⟨key, hid, hnull, hkey, rfl⟩, rfl⟩

/-- The key of an INSERT that is not null is the `_id` of the row. -/
theorem maybeGet_of_insertKey (hnull : (insertKey row).isNull = false) :
    row.maybeGet idColumn = some (insertKey row) := by
  unfold insertKey at hnull ⊢
  cases hrow : row.maybeGet idColumn with
  | none =>
    rw [hrow] at hnull
    cases hnull
  | some id =>
    rw [hrow] at hnull
    dsimp only at hnull ⊢
    split_ifs at hnull ⊢ with hid
    · cases hnull
    · rfl

/-- An INSERT writes the row to its `_id`, or it gives the row a number for one. -/
theorem write_insert (hid : ∀ id ∈ row.maybeGet idColumn, id.isNaN = false) (s : InMemoryStore) :
    Write txn table s (put txn table (insertKey row) row s) := by
  cases hkey : (insertKey row).isNull with
  | false =>
    -- the row brings a key: it is the `_id` of the row
    have hrow := maybeGet_of_insertKey hkey
    exact write_put hrow hkey (hid _ hrow) s
  | true =>
    -- no `_id`, or a null one: the store writes the number it gives into the row
    rw [put, if_pos hkey]
    refine ⟨_, ⟨0, txn, _, false⟩, _, rfl, rfl, rfl, fun _ => ?_, rfl⟩
    refine ⟨_, ?_, rfl, rfl, rfl⟩
    show (row.set idColumn _).maybeGet idColumn = _
    rw [Tuple.maybeGet_set, if_pos rfl]

/-- The versions after a write: the old ones and the one written. -/
theorem mem_chainAt_pushRow (h : OrderedRows (rowsOf s table)) (hkey : key.isNaN = false)
    {t : Bytes} {w : Version} (hw : w ∈ chainAt (rowsOf (pushRow table key v s) t) r) :
    w ∈ chainAt (rowsOf s t) r ∨ w = v ∧ r = key.rank := by
  rw [rowsOf_pushRow] at hw
  split_ifs at hw with ht
  · subst ht
    rw [chainAt_push h hkey] at hw
    split_ifs at hw with hr
    · exact (List.mem_append.1 hw).imp_right fun hlast => ⟨List.mem_singleton.1 hlast, hr⟩
    · exact Or.inl hw
  · exact Or.inl hw

/-- A write keeps rows under their own keys. -/
theorem KeyedStore.write (h : KeyedStore s) (hw : Write txn table s s') : KeyedStore s' := by
  obtain ⟨key, v, ids, hkey, hzero, -, hrow, rfl⟩ := hw
  have hordered := h.ordered table
  refine ⟨fun t => ?_, fun t r w hw => ?_, fun t r w hw htomb => ?_⟩
  · rw [rowsOf_pushRow]
    split_ifs
    · exact hordered.push hkey
    · exact h.ordered t
  · rcases mem_chainAt_pushRow (s := { s with autoId := ids }) hordered hkey hw with hw | ⟨rfl, -⟩
    · exact h.stamped t r w hw
    · rw [hzero]
      exact UInt64.zero_le
  · rcases mem_chainAt_pushRow (s := { s with autoId := ids }) hordered hkey hw with hw | ⟨rfl, rfl⟩
    · exact h.keyed t r w hw htomb
    · exact hrow htomb

/-- What is staged after a write was staged before or is the writer's. -/
theorem Write.staged (h : KeyedStore s) (hw : Write txn table s s') {t : Bytes}
    (hv : v ∈ chainAt (rowsOf s' t) r) : v ∈ chainAt (rowsOf s t) r ∨ v.txnId = txn := by
  obtain ⟨key, v', ids, hkey, -, htxn, -, rfl⟩ := hw
  refine (mem_chainAt_pushRow (s := { s with autoId := ids }) (h.ordered table) hkey hv).imp_right ?_
  rintro ⟨rfl, -⟩
  exact htxn

/-- Readers other than the writer see no write, and nobody sees one in another table. -/
theorem Write.rowAt_of_ne (h : KeyedStore s) (hw : Write txn table s s') {t : Bytes}
    (hne : u ≠ txn ∨ t ≠ table) (r : Rank) : rowAt s' u t r = rowAt s u t r := by
  obtain ⟨key, v, ids, hkey, hzero, htxn, -, rfl⟩ := hw
  rw [rowAt_pushRow (s := { s with autoId := ids }) (h.ordered table) hkey hzero, if_neg]
  · rfl
  · rintro ⟨rfl, -, hu⟩
    rcases hne with hne | hne
    · exact hne (hu.symm.trans htxn)
    · exact hne rfl

theorem KeyedStore.writes (h : KeyedStore s) (hw : Writes txn table s s') : KeyedStore s' := by
  induction hw with
  | refl => exact h
  | tail _ hlast ih => exact ih.write hlast

theorem Writes.staged (h : KeyedStore s) (hw : Writes txn table s s') {t : Bytes}
    (hv : v ∈ chainAt (rowsOf s' t) r) : v ∈ chainAt (rowsOf s t) r ∨ v.txnId = txn := by
  induction hw with
  | refl => exact Or.inl hv
  | tail hfirst hlast ih =>
    -- the last write is looked at first; the others are those of the induction hypothesis
    rcases hlast.staged (h.writes hfirst) hv with hv | hv
    · exact ih hv
    · exact Or.inr hv

theorem Writes.rowAt_of_ne (h : KeyedStore s) (hw : Writes txn table s s') {t : Bytes}
    (hne : u ≠ txn ∨ t ≠ table) (r : Rank) : rowAt s' u t r = rowAt s u t r := by
  induction hw with
  | refl => rfl
  | tail hfirst hlast ih => exact (hlast.rowAt_of_ne (h.writes hfirst) hne r).trans ih

/-- Writes of another transaction leave nothing of this one behind. -/
theorem Unstaged.writes {t : Bytes} (hnone : Unstaged s t u) (h : KeyedStore s)
    (hw : Writes txn table s s') (hne : u ≠ txn) : Unstaged s' t u := by
  intro r v hv
  rcases hw.staged h hv with hv | hv
  · exact hnone r v hv
  · rw [Bool.eq_false_iff]
    intro hstaged
    exact hne ((isStagedBy_iff.1 hstaged).1.symm.trans hv)

theorem KeyedStore.commit (h : KeyedStore s) (txn seq : UInt64) :
    KeyedStore (InMemory.commit txn seq s) := by
  have hmax := le_max_seq s.visibleSeq seq
  refine ⟨fun t => ?_, fun t r w hw => ?_, fun t r w hw htomb => ?_⟩
  · rw [rowsOf_commit]
    exact (h.ordered t).stamp txn seq
  · rw [rowsOf_commit, chainAt_stampRows] at hw
    obtain ⟨v, hv, rfl⟩ := List.mem_map.1 hw
    rcases commitSeq_stamp txn v seq with ⟨-, hcommit⟩ | ⟨-, hsame⟩
    · rw [hcommit]
      exact hmax.2
    · rw [hsame]
      exact UInt64.le_trans (h.stamped t r v hv) hmax.1
  · rw [rowsOf_commit, chainAt_stampRows] at hw
    obtain ⟨v, hv, rfl⟩ := List.mem_map.1 hw
    -- a stamp changes the number of a version and nothing else
    have hsame : (stamp txn seq v).tombstone = v.tombstone ∧ (stamp txn seq v).payload = v.payload := by
      rw [stamp]
      split_ifs <;> exact ⟨rfl, rfl⟩
    rw [hsame.1] at htomb
    rw [hsame.2]
    exact h.keyed t r v hv htomb

theorem KeyedStore.new : KeyedStore InMemory.new := by
  have hrows : ∀ table, rowsOf InMemory.new table = [] := fun _ => rfl
  refine ⟨SettledStore.new.ordered, fun t r v hv => ?_, fun t r v hv => ?_⟩
  · rw [hrows] at hv
    cases hv
  · rw [hrows] at hv
    cases hv

end

end InMemory

end OpenDB
