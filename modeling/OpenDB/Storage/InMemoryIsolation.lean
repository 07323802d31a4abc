import OpenDB.Core.Isolation
import OpenDB.Storage.InMemoryStorageProvider

/-!
# The in-memory store isolates transactions

What a transaction sees of a table of the in-memory store is the newest version of every chain, as long
as all versions are committed or its own. The abstract state of a table is therefore its version chains
without sequence numbers and transaction ids; only whether a version is staged matters
(`InMemory.isolation`).
-/

set_option autoImplicit false

namespace OpenDB

open OpenDB.Library

namespace InMemory

/-- A version without its sequence number and its transaction. -/
structure Entry where
  staged : Bool
  payload : Tuple
  tombstone : Bool

/-- The state of a table: its chains and the last number it has given out. -/
structure TableState where
  rows : List (Value × List Entry)
  autoId : Option UInt64

namespace TableState

/-- The newest row of a chain. -/
def lastRow (entries : List Entry) : Option Tuple :=
  match entries.getLast? with
  | none => none
  | some v => if v.tombstone then none else some v.payload

def scan (a : TableState) : List Tuple := a.rows.filterMap fun e => lastRow e.2

/-- A new version of a key. -/
def push (key : Value) (v : Entry) : List (Value × List Entry) → List (Value × List Entry)
  | [] => [(key, [v])]
  | e :: rows =>
    if key.operatorLt e.1 then (key, [v]) :: e :: rows
    else if e.1.operatorLt key then e :: push key v rows
    else (e.1, e.2 ++ [v]) :: rows

def put (a : TableState) (key : Value) (row : Tuple) : DbError × TableState :=
  if key.isNull then
    let next := a.autoId.getD 0 + 1
    let key := Value.int64 next.toInt64
    (.sentinel, ⟨push key ⟨true, row.set (ascii "_id") key, false⟩ a.rows, some next⟩)
  else (.sentinel, { a with rows := push key ⟨true, row, false⟩ a.rows })

def remove (a : TableState) (key : Value) : DbError × TableState :=
  (.sentinel, { a with rows := push key ⟨true, .empty, true⟩ a.rows })

/-- Nothing is staged any more. -/
def commit (a : TableState) : TableState :=
  { a with rows := a.rows.map fun e => (e.1, e.2.map fun v => { v with staged := false }) }

/-- What is staged is taken back; a table that becomes empty forgets its numbers. -/
def abort (a : TableState) : TableState :=
  let rows := (a.rows.map fun e => (e.1, e.2.filter fun v => !v.staged)).filter fun e => !e.2.isEmpty
  ⟨rows, if rows.isEmpty then none else a.autoId⟩

structure Clean (a : TableState) : Prop where
  committed : ∀ e ∈ a.rows, ∀ v ∈ e.2, v.staged = false
  chains : ∀ e ∈ a.rows, e.2 ≠ []
  numbers : a.rows = [] → a.autoId = none

theorem commit_clean {a : TableState} (h : a.Clean) : a.commit = a := by
  have hrows : (a.rows.map fun e => (e.1, e.2.map fun v => { v with staged := false })) = a.rows := by
    conv_rhs => rw [← List.map_id a.rows]
    apply List.map_congr_left
    intro e he
    have hchain : (e.2.map fun v => { v with staged := false }) = e.2 := by
      conv_rhs => rw [← List.map_id e.2]
      apply List.map_congr_left
      intro v hv
      obtain ⟨staged, payload, tombstone⟩ := v
      cases h.committed e he _ hv
      rfl
    rw [hchain]
    rfl
  rw [commit, hrows]

theorem abort_clean {a : TableState} (h : a.Clean) : a.abort = a := by
  have hrows : (a.rows.map fun e => (e.1, e.2.filter fun v => !v.staged)) = a.rows := by
    conv_rhs => rw [← List.map_id a.rows]
    apply List.map_congr_left
    intro e he
    have hchain : (e.2.filter fun v => !v.staged) = e.2 := by
      rw [List.filter_eq_self]
      intro v hv
      rw [h.committed e he v hv]
      rfl
    rw [hchain]
    rfl
  have hkeep : (a.rows.filter fun e => !e.2.isEmpty) = a.rows := by
    rw [List.filter_eq_self]
    intro e he
    simpa using h.chains e he
  obtain ⟨rows, autoId⟩ := a
  rw [abort, hrows]
  dsimp only at hkeep ⊢
  rw [hkeep]
  split_ifs with hempty
  · have hnone : autoId = none := h.numbers (List.isEmpty_iff.1 hempty)
    rw [hnone]
  · rfl

end TableState

/-! ## The state of a table in a store -/

def entryOf (v : Version) : Entry := ⟨decide (v.commitSeq = 0), v.payload, v.tombstone⟩

def entriesOf (rows : Rows) : List (Value × List Entry) :=
  rows.map fun e => (e.1, e.2.map entryOf)

def stateOf (s : InMemoryStore) (table : Bytes) : TableState :=
  ⟨entriesOf (rowsOf s table), s.autoId.find table⟩

/-- The chains of a table: a staged version is by the owner of the table, a committed one is visible,
and none is empty. -/
structure ValidRows (owner : Option UInt64) (visibleSeq : UInt64) (rows : Rows) : Prop where
  staged : ∀ e ∈ rows, ∀ v ∈ e.2, v.commitSeq = 0 → owner = some v.txnId
  visible : ∀ e ∈ rows, ∀ v ∈ e.2, v.commitSeq ≤ visibleSeq
  chains : ∀ e ∈ rows, e.2 ≠ []

/-- A store whose tables are valid; a table without rows is not there and has given out no number. -/
structure Valid (s : InMemoryStore) (owner : Bytes → Option UInt64) : Prop where
  rows : ∀ table, ValidRows (owner table) s.visibleSeq (rowsOf s table)
  present : ∀ table, s.tables.find table ≠ some []
  numbers : ∀ table, rowsOf s table = [] → s.autoId.find table = none

section

variable {s : InMemoryStore} {owner : Bytes → Option UInt64} {table : Bytes} {txn : UInt64}
  {o : Option UInt64} {seq : UInt64} {rows : Rows}

theorem clean_stateOf (h : Valid s owner) (hnone : owner table = none) :
    (stateOf s table).Clean := by
  constructor
  · intro e he w hw
    obtain ⟨e', he', rfl⟩ := List.mem_map.1 he
    obtain ⟨v, hv, rfl⟩ := List.mem_map.1 hw
    refine decide_eq_false fun hzero => ?_
    have hown := (h.rows table).staged e' he' v hv hzero
    rw [hnone] at hown
    cases hown
  · intro e he
    obtain ⟨e', he', rfl⟩ := List.mem_map.1 he
    intro hnil
    exact (h.rows table).chains e' he' (List.map_eq_nil_iff.1 hnil)
  · intro hnil
    exact h.numbers table (List.map_eq_nil_iff.1 hnil)

/-! ## Reading -/

/-- A chain whose versions are all visible shows its newest one. -/
theorem visibleRow_eq {versions : List Version}
    (h : ∀ v ∈ versions, isVisible seq txn v = true) :
    visibleRow seq txn versions = TableState.lastRow (versions.map entryOf) := by
  have hfind : versions.reverse.find? (isVisible seq txn) = versions.getLast? := by
    rw [← List.head?_reverse]
    cases hrev : versions.reverse with
    | nil => rfl
    | cons v rest =>
      have hv : v ∈ versions := List.mem_reverse.1 (by rw [hrev]; exact List.mem_cons_self)
      rw [List.find?_cons_of_pos (h v hv)]
      rfl
  rw [visibleRow, hfind, TableState.lastRow, List.getLast?_map]
  cases versions.getLast? with
  | none => rfl
  | some v => rfl

theorem isVisible_of_valid (h : ValidRows o seq rows) (haccess : o = none ∨ o = some txn)
    {e : Value × List Version} (he : e ∈ rows) {v : Version} (hv : v ∈ e.2) :
    isVisible seq txn v = true := by
  rw [isVisible]
  split_ifs with hzero
  · have hown := h.staged e he v hv hzero
    rcases haccess with rfl | rfl
    · cases hown
    · exact decide_eq_true (Option.some.inj hown).symm
  · exact decide_eq_true (h.visible e he v hv)

theorem scan_eq (h : Valid s owner) (haccess : owner table = none ∨ owner table = some txn) :
    scan txn table s = (stateOf s table).scan := by
  rw [scan, TableState.scan, stateOf, entriesOf]
  rw [List.filterMap_map]
  apply List.filterMap_congr
  intro e he
  exact visibleRow_eq fun v hv => isVisible_of_valid (h.rows table) haccess he hv

/-! ## Writing -/

theorem entriesOf_push (key : Value) (v : Version) (rows : Rows) :
    entriesOf (pushVersion key v rows) = TableState.push key (entryOf v) (entriesOf rows) := by
  induction rows with
  | nil => rfl
  | cons e rows ih =>
    rw [pushVersion]
    show _ = TableState.push key (entryOf v) ((e.1, e.2.map entryOf) :: entriesOf rows)
    rw [TableState.push]
    split_ifs
    · rfl
    · exact congrArg _ ih
    · show (e.1, (e.2 ++ [v]).map entryOf) :: entriesOf rows = _
      rw [List.map_append]
      rfl

/-- The versions of a table after a push are those before and the new one. -/
theorem mem_pushVersion {key : Value} {v : Version} {e' : Value × List Version}
    (he' : e' ∈ pushVersion key v rows) :
    e'.2 = [v] ∨ (∃ e ∈ rows, e'.2 = e.2 ++ [v]) ∨ ∃ e ∈ rows, e'.2 = e.2 := by
  induction rows with
  | nil => exact Or.inl (by rw [List.mem_singleton.1 he'])
  | cons e rows ih =>
    rw [pushVersion] at he'
    split_ifs at he'
    · rcases List.mem_cons.1 he' with rfl | he'
      · exact Or.inl rfl
      · exact Or.inr (Or.inr ⟨e', he', rfl⟩)
    · rcases List.mem_cons.1 he' with rfl | he'
      · exact Or.inr (Or.inr ⟨e', List.mem_cons_self, rfl⟩)
      · rcases ih he' with hnew | ⟨f, hf, heq⟩ | ⟨f, hf, heq⟩
        · exact Or.inl hnew
        · exact Or.inr (Or.inl ⟨f, List.mem_cons_of_mem _ hf, heq⟩)
        · exact Or.inr (Or.inr ⟨f, List.mem_cons_of_mem _ hf, heq⟩)
    · rcases List.mem_cons.1 he' with rfl | he'
      · exact Or.inr (Or.inl ⟨e, List.mem_cons_self, rfl⟩)
      · exact Or.inr (Or.inr ⟨e', List.mem_cons_of_mem _ he', rfl⟩)

theorem validRows_push {key : Value} {v : Version} (h : ValidRows o seq rows)
    (haccess : o = none ∨ o = some txn) (htxn : v.txnId = txn) (hseq : v.commitSeq = 0) :
    ValidRows (some txn) seq (pushVersion key v rows) := by
  have hold : ∀ e ∈ rows, ∀ w ∈ e.2, w.commitSeq = 0 → some txn = some w.txnId := by
    intro e he w hw hzero
    have hown := h.staged e he w hw hzero
    rcases haccess with rfl | rfl
    · cases hown
    · exact hown
  have hnew : v.commitSeq ≤ seq := by
    rw [hseq]
    exact UInt64.zero_le
  -- a pushed row is the new one or was there before
  have hmem : ∀ e' ∈ pushVersion key v rows, ∀ w ∈ e'.2, w = v ∨ ∃ e ∈ rows, w ∈ e.2 := by
    intro e' he' w hw
    rcases mem_pushVersion he' with heq | ⟨e, he, heq⟩ | ⟨e, he, heq⟩
    · rw [heq] at hw
      exact Or.inl (List.mem_singleton.1 hw)
    · rw [heq] at hw
      rcases List.mem_append.1 hw with hw | hw
      · exact Or.inr ⟨e, he, hw⟩
      · exact Or.inl (List.mem_singleton.1 hw)
    · rw [heq] at hw
      exact Or.inr ⟨e, he, hw⟩
  constructor
  · intro e' he' w hw hzero
    rcases hmem e' he' w hw with rfl | ⟨e, he, hw⟩
    · rw [htxn]
    · exact hold e he w hw hzero
  · intro e' he' w hw
    rcases hmem e' he' w hw with rfl | ⟨e, he, hw⟩
    · exact hnew
    · exact h.visible e he w hw
  · intro e' he'
    rcases mem_pushVersion he' with heq | ⟨e, he, heq⟩ | ⟨e, he, heq⟩
    · rw [heq]
      exact List.cons_ne_nil _ _
    · rw [heq]
      exact List.append_ne_nil_of_right_ne_nil _ (List.cons_ne_nil _ _)
    · rw [heq]
      exact h.chains e he

theorem pushVersion_ne_nil (key : Value) (v : Version) (rows : Rows) :
    pushVersion key v rows ≠ [] := by
  cases rows with
  | nil => exact List.cons_ne_nil _ _
  | cons e rows =>
    rw [pushVersion]
    split_ifs <;> exact List.cons_ne_nil _ _

theorem rowsOf_pushRow (key : Value) (v : Version) (t : Bytes) :
    rowsOf (pushRow table key v s) t =
      if t = table then pushVersion key v (rowsOf s table) else rowsOf s t := by
  simp only [rowsOf, pushRow]
  split_ifs with ht
  · rw [ht, AssocMap.find_assign_self]
    rfl
  · rw [AssocMap.find_assign_of_ne _ _ ht]

/-- A staged version is pushed, and the number of its table may change. -/
theorem valid_pushRow (h : Valid s owner) (haccess : owner table = none ∨ owner table = some txn)
    {key : Value} {v : Version} (htxn : v.txnId = txn) (hseq : v.commitSeq = 0)
    {ids : AssocMap Bytes UInt64} (hids : ∀ t, t ≠ table → ids.find t = s.autoId.find t) :
    Valid (pushRow table key v { s with autoId := ids }) (setTable owner table (some txn)) := by
  constructor
  · intro t
    rw [rowsOf_pushRow]
    by_cases ht : t = table
    · rw [if_pos ht, ht, setTable_self]
      exact validRows_push (h.rows table) haccess htxn hseq
    · rw [if_neg ht, setTable_of_ne _ _ ht]
      exact h.rows t
  · intro t hnil
    rw [pushRow] at hnil
    by_cases ht : t = table
    · rw [ht, AssocMap.find_assign_self] at hnil
      exact pushVersion_ne_nil _ _ _ (Option.some.inj hnil)
    · rw [AssocMap.find_assign_of_ne _ _ ht] at hnil
      exact h.present t hnil
  · intro t hnil
    rw [rowsOf_pushRow] at hnil
    split_ifs at hnil with ht
    · exact absurd hnil (pushVersion_ne_nil _ _ _)
    · exact (hids t ht).trans (h.numbers t hnil)

theorem stateOf_pushRow (key : Value) (v : Version) {ids : AssocMap Bytes UInt64}
    (hids : ∀ t, t ≠ table → ids.find t = s.autoId.find t) :
    stateOf (pushRow table key v { s with autoId := ids }) = setTable (stateOf s) table
      ⟨TableState.push key (entryOf v) (stateOf s table).rows, ids.find table⟩ := by
  funext t
  rw [stateOf]
  rw [rowsOf_pushRow]
  by_cases ht : t = table
  · rw [if_pos ht, ht, setTable_self, entriesOf_push]
    rfl
  · rw [if_neg ht, setTable_of_ne _ _ ht]
    exact congrArg _ (hids t ht)

theorem put_eq (txn : UInt64) (table : Bytes) (key : Value) (row : Tuple) (h : Valid s owner)
    (haccess : owner table = none ∨ owner table = some txn) :
    stateOf (put txn table key row s) =
        setTable (stateOf s) table ((stateOf s table).put key row).2 ∧
      Valid (put txn table key row s) (setTable owner table (some txn)) := by
  rw [put, TableState.put]
  by_cases hnull : key.isNull = true
  · rw [if_pos hnull, if_pos hnull]
    have hids : ∀ next t, t ≠ table →
        (s.autoId.assign table next).find t = s.autoId.find t :=
      fun next t ht => AssocMap.find_assign_of_ne _ _ ht
    refine ⟨?_, valid_pushRow h haccess rfl rfl (hids _)⟩
    rw [stateOf_pushRow _ _ (hids _), AssocMap.find_assign_self]
    rfl
  · rw [if_neg hnull, if_neg hnull]
    exact ⟨stateOf_pushRow _ _ fun _ _ => rfl, valid_pushRow h haccess rfl rfl fun _ _ => rfl⟩

theorem remove_eq (txn : UInt64) (table : Bytes) (key : Value) (h : Valid s owner)
    (haccess : owner table = none ∨ owner table = some txn) :
    stateOf (remove txn table key s) =
        setTable (stateOf s) table ((stateOf s table).remove key).2 ∧
      Valid (remove txn table key s) (setTable owner table (some txn)) :=
  ⟨stateOf_pushRow _ _ fun _ _ => rfl, valid_pushRow h haccess rfl rfl fun _ _ => rfl⟩

/-! ## Commit -/

theorem rowsOf_commit (txn seq : UInt64) (t : Bytes) :
    rowsOf (commit txn seq s) t = stampRows txn seq (rowsOf s t) := by
  simp only [rowsOf, commit]
  rw [AssocMap.find_mapValues]
  cases s.tables.find t <;> rfl

/-- A version that is not staged by the transaction stays. -/
theorem stamp_of_not_staged {v : Version} (h : v.commitSeq = 0 → v.txnId ≠ txn) :
    stamp txn seq v = v := by
  rw [stamp, isStagedBy]
  refine if_neg fun hstaged => ?_
  rw [Bool.and_eq_true, beq_iff_eq, beq_iff_eq] at hstaged
  exact h hstaged.2 hstaged.1

theorem stampRows_of_ne (h : ValidRows o seq rows) (hne : o ≠ some txn) (seq' : UInt64) :
    stampRows txn seq' rows = rows := by
  rw [stampRows]
  conv_rhs => rw [← List.map_id rows]
  apply List.map_congr_left
  intro e he
  have hchain : e.2.map (stamp txn seq') = e.2 := by
    conv_rhs => rw [← List.map_id e.2]
    apply List.map_congr_left
    intro v hv
    apply stamp_of_not_staged
    rintro hzero rfl
    exact hne (h.staged e he v hv hzero)
  rw [hchain]
  rfl

/-- The owner of a table commits: everything in it is committed then. -/
theorem entryOf_stamp {v : Version} (h : v.commitSeq = 0 → v.txnId = txn) {seq' : UInt64}
    (hseq : seq' ≠ 0) : entryOf (stamp txn seq' v) = { entryOf v with staged := false } := by
  unfold stamp isStagedBy
  by_cases hzero : v.commitSeq = 0
  · rw [if_pos (by rw [h hzero, hzero]; simp)]
    unfold entryOf
    rw [decide_eq_false hseq]
  · rw [if_neg (by simp [hzero])]
    unfold entryOf
    rw [decide_eq_false hzero]

theorem entriesOf_stampRows (h : ValidRows (some txn) seq rows) {seq' : UInt64} (hseq : seq' ≠ 0) :
    entriesOf (stampRows txn seq' rows) =
      (entriesOf rows).map fun e => (e.1, e.2.map fun v => { v with staged := false }) := by
  simp only [entriesOf, stampRows]
  rw [List.map_map, List.map_map]
  apply List.map_congr_left
  intro e he
  show (e.1, (e.2.map (stamp txn seq')).map entryOf) = (e.1, (e.2.map entryOf).map _)
  rw [List.map_map, List.map_map]
  have hchain : e.2.map (entryOf ∘ stamp txn seq') =
      e.2.map ((fun v => { v with staged := false }) ∘ entryOf) := by
    apply List.map_congr_left
    intro v hv
    exact entryOf_stamp (fun hzero => (Option.some.inj (h.staged e he v hv hzero)).symm) hseq
  rw [hchain]

theorem commitSeq_stamp (txn : UInt64) (v : Version) (seq' : UInt64) :
    (isStagedBy txn v = true ∧ (stamp txn seq' v).commitSeq = seq') ∨
      (isStagedBy txn v = false ∧ stamp txn seq' v = v) := by
  rw [stamp]
  cases isStagedBy txn v with
  | true => exact Or.inl ⟨rfl, rfl⟩
  | false => exact Or.inr ⟨rfl, rfl⟩

theorem le_max_seq (a b : UInt64) : a ≤ max a b ∧ b ≤ max a b := by
  show a ≤ (if a ≤ b then b else a) ∧ b ≤ if a ≤ b then b else a
  split_ifs with h
  · exact ⟨h, UInt64.le_refl _⟩
  · exact ⟨UInt64.le_refl _, UInt64.le_of_lt (UInt64.not_le.1 h)⟩

theorem validRows_stamp (h : ValidRows o seq rows) {seq' : UInt64} (hseq : seq' ≠ 0) :
    ValidRows (if o = some txn then none else o) (max seq seq') (stampRows txn seq' rows) := by
  constructor
  · intro e' he' w hw hzero
    obtain ⟨e, he, rfl⟩ := List.mem_map.1 he'
    obtain ⟨v, hv, rfl⟩ := List.mem_map.1 hw
    rcases commitSeq_stamp txn v seq' with ⟨-, hcommit⟩ | ⟨hnot, hsame⟩
    · exact absurd (hcommit.symm.trans hzero) hseq
    · rw [hsame] at hzero ⊢
      have hown := h.staged e he v hv hzero
      rw [if_neg, hown]
      rintro heq
      rw [hown] at heq
      rw [isStagedBy, Option.some.inj heq, hzero] at hnot
      simp at hnot
  · intro e' he' w hw
    obtain ⟨e, he, rfl⟩ := List.mem_map.1 he'
    obtain ⟨v, hv, rfl⟩ := List.mem_map.1 hw
    rcases commitSeq_stamp txn v seq' with ⟨-, hcommit⟩ | ⟨-, hsame⟩
    · rw [hcommit]
      exact (le_max_seq seq seq').2
    · rw [hsame]
      exact UInt64.le_trans (h.visible e he v hv) (le_max_seq seq seq').1
  · intro e' he' hnil
    obtain ⟨e, he, rfl⟩ := List.mem_map.1 he'
    exact h.chains e he (List.map_eq_nil_iff.1 hnil)

theorem commit_eq (txn : UInt64) (h : Valid s owner) (hseq : seq ≠ 0) :
    stateOf (commit txn seq s) = onOwned txn owner TableState.commit (stateOf s) ∧
      Valid (commit txn seq s) (disown txn owner) := by
  constructor
  · funext t
    rw [onOwned]
    split_ifs with hown
    · have hrows := h.rows t
      rw [hown] at hrows
      rw [stateOf, TableState.commit]
      rw [rowsOf_commit, entriesOf_stampRows hrows hseq]
      rfl
    · rw [stateOf]
      rw [rowsOf_commit, stampRows_of_ne (h.rows t) hown]
      rfl
  · constructor
    · intro t
      rw [rowsOf_commit]
      exact validRows_stamp (h.rows t) hseq
    · intro t hnil
      have hmap : (s.tables.find t).map (stampRows txn seq) = some [] :=
        (AssocMap.find_mapValues _ _ _).symm.trans hnil
      obtain ⟨rows, hfind, hrows⟩ := Option.map_eq_some_iff.1 hmap
      rw [List.map_eq_nil_iff.1 hrows] at hfind
      exact h.present t hfind
    · intro t hnil
      rw [rowsOf_commit] at hnil
      exact h.numbers t (List.map_eq_nil_iff.1 hnil)

/-! ## Abort -/

theorem rowsOf_abort (txn : UInt64) (t : Bytes) :
    rowsOf (abort txn s) t = unstageRows txn (rowsOf s t) := by
  simp only [rowsOf, abort]
  rw [AssocMap.find_filterMapValues]
  cases s.tables.find t with
  | none => rfl
  | some rows =>
    rw [Option.bind_some, Option.getD_some, unstageTable]
    split_ifs with hempty
    · exact (List.isEmpty_iff.1 hempty).symm
    · rfl

/-- The tables that are empty after an abort have no number left. -/
theorem find_keptIds (txn : UInt64) (h : Valid s owner) (t : Bytes) :
    (keptIds txn s).find t =
      if (unstageRows txn (rowsOf s t)).isEmpty then none else s.autoId.find t := by
  -- the ids that go are those of the tables the abort leaves without a row
  have hmem : t ∈ ((s.tables.entries.filter fun e => (unstageTable txn e.2).isNone).map Prod.fst) ↔
      ∃ rows, s.tables.find t = some rows ∧ (unstageRows txn rows).isEmpty = true := by
    constructor
    · intro ht
      obtain ⟨e, he, rfl⟩ := List.mem_map.1 ht
      obtain ⟨hentry, hnone⟩ := List.mem_filter.1 he
      refine ⟨e.2, AssocMap.find_of_mem hentry, ?_⟩
      rw [unstageTable] at hnone
      by_contra hempty
      rw [if_neg hempty] at hnone
      cases hnone
    · rintro ⟨rows, hfind, hempty⟩
      obtain ⟨before, after, hentries, -⟩ := AssocMap.exists_of_find hfind
      refine List.mem_map.2 ⟨(t, rows), List.mem_filter.2 ⟨?_, ?_⟩, rfl⟩
      · rw [hentries]
        exact List.mem_append_right _ List.mem_cons_self
      · rw [unstageTable]
        rw [if_pos hempty]
        rfl
  rw [keptIds]
  rw [AssocMap.find_foldl_erase]
  cases hfind : s.tables.find t with
  | none =>
    have hrows : rowsOf s t = [] := by
      rw [rowsOf, hfind]
      rfl
    have hids := h.numbers t hrows
    rw [hrows, hids]
    split_ifs <;> rfl
  | some rows =>
    have hrows : rowsOf s t = rows := by
      rw [rowsOf, hfind]
      rfl
    rw [hrows]
    by_cases hempty : (unstageRows txn rows).isEmpty = true
    · rw [if_pos hempty, if_pos (hmem.2 ⟨rows, hfind, hempty⟩)]
    · rw [if_neg hempty, if_neg]
      intro ht
      obtain ⟨rows', hfind', hempty'⟩ := hmem.1 ht
      rw [hfind] at hfind'
      cases hfind'
      exact hempty hempty'

theorem unstageRows_of_ne (h : ValidRows o seq rows) (hne : o ≠ some txn) :
    unstageRows txn rows = rows := by
  have hmap : (rows.map fun e => (e.1, e.2.filter fun v => !isStagedBy txn v)) = rows := by
    conv_rhs => rw [← List.map_id rows]
    apply List.map_congr_left
    intro e he
    have hchain : (e.2.filter fun v => !isStagedBy txn v) = e.2 := by
      rw [List.filter_eq_self]
      intro v hv
      cases hstaged : isStagedBy txn v with
      | false => rfl
      | true =>
        rw [isStagedBy, Bool.and_eq_true, beq_iff_eq, beq_iff_eq] at hstaged
        have hown := h.staged e he v hv hstaged.2
        rw [hstaged.1] at hown
        exact absurd hown hne
    rw [hchain]
    rfl
  rw [unstageRows, hmap, List.filter_eq_self]
  intro e he
  simpa using h.chains e he

theorem entriesOf_unstageRows (h : ValidRows (some txn) seq rows) :
    entriesOf (unstageRows txn rows) =
      ((entriesOf rows).map fun e => (e.1, e.2.filter fun v => !v.staged)).filter
        fun e => !e.2.isEmpty := by
  have hchains : ∀ e ∈ rows, (e.2.filter fun v => !isStagedBy txn v).map entryOf =
      (e.2.map entryOf).filter fun v => !v.staged := by
    intro e he
    rw [List.filter_map]
    congr 1
    apply List.filter_congr
    intro v hv
    have hstaged : isStagedBy txn v = decide (v.commitSeq = 0) := by
      rw [isStagedBy]
      by_cases hzero : v.commitSeq = 0
      · have hown := h.staged e he v hv hzero
        rw [← Option.some.inj hown, hzero]
        simp
      · simp [hzero]
    rw [hstaged]
    rfl
  simp only [entriesOf, unstageRows]
  rw [List.filter_map, List.map_map, List.map_map, List.filter_map]
  have hfilter : rows.filter ((fun e => !e.2.isEmpty) ∘
        fun e => (e.1, e.2.filter fun v => !isStagedBy txn v)) =
      rows.filter ((fun e => !e.2.isEmpty) ∘ ((fun e => (e.1, e.2.filter fun v => !v.staged)) ∘
        fun e => (e.1, e.2.map entryOf))) := by
    apply List.filter_congr
    intro e he
    show (!(e.2.filter fun v => !isStagedBy txn v).isEmpty) =
      !((e.2.map entryOf).filter fun v => !v.staged).isEmpty
    rw [← hchains e he, List.isEmpty_map]
  rw [hfilter]
  apply List.map_congr_left
  intro e he
  show (e.1, (e.2.filter fun v => !isStagedBy txn v).map entryOf) =
    (e.1, (e.2.map entryOf).filter fun v => !v.staged)
  rw [hchains e (List.mem_filter.1 he).1]

/-- The versions after an abort are the versions before that are not staged by the transaction. -/
theorem validRows_unstage (h : ValidRows o seq rows) :
    ValidRows (if o = some txn then none else o) seq (unstageRows txn rows) := by
  have hmem : ∀ e' ∈ unstageRows txn rows, e'.2 ≠ [] ∧
      ∃ e ∈ rows, ∀ v ∈ e'.2, v ∈ e.2 ∧ isStagedBy txn v = false := by
    intro e' he'
    obtain ⟨hmap, hne⟩ := List.mem_filter.1 he'
    obtain ⟨e, he, rfl⟩ := List.mem_map.1 hmap
    refine ⟨by simpa using hne, e, he, fun v hv => ?_⟩
    obtain ⟨hold, hnot⟩ := List.mem_filter.1 hv
    exact ⟨hold, by simpa using hnot⟩
  constructor
  · intro e' he' v hv hzero
    obtain ⟨-, e, he, hin⟩ := hmem e' he'
    obtain ⟨hold, hnot⟩ := hin v hv
    have hown := h.staged e he v hold hzero
    rw [if_neg, hown]
    intro heq
    rw [hown] at heq
    rw [isStagedBy, Option.some.inj heq, hzero] at hnot
    simp at hnot
  · intro e' he' v hv
    obtain ⟨-, e, he, hin⟩ := hmem e' he'
    exact h.visible e he v (hin v hv).1
  · intro e' he'
    exact (hmem e' he').1

theorem abort_eq (txn : UInt64) (h : Valid s owner) :
    stateOf (abort txn s) = onOwned txn owner TableState.abort (stateOf s) ∧
      Valid (abort txn s) (disown txn owner) := by
  have hids : ∀ t, (abort txn s).autoId.find t =
      if (unstageRows txn (rowsOf s t)).isEmpty then none else s.autoId.find t := find_keptIds txn h
  constructor
  · funext t
    simp only [onOwned, stateOf]
    rw [rowsOf_abort, hids]
    by_cases hown : owner t = some txn
    · have hrows := h.rows t
      rw [hown] at hrows
      rw [if_pos hown, TableState.abort, ← entriesOf_unstageRows hrows, entriesOf, List.isEmpty_map]
    · rw [if_neg hown, unstageRows_of_ne (h.rows t) hown]
      split_ifs with hempty
      · rw [h.numbers t (List.isEmpty_iff.1 hempty)]
      · rfl
  · constructor
    · intro t
      rw [rowsOf_abort]
      exact validRows_unstage (h.rows t)
    · intro t hnil
      have hbind : (s.tables.find t).bind (unstageTable txn) = some [] :=
        (AssocMap.find_filterMapValues _ _ _).symm.trans hnil
      obtain ⟨rows, -, hrows⟩ := Option.bind_eq_some_iff.1 hbind
      simp only [unstageTable] at hrows
      split_ifs at hrows with hempty
      rw [Option.some.inj hrows] at hempty
      exact hempty rfl
    · intro t hnil
      rw [rowsOf_abort] at hnil
      rw [hids, if_pos (List.isEmpty_iff.2 hnil)]

end

/-- The in-memory provider meets the contract. -/
def isolation : Isolation provider TableState where
  rows := TableState.scan
  put := TableState.put
  remove := TableState.remove
  commit := TableState.commit
  abort := TableState.abort
  Clean := TableState.Clean
  Rep s owner now := now = stateOf s ∧ Valid s owner
  commit_clean := TableState.commit_clean
  abort_clean := TableState.abort_clean
  clean_of_rep := by
    rintro s owner now table ⟨rfl, hvalid⟩ hnone
    exact clean_stateOf hvalid hnone
  scan_ok := by
    rintro s owner now txn table ⟨rfl, hvalid⟩ haccess
    refine ⟨s, ?_, rfl, hvalid⟩
    rw [← scan_eq hvalid haccess]
    rfl
  put_ok := by
    rintro s owner now txn table key row ⟨rfl, hvalid⟩ haccess
    obtain ⟨hstate, hvalid'⟩ := put_eq txn table key row hvalid haccess
    refine ⟨put txn table key row s, ?_, hstate.symm, hvalid'⟩
    rw [TableState.put]
    split_ifs <;> rfl
  remove_ok := by
    rintro s owner now txn table key ⟨rfl, hvalid⟩ haccess
    obtain ⟨hstate, hvalid'⟩ := remove_eq txn table key hvalid haccess
    exact ⟨remove txn table key s, rfl, hstate.symm, hvalid'⟩
  prepare_ok := by
    rintro s owner now txn hrep
    exact ⟨.sentinel, s, rfl, rfl, hrep⟩
  commit_ok := by
    rintro s owner now txn seq ⟨rfl, hvalid⟩ hseq
    obtain ⟨hstate, hvalid'⟩ := commit_eq txn hvalid hseq
    exact ⟨.sentinel, commit txn seq s, rfl, hstate.symm, hvalid'⟩
  abort_ok := by
    rintro s owner now txn ⟨rfl, hvalid⟩
    obtain ⟨hstate, hvalid'⟩ := abort_eq txn hvalid
    exact ⟨.sentinel, abort txn s, rfl, hstate.symm, hvalid'⟩

/-- A new store has nothing in it. -/
theorem valid_new : Valid new fun _ => none := by
  have hrows : ∀ table, rowsOf new table = [] := fun _ => rfl
  constructor
  · intro table
    rw [hrows]
    constructor <;> intro e he <;> cases he
  · intro table hnil
    cases hnil
  · intro table _
    rfl

end InMemory

end OpenDB
