import OpenDB.Storage.InMemoryIsolation

/-!
# Calls of the in-memory engine

The engine as its callers drive it: point reads beside the operations of the store, the commit that
takes its sequence number from a counter of the engine, and histories of calls with their replies.

A table is looked at through its chains (`chainAt`): as long as its keys are ordered and none is a
NaN, a key of the order has one chain, and each operation is described by what it does to that chain.
-/

set_option autoImplicit false

namespace OpenDB

open OpenDB.Library

namespace InMemory

/-- `rows.find(key)`: a `std::map` finds a key by the order of values. -/
def findChain (key : Value) : Rows → Option (List Version)
  | [] => none
  | e :: rows =>
    if key.operatorLt e.1 then none
    else if e.1.operatorLt key then findChain key rows
    else some e.2

/-- `get`. -/
def get (txn : UInt64) (table : Bytes) (key : Value) (s : InMemoryStore) : Option Tuple :=
  match s.tables.find table with
  | none => none
  | some rows =>
    match findChain key rows with
    | none => none
    | some versions => visibleRow s.visibleSeq txn versions

end InMemory

open InMemory

/-- `InMemoryStorageEngine` with the counter behind the commit without a sequence number. -/
structure InMemoryEngine where
  store : InMemoryStore
  internalSeq : UInt64
  deriving DecidableEq

/-- The calls of `IStorageEngine`. -/
inductive EngineCall where
  | get (txn : UInt64) (table : Bytes) (key : Value)
  | put (txn : UInt64) (table : Bytes) (key : Value) (row : Tuple)
  | remove (txn : UInt64) (table : Bytes) (key : Value)
  | scan (txn : UInt64) (table : Bytes)
  | commit (txn visibleSeq : UInt64)
  | commitNext (txn : UInt64)
  | abort (txn : UInt64)
  deriving DecidableEq

/-- What a call returns or emits. -/
inductive EngineReply where
  | row (r : Option Tuple)
  | rows (rs : List Tuple)
  | status (e : DbError)
  deriving DecidableEq

namespace EngineCall

def txn : EngineCall → UInt64
  | get txn _ _ | put txn _ _ _ | remove txn _ _ | scan txn _ | commit txn _ | commitNext txn
  | abort txn => txn

def isCommit : EngineCall → Bool
  | commit _ _ | commitNext _ => true
  | _ => false

/-- The calls that read: point reads and scans. -/
def isRead : EngineCall → Bool
  | get _ _ _ | scan _ _ => true
  | _ => false

/-- The key of a call, if it has one. -/
def key? : EngineCall → Option Value
  | get _ _ key | put _ _ key _ | remove _ _ key => some key
  | _ => none

/-- A key that the caller chooses and that the order of values can place. -/
def HasExplicitKey (c : EngineCall) : Prop :=
  ∀ key, c.key? = some key → key.isNull = false ∧ key.isNaN = false

end EngineCall

namespace InMemoryEngine

def new : InMemoryEngine := ⟨InMemory.new, 0⟩

/-- One call. -/
def exec (e : InMemoryEngine) : EngineCall → EngineReply × InMemoryEngine
  | .get txn table key => (.row (get txn table key e.store), e)
  | .put txn table key row => (.status .sentinel, { e with store := put txn table key row e.store })
  | .remove txn table key => (.status .sentinel, { e with store := remove txn table key e.store })
  | .scan txn table => (.rows (scan txn table e.store), e)
  | .commit txn visibleSeq =>
    (.status .sentinel, { e with store := commit txn visibleSeq e.store })
  | .commitNext txn =>
    let seq := e.internalSeq + 1
    (.status .sentinel, ⟨commit txn seq e.store, seq⟩)
  | .abort txn => (.status .sentinel, { e with store := abort txn e.store })

/-- The engine after a history. -/
def after (e : InMemoryEngine) (calls : List EngineCall) : InMemoryEngine :=
  calls.foldl (fun e c => (e.exec c).2) e

/-- The replies of a history, call by call. -/
def replies (e : InMemoryEngine) : List EngineCall → List (EngineCall × EngineReply)
  | [] => []
  | c :: calls => (c, (e.exec c).1) :: (e.exec c).2.replies calls

end InMemoryEngine

namespace InMemory

/-! ## Tables as chains -/

/-- The position of a key in the order of values. -/
abbrev Rank := ℕ ×ₗ (ℤ ×ₗ List ℕ)

/-- The versions of a key. -/
def chainAt (rows : Rows) (r : Rank) : List Version :=
  ((rows.find? fun e => e.1.rank = r).map Prod.snd).getD []

/-- The keys of a table can be placed in the order of values and stand in that order. -/
structure OrderedRows (rows : Rows) : Prop where
  numbers : ∀ e ∈ rows, e.1.isNaN = false
  ordered : rows.Pairwise fun a b => a.1.rank < b.1.rank

section

variable {rows : Rows} {e : Value × List Version} {key : Value} {r : Rank} {v : Version}

theorem OrderedRows.tail (h : OrderedRows (e :: rows)) : OrderedRows rows :=
  ⟨fun x hx => h.numbers x (List.mem_cons_of_mem _ hx), (List.pairwise_cons.1 h.ordered).2⟩

theorem OrderedRows.head_lt (h : OrderedRows (e :: rows)) :
    ∀ x ∈ rows, e.1.rank < x.1.rank :=
  (List.pairwise_cons.1 h.ordered).1

theorem chainAt_cons_self (e : Value × List Version) (rows : Rows) :
    chainAt (e :: rows) e.1.rank = e.2 := by
  simp [chainAt]

theorem chainAt_cons_of_ne (h : e.1.rank ≠ r) : chainAt (e :: rows) r = chainAt rows r := by
  simp [chainAt, h]

/-- A key before all others has no chain. -/
theorem chainAt_eq_nil (h : ∀ x ∈ rows, x.1.rank ≠ r) : chainAt rows r = [] := by
  have hfind : rows.find? (fun e => e.1.rank = r) = none := by
    rw [List.find?_eq_none]
    intro x hx
    simpa using h x hx
  rw [chainAt, hfind]
  rfl

theorem chainAt_of_mem (h : OrderedRows rows) (he : e ∈ rows) : chainAt rows e.1.rank = e.2 := by
  induction rows with
  | nil => cases he
  | cons x rows ih =>
    rcases List.mem_cons.1 he with rfl | he
    · exact chainAt_cons_self _ _
    · rw [chainAt_cons_of_ne (h.head_lt e he).ne]
      exact ih h.tail he

/-- A chain that is not empty belongs to a key of the table. -/
theorem exists_mem_of_mem_chainAt (hv : v ∈ chainAt rows r) :
    ∃ e ∈ rows, e.1.rank = r ∧ chainAt rows r = e.2 := by
  unfold chainAt at hv ⊢
  cases hfind : rows.find? fun e => e.1.rank = r with
  | none =>
    rw [hfind] at hv
    cases hv
  | some e =>
    exact ⟨e, List.mem_of_find?_eq_some hfind, by simpa using List.find?_some hfind, rfl⟩

/-- A point lookup finds the chain of the key. -/
theorem findChain_eq (h : OrderedRows rows) (hkey : key.isNaN = false) :
    (findChain key rows).getD [] = chainAt rows key.rank := by
  induction rows with
  | nil => rfl
  | cons e rows ih =>
    have he := h.numbers e List.mem_cons_self
    rw [findChain]
    by_cases hlt : key.operatorLt e.1 = true
    · -- the key stands before the whole table
      have hrank := (Value.operatorLt_iff hkey he).1 hlt
      rw [if_pos hlt, chainAt_eq_nil]
      · rfl
      · intro x hx
        rcases List.mem_cons.1 hx with rfl | hx
        · exact hrank.ne'
        · exact (hrank.trans (h.head_lt x hx)).ne'
    · rw [if_neg hlt]
      by_cases hgt : e.1.operatorLt key = true
      · rw [if_pos hgt, chainAt_cons_of_ne ((Value.operatorLt_iff he hkey).1 hgt).ne]
        exact ih h.tail
      · have hrank : e.1.rank = key.rank :=
          le_antisymm (not_lt.1 fun hr => hlt ((Value.operatorLt_iff hkey he).2 hr))
            (not_lt.1 fun hr => hgt ((Value.operatorLt_iff he hkey).2 hr))
        rw [if_neg hgt, ← hrank, chainAt_cons_self]
        rfl

theorem visibleRow_nil (seq txn : UInt64) : visibleRow seq txn [] = none := rfl

theorem get_eq {s : InMemoryStore} {table : Bytes} (h : OrderedRows (rowsOf s table))
    (hkey : key.isNaN = false) (txn : UInt64) :
    get txn table key s = visibleRow s.visibleSeq txn (chainAt (rowsOf s table) key.rank) := by
  rw [← findChain_eq h hkey, get, rowsOf]
  cases s.tables.find table with
  | none => rfl
  | some rows =>
    simp only [Option.getD_some]
    cases findChain key rows <;> rfl

/-! ## What the operations do to the chains -/

theorem put_explicit {txn : UInt64} {table : Bytes} (hnull : key.isNull = false)
    (row : Tuple) (s : InMemoryStore) :
    put txn table key row s = pushRow table key ⟨0, txn, row, false⟩ s := by
  rw [put, hnull]
  exact if_neg Bool.false_ne_true

/-- The keys of a table after a write: the old ones and the key written. -/
theorem exists_of_mem_pushVersion {x : Value × List Version} (hx : x ∈ pushVersion key v rows) :
    x.1 = key ∨ ∃ e ∈ rows, x.1 = e.1 := by
  induction rows with
  | nil => exact Or.inl (by rw [List.mem_singleton.1 hx])
  | cons e rows ih =>
    rw [pushVersion] at hx
    split_ifs at hx
    · rcases List.mem_cons.1 hx with rfl | hx
      · exact Or.inl rfl
      · exact Or.inr ⟨x, hx, rfl⟩
    · rcases List.mem_cons.1 hx with rfl | hx
      · exact Or.inr ⟨x, List.mem_cons_self, rfl⟩
      · rcases ih hx with hkey | ⟨e', he', heq⟩
        · exact Or.inl hkey
        · exact Or.inr ⟨e', List.mem_cons_of_mem _ he', heq⟩
    · rcases List.mem_cons.1 hx with rfl | hx
      · exact Or.inr ⟨e, List.mem_cons_self, rfl⟩
      · exact Or.inr ⟨x, List.mem_cons_of_mem _ hx, rfl⟩

theorem OrderedRows.push (h : OrderedRows rows) (hkey : key.isNaN = false) :
    OrderedRows (pushVersion key v rows) := by
  constructor
  · intro x hx
    rcases exists_of_mem_pushVersion hx with heq | ⟨e, he, heq⟩
    · rw [heq]
      exact hkey
    · rw [heq]
      exact h.numbers e he
  · induction rows with
    | nil => exact List.pairwise_singleton _ _
    | cons e rows ih =>
      have he := h.numbers e List.mem_cons_self
      rw [pushVersion]
      split_ifs with hlt hgt
      · have hrank := (Value.operatorLt_iff hkey he).1 hlt
        refine List.pairwise_cons.2 ⟨fun x hx => ?_, h.ordered⟩
        rcases List.mem_cons.1 hx with rfl | hx
        · exact hrank
        · exact hrank.trans (h.head_lt x hx)
      · refine List.pairwise_cons.2 ⟨fun x hx => ?_, ih h.tail⟩
        rcases exists_of_mem_pushVersion hx with heq | ⟨e', he', heq⟩
        · rw [heq]
          exact (Value.operatorLt_iff he hkey).1 hgt
        · rw [heq]
          exact h.head_lt e' he'
      · exact List.pairwise_cons.2 (List.pairwise_cons.1 h.ordered)

/-- A write appends to the chain of its key. -/
theorem chainAt_push (h : OrderedRows rows) (hkey : key.isNaN = false) (v : Version) (r : Rank) :
    chainAt (pushVersion key v rows) r =
      if r = key.rank then chainAt rows r ++ [v] else chainAt rows r := by
  induction rows with
  | nil =>
    rw [pushVersion]
    split_ifs with hr
    · rw [hr]
      exact chainAt_cons_self _ _
    · exact chainAt_cons_of_ne fun hr' => hr hr'.symm
  | cons e rows ih =>
    have he := h.numbers e List.mem_cons_self
    rw [pushVersion]
    by_cases hlt : key.operatorLt e.1 = true
    · have hrank := (Value.operatorLt_iff hkey he).1 hlt
      rw [if_pos hlt]
      split_ifs with hr
      · -- the key is new, and stands before the others
        have hnone : chainAt (e :: rows) key.rank = [] := by
          apply chainAt_eq_nil
          intro x hx
          rcases List.mem_cons.1 hx with rfl | hx
          · exact hrank.ne'
          · exact (hrank.trans (h.head_lt x hx)).ne'
        rw [hr, hnone]
        exact chainAt_cons_self _ _
      · exact chainAt_cons_of_ne fun hr' => hr hr'.symm
    · rw [if_neg hlt]
      by_cases hgt : e.1.operatorLt key = true
      · rw [if_pos hgt]
        by_cases her : e.1.rank = r
        · have hne : r ≠ key.rank := her ▸ ((Value.operatorLt_iff he hkey).1 hgt).ne
          rw [if_neg hne, ← her, chainAt_cons_self, chainAt_cons_self]
        · rw [chainAt_cons_of_ne her, chainAt_cons_of_ne her]
          exact ih h.tail
      · have hrank : e.1.rank = key.rank :=
          le_antisymm (not_lt.1 fun hr => hlt ((Value.operatorLt_iff hkey he).2 hr))
            (not_lt.1 fun hr => hgt ((Value.operatorLt_iff he hkey).2 hr))
        rw [if_neg hgt]
        split_ifs with hr
        · have hold := chainAt_cons_self e rows
          rw [hr, ← hrank, hold]
          exact chainAt_cons_self (e.1, e.2 ++ [v]) rows
        · have hne : e.1.rank ≠ r := fun her => hr (her.symm.trans hrank)
          rw [chainAt_cons_of_ne hne]
          exact chainAt_cons_of_ne (e := (e.1, e.2 ++ [v])) hne

theorem OrderedRows.stamp (h : OrderedRows rows) (txn seq : UInt64) :
    OrderedRows (stampRows txn seq rows) := by
  constructor
  · intro x hx
    obtain ⟨e, he, rfl⟩ := List.mem_map.1 hx
    exact h.numbers e he
  · exact List.pairwise_map.2 h.ordered

/-- A commit stamps the versions of a chain where they stand. -/
theorem chainAt_stampRows (txn seq : UInt64) (rows : Rows) (r : Rank) :
    chainAt (stampRows txn seq rows) r = (chainAt rows r).map (InMemory.stamp txn seq) := by
  induction rows with
  | nil => rfl
  | cons e rows ih =>
    by_cases her : e.1.rank = r
    · rw [← her, chainAt_cons_self]
      exact chainAt_cons_self (e.1, e.2.map (InMemory.stamp txn seq)) (stampRows txn seq rows)
    · rw [chainAt_cons_of_ne her, ← ih]
      exact chainAt_cons_of_ne (e := (e.1, e.2.map (InMemory.stamp txn seq))) her

theorem unstageRows_cons (txn : UInt64) (e : Value × List Version) (rows : Rows) :
    unstageRows txn (e :: rows) =
      if (e.2.filter fun v => !isStagedBy txn v).isEmpty then unstageRows txn rows
      else (e.1, e.2.filter fun v => !isStagedBy txn v) :: unstageRows txn rows := by
  simp only [unstageRows, List.map_cons, List.filter_cons]
  cases (e.2.filter fun v => !isStagedBy txn v).isEmpty <;> simp

theorem exists_of_mem_unstageRows {txn : UInt64} {x : Value × List Version}
    (hx : x ∈ unstageRows txn rows) : ∃ e ∈ rows, x.1 = e.1 := by
  obtain ⟨e, he, rfl⟩ := List.mem_map.1 (List.mem_filter.1 hx).1
  exact ⟨e, he, rfl⟩

theorem OrderedRows.unstage (h : OrderedRows rows) (txn : UInt64) :
    OrderedRows (unstageRows txn rows) := by
  constructor
  · intro x hx
    obtain ⟨e, he, heq⟩ := exists_of_mem_unstageRows hx
    rw [heq]
    exact h.numbers e he
  · have hmap : (rows.map fun e => (e.1, e.2.filter fun v => !isStagedBy txn v)).Pairwise
        fun a b => a.1.rank < b.1.rank := List.pairwise_map.2 h.ordered
    exact hmap.filter _

/-- An abort removes versions from a chain; a chain that becomes empty is gone. -/
theorem chainAt_unstageRows (h : OrderedRows rows) (txn : UInt64) (r : Rank) :
    chainAt (unstageRows txn rows) r = (chainAt rows r).filter fun v => !isStagedBy txn v := by
  induction rows with
  | nil => rfl
  | cons e rows ih =>
    rw [unstageRows_cons]
    by_cases her : e.1.rank = r
    · rw [← her, chainAt_cons_self]
      split_ifs with hempty
      · rw [List.isEmpty_iff.1 hempty]
        apply chainAt_eq_nil
        intro x hx
        obtain ⟨e', he', heq⟩ := exists_of_mem_unstageRows hx
        rw [heq]
        exact (h.head_lt e' he').ne'
      · exact chainAt_cons_self (e.1, e.2.filter fun v => !isStagedBy txn v) _
    · rw [chainAt_cons_of_ne her]
      split_ifs
      · exact ih h.tail
      · rw [← ih h.tail]
        exact chainAt_cons_of_ne (e := (e.1, e.2.filter fun v => !isStagedBy txn v)) her

/-! ## Scans -/

theorem map_some_filterMap {α β : Type} (f : α → Option β) (l : List α) :
    (l.filterMap f).map some = (l.filter fun a => (f a).isSome).map f := by
  induction l with
  | nil => rfl
  | cons a l ih =>
    cases hf : f a with
    | none => simpa [hf] using ih
    | some b => simpa [hf] using ih

/-- A scan emits the rows that the chains show, in the order of the keys. -/
theorem exists_keys_of_scan {s : InMemoryStore} {table : Bytes} (h : OrderedRows (rowsOf s table))
    (txn : UInt64) : ∃ keys : List Rank, keys.Pairwise (· < ·) ∧
      (∀ r, r ∈ keys ↔
        (visibleRow s.visibleSeq txn (chainAt (rowsOf s table) r)).isSome = true) ∧
      (scan txn table s).map some =
        keys.map fun r => visibleRow s.visibleSeq txn (chainAt (rowsOf s table) r) := by
  rw [scan]
  generalize rowsOf s table = rows at h
  let shown := rows.filter fun e => (visibleRow s.visibleSeq txn e.2).isSome
  have hshown : ∀ e ∈ shown, visibleRow s.visibleSeq txn (chainAt rows e.1.rank) =
      visibleRow s.visibleSeq txn e.2 := by
    intro e he
    rw [chainAt_of_mem h (List.mem_filter.1 he).1]
  refine ⟨shown.map fun e => e.1.rank, ?_, fun r => ⟨fun hr => ?_, fun hr => ?_⟩, ?_⟩
  · exact List.pairwise_map.2 (h.ordered.filter _)
  · obtain ⟨e, he, rfl⟩ := List.mem_map.1 hr
    rw [hshown e he]
    exact (List.mem_filter.1 he).2
  · -- a row is shown only by a chain that is there
    obtain ⟨v, hv⟩ : ∃ v, v ∈ chainAt rows r := by
      apply List.exists_mem_of_ne_nil
      intro hnil
      rw [hnil, visibleRow_nil] at hr
      cases hr
    obtain ⟨e, he, hrank, hchain⟩ := exists_mem_of_mem_chainAt hv
    rw [hchain] at hr
    exact List.mem_map.2 ⟨e, List.mem_filter.2 ⟨he, hr⟩, hrank⟩
  · rw [map_some_filterMap, List.map_map]
    exact (List.map_congr_left hshown).symm

/-- Tables whose chains show the same rows are scanned alike. -/
theorem scan_congr {s s' : InMemoryStore} {table : Bytes} {txn : UInt64}
    (h : OrderedRows (rowsOf s table)) (h' : OrderedRows (rowsOf s' table))
    (hshow : ∀ r, visibleRow s.visibleSeq txn (chainAt (rowsOf s table) r) =
      visibleRow s'.visibleSeq txn (chainAt (rowsOf s' table) r)) :
    scan txn table s = scan txn table s' := by
  obtain ⟨keys, hsorted, hmem, hscan⟩ := exists_keys_of_scan h txn
  obtain ⟨keys', hsorted', hmem', hscan'⟩ := exists_keys_of_scan h' txn
  have hkeys : keys = keys' :=
    hsorted.eq_of_mem_iff hsorted' fun r => by rw [hmem, hmem', hshow]
  have hmap : (scan txn table s).map some = (scan txn table s').map some := by
    rw [hscan, hscan', hkeys]
    exact List.map_congr_left fun r _ => hshow r
  exact List.map_injective_iff.2 (Option.some_injective _) hmap

end

end InMemory

end OpenDB
