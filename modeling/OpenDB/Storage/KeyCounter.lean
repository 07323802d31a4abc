import OpenDB.Library.Trace
import OpenDB.Storage.InMemoryStorageEngine

/-!
# Assigned keys

A null key is replaced by the next number of a counter of the table. The counter does not look at the
keys that callers choose, so an assigned key is fresh as long as no key of the table is a number that the
counter has yet to give out (`Unissued`), or is watched when a key is assigned (`Apart`). Keys are compared
as doubles, which tell the numbers of a counter apart up to `2 ^ 53` and not any further.

In the in-memory engine the counter of a table is forgotten when an abort leaves the table without rows;
then there is no key left that it could meet again (`Spaced.abort`).
-/

set_option autoImplicit false

namespace OpenDB

open OpenDB.Library

/-! ## Counters and keys -/

/-- The key is none of the numbers that a counter has yet to give out. -/
def Unissued (n : UInt64) (key : Value) : Prop :=
  ∀ m : Nat, n.toNat < m → m ≤ 2 ^ 53 → key.compare (.int64 (Int64.ofNat m)) ≠ .eq

/-- The next number of a counter, as a key. -/
def nextKey (n : UInt64) : Value := .int64 (n + 1).toInt64

/-- The key is watched, or none of the numbers that a counter has yet to give out. -/
def Apart (watched : Value → Prop) (n : UInt64) (key : Value) : Prop := watched key ∨ Unissued n key

/-- A key that can be written at this stand of the counter: one that is chosen is apart, and one that is
assigned is a number that doubles tell from the next. -/
structure KeyApart (watched : Value → Prop) (n : UInt64) (key : Value) : Prop where
  assigned : key.isNull = true → n.toNat < 2 ^ 53
  chosen : Apart watched n key

section

variable {watched : Value → Prop} {n n' : UInt64} {key : Value}

theorem Unissued.mono (h : Unissued n key) (hle : n.toNat ≤ n'.toNat) : Unissued n' key :=
  fun m hm => h m (Nat.lt_of_le_of_lt hle hm)

theorem Apart.mono (h : Apart watched n key) (hle : n.toNat ≤ n'.toNat) : Apart watched n' key :=
  h.imp_right fun hkey => hkey.mono hle

/-- A null key equals no number. -/
theorem unissued_of_isNull (h : key.isNull = true) : Unissued n key := by
  cases key with
  | null => exact fun _ _ _ heq => by cases heq
  | _ => cases h

theorem toNat_next (hn : n.toNat < 2 ^ 53) : (n + 1).toNat = n.toNat + 1 := by
  rw [UInt64.toNat_add, UInt64.toNat_one]
  exact Nat.mod_eq_of_lt (by omega)

theorem toInt64_eq (n : UInt64) : n.toInt64 = Int64.ofNat n.toNat := by
  apply Int64.toBitVec_inj.1
  simp [Int64.ofNat]
  rfl

theorem nextKey_eq (hn : n.toNat < 2 ^ 53) : nextKey n = .int64 (Int64.ofNat (n.toNat + 1)) := by
  rw [nextKey, toInt64_eq, toNat_next hn]

theorem Unissued.compare_nextKey (h : Unissued n key) (hn : n.toNat < 2 ^ 53) :
    key.compare (nextKey n) ≠ .eq := by
  rw [nextKey_eq hn]
  exact h _ (Nat.lt_succ_self _) hn

/-- The number that has just been given out. -/
theorem unissued_nextKey (hn : n.toNat < 2 ^ 53) : Unissued (n + 1) (nextKey n) := by
  intro m hm hle heq
  rw [nextKey_eq hn, Value.compare_eq_eq_iff rfl rfl] at heq
  rw [toNat_next hn] at hm
  exact (Value.rank_int64_lt hm hle).ne heq

end

/-! ## The in-memory engine -/

namespace InMemory

/-- The number that was given out last. -/
def counter (s : InMemoryStore) (table : Bytes) : UInt64 := (s.autoId.find table).getD 0

/-- No key of a table is a number that its counter has yet to give out, unless it is watched. -/
def Spaced (watched : Value → Prop) (s : InMemoryStore) : Prop :=
  ∀ table, ∀ e ∈ rowsOf s table, Apart watched (counter s table) e.1

section

variable {watched : Value → Prop} {s : InMemoryStore} {table : Bytes} {key : Value}

/-- A write of a key that the counter will not give out, after the counter may have moved. -/
theorem Spaced.pushRow (h : Spaced watched s) {ids : AssocMap Bytes UInt64} (v : Version)
    (hids : ∀ t, t ≠ table → ids.find t = s.autoId.find t)
    (hle : (counter s table).toNat ≤ ((ids.find table).getD 0).toNat)
    (hkey : Apart watched ((ids.find table).getD 0) key) :
    Spaced watched (pushRow table key v { s with autoId := ids }) := by
  intro t e he
  rw [rowsOf_pushRow] at he
  show Apart watched ((ids.find t).getD 0) e.1
  split_ifs at he with ht
  · subst ht
    rcases exists_of_mem_pushVersion he with hnew | ⟨old, hold, heq⟩
    · rw [hnew]
      exact hkey
    · rw [heq]
      exact (h t old hold).mono hle
  · rw [hids t ht]
    exact h t e he

/-- A put without a key writes the next number of the counter. -/
theorem put_assigned {txn : UInt64} {row : Tuple} (hnull : key.isNull = true) :
    put txn table key row s = InMemory.pushRow table (nextKey (counter s table))
      ⟨0, txn, row.set (ascii "_id") (nextKey (counter s table)), false⟩
      { s with autoId := s.autoId.assign table (counter s table + 1) } := by
  rw [put, if_pos hnull]
  rfl

theorem Spaced.put (h : Spaced watched s) (txn : UInt64) (row : Tuple)
    (hkey : KeyApart watched (counter s table) key) : Spaced watched (put txn table key row s) := by
  cases hnull : key.isNull with
  | false =>
    rw [put_explicit hnull]
    exact h.pushRow _ (fun _ _ => rfl) le_rfl hkey.chosen
  | true =>
    have hn := hkey.assigned hnull
    have hfind : ((s.autoId.assign table (counter s table + 1)).find table).getD 0 =
        counter s table + 1 := by
      rw [AssocMap.find_assign_self]
      rfl
    rw [put_assigned hnull]
    apply h.pushRow
    · intro t ht
      exact AssocMap.find_assign_of_ne _ _ ht
    · rw [hfind, toNat_next hn]
      exact Nat.le_succ _
    · rw [hfind]
      exact Or.inr (unissued_nextKey hn)

theorem Spaced.remove (h : Spaced watched s) (txn : UInt64) (hkey : Apart watched (counter s table) key) :
    Spaced watched (remove txn table key s) :=
  h.pushRow _ (fun _ _ => rfl) le_rfl hkey

/-- A commit changes no key. -/
theorem Spaced.commit (h : Spaced watched s) (txn seq : UInt64) : Spaced watched (commit txn seq s) := by
  intro t e he
  rw [rowsOf_commit] at he
  obtain ⟨old, hold, rfl⟩ := List.mem_map.1 he
  exact h t old hold

/-- A table that keeps a row keeps its number. -/
theorem counter_abort {txn : UInt64} {t : Bytes} (hrows : rowsOf (abort txn s) t ≠ []) :
    counter (abort txn s) t = counter s t := by
  have hkeep : t ∉ (s.tables.entries.filter fun e => (unstageTable txn e.2).isNone).map Prod.fst := by
    intro hmem
    obtain ⟨e, he, rfl⟩ := List.mem_map.1 hmem
    obtain ⟨hentry, hnone⟩ := List.mem_filter.1 he
    apply hrows
    unfold rowsOf InMemory.abort
    rw [AssocMap.find_filterMapValues, AssocMap.find_of_mem hentry, Option.bind_some,
      Option.isNone_iff_eq_none.1 hnone]
    rfl
  unfold counter InMemory.abort keptIds
  dsimp only
  rw [AssocMap.find_foldl_erase, if_neg hkeep]

theorem Spaced.abort (h : Spaced watched s) (txn : UInt64) : Spaced watched (abort txn s) := by
  intro t e he
  rw [counter_abort (List.ne_nil_of_mem he)]
  rw [rowsOf_abort] at he
  obtain ⟨old, hold, heq⟩ := exists_of_mem_unstageRows he
  rw [heq]
  exact h t old hold

end

end InMemory

namespace InMemoryEngine

open InMemory

/-- The key that a write names, if it names one. -/
def chosenKey : EngineCall → Option Value
  | .put _ _ key _ => if key.isNull then none else some key
  | .remove _ _ key => some key
  | _ => none

/-- The key of a call is apart from what the counter of its table has yet to give out. -/
def KeysApart (watched : Value → Prop) (e : InMemoryEngine) : EngineCall → Prop
  | .put _ table key _ => KeyApart watched (counter e.store table) key
  | .remove _ table key => Apart watched (counter e.store table) key
  | _ => True

/-- A key is assigned only while doubles tell the numbers of the counter apart. -/
def CountsExactly (e : InMemoryEngine) : EngineCall → Prop
  | .put _ table key _ => key.isNull = true → (counter e.store table).toNat < 2 ^ 53
  | _ => True

/-- A null key is replaced by one that compares different from every key of the table that has a staged
or visible version. -/
def AssignsFresh (e : InMemoryEngine) : EngineCall → Prop
  | .put _ table key _ => key.isNull = true → ∀ r ∈ rowsOf e.store table,
      (∃ v ∈ r.2, v.commitSeq = 0 ∨ v.commitSeq ≤ e.store.visibleSeq) →
        r.1.compare (nextKey (counter e.store table)) ≠ .eq
  | _ => True

/-- The number that replaces a null key is none of the watched keys of the table that have a staged or
visible version. -/
def WatchedApart (watched : Value → Prop) (e : InMemoryEngine) : EngineCall → Prop
  | .put _ table key _ => key.isNull = true → ∀ r ∈ rowsOf e.store table, watched r.1 →
      (∃ v ∈ r.2, v.commitSeq = 0 ∨ v.commitSeq ≤ e.store.visibleSeq) →
        r.1.compare (nextKey (counter e.store table)) ≠ .eq
  | _ => True

/-- Every call returns. -/
def next (e : InMemoryEngine) (c : EngineCall) : Option InMemoryEngine := some (e.exec c).2

section

variable {watched : Value → Prop} {e : InMemoryEngine} {c : EngineCall}

theorem spaced_new : Spaced watched new.store := fun _ _ he => absurd he List.not_mem_nil

/-- With all chosen keys watched it is only the counters that matter. -/
theorem keysApart_of_chosen (hcounts : e.CountsExactly c)
    (hchosen : ∀ key, chosenKey c = some key → watched key) : e.KeysApart watched c := by
  cases c with
  | put txn table key row =>
    refine ⟨hcounts, ?_⟩
    cases hnull : key.isNull with
    | false => exact Or.inl (hchosen key (by rw [chosenKey, hnull]; rfl))
    | true => exact Or.inr (unissued_of_isNull hnull)
  | remove txn table key => exact Or.inl (hchosen key rfl)
  | get | scan | commit | commitNext | abort => trivial

/-- A call whose key is apart keeps the keys apart. The key that it assigns, if it assigns one, is fresh
if and only if it is none of the watched ones. -/
theorem spaced_exec (h : Spaced watched e.store) (hkey : e.KeysApart watched c) :
    (e.AssignsFresh c ↔ e.WatchedApart watched c) ∧ Spaced watched (e.exec c).2.store := by
  cases c with
  | get txn table key => exact ⟨Iff.rfl, h⟩
  | put txn table key row =>
    refine ⟨⟨fun hfresh hnull r hr _ => hfresh hnull r hr, fun hwatched hnull r hr hv => ?_⟩,
      h.put txn row hkey⟩
    rcases h table r hr with hr' | hr'
    · exact hwatched hnull r hr hr' hv
    · exact hr'.compare_nextKey (hkey.assigned hnull)
  | remove txn table key => exact ⟨Iff.rfl, h.remove txn hkey⟩
  | scan txn table => exact ⟨Iff.rfl, h⟩
  | commit txn visibleSeq => exact ⟨Iff.rfl, h.commit txn visibleSeq⟩
  | commitNext txn => exact ⟨Iff.rfl, h.commit txn _⟩
  | abort txn => exact ⟨Iff.rfl, h.abort txn⟩

theorem assignsFresh_iff {calls : List (InMemoryEngine × EngineCall)} (hrun : Run next new calls e)
    (hkeys : ∀ p ∈ calls, p.1.KeysApart watched p.2) :
    ∀ p ∈ calls, (p.1.AssignsFresh p.2 ↔ p.1.WatchedApart watched p.2) := by
  have hkeep : ∀ e c e', Spaced watched e.store → next e c = some e' → e.KeysApart watched c →
      (e.AssignsFresh c ↔ e.WatchedApart watched c) ∧ Spaced watched e'.store := by
    rintro e c e' h hstep hkey
    cases hstep
    exact spaced_exec h hkey
  have hsteps := hrun.invariant_and_forall_of_forall (I := fun e => Spaced watched e.store) spaced_new
    hkeep hkeys
  exact hsteps.2

end

end InMemoryEngine

end OpenDB
