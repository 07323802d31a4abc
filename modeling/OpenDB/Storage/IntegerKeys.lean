import OpenDB.Types.ValueOrder
import OpenDB.Storage.InMemoryStorageEngine
import OpenDB.Storage.PutRun

/-!
# Integers as keys

The map of the in-memory engine and the tree both find a key by `compare`, which compares integers as
doubles. What becomes of two integer keys is therefore decided by what they are rounded to
(`keepIdentity_iff`): as long as that differs they are in order, have slots of their own and never answer
each other's lookups. It differs for integers up to `2 ^ 53` (`keepIdentity_of_exact`) and for those more
than 1024 apart (`keepIdentity_of_far`). The first two to be taken for one key are `2 ^ 53` and
`2 ^ 53 + 1`.
-/

set_option autoImplicit false

namespace OpenDB

open OpenDB.Library

namespace InMemory

variable {rows : Rows} {key other : Value} {v : Version}

/-- A write does not touch the slots of other keys. -/
theorem findChain_push_of_rank_ne (h : OrderedRows rows) (hkey : key.isNaN = false)
    (hother : other.isNaN = false) (hne : key.rank ≠ other.rank) :
    findChain key (pushVersion other v rows) = findChain key rows := by
  have hnew : ∀ chain rest, (key.operatorLt other = true → findChain key rest = none) →
      findChain key ((other, chain) :: rest) = findChain key rest := by
    intro chain rest hnone
    rw [findChain]
    split_ifs with hlt hgt
    · exact (hnone hlt).symm
    · rfl
    · rw [Value.operatorLt_iff hkey hother] at hlt
      rw [Value.operatorLt_iff hother hkey] at hgt
      exact absurd (le_antisymm (not_lt.1 hgt) (not_lt.1 hlt)) hne
  induction rows with
  | nil => exact hnew _ [] fun _ => rfl
  | cons e rows ih =>
    have he := h.numbers e List.mem_cons_self
    rw [pushVersion]
    split_ifs with hlt hgt
    · refine hnew _ (e :: rows) fun hkeylt => ?_
      rw [Value.operatorLt_iff hkey hother] at hkeylt
      rw [Value.operatorLt_iff hother he] at hlt
      rw [findChain, if_pos ((Value.operatorLt_iff hkey he).2 (hkeylt.trans hlt))]
    · rw [findChain, findChain, ih h.tail]
    · -- the slot of the other key is not the slot of this one
      rw [Value.operatorLt_iff hother he] at hlt
      rw [Value.operatorLt_iff he hother] at hgt
      have hrank : e.1.rank = other.rank := le_antisymm (not_lt.1 hlt) (not_lt.1 hgt)
      rw [findChain, findChain]
      split_ifs with hkeylt hkeygt
      · rfl
      · rfl
      · rw [Value.operatorLt_iff hkey he, hrank] at hkeylt
        rw [Value.operatorLt_iff he hkey, hrank] at hkeygt
        exact absurd (le_antisymm (not_lt.1 hkeygt) (not_lt.1 hkeylt)) hne

end InMemory

open InMemory

/-- What a lookup found is an entry of the leaf that the key leads to. -/
theorem BTree.get_found {t : BTree} {key : Value} {txn visibleSeq : UInt64} {r : LookupResult}
    (hget : t.get key txn visibleSeq = .ok r) (hfound : r.found = true) :
    ∃ leafId n e, t.findLeaf key = .ok leafId ∧ loadNode t.pager leafId = .ok n ∧
      lookup key txn visibleSeq n.leaf = some e ∧ r = .ofEntry e := by
  rw [get] at hget
  obtain ⟨leafId, hfind, hget⟩ := except_bind_eq_ok.1 hget
  obtain ⟨n, hload, hget⟩ := except_bind_eq_ok.1 hget
  cases hget
  cases hlookup : lookup key txn visibleSeq n.leaf with
  | none =>
    rw [hlookup] at hfound
    cases hfound
  | some e => exact ⟨leafId, n, e, hfind, hload, hlookup, rfl⟩

/-- Two integers keep their identity as keys: they compare as integers, and if they are not the same
one, then a write under the second leaves the slot of the first alone, and a lookup of the second is
never answered by a row of the first. -/
structure KeepIdentity (a b : Int64) : Prop where
  integers : (Value.int64 a).compare (.int64 b) = cmp a.toInt b.toInt
  timestamps : (Value.timestamp a).compare (.timestamp b) = cmp a.toInt b.toInt
  slots : a ≠ b → ∀ rows v, OrderedRows rows →
    findChain (.int64 a) (pushVersion (.int64 b) v rows) = findChain (.int64 a) rows
  answers : a ≠ b → ∀ (t : BTree) txn visibleSeq r, t.get (.int64 b) txn visibleSeq = .ok r →
    r.found = true → ∃ leafId n e, t.findLeaf (.int64 b) = .ok leafId ∧
      BTree.loadNode t.pager leafId = .ok n ∧
      BTree.lookup (.int64 b) txn visibleSeq n.leaf = some e ∧ r = .ofEntry e ∧ e.key ≠ .int64 a

variable {a b : Int64}

/-- The rounding keeps apart what is not the same. -/
def RoundedApart (a b : Int64) : Prop := a ≠ b → roundInt 53 a.toInt ≠ roundInt 53 b.toInt

theorem RoundedApart.cmp_eq (h : RoundedApart a b) :
    cmp (roundInt 53 a.toInt) (roundInt 53 b.toInt) = cmp a.toInt b.toInt := by
  by_cases hab : a = b
  · rw [hab, cmp_self_eq_eq, cmp_self_eq_eq]
  · have hlt := roundInt_lt_iff (by decide) (h hab)
    have hgt := roundInt_lt_iff (by decide) (h hab).symm
    rw [cmp, cmp, cmpUsing, cmpUsing]
    simp only [hlt, hgt]

theorem KeepIdentity.roundedApart (h : KeepIdentity a b) : RoundedApart a b := by
  intro hab hround
  have horder := h.integers
  rw [Value.compare_int64, hround, cmp_self_eq_eq] at horder
  exact hab (Int64.toInt_inj.1 ((cmp_eq_eq_iff a.toInt b.toInt).1 horder.symm))

theorem RoundedApart.keepIdentity (h : RoundedApart a b) : KeepIdentity a b := by
  have hint := Value.compare_int64 a b
  have htime := Value.compare_timestamp a b
  rw [h.cmp_eq] at hint htime
  -- different keys are not equal in the order either
  have hapart : a ≠ b → (Value.int64 a).compare (.int64 b) ≠ .eq := by
    intro hab heq
    rw [hint, cmp_eq_eq_iff, Int64.toInt_inj] at heq
    exact hab heq
  refine ⟨hint, htime, fun hab rows v hrows => ?_, fun hab t txn visibleSeq r hget hfound => ?_⟩
  · refine findChain_push_of_rank_ne hrows rfl rfl fun hrank => hapart hab ?_
    exact (Value.compare_eq_eq_iff rfl rfl).2 hrank
  · obtain ⟨leafId, n, e, hfind, hload, hlookup, hr⟩ := BTree.get_found hget hfound
    refine ⟨leafId, n, e, hfind, hload, hlookup, hr, fun hkey => hapart hab ?_⟩
    have hmatch := List.find?_some hlookup
    rw [hkey] at hmatch
    simp only [Value.operatorNe, Bool.and_eq_true, Bool.not_eq_true', bne_eq_false_iff_eq] at hmatch
    exact hmatch.1

/-- Integer keys keep their identity exactly when the rounding to 53 bits keeps them apart. -/
theorem keepIdentity_iff (a b : Int64) : KeepIdentity a b ↔ RoundedApart a b :=
  ⟨KeepIdentity.roundedApart, RoundedApart.keepIdentity⟩

/-- Two keys in one slot, and a row that answers a lookup of the other key. -/
theorem not_keepIdentity_two_pow_53 :
    ¬ KeepIdentity 9007199254740992 9007199254740993 ∧
      findChain (.int64 9007199254740992)
        (pushVersion (.int64 9007199254740993) ⟨1, 1, .empty, false⟩ []) =
          some [⟨1, 1, .empty, false⟩] ∧
      ∃ root t₀ t, BTree.createNew.run ⟨Pager.new 16 (by decide), 0⟩ = .ok root t₀ ∧
        (BTree.put (row 9007199254740992 1 1 false)).run t₀ = .ok true t ∧
        t.get (.int64 9007199254740993) 2 1 = .ok (.ofEntry (row 9007199254740992 1 1 false)) := by
  have heq : (Value.int64 9007199254740992).compare (.int64 9007199254740993) = .eq := by decide
  refine ⟨fun h => ?_, rfl, ?_⟩
  · have horder := h.integers
    rw [heq] at horder
    exact absurd horder (by decide)
  · have howns := Pager.owns_new (show 16 < 2 ^ 32 by decide) (by decide)
    obtain ⟨root, t₀, hnew, -⟩ := exists_createNew howns (by rw [Pager.room_new]; decide) 0
    obtain ⟨t, hput, hrep, -⟩ := (rep_createNew howns hnew).1.put_one_leaf
      (show ¬ Overflows (BTree.insertEntry (row 9007199254740992 1 1 false) []) by decide)
    have hleaf : Rep t ⟨none, [(root, [row 9007199254740992 1 1 false])]⟩ [] := hrep
    refine ⟨root, t₀, t, hnew, hput, ?_⟩
    have hentries : Layout.entriesAt ⟨none, [(root, [row 9007199254740992 1 1 false])]⟩ root =
        [row 9007199254740992 1 1 false] :=
      Layout.entriesAt_eq hleaf.nodup_leafPages
        (show _ = [] ++ (root, [row 9007199254740992 1 1 false]) :: [] from rfl)
    have htarget : Layout.target ⟨none, [(root, [row 9007199254740992 1 1 false])]⟩
        (.int64 9007199254740993) = root := rfl
    rw [hleaf.get_eq, Layout.get, htarget, hentries]
    decide

/-- Integers of at most 53 bits, and the two behind them, are exact as doubles. -/
theorem keepIdentity_of_exact (ha : a.toInt.natAbs ≤ 2 ^ 53) (hb : b.toInt.natAbs ≤ 2 ^ 53) :
    KeepIdentity a b := by
  refine RoundedApart.keepIdentity fun hab => ?_
  rw [roundInt_of_natAbs_le (by decide) ha, roundInt_of_natAbs_le (by decide) hb]
  exact fun h => hab (Int64.toInt_inj.1 h)

/-- No integer is rounded by more than 512. -/
theorem keepIdentity_of_far (h : 1024 < (a.toInt - b.toInt).natAbs) : KeepIdentity a b := by
  have herror : ∀ x : Int64, 2 * x.toInt ≤ 2 * roundInt 53 x.toInt + (2 ^ (63 - 53) : Nat) ∧
      2 * roundInt 53 x.toInt ≤ 2 * x.toInt + (2 ^ (63 - 53) : Nat) := by
    intro x
    have hlow := x.le_toInt
    have hhigh := x.toInt_lt
    exact roundInt_error (by decide) (by omega)
  refine RoundedApart.keepIdentity fun _ hround => ?_
  have ha := herror a
  have hb := herror b
  rw [hround] at ha
  omega

end OpenDB
