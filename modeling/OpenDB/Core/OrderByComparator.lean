import OpenDB.Core.SelectOrder
import OpenDB.Library.StrictWeak

/-!
# The comparison of ORDER BY

`std::sort` asks its comparison for a strict weak order. The one of the engine loop is one on all rows
without a NaN, whatever columns they have, of whatever types, and whatever the clauses are
(`before_strictWeak`).

A column is compared by its rank, which a null or an absent column does not have; the rows without one
stand together at the end that the clause names. The clauses are compared in order, the next one among
the rows that the former ones tie.
-/

set_option autoImplicit false

namespace OpenDB

open OpenDB.Library

/-- A row none of whose values is a NaN. -/
structure ComparableRow where
  row : Tuple
  comparable : ∀ c ∈ row.columns, c.value.isNaN = false

variable {spec : OrderBySpec} {specs : List OrderBySpec} {a b : ComparableRow} {v : Value}

theorem ComparableRow.isNaN_orderValue {column : Bytes}
    (h : EngineLoop.orderValue a.row column = some v) : v.isNaN = false := by
  unfold EngineLoop.orderValue at h
  cases hget : a.row.maybeGet column with
  | none =>
    rw [hget] at h
    cases h
  | some w =>
    obtain ⟨c, hc, rfl⟩ := Option.map_eq_some_iff.1 hget
    have hnan := a.comparable c (List.mem_of_find?_eq_some hc)
    rw [hget] at h
    dsimp only at h
    -- a null is no value to order by, so the one that is returned is that of the column
    split_ifs at h
    cases h
    exact hnan

namespace OrderBySpec

/-- The rank of the column; a null has none. -/
def key (spec : OrderBySpec) (a : ComparableRow) : Option (ℕ ×ₗ (ℤ ×ₗ List ℕ)) :=
  (EngineLoop.orderValue a.row spec.column).map Value.rank

/-- Ascending, the lower rank stands in front. -/
theorem puts_iff_of_asc (h : spec.direction = .asc) :
    spec.Puts a.row b.row ↔ StrictWeak.NullableLT spec.nullsAtFront (spec.key a) (spec.key b) := by
  unfold Puts key
  cases ha : EngineLoop.orderValue a.row spec.column with
  | none => cases EngineLoop.orderValue b.row spec.column <;> rfl
  | some x =>
    cases hb : EngineLoop.orderValue b.row spec.column with
    | none => rfl
    | some y =>
      have hx := ComparableRow.isNaN_orderValue ha
      have hy := ComparableRow.isNaN_orderValue hb
      dsimp only
      -- without a NaN the comparison is that of the ranks
      rw [if_pos h, Value.compare_eq_lt_iff hx hy]
      rfl

/-- Descending, the higher rank does. -/
theorem puts_iff_of_desc (h : spec.direction = .desc) :
    spec.Puts a.row b.row ↔ StrictWeak.NullableLT spec.nullsAtFront
      ((spec.key a).map OrderDual.toDual) ((spec.key b).map OrderDual.toDual) := by
  unfold Puts key
  cases ha : EngineLoop.orderValue a.row spec.column with
  | none => cases EngineLoop.orderValue b.row spec.column <;> rfl
  | some x =>
    cases hb : EngineLoop.orderValue b.row spec.column with
    | none => rfl
    | some y =>
      have hx := ComparableRow.isNaN_orderValue ha
      have hy := ComparableRow.isNaN_orderValue hb
      dsimp only
      rw [h, if_neg SortDirection.noConfusion, Value.compare_eq_cmp_rank hx hy, cmp_eq_gt_iff]
      rfl

/-- One clause is a strict weak order. -/
theorem puts_strictWeak (spec : OrderBySpec) :
    StrictWeak fun a b : ComparableRow => spec.Puts a.row b.row := by
  cases hdirection : spec.direction with
  | asc =>
    simp only [puts_iff_of_asc hdirection]
    exact StrictWeak.of_nullable spec.nullsAtFront spec.key
  | desc =>
    simp only [puts_iff_of_desc hdirection]
    exact StrictWeak.of_nullable spec.nullsAtFront fun a => (spec.key a).map OrderDual.toDual

/-- A clause ties the rows of which it puts neither in front. -/
theorem ties_iff_incomparable :
    spec.Ties a.row b.row ↔
      Incomparable (fun a b : ComparableRow => spec.Puts a.row b.row) a b := by
  change spec.Ties a.row b.row ↔ ¬ spec.Puts a.row b.row ∧ ¬ spec.Puts b.row a.row
  unfold Puts Ties
  cases ha : EngineLoop.orderValue a.row spec.column with
  | none => cases EngineLoop.orderValue b.row spec.column <;> simp
  | some x =>
    cases hb : EngineLoop.orderValue b.row spec.column with
    | none => simp
    | some y =>
      have hx := ComparableRow.isNaN_orderValue ha
      have hy := ComparableRow.isNaN_orderValue hb
      dsimp only
      rw [Value.compare_eq_cmp_rank hx hy, Value.compare_eq_cmp_rank hy hx]
      -- three cases of the ranks, two directions
      rcases lt_trichotomy x.rank y.rank with hlt | heq | hgt
      · rw [(cmp_eq_lt_iff _ _).2 hlt, (cmp_eq_gt_iff _ _).2 hlt]
        split_ifs <;> simp
      · rw [heq, cmp_self_eq_eq]
        split_ifs <;> simp
      · rw [(cmp_eq_gt_iff _ _).2 hgt, (cmp_eq_lt_iff _ _).2 hgt]
        split_ifs <;> simp

end OrderBySpec

theorem precedes_strictWeak (specs : List OrderBySpec) :
    StrictWeak fun a b : ComparableRow => Precedes specs a.row b.row := by
  induction specs with
  | nil =>
    simp only [not_precedes_nil]
    exact StrictWeak.empty
  | cons spec specs ih =>
    simp only [precedes_cons, OrderBySpec.ties_iff_incomparable]
    -- the further clauses decide among the rows that the first one ties
    exact (OrderBySpec.puts_strictWeak spec).lex ih

/-- The comparison that the engine loop sorts by is a strict weak order. -/
theorem before_strictWeak (specs : List OrderBySpec) :
    StrictWeak fun a b : ComparableRow => EngineLoop.before specs a.row b.row = true := by
  simp only [before_iff]
  exact precedes_strictWeak specs

/-- So the rows of a table without a NaN come out arranged. -/
theorem arranged_orderRows [StandardLibrary] (specs : List OrderBySpec)
    (rows : List ComparableRow) :
    Arranged (Precedes specs) (EngineLoop.orderRows specs (rows.map ComparableRow.row)) := by
  have hweak : StrictWeakOn (Precedes specs) (rows.map ComparableRow.row) := by
    have hrows := (precedes_strictWeak specs).strictWeakOn rows
    constructor
    · simp only [List.forall_mem_map]
      exact hrows.asymm
    · simp only [List.forall_mem_map]
      exact hrows.cotrans
  have hsorts := EngineLoop.sorts_orderRows specs (rows.map ComparableRow.row)
  unfold EngineLoop.Sorts at hsorts
  split_ifs at hsorts with hempty
  · exact EngineLoop.arranged_of_isEmpty hempty _
  · exact (hsorts hweak).2

end OpenDB
