import OpenDB.Core.SelectOrder
import OpenDB.Frontend.SqlParser

/-!
# LIMIT and OFFSET

The window of a SELECT ends at the sum of OFFSET and LIMIT in the 64 bits of a `std::size_t`. The sum
that does not fit is smaller than the offset, and the window is then empty. So the rows presented are
the first ones behind the offset exactly if the sum fits or the offset is behind all rows
(`window_eq_page_iff`); the parser takes a negative LIMIT for a number close to 2^64.
-/

set_option autoImplicit false

namespace OpenDB

open OpenDB.Library

/-- The first `limit` rows behind the first `offset` ones. -/
def page (offset limit : Option UInt64) (rows : List Tuple) : List Tuple :=
  let rest := rows.drop (offset.getD 0).toNat
  match limit with
  | none => rest
  | some l => rest.take l.toNat

/-- OFFSET leaves rows over, but OFFSET and LIMIT do not add up in 64 bits. -/
def WindowWraps (offset limit : Option UInt64) (rows : List Tuple) : Prop :=
  (offset.getD 0).toNat < rows.length ∧ ∃ l ∈ limit, 2 ^ 64 ≤ (offset.getD 0).toNat + l.toNat

namespace EngineLoop

variable {offset limit : Option UInt64} {rows : List Tuple}

/-- Behind all rows there is nothing. -/
theorem window_of_length_le (h : rows.length ≤ (offset.getD 0).toNat) :
    window offset limit rows = [] ∧ page offset limit rows = [] := by
  constructor
  · unfold window
    dsimp only
    rw [if_pos h, List.drop_length, List.take_nil]
  · unfold page
    rw [List.drop_eq_nil_of_le h]
    cases limit with
    | none => rfl
    | some l => exact List.take_nil

theorem window_none (h : (offset.getD 0).toNat < rows.length) :
    window offset none rows = rows.drop (offset.getD 0).toNat := by
  unfold window
  dsimp only
  rw [if_neg (Nat.not_le_of_lt h), if_neg (Nat.not_lt_of_lt h)]
  apply List.take_of_length_le
  rw [List.length_drop]

/-- A sum that fits is the end of the page. -/
theorem window_of_fits {l : UInt64} (h : (offset.getD 0).toNat < rows.length)
    (hfits : (offset.getD 0).toNat + l.toNat < 2 ^ 64) :
    window offset (some l) rows = (rows.drop (offset.getD 0).toNat).take l.toNat := by
  have hsum : (offset.getD 0 + l).toNat = (offset.getD 0).toNat + l.toNat := by
    rw [UInt64.toNat_add, Nat.mod_eq_of_lt hfits]
  unfold window
  dsimp only
  rw [if_neg (Nat.not_le_of_lt h), hsum, if_neg (by omega), List.take_eq_take_iff, List.length_drop]
  omega

/-- A sum that does not fit is in front of the offset. -/
theorem window_of_wraps {l : UInt64} (h : (offset.getD 0).toNat < rows.length)
    (hwraps : 2 ^ 64 ≤ (offset.getD 0).toNat + l.toNat) :
    window offset (some l) rows = [] := by
  have hl := l.toNat_lt
  have hsum : (offset.getD 0 + l).toNat < (offset.getD 0).toNat := by
    have hoffset := (offset.getD 0).toNat_lt
    rw [UInt64.toNat_add]
    omega
  unfold window
  dsimp only
  rw [if_neg (Nat.not_le_of_lt h), if_pos (by omega), Nat.sub_self, List.take_zero]

theorem page_ne_nil {l : UInt64} (h : (offset.getD 0).toNat < rows.length)
    (hwraps : 2 ^ 64 ≤ (offset.getD 0).toNat + l.toNat) : page offset (some l) rows ≠ [] := by
  have hoffset := (offset.getD 0).toNat_lt
  apply List.ne_nil_of_length_pos
  unfold page
  dsimp only
  rw [List.length_take, List.length_drop]
  omega

/-- The window is the page exactly if it does not wrap. -/
theorem window_eq_page_iff :
    window offset limit rows = page offset limit rows ↔ ¬ WindowWraps offset limit rows := by
  by_cases h : (offset.getD 0).toNat < rows.length
  · cases limit with
    | none =>
      refine iff_of_true (window_none h) ?_
      rintro ⟨-, l, hl, -⟩
      cases hl
    | some l =>
      by_cases hwraps : 2 ^ 64 ≤ (offset.getD 0).toNat + l.toNat
      · refine iff_of_false ?_ (not_not.2 ⟨h, l, rfl, hwraps⟩)
        rw [window_of_wraps h hwraps]
        exact (page_ne_nil h hwraps).symm
      · refine iff_of_true (window_of_fits h (Nat.lt_of_not_le hwraps)) ?_
        rintro ⟨-, l', hl', hwraps'⟩
        cases hl'
        exact hwraps hwraps'
  · have hnothing : window offset limit rows = [] ∧ page offset limit rows = [] :=
      window_of_length_le (Nat.le_of_not_lt h)
    exact iff_of_true (hnothing.1.trans hnothing.2.symm) fun hwraps => h hwraps.1

end EngineLoop

/-- Whether the window wraps is a matter of how many rows there are. -/
theorem windowWraps_congr {offset limit : Option UInt64} {rows rows' : List Tuple}
    (h : rows.length = rows'.length) :
    WindowWraps offset limit rows ↔ WindowWraps offset limit rows' := by
  rw [WindowWraps, WindowWraps, h]

/-- What the engine loop presents is the page of the rows as the sort leaves them, if and only if these
end in front of the offset or the sum of OFFSET and LIMIT fits into 64 bits. Wherever the sort is
defined they are an arrangement of the matched rows, and so as many. -/
theorem presented_page_iff [StandardLibrary] {σ : Type} (P : StorageProvider σ) (s : Server σ)
    (cmd : Command) {filtered : List Tuple} {rs : ResultSet} (htype : cmd.type = .select)
    (hfilters : EngineLoop.Filters P s cmd filtered) (hpresents : EngineLoop.Presents P s cmd rs) :
    (rs.rows = page cmd.offset cmd.limit
        (EngineLoop.orderRows cmd.orderBy (filtered.map (projectRow cmd.projections))) ↔
      ¬ WindowWraps cmd.offset cmd.limit
        (EngineLoop.orderRows cmd.orderBy (filtered.map (projectRow cmd.projections)))) ∧
    EngineLoop.Sorts cmd.orderBy (filtered.map (projectRow cmd.projections))
      (EngineLoop.orderRows cmd.orderBy (filtered.map (projectRow cmd.projections))) ∧
    (cmd.orderBy = [] ∨
        StrictWeakOn (Precedes cmd.orderBy) (filtered.map (projectRow cmd.projections)) →
      (WindowWraps cmd.offset cmd.limit
          (EngineLoop.orderRows cmd.orderBy (filtered.map (projectRow cmd.projections))) ↔
        WindowWraps cmd.offset cmd.limit filtered)) := by
  have hsorts := EngineLoop.sorts_orderRows cmd.orderBy (filtered.map (projectRow cmd.projections))
  refine ⟨?_, hsorts, fun hdefined => windowWraps_congr ?_⟩
  · rw [EngineLoop.rows_of_presents htype hfilters hpresents]
    exact EngineLoop.window_eq_page_iff
  · rw [(hsorts.perm hdefined).length_eq, List.length_map]

/-! ## Windows of two rows -/

/-- LIMIT and OFFSET of the SELECT that the text is. -/
def parsedWindow (sql : Bytes) : Option (Option UInt64 × Option UInt64) :=
  match (Sql.SqlParser.parse sql).run ⟨[], [], []⟩ with
  | .ok (some (.command cmd)) _ => some (cmd.limit, cmd.offset)
  | _ => none

/-- `SELECT * FROM t LIMIT 5 OFFSET 1`. -/
def fiveBehindFirst : Command :=
  { Command.select (ascii "t") none with limit := some 5, offset := some 1 }

theorem presented_page_five :
    [numberRow 2 0] = page (some 1) (some 5) [numberRow 1 0, numberRow 2 0] :=
  (@presented_page_iff _ _ InMemory.provider twoRowsServer fiveBehindFirst
    [numberRow 1 0, numberRow 2 0] ⟨true, [numberRow 2 0]⟩ rfl ⟨_, rfl⟩ ⟨_, rfl⟩).1.2
      (by rintro ⟨-, l, hl, hwraps⟩; cases hl; revert hwraps; decide)

/-- `SELECT * FROM t LIMIT -1 OFFSET 1`. -/
def allBehindFirst : Command :=
  { Command.select (ascii "t") none with limit := some 18446744073709551615, offset := some 1 }

/-- A LIMIT of -1 is the largest number there is; behind the first of two rows it leaves nothing. -/
theorem largest_limit_presents_nothing :
    parsedWindow (ascii "SELECT * FROM t LIMIT -1 OFFSET 1") =
      some (allBehindFirst.limit, allBehindFirst.offset) ∧
    EngineLoop.Filters InMemory.provider twoRowsServer allBehindFirst
      [numberRow 1 0, numberRow 2 0] ∧
    EngineLoop.Presents InMemory.provider twoRowsServer allBehindFirst ⟨true, []⟩ ∧
    page allBehindFirst.offset allBehindFirst.limit (EngineLoop.orderRows allBehindFirst.orderBy
      ([numberRow 1 0, numberRow 2 0].map (projectRow allBehindFirst.projections))) =
        [numberRow 2 0] := by
  refine ⟨by decide +kernel, ⟨_, rfl⟩, ⟨_, rfl⟩, ?_⟩
  decide +kernel

end OpenDB
