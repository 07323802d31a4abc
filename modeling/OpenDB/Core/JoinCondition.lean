import OpenDB.Core.JoinMultiplicity
import OpenDB.Frontend.SqlParser
import OpenDB.Types.PredicateLogic

/-!
# The condition of a join

`ON x.a = y.b` is meant to pair the rows for which a WHERE clause would find the equality true, whichever
operand is written first. The comparison of the joins is another one: it compares a null with a null, and
finds them equal, and it looks the first operand up in the row so far and the second one in the row of
the joined table, whatever tables they name.

So a pair goes wrong as it is written if both columns are null, and with the operands swapped if the
equality is true (`joinsOn_iff`): there is no column `y.b` in a row of `x`, unless the tables are the
same or their names have a dot in them. In the join of a table with itself it is the equality of the
columns of the other row that is found.
-/

set_option autoImplicit false

namespace OpenDB

open OpenDB.Library Exec Program

namespace EngineLoop

/-! ## Qualified names -/

/-- A column under the name of its table. -/
def qualifiedName (table column : Bytes) : Bytes := table ++ ascii "." ++ column

theorem qualifiedName_injective (table : Bytes) : Function.Injective (qualifiedName table) :=
  fun _ _ h => List.append_cancel_left h

theorem columns_qualify (table : Bytes) (src : Tuple) :
    (qualify table src).columns =
      src.columns.map fun c => ⟨qualifiedName table c.name, c.value⟩ := by
  have hnames : (src.columns.map fun c => (⟨qualifiedName table c.name, c.value⟩ : ColumnValue)).map
      ColumnValue.name = (src.columns.map ColumnValue.name).map (qualifiedName table) := by
    simp
  have hfold := Tuple.columns_foldl_set
    (src.columns.map fun c => ⟨qualifiedName table c.name, c.value⟩) .empty
    (by rw [hnames]; exact src.distinct.map (qualifiedName_injective table))
    fun _ _ hmem => by cases hmem
  rw [List.foldl_map] at hfold
  exact hfold

/-- A qualified row has under a qualified name what the row has under the name. -/
theorem maybeGet_qualify (table column : Bytes) (src : Tuple) :
    (qualify table src).maybeGet (qualifiedName table column) = src.maybeGet column := by
  unfold Tuple.maybeGet
  -- the search for the qualified name is the search for the name
  rw [columns_qualify, List.find?_map, Option.map_map]
  have hsame : ((fun c : ColumnValue => decide (c.name = qualifiedName table column)) ∘
      fun c : ColumnValue => ⟨qualifiedName table c.name, c.value⟩) =
        fun c : ColumnValue => decide (c.name = column) := by
    funext c
    exact decide_eq_decide.2 (qualifiedName_injective table).eq_iff
  rw [hsame]
  rfl

/-! ## The pairs of a join -/

/-- `JOIN y ON x.a = y.b`. -/
def onClause (x a y b : Bytes) : JoinClause := ⟨.inner, y, qualifiedName x a, qualifiedName y b⟩

/-- `JOIN y ON y.b = x.a`. -/
def onClauseSwapped (x a y b : Bytes) : JoinClause :=
  ⟨.inner, y, qualifiedName y b, qualifiedName x a⟩

/-- The pairs of rows of which each is `accepted`, in the order of the loops. -/
def pairs (accepted : Tuple → Tuple → Bool) (L R : List Tuple) : List (Tuple × Tuple) :=
  L.flatMap fun l => (R.filter (accepted l)).map (Prod.mk l)

/-- The pairs that the loops of an INNER JOIN merge. -/
def joinedPairs (x y : Bytes) (jc : JoinClause) : List Tuple → List Tuple → List (Tuple × Tuple) :=
  pairs fun l r => onMatches (qualify x l) (qualify y r) jc

/-- What a WHERE clause would find of the equality of the two columns. -/
def equality (a b : Bytes) (l r : Tuple) : Truth :=
  PredicateNode.truth l (.comparison a .equals ((r.maybeGet b).getD .null))

/-- The pairs for which the equality is true. -/
def truePairs (a b : Bytes) : List Tuple → List Tuple → List (Tuple × Tuple) :=
  pairs fun l r => (equality a b l r).holds

/-- Both ways to write the condition pair the rows for which the equality is true. -/
def JoinsOn (x a y b : Bytes) (L R : List Tuple) : Prop :=
  joinedPairs x y (onClause x a y b) L R = truePairs a b L R ∧
    joinedPairs x y (onClauseSwapped x a y b) L R = truePairs a b L R

variable {x a y b : Bytes} {L R : List Tuple} {l r : Tuple} {f g : Tuple → Tuple → Bool}

theorem mem_pairs : (l, r) ∈ pairs f L R ↔ l ∈ L ∧ r ∈ R ∧ f l r = true := by
  simp only [pairs, List.mem_flatMap, List.mem_map, List.mem_filter]
  constructor
  · rintro ⟨l', hl, r', ⟨hr, haccepted⟩, heq⟩
    cases heq
    exact ⟨hl, hr, haccepted⟩
  · rintro ⟨hl, hr, haccepted⟩
    exact ⟨l, hl, r, ⟨hr, haccepted⟩, rfl⟩

/-- Two conditions give the same pairs if they agree on all rows. -/
theorem pairs_eq_iff : pairs f L R = pairs g L R ↔ ∀ l ∈ L, ∀ r ∈ R, f l r = g l r := by
  constructor
  · intro h l hl r hr
    -- the same list has the same members, and a pair is one by its condition
    have hmem : (l, r) ∈ pairs f L R ↔ (l, r) ∈ pairs g L R := by rw [h]
    rw [mem_pairs, mem_pairs] at hmem
    exact Bool.eq_iff_iff.2 ⟨fun hf => (hmem.1 ⟨hl, hr, hf⟩).2.2, fun hg => (hmem.2 ⟨hl, hr, hg⟩).2.2⟩
  · intro h
    unfold pairs
    rw [List.flatMap_def, List.flatMap_def]
    refine congrArg _ (List.map_congr_left fun l hl => ?_)
    rw [List.filter_congr fun r hr => h l hl r hr]

/-- The rows that the loops leave are the merged pairs. -/
theorem joinAll_inner (L R : List Tuple) {jc : JoinClause} (hkind : jc.kind = .inner) :
    joinAll [(jc, R.map (qualify y))] (L.map (qualify x)) =
      (joinedPairs x y jc L R).map fun pair => mergeRow (qualify x pair.1) (qualify y pair.2) := by
  have hrow : ∀ cur, joinRow (R.map (qualify y)) jc cur =
      (R.filter fun r => onMatches cur (qualify y r) jc).map fun r => mergeRow cur (qualify y r) := by
    intro cur
    have hinner : (jc.kind == .left) = false := by rw [hkind]; rfl
    unfold joinRow
    simp only [hinner, Bool.and_false, Bool.false_eq_true, if_false, List.filter_map, List.map_map]
    rfl
  have hall : joinAll [(jc, R.map (qualify y))] (L.map (qualify x)) =
      (L.map (qualify x)).flatMap (joinRow (R.map (qualify y)) jc) := rfl
  rw [hall, joinedPairs, pairs, List.flatMap_map, List.map_flatMap]
  simp only [hrow, List.map_map]
  rfl

/-- A SELECT with one INNER JOIN has the merged pairs before its WHERE clause. -/
theorem run_joinedRows_inner [StandardLibrary] {σ : Type} {P : StorageProvider σ} {s t u : Server σ}
    {txn : UInt64} {cmd : Command} {jc : JoinClause} (hjoins : cmd.joins = [jc])
    (hkind : jc.kind = .inner)
    (hleft : (scan txn cmd.table).run (Server.handle P) s = some (.ok L u))
    (hright : (scan txn jc.table).run (Server.handle P) u = some (.ok R t)) :
    (joinedRows txn cmd).run (Server.handle P) s =
      some (.ok ((joinedPairs cmd.table jc.table jc L R).map fun pair =>
        mergeRow (qualify cmd.table pair.1) (qualify jc.table pair.2)) t) := by
  have hrowsLeft : (rowsFor txn cmd.table).run (Server.handle P) s =
      some (.ok (L.map (qualify cmd.table)) u) := run_bind_ok hleft
  have hrowsRight : (rowsFor txn jc.table).run (Server.handle P) u =
      some (.ok (R.map (qualify jc.table)) t) := run_bind_ok hright
  have hscan : (scanTables txn ([jc].map JoinClause.table)).run (Server.handle P) u =
      some (.ok [R.map (qualify jc.table)] t) := run_bind_ok hrowsRight
  -- the two scans in their order, then the loops over what they return
  rw [← joinAll_inner L R hkind, joinedRows, run_bind_ok hrowsLeft, joinTables_eq, hjoins,
    run_bind_ok hscan]
  rfl

/-! ## When the condition is met -/

/-- Both columns are there, and null. -/
def BothNull (a b : Bytes) (l r : Tuple) : Prop :=
  l.maybeGet a = some .null ∧ r.maybeGet b = some .null

/-- The rows are equal in the columns that the names of the other table find in them. -/
def CrossedEqual (x a y b : Bytes) (l r : Tuple) : Prop :=
  ∃ v w, (qualify x l).maybeGet (qualifiedName y b) = some v ∧
    (qualify y r).maybeGet (qualifiedName x a) = some w ∧ v.compare w = .eq

theorem onMatches_iff {cur right : Tuple} {jc : JoinClause} :
    onMatches cur right jc = true ↔ ∃ v w, cur.maybeGet jc.leftColumn = some v ∧
      right.maybeGet jc.rightColumn = some w ∧ v.compare w = .eq := by
  unfold onMatches
  cases cur.maybeGet jc.leftColumn with
  | none => simp
  | some v =>
    cases right.maybeGet jc.rightColumn with
    | none => simp
    | some w => simp

/-- The equality is true of two values that are there, are not null, and compare equal. -/
theorem equality_eq_yes_iff : equality a b l r = .yes ↔ ∃ v w, l.maybeGet a = some v ∧
    r.maybeGet b = some w ∧ v.isNull = false ∧ w.isNull = false ∧ v.compare w = .eq := by
  have htruth : ∀ v w : Value, PredicateNode.compareTruth .equals w v = .yes ↔
      v.isNull = false ∧ w.isNull = false ∧ v.compare w = .eq := by
    intro v w
    unfold PredicateNode.compareTruth ComparisonOp.admits
    -- a null on either side makes it unknown, whatever the comparison says
    cases v.isNull <;> cases w.isNull <;> cases v.compare w <;> decide
  unfold equality PredicateNode.truth
  rw [htruth]
  cases l.maybeGet a with
  | none => simp [Value.isNull]
  | some v =>
    cases r.maybeGet b with
    | none => simp [Value.isNull]
    | some w => simp

/-- A null compares equal to a null only. -/
theorem isNull_eq_of_compare {v w : Value} (h : v.compare w = .eq) : v.isNull = w.isNull := by
  cases v <;> cases w <;> first | rfl | simp [Value.compare, Value.bucket] at h

/-- As it is written, the condition goes wrong on two nulls. -/
theorem onClause_agrees_iff :
    onMatches (qualify x l) (qualify y r) (onClause x a y b) = (equality a b l r).holds ↔
      ¬ BothNull a b l r := by
  rw [Bool.eq_iff_iff, onMatches_iff, Truth.holds_iff, equality_eq_yes_iff, onClause,
    maybeGet_qualify, maybeGet_qualify]
  constructor
  · rintro h ⟨hl, hr⟩
    -- the loop accepts the two nulls, and the equality is unknown
    obtain ⟨v, w, hv, -, hnull, -⟩ := h.1 ⟨.null, .null, hl, hr, rfl⟩
    rw [hl] at hv
    cases hv
    cases hnull
  · intro hnulls
    constructor
    · rintro ⟨v, w, hv, hw, heq⟩
      -- of two equal values both are null or neither is
      have hsame := isNull_eq_of_compare heq
      have hv' : v.isNull = false := by
        cases v with
        | null =>
          cases w with
          | null => exact absurd ⟨hv, hw⟩ hnulls
          | _ => cases hsame
        | _ => rfl
      exact ⟨v, w, hv, hw, hv', hsame ▸ hv', heq⟩
    · rintro ⟨v, w, hv, hw, -, -, heq⟩
      exact ⟨v, w, hv, hw, heq⟩

/-- With its operands swapped, the condition asks for another equality. -/
theorem onClauseSwapped_agrees_iff :
    onMatches (qualify x l) (qualify y r) (onClauseSwapped x a y b) = (equality a b l r).holds ↔
      (CrossedEqual x a y b l r ↔ equality a b l r = .yes) := by
  rw [Bool.eq_iff_iff, onMatches_iff, Truth.holds_iff]
  rfl

/-- Rows of tables whose names do not cross are not equal in this way. -/
theorem not_crossedEqual (h : qualifiedName y b ∉ (qualify x l).names) :
    ¬ CrossedEqual x a y b l r := by
  rintro ⟨v, w, hv, -⟩
  obtain ⟨c, hc, -⟩ := Option.map_eq_some_iff.1 hv
  have hname : c.name = qualifiedName y b := by simpa using List.find?_some hc
  exact h (hname ▸ List.mem_map_of_mem (List.mem_of_find?_eq_some hc))

/-- The table of a qualified name is in front of the first dot. -/
theorem takeWhile_qualifiedName (hx : 46 ∉ x) : (qualifiedName x a).takeWhile (· != 46) = x := by
  have hdot : qualifiedName x a = x ++ 46 :: a := by simp [qualifiedName, ascii]
  have hfront : ∀ c ∈ x, (c != 46) = true := fun c hc => bne_iff_ne.2 fun heq => hx (heq ▸ hc)
  rw [hdot, List.takeWhile_append_of_pos hfront, List.takeWhile_cons_of_neg (by decide), List.append_nil]

/-- Names of different tables without a dot do not cross. -/
theorem not_mem_names_qualify (hne : x ≠ y) (hx : 46 ∉ x) (hy : 46 ∉ y) :
    qualifiedName y b ∉ (qualify x l).names := by
  intro hmem
  obtain ⟨c, hc, hname⟩ := List.mem_map.1 hmem
  rw [columns_qualify] at hc
  obtain ⟨c', -, rfl⟩ := List.mem_map.1 hc
  apply hne
  rw [← takeWhile_qualifiedName (a := c'.name) hx, ← takeWhile_qualifiedName (a := b) hy]
  exact congrArg _ hname

/-- In the join of a table with itself the other names find the columns of the other row. -/
theorem crossedEqual_self : CrossedEqual x a x b l r ↔
    ∃ v w, l.maybeGet b = some v ∧ r.maybeGet a = some w ∧ v.compare w = .eq := by
  rw [CrossedEqual, maybeGet_qualify, maybeGet_qualify]

/-- A join pairs the right rows in both ways to write it if and only if it never has two nulls to
compare, and the equality is true exactly where the columns that the swapped names find are equal.
Where they find none, that is nowhere, as between different tables whose names have no dot in them. In the
join of a table with itself they find the columns of the other row. -/
theorem joinsOn_iff (x a y b : Bytes) (L R : List Tuple) :
    (JoinsOn x a y b L R ↔
      ∀ l ∈ L, ∀ r ∈ R, ¬ BothNull a b l r ∧
        (CrossedEqual x a y b l r ↔ equality a b l r = .yes)) ∧
      (∀ l r : Tuple, qualifiedName y b ∉ (qualify x l).names → ¬ CrossedEqual x a y b l r) ∧
      (x ≠ y → 46 ∉ x → 46 ∉ y → (JoinsOn x a y b L R ↔
        ∀ l ∈ L, ∀ r ∈ R, ¬ BothNull a b l r ∧ equality a b l r ≠ .yes)) ∧
      (JoinsOn x a x b L R ↔ ∀ l ∈ L, ∀ r ∈ R, ¬ BothNull a b l r ∧
        ((∃ v w, l.maybeGet b = some v ∧ r.maybeGet a = some w ∧ v.compare w = .eq) ↔
          equality a b l r = .yes)) := by
  have hboth : ∀ y, JoinsOn x a y b L R ↔ ∀ l ∈ L, ∀ r ∈ R, ¬ BothNull a b l r ∧
      (CrossedEqual x a y b l r ↔ equality a b l r = .yes) := by
    intro y
    unfold JoinsOn joinedPairs truePairs
    rw [pairs_eq_iff, pairs_eq_iff]
    simp only [onClause_agrees_iff, onClauseSwapped_agrees_iff]
    constructor
    · rintro ⟨hwritten, hswapped⟩ l hl r hr
      exact ⟨hwritten l hl r hr, hswapped l hl r hr⟩
    · intro h
      exact ⟨fun l hl r hr => (h l hl r hr).1, fun l hl r hr => (h l hl r hr).2⟩
  refine ⟨hboth y, fun l r => not_crossedEqual, fun hne hx hy => ?_, ?_⟩
  · have hnever : ∀ l r, ¬ CrossedEqual x a y b l r := fun l r =>
      not_crossedEqual (not_mem_names_qualify hne hx hy)
    rw [hboth]
    simp only [hnever, false_iff, ne_eq]
  · rw [hboth]
    simp only [crossedEqual_self]

end EngineLoop

/-! ### A user and an order -/

/-- The joins of the SELECT that the text is. -/
def parsedJoins (sql : Bytes) : Option (List JoinClause) :=
  match (Sql.SqlParser.parse sql).run ⟨[], [], []⟩ with
  | .ok (some (.command cmd)) _ => some cmd.joins
  | _ => none

def userRow (id : Value) : Tuple := Tuple.empty.set (ascii "id") id

def orderRow (uid : Value) : Tuple := Tuple.empty.set (ascii "uid") uid

/-- An order of a user is found only if the condition names the users first; and an order without a
user is found to belong to a user without a number. -/
theorem order_not_joined :
    parsedJoins (ascii "SELECT * FROM u JOIN o ON o.uid = u.id") =
        some [EngineLoop.onClauseSwapped (ascii "u") (ascii "id") (ascii "o") (ascii "uid")] ∧
      EngineLoop.joinedPairs (ascii "u") (ascii "o")
        (EngineLoop.onClauseSwapped (ascii "u") (ascii "id") (ascii "o") (ascii "uid"))
        [userRow (.int64 1)] [orderRow (.int64 1)] = [] ∧
      EngineLoop.truePairs (ascii "id") (ascii "uid") [userRow (.int64 1)] [orderRow (.int64 1)] =
        [(userRow (.int64 1), orderRow (.int64 1))] ∧
      EngineLoop.joinedPairs (ascii "u") (ascii "o")
        (EngineLoop.onClause (ascii "u") (ascii "id") (ascii "o") (ascii "uid"))
        [userRow .null] [orderRow .null] = [(userRow .null, orderRow .null)] ∧
      EngineLoop.truePairs (ascii "id") (ascii "uid") [userRow .null] [orderRow .null] = [] ∧
      ¬ EngineLoop.JoinsOn (ascii "u") (ascii "id") (ascii "o") (ascii "uid") [userRow (.int64 1)]
        [orderRow (.int64 1)] ∧
      ¬ EngineLoop.JoinsOn (ascii "u") (ascii "id") (ascii "o") (ascii "uid") [userRow .null]
        [orderRow .null] := by
  refine ⟨?_, ?_, ?_, ?_, ?_, fun h => absurd h.2 ?_, fun h => absurd h.1 ?_⟩ <;> decide +kernel

end OpenDB
