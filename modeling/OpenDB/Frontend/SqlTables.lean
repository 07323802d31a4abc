import OpenDB.Frontend.SqlText

/-!
# Tables that are written out

The grammar reads a list of words up to the words behind it, which are again a list (`Reads`). A word
that has to be there is read exactly. Where a rule looks for one that is not there, it stops in front of
the next word or of the blank before it, and the rules behind do not see the difference.

The definition of a table is written with its columns, their constraints and its partition
(`PlainTable`), in words that the grammar reads as the same definition.
-/

set_option autoImplicit false

namespace OpenDB

open OpenDB.Library

namespace Sql

variable {α β ι : Type} {ws : List SqlWord}

/-! ## The rules of the grammar are blind -/

theorem blind_of_skipsBlanks {R : Rule UInt8 α} (h : SqlParser.SkipsBlanks R) : R.Blind skip := by
  intro s s' a r hs hread
  have hskip := (h s a r).2 hread
  rw [hs] at hskip
  exact ⟨r, (h s' a r).1 hskip, rfl⟩

theorem blind_if_keyword (kw : String) (R S : Rule UInt8 α) : (IfRead (keyword kw) R S).Blind skip :=
  blind_of_skipsBlanks (SqlParser.skipsBlanks_if_keyword kw R S)

theorem blind_if_symbol (sym : String) (R S : Rule UInt8 α) : (IfRead (symbol sym) R S).Blind skip :=
  blind_of_skipsBlanks (SqlParser.skipsBlanks_if_symbol sym R S)

theorem skipsBlanks_token (lex : Bytes → Lexeme α) : SqlParser.SkipsBlanks (Token lex) :=
  fun s a r => by rw [Token, Token, skip_skip]

theorem skipsBlanks_keyword (kw : String) : SqlParser.SkipsBlanks (Read (keyword kw)) :=
  fun s a r => by rw [Read, Read, keyword_skip]

theorem skipsBlanks_symbol (sym : String) : SqlParser.SkipsBlanks (Read (symbol sym)) :=
  fun s a r => by rw [Read, Read, symbol_skip]

/-- The first rule of a sequence skips the blanks. -/
theorem skipsBlanks_bind {R : Rule UInt8 α} {S : α → Rule UInt8 β} (hR : SqlParser.SkipsBlanks R) :
    SqlParser.SkipsBlanks (R >>= S) := by
  refine fun s b r => ⟨?_, ?_⟩
  · rintro ⟨a, m, hfirst, hrest⟩
    exact ⟨a, m, (hR s a m).1 hfirst, hrest⟩
  · rintro ⟨a, m, hfirst, hrest⟩
    exact ⟨a, m, (hR s a m).2 hfirst, hrest⟩

theorem blind_bind {R : Rule UInt8 α} {S : α → Rule UInt8 β} (hR : SqlParser.SkipsBlanks R) :
    (R >>= S).Blind skip := blind_of_skipsBlanks (skipsBlanks_bind hR)

theorem blind_items {item : Rule UInt8 α} (h : item.Blind skip) (add : β → α → β) (b : β) :
    (Items item add b).Blind skip :=
  .iterate (fun _ => .bind h fun _ => blind_if_symbol _ _ _) b

/-! ## Choices and lists -/

theorem reads_if_some {token : Bytes → Option Bytes} {R S : Rule UInt8 α} {s m r : Bytes} {a : α}
    (h : token s = some m) (hR : R.Reads skip m a r) : (IfRead token R S).Reads skip s a r := by
  obtain ⟨m', hread, hm⟩ := hR
  exact ⟨m', .inl ⟨m, h, hread⟩, hm⟩

theorem reads_if_none {token : Bytes → Option Bytes} {R S : Rule UInt8 α} {s r : Bytes} {a : α}
    (h : token s = none) (hS : S.Blind skip) (hread : S.Reads skip s a r) :
    (IfRead token R S).Reads skip s a r := by
  obtain ⟨m, hread, hm⟩ := hread.congr hS (skip_skip s).symm
  exact ⟨m, .inr ⟨h, hread⟩, hm⟩

/-- A word of the language that has to be there. -/
theorem read_keyword {kw : String} {h : isQuiet (ascii kw) = true} (hkw : isKeyword kw = true) :
    Read (keyword kw) (sql (.fixed kw h :: ws)) () (sql ws) := keyword_fixed hkw

theorem read_symbol {sym : String} {h : isQuiet (ascii sym) = true} {c : UInt8}
    (hsym : ascii sym = [c]) (hc : isVisible c = true) :
    Read (symbol sym) (sql (.fixed sym h :: ws)) () (sql ws) := symbol_fixed hsym hc

theorem read_name (n : BareName) : Identifier (sql (.name n :: ws)) n.1 (sql ws) :=
  identifier_append n (atGap_sql ws)

theorem read_literal (l : PlainLiteral) : Literal (sql (.literal l :: ws)) l.value (sql ws) :=
  literal_append l (atGap_sql ws)

theorem read_number (n : Nat) : Word (sql (.number n :: ws)) (decimal n) (sql ws) := by
  have hword : ∀ c ∈ decimal n, isWordByte c = true := fun c hc =>
    isWordByte_of_isDigit (isDigit_of_mem_decimal hc)
  have hskip : skip (sql (.number n :: ws)) = decimal n ++ sql ws := by
    obtain ⟨c, more, hdecimal⟩ := List.exists_cons_of_ne_nil (decimal_ne_nil n)
    show skip (32 :: (decimal n ++ sql ws)) = _
    rw [hdecimal]
    exact skip_of_isWordByte (hword c (by rw [hdecimal]; exact List.mem_cons_self))
  have hstop : (sql ws).takeWhile isWordByte = [] ∧ (sql ws).dropWhile isWordByte = sql ws := by
    rcases atGap_sql ws with hnil | ⟨tail, htail⟩
    · rw [hnil]
      exact ⟨rfl, rfl⟩
    · rw [htail]
      exact ⟨rfl, rfl⟩
  rw [Word, Token, hskip, lexWord, List.takeWhile_append_of_pos hword, List.dropWhile_append_of_pos hword,
    hstop.1, hstop.2, List.append_nil, if_neg]
  rw [List.isEmpty_iff]
  exact decimal_ne_nil n

/-- The words of some items with commas between them. -/
def separated (f : ι → List SqlWord) : List ι → List SqlWord
  | [] => []
  | [i] => f i
  | i :: j :: items => f i ++ .fixed "," rfl :: separated f (j :: items)

theorem separated_cons (f : ι → List SqlWord) (i j : ι) (items : List ι) :
    separated f (i :: j :: items) ++ ws = f i ++ .fixed "," rfl :: (separated f (j :: items) ++ ws) := by
  rw [separated, List.append_assoc]
  rfl

section Items

variable {item : Rule UInt8 α} {f : ι → List SqlWord} {val : ι → α} {heads : List String}
  {items : List ι}

/-- What is read word by word is read as a list. -/
theorem reads_items (add : β → α → β) (hblind : item.Blind skip)
    (hitem : ∀ i ws, Next ("," :: heads) ws → item.Reads skip (sql (f i ++ ws)) (val i) (sql ws))
    (hws : Next heads ws) (hheads : heads.all (startsApart ",") = true) (hitems : items ≠ []) (b : β) :
    (Items item add b).Reads skip (sql (separated f items ++ ws))
      (items.foldl (fun b i => add b (val i)) b) (sql ws) := by
  refine .untilLast (fun items => sql (separated f items ++ ws)) id
    (fun _ => .bind hblind fun _ => blind_if_symbol _ _ _) (fun b i j rest => ?_) (fun b i => ?_) hitems b
  · rw [separated_cons]
    refine (hitem i _ (next_fixed List.mem_cons_self)).bind (blind_if_symbol _ _ _) ?_
    exact reads_if_some (symbol_fixed rfl (by decide)) (.pure _ _)
  · refine (hitem i ws (hws.mono fun t => List.mem_cons_of_mem _)).bind (blind_if_symbol _ _ _) ?_
    exact reads_if_none (symbol_none hws hheads ascii_ne_nil) (.pure _) (.pure _ _)

theorem reads_list (hblind : item.Blind skip)
    (hitem : ∀ i ws, Next ("," :: heads) ws → item.Reads skip (sql (f i ++ ws)) (val i) (sql ws))
    (hws : Next heads ws) (hheads : heads.all (startsApart ",") = true) (hitems : items ≠ []) :
    (Items item (fun as a => as ++ [a]) []).Reads skip (sql (separated f items ++ ws)) (items.map val)
      (sql ws) := by
  have hread := reads_items (fun as a => as ++ [a]) hblind hitem hws hheads hitems []
  rw [List.foldl_append_eq_append, List.nil_append, ← List.flatMap_def, ← List.map_eq_flatMap] at hread
  exact hread

end Items

/-! ## Columns -/

/-- A type that has a name. -/
abbrev ColumnType := { type : ValueType // type ∈ SqlParser.columnTypes.map Prod.snd }

def typeName : ValueType → String
  | .int64 => "BIGINT"
  | .int32 => "SMALLINT"
  | .double => "DOUBLE"
  | .text => "TEXT"
  | .blob => "BLOB"
  | .date => "DATE"
  | .timestamp => "TIMESTAMP"
  | _ => "BOOL"

theorem isQuiet_typeName (type : ValueType) : isQuiet (ascii (typeName type)) = true := by
  cases type with
  | other code =>
    show isQuiet (ascii "BOOL") = true
    rfl
  | _ => rfl

/-- The first name that is the keyword. -/
theorem firstOf_keyword {names : List (String × α)} {kw : String} {a : α} {s r : Bytes}
    (h : keyword kw s = some r) (hkw : (ascii kw).all isAlpha = true)
    (hnames : names.all (fun name => (ascii name.1).all isAlpha) = true)
    (hfind : names.find? (fun name => (ascii name.1).map toUpper = (ascii kw).map toUpper) =
      some (kw, a)) : FirstOf keyword names s (some a) r := by
  induction names generalizing s with
  | nil => cases hfind
  | cons name names ih =>
    rw [List.all_cons, Bool.and_eq_true] at hnames
    rw [List.find?_cons] at hfind
    split at hfind
    · cases hfind
      exact .inl ⟨r, h, rfl, rfl⟩
    · rename_i hne
      have hother : keyword name.1 s = none :=
        keyword_eq_none_of_keyword h hkw hnames.1 (Ne.symm (of_decide_eq_false hne))
      exact .inr ⟨hother, ih ((keyword_skip kw s).trans h) hnames.2 hfind⟩

theorem read_type (type : ColumnType) :
    OneOf keyword SqlParser.columnTypes
      (sql (.fixed (typeName type.1) (isQuiet_typeName type.1) :: ws)) type.1 (sql ws) := by
  have hread : ∀ type, type ∈ SqlParser.columnTypes.map Prod.snd →
      (ascii (typeName type)).all isAlpha = true ∧ ascii (typeName type) ≠ [] ∧
        SqlParser.columnTypes.find? (fun name =>
          (ascii name.1).map toUpper = (ascii (typeName type)).map toUpper) =
            some (typeName type, type) := by
    decide
  obtain ⟨hkw, hne, hfind⟩ := hread type.1 type.2
  exact firstOf_keyword (keyword_fixed (isKeyword_iff.2 ⟨hne, hkw⟩)) hkw (by decide) hfind

/-- A column of a table, and whether it is the primary key. -/
structure PlainColumn where
  name : BareName
  type : ColumnType
  primaryKey : Bool
  nullable : Bool
  default : Option PlainLiteral

namespace PlainColumn

def keyWords (primaryKey : Bool) : List SqlWord :=
  if primaryKey then [.fixed "PRIMARY" rfl, .fixed "KEY" rfl] else []

def nullWords (nullable : Bool) : List SqlWord :=
  if nullable then [] else [.fixed "NOT" rfl, .fixed "NULL" rfl]

def defaultWords : Option PlainLiteral → List SqlWord
  | none => []
  | some l => [.fixed "DEFAULT" rfl, .literal l]

def words (c : PlainColumn) : List SqlWord :=
  .name c.name :: .fixed (typeName c.type.1) (isQuiet_typeName c.type.1) ::
    (keyWords c.primaryKey ++ (nullWords c.nullable ++ defaultWords c.default))

def definition (c : PlainColumn) : ColumnDef :=
  ⟨c.name.1, c.type.1, c.nullable, c.primaryKey, 0, .empty, c.default.map PlainLiteral.value⟩

end PlainColumn

/-- A literal other than null does not begin with the keyword. -/
theorem keyword_null_of_literal {s r : Bytes} {v : Value} (h : Literal s v r) (hv : v ≠ .null) :
    keyword "NULL" s = none := by
  cases hnull : keyword "NULL" s with
  | none => rfl
  | some m =>
    have hother : ∀ kw, (ascii kw).all isAlpha = true →
        (ascii "NULL").map toUpper ≠ (ascii kw).map toUpper → keyword kw s = none := fun kw hkw hne =>
      keyword_eq_none_of_keyword hnull (by decide) hkw hne
    have htrue := hother "TRUE" (by decide) (by decide)
    have hfalse := hother "FALSE" (by decide) (by decide)
    rw [Literal, Token] at h
    cases hskip : skip s with
    | nil =>
      rw [keyword, hskip] at hnull
      cases hnull
    | cons c rest =>
      rw [keyword, hskip] at hnull htrue hfalse
      have hquote : ¬ (c = 39 ∨ c = 34) := by
        rintro (rfl | rfl) <;> cases hnull
      -- what begins with the keyword is read as a null
      rw [hskip, lexValue, if_neg hquote, htrue, hfalse, hnull] at h
      cases h
      exact absurd rfl hv

section Columns

/-- What may stand behind a column. -/
def columnEnds : List String := [",", ")"]

/-- Behind the last constraint the loop ends. -/
theorem reads_constraints_end (hws : Next columnEnds ws) (b : ColumnDef × Bool) :
    (Constraints b).Reads skip (sql ws) b (sql ws) := by
  have hnone : ∀ kw, columnEnds.all (apart kw) = true → isKeyword kw = true →
      keyword kw (sql ws) = none := fun kw hends hkw => keyword_none hws hends hkw
  refine .done ?_
  refine reads_if_none (hnone _ (by decide) (by decide)) (blind_if_keyword _ _ _) ?_
  refine reads_if_none (hnone _ (by decide) (by decide)) (blind_if_keyword _ _ _) ?_
  refine reads_if_none (hnone _ (by decide) (by decide)) (blind_if_keyword _ _ _) ?_
  exact reads_if_none (hnone _ (by decide) (by decide)) (.pure _) (.pure _ _)

theorem reads_default (hws : Next columnEnds ws) (l : Option PlainLiteral) {column : ColumnDef}
    (hcolumn : column.defaultValue = none) (hasPrimaryKey : Bool) :
    (Constraints (column, hasPrimaryKey)).Reads skip (sql (PlainColumn.defaultWords l ++ ws))
      ({ column with defaultValue := l.map PlainLiteral.value }, hasPrimaryKey) (sql ws) := by
  cases l with
  | none =>
    rw [Option.map_none, ← hcolumn]
    exact reads_constraints_end hws _
  | some l =>
    have hnext : Next ["DEFAULT"] (PlainColumn.defaultWords (some l) ++ ws) :=
      next_fixed List.mem_cons_self
    have hnone : ∀ kw, ["DEFAULT"].all (apart kw) = true → isKeyword kw = true →
        keyword kw (sql (PlainColumn.defaultWords (some l) ++ ws)) = none :=
      fun kw hends hkw => keyword_none hnext hends hkw
    refine .again (fun _ => blind_if_keyword _ _ _) (m := sql ws) ?_
      (d := ({ column with defaultValue := some l.value }, hasPrimaryKey)) (reads_constraints_end hws _)
    refine reads_if_none (hnone _ (by decide) (by decide)) (blind_if_keyword _ _ _) ?_
    refine reads_if_none (hnone _ (by decide) (by decide)) (blind_if_keyword _ _ _) ?_
    refine reads_if_none (hnone _ (by decide) (by decide)) (blind_if_keyword _ _ _) ?_
    refine reads_if_some (keyword_fixed (by decide)) ?_
    -- a null is read by its keyword, any other literal as a literal
    by_cases hnull : l.value = .null
    · have hl : l = .null := by
        cases l with
        | null => rfl
        | _ => cases hnull
      subst hl
      exact reads_if_some (keyword_fixed (h := rfl) (by decide)) (.pure _ _)
    · refine reads_if_none (keyword_null_of_literal (read_literal l) hnull)
        (blind_bind (skipsBlanks_token _)) ?_
      exact .behind (read_literal l) (.pure _ _)

variable {column : ColumnDef} {hasPrimaryKey : Bool} {b : ColumnDef × Bool} {r : Bytes}

theorem reads_notNull (nullable : Bool) (hcolumn : column.nullable = true)
    (hrest : (Constraints ({ column with nullable := nullable }, hasPrimaryKey)).Reads skip (sql ws) b r) :
    (Constraints (column, hasPrimaryKey)).Reads skip (sql (PlainColumn.nullWords nullable ++ ws)) b r := by
  cases nullable with
  | true =>
    rw [← hcolumn] at hrest
    exact hrest
  | false =>
    refine .again (fun _ => blind_if_keyword _ _ _) ?_ hrest
    refine reads_if_none ?_ (blind_if_keyword _ _ _) ?_
    · exact keyword_none next_self (by decide) (by decide)
    · refine reads_if_some (keyword_fixed (h := rfl) (by decide)) ?_
      exact .behind (read_keyword (h := rfl) (by decide)) (.pure _ _)

/-- The primary key, if the table has none yet. -/
theorem reads_primaryKey (primaryKey : Bool) (hcolumn : column.primaryKey = false)
    (hfree : primaryKey = true → hasPrimaryKey = false)
    (hrest : (Constraints ({ column with primaryKey := primaryKey },
      hasPrimaryKey || primaryKey)).Reads skip (sql ws) b r) :
    (Constraints (column, hasPrimaryKey)).Reads skip (sql (PlainColumn.keyWords primaryKey ++ ws)) b r := by
  cases primaryKey with
  | false =>
    rw [Bool.or_false, ← hcolumn] at hrest
    exact hrest
  | true =>
    obtain rfl := hfree rfl
    refine .again (fun _ => blind_if_keyword _ _ _) ?_ hrest
    refine reads_if_some (keyword_fixed (h := rfl) (by decide)) ?_
    exact .behind (read_keyword (h := rfl) (by decide)) (.pure _ _)

/-- A column is read as it is defined. -/
theorem reads_column (hws : Next columnEnds ws) (c : PlainColumn)
    (hfree : c.primaryKey = true → hasPrimaryKey = false) :
    (ColumnSpec hasPrimaryKey).Reads skip (sql (c.words ++ ws))
      (c.definition, hasPrimaryKey || c.primaryKey) (sql ws) := by
  simp only [PlainColumn.words, List.cons_append, List.append_assoc]
  refine .behind (read_name c.name) (.behind (read_type c.type) ?_)
  refine reads_primaryKey c.primaryKey rfl hfree (reads_notNull c.nullable rfl ?_)
  exact reads_default hws c.default rfl _

/-- At most one column of the table is its primary key. -/
def OneKey (columns : List PlainColumn) : Prop :=
  columns.Pairwise fun c d => c.primaryKey = true → d.primaryKey = false

/-- The columns behind those that have been read. -/
theorem reads_columns {columns : List PlainColumn} (hone : OneKey columns)
    (hfree : ∀ c ∈ columns, c.primaryKey = true → hasPrimaryKey = false) (done : List ColumnDef) :
    (Columns (done, hasPrimaryKey)).Reads skip
      (sql (separated PlainColumn.words columns ++ .fixed ")" rfl :: ws))
      (done ++ columns.map PlainColumn.definition) (sql ws) := by
  induction columns generalizing done hasPrimaryKey with
  | nil =>
    rw [List.map_nil, List.append_nil]
    exact .done (reads_if_some (symbol_fixed (h := rfl) rfl (by decide)) (.pure _ _))
  | cons c columns ih =>
    obtain ⟨hfirst, hrest⟩ := List.pairwise_cons.1 hone
    have hc := hfree c List.mem_cons_self
    -- a name does not close the list
    have hname : ∀ more, symbol ")" (sql (c.words ++ more)) = none := fun more =>
      symbol_name c.name rfl (by decide)
    cases columns with
    | nil =>
      refine .done (reads_if_none (hname _) ?_ ?_)
      · exact blind_bind (skipsBlanks_bind (skipsBlanks_token _))
      · refine (reads_column (next_fixed (by decide)) c hc).bind (blind_if_symbol _ _ _) ?_
        refine reads_if_none ?_ (blind_bind (skipsBlanks_symbol _)) ?_
        · exact symbol_none next_self (by decide) ascii_ne_nil
        · exact .behind (read_symbol (h := rfl) rfl (by decide)) (.pure _ _)
    | cons d columns =>
      rw [separated_cons]
      refine .again (fun b => blind_if_symbol _ _ _)
        (d := (done ++ [c.definition], hasPrimaryKey || c.primaryKey))
        (m := sql (separated PlainColumn.words (d :: columns) ++ .fixed ")" rfl :: ws)) ?_ ?_
      · refine reads_if_none (hname _) ?_ ?_
        · exact blind_bind (skipsBlanks_bind (skipsBlanks_token _))
        · refine (reads_column (next_fixed (by decide)) c hc).bind (blind_if_symbol _ _ _) ?_
          exact reads_if_some (symbol_fixed (h := rfl) rfl (by decide)) (.pure _ _)
      · have hlater : ∀ e ∈ d :: columns, e.primaryKey = true →
            (hasPrimaryKey || c.primaryKey) = false := by
          -- if the column is the primary key, no later one is
          intro e he hkey
          rw [Bool.or_eq_false_iff]
          refine ⟨hfree e (List.mem_cons_of_mem _ he) hkey, ?_⟩
          by_contra hboth
          have hnot := hfirst e he (Bool.eq_true_of_not_eq_false hboth)
          rw [hkey] at hnot
          cases hnot
        have hnext := ih hrest hlater (done ++ [c.definition])
        rw [List.append_assoc] at hnext
        exact hnext

end Columns

/-! ## Tables -/

/-- PARTITION BY HASH; the number of partitions is read as an `int`. -/
structure PlainPartition where
  column : BareName
  count : UInt32
  positive : 0 < count.toNat
  small : count.toNat < 2 ^ 31

namespace PlainPartition

def words (p : PlainPartition) : List SqlWord :=
  [.fixed "PARTITION" rfl, .fixed "BY" rfl, .fixed "HASH" rfl, .fixed "(" rfl, .name p.column,
    .fixed ")" rfl, .fixed "PARTITIONS" rfl, .number p.count.toNat]

def policy (p : PlainPartition) : PartitionPolicy := ⟨.hash, p.column.1, p.count, [], []⟩

theorem atoi_count (p : PlainPartition) : atoi (decimal p.count.toNat) = p.count.toInt32 := by
  have hsmall := p.small
  have hdigits : (decimal p.count.toNat).all isDigit = true :=
    List.all_eq_true.2 fun c hc => isDigit_of_mem_decimal hc
  have hlong : (strtoll (decimal p.count.toNat)).toInt = p.count.toNat := by
    have hread := Numeral.toInt_strtoll .none ⟨decimal p.count.toNat, hdigits⟩
    rw [if_neg (by decide), digitsValue_decimal] at hread
    exact hread.trans (by omega)
  have hint : p.count.toInt32.toInt = (p.count.toNat : Int).bmod (2 ^ 32) :=
    BitVec.toInt_eq_toNat_bmod p.count.toBitVec
  rw [← Int32.toInt_inj, atoi, Int64.toInt_toInt32, hlong, hint]

theorem not_atoi_le (p : PlainPartition) : ¬ atoi (decimal p.count.toNat) ≤ 0 := by
  have hpositive := p.positive
  have hsmall := p.small
  have hint : p.count.toInt32.toInt = (p.count.toNat : Int).bmod (2 ^ 32) :=
    BitVec.toInt_eq_toNat_bmod p.count.toBitVec
  rw [atoi_count, Int32.le_iff_toInt_le, hint, Int.bmod_def, show (0 : Int32).toInt = 0 from rfl]
  omega

end PlainPartition

/-- The words of a clause that may be missing. -/
def optionalWords (f : ι → List SqlWord) : Option ι → List SqlWord
  | none => []
  | some i => f i

/-- The clause ends the statement. -/
theorem reads_partition (p : Option PlainPartition) :
    Partition.Reads skip (sql (optionalWords PlainPartition.words p)) (p.map PlainPartition.policy)
      (sql []) := by
  cases p with
  | none => exact reads_if_none (keyword_none (next_nil []) rfl (by decide)) (.pure _) (.pure _ _)
  | some p =>
    have hcount : ∀ r, (if atoi (decimal p.count.toNat) ≤ 0 then Rule.never
        else return some ⟨.hash, p.column.1, (atoi (decimal p.count.toNat)).toUInt32, [], []⟩ :
          Rule UInt8 (Option PartitionPolicy)).Reads skip r (some p.policy) r := by
      intro r
      rw [if_neg p.not_atoi_le, p.atoi_count, UInt32.toUInt32_toInt32]
      exact .pure _ _
    refine reads_if_some (keyword_fixed (by decide)) ?_
    refine .behind (read_keyword (by decide)) (.behind (read_keyword (by decide)) ?_)
    refine .behind (read_symbol rfl (by decide)) (.behind (read_name p.column) ?_)
    refine .behind (read_symbol rfl (by decide)) (.behind (read_keyword (by decide)) ?_)
    exact .behind (read_number p.count.toNat) (hcount _)

/-- The definition of a table. -/
structure PlainTable where
  name : BareName
  columns : List PlainColumn
  oneKey : OneKey columns
  partition : Option PlainPartition

namespace PlainTable

/-- The words behind CREATE TABLE. -/
def words (t : PlainTable) : List SqlWord :=
  .name t.name :: .fixed "(" rfl :: (separated PlainColumn.words t.columns ++
    .fixed ")" rfl :: optionalWords PlainPartition.words t.partition)

def schema (t : PlainTable) : Schema :=
  ⟨t.name.1, t.columns.map PlainColumn.definition, t.partition.map PlainPartition.policy⟩

end PlainTable

theorem reads_createTable (t : PlainTable) :
    CreateTable.Reads skip (sql t.words) (.createTable t.schema) (sql []) := by
  refine .behind (read_name t.name) (.behind (read_symbol rfl (by decide)) ?_)
  have hcolumns : ∀ ws, (Columns ([], false)).Reads skip
      (sql (separated PlainColumn.words t.columns ++ .fixed ")" rfl :: ws))
      (t.columns.map PlainColumn.definition) (sql ws) := fun ws =>
    reads_columns t.oneKey (fun _ _ _ => rfl) []
  refine (hcolumns _).bind (.bind (blind_if_keyword _ _ _) fun _ => .pure _) ?_
  exact (reads_partition t.partition).bind (.pure _) (.pure _ _)

/-! ## Changes of a table -/

inductive PlainAlteration where
  | addColumn (column : PlainColumn)
  | dropColumn (column : BareName)
  | renameTable (name : BareName)

namespace PlainAlteration

def words : PlainAlteration → List SqlWord
  | .addColumn column => .fixed "ADD" rfl :: .fixed "COLUMN" rfl :: column.words
  | .dropColumn column => [.fixed "DROP" rfl, .fixed "COLUMN" rfl, .name column]
  | .renameTable name => [.fixed "RENAME" rfl, .fixed "TO" rfl, .name name]

def spec : PlainAlteration → AlterSpec
  | .addColumn column => .addColumn column.definition
  | .dropColumn column => .dropColumn column.1
  | .renameTable name => .renameTable name.1

end PlainAlteration

/-- A keyword that starts another clause. -/
theorem reads_otherwise {kw head : String} {h : isQuiet (ascii head) = true} {R S : Rule UInt8 α}
    {a : α} {r : Bytes} (hkw : isKeyword kw = true) (hhead : apart kw head = true) (hS : S.Blind skip)
    (hread : S.Reads skip (sql (.fixed head h :: ws)) a r) :
    (IfRead (keyword kw) R S).Reads skip (sql (.fixed head h :: ws)) a r := by
  refine reads_if_none (keyword_none next_self ?_ hkw) hS hread
  rw [List.all_cons, hhead]
  rfl

theorem reads_alterClause (alteration : PlainAlteration) :
    AlterClause.Reads skip (sql alteration.words) alteration.spec (sql []) := by
  cases alteration with
  | addColumn column =>
    refine reads_if_some (keyword_fixed (by decide)) ?_
    refine .behind (read_keyword (by decide)) ?_
    have hcolumn : (ColumnSpec false).Reads skip (sql (column.words ++ [])) _ (sql []) :=
      reads_column (next_nil columnEnds) column fun _ => rfl
    rw [List.append_nil] at hcolumn
    exact hcolumn.bind (.pure _) (.pure _ _)
  | dropColumn column =>
    refine reads_otherwise (by decide) (by decide) (blind_if_keyword _ _ _) ?_
    refine reads_if_some (keyword_fixed (by decide)) ?_
    exact .behind (read_keyword (by decide)) (.behind (read_name column) (.pure _ _))
  | renameTable name =>
    refine reads_otherwise (by decide) (by decide) (blind_if_keyword _ _ _) ?_
    refine reads_otherwise (by decide) (by decide) (blind_if_keyword _ _ _) ?_
    refine reads_if_some (keyword_fixed (by decide)) ?_
    exact .behind (read_keyword (by decide)) (.behind (read_name name) (.pure _ _))

end Sql

end OpenDB
