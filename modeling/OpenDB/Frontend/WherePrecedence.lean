import OpenDB.Frontend.NumericLiterals
import OpenDB.Frontend.SqlCompleteStatements
import OpenDB.Frontend.StringLiterals

/-!
# Conjunctions and disjunctions

A condition in disjunctive normal form is a list of lists of comparisons. Written out, the comparisons of
an inner list stand between ANDs and the inner lists between ORs, without parentheses. The parser reads
the text back with the same grouping: AND binds more tightly than OR, whatever names and literals stand
in the comparisons (`where_precedence`).

Every token of the text has a blank in front of it, and what is behind it begins with a blank or is
nothing, so no token runs into the next one. A conjunction ends where the next word is not AND, and the
next disjunct begins behind the OR there.
-/

set_option autoImplicit false

namespace OpenDB

open OpenDB.Library

namespace Sql

/-! ## Conditions -/

/-- A name that needs no quotes. -/
def isBareName : Bytes → Bool
  | [] => false
  | c :: rest => (isAlpha c || c == 95) && rest.all isWordByte

abbrev BareName := { name : Bytes // isBareName name = true }

/-- A literal of a comparison; a text has no single quote and no backslash. -/
inductive PlainLiteral where
  | int64 (n : Int64)
  | boolean (b : Bool)
  | null
  | text (body : { body : Bytes // 39 ∉ body ∧ 92 ∉ body })

namespace PlainLiteral

def value : PlainLiteral → Value
  | .int64 n => .int64 n
  | .boolean b => .boolean b
  | .null => .null
  | .text body => .text body.1

def rendered : PlainLiteral → Bytes
  | .int64 n => signedDecimal n.toInt
  | .boolean true => ascii "TRUE"
  | .boolean false => ascii "FALSE"
  | .null => ascii "NULL"
  | .text body => 39 :: (body.1 ++ [39])

end PlainLiteral

def operatorText : ComparisonOp → Bytes
  | .equals => ascii "="
  | .notEquals => ascii "!="
  | .less => ascii "<"
  | .lessEquals => ascii "<="
  | .greater => ascii ">"
  | .greaterEquals => ascii ">="
  | .isNull => ascii "IS NULL"
  | .isNotNull => ascii "IS NOT NULL"

/-- A column and a literal, or the test of a column for null. -/
inductive PlainComparison where
  | value (column : BareName) (op : { op // SqlParser.isNullTest op = false }) (operand : PlainLiteral)
  | nullTest (column : BareName) (op : { op // SqlParser.isNullTest op = true })

namespace PlainComparison

def rendered : PlainComparison → Bytes
  | .value column op operand =>
    column.1 ++ (ascii " " ++ (operatorText op.1 ++ (ascii " " ++ operand.rendered)))
  | .nullTest column op => column.1 ++ (ascii " " ++ operatorText op.1)

/-- Whether the comparison is true for a row. -/
def holds (row : Tuple) : PlainComparison → Bool
  | .value column op operand =>
    PredicateNode.compareColumn op.1 operand.value (row.maybeGet column.1)
  | .nullTest column op => PredicateNode.compareColumn op.1 .null (row.maybeGet column.1)

def node : PlainComparison → NodePtr
  | .value column op operand => .comparison column.1 op.1 operand.value
  | .nullTest column op => .comparison column.1 op.1 .null

end PlainComparison

/-- A list with at least one element. -/
abbrev Filled (α : Type) := { items : List α // items ≠ [] }

/-- The comparisons of a conjunction. -/
abbrev Clause := Filled PlainComparison

namespace Clause

def rendered (c : Clause) : Bytes := (ascii " AND ").intercalate (c.1.map PlainComparison.rendered)

def holds (row : Tuple) (c : Clause) : Bool := c.1.all (PlainComparison.holds row)

end Clause

def renderedClauses (clauses : Filled Clause) : Bytes :=
  (ascii " OR ").intercalate (clauses.1.map Clause.rendered)

/-- The query with this condition. -/
def selectWhere (table : BareName) (clauses : Filled Clause) : Bytes :=
  ascii "SELECT * FROM " ++ (table.1 ++ (ascii " WHERE " ++ renderedClauses clauses))

/-! ## Tokens behind a blank -/

/-- Nothing is behind a token, or a blank. -/
def AtGap (rest : Bytes) : Prop := rest = [] ∨ ∃ tail, rest = 32 :: tail

variable {rest : Bytes}

theorem AtGap.ends {p : UInt8 → Bool} (h : AtGap rest) (hblank : p 32 = false) :
    Numeral.Ends p rest := by
  rintro c hc
  rcases h with rfl | ⟨tail, rfl⟩
  · cases hc
  · cases Option.some.inj hc
    exact hblank

theorem identifier_append (name : BareName) (h : AtGap rest) :
    Identifier (32 :: (name.1 ++ rest)) name.1 rest := by
  obtain ⟨_ | ⟨c, more⟩, hname⟩ := name
  · cases hname
  · simp only [isBareName, Bool.and_eq_true] at hname
    obtain ⟨hfirst, hmore⟩ := hname
    have hword : isWordByte c = true := by
      simp only [Bool.or_eq_true] at hfirst
      rcases hfirst with halpha | hline
      · simp [isWordByte, isAlnum, halpha]
      · simp [isWordByte, hline]
    -- it is read as a bare name, up to the byte that cannot stand in one
    have hquote : c ≠ 34 := by
      rintro rfl
      exact absurd hfirst (by decide)
    have hall : ∀ d ∈ more, isWordByte d = true := List.all_eq_true.1 hmore
    have hstop : rest.takeWhile isWordByte = [] ∧ rest.dropWhile isWordByte = rest := by
      rcases h with rfl | ⟨tail, rfl⟩
      · exact ⟨rfl, rfl⟩
      · exact ⟨rfl, rfl⟩
    have hskip : skip (32 :: (c :: more ++ rest)) = c :: (more ++ rest) := skip_of_isWordByte hword
    rw [Identifier, Token, hskip, lexIdentifier, if_neg hquote, if_pos hfirst,
      List.takeWhile_append_of_pos hall, List.dropWhile_append_of_pos hall, hstop.1, hstop.2,
      List.append_nil]

theorem firstOf_of_findSome {α : Type} {names : List (String × α)} {s r : Bytes} {a : α}
    (h : (names.findSome? fun name => (symbol name.1 s).map (Prod.mk name.2)) = some (a, r)) :
    FirstOf symbol names s (some a) r := by
  induction names generalizing s with
  | nil => cases h
  | cons name names ih =>
    rw [List.findSome?_cons] at h
    cases hsymbol : symbol name.1 s with
    | some m =>
      rw [hsymbol] at h
      cases h
      exact .inl ⟨r, hsymbol, rfl, rfl⟩
    | none =>
      rw [hsymbol] at h
      refine .inr ⟨hsymbol, ih ?_⟩
      simpa using h

theorem operator_append (op : ComparisonOp) (h : AtGap rest) :
    Operator (32 :: (operatorText op ++ rest)) (some op) rest := by
  -- the symbols are tried in order, a longer one before its front
  have hsymbols : ∀ s r, keyword "IS" s = none →
      (SqlParser.comparisonSymbols.findSome? fun name => (symbol name.1 s).map (Prod.mk name.2)) =
        some (op, r) → Operator s (some op) r := by
    intro s r his hfind
    refine (ifRead_none his).2 (firstOf_of_findSome ?_)
    simpa using hfind
  rcases h with rfl | ⟨tail, rfl⟩
  · cases op with
    | isNull => exact .inl ⟨_, rfl, .inl ⟨_, rfl, rfl, rfl⟩⟩
    | isNotNull => exact .inl ⟨_, rfl, .inr ⟨rfl, .inl ⟨_, rfl, .inl ⟨_, rfl, rfl, rfl⟩⟩⟩⟩
    | _ => exact hsymbols _ _ rfl rfl
  · cases op with
    | isNull => exact .inl ⟨_, rfl, .inl ⟨_, rfl, rfl, rfl⟩⟩
    | isNotNull => exact .inl ⟨_, rfl, .inr ⟨rfl, .inl ⟨_, rfl, .inl ⟨_, rfl, rfl, rfl⟩⟩⟩⟩
    | _ => exact hsymbols _ _ rfl rfl

/-- An integer is read up to the blank behind it. -/
theorem read_integer (sign : Sign) (whole : DigitText) (h : AtGap rest) :
    Numeral.read (sign.text ++ (whole.1 ++ rest)) = (⟨sign, whole, none, none⟩, rest) := by
  -- a blank is no digit, no point and no letter of an exponent
  have hsign : Numeral.readSign (sign.text ++ (whole.1 ++ rest)) = (sign, whole.1 ++ rest) :=
    Numeral.readSign_append (Numeral.ends_digits (h.ends (by decide)))
  have hwhole : Numeral.readDigits (whole.1 ++ rest) = (whole, rest) :=
    Numeral.readDigits_append (h.ends (by decide))
  have hfraction : Numeral.readFraction rest = (none, rest) :=
    @Numeral.readFraction_append none rest (h.ends (by decide)) (h.ends (by decide))
  have hexponent : Numeral.readExponent rest = (none, rest) := by
    rcases h with rfl | ⟨tail, rfl⟩ <;> rfl
  simp only [Numeral.read, hsign, hwhole, hfraction, hexponent]

/-- An integer with a digit is a literal of its own. -/
theorem literal_integer (sign : Sign) (whole : DigitText) (hwhole : whole.1 ≠ []) (h : AtGap rest) :
    Literal (32 :: (sign.text ++ (whole.1 ++ rest))) (.int64 (strtoll (sign.text ++ whole.1))) rest := by
  have hskip : skip (32 :: (sign.text ++ (whole.1 ++ rest))) = sign.text ++ (whole.1 ++ rest) := by
    obtain ⟨_ | ⟨c, digits⟩, hdigits⟩ := whole
    · exact absurd rfl hwhole
    · have hdigit : isDigit c = true := List.all_eq_true.1 hdigits c List.mem_cons_self
      cases sign with
      | none => exact skip_of_isWordByte (isWordByte_of_isDigit hdigit)
      | plus => rfl
      | minus =>
        -- a digit behind the sign: no comment begins there
        refine skip_of_head (c := 45) rfl (by decide) fun _ hminus => ?_
        cases Option.some.inj hminus
        exact absurd hdigit (by decide)
  have hread := read_integer sign whole h
  have htext : Numeral.text ⟨sign, whole, none, none⟩ = sign.text ++ whole.1 := by
    simp [Numeral.text, Numeral.fractionText, Numeral.exponentText]
  have hnumeral : (Numeral.read (sign.text ++ (whole.1 ++ rest))).1.text ≠ [] := by
    rw [hread, htext]
    exact List.append_ne_nil_of_right_ne_nil _ hwhole
  rw [Literal, Token, hskip, lexValue_of_numeral hnumeral, hread, numeralValue_of_isInteger ⟨rfl, rfl⟩,
    htext]

theorem strtoll_signedDecimal (n : Int64) :
    ∃ (sign : Sign) (whole : DigitText), whole.1 ≠ [] ∧ signedDecimal n.toInt = sign.text ++ whole.1 ∧
      strtoll (sign.text ++ whole.1) = n := by
  have hlow := n.le_toInt
  have hhigh := n.toInt_lt
  have hdigits : (decimal n.toInt.natAbs).all isDigit = true :=
    List.all_eq_true.2 fun c hc => isDigit_of_mem_decimal hc
  by_cases hneg : n.toInt < 0
  · -- the least integer saturates exactly at itself
    refine ⟨.minus, ⟨decimal n.toInt.natAbs, hdigits⟩, decimal_ne_nil _, ?_, ?_⟩
    · rw [signedDecimal, if_pos hneg]
      rfl
    · rw [← Int64.toInt_inj, Numeral.toInt_strtoll, if_pos rfl, digitsValue_decimal]
      omega
  · refine ⟨.none, ⟨decimal n.toInt.natAbs, hdigits⟩, decimal_ne_nil _, ?_, ?_⟩
    · rw [signedDecimal, if_neg hneg]
      rfl
    · rw [← Int64.toInt_inj, Numeral.toInt_strtoll, if_neg (by decide), digitsValue_decimal]
      omega

theorem literal_append (operand : PlainLiteral) (h : AtGap rest) :
    Literal (32 :: (operand.rendered ++ rest)) operand.value rest := by
  cases operand with
  | int64 n =>
    -- what is written is a numeral, and the conversion gives the integer back
    obtain ⟨sign, whole, hwhole, htext, hvalue⟩ := strtoll_signedDecimal n
    have hfound := literal_integer sign whole hwhole h
    rw [hvalue, ← List.append_assoc, ← htext] at hfound
    exact hfound
  | boolean b => rcases h with rfl | ⟨tail, rfl⟩ <;> cases b <;> rfl
  | null => rcases h with rfl | ⟨tail, rfl⟩ <;> rfl
  | text body =>
    obtain ⟨body, hbody⟩ := body
    have hfound := lexValue_literal body rest
    rw [literal, escapeText_eq_self_iff.2 hbody] at hfound
    exact hfound

/-! ## Comparisons -/

theorem comparison_append (c : PlainComparison) (h : AtGap rest) :
    Comparison (32 :: (c.rendered ++ rest)) c.node rest := by
  cases c with
  | value column op operand =>
    have hvalue : AtGap (ascii " " ++ (operand.rendered ++ rest)) := .inr ⟨_, rfl⟩
    have hop : AtGap (ascii " " ++ (operatorText op.1 ++ (ascii " " ++ (operand.rendered ++ rest)))) :=
      .inr ⟨_, rfl⟩
    simp only [PlainComparison.rendered, List.append_assoc]
    exact .value (identifier_append column hop) (operator_append op.1 hvalue) op.2
      (literal_append operand h)
  | nullTest column op =>
    have hop : AtGap (ascii " " ++ (operatorText op.1 ++ rest)) := .inr ⟨_, rfl⟩
    simp only [PlainComparison.rendered, List.append_assoc]
    exact .nullTest (identifier_append column hop) (operator_append op.1 h) op.2

/-! ## Chains -/

section Chains

variable {α : Type}

/-- The operands grouped to the left. -/
def chainNode (op : LogicalOp) (node : α → NodePtr) : List α → NodePtr
  | [] => .null
  | first :: more => more.foldl (fun left a => .logical op left (node a)) (node first)

theorem intercalate_cons (sep first : Bytes) (more : List Bytes) :
    sep.intercalate (first :: more) = first ++ more.flatMap (sep ++ ·) := by
  induction more generalizing first with
  | nil => simp
  | cons second more ih =>
    rw [List.intercalate_cons_cons, ih, List.flatMap_cons, List.append_assoc, List.append_assoc]

/-- What is between the operands of a chain, and what may be behind each of them. -/
structure Separates (kw : String) (sep : Bytes) (Behind : Bytes → Prop) : Prop where
  behind : ∀ tail, Behind (sep ++ tail)
  reads : ∀ tail, keyword kw (sep ++ tail) = some (32 :: tail)

variable {kw : String} {op : LogicalOp} {sep : Bytes} {Behind : Bytes → Prop} {R : Rule UInt8 NodePtr}
  {text : α → Bytes} {node : α → NodePtr}

theorem Separates.behind_flatMap (hsep : Separates kw sep Behind) (hrest : Behind rest) (more : List α) :
    Behind (more.flatMap (fun a => sep ++ text a) ++ rest) := by
  cases more with
  | nil => exact hrest
  | cons a more =>
    rw [List.flatMap_cons, List.append_assoc, List.append_assoc]
    exact hsep.behind _

/-- The keyword in front of every further operand is read, and none behind the last one. -/
theorem repeat_append (hsep : Separates kw sep Behind)
    (hitem : ∀ a rest, Behind rest → ∃ m, R (32 :: (text a ++ rest)) (node a) m ∧ skip m = skip rest)
    (hrest : Behind rest) (hstop : keyword kw rest = none) (more : List α) {left : NodePtr} {s : Bytes}
    (hs : skip s = skip (more.flatMap (fun a => sep ++ text a) ++ rest)) :
    ∃ m, Repeat (fun left => IfRead (keyword kw)
      (do
        let right ← R
        return .inl (.logical op left right))
      (return .inr left)) left s (more.foldl (fun left a => .logical op left (node a)) left) m ∧
        skip m = skip rest := by
  induction more generalizing left s with
  | nil =>
    -- what is behind the last operand is seen through the blanks
    have hnone : keyword kw s = none := by
      rw [keyword, hs]
      exact hstop
    refine ⟨skip s, .done (.inr ⟨hnone, rfl, rfl⟩), ?_⟩
    rw [skip_skip, hs]
    rfl
  | cons a more ih =>
    have hsome : keyword kw s =
        some (32 :: (text a ++ (more.flatMap (fun a => sep ++ text a) ++ rest))) := by
      rw [keyword, hs, List.flatMap_cons, List.append_assoc, List.append_assoc]
      exact hsep.reads _
    obtain ⟨m, hm, hskip⟩ := hitem a _ (hsep.behind_flatMap hrest more)
    -- the operand is taken in on the right, and the loop goes on
    obtain ⟨r, hr, hend⟩ := @ih (.logical op left (node a)) m hskip
    exact ⟨r, .again (.inl ⟨_, hsome, node a, m, hm, rfl, rfl⟩) hr, hend⟩

theorem chain_append (hsep : Separates kw sep Behind)
    (hitem : ∀ a rest, Behind rest → ∃ m, R (32 :: (text a ++ rest)) (node a) m ∧ skip m = skip rest)
    (hrest : Behind rest) (hstop : keyword kw rest = none) {items : List α} (hitems : items ≠ []) :
    ∃ m, Chain kw op R (32 :: (sep.intercalate (items.map text) ++ rest)) (chainNode op node items) m ∧
      skip m = skip rest := by
  cases items with
  | nil => exact absurd rfl hitems
  | cons first more =>
    obtain ⟨m, hm, hskip⟩ := hitem first _ (hsep.behind_flatMap hrest more)
    obtain ⟨r, hr, hend⟩ := repeat_append hsep hitem hrest hstop more hskip
    refine ⟨r, ?_, hend⟩
    rw [List.map_cons, intercalate_cons, List.flatMap_map, List.append_assoc]
    exact ⟨node first, m, hm, hr⟩

/-- A conjunction is true if all its operands are. -/
theorem evaluate_chainNode_and {row : Tuple} {holds : α → Bool}
    (h : ∀ a, (node a).evaluate row = some (holds a)) {items : List α} (hitems : items ≠ []) :
    (chainNode .and node items).evaluate row = some (items.all holds) := by
  have hfold : ∀ (more : List α) {left : NodePtr} {b : Bool}, left.evaluate row = some b →
      (more.foldl (fun left a => .logical .and left (node a)) left).evaluate row =
        some (b && more.all holds) := by
    intro more
    induction more with
    | nil =>
      intro left b hleft
      simpa using hleft
    | cons a more ih =>
      intro left b hleft
      -- the code stops at a left side that is false, where the conjunction is false
      have hboth : (NodePtr.logical .and left (node a)).evaluate row = some (b && holds a) := by
        cases b <;> simp [NodePtr.evaluate, hleft, h a]
      rw [List.foldl_cons, ih hboth, List.all_cons, Bool.and_assoc]
  cases items with
  | nil => exact absurd rfl hitems
  | cons first more => exact hfold more (h first)

/-- A disjunction is true if one of its operands is. -/
theorem evaluate_chainNode_or {row : Tuple} {holds : α → Bool}
    (h : ∀ a, (node a).evaluate row = some (holds a)) {items : List α} (hitems : items ≠ []) :
    (chainNode .or node items).evaluate row = some (items.any holds) := by
  have hfold : ∀ (more : List α) {left : NodePtr} {b : Bool}, left.evaluate row = some b →
      (more.foldl (fun left a => .logical .or left (node a)) left).evaluate row =
        some (b || more.any holds) := by
    intro more
    induction more with
    | nil =>
      intro left b hleft
      simpa using hleft
    | cons a more ih =>
      intro left b hleft
      -- and at a left side that is true, where the disjunction is true
      have heither : (NodePtr.logical .or left (node a)).evaluate row = some (b || holds a) := by
        cases b <;> simp [NodePtr.evaluate, hleft, h a]
      rw [List.foldl_cons, ih heither, List.any_cons, Bool.or_assoc]
  cases items with
  | nil => exact absurd rfl hitems
  | cons first more => exact hfold more (h first)

end Chains

/-! ## The condition of a query -/

def Clause.node (c : Clause) : NodePtr := chainNode .and PlainComparison.node c.1

def clausesNode (clauses : Filled Clause) : NodePtr := chainNode .or Clause.node clauses.1

theorem evaluate_comparison (row : Tuple) (c : PlainComparison) :
    c.node.evaluate row = some (c.holds row) := by
  cases c <;> rfl

theorem evaluate_clausesNode (row : Tuple) (clauses : Filled Clause) :
    (clausesNode clauses).evaluate row = some (clauses.1.any (Clause.holds row)) :=
  evaluate_chainNode_or (fun c => evaluate_chainNode_and (evaluate_comparison row) c.2) clauses.2

/-- What is behind a conjunction: no AND. -/
def AtDisjunct (rest : Bytes) : Prop := AtGap rest ∧ keyword "AND" rest = none

theorem separates_and : Separates "AND" (ascii " AND ") AtGap :=
  ⟨fun _ => .inr ⟨_, rfl⟩, fun _ => rfl⟩

theorem separates_or : Separates "OR" (ascii " OR ") AtDisjunct :=
  ⟨fun _ => ⟨.inr ⟨_, rfl⟩, rfl⟩, fun _ => rfl⟩

theorem clause_append (c : Clause) (h : AtDisjunct rest) :
    ∃ m, Chain "AND" .and Comparison (32 :: (c.rendered ++ rest)) c.node m ∧ skip m = skip rest :=
  chain_append separates_and (fun a _ hrest => ⟨_, comparison_append a hrest, rfl⟩) h.1 h.2 c.2

/-- The condition is read to the end of the text. -/
theorem clauses_append (clauses : Filled Clause) :
    ∃ m, Chain "OR" .or (Chain "AND" .and Comparison) (32 :: renderedClauses clauses)
      (clausesNode clauses) m ∧ skip m = [] := by
  have hend : AtDisjunct [] := ⟨.inl rfl, rfl⟩
  obtain ⟨m, hm, hskip⟩ := chain_append separates_or (fun a _ hrest => clause_append a hrest) hend rfl
    clauses.2
  rw [List.append_nil] at hm
  exact ⟨m, hm, hskip⟩

/-- The command of the query. -/
def selectCommand (table : Bytes) (node : NodePtr) : SqlCommand :=
  ⟨.select, table, some node, none, [ascii "*"], [], [], none, none⟩

/-- No clause is there at the end of a text. -/
theorem ifRead_keyword_of_skip_eq_nil {α : Type} {kw : String} (hkw : ascii kw ≠ []) {S T : Rule UInt8 α}
    {s r : Bytes} {a : α} (hs : skip s = []) (h : T [] a r) : IfRead (keyword kw) S T s a r :=
  .inr ⟨keyword_eq_none hkw hs, hs.symm ▸ h⟩

theorem statement_selectWhere (table : BareName) (clauses : Filled Clause) :
    Statement (selectWhere table clauses) (.command (selectCommand table.1 (clausesNode clauses)))
      [] := by
  obtain ⟨m, hchain, hend⟩ := clauses_append clauses
  obtain ⟨hpredicate, hcomplete⟩ : Disjunction (32 :: renderedClauses clauses) (clausesNode clauses) m ∧
      (clausesNode clauses).Complete :=
    (SqlParser.chain_iff fun _ _ _ => SqlParser.chain_iff fun _ _ _ => SqlParser.comparison_iff).1 hchain
  have hne : clausesNode clauses ≠ .null := by
    intro hnull
    rw [hnull] at hcomplete
    exact hcomplete
  have hgap : AtGap (ascii " WHERE " ++ renderedClauses clauses) := .inr ⟨_, rfl⟩
  have hhead : SelectHead (ascii " * FROM " ++ (table.1 ++ (ascii " WHERE " ++ renderedClauses clauses)))
      ([ascii "*"], table.1) (ascii " WHERE " ++ renderedClauses clauses) :=
    ⟨[ascii "*"], _, .inl ⟨_, rfl, rfl, rfl⟩, (), _, rfl, table.1, _, identifier_append table hgap, rfl,
      rfl⟩
  have hwhere : Where (ascii " WHERE " ++ renderedClauses clauses) (some (clausesNode clauses)) m := by
    have hread : (if clausesNode clauses = .null then Rule.never else return some (clausesNode clauses) :
        Rule UInt8 (Option NodePtr)) m (some (clausesNode clauses)) m := by
      rw [if_neg hne]
      exact ⟨rfl, rfl⟩
    exact .inl ⟨_, rfl, clausesNode clauses, m, hpredicate, hread⟩
  -- nothing is left for the clauses behind the condition
  have horder : OrderBy m [] [] := ifRead_keyword_of_skip_eq_nil ascii_ne_nil hend ⟨rfl, rfl⟩
  have hwindow : Window [] (none, none) [] :=
    ifRead_keyword_of_skip_eq_nil ascii_ne_nil rfl
      ⟨none, [], ifRead_keyword_of_skip_eq_nil ascii_ne_nil rfl ⟨rfl, rfl⟩, rfl, rfl⟩
  have hjoins : Joins [] [] [] := by
    refine .done ⟨none, [], ?_, rfl, rfl⟩
    exact ifRead_keyword_of_skip_eq_nil ascii_ne_nil rfl
      (ifRead_keyword_of_skip_eq_nil ascii_ne_nil rfl
        (ifRead_keyword_of_skip_eq_nil ascii_ne_nil rfl ⟨rfl, rfl⟩))
  have hkw : keyword "SELECT" (selectWhere table clauses) =
      some (ascii " * FROM " ++ (table.1 ++ (ascii " WHERE " ++ renderedClauses clauses))) := rfl
  exact (statement_select hkw).2 ⟨_, ⟨_, _, hhead, _, m, hwhere, _, _, horder, _, _, hwindow, _, _,
    hjoins, rfl, rfl⟩, rfl⟩

/-- The query is read to its end, and on every row its condition is that some clause has all its
comparisons true. -/
theorem where_precedence (table : BareName) (clauses : Filled Clause) (p : SqlParser) :
    ∃ node p', (SqlParser.parse (selectWhere table clauses)).run p =
        .ok (some (.command (selectCommand table.1 node))) p' ∧ p'.rest = [] ∧
      ∀ row, node.evaluate row =
        some (clauses.1.any fun c => c.1.all fun comparison => comparison.holds row) := by
  obtain ⟨p', hrun, hrest⟩ := SqlParser.parse_of_statement p (statement_selectWhere table clauses)
  exact ⟨_, p', hrun, hrest, fun row => evaluate_clausesNode row clauses⟩

end Sql

end OpenDB
