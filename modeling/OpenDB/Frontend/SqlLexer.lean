import Mathlib.Data.List.TakeWhile
import OpenDB.Library.RecursiveDescent
import OpenDB.Types.NumberText
import OpenDB.Types.Value

/-!
# The tokens of SQL

What the SQL parser finds at the front of a text: blanks and comments, keywords and symbols,
identifiers, words and literals. The readers look behind the blanks, which they skip first, and differ
in how they fail: a token can be missing, it can be cut off by the end of the text, or what stands
there is no token of its kind.
-/

set_option autoImplicit false

namespace OpenDB

open OpenDB.Library

namespace Sql

/-! ## Blanks and comments -/

/-- Where the skipping of blanks stands: between tokens, or inside a comment. -/
inductive SkipMode where
  | blanks | lineComment | blockComment

/-- The loops of `skipWhitespaceAndComments`. A block comment that is never closed leaves its last
byte. -/
def skipFrom : SkipMode → Bytes → Bytes
  | _, [] => []
  | .blanks, 45 :: 45 :: rest => skipFrom .lineComment rest
  | .blanks, 47 :: 42 :: rest => skipFrom .blockComment rest
  | .blanks, c :: rest => if isSpace c then skipFrom .blanks rest else c :: rest
  | .lineComment, c :: rest =>
    if c = 10 then skipFrom .blanks rest else skipFrom .lineComment rest
  | .blockComment, 42 :: 47 :: rest => skipFrom .blanks rest
  | .blockComment, [c] => if isSpace c then [] else [c]
  | .blockComment, _ :: rest => skipFrom .blockComment rest

/-- The text behind the blanks and comments in front of it. -/
def skip (text : Bytes) : Bytes := skipFrom .blanks text

theorem length_skipFrom_le (mode : SkipMode) (text : Bytes) :
    (skipFrom mode text).length ≤ text.length := by
  fun_induction skipFrom mode text <;> simp_all <;> omega

theorem length_skip_le (text : Bytes) : (skip text).length ≤ text.length :=
  length_skipFrom_le .blanks text

/-- Skipping stops where it has nothing to skip. -/
theorem skip_skipFrom (mode : SkipMode) (text : Bytes) :
    skip (skipFrom mode text) = skipFrom mode text := by
  fun_induction skipFrom mode text <;> simp_all [skip, skipFrom]

@[simp] theorem skip_skip (text : Bytes) : skip (skip text) = skip text :=
  skip_skipFrom .blanks text

/-- A blank is skipped. -/
theorem skip_cons_of_isSpace {c : UInt8} {rest : Bytes} (h : isSpace c = true) :
    skip (c :: rest) = skip rest := by
  have hline : ∀ tail, c = 45 → rest = 45 :: tail → False := by
    rintro tail rfl -
    exact absurd h (by decide)
  have hblock : ∀ tail, c = 47 → rest = 42 :: tail → False := by
    rintro tail rfl -
    exact absurd h (by decide)
  rw [skip, skipFrom.eq_4 c rest hline hblock, if_pos h]
  rfl

/-- A byte that is no blank and begins no comment. -/
theorem skip_of_head {c : UInt8} {rest : Bytes} (hspace : isSpace c = false) (hslash : c ≠ 47)
    (hminus : c = 45 → rest.head? ≠ some 45) : skip (c :: rest) = c :: rest := by
  -- neither comment begins here
  have hline : ∀ tail, c = 45 → rest = 45 :: tail → False := fun tail hc hrest =>
    hminus hc (by rw [hrest]; rfl)
  have hblock : ∀ tail, c = 47 → rest = 42 :: tail → False := fun _ hc => absurd hc hslash
  rw [skip, skipFrom.eq_4 c rest hline hblock, hspace]
  rfl

/-! ## Keywords and symbols -/

/-- A byte that can stand inside an identifier. -/
def isWordByte (c : UInt8) : Bool := isAlnum c || c == 95

theorem isSpace_eq_false_of_isWordByte {c : UInt8} (h : isWordByte c = true) : isSpace c = false := by
  by_contra hspace
  simp only [Bool.not_eq_false, isSpace, Bool.or_eq_true, beq_iff_eq, Bool.and_eq_true,
    decide_eq_true_eq] at hspace
  simp only [isWordByte, isAlnum, isAlpha, isDigit, Bool.or_eq_true, Bool.and_eq_true,
    decide_eq_true_eq, beq_iff_eq] at h
  simp only [UInt8.le_iff_toNat_le, ← UInt8.toNat_inj] at hspace h
  simp at hspace h
  omega

theorem skip_of_isWordByte {c : UInt8} {rest : Bytes} (h : isWordByte c = true) :
    skip (c :: rest) = c :: rest := by
  refine skip_of_head (isSpace_eq_false_of_isWordByte h) ?_ ?_
  · rintro rfl
    exact absurd h (by decide)
  · rintro rfl
    exact absurd h (by decide)

theorem isWordByte_of_isDigit {c : UInt8} (h : isDigit c = true) : isWordByte c = true := by
  simp [isWordByte, isAlnum, h]

/-- The keyword in front of the text, whatever its case, if no longer word starts there. -/
def matchKeyword (kw : String) (text : Bytes) : Option Bytes :=
  let rest := text.drop (ascii kw).length
  if (text.take (ascii kw).length).map toUpper = (ascii kw).map toUpper ∧
      (rest.head?.any isWordByte) = false then
    some rest
  else none

/-- The symbol in front of the text. -/
def matchSymbol (sym : String) (text : Bytes) : Option Bytes :=
  if (ascii sym).isPrefixOf text then some (text.drop (ascii sym).length) else none

/-- The text behind a keyword. -/
def keyword (kw : String) (text : Bytes) : Option Bytes := matchKeyword kw (skip text)

/-- The text behind a symbol. -/
def symbol (sym : String) (text : Bytes) : Option Bytes := matchSymbol sym (skip text)

/-! ## Identifiers, words and literals -/

/-- What stands in front of a text: a token and the text behind it, or why there is none. -/
inductive Lexeme (α : Type) where
  | found (a : α) (rest : Bytes)
  | missing
  /-- The closing quote is missing. -/
  | unterminated
  | malformed
  deriving DecidableEq

/-- The text up to a closing quote, and what stands behind it. -/
def quoted (quote : UInt8) (text : Bytes) : Lexeme Bytes :=
  match text.dropWhile (· != quote) with
  | [] => .unterminated
  | _ :: rest => .found (text.takeWhile (· != quote)) rest

/-- `consumeIdentifier`. -/
def lexIdentifier : Bytes → Lexeme Bytes
  | [] => .missing
  | c :: rest =>
    if c = 34 then quoted 34 rest
    else if isAlpha c || c == 95 then
      .found (c :: rest.takeWhile isWordByte) (rest.dropWhile isWordByte)
    else .missing

/-- `consumeWord`. -/
def lexWord (text : Bytes) : Lexeme Bytes :=
  if (text.takeWhile isWordByte).isEmpty then .missing
  else .found (text.takeWhile isWordByte) (text.dropWhile isWordByte)

/-- The body of a string literal up to its closing quote; a backslash keeps the byte behind it from
closing the literal. -/
def literalBody (quote : UInt8) : Bytes → Option (Bytes × Bytes)
  | [] => none
  | c :: rest =>
    if c = quote then some ([], rest)
    else if c = 92 then
      match rest with
      | [] => none
      | d :: rest => (literalBody quote rest).map fun (body, rest) => (c :: d :: body, rest)
    else (literalBody quote rest).map fun (body, rest) => (c :: body, rest)

/-- `consumeStringLiteral`. -/
def lexString : Bytes → Lexeme Bytes
  | [] => .missing
  | c :: rest =>
    if c = 39 ∨ c = 34 then
      match literalBody c rest with
      | none => .unterminated
      | some (body, rest) => .found body rest
    else .missing

/-- How far a number goes, whether it has a fraction or an exponent, and what stands behind it. A sign
may stand in front of it and behind the letter of its exponent. -/
def scanNumber (sign hasDot hasExp : Bool) : Bytes → Bytes × Bool × Bytes
  | [] => ([], hasDot || hasExp, [])
  | c :: rest =>
    if sign ∧ (c = 43 ∨ c = 45) then
      let (digits, real, rest) := scanNumber false hasDot hasExp rest
      (c :: digits, real, rest)
    else if isDigit c then
      let (digits, real, rest) := scanNumber false hasDot hasExp rest
      (c :: digits, real, rest)
    else if c = 46 ∧ hasDot = false ∧ hasExp = false then
      let (digits, real, rest) := scanNumber false true hasExp rest
      (c :: digits, real, rest)
    else if (c = 101 ∨ c = 69) ∧ hasExp = false then
      let (digits, real, rest) := scanNumber true hasDot true rest
      (c :: digits, real, rest)
    else ([], hasDot || hasExp, c :: rest)

/-- `consumeValueLiteral`. -/
def lexValue : Bytes → Lexeme Value
  | [] => .missing
  | c :: rest =>
    let text := c :: rest
    if c = 39 ∨ c = 34 then
      match lexString text with
      | .found body rest => .found (.text body) rest
      | .missing => .missing
      | .unterminated => .unterminated
      | .malformed => .malformed
    else if let some rest := matchKeyword "TRUE" text then .found (.boolean true) rest
    else if let some rest := matchKeyword "FALSE" text then .found (.boolean false) rest
    else if let some rest := matchKeyword "NULL" text then .found .null rest
    else
      let (numStr, real, rest) := scanNumber true false false text
      if numStr.isEmpty then .malformed
      else if real then .found (.real (strtod numStr)) rest
      else .found (.int64 (strtoll numStr)) rest

/-! ## Readers -/

/-- The token in front of the text, behind the blanks. -/
def Token {α : Type} (lex : Bytes → Lexeme α) : Rule UInt8 α := fun s a r => lex (skip s) = .found a r

/-- Where a reader stops that finds no token. -/
def Lexeme.stop {α : Type} (lexeme : Lexeme α) (text : Bytes) : Bytes :=
  match lexeme with
  | .unterminated => []
  | _ => text

/-! ## Every token is read -/

theorem length_of_matchKeyword {kw : String} {text rest : Bytes} (h : matchKeyword kw text = some rest) :
    text.length = (ascii kw).length + rest.length := by
  rw [matchKeyword] at h
  split_ifs at h with hmatch
  cases h
  have hlength := congrArg List.length hmatch.1
  simp only [List.length_map, List.length_take] at hlength
  rw [List.length_drop]
  omega

theorem length_of_matchSymbol {sym : String} {text rest : Bytes} (h : matchSymbol sym text = some rest) :
    text.length = (ascii sym).length + rest.length := by
  rw [matchSymbol] at h
  split_ifs at h with hstart
  cases h
  have hle := (List.isPrefixOf_iff_prefix.1 hstart).length_le
  rw [List.length_drop]
  omega

theorem keyword_length_lt {kw : String} {text rest : Bytes} (hkw : ascii kw ≠ [])
    (h : keyword kw text = some rest) : rest.length < text.length := by
  have hpos := List.length_pos_of_ne_nil hkw
  have hlength := length_of_matchKeyword h
  have hskip := length_skip_le text
  omega

theorem symbol_length_lt {sym : String} {text rest : Bytes} (hsym : ascii sym ≠ [])
    (h : symbol sym text = some rest) : rest.length < text.length := by
  have hpos := List.length_pos_of_ne_nil hsym
  have hlength := length_of_matchSymbol h
  have hskip := length_skip_le text
  omega

/-! ## At most one keyword stands in a place -/

/-- Behind a keyword no longer one goes on. -/
theorem keyword_longer {kw kw' : String} {s r r' : Bytes} (hkw' : (ascii kw').all isAlpha)
    (h : keyword kw s = some r) (h' : keyword kw' s = some r') :
    ¬ (ascii kw).length < (ascii kw').length := by
  intro hlt
  rw [keyword, matchKeyword] at h h'
  split_ifs at h with hmatch
  split_ifs at h' with hmatch'
  obtain ⟨-, hboundary⟩ := hmatch
  obtain ⟨htext, -⟩ := hmatch'
  have hlength := congrArg List.length htext
  simp only [List.length_map, List.length_take] at hlength
  have hin : (ascii kw).length < (skip s).length := by omega
  have hbyte := congrArg (·[(ascii kw).length]?) htext
  simp only [List.getElem?_map, List.getElem?_take_of_lt hlt, List.getElem?_eq_getElem hin,
    List.getElem?_eq_getElem hlt, Option.map_some, Option.some.injEq] at hbyte
  have halpha : isAlpha (skip s)[(ascii kw).length] = true := by
    rw [← isAlpha_toUpper, hbyte, isAlpha_toUpper]
    exact List.all_eq_true.1 hkw' _ (List.getElem_mem hlt)
  rw [List.head?_drop, List.getElem?_eq_getElem hin, Option.any_some, isWordByte, isAlnum, halpha]
    at hboundary
  cases hboundary

/-- Two keywords that stand in the same place are the same, up to their case. -/
theorem keyword_unique {kw kw' : String} {s r r' : Bytes} (hkw : (ascii kw).all isAlpha)
    (hkw' : (ascii kw').all isAlpha) (h : keyword kw s = some r) (h' : keyword kw' s = some r') :
    (ascii kw).map toUpper = (ascii kw').map toUpper := by
  have hlength : (ascii kw).length = (ascii kw').length :=
    le_antisymm (not_lt.1 (keyword_longer hkw h' h)) (not_lt.1 (keyword_longer hkw' h h'))
  rw [keyword, matchKeyword] at h h'
  split_ifs at h with hmatch
  split_ifs at h' with hmatch'
  rw [← hmatch.1, ← hmatch'.1, hlength]

theorem keyword_eq_none_of_keyword {kw kw' : String} {s r : Bytes} (h : keyword kw s = some r)
    (hkw : (ascii kw).all isAlpha) (hkw' : (ascii kw').all isAlpha)
    (hne : (ascii kw).map toUpper ≠ (ascii kw').map toUpper) : keyword kw' s = none := by
  cases h' : keyword kw' s with
  | none => rfl
  | some r' => exact absurd (keyword_unique hkw hkw' h h') hne

/-- A comma and a closing parenthesis do not stand in the same place. -/
theorem comma_eq_none {text rest : Bytes} (h : symbol ")" text = some rest) :
    symbol "," text = none := by
  have hclose : ascii ")" = [41] := by decide
  have hcomma : ascii "," = [44] := by decide
  rw [symbol, matchSymbol, hclose] at h
  rw [symbol, matchSymbol, hcomma]
  cases hskip : skip text with
  | nil => rfl
  | cons c tail =>
    rw [hskip] at h
    split_ifs at h with hstart
    rw [if_neg]
    intro hother
    simp only [List.isPrefixOf_iff_prefix, List.cons_prefix_cons] at hstart hother
    exact absurd (hstart.1.trans hother.1.symm) (by decide)

/-- There is no token at the end of the text. -/
theorem keyword_eq_none {kw : String} {text : Bytes} (hkw : ascii kw ≠ []) (h : skip text = []) :
    keyword kw text = none := by
  cases hkeyword : keyword kw text with
  | none => rfl
  | some rest =>
    have hlength := length_of_matchKeyword hkeyword
    rw [h, List.length_nil] at hlength
    have hpos := List.length_pos_of_ne_nil hkw
    omega

/-- A value is missing only at the end of the text. -/
theorem eq_nil_of_lexValue {text : Bytes} (h : lexValue text = .missing) : text = [] := by
  cases text with
  | nil => rfl
  | cons c text =>
    rw [lexValue] at h
    split_ifs at h with hquote
    · rw [lexString, if_pos hquote] at h
      cases hbody : literalBody c text with
      | none =>
        rw [hbody] at h
        cases h
      | some found =>
        rw [hbody] at h
        cases h
    · split at h
      · cases h
      · split at h
        · cases h
        · split at h
          · cases h
          · simp only at h
            split_ifs at h

/-- A reader of tokens that leaves no more than there was. -/
def Consuming {α : Type} (lex : Bytes → Lexeme α) : Prop :=
  ∀ {text a rest}, lex text = .found a rest → rest.length ≤ text.length

theorem consuming_quoted (quote : UInt8) : Consuming (quoted quote) := by
  intro text a rest h
  rw [quoted] at h
  have hdrop := List.length_dropWhile_le (p := (· != quote)) text
  split at h
  · cases h
  · rename_i c rest' hrest
    cases h
    rw [hrest, List.length_cons] at hdrop
    omega

theorem consuming_lexIdentifier : Consuming lexIdentifier := by
  intro text a rest h
  cases text with
  | nil => cases h
  | cons c text =>
    rw [lexIdentifier] at h
    split_ifs at h with hquote hstart
    · exact (consuming_quoted 34 h).trans (Nat.le_succ _)
    · cases h
      exact (List.length_dropWhile_le isWordByte text).trans (Nat.le_succ _)

theorem length_literalBody_le {quote : UInt8} {text body rest : Bytes}
    (h : literalBody quote text = some (body, rest)) : rest.length ≤ text.length := by
  fun_induction literalBody quote text generalizing body with
  | case1 => cases h
  | case2 text =>
    cases h
    exact Nat.le_succ _
  | case3 => cases h
  | case4 d text _ ih =>
    obtain ⟨⟨body', rest'⟩, hbody, hrest⟩ := Option.map_eq_some_iff.1 h
    cases hrest
    have hle := ih hbody
    simp only [List.length_cons]
    omega
  | case5 c text _ _ ih =>
    obtain ⟨⟨body', rest'⟩, hbody, hrest⟩ := Option.map_eq_some_iff.1 h
    cases hrest
    have hle := ih hbody
    rw [List.length_cons]
    omega

theorem consuming_lexString : Consuming lexString := by
  intro text a rest h
  cases text with
  | nil => cases h
  | cons c text =>
    rw [lexString] at h
    split_ifs at h with hquote
    cases hbody : literalBody c text with
    | none =>
      rw [hbody] at h
      cases h
    | some found =>
      rw [hbody] at h
      cases h
      exact (length_literalBody_le hbody).trans (Nat.le_succ _)

theorem length_scanNumber_le (sign hasDot hasExp : Bool) (text : Bytes) :
    (scanNumber sign hasDot hasExp text).2.2.length ≤ text.length := by
  fun_induction scanNumber sign hasDot hasExp text <;> simp_all <;> omega

theorem consuming_lexValue : Consuming lexValue := by
  intro text a rest h
  cases text with
  | nil => cases h
  | cons c text =>
    rw [lexValue] at h
    split_ifs at h with hquote
    · cases hstring : lexString (c :: text) with
      | found body rest' =>
        rw [hstring] at h
        cases h
        exact consuming_lexString hstring
      | _ =>
        rw [hstring] at h
        cases h
    · cases htrue : matchKeyword "TRUE" (c :: text) with
      | some rest' =>
        rw [htrue] at h
        cases h
        have hlength := length_of_matchKeyword htrue
        omega
      | none =>
        rw [htrue] at h
        cases hfalse : matchKeyword "FALSE" (c :: text) with
        | some rest' =>
          rw [hfalse] at h
          cases h
          have hlength := length_of_matchKeyword hfalse
          omega
        | none =>
          rw [hfalse] at h
          cases hnull : matchKeyword "NULL" (c :: text) with
          | some rest' =>
            rw [hnull] at h
            cases h
            have hlength := length_of_matchKeyword hnull
            omega
          | none =>
            rw [hnull] at h
            -- what is no word is scanned as a number, and a number without a digit is no literal
            have hlength := length_scanNumber_le true false false (c :: text)
            simp only at h
            split_ifs at h with hempty hreal
            · cases h
              exact hlength
            · cases h
              exact hlength

end Sql

end OpenDB
