import OpenDB.Library.ByteSearch
import OpenDB.Types.Command
import OpenDB.Types.NumberText

/-!
# The line-based front end

`ReplSource` reads a command from each line: `INSERT` with a table and the literal of a tuple, `SELECT`
with a table and perhaps an equality. For a blank line, an unknown verb, a tuple that cannot be read and
for `EXIT` it gives the same answer as at the end of the input, which is that there is no command.
-/

set_option autoImplicit false

namespace OpenDB

open OpenDB.Library

/-! ## Characters and words -/

/-- The `trim` of the source. -/
def trim (text : Bytes) : Bytes := ((text.dropWhile isSpace).reverse.dropWhile isSpace).reverse

/-- `stream >> word`: the next word and what is left of the line; nothing when it fails. -/
def nextWord (text : Bytes) : Option (Bytes × Bytes) :=
  match text.dropWhile isSpace with
  | [] => none
  | c :: rest =>
    some ((c :: rest).takeWhile fun c => !isSpace c, (c :: rest).dropWhile fun c => !isSpace c)

/-- `std::stoll`: the number and how many characters it takes; nothing when it throws. -/
def stoll (text : Bytes) : Option (Int64 × Nat) :=
  let (negative, digits) := readInteger text
  let n := digitsValue digits
  let blanks := (text.takeWhile isSpace).length
  let sign := if (text.dropWhile isSpace).head? = some 43 ∨ (text.dropWhile isSpace).head? = some 45
    then 1 else 0
  if digits.isEmpty then none
  else if negative then
    if n ≤ 2 ^ 63 then some (Int64.ofInt (-(n : Int)), blanks + sign + digits.length) else none
  else if n < 2 ^ 63 then some (Int64.ofNat n, blanks + sign + digits.length) else none

namespace ReplSource

/-! ## Literals -/

/-- The quote is at both ends. -/
def quotedBy (quote : UInt8) (text : Bytes) : Prop :=
  text.head? = some quote ∧ text.getLast? = some quote

instance (quote : UInt8) (text : Bytes) : Decidable (quotedBy quote text) :=
  inferInstanceAs (Decidable (_ ∧ _))

def parseValueLit (vlit : Bytes) : Value :=
  if vlit = ascii "null" then .null
  else if vlit = ascii "true" then .boolean true
  else if vlit = ascii "false" then .boolean false
  else if 2 ≤ vlit.length ∧ (quotedBy 34 vlit ∨ quotedBy 39 vlit) then
    .text ((vlit.drop 1).take (vlit.length - 2))
  else
    match stoll vlit with
    | some (n, consumed) => if consumed = vlit.length then .int64 n else .text vlit
    | none => .text vlit

/-- An entry of a tuple, `name:value`. -/
def parseEntry (entry : Bytes) : Option (Bytes × Value) :=
  match findFrom [58] entry 0 with
  | none => none
  | some colon => some (trim (entry.take colon), parseValueLit (trim (entry.drop (colon + 1))))

/-- The loop over the entries; one that cannot be read leaves no tuple. -/
def parseEntries (t : Tuple) : List Bytes → Tuple
  | [] => t
  | entry :: entries =>
    match parseEntry entry with
    | none => .empty
    | some (name, value) => parseEntries (t.set name value) entries

def parseTupleLit (lit : Bytes) : Tuple :=
  if lit.length < 2 ∨ lit.head? ≠ some 123 ∨ lit.getLast? ≠ some 125 then .empty
  else parseEntries .empty (((lit.drop 1).take (lit.length - 2)).splitOn 44)

def parseEqualityPred (pred : Bytes) : Option Predicate :=
  let pred := trim pred
  match findFrom [61] pred 0 with
  | none => none
  | some eq =>
    some ⟨some (.comparison (trim (pred.take eq)) .equals (parseValueLit (trim (pred.drop (eq + 1)))))⟩

/-! ## Lines -/

/-- `parse`. A word that is not there is empty, and so is what is left behind it. -/
def parse (line : Bytes) : Option Command :=
  match nextWord line with
  | none => none
  | some (verb, rest) =>
    if verb = ascii "INSERT" then
      let (table, rest) := (nextWord rest).getD ([], [])
      let (tupleLit, trailing) := (nextWord rest).getD ([], [])
      let t :=
        if tupleLit.head? = some 123 ∧ tupleLit.getLast? = some 125 then parseTupleLit tupleLit
        else parseTupleLit (trim (tupleLit ++ trailing))
      if t.isEmpty then none else some (.insert table t)
    else if verb = ascii "SELECT" then
      let (table, rest) := (nextWord rest).getD ([], [])
      match nextWord rest with
      | none => some (.select table none)
      | some (next, pred) =>
        if next = ascii "WHERE" then some (.select table (parseEqualityPred pred))
        else some (.select table none)
    else none

/-- What a line is read as. -/
def lineCommand (line : Bytes) : Option Command :=
  let line := trim line
  if line.isEmpty then none else parse line

/-- `nextCommand`: the command of the next line, and the lines behind it. -/
def nextCommand : List Bytes → Option Command × List Bytes
  | [] => (none, [])
  | line :: rest => (lineCommand line, rest)

/-- The first word of the line is `EXIT`. -/
def isExit (line : Bytes) : Bool := (nextWord (trim line)).map Prod.fst == some (ascii "EXIT")

theorem lineCommand_of_isExit {line : Bytes} (h : isExit line = true) : lineCommand line = none := by
  rw [isExit, beq_iff_eq, Option.map_eq_some_iff] at h
  obtain ⟨⟨verb, rest⟩, hword, hverb⟩ := h
  have hexit : verb = ascii "EXIT" := hverb
  have hinsert : ¬ verb = ascii "INSERT" := by
    rw [hexit]
    decide
  have hselect : ¬ verb = ascii "SELECT" := by
    rw [hexit]
    decide
  have hparse : parse (trim line) = none := by
    rw [parse, hword]
    simp only [if_neg hinsert, if_neg hselect]
  rw [lineCommand, hparse, ite_self]

end ReplSource

end OpenDB
