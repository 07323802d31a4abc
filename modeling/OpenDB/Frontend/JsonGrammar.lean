import OpenDB.Frontend.JsonParser

/-!
# JSON requests

An object is read as the list of its members, each with its key and with the strings and numbers of its
value (`ReadsObject`). The reading keeps the tokens as they are written and takes as a number whatever is
written with the characters of numbers, so it does not depend on who reads.

A `Dialect` says which of these tokens are allowed and what they stand for. `standard` is JSON as it is
defined, with the bytes of a text taken as they are, and `lenient` is what the parser makes of it;
`shared` allows what both do. The request of a dialect is made up of the members, if all are allowed.
-/

set_option autoImplicit false

namespace OpenDB

namespace Json

/-! ## Strings -/

/-- A character of a string, as it is written. -/
inductive Item where
  | raw (c : UInt8)
  | escaped (c : UInt8)
  | unicode (code : Nat)
  deriving DecidableEq

/-- The characters of a string up to the closing quote, and the text behind it. -/
def lexItems : Bytes → Option (List Item × Bytes)
  | [] => none
  | c :: rest =>
    if c = 34 then some ([], rest)
    else if c = 92 then
      match rest with
      | [] => none
      | esc :: rest =>
        if esc = 117 then
          match rest with
          | h₁ :: h₂ :: h₃ :: h₄ :: rest => do
            let code ← hexCode [h₁, h₂, h₃, h₄]
            let (items, rest) ← lexItems rest
            return (.unicode code :: items, rest)
          | _ => none
        else do
          let c ← escape esc
          let (items, rest) ← lexItems rest
          return (.escaped c :: items, rest)
    else do
      let (items, rest) ← lexItems rest
      return (.raw c :: items, rest)

def lexString (s : Bytes) : Option (List Item × Bytes) := do
  let rest ← expect 34 s
  lexItems rest

def Item.bytes : Item → Bytes
  | .raw c => [c]
  | .escaped c => [c]
  | .unicode code => utf8 code

/-- Every code unit on its own. -/
def unitText (items : List Item) : Bytes := items.flatMap Item.bytes

def isHigh (code : Nat) : Bool := 0xD800 ≤ code && code ≤ 0xDBFF

def isLow (code : Nat) : Bool := 0xDC00 ≤ code && code ≤ 0xDFFF

/-- The character that a surrogate pair stands for, as UTF-8. -/
def utf8Pair (high low : Nat) : Bytes :=
  let point := 0x10000 + 0x400 * (high - 0xD800) + (low - 0xDC00)
  [UInt8.ofNat (0xF0 ||| (point >>> 18)), UInt8.ofNat (0x80 ||| ((point >>> 12) &&& 0x3F)),
    UInt8.ofNat (0x80 ||| ((point >>> 6) &&& 0x3F)), UInt8.ofNat (0x80 ||| (point &&& 0x3F))]

/-- Surrogate pairs are one character. A surrogate without its partner has no character of its own and
is kept as it is. -/
def pairText : List Item → Bytes
  | [] => []
  | .unicode high :: .unicode low :: rest =>
    if isHigh high && isLow low then utf8Pair high low ++ pairText rest
    else utf8 high ++ pairText (.unicode low :: rest)
  | item :: rest => item.bytes ++ pairText rest

/-- There is a surrogate pair in the string. -/
def hasPair : List Item → Bool
  | .unicode high :: .unicode low :: rest =>
    (isHigh high && isLow low) || hasPair (.unicode low :: rest)
  | _ :: rest => hasPair rest
  | [] => false

/-- No control character is written as it is. -/
def noControl (items : List Item) : Bool :=
  items.all fun
    | .raw c => 32 ≤ c
    | _ => true

/-! ## Numbers -/

/-- The characters that numbers are written with. -/
def isNumberByte (c : UInt8) : Bool :=
  isDigit c || c == 43 || c == 45 || c == 46 || c == 69 || c == 101

/-- An optional plus or minus sign and digits, or none. -/
def isSignedDigits (text : Bytes) : Bool := (signedDigits text).2.isEmpty

/-- Digits without a zero in front of others. -/
def isWhole (digits : Bytes) : Bool :=
  !digits.isEmpty && digits.all isDigit && (digits.head? != some 48 || digits.length == 1)

/-- The minus sign is optional. -/
def dropMinus : Bytes → Bytes
  | [] => []
  | c :: rest => if c = 45 then rest else c :: rest

/-- A number of JSON without fraction and exponent. -/
def isInteger (text : Bytes) : Bool := isWhole (dropMinus text)

/-- `e` with an optional sign and digits, or nothing. -/
def isExponent : Bytes → Bool
  | [] => true
  | c :: rest =>
    (c == 69 || c == 101) &&
      match rest with
      | [] => false
      | sign :: digits =>
        if sign = 43 ∨ sign = 45 then !digits.isEmpty && digits.all isDigit
        else (sign :: digits).all isDigit

/-- A point and digits, or nothing, and then the exponent. -/
def isFraction : Bytes → Bool
  | [] => true
  | c :: rest =>
    if c = 46 then !(rest.takeWhile isDigit).isEmpty && isExponent (rest.dropWhile isDigit)
    else isExponent (c :: rest)

/-- A number of JSON. -/
def isNumber (text : Bytes) : Bool :=
  isWhole ((dropMinus text).takeWhile isDigit) && isFraction ((dropMinus text).dropWhile isDigit)

example : isNumber (ascii "-1.50e+3") = true ∧ isNumber (ascii "01") = false ∧
    isNumber (ascii "+1") = false := by decide +kernel

/-- The value of a number of JSON without fraction and exponent. -/
def integerValue (text : Bytes) : Int :=
  if text.head? = some 45 then -(digitsValue (dropMinus text) : Int) else digitsValue text

/-! ## Values and objects -/

inductive Token where
  | string (items : List Item)
  | number (text : Bytes)
  deriving DecidableEq

/-- What a member has for a value; of a literal, an object or an array only the tokens are kept. -/
inductive JsonValue where
  | string (items : List Item)
  | number (text : Bytes)
  | other (tokens : List Token)
  deriving DecidableEq

/-- The strings and numbers of a value. -/
def JsonValue.tokens : JsonValue → List Token
  | .string items => [.string items]
  | .number text => [.number text]
  | .other tokens => tokens

@[simp] theorem JsonValue.tokens_string (items : List Item) :
    (JsonValue.string items).tokens = [.string items] := rfl

@[simp] theorem JsonValue.tokens_number (text : Bytes) :
    (JsonValue.number text).tokens = [.number text] := rfl

@[simp] theorem JsonValue.tokens_other (tokens : List Token) :
    (JsonValue.other tokens).tokens = tokens := rfl

/-- `true`, `false` or `null`. -/
def lexLiteral (s : Bytes) : Option Bytes :=
  [ascii "true", ascii "false", ascii "null"].findSome? fun word =>
    if word.isPrefixOf s then some (s.drop word.length) else none

/-- A value that is one token: a string, a number as far as its characters go, or a literal. -/
def lexToken (s : Bytes) : Option (JsonValue × Bytes) :=
  match s with
  | [] => none
  | c :: _ =>
    if c = 34 then (lexString s).map fun (items, rest) => (.string items, rest)
    else if isNumberByte c then some (.number (s.takeWhile isNumberByte), s.dropWhile isNumberByte)
    else (lexLiteral s).map fun rest => (.other [], rest)

/-- The three rules of values. -/
inductive Part where
  | value | members | elements

/-- A value, the members of an object up to its closing brace, and the elements of an array up to its
closing bracket, with the tokens in them. -/
inductive Reads : Part → Bytes → JsonValue → Bytes → Prop where
  | token {s r : Bytes} {v : JsonValue} (h : lexToken (skipWhitespace s) = some (v, r)) :
      Reads .value s v r
  | emptyObject {s m r : Bytes} (hopen : expect 123 (skipWhitespace s) = some m)
      (hclose : expect 125 (skipWhitespace m) = some r) : Reads .value s (.other []) r
  | object {s m r : Bytes} {v : JsonValue} (hopen : expect 123 (skipWhitespace s) = some m)
      (h : Reads .members m v r) : Reads .value s v r
  | emptyArray {s m r : Bytes} (hopen : expect 91 (skipWhitespace s) = some m)
      (hclose : expect 93 (skipWhitespace m) = some r) : Reads .value s (.other []) r
  | array {s m r : Bytes} {v : JsonValue} (hopen : expect 91 (skipWhitespace s) = some m)
      (h : Reads .elements m v r) : Reads .value s v r
  | lastMember {s k m m' r : Bytes} {key : List Item} {v : JsonValue}
      (hkey : lexString (skipWhitespace s) = some (key, k))
      (hcolon : expect 58 (skipWhitespace k) = some m) (hvalue : Reads .value m v m')
      (hclose : expect 125 (skipWhitespace m') = some r) :
      Reads .members s (.other (.string key :: v.tokens)) r
  | moreMembers {s k m m' m'' r : Bytes} {key : List Item} {v w : JsonValue}
      (hkey : lexString (skipWhitespace s) = some (key, k))
      (hcolon : expect 58 (skipWhitespace k) = some m) (hvalue : Reads .value m v m')
      (hcomma : expect 44 (skipWhitespace m') = some m'') (hrest : Reads .members m'' w r) :
      Reads .members s (.other (.string key :: (v.tokens ++ w.tokens))) r
  | lastElement {s m r : Bytes} {v : JsonValue} (hvalue : Reads .value s v m)
      (hclose : expect 93 (skipWhitespace m) = some r) : Reads .elements s (.other v.tokens) r
  | moreElements {s m m' r : Bytes} {v w : JsonValue} (hvalue : Reads .value s v m)
      (hcomma : expect 44 (skipWhitespace m) = some m') (hrest : Reads .elements m' w r) :
      Reads .elements s (.other (v.tokens ++ w.tokens)) r

/-- A member of the request. -/
structure Field where
  key : List Item
  value : JsonValue
  deriving DecidableEq

/-- A key and its value. -/
def ReadsField (s : Bytes) (f : Field) (r : Bytes) : Prop :=
  ∃ k m, lexString (skipWhitespace s) = some (f.key, k) ∧ expect 58 (skipWhitespace k) = some m ∧
    Reads .value m f.value r

/-- The members of the request up to its closing brace. -/
inductive ReadsFields : Bytes → List Field → Bytes → Prop where
  | last {s m r : Bytes} {f : Field} (h : ReadsField s f m)
      (hclose : expect 125 (skipWhitespace m) = some r) : ReadsFields s [f] r
  | more {s m m' r : Bytes} {f : Field} {fs : List Field} (h : ReadsField s f m)
      (hcomma : expect 44 (skipWhitespace m) = some m') (hrest : ReadsFields m' fs r) :
      ReadsFields s (f :: fs) r

/-- An object in front of a text, with its members. -/
def ReadsObject (s : Bytes) (fields : List Field) (r : Bytes) : Prop :=
  ∃ m, expect 123 (skipWhitespace s) = some m ∧
    ((expect 125 (skipWhitespace m) = some r ∧ fields = []) ∨ ReadsFields m fields r)

/-! ## Dialects -/

/-- The characters of ASCII. -/
def IsAscii (bs : Bytes) : Prop := ∀ c ∈ bs, c < 128

instance (bs : Bytes) : Decidable (IsAscii bs) := List.decidableBAll (fun c => c < 128) bs

/-- What is allowed, and what it stands for. The text of a string may be any, as long as ASCII is
ASCII. -/
structure Dialect where
  text : List Item → Bytes
  string : List Item → Bool
  number : Bytes → Bool
  txnId : Bytes → Option UInt64
  text_eq_iff : ∀ items name, IsAscii name → (text items = name ↔ unitText items = name)

namespace Dialect

def token (D : Dialect) : Token → Bool
  | .string items => D.string items
  | .number text => D.number text

/-- The string of a member that has to be one. -/
def stringValue (D : Dialect) (value : JsonValue) : Option Bytes :=
  match value with
  | .string items => if D.string items then some (D.text items) else none
  | _ => none

/-- The number of a transaction. -/
def txnValue (D : Dialect) (value : JsonValue) : Option UInt64 :=
  match value with
  | .number text => D.txnId text
  | _ => none

/-- A member: of those with the name of a part of the request the last one counts. -/
def step (D : Dialect) (req : JsonRequest) (f : Field) : Option JsonRequest :=
  if D.string f.key = false then none
  else if D.text f.key = ascii "type" then
    (D.stringValue f.value).map fun v => { req with type := v }
  else if D.text f.key = ascii "sql" then
    (D.stringValue f.value).map fun v => { req with sql := v }
  else if D.text f.key = ascii "txnId" then
    (D.txnValue f.value).map fun n => { req with txnId := some n }
  else if f.value.tokens.all D.token then some req
  else none

/-- The request that the members make up. -/
def request (D : Dialect) (fields : List Field) : Option JsonRequest :=
  fields.foldlM D.step emptyRequest

end Dialect

end Json

end OpenDB
