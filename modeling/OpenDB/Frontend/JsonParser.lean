import OpenDB.Core.Executors
import OpenDB.Types.NumberText

/-!
# The parser of requests

`JsonParser` reads a request off the front of its text: one object, of which the members `type`, `sql`
and `txnId` are kept and all others are skipped. Its functions return what they have read together with
the text behind it; a function of the source that returns false returns nothing here, since every caller
then gives up too.

The two functions that call themselves carry a bound on the depth and number of their calls, which is
the length of the text.
-/

set_option autoImplicit false

namespace OpenDB

namespace Json

/-! ## Characters -/

def skipWhitespace : Bytes → Bytes
  | [] => []
  | c :: rest => if c = 32 ∨ c = 9 ∨ c = 10 ∨ c = 13 then skipWhitespace rest else c :: rest

/-- The character has to come next. -/
def expect (c : UInt8) : Bytes → Option Bytes
  | [] => none
  | c' :: rest => if c' = c then some rest else none

/-! ## Strings -/

/-- The characters that stand for themselves or a control character behind a backslash. -/
def escape (esc : UInt8) : Option UInt8 :=
  if esc = 34 then some 34
  else if esc = 92 then some 92
  else if esc = 47 then some 47
  else if esc = 98 then some 8
  else if esc = 102 then some 12
  else if esc = 110 then some 10
  else if esc = 114 then some 13
  else if esc = 116 then some 9
  else none

def hexDigit (h : UInt8) : Option Nat :=
  if 48 ≤ h ∧ h ≤ 57 then some (h.toNat - 48)
  else if 97 ≤ h ∧ h ≤ 102 then some (h.toNat - 97 + 10)
  else if 65 ≤ h ∧ h ≤ 70 then some (h.toNat - 65 + 10)
  else none

/-- The four hexadecimal digits behind `\u`. -/
def hexCode (digits : Bytes) : Option Nat :=
  digits.foldlM (fun code h => (hexDigit h).map fun v => 16 * code + v) 0

/-- A code unit as UTF-8. -/
def utf8 (code : Nat) : Bytes :=
  if code < 0x80 then [UInt8.ofNat code]
  else if code < 0x800 then
    [UInt8.ofNat (0xC0 ||| (code >>> 6)), UInt8.ofNat (0x80 ||| (code &&& 0x3F))]
  else
    [UInt8.ofNat (0xE0 ||| (code >>> 12)), UInt8.ofNat (0x80 ||| ((code >>> 6) &&& 0x3F)),
      UInt8.ofNat (0x80 ||| (code &&& 0x3F))]

/-- The loop of `parseString`, behind the opening quote. -/
def parseChars : Bytes → Option (Bytes × Bytes)
  | [] => none
  | c :: rest =>
    if c = 34 then some ([], rest)
    else if c = 92 then
      match rest with
      | [] => none
      | esc :: rest =>
        if esc = 117 then
          match rest with
          | h₁ :: h₂ :: h₃ :: h₄ :: rest => do
            let code ← hexCode [h₁, h₂, h₃, h₄]
            let (out, rest) ← parseChars rest
            return (utf8 code ++ out, rest)
          | _ => none
        else do
          let c ← escape esc
          let (out, rest) ← parseChars rest
          return (c :: out, rest)
    else do
      let (out, rest) ← parseChars rest
      return (c :: out, rest)

def parseString (s : Bytes) : Option (Bytes × Bytes) := do
  let rest ← expect 34 s
  parseChars rest

/-! ## Numbers and values that are skipped -/

/-- An optional sign and digits, as far as they go: how many characters they are. -/
def signedDigits : Bytes → Bytes × Bytes
  | [] => ([], [])
  | c :: rest =>
    if c = 45 ∨ c = 43 then (c :: rest.takeWhile isDigit, rest.dropWhile isDigit)
    else ((c :: rest).takeWhile isDigit, (c :: rest).dropWhile isDigit)

def parseNumberAsString (s : Bytes) : Option (Bytes × Bytes) :=
  let (out, rest) := signedDigits (skipWhitespace s)
  if out.isEmpty then none else some (out, rest)

/-- `true`, `false` and `null`, by their first character. -/
def skipLiteral (c : UInt8) (s : Bytes) : Option Bytes :=
  let lit := if c = 116 then ascii "true" else if c = 102 then ascii "false" else ascii "null"
  if s.length < lit.length then none
  else if s.take lit.length = lit then some (s.drop lit.length)
  else none

mutual

def skipValue : Nat → Bytes → Option Bytes
  | 0, _ => none
  | fuel + 1, s =>
    match skipWhitespace s with
    | [] => none
    | c :: rest =>
      if c = 34 then (parseString (c :: rest)).map Prod.snd
      else if c = 123 then
        match expect 125 (skipWhitespace rest) with
        | some rest => some rest
        | none => skipMembers fuel (skipWhitespace rest)
      else if c = 91 then
        match expect 93 (skipWhitespace rest) with
        | some rest => some rest
        | none => skipElements fuel (skipWhitespace rest)
      else if c = 116 ∨ c = 102 ∨ c = 110 then skipLiteral c (c :: rest)
      else if c = 45 ∨ c = 43 ∨ isDigit c then some (signedDigits (c :: rest)).2
      else none

/-- The loop over the members of an object. -/
def skipMembers : Nat → Bytes → Option Bytes
  | 0, _ => none
  | fuel + 1, s => do
    let (_, rest) ← parseString (skipWhitespace s)
    let rest ← expect 58 (skipWhitespace rest)
    let rest ← skipValue fuel rest
    match expect 44 (skipWhitespace rest) with
    | some rest => skipMembers fuel rest
    | none => expect 125 (skipWhitespace rest)

/-- The loop over the elements of an array. -/
def skipElements : Nat → Bytes → Option Bytes
  | 0, _ => none
  | fuel + 1, s => do
    let rest ← skipValue fuel s
    match expect 44 (skipWhitespace rest) with
    | some rest => skipElements fuel rest
    | none => expect 93 (skipWhitespace rest)

end

/-! ## Requests -/

/-- The value of a member of the request. -/
def parseMember (key : Bytes) (out : JsonRequest) (s : Bytes) : Option (JsonRequest × Bytes) :=
  if key = ascii "type" then do
    let (v, rest) ← parseString s
    return ({ out with type := v }, rest)
  else if key = ascii "sql" then do
    let (v, rest) ← parseString s
    return ({ out with sql := v }, rest)
  else if key = ascii "txnId" then do
    let (v, rest) ← parseNumberAsString s
    let txnId ← stoull v
    return ({ out with txnId := some txnId }, rest)
  else do
    let rest ← skipValue (s.length + 1) s
    return (out, rest)

/-- The loop of `parseObject`. -/
def parseMembers : Nat → JsonRequest → Bytes → Option (JsonRequest × Bytes)
  | 0, _, _ => none
  | fuel + 1, out, s => do
    let (key, rest) ← parseString (skipWhitespace s)
    let rest ← expect 58 (skipWhitespace rest)
    let (out, rest) ← parseMember key out (skipWhitespace rest)
    match expect 44 (skipWhitespace rest) with
    | some rest => parseMembers fuel out rest
    | none => do
      let rest ← expect 125 (skipWhitespace rest)
      return (out, rest)

def parseObject (out : JsonRequest) (s : Bytes) : Option (JsonRequest × Bytes) := do
  let rest ← expect 123 (skipWhitespace s)
  match expect 125 (skipWhitespace rest) with
  | some rest => return (out, rest)
  | none => parseMembers (s.length + 1) out (skipWhitespace rest)

/-- `JsonParser::parseValue`: only an object is a request. -/
def parseValue (out : JsonRequest) (s : Bytes) : Option (JsonRequest × Bytes) :=
  if (skipWhitespace s).head? = some 123 then parseObject out (skipWhitespace s) else none

def emptyRequest : JsonRequest := ⟨[], [], none⟩

/-- What stands behind the object is not looked at. -/
def parseJsonRequest (json : Bytes) : Option JsonRequest := do
  let (req, _) ← parseValue emptyRequest json
  if req.type.isEmpty then none else return req

example : parseJsonRequest (ascii "\x7b \"type\" : \"query\" , \"sql\" : \"caf\\u00e9\" \x7d") =
    some ⟨ascii "query", ascii "caf" ++ [0xC3, 0xA9], none⟩ := by decide +kernel

end Json

end OpenDB
