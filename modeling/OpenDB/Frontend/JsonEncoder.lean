import OpenDB.Frontend.JsonParser
import OpenDB.Library.Base64
import OpenDB.Types.ValueText

/-!
# The encoder of answers

`JsonEncoder` writes results and errors as JSON. It has printers of its own: strings are escaped byte
by byte, a blob becomes base64, and dates and timestamps are ISO dates computed on 64 bits and padded
by the stream, which puts its zeros in front of the sign.

Two of its codecs are inverted here. The parser of requests reads back every string that the encoder
has escaped (`parseString_escapeJson`), and a strict decoder reads back every blob
(`decode_base64Encode`).
-/

set_option autoImplicit false

namespace OpenDB

open OpenDB.Library

/-! ## Printers -/

/-- `std::setfill('0') << std::setw(width)` in front of a text. -/
def zeroFilled (width : Nat) (text : Bytes) : Bytes :=
  List.replicate (width - text.length) 48 ++ text

/-- `std::hex << std::uppercase`. -/
def hexadecimal (n : Nat) : Bytes := (Nat.toDigits 16 n).map fun c => toUpper (UInt8.ofNat c.toNat)

namespace JsonEncoder

/-- One byte of `escapeJson`. -/
def escapeByte (c : UInt8) : Bytes :=
  if c = 34 then [92, 34]
  else if c = 92 then [92, 92]
  else if c = 8 then [92, 98]
  else if c = 12 then [92, 102]
  else if c = 10 then [92, 110]
  else if c = 13 then [92, 114]
  else if c = 9 then [92, 116]
  else if c < 32 then [92, 117] ++ zeroFilled 4 (hexadecimal c.toNat)
  else [c]

def escapeJson (s : Bytes) : Bytes := s.flatMap escapeByte

/-- A string of JSON. -/
def quote (s : Bytes) : Bytes := ascii "\"" ++ escapeJson s ++ ascii "\""

/-! ## Blobs -/

def kAlphabet : Bytes := ascii "ABCDEFGHIJKLMNOPQRSTUVWXYZabcdefghijklmnopqrstuvwxyz0123456789+/"

/-- `kAlphabet[n & 0x3F]`. -/
def alphabetAt (n : UInt32) : UInt8 := kAlphabet.getD (n &&& 0x3F).toNat 0

/-- The loop over three bytes at a time, and what is left behind it. -/
def base64Encode : Bytes → Bytes
  | b₀ :: b₁ :: b₂ :: rest =>
    let n := (b₀.toUInt32 <<< 16) ||| (b₁.toUInt32 <<< 8) ||| b₂.toUInt32
    alphabetAt (n >>> 18) :: alphabetAt (n >>> 12) :: alphabetAt (n >>> 6) :: alphabetAt n ::
      base64Encode rest
  | [b₀, b₁] =>
    let n := (b₀.toUInt32 <<< 16) ||| (b₁.toUInt32 <<< 8)
    [alphabetAt (n >>> 18), alphabetAt (n >>> 12), alphabetAt (n >>> 6), 61]
  | [b₀] =>
    let n := b₀.toUInt32 <<< 16
    [alphabetAt (n >>> 18), alphabetAt (n >>> 12), 61, 61]
  | [] => []

/-! ## Dates -/

/-- Year, month and day of `encodeIsoDate`. -/
def isoDate (days : Int32) : Int64 × Int64 × Int64 :=
  let z := days.toInt64 + 719468
  let era := (if 0 ≤ z then z else z - 146096) / 146097
  let doe := z - era * 146097
  let yoe := (doe - doe / 1460 + doe / 36524 - doe / 146096) / 365
  let y := yoe + era * 400
  let doy := doe - (365 * yoe + yoe / 4 - yoe / 100)
  let mp := (5 * doy + 2) / 153
  let d := doy - (153 * mp + 2) / 5 + 1
  let m := mp + (if mp < 10 then 3 else -9)
  (y + (if m ≤ 2 then 1 else 0), m, d)

def encodeIsoDate (days : Int32) : Bytes :=
  let (y, m, d) := isoDate days
  zeroFilled 4 (signedDecimal y.toInt) ++ (ascii "-" ++ (zeroFilled 2 (signedDecimal m.toInt) ++
    (ascii "-" ++ zeroFilled 2 (signedDecimal d.toInt))))

def encodeIsoTimestamp (ms : Int64) : Bytes :=
  let days := (ms / 86400000).toInt32
  let rem := ms % 86400000
  let days' := if rem < 0 then days - 1 else days
  let rem' := if rem < 0 then rem + 86400000 else rem
  let h := (rem' / 3600000).toInt32
  let rem := rem' % 3600000
  let mn := (rem / 60000).toInt32
  let rem := rem % 60000
  let s := (rem / 1000).toInt32
  let fff := (rem % 1000).toInt32
  encodeIsoDate days' ++ (ascii "T" ++ (zeroFilled 2 (signedDecimal h.toInt) ++ (ascii ":" ++
    (zeroFilled 2 (signedDecimal mn.toInt) ++ (ascii ":" ++ (zeroFilled 2 (signedDecimal s.toInt) ++
      (ascii "." ++ (zeroFilled 3 (signedDecimal fff.toInt) ++ ascii "Z"))))))))

/-! ## Values, rows and answers -/

def encodeValue : Value → Bytes
  | .null => ascii "null"
  | .boolean x => if x then ascii "true" else ascii "false"
  | .int32 x => signedDecimal x.toInt
  | .int64 x => signedDecimal x.toInt
  | .real d => d.toText
  | .text s => quote s
  | .blob b => ascii "\"" ++ base64Encode b ++ ascii "\""
  | .date days => ascii "\"" ++ encodeIsoDate days ++ ascii "\""
  | .timestamp ms => ascii "\"" ++ encodeIsoTimestamp ms ++ ascii "\""

/-- A loop that writes a comma in front of every item but the first. -/
def separated (items : List Bytes) : Bytes := (ascii ",").intercalate items

def encodeColumn (c : ColumnValue) : Bytes := quote c.name ++ ascii ":" ++ encodeValue c.value

def encodeTuple (t : Tuple) : Bytes :=
  ascii "\x7b" ++ separated (t.columns.map encodeColumn) ++ ascii "\x7d"

/-- The compact format: the values without the names of their columns. -/
def encodeArray (t : Tuple) : Bytes :=
  ascii "[" ++ separated (t.columns.map fun c => encodeValue c.value) ++ ascii "]"

/-- The result set around its rows. -/
def encodeRows (row : Tuple → Bytes) (rs : ResultSet) : Bytes :=
  ascii "\x7b\"success\":" ++ (if rs.success then ascii "true" else ascii "false") ++
    ascii ",\"rows\":[" ++ separated (rs.rows.map row) ++ ascii "]\x7d"

/-- `encode` of a result set. -/
def encode (rs : ResultSet) : Bytes := encodeRows encodeTuple rs

/-- `encodeArray` of a result set. -/
def encodeArrays (rs : ResultSet) : Bytes := encodeRows encodeArray rs

end JsonEncoder

/-! ## Errors -/

/-- `DbError::toString`. -/
def DbError.toString (e : DbError) : Bytes :=
  let name := match e.code with
    | .notFound => ascii "NotFound"
    | .deadlock => ascii "Deadlock"
    | .lockBusy => ascii "LockBusy"
    | .lockTimeout => ascii "LockTimeout"
    | .queryTimeout => ascii "QueryTimeout"
    | .parseError => ascii "ParseError"
    | .notSupported => ascii "NotSupported"
    | .internal => ascii "Internal"
  if e.message.isEmpty then name else name ++ ascii ": " ++ e.message

/-- `encode` of an error. -/
def JsonEncoder.encodeError (e : DbError) : Bytes :=
  ascii "\x7b\"success\":false,\"error\":" ++ quote e.toString ++ ascii "\x7d"

namespace JsonEncoder

/-! ## Strings are read back -/

open Json

variable {c : UInt8} {rest : Bytes}

/-- A control byte is written with four hexadecimal digits that stand for it. -/
theorem hexCode_control (h : c < 32) :
    ∃ h₁ h₂ h₃ h₄, zeroFilled 4 (hexadecimal c.toNat) = [h₁, h₂, h₃, h₄] ∧
      hexCode [h₁, h₂, h₃, h₄] = some c.toNat := by
  have hall : ∀ n < 32, (zeroFilled 4 (hexadecimal n)).length = 4 ∧
      hexCode (zeroFilled 4 (hexadecimal n)) = some n := by
    decide
  obtain ⟨hlength, hcode⟩ := hall c.toNat (UInt8.lt_iff_toNat_lt.1 h)
  obtain ⟨h₁, h₂, h₃, h₄, hdigits⟩ := List.length_eq_four.1 hlength
  exact ⟨h₁, h₂, h₃, h₄, hdigits, hdigits ▸ hcode⟩

theorem parseChars_control (h : c < 32) :
    parseChars ([92, 117] ++ zeroFilled 4 (hexadecimal c.toNat) ++ rest) =
      (parseChars rest).map fun (out, rest) => (c :: out, rest) := by
  obtain ⟨h₁, h₂, h₃, h₄, hdigits, hcode⟩ := hexCode_control h
  have hsmall : c.toNat < 0x80 := by
    have := UInt8.lt_iff_toNat_lt.1 h
    have h32 : (32 : UInt8).toNat = 32 := rfl
    omega
  -- a control character is a code point of one byte
  have hbyte : utf8 c.toNat = [c] := by
    rw [utf8, if_pos hsmall, UInt8.ofNat_toNat]
  -- the parser reads four digits behind the u
  have htext : [92, 117] ++ zeroFilled 4 (hexadecimal c.toNat) ++ rest =
      92 :: 117 :: h₁ :: h₂ :: h₃ :: h₄ :: rest := by
    rw [hdigits]
    rfl
  rw [htext, parseChars, if_neg (by decide), if_pos rfl]
  simp only [if_true, hcode, Option.bind_eq_bind, Option.bind_some, hbyte]
  cases parseChars rest <;> rfl

/-- A short escape stands for its byte. -/
theorem parseChars_escape {esc : UInt8} (hesc : escape esc = some c) (hne : esc ≠ 117) :
    parseChars ([92, esc] ++ rest) = (parseChars rest).map fun (out, rest) => (c :: out, rest) := by
  have htext : [92, esc] ++ rest = 92 :: esc :: rest := rfl
  rw [htext, parseChars.eq_def]
  simp only [if_neg (show (92 : UInt8) ≠ 34 by decide), if_true, if_neg hne, hesc]
  cases parseChars rest <;> rfl

theorem parseChars_plain (hquote : c ≠ 34) (hslash : c ≠ 92) :
    parseChars (c :: rest) = (parseChars rest).map fun (out, rest) => (c :: out, rest) := by
  rw [parseChars.eq_def]
  simp only [if_neg hquote, if_neg hslash]
  cases parseChars rest <;> rfl

/-- Whatever a byte is written as, it is read back. -/
theorem parseChars_escapeByte (c : UInt8) (rest : Bytes) :
    parseChars (escapeByte c ++ rest) =
      (parseChars rest).map fun (out, rest) => (c :: out, rest) := by
  rw [escapeByte]
  split_ifs with hquote hslash hb hf hn hr ht hcontrol
  · exact parseChars_escape (by rw [hquote]; rfl) (by decide)
  · exact parseChars_escape (by rw [hslash]; rfl) (by decide)
  · exact parseChars_escape (by rw [hb]; rfl) (by decide)
  · exact parseChars_escape (by rw [hf]; rfl) (by decide)
  · exact parseChars_escape (by rw [hn]; rfl) (by decide)
  · exact parseChars_escape (by rw [hr]; rfl) (by decide)
  · exact parseChars_escape (by rw [ht]; rfl) (by decide)
  · exact parseChars_control hcontrol
  · exact parseChars_plain hquote hslash

theorem parseChars_escapeJson (s rest : Bytes) :
    parseChars (escapeJson s ++ 34 :: rest) = some (s, rest) := by
  induction s with
  | nil =>
    rw [escapeJson, List.flatMap_nil, List.nil_append, parseChars.eq_def]
    rfl
  | cons c s ih =>
    have hcons : escapeJson (c :: s) ++ 34 :: rest =
        escapeByte c ++ (escapeJson s ++ 34 :: rest) := by
      rw [escapeJson, List.flatMap_cons, List.append_assoc]
      rfl
    -- the first byte comes back, and the rest by induction
    rw [hcons, parseChars_escapeByte, ih]
    rfl

/-- What the encoder writes as a string, the parser reads back, and it stops behind the closing
quote. -/
theorem parseString_escapeJson (s rest : Bytes) :
    parseString (quote s ++ rest) = some (s, rest) := by
  have htext : quote s ++ rest = 34 :: (escapeJson s ++ 34 :: rest) := by
    have hquote : ascii "\"" = [34] := by decide
    simp [quote, hquote]
  rw [htext]
  exact parseChars_escapeJson s rest

/-! ## Blobs are read back -/

theorem sextet_alphabetAt (n : UInt32) : Base64.sextet (alphabetAt n) = some (n.toNat % 64) := by
  -- the whole table is looked at once
  have hall : ∀ i < 64, Base64.sextet (kAlphabet.getD i 0) = some i := by
    decide +kernel
  -- the mask keeps the last six bits
  have hmask : (n &&& 0x3F).toNat = n.toNat % 64 := by
    rw [UInt32.toNat_and]
    exact Nat.and_two_pow_sub_one_eq_mod n.toNat 6
  rw [alphabetAt, hmask]
  exact hall _ (Nat.mod_lt _ (by decide))

theorem alphabetAt_ne_padding (n : UInt32) : alphabetAt n ≠ 61 := by
  intro heq
  have hsextet := sextet_alphabetAt n
  rw [heq] at hsextet
  cases hsextet

theorem toNat_shiftRight (n : UInt32) {k : Nat} (hk : k < 32) :
    (n >>> UInt32.ofNat k).toNat = n.toNat / 2 ^ k := by
  have hk' : (UInt32.ofNat k).toNat = k := UInt32.toNat_ofNat_of_lt' (hk.trans (by decide))
  rw [UInt32.toNat_shiftRight, hk', Nat.mod_eq_of_lt hk, Nat.shiftRight_eq_div_pow]

/-- Three bytes in front of each other. -/
theorem toNat_group (b₀ b₁ b₂ : UInt8) :
    ((b₀.toUInt32 <<< 16) ||| (b₁.toUInt32 <<< 8) ||| b₂.toUInt32).toNat =
      b₀.toNat * 65536 + b₁.toNat * 256 + b₂.toNat := by
  have h₀ := b₀.toNat_lt
  have h₁ := b₁.toNat_lt
  have h₂ := b₂.toNat_lt
  -- nothing is shifted out, so the disjunctions are sums
  have hhigh : (b₀.toUInt32 <<< 16).toNat = b₀.toNat <<< 16 := by
    rw [UInt32.toNat_shiftLeft, UInt8.toNat_toUInt32]
    have h16 : (16 : UInt32).toNat % 32 = 16 := rfl
    rw [h16, Nat.mod_eq_of_lt]
    rw [Nat.shiftLeft_eq]
    omega
  have hmiddle : (b₁.toUInt32 <<< 8).toNat = b₁.toNat <<< 8 := by
    rw [UInt32.toNat_shiftLeft, UInt8.toNat_toUInt32]
    have h8 : (8 : UInt32).toNat % 32 = 8 := rfl
    rw [h8, Nat.mod_eq_of_lt]
    rw [Nat.shiftLeft_eq]
    omega
  rw [UInt32.toNat_or, UInt32.toNat_or, UInt8.toNat_toUInt32, hhigh, hmiddle, Nat.or_assoc,
    ← Nat.shiftLeft_add_eq_or_of_lt (i := 8) (by omega),
    ← Nat.shiftLeft_add_eq_or_of_lt (i := 16) (by rw [Nat.shiftLeft_eq]; omega), Nat.shiftLeft_eq,
    Nat.shiftLeft_eq]
  omega

/-- The four characters of three bytes. -/
theorem quantum_group (b₀ b₁ b₂ : UInt8) :
    let n := (b₀.toUInt32 <<< 16) ||| (b₁.toUInt32 <<< 8) ||| b₂.toUInt32
    Base64.quantum (alphabetAt (n >>> 18)) (alphabetAt (n >>> 12)) (alphabetAt (n >>> 6))
      (alphabetAt n) = some [b₀, b₁, b₂] := by
  intro n
  have hn : n.toNat = b₀.toNat * 65536 + b₁.toNat * 256 + b₂.toNat := toNat_group b₀ b₁ b₂
  have h₀ := b₀.toNat_lt
  have h₁ := b₁.toNat_lt
  have h₂ := b₂.toNat_lt
  have h18 : (n >>> 18).toNat = n.toNat / 2 ^ 18 := toNat_shiftRight n (by decide)
  have h12 : (n >>> 12).toNat = n.toNat / 2 ^ 12 := toNat_shiftRight n (by decide)
  have h6 : (n >>> 6).toNat = n.toNat / 2 ^ 6 := toNat_shiftRight n (by decide)
  simp only [Base64.quantum, sextet_alphabetAt, h18, h12, h6, hn, Option.bind_eq_bind,
    Option.bind_some, Option.pure_def, Option.some.injEq, List.cons.injEq, and_true]
  refine ⟨?_, ?_, ?_⟩
  · rw [← UInt8.toNat_inj, UInt8.toNat_ofNat']
    omega
  · rw [← UInt8.toNat_inj, UInt8.toNat_ofNat']
    omega
  · rw [← UInt8.toNat_inj, UInt8.toNat_ofNat']
    omega

/-- The characters in front of the padding leave no bits over. -/
theorem quantumTwo_group (b₀ b₁ : UInt8) :
    let n := (b₀.toUInt32 <<< 16) ||| (b₁.toUInt32 <<< 8)
    Base64.quantumTwo (alphabetAt (n >>> 18)) (alphabetAt (n >>> 12)) (alphabetAt (n >>> 6)) =
      some [b₀, b₁] := by
  intro n
  have hn : n.toNat = b₀.toNat * 65536 + b₁.toNat * 256 := by
    have hgroup := toNat_group b₀ b₁ 0
    have hzero : (0 : UInt8).toUInt32 = 0 := rfl
    have hnat : (0 : UInt8).toNat = 0 := rfl
    rw [hzero, UInt32.or_zero, hnat, Nat.add_zero] at hgroup
    exact hgroup
  have h₀ := b₀.toNat_lt
  have h₁ := b₁.toNat_lt
  have h18 : (n >>> 18).toNat = n.toNat / 2 ^ 18 := toNat_shiftRight n (by decide)
  have h12 : (n >>> 12).toNat = n.toNat / 2 ^ 12 := toNat_shiftRight n (by decide)
  have h6 : (n >>> 6).toNat = n.toNat / 2 ^ 6 := toNat_shiftRight n (by decide)
  -- the bits that the strict decoder wants to be zero
  have hzero : n.toNat / 2 ^ 6 % 64 % 4 = 0 := by
    rw [hn]
    omega
  simp only [Base64.quantumTwo, sextet_alphabetAt, h18, h12, h6, Option.bind_eq_bind,
    Option.bind_some, Option.pure_def]
  rw [if_pos hzero, hn]
  simp only [Option.some.injEq, List.cons.injEq, and_true]
  refine ⟨?_, ?_⟩
  · rw [← UInt8.toNat_inj, UInt8.toNat_ofNat']
    omega
  · rw [← UInt8.toNat_inj, UInt8.toNat_ofNat']
    omega

theorem quantumOne_group (b₀ : UInt8) :
    let n := b₀.toUInt32 <<< 16
    Base64.quantumOne (alphabetAt (n >>> 18)) (alphabetAt (n >>> 12)) = some [b₀] := by
  intro n
  have hn : n.toNat = b₀.toNat * 65536 := by
    have hgroup := toNat_group b₀ 0 0
    have hzero : (0 : UInt8).toUInt32 = 0 := rfl
    have hshift : (0 : UInt32) <<< 8 = 0 := rfl
    have hnat : (0 : UInt8).toNat = 0 := rfl
    rw [hzero, hshift, UInt32.or_zero, UInt32.or_zero, hnat, Nat.zero_mul, Nat.add_zero] at hgroup
    exact hgroup
  have h₀ := b₀.toNat_lt
  have h18 : (n >>> 18).toNat = n.toNat / 2 ^ 18 := toNat_shiftRight n (by decide)
  have h12 : (n >>> 12).toNat = n.toNat / 2 ^ 12 := toNat_shiftRight n (by decide)
  -- likewise, with two bytes missing
  have hzero : n.toNat / 2 ^ 12 % 64 % 16 = 0 := by
    rw [hn]
    omega
  simp only [Base64.quantumOne, sextet_alphabetAt, h18, h12, Option.bind_eq_bind,
    Option.bind_some, Option.pure_def]
  rw [if_pos hzero, hn]
  simp only [Option.some.injEq, List.cons.injEq, and_true]
  rw [← UInt8.toNat_inj, UInt8.toNat_ofNat']
  omega

/-- Base64 has four characters for every three bytes that are begun. -/
theorem length_base64Encode (bytes : Bytes) :
    (base64Encode bytes).length = 4 * ((bytes.length + 2) / 3) := by
  induction bytes using base64Encode.induct with
  | case1 b₀ b₁ b₂ rest ih =>
    simp only [base64Encode, List.length_cons, ih]
    omega
  | case2 b₀ b₁ => simp [base64Encode]
  | case3 b₀ => simp [base64Encode]
  | case4 => rfl

theorem decode_base64Encode (bytes : Bytes) : Base64.decode (base64Encode bytes) = some bytes := by
  induction bytes using base64Encode.induct with
  | case1 b₀ b₁ b₂ rest ih => exact Base64.decode_append (quantum_group b₀ b₁ b₂) ih
  | case2 b₀ b₁ =>
    simp only [base64Encode, Base64.decode, List.isEmpty_nil, if_true, Base64.lastQuantum]
    rw [if_neg (alphabetAt_ne_padding _)]
    exact quantumTwo_group b₀ b₁
  | case3 b₀ =>
    simp only [base64Encode, Base64.decode, List.isEmpty_nil, if_true, Base64.lastQuantum]
    exact quantumOne_group b₀
  | case4 => rfl

/-- A strict decoder reads a blob back, and no character is missing or left over. -/
theorem base64_faithful (bytes : Bytes) :
    (base64Encode bytes).length = 4 * ((bytes.length + 2) / 3) ∧
      Base64.decode (base64Encode bytes) = some bytes :=
  ⟨length_base64Encode bytes, decode_base64Encode bytes⟩

end JsonEncoder

end OpenDB
