import OpenDB.Types.Value

/-!
# Values as text

`Value::toString` with the printers it uses: decimal integers, `std::to_string` of a double (six
digits after the point, the exact value rounded to nearest, ties to even), and the ISO dates of
`dateToIso` and `timestampToIso`. Signed 32-bit arithmetic wraps here.
-/

set_option autoImplicit false

namespace OpenDB

/-! ## Numbers -/

/-- The decimal digits of a natural number. -/
def decimal (n : Nat) : Bytes := (Nat.toDigits 10 n).map fun c => UInt8.ofNat c.toNat

/-- A digit survives as a byte. -/
theorem ofNat_toNat_digit {c : Char} (h : c.isDigit) :
    Char.ofNat (UInt8.ofNat c.toNat).toNat = c := by
  simp only [Char.isDigit, Bool.and_eq_true, decide_eq_true_eq] at h
  have hlt : c.toNat < 256 := by
    have hle : c.toNat ≤ 57 := UInt32.le_iff_toNat_le.1 h.2
    omega
  rw [UInt8.toNat_ofNat_of_lt' hlt, Char.ofNat_toNat]

theorem decimal_injective : Function.Injective decimal := by
  have hback : ∀ n, (decimal n).map (fun b => Char.ofNat b.toNat) = Nat.toDigits 10 n := by
    intro n
    rw [decimal, List.map_map]
    calc (Nat.toDigits 10 n).map _ = (Nat.toDigits 10 n).map id :=
          List.map_congr_left fun c hc =>
            ofNat_toNat_digit (Nat.isDigit_of_mem_toDigits (by decide) (by decide) hc)
      _ = Nat.toDigits 10 n := List.map_id _
  intro m n h
  have hdigits : Nat.toDigits 10 m = Nat.toDigits 10 n := by rw [← hback m, ← hback n, h]
  rw [← Nat.ofDigitChars_ten_toDigits (n := m), hdigits, Nat.ofDigitChars_ten_toDigits]

/-- `std::to_string` of an integer. -/
def signedDecimal (n : Int) : Bytes :=
  if n < 0 then ascii "-" ++ decimal n.natAbs else decimal n.natAbs

/-- `%0<width>d`: zeros between the sign and the digits. -/
def zeroPadded (width : Nat) (n : Int) : Bytes :=
  let sign := if n < 0 then ascii "-" else []
  let digits := decimal n.natAbs
  sign ++ (List.replicate (width - sign.length - digits.length) 48 ++ digits)

namespace Double

/-- A finite double is `± mantissa * 2 ^ (exponent - 1075)`. -/
def mantissa (d : Double) : Nat :=
  if d.magnitude / 2 ^ 52 = 0 then d.magnitude % 2 ^ 52 else 2 ^ 52 + d.magnitude % 2 ^ 52

def exponent (d : Double) : Nat := max 1 (d.magnitude / 2 ^ 52)

/-- `n / 2 ^ k`, rounded to nearest, ties to even. -/
def roundShift (n k : Nat) : Nat :=
  let q := n / 2 ^ k
  let r := 2 * (n % 2 ^ k)
  if 2 ^ k < r ∨ (r = 2 ^ k ∧ q % 2 = 1) then q + 1 else q

/-- The millionths of a finite double, without its sign. -/
def millionths (d : Double) : Nat :=
  if 1075 ≤ d.exponent then d.mantissa * 10 ^ 6 * 2 ^ (d.exponent - 1075)
  else roundShift (d.mantissa * 10 ^ 6) (1075 - d.exponent)

/-- `std::to_string`, which prints with `%f`. -/
def toText (d : Double) : Bytes :=
  let sign := if d.isNegative then ascii "-" else []
  if d.isNaN then sign ++ ascii "nan"
  else if d.magnitude = 0x7FF0000000000000 then sign ++ ascii "inf"
  else sign ++ (decimal (d.millionths / 10 ^ 6) ++
    (ascii "." ++ zeroPadded 6 (d.millionths % 10 ^ 6 : Nat)))

end Double

/-- Trailing zeros after a decimal point go, and the point with them when nothing else is left. -/
def stripZeros (s : Bytes) : Bytes :=
  if 46 ∈ s then
    let kept := (s.reverse.dropWhile (· = 48)).reverse
    if kept.getLast? = some 46 then kept.dropLast else kept
  else s

/-! ## Dates -/

/-- `dateToIso`. -/
def dateToIso (days : Int32) : Bytes :=
  let z := days + 719468
  let era := (if 0 ≤ z then z else z - 146096) / 146097
  let doe := (z - era * 146097).toUInt32
  let yoe := (doe - doe / 1460 + doe / 36524 - doe / 146096) / 365
  let y := yoe.toInt32 + era * 400
  let doy := doe - (365 * yoe + yoe / 4 - yoe / 100)
  let mp := (5 * doy + 2) / 153
  let d := doy - (153 * mp + 2) / 5 + 1
  let m := if mp < 10 then mp + 3 else mp - 9
  let y := if m ≤ 2 then y + 1 else y
  zeroPadded 4 y.toInt ++ (ascii "-" ++ (zeroPadded 2 m.toNat ++ (ascii "-" ++ zeroPadded 2 d.toNat)))

/-- `timestampToIso`. -/
def timestampToIso (millis : Int64) : Bytes :=
  let sec := millis / 1000
  let ms := millis % 1000
  let sec' := if ms < 0 then sec - 1 else sec
  let ms' := if ms < 0 then ms + 1000 else ms
  let days := (sec' / 86400).toInt32
  let rem := sec' % 86400
  let days' := if rem < 0 then days - 1 else days
  let rem' := if rem < 0 then rem + 86400 else rem
  let hh := (rem' / 3600).toInt32
  let mm := (rem' / 60 % 60).toInt32
  let ss := (rem' % 60).toInt32
  dateToIso days' ++ (ascii "T" ++ (zeroPadded 2 hh.toInt ++ (ascii ":" ++ (zeroPadded 2 mm.toInt ++
    (ascii ":" ++ (zeroPadded 2 ss.toInt ++ (ascii "." ++ (zeroPadded 3 ms'.toInt ++ ascii "Z"))))))))

/-- `Value::toString`. -/
def Value.toString : Value → Bytes
  | .null => ascii "NULL"
  | .boolean x => if x then ascii "true" else ascii "false"
  | .int32 x => signedDecimal x.toInt
  | .int64 x => signedDecimal x.toInt
  | .real d => stripZeros d.toText
  | .text x => x
  | .blob x => ascii "<blob:" ++ (decimal x.length ++ ascii "B>")
  | .date days => dateToIso days
  | .timestamp millis => timestampToIso millis

example : (Value.date 19783).toString = ascii "2024-03-01" := by decide +kernel

example : (Value.timestamp (-1)).toString = ascii "1969-12-31T23:59:59.999Z" := by decide +kernel

/-- One and a half is `0x3FF8000000000000`. -/
example : (Value.real ⟨0x3FF8000000000000⟩).toString = ascii "1.5" := by decide +kernel

end OpenDB
