import OpenDB.Types.Decoder
import OpenDB.Types.Double

/-!
# Numbers read from text

The character classes of the C locale and the number readers of the C and C++ libraries that the
frontends use: `strtoll` and `atoi` saturate and read nothing as zero, `stoull` throws when there is no
digit or the number does not fit and takes a minus sign modulo `2 ^ 64`, and `strtod` gives the nearest
double, ties to even, and infinity beyond the largest.
-/

set_option autoImplicit false

namespace OpenDB

/-! ## Characters -/

def isSpace (c : UInt8) : Bool := c == 32 || (9 ≤ c && c ≤ 13)

def isDigit (c : UInt8) : Bool := 48 ≤ c && c ≤ 57

def isAlpha (c : UInt8) : Bool := (65 ≤ c && c ≤ 90) || (97 ≤ c && c ≤ 122)

def isAlnum (c : UInt8) : Bool := isAlpha c || isDigit c

def toUpper (c : UInt8) : UInt8 := if 97 ≤ c && c ≤ 122 then c - 32 else c

/-- A letter is one in either case. -/
theorem isAlpha_toUpper (c : UInt8) : isAlpha (toUpper c) = isAlpha c := by
  rw [toUpper]
  split_ifs with h
  · simp only [Bool.and_eq_true, decide_eq_true_eq, UInt8.le_iff_toNat_le] at h
    have h97 : (97 : UInt8).toNat = 97 := rfl
    have h122 : (122 : UInt8).toNat = 122 := rfl
    have hsub : (c - 32).toNat = c.toNat - 32 := UInt8.toNat_sub_of_le c 32 (by
      rw [UInt8.le_iff_toNat_le]
      have h32 : (32 : UInt8).toNat = 32 := rfl
      omega)
    rw [Bool.eq_iff_iff]
    simp only [isAlpha, Bool.or_eq_true, Bool.and_eq_true, decide_eq_true_eq,
      UInt8.le_iff_toNat_le, hsub]
    have h65 : (65 : UInt8).toNat = 65 := rfl
    have h90 : (90 : UInt8).toNat = 90 := rfl
    omega
  · rfl

/-! ## Integers -/

/-- The number that a text of digits denotes. -/
def digitsValue (digits : Bytes) : Nat := digits.foldl (fun n c => 10 * n + (c.toNat - 48)) 0

/-- An optional sign: whether it is a minus, and the text behind it. -/
def readSign : Bytes → Bool × Bytes
  | 43 :: rest => (false, rest)
  | 45 :: rest => (true, rest)
  | text => (false, text)

/-- The sign and the digits that `strtoll` and its relatives read. -/
def readInteger (text : Bytes) : Bool × Bytes :=
  let (negative, rest) := readSign (text.dropWhile isSpace)
  (negative, rest.takeWhile isDigit)

/-- `std::strtoll` with base 10. -/
def strtoll (text : Bytes) : Int64 :=
  let (negative, digits) := readInteger text
  let n := digitsValue digits
  if negative then Int64.ofInt (-(min n (2 ^ 63) : Nat)) else Int64.ofNat (min n (2 ^ 63 - 1))

/-- `std::atoi`. -/
def atoi (text : Bytes) : Int32 := (strtoll text).toInt32

/-- `std::stoull`; nothing when it throws. -/
def stoull (text : Bytes) : Option UInt64 :=
  let (negative, digits) := readInteger text
  let n := digitsValue digits
  if digits.isEmpty || decide (2 ^ 64 ≤ n) then none
  else if negative then some (0 - UInt64.ofNat n)
  else some (UInt64.ofNat n)

/-- Without a digit or sign in front there is nothing to read. -/
theorem stoull_eq_none {c : UInt8} {rest : Bytes} (hspace : isSpace c = false)
    (hdigit : isDigit c = false) (hplus : c ≠ 43) (hminus : c ≠ 45) : stoull (c :: rest) = none := by
  have hdrop : (c :: rest).dropWhile isSpace = c :: rest := by simp [hspace]
  have hsign : readSign (c :: rest) = (false, c :: rest) := by
    unfold readSign
    split
    · simp_all
    · simp_all
    · rfl
  simp [stoull, readInteger, hdrop, hsign, hdigit]

/-! ## Doubles -/

namespace Double

def signBit (negative : Bool) : Nat := if negative then 2 ^ 63 else 0

/-- `n / d`, rounded to nearest, ties to even. -/
def roundDiv (n d : Nat) : Nat :=
  let q := n / d
  let r := 2 * (n % d)
  if d < r ∨ (r = d ∧ q % 2 = 1) then q + 1 else q

/-- The place value `2 ^ k` of the last bit of the significand of `n / d`. -/
def lastPlace (n d : Nat) : Int :=
  let k : Int := (n.log2 : Int) - d.log2 - 52
  let below := if 0 ≤ k + 52 then n < d * 2 ^ (k + 52).toNat else n * 2 ^ (-(k + 52)).toNat < d
  max (-1074) (if below then k - 1 else k)

/-- Magnitude pattern of the double nearest to `n / d`. -/
def ratioPattern (n d : Nat) : Nat :=
  let k := lastPlace n d
  let q := if 0 ≤ k then roundDiv n (d * 2 ^ k.toNat) else roundDiv (n * 2 ^ (-k).toNat) d
  min 0x7FF0000000000000 ((k + 1074).toNat * 2 ^ 52 + q)

/-- The double nearest to `± m * 10 ^ e`. -/
def ofDecimal (negative : Bool) (m : Nat) (e : Int) : Double :=
  let pattern :=
    if m = 0 then 0
    else if 400 < e then 0x7FF0000000000000
    else if e < -400 - (m.log2 : Int) then 0
    else if 0 ≤ e then ratioPattern (m * 10 ^ e.toNat) 1
    else ratioPattern m (10 ^ (-e).toNat)
  ⟨UInt64.ofNat (signBit negative + pattern)⟩

end Double

/-- The exponent behind an `e`; without a digit it does not count. -/
def readExponent (text : Bytes) : Int :=
  match text with
  | [] => 0
  | c :: rest =>
    if c = 101 ∨ c = 69 then
      let (negative, rest) := readSign rest
      let n := digitsValue (rest.takeWhile isDigit)
      if negative then -(n : Int) else n
    else 0

/-- `std::strtod` on a text without hexadecimal digits. -/
def strtod (text : Bytes) : Double :=
  let (negative, rest) := readSign (text.dropWhile isSpace)
  let whole := rest.takeWhile isDigit
  let rest := rest.dropWhile isDigit
  let fraction := match rest with
    | 46 :: rest => rest.takeWhile isDigit
    | _ => []
  let rest := match rest with
    | 46 :: rest => rest.dropWhile isDigit
    | rest => rest
  if whole.isEmpty && fraction.isEmpty then .ofDecimal false 0 0
  else .ofDecimal negative (digitsValue (whole ++ fraction)) (readExponent rest - fraction.length)

example : strtod (ascii "-1.5") = ⟨0xBFF8000000000000⟩ := by decide +kernel

example : strtod (ascii "0.1") = ⟨0x3FB999999999999A⟩ := by decide +kernel

example : strtod (ascii "1e400") = ⟨0x7FF0000000000000⟩ := by decide +kernel

end OpenDB
