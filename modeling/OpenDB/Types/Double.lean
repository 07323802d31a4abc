import Mathlib.Tactic

/-!
# IEEE 754 binary64

A `double` is its 64-bit pattern. Comparison needs no arithmetic: the non-NaN patterns are ordered
as sign and magnitude, with the two zeros identified (`orderKey`), and every comparison with a NaN is
false. `ofInt` is the conversion of an integer, to the nearest double with ties to even. On the
integers up to `2 ^ 53` it is exact, hence strictly monotone (`orderKey_ofInt_lt`).
-/

set_option autoImplicit false

namespace OpenDB

/-- A C++ `double`, as its bit pattern. -/
structure Double where
  bits : UInt64
  deriving DecidableEq, Repr

namespace Double

/-- The pattern without its sign bit. -/
def magnitude (d : Double) : Nat := d.bits.toNat % 2 ^ 63

def isNegative (d : Double) : Bool := 2 ^ 63 ≤ d.bits.toNat

/-- All exponent bits set and a fraction other than zero. -/
def isNaN (d : Double) : Bool := 0x7FF0000000000000 < d.magnitude

/-- Position of a non-NaN double in the numeric order. -/
def orderKey (d : Double) : Int := if d.isNegative then -(d.magnitude : Int) else d.magnitude

/-- The C++ operator `<`. -/
def lt (a b : Double) : Bool := !a.isNaN && !b.isNaN && decide (a.orderKey < b.orderKey)

/-- The C++ operator `==`. -/
def eq (a b : Double) : Bool := !a.isNaN && !b.isNaN && decide (a.orderKey = b.orderKey)

/-- The significand of `m`, whose top bit is bit `e`, rounded to 53 bits, ties to even. -/
def significand (m e : Nat) : Nat :=
  if e ≤ 52 then m * 2 ^ (52 - e)
  else
    let q := m / 2 ^ (e - 52)
    let r := m % 2 ^ (e - 52)
    let half := 2 ^ (e - 53)
    if half < r ∨ (r = half ∧ q % 2 = 1) then q + 1 else q

/-- Magnitude pattern of the double nearest to `m`. A significand that rounds up to `2 ^ 53` carries
into the exponent field. -/
def natPattern (m : Nat) : Nat :=
  if m = 0 then 0 else (m.log2 + 1022) * 2 ^ 52 + significand m m.log2

/-- `static_cast<double>` of an integer. -/
def ofInt (n : Int) : Double :=
  ⟨UInt64.ofNat (natPattern n.natAbs + if n < 0 then 2 ^ 63 else 0)⟩

theorem significand_le {m e : Nat} (h : m < 2 ^ (e + 1)) : significand m e ≤ 2 ^ 53 := by
  unfold significand
  by_cases he : e ≤ 52
  · rw [if_pos he]
    have hm : m * 2 ^ (52 - e) ≤ 2 ^ (e + 1) * 2 ^ (52 - e) :=
      Nat.mul_le_mul_right _ h.le
    have hpow : 2 ^ (e + 1) * 2 ^ (52 - e) = 2 ^ 53 := by
      rw [← pow_add]
      congr 1
      omega
    omega
  · rw [if_neg he]
    have hq : m / 2 ^ (e - 52) < 2 ^ 53 := by
      rw [Nat.div_lt_iff_lt_mul (by positivity), ← pow_add]
      have : 53 + (e - 52) = e + 1 := by omega
      rwa [this]
    dsimp only
    split <;> omega

theorem natPattern_lt {m : Nat} (h : m < 2 ^ 64) : natPattern m < 0x7FF0000000000000 := by
  unfold natPattern
  by_cases hm : m = 0
  · simp [hm]
  · rw [if_neg hm]
    have hlog : m.log2 < 64 := (Nat.log2_lt hm).2 h
    have hsig : significand m m.log2 ≤ 2 ^ 53 := significand_le Nat.lt_log2_self
    have hexp : (m.log2 + 1022) * 2 ^ 52 ≤ 1085 * 2 ^ 52 := Nat.mul_le_mul_right _ (by omega)
    omega

theorem magnitude_ofInt {n : Int} (h : n.natAbs < 2 ^ 64) :
    (ofInt n).magnitude = natPattern n.natAbs := by
  have hlt := natPattern_lt h
  unfold magnitude ofInt
  rw [UInt64.toNat_ofNat']
  split <;> omega

theorem isNegative_ofInt {n : Int} (h : n.natAbs < 2 ^ 64) :
    (ofInt n).isNegative = decide (n < 0) := by
  have hlt := natPattern_lt h
  unfold isNegative ofInt
  rw [UInt64.toNat_ofNat']
  by_cases hn : n < 0
  · simp only [hn, if_true, decide_true, decide_eq_true_eq]
    omega
  · simp only [hn, if_false, decide_false, decide_eq_false_iff_not]
    omega

/-- An integer of at most 64 bits never converts to a NaN. -/
theorem isNaN_ofInt {n : Int} (h : n.natAbs < 2 ^ 64) : (ofInt n).isNaN = false := by
  unfold isNaN
  rw [magnitude_ofInt h]
  have := natPattern_lt h
  simp only [decide_eq_false_iff_not]
  omega

/-- Below `2 ^ 53` the pattern grows strictly with the number. -/
theorem natPattern_strictMono {a b : Nat} (hab : a < b) (hb : b < 2 ^ 53) :
    natPattern a < natPattern b := by
  have hb0 : b ≠ 0 := by omega
  have hblog : b.log2 < 53 := (Nat.log2_lt hb0).2 hb
  have hbself : 2 ^ b.log2 ≤ b := Nat.log2_self_le hb0
  have hsig : ∀ m : Nat, m.log2 < 53 → significand m m.log2 = m * 2 ^ (52 - m.log2) := by
    intro m hm
    unfold significand
    rw [if_pos (by omega)]
  have hbase : 2 ^ b.log2 * 2 ^ (52 - b.log2) = 2 ^ 52 := by
    rw [← pow_add]
    congr 1
    omega
  unfold natPattern
  rw [if_neg hb0, hsig b hblog]
  by_cases ha0 : a = 0
  · rw [if_pos ha0]
    positivity
  · rw [if_neg ha0]
    have halog : a.log2 < 53 := (Nat.log2_lt ha0).2 (by omega)
    rw [hsig a halog]
    have hle : a.log2 ≤ b.log2 := by
      have h1 : 2 ^ a.log2 ≤ a := Nat.log2_self_le ha0
      have h2 : b < 2 ^ (b.log2 + 1) := Nat.lt_log2_self
      have h3 : 2 ^ a.log2 < 2 ^ (b.log2 + 1) := by omega
      have := (Nat.pow_lt_pow_iff_right (by norm_num : 1 < 2)).1 h3
      omega
    rcases hle.lt_or_eq with hlt | heq
    · -- a smaller exponent: the whole range of `a` lies below the range of `b`
      have hmul : a * 2 ^ (52 - a.log2) ≤ 2 ^ (a.log2 + 1) * 2 ^ (52 - a.log2) :=
        Nat.mul_le_mul_right _ (Nat.lt_log2_self).le
      have hpow : 2 ^ (a.log2 + 1) * 2 ^ (52 - a.log2) = 2 ^ 53 := by
        rw [← pow_add]
        congr 1
        omega
      have hlow : 2 ^ 52 ≤ b * 2 ^ (52 - b.log2) := by
        rw [← hbase]
        exact Nat.mul_le_mul_right _ hbself
      have hexp : (a.log2 + 1 + 1022) * 2 ^ 52 ≤ (b.log2 + 1022) * 2 ^ 52 :=
        Nat.mul_le_mul_right _ (by omega)
      have hltmul : a * 2 ^ (52 - a.log2) < 2 ^ 53 := by
        rw [← hpow]
        exact Nat.mul_lt_mul_of_pos_right Nat.lt_log2_self (by positivity)
      omega
    · rw [heq]
      have : a * 2 ^ (52 - b.log2) < b * 2 ^ (52 - b.log2) :=
        Nat.mul_lt_mul_of_pos_right hab (by positivity)
      omega

theorem natPattern_lt_two_pow {a : Nat} (ha : a < 2 ^ 53) : natPattern a < natPattern (2 ^ 53) := by
  have hpow : natPattern (2 ^ 53) = 1076 * 2 ^ 52 := by decide
  rw [hpow]
  unfold natPattern
  by_cases ha0 : a = 0
  · rw [if_pos ha0]
    norm_num
  · have halog : a.log2 < 53 := (Nat.log2_lt ha0).2 ha
    have hsig : significand a a.log2 < 2 ^ 53 := by
      unfold significand
      rw [if_pos (by omega)]
      calc a * 2 ^ (52 - a.log2) < 2 ^ (a.log2 + 1) * 2 ^ (52 - a.log2) :=
            Nat.mul_lt_mul_of_pos_right Nat.lt_log2_self (by positivity)
        _ = 2 ^ 53 := by
            rw [← pow_add]
            congr 1
            omega
    rw [if_neg ha0]
    omega

/-- Natural numbers up to `2 ^ 53` keep their order. -/
theorem orderKey_ofInt_lt {a b : Nat} (hab : a < b) (hb : b ≤ 2 ^ 53) :
    (ofInt a).orderKey < (ofInt b).orderKey := by
  have key : ∀ m : Nat, m ≤ 2 ^ 53 → (ofInt m).orderKey = natPattern m := by
    intro m hm
    have hm' : (m : Int).natAbs < 2 ^ 64 := by simp; omega
    unfold orderKey
    rw [isNegative_ofInt hm', magnitude_ofInt hm']
    simp
  rw [key a (by omega), key b hb]
  rcases hb.lt_or_eq with hlt | rfl
  · exact_mod_cast natPattern_strictMono hab hlt
  · exact_mod_cast natPattern_lt_two_pow hab

/-- The conversion rounds: the first two integers it identifies. -/
example : ofInt (2 ^ 53) = ofInt (2 ^ 53 + 1) := by decide

end Double

end OpenDB
