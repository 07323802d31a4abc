import Mathlib.Tactic

/-!
# Rounding to significant bits

`roundBits p m` is the number nearest to `m` that has no more than `p` significant bits; of two that are
equally near it is the one with the even last digit. It keeps the order (`roundBits_mono`) but not
strictly: numbers of at most `p` bits stay as they are (`roundBits_of_le`), and of the others a whole
neighbourhood is rounded to one (`roundBits_error`).
-/

set_option autoImplicit false

namespace OpenDB.Library

/-- The quotient to the nearest, ties to even. -/
def divNearest (m d : Nat) : Nat :=
  if d < 2 * (m % d) ∨ (2 * (m % d) = d ∧ m / d % 2 = 1) then m / d + 1 else m / d

/-- The place of the last of `p` significant bits. -/
def lastBit (p m : Nat) : Nat := m.log2 + 1 - p

/-- The nearest number of `p` significant bits. -/
def roundBits (p m : Nat) : Nat := divNearest m (2 ^ lastBit p m) * 2 ^ lastBit p m

/-! ## Quotients -/

variable {m n d p : Nat}

theorem le_divNearest (m d : Nat) : m / d ≤ divNearest m d := by
  rw [divNearest]
  split_ifs <;> omega

theorem divNearest_le (m d : Nat) : divNearest m d ≤ m / d + 1 := by
  rw [divNearest]
  split_ifs <;> omega

theorem divNearest_mono (h : m ≤ n) : divNearest m d ≤ divNearest n d := by
  rcases (Nat.div_le_div_right h : m / d ≤ n / d).lt_or_eq with hlt | heq
  · exact (divNearest_le m d).trans (hlt.trans_le (le_divNearest n d))
  · -- the same quotient, so the remainders are in order
    have hm := Nat.div_add_mod m d
    have hn := Nat.div_add_mod n d
    rw [heq] at hm
    have hmod : m % d ≤ n % d := by omega
    rw [divNearest, divNearest, heq]
    split_ifs <;> omega

/-- The quotient is off by at most a half. -/
theorem divNearest_error (hd : 0 < d) :
    2 * m ≤ 2 * (divNearest m d * d) + d ∧ 2 * (divNearest m d * d) ≤ 2 * m + d := by
  have hm := Nat.div_add_mod' m d
  have hlt := Nat.mod_lt m hd
  rw [divNearest]
  split_ifs
  · rw [Nat.add_mul, Nat.one_mul]
    omega
  · omega

theorem divNearest_of_dvd (h : d ∣ m) : divNearest m d * d = m := by
  have hmod := Nat.mod_eq_zero_of_dvd h
  rcases Nat.eq_zero_or_pos d with rfl | hd
  · rw [Nat.mul_zero, Nat.eq_zero_of_zero_dvd h]
  · rw [divNearest, if_neg (by omega), Nat.div_mul_cancel h]

/-! ## Significant bits -/

theorem roundBits_error (p m : Nat) :
    2 * m ≤ 2 * roundBits p m + 2 ^ lastBit p m ∧
      2 * roundBits p m ≤ 2 * m + 2 ^ lastBit p m :=
  divNearest_error (Nat.two_pow_pos _)

theorem roundBits_of_dvd (h : 2 ^ lastBit p m ∣ m) : roundBits p m = m := divNearest_of_dvd h

/-- A number of at most `p` bits stays as it is, and so does the one behind them. -/
theorem roundBits_of_le (hp : 0 < p) (h : m ≤ 2 ^ p) : roundBits p m = m := by
  refine roundBits_of_dvd ?_
  rcases h.lt_or_eq with hlt | rfl
  · rcases Nat.eq_zero_or_pos m with rfl | hm
    · exact dvd_zero _
    · have hlog := (Nat.log2_lt hm.ne').2 hlt
      rw [lastBit, Nat.sub_eq_zero_of_le (by omega), pow_zero]
      exact one_dvd m
  · rw [lastBit, Nat.log2_two_pow]
    exact pow_dvd_pow 2 (by omega)

/-- Rounding does not leave the numbers of one length, but for the next power. -/
theorem roundBits_bounds (hp : 0 < p) (hm : m ≠ 0) :
    2 ^ m.log2 ≤ roundBits p m ∧ roundBits p m ≤ 2 ^ (m.log2 + 1) := by
  have hk : lastBit p m ≤ m.log2 := by
    rw [lastBit]
    omega
  have hlow : 2 ^ (m.log2 - lastBit p m) ≤ m / 2 ^ lastBit p m := by
    rw [Nat.le_div_iff_mul_le (Nat.two_pow_pos _), ← pow_add, Nat.sub_add_cancel hk]
    exact Nat.log2_self_le hm
  have hhigh : m / 2 ^ lastBit p m < 2 ^ (m.log2 + 1 - lastBit p m) := by
    rw [Nat.div_lt_iff_lt_mul (Nat.two_pow_pos _), ← pow_add, Nat.sub_add_cancel (by omega)]
    exact Nat.lt_log2_self
  constructor
  · calc 2 ^ m.log2 = 2 ^ (m.log2 - lastBit p m) * 2 ^ lastBit p m := by
          rw [← pow_add, Nat.sub_add_cancel hk]
      _ ≤ roundBits p m := Nat.mul_le_mul_right _ (hlow.trans (le_divNearest _ _))
  · calc roundBits p m ≤ 2 ^ (m.log2 + 1 - lastBit p m) * 2 ^ lastBit p m :=
          Nat.mul_le_mul_right _ ((divNearest_le _ _).trans hhigh)
      _ = 2 ^ (m.log2 + 1) := by rw [← pow_add, Nat.sub_add_cancel (by omega)]

theorem roundBits_zero (p : Nat) : roundBits p 0 = 0 := roundBits_of_dvd (dvd_zero _)

theorem roundBits_pos (hp : 0 < p) (hm : m ≠ 0) : 0 < roundBits p m :=
  (Nat.two_pow_pos _).trans_le (roundBits_bounds hp hm).1

theorem roundBits_mono (hp : 0 < p) (h : m ≤ n) : roundBits p m ≤ roundBits p n := by
  rcases Nat.eq_zero_or_pos m with rfl | hm
  · rw [roundBits_zero]
    exact Nat.zero_le _
  have hlog : m.log2 ≤ n.log2 := by
    rw [Nat.le_log2 (by omega)]
    exact (Nat.log2_self_le hm.ne').trans h
  rcases hlog.lt_or_eq with hlt | heq
  · -- a shorter number does not get beyond the next power
    calc roundBits p m ≤ 2 ^ (m.log2 + 1) := (roundBits_bounds hp hm.ne').2
      _ ≤ 2 ^ n.log2 := Nat.pow_le_pow_right (by omega) hlt
      _ ≤ roundBits p n := (roundBits_bounds hp (by omega)).1
  · rw [roundBits, roundBits, lastBit, lastBit, heq]
    exact Nat.mul_le_mul_right _ (divNearest_mono h)

/-! ## Signed numbers -/

/-- The nearest integer of `p` significant bits. -/
def roundInt (p : Nat) (n : Int) : Int :=
  if n < 0 then -(roundBits p n.natAbs : Int) else roundBits p n.natAbs

theorem roundInt_of_natAbs_le {n : Int} (hp : 0 < p) (h : n.natAbs ≤ 2 ^ p) : roundInt p n = n := by
  rw [roundInt, roundBits_of_le hp h]
  split_ifs <;> omega

theorem roundInt_mono (hp : 0 < p) {a b : Int} (h : a ≤ b) : roundInt p a ≤ roundInt p b := by
  rw [roundInt, roundInt]
  split_ifs with ha hb
  · have := roundBits_mono hp (show b.natAbs ≤ a.natAbs by omega)
    omega
  · omega
  · omega
  · have := roundBits_mono hp (show a.natAbs ≤ b.natAbs by omega)
    omega

/-- Integers that stay apart keep their order. -/
theorem roundInt_lt_iff (hp : 0 < p) {a b : Int} (hne : roundInt p a ≠ roundInt p b) :
    roundInt p a < roundInt p b ↔ a < b := by
  constructor
  · intro h
    by_contra hle
    exact absurd (roundInt_mono hp (not_lt.1 hle)) (not_le.2 h)
  · exact fun h => lt_of_le_of_ne (roundInt_mono hp h.le) hne

/-- The rounding error of an integer of at most `e` bits, doubled. -/
theorem roundInt_error {e : Nat} {n : Int} (hp : 0 < p) (h : n.natAbs ≤ 2 ^ e) :
    2 * n ≤ 2 * roundInt p n + (2 ^ (e - p) : Nat) ∧
      2 * roundInt p n ≤ 2 * n + (2 ^ (e - p) : Nat) := by
  have herror : 2 * n.natAbs ≤ 2 * roundBits p n.natAbs + 2 ^ (e - p) ∧
      2 * roundBits p n.natAbs ≤ 2 * n.natAbs + 2 ^ (e - p) := by
    rcases h.lt_or_eq with hlt | heq
    · have hplace : 2 ^ lastBit p n.natAbs ≤ 2 ^ (e - p) := by
        refine Nat.pow_le_pow_right (by omega) ?_
        rw [lastBit]
        rcases Nat.eq_zero_or_pos n.natAbs with hzero | hpos
        · rw [hzero, Nat.log2_zero]
          omega
        · have := (Nat.log2_lt hpos.ne').2 hlt
          omega
      have := roundBits_error p n.natAbs
      omega
    · -- a power of two stays as it is
      have hdvd : 2 ^ lastBit p (2 ^ e) ∣ 2 ^ e := by
        rw [lastBit, Nat.log2_two_pow]
        exact pow_dvd_pow 2 (by omega)
      rw [heq, roundBits_of_dvd hdvd]
      exact ⟨Nat.le_add_right _ _, Nat.le_add_right _ _⟩
  rw [roundInt]
  split_ifs <;> omega

end OpenDB.Library
