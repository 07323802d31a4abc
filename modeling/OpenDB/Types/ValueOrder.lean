import OpenDB.Types.Value
import OpenDB.Library.SignificantBits
import OpenDB.Library.StrictWeak

/-!
# The order of values

`compare` puts all numbers into one bucket and compares them as doubles. On values other than NaN this
is a total preorder (`compare_totalPreorder`): it is the comparison of ranks, and `operator==` is finer
than its equality.

It is no order of the integers. A conversion rounds to 53 significant bits, and two integers compare as
what they are rounded to (`compare_int64`, `compare_timestamp`).
-/

set_option autoImplicit false

namespace OpenDB

open OpenDB.Library

namespace Double

/-! ## Patterns and numbers -/

/-- A significand of 53 bits, or the power behind them that rounding may come to. -/
def IsSignificand (s : Nat) : Prop := 2 ^ 52 ≤ s ∧ s ≤ 2 ^ 53

/-- With a larger exponent the number is larger, unless it is written with another exponent again. -/
theorem pattern_lt_iff_of_lt {e e' s s' : Nat} (hs : IsSignificand s) (hs' : IsSignificand s')
    (h : e < e') :
    (e * 2 ^ 52 + s < e' * 2 ^ 52 + s' ↔ s * 2 ^ e < s' * 2 ^ e') ∧
      e * 2 ^ 52 + s ≤ e' * 2 ^ 52 + s' ∧ s * 2 ^ e ≤ s' * 2 ^ e' := by
  obtain ⟨hlow, hhigh⟩ := hs
  obtain ⟨hlow', -⟩ := hs'
  obtain ⟨d, rfl⟩ : ∃ d, e' = d + 1 + e := ⟨e' - e - 1, by omega⟩
  rw [pow_add, ← Nat.mul_assoc, Nat.mul_lt_mul_right (Nat.two_pow_pos e),
    Nat.mul_le_mul_right_iff (Nat.two_pow_pos e)]
  cases d with
  | zero => omega
  | succ d =>
    -- two places further up nothing can be equal
    have hfar : s' * 4 ≤ s' * 2 ^ (d + 1 + 1) := by
      refine Nat.mul_le_mul_left s' ?_
      calc 4 = 2 ^ 2 := rfl
        _ ≤ 2 ^ (d + 1 + 1) := Nat.pow_le_pow_right (by decide) (by omega)
    omega

/-- An exponent and a significand as one number: they are in order as the numbers they stand for. -/
theorem pattern_lt_iff {e e' s s' : Nat} (hs : IsSignificand s) (hs' : IsSignificand s') :
    e * 2 ^ 52 + s < e' * 2 ^ 52 + s' ↔ s * 2 ^ e < s' * 2 ^ e' := by
  rcases lt_trichotomy e e' with h | rfl | h
  · exact (pattern_lt_iff_of_lt hs hs' h).1
  · rw [Nat.add_lt_add_iff_left, Nat.mul_lt_mul_right (Nat.two_pow_pos e)]
  · obtain ⟨-, hpattern, hnumber⟩ := pattern_lt_iff_of_lt hs' hs h
    exact iff_of_false (not_lt.2 hpattern) (not_lt.2 hnumber)

theorem significand_mul {m : Nat} (hm : m ≠ 0) :
    significand m m.log2 * 2 ^ m.log2 = roundBits 53 m * 2 ^ 52 := by
  rw [significand]
  split_ifs with he
  · -- a short number is not rounded
    have hlt : m < 2 ^ 53 := (Nat.log2_lt hm).1 (by omega)
    rw [roundBits_of_le (by decide) hlt.le, Nat.mul_assoc, ← pow_add, Nat.sub_add_cancel he]
  · have hplace : lastBit 53 m = m.log2 - 52 := by
      rw [lastBit]
      omega
    have hhalf : 2 ^ (m.log2 - 52) = 2 * 2 ^ (m.log2 - 53) := by
      rw [← pow_succ']
      congr 1
      omega
    have hquotient : (if 2 ^ (m.log2 - 53) < m % 2 ^ (m.log2 - 52) ∨
        m % 2 ^ (m.log2 - 52) = 2 ^ (m.log2 - 53) ∧ m / 2 ^ (m.log2 - 52) % 2 = 1
          then m / 2 ^ (m.log2 - 52) + 1 else m / 2 ^ (m.log2 - 52)) =
        divNearest m (2 ^ (m.log2 - 52)) := by
      rw [divNearest]
      congr 1
      rw [hhalf, Nat.mul_lt_mul_left (by decide), Nat.mul_left_cancel_iff (by decide)]
    dsimp only
    rw [hquotient, roundBits, hplace, Nat.mul_assoc, ← pow_add, Nat.sub_add_cancel (by omega)]

theorem isSignificand_significand {m : Nat} (hm : m ≠ 0) : IsSignificand (significand m m.log2) := by
  refine ⟨?_, significand_le Nat.lt_log2_self⟩
  have hlow := (roundBits_bounds (p := 53) (by decide) hm).1
  refine Nat.le_of_mul_le_mul_right ?_ (Nat.two_pow_pos m.log2)
  rw [significand_mul hm, Nat.mul_comm]
  exact Nat.mul_le_mul_right _ hlow

theorem natPattern_pos {m : Nat} (hm : m ≠ 0) : 0 < natPattern m := by
  rw [natPattern, if_neg hm]
  have := (isSignificand_significand hm).1
  omega

/-- Numbers have patterns in the order of what they are rounded to. -/
theorem natPattern_lt_iff {m n : Nat} : natPattern m < natPattern n ↔ roundBits 53 m < roundBits 53 n := by
  have hzero : natPattern 0 = 0 := rfl
  rcases Nat.eq_zero_or_pos n with rfl | hn
  · rw [hzero, roundBits_zero]
    simp
  rcases Nat.eq_zero_or_pos m with rfl | hm
  · rw [hzero, roundBits_zero]
    exact iff_of_true (natPattern_pos hn.ne') (roundBits_pos (by decide) hn.ne')
  · have hbias : ∀ e s : Nat, (e + 1022) * 2 ^ 52 + s = e * 2 ^ 52 + s + 1022 * 2 ^ 52 := by
      intro e s
      ring
    have horder := @pattern_lt_iff m.log2 n.log2 _ _ (isSignificand_significand hm.ne')
      (isSignificand_significand hn.ne')
    rw [significand_mul hm.ne', significand_mul hn.ne', Nat.mul_lt_mul_right (Nat.two_pow_pos 52)] at horder
    rw [← horder, natPattern, natPattern, if_neg hm.ne', if_neg hn.ne', hbias, hbias,
      Nat.add_lt_add_iff_right]

theorem orderKey_ofInt {n : Int} (h : n.natAbs < 2 ^ 64) :
    (ofInt n).orderKey = if n < 0 then -(natPattern n.natAbs : Int) else natPattern n.natAbs := by
  rw [orderKey, isNegative_ofInt h, magnitude_ofInt h]
  simp only [decide_eq_true_eq]

/-- Integers convert to doubles in the order of what they are rounded to. -/
theorem orderKey_ofInt_lt_iff {a b : Int} (ha : a.natAbs < 2 ^ 64) (hb : b.natAbs < 2 ^ 64) :
    (ofInt a).orderKey < (ofInt b).orderKey ↔ roundInt 53 a < roundInt 53 b := by
  have hab := @natPattern_lt_iff a.natAbs b.natAbs
  have hba := @natPattern_lt_iff b.natAbs a.natAbs
  rw [orderKey_ofInt ha, orderKey_ofInt hb, roundInt, roundInt]
  split_ifs with hna hnb hnb
  · omega
  · -- of two signs only the negative one can be in front, and its number is not zero
    have hpattern := natPattern_pos (show a.natAbs ≠ 0 by omega)
    have hround := roundBits_pos (p := 53) (by decide) (show a.natAbs ≠ 0 by omega)
    omega
  · omega
  · omega

end Double

namespace Value

/-! ## Integers -/

theorem natAbs_toInt_lt (x : Int64) : x.toInt.natAbs < 2 ^ 64 := by
  have hlow := x.le_toInt
  have hhigh := x.toInt_lt
  omega

theorem compareDouble_ofInt {a b : Int} (ha : a.natAbs < 2 ^ 64) (hb : b.natAbs < 2 ^ 64) :
    compareDouble (.ofInt a) (.ofInt b) = cmp (roundInt 53 a) (roundInt 53 b) := by
  rw [compareDouble_eq_cmp (Double.isNaN_ofInt ha) (Double.isNaN_ofInt hb)]
  simp only [cmp, cmpUsing, Double.orderKey_ofInt_lt_iff ha hb, Double.orderKey_ofInt_lt_iff hb ha]

/-- Integers compare as what they are rounded to. -/
theorem compare_int64 (a b : Int64) :
    (int64 a).compare (int64 b) = cmp (roundInt 53 a.toInt) (roundInt 53 b.toInt) := by
  rw [← compareDouble_ofInt (natAbs_toInt_lt a) (natAbs_toInt_lt b)]
  simp only [compare, bucket, ne_eq, not_true_eq_false, if_false, asNumericDouble]

theorem compare_timestamp (a b : Int64) :
    (timestamp a).compare (timestamp b) = cmp (roundInt 53 a.toInt) (roundInt 53 b.toInt) := by
  rw [← compareDouble_ofInt (natAbs_toInt_lt a) (natAbs_toInt_lt b)]
  simp only [compare, bucket, ne_eq, not_true_eq_false, if_false, asNumericDouble]

/-! ## The preorder -/

/-- A value that is no NaN. -/
abbrev Ordinary := { v : Value // v.isNaN = false }

instance transCmp_compare : Std.TransCmp fun a b : Ordinary => a.1.compare b.1 := by
  have hrank : (fun a b : Ordinary => a.1.compare b.1) = fun a b => cmp a.1.rank b.1.rank := by
    funext a b
    exact compare_eq_cmp_rank a.2 b.2
  rw [hrank]
  exact transCmp_of_key fun a : Ordinary => a.1.rank

/-- The values other than NaN are compared by a total preorder, and equal values are equal in it. -/
theorem compare_totalPreorder :
    (∀ a : Ordinary, a.1.compare a.1 = .eq) ∧
    (∀ a b : Ordinary, b.1.compare a.1 = (a.1.compare b.1).swap) ∧
    (∀ a b c : Ordinary, a.1.compare b.1 ≠ .gt → b.1.compare c.1 ≠ .gt → a.1.compare c.1 ≠ .gt) ∧
    (∀ a b c : Ordinary, a.1.compare b.1 = .eq → a.1.compare c.1 = b.1.compare c.1) ∧
    ∀ a b : Value, a.operatorEq b = true → a.compare b = .eq := by
  have htrans := transCmp_compare
  refine ⟨fun a => ?_, fun a b => ?_, fun a b c hab hbc => ?_, fun a b c hab => ?_, fun a b h => ?_⟩
  · rw [compare_eq_eq_iff a.2 a.2]
  · exact htrans.eq_swap
  · rw [Ne, ← Ordering.isLE_iff_ne_gt] at hab hbc ⊢
    exact htrans.isLE_trans hab hbc
  · exact htrans.congr_left hab
  · rw [compare_eq_eq_iff (isNaN_of_operatorEq h).1 (isNaN_of_operatorEq h).2]
    exact rank_eq_of_operatorEq h

end Value

end OpenDB
