import Mathlib.Tactic
import Mathlib.Algebra.Polynomial.Div
import Mathlib.Data.ZMod.Basic

/-!
# Cyclic redundancy checks

A register of `w` bits is shifted to the right, and takes up a mask of taps whenever a one falls out. It
divides polynomials over the field of two elements. The lowest bit of the register is the coefficient
of the highest power, and the taps are the generator without its leading term: what the register holds
in the end is the remainder of what it has been fed (`polynomial_feedAll`).

Two messages of one length that differ only within `w` consecutive bits do not have the same remainder
(`feedAll_ne_of_burst`), as long as the generator has a constant term. Their difference is a
polynomial of a degree below `w`, times a power that has no factor in common with the generator.

A register can also be fed several bits at a time (`feedAll_lowBits`), by a table of what the bits in
front do to it (`shifts_eq_xor`).
-/

set_option autoImplicit false

namespace OpenDB.Library.Crc

open Polynomial

variable {w : Nat}

/-- The register moves down one place. -/
def shift (taps c : BitVec w) : BitVec w :=
  if c.getLsbD 0 then taps ^^^ (c >>> 1) else c >>> 1

/-- A bit of the message, at the lowest place of the register. -/
def lowBit (w : Nat) (b : Bool) : BitVec w := (BitVec.ofBool b).setWidth w

/-- A bit of the message comes in. -/
def feed (taps c : BitVec w) (b : Bool) : BitVec w := shift taps (c ^^^ lowBit w b)

/-- A whole message, the first bit first. -/
def feedAll (taps c : BitVec w) (bits : List Bool) : BitVec w := bits.foldl (feed taps) c

/-! ## Polynomials -/

/-- The coefficient that a bit stands for. -/
def coefficient (b : Bool) : ZMod 2 := if b then 1 else 0

theorem coefficient_xor (a b : Bool) : coefficient (a ^^ b) = coefficient a + coefficient b := by
  revert a b
  decide

theorem coefficient_injective : Function.Injective coefficient := by
  decide

/-- The polynomial in a register. -/
noncomputable def polynomial (c : BitVec w) : (ZMod 2)[X] :=
  ∑ i ∈ Finset.range w, C (coefficient (c.getMsbD i)) * X ^ i

/-- The generator: the taps and a leading term. -/
noncomputable def generator (taps : BitVec w) : (ZMod 2)[X] := X ^ w + polynomial taps

/-- A message as a polynomial: its last bit is the constant term. -/
noncomputable def message : List Bool → (ZMod 2)[X]
  | [] => 0
  | b :: bits => C (coefficient b) * X ^ bits.length + message bits

@[simp] theorem coeff_polynomial (c : BitVec w) (d : Nat) :
    (polynomial c).coeff d = coefficient (c.getMsbD d) := by
  simp only [polynomial, finsetSum_coeff, coeff_C_mul, coeff_X_pow, mul_ite, mul_one, mul_zero,
    Finset.sum_ite_eq, Finset.mem_range]
  by_cases h : d < w
  · rw [if_pos h]
  · rw [if_neg h, BitVec.getMsbD_of_ge c d (not_lt.1 h)]
    rfl

theorem polynomial_xor (a b : BitVec w) : polynomial (a ^^^ b) = polynomial a + polynomial b := by
  ext d
  rw [coeff_add, coeff_polynomial, coeff_polynomial, coeff_polynomial, BitVec.getMsbD_xor,
    coefficient_xor]

theorem degree_polynomial_lt (c : BitVec w) : (polynomial c).degree < w := by
  rw [degree_lt_iff_coeff_zero]
  intro d hd
  rw [coeff_polynomial, BitVec.getMsbD_of_ge c d hd]
  rfl

theorem polynomial_injective : Function.Injective (polynomial : BitVec w → (ZMod 2)[X]) := by
  intro a b h
  refine BitVec.eq_of_getMsbD_eq fun i _ => coefficient_injective ?_
  rw [← coeff_polynomial, ← coeff_polynomial, h]

theorem generator_monic (taps : BitVec w) : (generator taps).Monic :=
  monic_X_pow_add (degree_polynomial_lt taps)

theorem degree_generator (taps : BitVec w) : (generator taps).degree = w := by
  rw [generator, degree_add_eq_left_of_degree_lt, degree_X_pow]
  rw [degree_X_pow]
  exact degree_polynomial_lt taps

/-- The generator has a constant term, so it has no factor in common with a power. -/
theorem isCoprime_generator_X_pow {taps : BitVec w} (hw : 0 < w) (htaps : taps.getMsbD 0 = true)
    (n : Nat) : IsCoprime (generator taps) (X ^ n) := by
  refine IsCoprime.pow_right ?_
  have hconst : (generator taps).coeff 0 = 1 := by
    rw [generator, coeff_add, coeff_X_pow, if_neg hw.ne, coeff_polynomial, htaps]
    rfl
  refine ⟨1, -(generator taps).divX, ?_⟩
  have hsplit := X_mul_divX_add (generator taps)
  rw [hconst, C_1] at hsplit
  linear_combination -hsplit

theorem degree_message_lt (bits : List Bool) : (message bits).degree < bits.length := by
  induction bits with
  | nil => simp [message]
  | cons b bits ih =>
    rw [message, List.length_cons]
    refine (degree_add_le _ _).trans_lt (max_lt ?_ ?_)
    · refine (degree_C_mul_X_pow_le _ _).trans_lt ?_
      exact_mod_cast Nat.lt_succ_self _
    · refine ih.trans ?_
      exact_mod_cast Nat.lt_succ_self _

theorem message_append (bits bits' : List Bool) :
    message (bits ++ bits') = X ^ bits'.length * message bits + message bits' := by
  induction bits with
  | nil => simp [message]
  | cons b bits ih =>
    rw [List.cons_append, message, message, ih, List.length_append, pow_add]
    ring

/-- Messages of one length are told apart by their polynomials. -/
theorem message_injective {bits bits' : List Bool} (hlen : bits.length = bits'.length)
    (h : message bits = message bits') : bits = bits' := by
  induction bits generalizing bits' with
  | nil => exact (List.length_eq_zero_iff.1 hlen.symm).symm
  | cons b bits ih =>
    obtain ⟨b', bits', rfl⟩ := List.exists_cons_of_length_eq_add_one hlen.symm
    replace hlen : bits.length = bits'.length := Nat.succ.inj hlen
    have hsmall : ∀ l : List Bool, (message l).coeff l.length = 0 := fun l =>
      coeff_eq_zero_of_degree_lt (degree_message_lt l)
    have hfirst : b = b' := by
      have hcoeff := congrArg (fun p => p.coeff bits.length) h
      simp only [message, coeff_add, coeff_C_mul, coeff_X_pow, hlen, if_true, mul_one] at hcoeff
      rw [← hlen, hsmall, hlen, hsmall, add_zero, add_zero] at hcoeff
      exact coefficient_injective hcoeff
    subst hfirst
    rw [message, message, hlen] at h
    rw [ih hlen (add_left_cancel h)]

/-! ## Remainders -/

theorem polynomial_ushiftRight (c : BitVec w) :
    polynomial (c >>> 1) = X * polynomial c + C (coefficient (c.getLsbD 0)) * X ^ w := by
  ext d
  rw [coeff_add, coeff_polynomial, BitVec.getMsbD_ushiftRight, coeff_C_mul, coeff_X_pow]
  cases d with
  | zero =>
    rw [coeff_X_mul_zero]
    rcases Nat.eq_zero_or_pos w with rfl | hw
    · simp [coefficient]
    · simp [hw.ne, coefficient]
  | succ d =>
    rw [coeff_X_mul, coeff_polynomial]
    rcases lt_trichotomy (d + 1) w with hlt | rfl | hgt
    · simp [hlt, hlt.ne]
    · -- the bit that falls out
      have hlow : c.getMsbD d = c.getLsbD 0 := by
        simp [BitVec.getMsbD]
      rw [hlow, if_pos rfl, mul_one, CharTwo.add_self_eq_zero]
      simp [coefficient]
    · have hlow : w ≤ d := by omega
      simp [hgt.not_gt, BitVec.getMsbD_of_ge c d hlow, hgt.ne', coefficient]

theorem polynomial_shift (taps c : BitVec w) :
    polynomial (shift taps c) =
      X * polynomial c + C (coefficient (c.getLsbD 0)) * generator taps := by
  rw [shift]
  split_ifs with hlow
  · rw [polynomial_xor, polynomial_ushiftRight, hlow, generator, coefficient, if_pos rfl, C_1]
    ring
  · rw [Bool.not_eq_true] at hlow
    rw [polynomial_ushiftRight, hlow, coefficient, if_neg Bool.false_ne_true, C_0, zero_mul, zero_mul]

/-- What falls out of a register that holds one bit is that bit. -/
theorem X_mul_polynomial_lowBit (hw : 0 < w) (b : Bool) :
    X * polynomial (lowBit w b) = C (coefficient b) * X ^ w := by
  have hzero : polynomial (lowBit w b >>> 1) = 0 := by
    ext d
    rw [coeff_polynomial, BitVec.getMsbD_ushiftRight, coeff_zero]
    cases b <;> simp [lowBit, BitVec.getMsbD, coefficient]
    omega
  have hlow : (lowBit w b).getLsbD 0 = b := by
    simp [lowBit, hw]
  have hout := polynomial_ushiftRight (lowBit w b)
  rw [hzero, hlow] at hout
  exact CharTwo.add_eq_zero.1 hout.symm

theorem generator_dvd_feed (hw : 0 < w) (taps c : BitVec w) (b : Bool) :
    generator taps ∣
      polynomial (feed taps c b) - (X * polynomial c + C (coefficient b) * X ^ w) := by
  rw [feed, polynomial_shift, polynomial_xor, mul_add, X_mul_polynomial_lowBit hw,
    add_sub_cancel_left]
  exact dvd_mul_left _ _

theorem generator_dvd_feedAll (hw : 0 < w) (taps c : BitVec w) (bits : List Bool) :
    generator taps ∣ polynomial (feedAll taps c bits) -
      (X ^ bits.length * polynomial c + X ^ w * message bits) := by
  induction bits generalizing c with
  | nil => simp [feedAll, message]
  | cons b bits ih =>
    have hrest := ih (feed taps c b)
    have hfirst := (generator_dvd_feed hw taps c b).mul_left (X ^ bits.length)
    have hsum := dvd_add hrest hfirst
    have hsplit : polynomial (feedAll taps c (b :: bits)) -
        (X ^ (b :: bits).length * polynomial c + X ^ w * message (b :: bits)) =
          polynomial (feedAll taps (feed taps c b) bits) -
            (X ^ bits.length * polynomial (feed taps c b) + X ^ w * message bits) +
          X ^ bits.length * (polynomial (feed taps c b) -
            (X * polynomial c + C (coefficient b) * X ^ w)) := by
      rw [feedAll, List.foldl_cons, message, List.length_cons, pow_succ, feedAll]
      ring
    rw [hsplit]
    exact hsum

/-- The register holds the remainder of the message, behind what it held at first. -/
theorem polynomial_feedAll (hw : 0 < w) (taps c : BitVec w) (bits : List Bool) :
    polynomial (feedAll taps c bits) =
      (X ^ bits.length * polynomial c + X ^ w * message bits) %ₘ generator taps := by
  obtain ⟨q, hq⟩ := generator_dvd_feedAll hw taps c bits
  refine ((div_modByMonic_unique (-q) _ (generator_monic taps) ⟨?_, ?_⟩).2).symm
  · linear_combination hq
  · rw [degree_generator]
    exact degree_polynomial_lt _

/-! ## Bursts -/

/-- Messages that differ within `w` consecutive bits leave different remainders. -/
theorem feedAll_ne_of_burst (hw : 0 < w) {taps : BitVec w} (htaps : taps.getMsbD 0 = true)
    (c : BitVec w) {front u v behind : List Bool} (hlen : u.length = v.length) (hburst : u.length ≤ w)
    (hne : u ≠ v) :
    feedAll taps c (front ++ (u ++ behind)) ≠ feedAll taps c (front ++ (v ++ behind)) := by
  intro heq
  have hremainders := congrArg polynomial heq
  rw [polynomial_feedAll hw, polynomial_feedAll hw, ← sub_eq_zero, ← sub_modByMonic,
    modByMonic_eq_zero_iff_dvd (generator_monic taps)] at hremainders
  -- the difference of the messages is a power times the difference of the bursts
  have hdiff : X ^ (front ++ (u ++ behind)).length * polynomial c +
      X ^ w * message (front ++ (u ++ behind)) -
        (X ^ (front ++ (v ++ behind)).length * polynomial c +
          X ^ w * message (front ++ (v ++ behind))) =
      X ^ (w + behind.length) * (message u - message v) := by
    simp only [message_append, List.length_append, hlen]
    ring
  rw [hdiff] at hremainders
  have hdvd := (isCoprime_generator_X_pow hw htaps _).dvd_of_dvd_mul_left hremainders
  have hsmall : (message u - message v).degree < (generator taps).degree := by
    have hu := degree_message_lt u
    have hv := degree_message_lt v
    rw [← hlen] at hv
    rw [degree_generator]
    exact (degree_sub_le _ _).trans_lt ((max_lt hu hv).trans_le (by exact_mod_cast hburst))
  have hzero := eq_zero_of_dvd_of_degree_lt hdvd hsmall
  exact hne (message_injective hlen (sub_eq_zero.1 hzero))

/-! ## Several bits at a time -/

/-- The lowest `k` bits, the lowest first. -/
def lowBits (c : BitVec w) (k : Nat) : List Bool := (List.range k).map c.getLsbD

theorem shift_xor (taps a b : BitVec w) : shift taps (a ^^^ b) = shift taps a ^^^ shift taps b := by
  refine polynomial_injective ?_
  simp only [polynomial_xor, polynomial_shift, BitVec.getLsbD_xor, coefficient_xor, C_add]
  ring

theorem shifts_xor (taps a b : BitVec w) (k : Nat) :
    (shift taps)^[k] (a ^^^ b) = (shift taps)^[k] a ^^^ (shift taps)^[k] b := by
  induction k generalizing a b with
  | zero => rfl
  | succ k ih => simp only [Function.iterate_succ_apply, shift_xor, ih]

/-- As long as only zeros fall out, the register just moves down. -/
theorem shifts_of_lowBits_eq_zero (taps : BitVec w) {c : BitVec w} {k : Nat}
    (h : ∀ i < k, c.getLsbD i = false) : (shift taps)^[k] c = c >>> k := by
  induction k generalizing c with
  | zero => simp
  | succ k ih =>
    have hfirst : shift taps c = c >>> 1 := by
      rw [shift, h 0 (Nat.succ_pos k), if_neg Bool.false_ne_true]
    rw [Function.iterate_succ_apply, hfirst, ih, ← BitVec.shiftRight_add, Nat.add_comm]
    intro i hi
    rw [BitVec.getLsbD_ushiftRight]
    exact h _ (by omega)

/-- The low bits of a register, the others put out. -/
def lowPart (c : BitVec w) (k : Nat) : BitVec w := c &&& BitVec.ofNat w (2 ^ k - 1)

theorem getLsbD_lowPart (c : BitVec w) (k i : Nat) :
    (lowPart c k).getLsbD i = (c.getLsbD i && decide (i < k)) := by
  rw [lowPart, BitVec.getLsbD_and, BitVec.getLsbD_ofNat, Nat.testBit_two_pow_sub_one]
  by_cases hi : i < w
  · simp [hi]
  · simp [BitVec.getLsbD_of_ge c i (not_lt.1 hi)]

/-- The table lookup: what `k` shifts do depends on the low bits alone, but for the move. -/
theorem shifts_eq_xor (taps c : BitVec w) (k : Nat) :
    (shift taps)^[k] c = (shift taps)^[k] (lowPart c k) ^^^ (c >>> k) := by
  have hhigh : ∀ i < k, (lowPart c k ^^^ c).getLsbD i = false := by
    intro i hi
    simp [getLsbD_lowPart, hi]
  have hmove : (lowPart c k ^^^ c) >>> k = c >>> k := by
    refine BitVec.eq_of_getLsbD_eq fun i _ => ?_
    simp [getLsbD_lowPart]
  have hsplit := shifts_xor taps (lowPart c k) (lowPart c k ^^^ c) k
  rwa [← BitVec.xor_assoc, BitVec.xor_self, BitVec.zero_xor, shifts_of_lowBits_eq_zero taps hhigh,
    hmove] at hsplit

/-- `k` bits can come in at once. -/
theorem feedAll_lowBits (taps c b : BitVec w) {k : Nat} (hk : ∀ i, k ≤ i → b.getLsbD i = false) :
    feedAll taps c (lowBits b k) = (shift taps)^[k] (c ^^^ b) := by
  induction k generalizing c b with
  | zero =>
    have hzero : b = 0#w := BitVec.eq_of_getLsbD_eq fun i _ => by simp [hk i (Nat.zero_le i)]
    rw [hzero, BitVec.xor_zero]
    rfl
  | succ k ih =>
    have hbits : lowBits b (k + 1) = b.getLsbD 0 :: lowBits (b >>> 1) k := by
      simp [lowBits, List.range_succ_eq_map, Function.comp_def, Nat.add_comm]
    -- the bit that has come in is gone, and the others move down
    have hrest : shift taps (lowBit w (b.getLsbD 0) ^^^ b) = b >>> 1 := by
      have hlow : (lowBit w (b.getLsbD 0) ^^^ b).getLsbD 0 = false := by
        rcases Nat.eq_zero_or_pos w with rfl | hw
        · simp
        · simp [lowBit, hw]
      rw [shift, hlow, if_neg Bool.false_ne_true]
      refine BitVec.eq_of_getLsbD_eq fun i _ => ?_
      simp [lowBit]
    have hfirst : feed taps c (b.getLsbD 0) ^^^ (b >>> 1) = shift taps (c ^^^ b) := by
      rw [feed, ← hrest, ← shift_xor, BitVec.xor_assoc, ← BitVec.xor_assoc _ _ b, BitVec.xor_self,
        BitVec.zero_xor]
    rw [hbits, feedAll, List.foldl_cons, Function.iterate_succ_apply, ← hfirst]
    refine ih _ _ fun i hi => ?_
    rw [BitVec.getLsbD_ushiftRight]
    exact hk _ (by omega)

end OpenDB.Library.Crc
