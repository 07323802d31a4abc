import Mathlib.Algebra.Ring.Int.Defs
import Mathlib.Data.Int.Basic

/-!
# Machine words that stand for integers

Fixed-width arithmetic is exact as long as its results fit. A `MachineWord` is a type of words with the
integers that they stand for, between two bounds; its operations are only known where they are exact.
The checked operations return nothing where they are not.

`val_add` and its relatives carry what words stand for through a computation.
-/

set_option autoImplicit false

namespace OpenDB.Library

/-- Words, the integers they stand for, and operations that are exact within the bounds. -/
class MachineWord (α : Type) extends Add α, Sub α, Mul α, Div α, Mod α where
  val : α → Int
  min : Int
  max : Int
  exact_add : ∀ a b, min ≤ val a + val b → val a + val b ≤ max → val (a + b) = val a + val b
  exact_sub : ∀ a b, min ≤ val a - val b → val a - val b ≤ max → val (a - b) = val a - val b
  exact_mul : ∀ a b, min ≤ val a * val b → val a * val b ≤ max → val (a * b) = val a * val b
  exact_div : ∀ a b, 0 < val b → val (a / b) = (val a).tdiv (val b)
  exact_mod : ∀ a b, val (a % b) = (val a).tmod (val b)

namespace MachineWord

/-- The integer is within the bounds of the words. -/
def Fits (α : Type) [MachineWord α] (n : Int) : Prop := min α ≤ n ∧ n ≤ max α

instance (α : Type) [MachineWord α] (n : Int) : Decidable (Fits α n) :=
  inferInstanceAs (Decidable (_ ∧ _))

variable {α : Type} [MachineWord α] {a b c : α} {x y : Int}

theorem val_add (ha : val a = x) (hb : val b = y) (h : Fits α (x + y)) : val (a + b) = x + y := by
  subst ha hb
  exact exact_add a b h.1 h.2

theorem val_sub (ha : val a = x) (hb : val b = y) (h : Fits α (x - y)) : val (a - b) = x - y := by
  subst ha hb
  exact exact_sub a b h.1 h.2

theorem val_mul (ha : val a = x) (hb : val b = y) (h : Fits α (x * y)) : val (a * b) = x * y := by
  subst ha hb
  exact exact_mul a b h.1 h.2

/-- Division rounds towards zero. -/
theorem val_div (ha : val a = x) (hb : val b = y) (hy : 0 < y) : val (a / b) = x.tdiv y := by
  subst ha hb
  exact exact_div a b hy

theorem val_div_of_nonneg (ha : val a = x) (hb : val b = y) (hx : 0 ≤ x) (hy : 0 < y) :
    val (a / b) = x / y := by
  rw [val_div ha hb hy, Int.tdiv_eq_ediv_of_nonneg hx]

theorem val_mod (ha : val a = x) (hb : val b = y) : val (a % b) = x.tmod y := by
  subst ha hb
  exact exact_mod a b

theorem val_mod_of_nonneg (ha : val a = x) (hb : val b = y) (hx : 0 ≤ x) : val (a % b) = x % y := by
  rw [val_mod ha hb, Int.tmod_eq_emod_of_nonneg hx]

/-! ## Checked operations -/

def add? (a b : α) : Option α := if Fits α (val a + val b) then some (a + b) else none

def sub? (a b : α) : Option α := if Fits α (val a - val b) then some (a - b) else none

def mul? (a b : α) : Option α := if Fits α (val a * val b) then some (a * b) else none

/-- A checked operation returns what its words stand for, if a word does. -/
theorem exists_add? (ha : val a = x) (hb : val b = y) (h : Fits α (x + y)) :
    ∃ c, add? a b = some c ∧ val c = x + y := by
  refine ⟨a + b, ?_, val_add ha hb h⟩
  subst ha hb
  exact if_pos h

theorem exists_sub? (ha : val a = x) (hb : val b = y) (h : Fits α (x - y)) :
    ∃ c, sub? a b = some c ∧ val c = x - y := by
  refine ⟨a - b, ?_, val_sub ha hb h⟩
  subst ha hb
  exact if_pos h

theorem exists_mul? (ha : val a = x) (hb : val b = y) (h : Fits α (x * y)) :
    ∃ c, mul? a b = some c ∧ val c = x * y := by
  refine ⟨a * b, ?_, val_mul ha hb h⟩
  subst ha hb
  exact if_pos h

theorem add?_eq_none (ha : val a = x) (hb : val b = y) (h : ¬ Fits α (x + y)) :
    add? a b = none := by
  subst ha hb
  exact if_neg h

/-- A checked operation is the operation, where it returns. -/
theorem eq_of_add? (h : add? a b = some c) : c = a + b := by
  rw [add?] at h
  split_ifs at h
  exact (Option.some.inj h).symm

theorem eq_of_sub? (h : sub? a b = some c) : c = a - b := by
  rw [sub?] at h
  split_ifs at h
  exact (Option.some.inj h).symm

theorem eq_of_mul? (h : mul? a b = some c) : c = a * b := by
  rw [mul?] at h
  split_ifs at h
  exact (Option.some.inj h).symm

/-! ## The words of 32 and of 64 bits -/

instance : MachineWord Int64 where
  val := Int64.toInt
  min := -2 ^ 63
  max := 2 ^ 63 - 1
  exact_add a b h h' := by
    rw [Int64.toInt_add]
    exact Int.bmod_eq_of_le (by simpa using h) (by omega)
  exact_sub a b h h' := by
    rw [Int64.toInt_sub]
    exact Int.bmod_eq_of_le (by simpa using h) (by omega)
  exact_mul a b h h' := by
    rw [Int64.toInt_mul]
    exact Int.bmod_eq_of_le (by simpa using h) (by omega)
  exact_div a b h := Int64.toInt_div_of_ne_right a b (by rintro rfl; exact absurd h (by decide))
  exact_mod := Int64.toInt_mod

instance : MachineWord Int32 where
  val := Int32.toInt
  min := -2 ^ 31
  max := 2 ^ 31 - 1
  exact_add a b h h' := by
    rw [Int32.toInt_add]
    exact Int.bmod_eq_of_le (by simpa using h) (by omega)
  exact_sub a b h h' := by
    rw [Int32.toInt_sub]
    exact Int.bmod_eq_of_le (by simpa using h) (by omega)
  exact_mul a b h h' := by
    rw [Int32.toInt_mul]
    exact Int.bmod_eq_of_le (by simpa using h) (by omega)
  exact_div a b h := Int32.toInt_div_of_ne_right a b (by rintro rfl; exact absurd h (by decide))
  exact_mod := Int32.toInt_mod

instance : MachineWord UInt32 where
  val a := a.toNat
  min := 0
  max := 2 ^ 32 - 1
  exact_add a b h h' := by
    rw [UInt32.toNat_add, Nat.mod_eq_of_lt (by omega)]
    exact Int.natCast_add _ _
  exact_sub a b h h' := by
    -- the lower bound is what keeps the difference from wrapping around
    have hle : b ≤ a := UInt32.le_iff_toNat_le.2 (by omega)
    rw [UInt32.toNat_sub_of_le a b hle]
    omega
  exact_mul a b h h' := by
    have hlt : ((a.toNat * b.toNat : Nat) : Int) ≤ 2 ^ 32 - 1 := by
      rw [Int.natCast_mul]
      exact h'
    rw [UInt32.toNat_mul, Nat.mod_eq_of_lt (by omega)]
    exact Int.natCast_mul _ _
  exact_div a b h := by
    rw [UInt32.toNat_div, Int.tdiv_eq_ediv_of_nonneg (Int.natCast_nonneg _)]
    exact Int.natCast_ediv _ _
  exact_mod a b := by
    rw [UInt32.toNat_mod, Int.tmod_eq_emod_of_nonneg (Int.natCast_nonneg _)]
    exact Int.natCast_emod _ _

theorem fits_int64 {n : Int} : Fits Int64 n ↔ -2 ^ 63 ≤ n ∧ n ≤ 2 ^ 63 - 1 := Iff.rfl

theorem fits_int32 {n : Int} : Fits Int32 n ↔ -2 ^ 31 ≤ n ∧ n ≤ 2 ^ 31 - 1 := Iff.rfl

theorem fits_uint32 {n : Int} : Fits UInt32 n ↔ 0 ≤ n ∧ n ≤ 2 ^ 32 - 1 := Iff.rfl

/-- Words of one width stand for the same integer where both can. -/
theorem val_toUInt32 {a : Int32} {x : Int} (ha : val a = x) (hx : 0 ≤ x) : val a.toUInt32 = x := by
  subst ha
  have hpos : 0 ≤ a := Int32.le_iff_toInt_le.2 hx
  have hnat : ((a.toUInt32.toNat : Nat) : Int) = a.toInt := by
    rw [Int32.toNat_toUInt32_of_le hpos]
    exact Int.toNat_of_nonneg hx
  exact hnat

theorem val_toInt32 {a : UInt32} {x : Int} (ha : val a = x) (hx : x < 2 ^ 31) :
    val a.toInt32 = x := by
  subst ha
  have hlt : 2 * a.toNat < 2 ^ 32 := by
    have hval : (a.toNat : Int) < 2 ^ 31 := hx
    omega
  exact BitVec.toInt_eq_toNat_of_lt hlt

/-- The conversion to 32 bits keeps the integer that fits, and cuts off the bits above otherwise. -/
theorem toInt32_eq_ofInt {a : Int64} {x : Int} (ha : val a = x) : a.toInt32 = Int32.ofInt x := by
  subst ha
  refine Int32.toInt.inj ?_
  rw [Int64.toInt_toInt32, Int32.toInt_ofInt]
  rfl

theorem val_int64_toInt32 {a : Int64} {x : Int} (ha : val a = x) (hx : Fits Int32 x) :
    val a.toInt32 = x := by
  rw [toInt32_eq_ofInt ha]
  exact Int32.toInt_ofInt_of_le hx.1 (Int.lt_of_le_sub_one hx.2)

/-! ## Rounding down -/

theorem floor_of_trunc {x y : Int} (hy : 0 < y) :
    (if x.tmod y < 0 then x.tdiv y - 1 else x.tdiv y) = x / y ∧
      (if x.tmod y < 0 then x.tmod y + y else x.tmod y) = x % y := by
  have hpos := Int.emod_nonneg x (Int.ne_of_gt hy)
  have hlt := Int.emod_lt_of_pos x hy
  have habs : (y.natAbs : Int) = y := Int.natAbs_of_nonneg (Int.le_of_lt hy)
  rw [Int.tmod_eq_emod, Int.tdiv_eq_ediv, Int.sign_eq_one_of_pos hy]
  -- towards zero and down are the same where nothing is cut off or what is cut off is positive
  by_cases h : 0 ≤ x ∨ y ∣ x
  · rw [if_pos h, if_pos h, if_neg (by omega), if_neg (by omega)]
    omega
  · rw [if_neg h, if_neg h, if_pos (by omega), if_pos (by omega)]
    omega

/-- A quotient and a remainder that round towards zero, made to round down. -/
theorem val_floor {a b : Int64} {x y : Int} (ha : val a = x) (hb : val b = y) (hy : 0 < y) :
    val (if a % b < 0 then a / b - 1 else a / b) = x / y ∧
      val (if a % b < 0 then a % b + b else a % b) = x % y := by
  have hlow : -2 ^ 63 ≤ x := ha ▸ a.le_toInt
  have hhigh : y < 2 ^ 63 := hb ▸ b.toInt_lt
  have hmod := val_mod ha hb
  have hdiv := val_div ha hb hy
  have hsign : a % b < 0 ↔ x.tmod y < 0 := by
    rw [Int64.lt_iff_toInt_lt]
    exact hmod ▸ Iff.rfl
  obtain ⟨hfloor, hrest⟩ := floor_of_trunc (x := x) hy
  have hpos := Int.emod_nonneg x (Int.ne_of_gt hy)
  have hlt := Int.emod_lt_of_pos x hy
  simp only [hsign]
  by_cases h : x.tmod y < 0
  · rw [if_pos h] at hfloor hrest ⊢
    rw [if_pos h]
    -- below zero there is room for one more
    have hneg : x / y < 0 := by
      have hx : x < 0 := by
        by_contra hge
        have := Int.tmod_nonneg y (Int.not_lt.1 hge)
        omega
      exact Int.ediv_neg_of_neg_of_pos hx hy
    have hle : -2 ^ 63 ≤ x / y := by
      rw [Int.le_ediv_iff_mul_le hy]
      omega
    refine ⟨(val_sub hdiv rfl (fits_int64.2 ?_)).trans hfloor,
      (val_add hmod hb (fits_int64.2 ?_)).trans hrest⟩
    · have h1 : val (1 : Int64) = 1 := rfl
      omega
    · omega
  · rw [if_neg h] at hfloor hrest ⊢
    rw [if_neg h]
    exact ⟨hdiv.trans hfloor, hmod.trans hrest⟩

end MachineWord

end OpenDB.Library
