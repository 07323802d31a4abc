import Mathlib.Data.Nat.ModEq
import Mathlib.Tactic

/-!
# Little-endian byte strings

Natural numbers as byte strings of a fixed width, least significant byte first. `leBytes` drops the
bits above its width and `leValue` reads a whole string back, so a number survives the round trip
modulo `256 ^ w` (`leValue_leBytes`), and exactly when it fits (`leValue_leBytes_of_fits`).
-/

set_option autoImplicit false

namespace OpenDB.Library

/-- The `w` low bytes of `n`, least significant first. -/
def leBytes : Nat → Nat → List UInt8
  | 0, _ => []
  | w + 1, n => UInt8.ofNat n :: leBytes w (n / 256)

/-- The number a byte string stands for, least significant byte first. -/
def leValue : List UInt8 → Nat
  | [] => 0
  | b :: bs => b.toNat + 256 * leValue bs

@[simp] theorem length_leBytes (w n : Nat) : (leBytes w n).length = w := by
  induction w generalizing n with
  | zero => rfl
  | succ w ih => simp [leBytes, ih]

theorem leValue_leBytes (w n : Nat) : leValue (leBytes w n) = n % 256 ^ w := by
  induction w generalizing n with
  | zero => simp [leBytes, leValue, Nat.mod_one]
  | succ w ih =>
    have hbyte : (UInt8.ofNat n).toNat = n % 256 := by simp
    rw [leBytes, leValue, ih, hbyte, pow_succ', Nat.mod_mul]

theorem leValue_leBytes_of_fits {w n : Nat} (h : n < 256 ^ w) : leValue (leBytes w n) = n := by
  rw [leValue_leBytes, Nat.mod_eq_of_lt h]

end OpenDB.Library
