import Mathlib.Data.List.Basic
import Mathlib.Data.Nat.ModEq

/-!
# FNV-1a

The hash that takes in a byte at a time: exclusive or with the byte, then multiplication by the prime,
both on 64 bits. The published function starts at its own offset basis.

The low bits of a hash depend on the low bits of the offset basis only (`hash_modEq`).
-/

set_option autoImplicit false

namespace OpenDB.Library.Fnv1a

/-- One byte taken in. -/
def absorb (prime h : UInt64) (b : UInt8) : UInt64 := (h ^^^ b.toUInt64) * prime

def hash (offsetBasis prime : UInt64) (bytes : List UInt8) : UInt64 :=
  bytes.foldl (absorb prime) offsetBasis

/-- The published hash of 64 bits. -/
def published : List UInt8 → UInt64 := hash 0xcbf29ce484222325 0x100000001b3

variable {prime h h' : UInt64} {k : Nat}

theorem hash_cons (b : UInt8) (bytes : List UInt8) :
    hash h prime (b :: bytes) = hash (absorb prime h b) prime bytes := rfl

theorem absorb_modEq (hk : k ≤ 64) (hmod : h.toNat ≡ h'.toNat [MOD 2 ^ k]) (b : UInt8) :
    (absorb prime h b).toNat ≡ (absorb prime h' b).toNat [MOD 2 ^ k] := by
  have hdvd : 2 ^ k ∣ 2 ^ 64 := Nat.pow_dvd_pow 2 hk
  have hxor : h.toNat ^^^ b.toUInt64.toNat ≡ h'.toNat ^^^ b.toUInt64.toNat [MOD 2 ^ k] := by
    -- the exclusive or works bit by bit
    unfold Nat.ModEq at hmod ⊢
    rw [Nat.xor_mod_two_pow, Nat.xor_mod_two_pow, hmod]
  unfold absorb Nat.ModEq
  -- what the 64 bits cut off is a multiple of the power
  rw [UInt64.toNat_mul, UInt64.toNat_mul, UInt64.toNat_xor, UInt64.toNat_xor,
    Nat.mod_mod_of_dvd _ hdvd, Nat.mod_mod_of_dvd _ hdvd]
  exact hxor.mul_right prime.toNat

theorem hash_modEq (hk : k ≤ 64) (bytes : List UInt8) (hmod : h.toNat ≡ h'.toNat [MOD 2 ^ k]) :
    (hash h prime bytes).toNat ≡ (hash h' prime bytes).toNat [MOD 2 ^ k] := by
  induction bytes generalizing h h' with
  | nil => exact hmod
  | cons b bytes ih =>
    rw [hash_cons, hash_cons]
    exact ih (absorb_modEq hk hmod b)

end OpenDB.Library.Fnv1a
