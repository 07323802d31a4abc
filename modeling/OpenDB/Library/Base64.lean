import Mathlib.Data.List.Basic
import Mathlib.Tactic.Ring

/-!
# Base64

The alphabet of RFC 4648 and its strict decoder: the characters come in fours, padding stands at the
end only, as much of it as the last byte group needs, and the bits that the padding leaves over are
zero.

`decode_append` lets an encoder be inverted group by group.
-/

set_option autoImplicit false

namespace OpenDB.Library.Base64

/-- The six bits that a character of the alphabet stands for. -/
def sextet (c : UInt8) : Option Nat :=
  if 65 ≤ c ∧ c ≤ 90 then some (c.toNat - 65)
  else if 97 ≤ c ∧ c ≤ 122 then some (c.toNat - 97 + 26)
  else if 48 ≤ c ∧ c ≤ 57 then some (c.toNat - 48 + 52)
  else if c = 43 then some 62
  else if c = 47 then some 63
  else none

/-- Four characters for three bytes. -/
def quantum (c₁ c₂ c₃ c₄ : UInt8) : Option (List UInt8) := do
  let a ← sextet c₁
  let b ← sextet c₂
  let c ← sextet c₃
  let d ← sextet c₄
  return [UInt8.ofNat (a * 4 + b / 16), UInt8.ofNat (b % 16 * 16 + c / 4), UInt8.ofNat (c % 4 * 64 + d)]

/-- Two characters for one byte, the last four bits of which are zero. -/
def quantumOne (c₁ c₂ : UInt8) : Option (List UInt8) := do
  let a ← sextet c₁
  let b ← sextet c₂
  if b % 16 = 0 then return [UInt8.ofNat (a * 4 + b / 16)] else none

/-- Three characters for two bytes, the last two bits of which are zero. -/
def quantumTwo (c₁ c₂ c₃ : UInt8) : Option (List UInt8) := do
  let a ← sextet c₁
  let b ← sextet c₂
  let c ← sextet c₃
  if c % 4 = 0 then return [UInt8.ofNat (a * 4 + b / 16), UInt8.ofNat (b % 16 * 16 + c / 4)] else none

/-- The last four characters, with or without padding. -/
def lastQuantum (c₁ c₂ c₃ c₄ : UInt8) : Option (List UInt8) :=
  if c₄ = 61 then if c₃ = 61 then quantumOne c₁ c₂ else quantumTwo c₁ c₂ c₃
  else quantum c₁ c₂ c₃ c₄

/-- The strict decoder. -/
def decode : List UInt8 → Option (List UInt8)
  | [] => some []
  | c₁ :: c₂ :: c₃ :: c₄ :: rest =>
    -- padding is allowed here only
    if rest.isEmpty then lastQuantum c₁ c₂ c₃ c₄
    else do
      let first ← quantum c₁ c₂ c₃ c₄
      let more ← decode rest
      return first ++ more
  | _ => none

variable {c₁ c₂ c₃ c₄ : UInt8} {rest group bytes : List UInt8}

/-- The padding is not a character of the alphabet. -/
theorem lastQuantum_of_quantum (h : quantum c₁ c₂ c₃ c₄ = some group) :
    lastQuantum c₁ c₂ c₃ c₄ = some group := by
  have hpad : c₄ ≠ 61 := by
    rintro rfl
    simp [quantum, sextet] at h
  rw [lastQuantum, if_neg hpad, h]

/-- A full group stands in front of whatever is decoded behind it. -/
theorem decode_append (h : quantum c₁ c₂ c₃ c₄ = some group) (hrest : decode rest = some bytes) :
    decode (c₁ :: c₂ :: c₃ :: c₄ :: rest) = some (group ++ bytes) := by
  cases rest with
  | nil =>
    cases hrest
    -- the last group is decoded by its own rule, which agrees on a full one
    simp [decode, lastQuantum_of_quantum h]
  | cons c rest =>
    rw [decode, if_neg (by simp), h, hrest]
    rfl

example : decode [84, 87, 70, 117] = some [77, 97, 110] := by decide

/-- Bits behind the last byte are refused. -/
example : decode [84, 81, 61, 61] = some [77] ∧ decode [84, 82, 61, 61] = none := by decide

end OpenDB.Library.Base64
