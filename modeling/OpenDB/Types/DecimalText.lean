import OpenDB.Types.NumberText
import OpenDB.Types.ValueText

/-!
# Decimal digits are read back

`std::to_string` writes digits, at least one, and no zero in front of others; the number that the digits
denote is the one that was written.
-/

set_option autoImplicit false

namespace OpenDB

theorem isDigit_of_mem_decimal {n : Nat} {c : UInt8} (h : c ∈ decimal n) : isDigit c = true := by
  obtain ⟨d, hd, rfl⟩ := List.mem_map.1 h
  have hdigit := Nat.isDigit_of_mem_toDigits (by decide) (by decide) hd
  simp only [Char.isDigit, Bool.and_eq_true, decide_eq_true_eq] at hdigit
  have hlow : 48 ≤ d.toNat := UInt32.le_iff_toNat_le.1 hdigit.1
  have hhigh : d.toNat ≤ 57 := UInt32.le_iff_toNat_le.1 hdigit.2
  have hlt : d.toNat < UInt8.size := hhigh.trans_lt (by decide)
  have hbyte : (UInt8.ofNat d.toNat).toNat = d.toNat := UInt8.toNat_ofNat_of_lt' hlt
  simp only [isDigit, Bool.and_eq_true, decide_eq_true_eq, UInt8.le_iff_toNat_le, hbyte]
  exact ⟨hlow, hhigh⟩

theorem decimal_ne_nil (n : Nat) : decimal n ≠ [] := by
  intro hnil
  have hlength := Nat.length_toDigits_pos (b := 10) (n := n)
  rw [List.map_eq_nil_iff.1 hnil] at hlength
  exact absurd hlength (by decide)

/-- The last digit, and those in front of it. -/
theorem decimal_of_le {n : Nat} (h : 10 ≤ n) :
    decimal n = decimal (n / 10) ++ [UInt8.ofNat (Nat.digitChar (n % 10)).toNat] := by
  rw [decimal, Nat.toDigits_of_base_le (by decide) h, List.map_append]
  rfl

/-- No zero stands in front of other digits. -/
theorem head?_decimal {n : Nat} (h : 0 < n) : (decimal n).head? ≠ some 48 := by
  induction n using Nat.strongRecOn with
  | ind n ih =>
    by_cases hsmall : n < 10
    · interval_cases n <;> decide
    · rw [decimal_of_le (by omega), List.head?_append_of_ne_nil _ (decimal_ne_nil _)]
      exact ih (n / 10) (by omega) (by omega)

theorem digitsValue_decimal (n : Nat) : digitsValue (decimal n) = n := by
  induction n using Nat.strongRecOn with
  | ind n ih =>
    by_cases hsmall : n < 10
    · interval_cases n <;> rfl
    · have hdigit : ∀ d < 10, (UInt8.ofNat (Nat.digitChar d).toNat).toNat - 48 = d := by decide
      have hfront := ih (n / 10) (by omega)
      rw [digitsValue] at hfront
      rw [decimal_of_le (by omega), digitsValue, List.foldl_append, hfront, List.foldl_cons,
        List.foldl_nil, hdigit _ (Nat.mod_lt _ (by decide))]
      omega

end OpenDB
