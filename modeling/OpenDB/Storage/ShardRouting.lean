import OpenDB.Library.Fnv1a
import OpenDB.Storage.ShardedStorageEngine

/-!
# Where a key is routed

The routing is meant to be FNV-1a of the encoded key, reduced by the number of shards, so that another
implementation finds the rows. The loop of `routeByKey` is that of FNV-1a with its prime, but it starts
at 1469598103934665603 and not at the offset basis.

Both numbers are odd, so with one or two shards no key shows the difference. With more shards some key
is always routed elsewhere (`followsSpecification_iff`): a number that divides the difference of the
two hashes for every key divides two.
-/

set_option autoImplicit false

namespace OpenDB.ShardedEngine

open OpenDB.Library

/-- Every key is routed by its published hash, to a shard that is there. -/
def FollowsSpecification (n : Nat) : Prop :=
  ∀ key : Value, ∃ i, routeByKey n key = some i ∧ i = (Fnv1a.published key.toBytes).toNat % n ∧ i < n

theorem fnv1a_eq (bytes : Bytes) :
    fnv1a bytes = Fnv1a.hash 1469598103934665603 1099511628211 bytes := rfl

/-- The two hashes agree in their last bit. -/
theorem fnv1a_modEq_two (bytes : Bytes) :
    (fnv1a bytes).toNat ≡ (Fnv1a.published bytes).toNat [MOD 2] := by
  rw [fnv1a_eq]
  exact Fnv1a.hash_modEq (k := 1) (by omega) bytes rfl

theorem routeByKey_one (key : Value) : routeByKey 1 key = some 0 := rfl

theorem routeByKey_of_two_le {n : Nat} (hn : 2 ≤ n) (key : Value) :
    routeByKey n key = some ((fnv1a key.toBytes).toNat % n) := by
  unfold routeByKey
  rw [if_neg (by omega), if_neg (by omega)]

/-- With two or more shards the specification is met if the hashes agree up to the number of shards. -/
theorem followsSpecification_iff_modEq {n : Nat} (hn : 2 ≤ n) :
    FollowsSpecification n ↔
      ∀ key : Value, (fnv1a key.toBytes).toNat ≡ (Fnv1a.published key.toBytes).toNat [MOD n] := by
  apply forall_congr'
  intro key
  rw [routeByKey_of_two_le hn]
  constructor
  · rintro ⟨i, hi, hspec, -⟩
    exact (Option.some.inj hi).trans hspec
  · intro hmod
    exact ⟨_, rfl, hmod, routeByKey_lt (routeByKey_of_two_le hn key)⟩

/-- A number of shards for which the hashes of a null and of `false` agree divides two. -/
theorem dvd_two_of_modEq {n : Nat}
    (h : ∀ key : Value, (fnv1a key.toBytes).toNat ≡ (Fnv1a.published key.toBytes).toNat [MOD n]) :
    n ∣ 2 := by
  have hnull : (n : ℤ) ∣ 7684989759041880134 :=
    Nat.modEq_iff_dvd.1 (h .null)
  have hfalse : (n : ℤ) ∣ 10535761180605892878 :=
    Nat.modEq_iff_dvd.1 (h (.boolean false)).symm
  -- the two differences have no other divisor in common
  have hgcd : (n : ℤ) ∣ gcd 7684989759041880134 10535761180605892878 := dvd_gcd hnull hfalse
  exact Int.natCast_dvd_natCast.1 hgcd

/-- The routing follows its specification with one shard and with two, and with no other number. -/
theorem followsSpecification_iff (n : Nat) : FollowsSpecification n ↔ n = 1 ∨ n = 2 := by
  rcases Nat.lt_or_ge n 2 with hlt | hge
  · interval_cases n
    · -- without a shard there is nothing to route to
      refine iff_of_false (fun h => ?_) (by omega)
      obtain ⟨i, hi, -⟩ := h .null
      cases hi
    · -- the one shard is returned before anything is hashed
      exact iff_of_true (fun key => ⟨0, routeByKey_one key, (Nat.mod_one _).symm, Nat.one_pos⟩)
        (Or.inl rfl)
  · rw [followsSpecification_iff_modEq hge]
    constructor
    · intro h
      have := Nat.le_of_dvd (by omega) (dvd_two_of_modEq h)
      omega
    · rintro (rfl | rfl)
      · omega
      · exact fun key => fnv1a_modEq_two key.toBytes

/-- With four shards, the key 42 is on shard 2, where the specification has it on shard 0. -/
theorem routeByKey_four_departs :
    routeByKey 4 (.int64 42) = some 2 ∧
      (Fnv1a.published (Value.int64 42).toBytes).toNat % 4 = 0 ∧ ¬ FollowsSpecification 4 := by
  refine ⟨by decide +kernel, by decide +kernel, fun h => ?_⟩
  obtain ⟨i, hi, hspec, -⟩ := h (.int64 42)
  have hne : routeByKey 4 (.int64 42) ≠
      some ((Fnv1a.published (Value.int64 42).toBytes).toNat % 4) := by decide +kernel
  exact hne (hi.trans (congrArg some hspec))

end OpenDB.ShardedEngine
