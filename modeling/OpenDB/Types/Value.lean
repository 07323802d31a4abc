import OpenDB.Types.Decoder
import OpenDB.Types.Double
import Mathlib.Data.Prod.Lex
import Mathlib.Data.List.Lex

/-!
# Values

The tagged scalar of the store: nine tags, the ordering `compare` that buckets the numeric tags
together and compares them as doubles, the tag-true equality `operatorEq`, and the wire format.

`rank` maps a value into a linear order so that `compare` on values other than NaN doubles is the
comparison of ranks (`compare_eq_cmp_rank`): on those values
it is a total preorder, and its classes are the values of equal rank.
-/

set_option autoImplicit false

namespace OpenDB

open OpenDB.Library

/-- The nine type tags, and a byte read back from disk that is none of them. -/
inductive ValueType where
  | null | bool | int32 | int64 | double | text | blob | date | timestamp
  | other (code : UInt8)
  deriving DecidableEq, Repr

/-- `static_cast<std::uint8_t>` of a tag. -/
def ValueType.toByte : ValueType → UInt8
  | .null => 0
  | .bool => 1
  | .int32 => 2
  | .int64 => 3
  | .double => 4
  | .text => 5
  | .blob => 6
  | .date => 7
  | .timestamp => 8
  | .other code => code

/-- `static_cast<ValueType>` of a byte. -/
def ValueType.ofByte (code : UInt8) : ValueType :=
  match code.toNat with
  | 0 => .null
  | 1 => .bool
  | 2 => .int32
  | 3 => .int64
  | 4 => .double
  | 5 => .text
  | 6 => .blob
  | 7 => .date
  | 8 => .timestamp
  | _ => .other code

/-- A scalar. `text` and `blob` hold raw bytes, `date` days and `timestamp` milliseconds since
1970-01-01. -/
inductive Value where
  | null
  | boolean (x : Bool)
  | int32 (x : Int32)
  | int64 (x : Int64)
  | real (x : Double)
  | text (x : Bytes)
  | blob (x : Bytes)
  | date (days : Int32)
  | timestamp (millis : Int64)
  deriving DecidableEq, Repr

namespace Value

def type : Value → ValueType
  | null => .null
  | boolean _ => .bool
  | int32 _ => .int32
  | int64 _ => .int64
  | real _ => .double
  | text _ => .text
  | blob _ => .blob
  | date _ => .date
  | timestamp _ => .timestamp

def isNull : Value → Bool
  | null => true
  | _ => false

/-- A double that is not a number. -/
def isNaN : Value → Bool
  | real d => d.isNaN
  | _ => false

/-- The numeric value of the shared Number bucket, as a double. -/
def asNumericDouble : Value → Double
  | int32 x => .ofInt x.toInt
  | int64 x => .ofInt x.toInt
  | real d => d
  | date d => .ofInt d.toInt
  | timestamp t => .ofInt t.toInt
  | _ => ⟨0⟩

/-- Ordering buckets: Null, Bool, Number, Text, Blob. -/
def bucket : Value → Nat
  | null => 0
  | boolean _ => 1
  | int32 _ | int64 _ | real _ | date _ | timestamp _ => 2
  | text _ => 3
  | blob _ => 4

/-- Byte strings compare as sequences of unsigned bytes. -/
def byteKey (bs : Bytes) : List Nat := bs.map UInt8.toNat

def compareBytes (a b : Bytes) : Ordering := cmp (byteKey a) (byteKey b)

def compareDouble (a b : Double) : Ordering :=
  if a.lt b then .lt else if b.lt a then .gt else .eq

/-- `Value::compare`. -/
def compare (a b : Value) : Ordering :=
  if a.bucket ≠ b.bucket then (if a.bucket < b.bucket then .lt else .gt)
  else
    match a, b with
    | boolean x, boolean y => Ord.compare x y
    | text x, text y => compareBytes x y
    | blob x, blob y => compareBytes x y
    | null, _ => .eq
    | x, y => compareDouble x.asNumericDouble y.asNumericDouble

/-- `operator==`: same tag and same payload. -/
def operatorEq : Value → Value → Bool
  | null, null => true
  | boolean x, boolean y => x == y
  | int32 x, int32 y => x == y
  | int64 x, int64 y => x == y
  | real x, real y => x.eq y
  | text x, text y => x == y
  | blob x, blob y => x == y
  | date x, date y => x == y
  | timestamp x, timestamp y => x == y
  | _, _ => false

/-- `operator!=`, derived from `compare` and not from `operator==`. -/
def operatorNe (a b : Value) : Bool := a.compare b != .eq

/-- `operator<`. -/
def operatorLt (a b : Value) : Bool := a.compare b == .lt

/-- `operator>=`. -/
def operatorGe (a b : Value) : Bool := a.compare b != .lt

/-! ## The order behind `compare` -/

/-- Payload of a value within its bucket: a number, or bytes. -/
def payloadRank : Value → ℤ ×ₗ List ℕ
  | null => toLex (0, [])
  | boolean x => toLex (x.toNat, [])
  | text x => toLex (0, byteKey x)
  | blob x => toLex (0, byteKey x)
  | v => toLex (v.asNumericDouble.orderKey, [])

/-- Position of a value in the order of `compare`. -/
def rank (v : Value) : ℕ ×ₗ (ℤ ×ₗ List ℕ) := toLex (v.bucket, v.payloadRank)

theorem isNaN_asNumericDouble (v : Value) (h : v.isNaN = false) :
    v.asNumericDouble.isNaN = false := by
  have h32 : ∀ x : Int32, x.toInt.natAbs < 2 ^ 64 := by
    intro x
    have h1 := x.toInt_lt
    have h2 := x.le_toInt
    omega
  have h64 : ∀ x : Int64, x.toInt.natAbs < 2 ^ 64 := by
    intro x
    have h1 := x.toInt_lt
    have h2 := x.le_toInt
    omega
  cases v with
  | real d => exact h
  | int32 x => exact Double.isNaN_ofInt (h32 x)
  | int64 x => exact Double.isNaN_ofInt (h64 x)
  | date x => exact Double.isNaN_ofInt (h32 x)
  | timestamp x => exact Double.isNaN_ofInt (h64 x)
  | null => rfl
  | boolean x => rfl
  | text x => rfl
  | blob x => rfl

theorem compareDouble_eq_cmp {a b : Double} (ha : a.isNaN = false) (hb : b.isNaN = false) :
    compareDouble a b = cmp a.orderKey b.orderKey := by
  rw [compareDouble, cmp, cmpUsing]
  simp [Double.lt, ha, hb]

theorem cmp_toLex {α β : Type} [LinearOrder α] [LinearOrder β] (x y : α) (p q : β) :
    cmp (toLex (x, p)) (toLex (y, q)) = if x = y then cmp p q else cmp x y := by
  rcases lt_trichotomy x y with h | h | h
  · rw [if_neg h.ne, (cmp_eq_lt_iff x y).2 h, cmp_eq_lt_iff, Prod.Lex.toLex_lt_toLex]
    exact Or.inl h
  · subst h
    rw [if_pos rfl]
    rcases lt_trichotomy p q with hp | rfl | hp
    · rw [(cmp_eq_lt_iff p q).2 hp, cmp_eq_lt_iff, Prod.Lex.toLex_lt_toLex]
      exact Or.inr ⟨rfl, hp⟩
    · rw [cmp_self_eq_eq, cmp_self_eq_eq]
    · rw [(cmp_eq_gt_iff p q).2 hp, cmp_eq_gt_iff, Prod.Lex.toLex_lt_toLex]
      exact Or.inr ⟨rfl, hp⟩
  · rw [if_neg h.ne', (cmp_eq_gt_iff x y).2 h, cmp_eq_gt_iff, Prod.Lex.toLex_lt_toLex]
    exact Or.inl h

theorem cmp_number {x y : Double} (hx : x.isNaN = false) (hy : y.isNaN = false) :
    compareDouble x y = cmp (toLex (x.orderKey, ([] : List ℕ))) (toLex (y.orderKey, [])) := by
  rw [compareDouble_eq_cmp hx hy, cmp_toLex]
  by_cases heq : x.orderKey = y.orderKey
  · rw [if_pos heq, heq, cmp_self_eq_eq, cmp_self_eq_eq]
  · rw [if_neg heq]

theorem cmp_bytes (x y : Bytes) :
    compareBytes x y = cmp (toLex ((0 : ℤ), byteKey x)) (toLex (0, byteKey y)) := by
  rw [cmp_toLex, if_pos rfl, compareBytes]
  -- the order of the lists is decided in two ways
  congr

/-- On values other than NaN, `compare` compares ranks. -/
theorem compare_eq_cmp_rank {a b : Value} (ha : a.isNaN = false) (hb : b.isNaN = false) :
    a.compare b = cmp a.rank b.rank := by
  have hnum := cmp_number (isNaN_asNumericDouble a ha) (isNaN_asNumericDouble b hb)
  rw [rank, rank, cmp_toLex]
  unfold compare
  by_cases h : a.bucket = b.bucket
  · rw [if_neg (not_not.2 h), if_pos h]
    -- equal buckets leave only the pairs of one bucket
    cases a <;> cases b <;>
      first
        | (simp [bucket] at h; done)
        | rfl
        | (rename_i x y; cases x <;> cases y <;> rfl)
        | exact hnum
        | exact cmp_bytes _ _
  · rw [if_pos h, if_neg h]
    rcases Nat.lt_or_gt_of_ne h with hlt | hgt
    · rw [if_pos hlt, (cmp_eq_lt_iff _ _).2 hlt]
    · rw [if_neg (by omega), (cmp_eq_gt_iff _ _).2 hgt]

variable {a b c : Value}

theorem compare_eq_lt_iff (ha : a.isNaN = false) (hb : b.isNaN = false) :
    a.compare b = .lt ↔ a.rank < b.rank := by
  rw [compare_eq_cmp_rank ha hb, cmp_eq_lt_iff]

theorem compare_eq_eq_iff (ha : a.isNaN = false) (hb : b.isNaN = false) :
    a.compare b = .eq ↔ a.rank = b.rank := by
  rw [compare_eq_cmp_rank ha hb, cmp_eq_eq_iff]

theorem operatorLt_iff (ha : a.isNaN = false) (hb : b.isNaN = false) :
    a.operatorLt b = true ↔ a.rank < b.rank := by
  simp [operatorLt, compare_eq_lt_iff ha hb]

theorem operatorGe_iff (ha : a.isNaN = false) (hb : b.isNaN = false) :
    a.operatorGe b = true ↔ b.rank ≤ a.rank := by
  simp [operatorGe, compare_eq_lt_iff ha hb]

theorem operatorNe_eq_false_iff (ha : a.isNaN = false) (hb : b.isNaN = false) :
    a.operatorNe b = false ↔ a.rank = b.rank := by
  simp [operatorNe, compare_eq_eq_iff ha hb]

/-- Natural numbers up to `2 ^ 53` keep their order as keys. -/
theorem rank_int64_lt {m n : Nat} (hmn : m < n) (hn : n ≤ 2 ^ 53) :
    (int64 (Int64.ofNat m)).rank < (int64 (Int64.ofNat n)).rank := by
  have hkey : ∀ k : Nat, k ≤ 2 ^ 53 → (int64 (Int64.ofNat k)).rank =
      toLex (2, toLex ((Double.ofInt k).orderKey, [])) := by
    intro k hk
    show toLex (2, toLex ((Double.ofInt (Int64.ofNat k).toInt).orderKey, [])) = _
    rw [Int64.toInt_ofNat_of_lt (by omega)]
  rw [hkey m (by omega), hkey n hn, Prod.Lex.toLex_lt_toLex]
  exact Or.inr ⟨rfl, Prod.Lex.toLex_lt_toLex.2 (Or.inl (Double.orderKey_ofInt_lt hmn hn))⟩

/-- Tag-true equality is finer than `compare`. -/
theorem rank_eq_of_operatorEq (h : a.operatorEq b = true) : a.rank = b.rank := by
  cases a <;> cases b <;> simp_all [operatorEq, rank, bucket, payloadRank, asNumericDouble,
    Double.eq]

/-- A value equals itself unless it is a NaN. -/
theorem operatorEq_self_iff (v : Value) : v.operatorEq v = true ↔ v.isNaN = false := by
  cases v <;> simp [operatorEq, isNaN, Double.eq]

/-- A NaN equals nothing, not even itself. -/
theorem isNaN_of_operatorEq (h : a.operatorEq b = true) : a.isNaN = false ∧ b.isNaN = false := by
  cases a <;> cases b <;> simp_all [operatorEq, isNaN, Double.eq]

/-- Null sorts before everything. -/
theorem operatorGe_null (v : Value) : v.operatorGe null = true := by
  cases v <;> rfl

/-! ## Wire format -/

/-- `Value::toBytes`: a tag byte and the payload. A text or blob length is cut to 32 bits. -/
def toBytes : Value → Bytes
  | null => [0]
  | boolean x => [1, if x then 1 else 0]
  | int32 x => 2 :: leBytes 4 x.toUInt32.toNat
  | int64 x => 3 :: leBytes 8 x.toUInt64.toNat
  | real d => 4 :: leBytes 8 d.bits.toNat
  | text s => 5 :: (leBytes 4 s.length ++ s)
  | blob v => 6 :: (leBytes 4 v.length ++ v)
  | date d => 7 :: leBytes 4 d.toUInt32.toNat
  | timestamp t => 8 :: leBytes 8 t.toUInt64.toNat

/-- `Value::fromBytes`. It trusts its input: nothing stops a read past the end of the buffer. -/
def fromBytes : Decoder Value := do
  let tag ← readByte
  match tag.toNat with
  | 0 => return .null
  | 1 =>
    let b ← readByte
    return .boolean (b != 0)
  | 2 =>
    let i ← readLE 4
    return .int32 (UInt32.ofNat i).toInt32
  | 3 =>
    let i ← readLE 8
    return .int64 (UInt64.ofNat i).toInt64
  | 4 =>
    let bits ← readLE 8
    return .real ⟨UInt64.ofNat bits⟩
  | 5 =>
    let len ← readLE 4
    let s ← readBytes len
    return .text s
  | 6 =>
    let len ← readLE 4
    let v ← readBytes len
    return .blob v
  | 7 =>
    let i ← readLE 4
    return .date (UInt32.ofNat i).toInt32
  | 8 =>
    let i ← readLE 8
    return .timestamp (UInt64.ofNat i).toInt64
  | _ => throw (.runtimeError (ascii "fromBytes: unknown tag"))

/-- What `toBytes` writes, `fromBytes` reads back, and it stops where the value ends. -/
theorem run_fromBytes_toBytes (v : Value) (hsize : v.toBytes.length < 2 ^ 32) (rest : Bytes) :
    fromBytes.run (v.toBytes ++ rest) = .ok v rest := by
  have h32 : ∀ (x : UInt32) (rest : Bytes),
      (readLE 4).run (leBytes 4 x.toNat ++ rest) = .ok x.toNat rest :=
    fun x rest => run_readLE_append (by simpa using x.toNat_lt) rest
  have h64 : ∀ (x : UInt64) (rest : Bytes),
      (readLE 8).run (leBytes 8 x.toNat ++ rest) = .ok x.toNat rest :=
    fun x rest => run_readLE_append (by simpa using x.toNat_lt) rest
  have hi32 : ∀ x : Int32, Int32.ofNat x.toUInt32.toNat = x := by
    intro x
    show (UInt32.ofNat x.toUInt32.toNat).toInt32 = x
    rw [UInt32.ofNat_toNat]
    rfl
  have hi64 : ∀ x : Int64, Int64.ofNat x.toUInt64.toNat = x := by
    intro x
    show (UInt64.ofNat x.toUInt64.toNat).toInt64 = x
    rw [UInt64.ofNat_toNat]
    rfl
  have hlen : ∀ s : Bytes, s.length < 2 ^ 32 → ∀ rest : Bytes,
      (readLE 4).run (leBytes 4 s.length ++ rest) = .ok s.length rest :=
    fun s hs rest => run_readLE_append (by simpa using hs) rest
  cases v with
  | null => rfl
  | boolean x => cases x <;> rfl
  | int32 x => simp [fromBytes, toBytes, h32, hi32]
  | int64 x => simp [fromBytes, toBytes, h64, hi64]
  | real d => simp [fromBytes, toBytes, h64]
  | date d => simp [fromBytes, toBytes, h32, hi32]
  | timestamp t => simp [fromBytes, toBytes, h64, hi64]
  | text s =>
    have hs : s.length < 2 ^ 32 := by
      simp only [toBytes, List.length_cons, List.length_append, length_leBytes] at hsize
      omega
    simp [fromBytes, toBytes, hlen s hs]
  | blob s =>
    have hs : s.length < 2 ^ 32 := by
      simp only [toBytes, List.length_cons, List.length_append, length_leBytes] at hsize
      omega
    simp [fromBytes, toBytes, hlen s hs]

end Value

end OpenDB
