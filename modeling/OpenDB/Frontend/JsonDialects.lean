import OpenDB.Frontend.JsonGrammar
import Mathlib.Data.List.TakeWhile

/-!
# JSON, and what the parser takes for it

The parser allows control characters in strings, a plus sign, leading zeros and a bare sign in numbers
and a minus sign in front of a transaction, and it knows neither fractions and exponents nor surrogate
pairs. A dialect reads the same request from the members it allows, whatever their texts
(`request_eq_some_iff`), so the two differ on the tokens alone.
-/

set_option autoImplicit false

namespace OpenDB

namespace Json

/-! ## Surrogate pairs -/

theorem length_utf8_of_surrogate {code : Nat} (h : isHigh code = true ∨ isLow code = true) :
    (utf8 code).length = 3 ∧ ∃ c ∈ utf8 code, ¬ c < 128 := by
  have hrange : 0xD800 ≤ code ∧ code ≤ 0xDFFF := by
    simp only [isHigh, isLow, Bool.and_eq_true, decide_eq_true_eq] at h
    omega
  have hfirst : code >>> 12 = 13 := by
    rw [Nat.shiftRight_eq_div_pow]
    omega
  rw [utf8, if_neg (by omega), if_neg (by omega)]
  exact ⟨rfl, _, List.mem_cons_self, by rw [hfirst]; decide⟩

theorem utf8Pair_not_ascii {high low : Nat} (hhigh : isHigh high = true) (hlow : isLow low = true) :
    ∃ c ∈ utf8Pair high low, ¬ c < 128 := by
  simp only [isHigh, isLow, Bool.and_eq_true, decide_eq_true_eq] at hhigh hlow
  set point := 0x10000 + 0x400 * (high - 0xD800) + (low - 0xDC00) with hpoint
  have hfirst : point >>> 18 < 5 := by
    rw [Nat.shiftRight_eq_div_pow]
    omega
  refine ⟨_, List.mem_cons_self, ?_⟩
  rw [← hpoint]
  generalize point >>> 18 = k at hfirst
  revert k
  decide

theorem pairText_eq {items : List Item} (h : hasPair items = false) : pairText items = unitText items := by
  fun_induction pairText items <;> simp_all [hasPair, unitText, Item.bytes]

@[simp] theorem unitText_cons (item : Item) (items : List Item) :
    unitText (item :: items) = item.bytes ++ unitText items := rfl

theorem length_pairText_le (items : List Item) :
    (pairText items).length ≤ (unitText items).length := by
  fun_induction pairText items with
  | case1 => simp
  | case2 high low rest hpair ih =>
    simp only [Bool.and_eq_true] at hpair
    have hhigh := (length_utf8_of_surrogate (.inl hpair.1)).1
    have hlow := (length_utf8_of_surrogate (.inr hpair.2)).1
    simp only [unitText_cons, Item.bytes, List.length_append, utf8Pair, List.length_cons,
      List.length_nil]
    omega
  | case3 high low rest hpair ih =>
    simp only [unitText_cons, Item.bytes, List.length_append] at ih ⊢
    omega
  | case4 item rest hnot ih =>
    simp only [unitText_cons, List.length_append]
    omega

/-- A surrogate pair is shorter than its two halves. -/
theorem length_pairText_lt {items : List Item} (h : hasPair items = true) :
    (pairText items).length < (unitText items).length := by
  fun_induction pairText items with
  | case1 => cases h
  | case2 high low rest hpair ih =>
    simp only [Bool.and_eq_true] at hpair
    have hhigh := (length_utf8_of_surrogate (.inl hpair.1)).1
    have hlow := (length_utf8_of_surrogate (.inr hpair.2)).1
    have hle := length_pairText_le rest
    simp only [unitText_cons, Item.bytes, List.length_append, utf8Pair, List.length_cons,
      List.length_nil]
    omega
  | case3 high low rest hpair ih =>
    have hrest := ih (by simpa [hasPair, hpair] using h)
    simp only [unitText_cons, Item.bytes, List.length_append] at hrest ⊢
    omega
  | case4 item rest hnot ih =>
    have hrest := ih (by rw [hasPair] at h <;> simp_all)
    simp only [unitText_cons, List.length_append]
    omega

/-- The two readings of a string are the same exactly if it has no surrogate pair. -/
theorem pairText_eq_iff {items : List Item} :
    pairText items = unitText items ↔ hasPair items = false := by
  refine ⟨fun h => ?_, pairText_eq⟩
  by_contra hpair
  have hpair : hasPair items = true := by simpa using hpair
  have hlt := length_pairText_lt hpair
  rw [h] at hlt
  exact lt_irrefl _ hlt

theorem unitText_not_ascii {items : List Item} (h : hasPair items = true) :
    ¬ IsAscii (unitText items) := by
  fun_induction hasPair items with
  | case1 high low rest ih =>
    intro hascii
    simp only [unitText_cons, Item.bytes] at hascii ih
    by_cases hhigh : isHigh high = true
    · obtain ⟨c, hc, hbig⟩ := (length_utf8_of_surrogate (.inl hhigh)).2
      exact hbig (hascii c (List.mem_append_left _ hc))
    · exact ih (by simpa [hhigh] using h) fun c hc => hascii c (List.mem_append_right _ hc)
  | case2 item rest hnot ih => exact fun hascii => ih h fun c hc => hascii c (List.mem_append_right _ hc)
  | case3 => cases h

theorem pairText_not_ascii {items : List Item} (h : hasPair items = true) :
    ¬ IsAscii (pairText items) := by
  fun_induction pairText items with
  | case1 => cases h
  | case2 high low rest hpair ih =>
    simp only [Bool.and_eq_true] at hpair
    obtain ⟨c, hc, hbig⟩ := utf8Pair_not_ascii hpair.1 hpair.2
    exact fun hascii => hbig (hascii c (List.mem_append_left _ hc))
  | case3 high low rest hpair ih =>
    exact fun hascii => ih (by simpa [hasPair, hpair] using h) fun c hc =>
      hascii c (List.mem_append_right _ hc)
  | case4 item rest hnot ih =>
    exact fun hascii => ih (by rw [hasPair] at h <;> simp_all) fun c hc =>
      hascii c (List.mem_append_right _ hc)

theorem pairText_ascii_iff (items : List Item) (name : Bytes) (hname : IsAscii name) :
    pairText items = name ↔ unitText items = name := by
  cases hpair : hasPair items with
  | false => rw [pairText_eq hpair]
  | true =>
    refine iff_of_false ?_ ?_
    · rintro rfl
      exact pairText_not_ascii hpair hname
    · rintro rfl
      exact unitText_not_ascii hpair hname

/-! ## The dialects -/

/-- What the parser allows. -/
def lenient : Dialect where
  text := unitText
  string _ := true
  number := isSignedDigits
  txnId text := if isSignedDigits text then stoull text else none
  text_eq_iff _ _ _ := Iff.rfl

/-- The number of a transaction: an integer, not negative, of at most 64 bits. -/
def unsignedValue (text : Bytes) : Option UInt64 :=
  if isInteger text ∧ 0 ≤ integerValue text ∧ integerValue text < 2 ^ 64 then
    some (UInt64.ofNat (integerValue text).toNat)
  else none

/-- JSON. -/
def standard : Dialect where
  text := pairText
  string := noControl
  number := isNumber
  txnId := unsignedValue
  text_eq_iff := pairText_ascii_iff

/-- What both allow: no control characters, and integers without a plus sign and leading zeros. -/
def shared : Dialect where
  text := unitText
  string := noControl
  number := isInteger
  txnId := unsignedValue
  text_eq_iff _ _ _ := Iff.rfl

/-! ## Numbers -/

theorem dropWhile_eq_nil {p : UInt8 → Bool} {s : Bytes} : s.dropWhile p = [] ↔ s.all p = true := by
  rw [List.dropWhile_eq_nil_iff, List.all_eq_true]

theorem takeWhile_eq_self {p : UInt8 → Bool} {s : Bytes} (h : s.all p = true) : s.takeWhile p = s :=
  List.takeWhile_eq_self_iff.2 (List.all_eq_true.1 h)

theorem isSignedDigits_iff {c : UInt8} {rest : Bytes} : isSignedDigits (c :: rest) = true ↔
    if c = 45 ∨ c = 43 then rest.all isDigit = true else (c :: rest).all isDigit = true := by
  rw [isSignedDigits, signedDigits, List.isEmpty_iff]
  split_ifs
  · exact dropWhile_eq_nil
  · exact dropWhile_eq_nil

/-- The digits of an integer. -/
theorem all_digits_of_isInteger {text : Bytes} (h : isInteger text = true) :
    dropMinus text ≠ [] ∧ (dropMinus text).all isDigit = true := by
  simp only [isInteger, isWhole, Bool.and_eq_true, Bool.not_eq_true'] at h
  refine ⟨fun hnil => ?_, h.1.2⟩
  rw [hnil] at h
  exact absurd h.1.1 (by decide)

theorem isNumber_of_isInteger {text : Bytes} (h : isInteger text = true) : isNumber text = true := by
  obtain ⟨-, hdigits⟩ := all_digits_of_isInteger h
  rw [isNumber, takeWhile_eq_self hdigits, dropWhile_eq_nil.2 hdigits]
  exact Bool.and_eq_true _ _ ▸ ⟨h, rfl⟩

theorem isSignedDigits_of_isInteger {text : Bytes} (h : isInteger text = true) :
    isSignedDigits text = true := by
  obtain ⟨hne, hdigits⟩ := all_digits_of_isInteger h
  cases text with
  | nil => exact absurd rfl hne
  | cons c rest =>
    rw [isSignedDigits_iff]
    rw [dropMinus] at hdigits
    by_cases hminus : c = 45
    · rw [if_pos (.inl hminus)]
      rwa [if_pos hminus] at hdigits
    · rw [if_neg hminus] at hdigits
      -- a digit is no sign
      have hdigit : isDigit c = true := by
        rw [List.all_cons, Bool.and_eq_true] at hdigits
        exact hdigits.1
      have hplus : c ≠ 43 := by
        rintro rfl
        exact absurd hdigit (by decide)
      rwa [if_neg (by simp [hminus, hplus])]

theorem isInteger_iff (text : Bytes) :
    isInteger text = true ↔ isSignedDigits text = true ∧ isNumber text = true := by
  refine ⟨fun h => ⟨isSignedDigits_of_isInteger h, isNumber_of_isInteger h⟩, fun ⟨hsigned, hnumber⟩ => ?_⟩
  rw [isNumber, Bool.and_eq_true] at hnumber
  have hdigits : (dropMinus text).all isDigit = true := by
    cases text with
    | nil => rfl
    | cons c rest =>
      rw [isSignedDigits_iff] at hsigned
      rw [dropMinus]
      by_cases hminus : c = 45
      · rw [if_pos (.inl hminus)] at hsigned
        rwa [if_pos hminus]
      · rw [if_neg hminus]
        by_cases hplus : c = 43
        · have hnone : (c :: rest).takeWhile isDigit = [] := by
            rw [hplus]
            rfl
          rw [dropMinus, if_neg hminus, hnone] at hnumber
          exact absurd hnumber.1 (by decide)
        · rwa [if_neg (by simp [hminus, hplus])] at hsigned
  rw [isInteger]
  rw [takeWhile_eq_self hdigits] at hnumber
  exact hnumber.1

theorem isSpace_of_isDigit {c : UInt8} (h : isDigit c = true) : isSpace c = false := by
  have h32 : (32 : UInt8).toNat = 32 := rfl
  have h9 : (9 : UInt8).toNat = 9 := rfl
  have h13 : (13 : UInt8).toNat = 13 := rfl
  have h48 : (48 : UInt8).toNat = 48 := rfl
  have h57 : (57 : UInt8).toNat = 57 := rfl
  simp only [isDigit, Bool.and_eq_true, decide_eq_true_eq, UInt8.le_iff_toNat_le] at h
  simp only [isSpace, Bool.or_eq_false_iff, Bool.and_eq_false_iff, beq_eq_false_iff_ne, ne_eq,
    decide_eq_false_iff_not, UInt8.le_iff_toNat_le, ← UInt8.toNat_inj]
  omega

theorem readInteger_of_isInteger {text : Bytes} (h : isInteger text = true) :
    readInteger text = (decide (text.head? = some 45), dropMinus text) := by
  obtain ⟨hne, hdigits⟩ := all_digits_of_isInteger h
  cases text with
  | nil => exact absurd rfl hne
  | cons c rest =>
    rw [dropMinus] at hdigits ⊢
    by_cases hminus : c = 45
    · rw [if_pos hminus] at hdigits ⊢
      subst hminus
      have hspace : isSpace 45 = false := rfl
      simp [readInteger, hspace, readSign, takeWhile_eq_self hdigits]
    · rw [if_neg hminus] at hdigits ⊢
      have hdigit : isDigit c = true := by
        rw [List.all_cons, Bool.and_eq_true] at hdigits
        exact hdigits.1
      have hplus : c ≠ 43 := by
        rintro rfl
        exact absurd hdigit (by decide)
      have hsign : readSign (c :: rest) = (false, c :: rest) := by
        rw [readSign]
        · simpa using hplus
        · simpa using hminus
      simp [readInteger, isSpace_of_isDigit hdigit, hsign, takeWhile_eq_self hdigits, hminus]

/-- Where JSON gives a transaction a number, so does the parser, and the same one. -/
theorem stoull_of_unsignedValue {text : Bytes} {n : UInt64} (h : unsignedValue text = some n) :
    stoull text = some n := by
  rw [unsignedValue] at h
  split_ifs at h with hvalue
  obtain ⟨hinteger, hpos, hlt⟩ := hvalue
  have hne : (dropMinus text).isEmpty = false := by
    simpa using (all_digits_of_isInteger hinteger).1
  rw [stoull, readInteger_of_isInteger hinteger, ← h]
  rw [integerValue] at hpos hlt ⊢
  by_cases hminus : text.head? = some 45
  · -- minus zero
    rw [if_pos hminus] at hpos hlt ⊢
    have hzero : digitsValue (dropMinus text) = 0 := by omega
    simp [hne, hminus, hzero]
  · have hsame : dropMinus text = text := by
      cases text with
      | nil => rfl
      | cons c rest => exact if_neg (by simpa using hminus)
    rw [if_neg hminus] at hpos hlt ⊢
    rw [hsame] at hne ⊢
    have hfits : digitsValue text < 18446744073709551616 := by omega
    simp [hne, hminus, hfits]

theorem lenient_txnId_of_unsignedValue {text : Bytes} {n : UInt64} (h : unsignedValue text = some n) :
    lenient.txnId text = some n := by
  have hinteger : isInteger text = true := by
    rw [unsignedValue] at h
    split_ifs at h with hvalue
    exact hvalue.1
  exact (if_pos (isSignedDigits_of_isInteger hinteger)).trans (stoull_of_unsignedValue h)

/-! ## Members -/

/-- Which part of the request a member is. -/
inductive Name where
  | type | sql | txnId | other
  deriving DecidableEq

def Field.name (f : Field) : Name :=
  if unitText f.key = ascii "type" then .type
  else if unitText f.key = ascii "sql" then .sql
  else if unitText f.key = ascii "txnId" then .txnId
  else .other

/-- The parts of a request as they are written. -/
structure Parts where
  type : List Item
  sql : List Item
  txnId : Option Bytes

def Parts.set (parts : Parts) (f : Field) : Parts :=
  match f.name, f.value with
  | .type, .string items => { parts with type := items }
  | .sql, .string items => { parts with sql := items }
  | .txnId, .number text => { parts with txnId := some text }
  | _, _ => parts

/-- The last member of each name counts. -/
def partsOf (fields : List Field) : Parts := fields.foldl Parts.set ⟨[], [], none⟩

namespace Dialect

variable {D : Dialect}

/-- The member is allowed. -/
def Allows (D : Dialect) (f : Field) : Prop :=
  D.string f.key = true ∧
    match f.name with
    | .type => (D.stringValue f.value).isSome
    | .sql => (D.stringValue f.value).isSome
    | .txnId => (D.txnValue f.value).isSome
    | .other => f.value.tokens.all D.token = true

/-- What the parts stand for. -/
def finish (D : Dialect) (parts : Parts) : JsonRequest :=
  ⟨D.text parts.type, D.text parts.sql, parts.txnId.bind D.txnId⟩

/-- The names are ASCII, so all dialects see the same ones. -/
theorem step_eq (D : Dialect) (req : JsonRequest) (f : Field) :
    D.step req f =
      if D.string f.key = false then none
      else match f.name with
        | .type => (D.stringValue f.value).map fun v => { req with type := v }
        | .sql => (D.stringValue f.value).map fun v => { req with sql := v }
        | .txnId => (D.txnValue f.value).map fun n => { req with txnId := some n }
        | .other => if f.value.tokens.all D.token then some req else none := by
  have htype := D.text_eq_iff f.key (ascii "type") (by decide)
  have hsql := D.text_eq_iff f.key (ascii "sql") (by decide)
  have htxn := D.text_eq_iff f.key (ascii "txnId") (by decide)
  simp only [step, htype, hsql, htxn, Field.name]
  split_ifs <;> rfl

theorem stringValue_eq_some {value : JsonValue} {v : Bytes} (h : D.stringValue value = some v) :
    ∃ items, value = .string items ∧ v = D.text items := by
  cases value with
  | string items =>
    rw [stringValue] at h
    split_ifs at h
    cases h
    exact ⟨items, rfl, rfl⟩
  | _ => cases h

theorem txnValue_eq_some {value : JsonValue} {n : UInt64} (h : D.txnValue value = some n) :
    ∃ text, value = .number text ∧ D.txnId text = some n := by
  cases value with
  | number text => exact ⟨text, rfl, h⟩
  | _ => cases h

/-- One member more. -/
theorem step_eq_some_iff {parts : Parts} {f : Field} {req : JsonRequest} :
    D.step (D.finish parts) f = some req ↔ D.Allows f ∧ req = D.finish (parts.set f) := by
  rw [step_eq, Allows]
  cases hkey : D.string f.key with
  | false => simp
  | true =>
    rw [if_neg (by simp)]
    cases hname : f.name with
    | type =>
      cases hvalue : D.stringValue f.value with
      | none => simp
      | some v =>
        obtain ⟨items, hitems, rfl⟩ := stringValue_eq_some hvalue
        simp [Parts.set, hname, hitems, finish, eq_comm]
    | sql =>
      cases hvalue : D.stringValue f.value with
      | none => simp
      | some v =>
        obtain ⟨items, hitems, rfl⟩ := stringValue_eq_some hvalue
        simp [Parts.set, hname, hitems, finish, eq_comm]
    | txnId =>
      cases hvalue : D.txnValue f.value with
      | none => simp
      | some n =>
        obtain ⟨text, htext, hn⟩ := txnValue_eq_some hvalue
        simp [Parts.set, hname, htext, finish, hn, eq_comm]
    | other =>
      have hset : parts.set f = parts := by simp [Parts.set, hname]
      rw [hset]
      dsimp only
      split_ifs with hall <;> simp [hall, eq_comm (a := req)]

theorem finish_nil (D : Dialect) : D.finish ⟨[], [], none⟩ = emptyRequest := by
  have hnil : D.text [] = [] := (D.text_eq_iff [] [] (by decide)).2 rfl
  rw [finish, hnil]
  rfl

/-- Members make up a request if each is allowed, and then it is the one of their parts. -/
theorem request_eq_some_iff {fields : List Field} {req : JsonRequest} :
    D.request fields = some req ↔ (∀ f ∈ fields, D.Allows f) ∧ req = D.finish (partsOf fields) := by
  rw [request, partsOf, ← finish_nil D]
  generalize (⟨[], [], none⟩ : Parts) = parts
  induction fields generalizing parts with
  | nil => exact ⟨fun h => ⟨by simp, (Option.some.inj h).symm⟩, fun h => congrArg some h.2.symm⟩
  | cons f fields ih =>
    rw [List.foldlM_cons, List.forall_mem_cons, List.foldl_cons]
    constructor
    · intro h
      obtain ⟨req', hstep, hrest⟩ := Option.bind_eq_some_iff.1 h
      obtain ⟨hallows, rfl⟩ := step_eq_some_iff.1 hstep
      obtain ⟨hall, hreq⟩ := (ih _).1 hrest
      exact ⟨⟨hallows, hall⟩, hreq⟩
    · rintro ⟨⟨hallows, hall⟩, hreq⟩
      exact Option.bind_eq_some_iff.2 ⟨_, step_eq_some_iff.2 ⟨hallows, rfl⟩, (ih _).2 ⟨hall, hreq⟩⟩

/-- No dialect makes a type of nothing, or nothing of a type. -/
theorem type_finish_eq_nil_iff (D : Dialect) (parts : Parts) :
    (D.finish parts).type = [] ↔ unitText parts.type = [] :=
  D.text_eq_iff parts.type [] (by decide)

end Dialect

/-! ## What is shared -/

theorem token_shared (token : Token) :
    shared.token token = (lenient.token token && standard.token token) := by
  cases token with
  | string items => rfl
  | number text =>
    rw [Bool.eq_iff_iff, Bool.and_eq_true]
    exact isInteger_iff text

theorem all_token_shared (tokens : List Token) :
    tokens.all shared.token = true ↔
      tokens.all lenient.token = true ∧ tokens.all standard.token = true := by
  simp only [List.all_eq_true, token_shared, Bool.and_eq_true]
  exact forall₂_and

theorem isSome_stringValue_shared (value : JsonValue) :
    (shared.stringValue value).isSome ↔
      (lenient.stringValue value).isSome ∧ (standard.stringValue value).isSome := by
  cases value with
  | string items =>
    cases hitems : noControl items <;>
      simp [Dialect.stringValue, shared, lenient, standard, hitems]
  | _ => simp [Dialect.stringValue]

theorem isSome_txnValue_shared (value : JsonValue) :
    (shared.txnValue value).isSome ↔
      (lenient.txnValue value).isSome ∧ (standard.txnValue value).isSome := by
  cases value with
  | number text =>
    refine ⟨fun h => ⟨?_, h⟩, fun h => h.2⟩
    obtain ⟨n, hn⟩ := Option.isSome_iff_exists.1 h
    exact Option.isSome_iff_exists.2 ⟨n, lenient_txnId_of_unsignedValue hn⟩
  | _ => simp [Dialect.txnValue]

/-- What both dialects allow is what the shared one does. -/
theorem shared_allows_iff (f : Field) : shared.Allows f ↔ lenient.Allows f ∧ standard.Allows f := by
  have hkey : shared.string f.key = true ↔ lenient.string f.key = true ∧ standard.string f.key = true :=
    ⟨fun h => ⟨rfl, h⟩, fun h => h.2⟩
  simp only [Dialect.Allows]
  rw [hkey]
  cases f.name with
  | type => rw [isSome_stringValue_shared]; exact and_and_and_comm
  | sql => rw [isSome_stringValue_shared]; exact and_and_and_comm
  | txnId => rw [isSome_txnValue_shared]; exact and_and_and_comm
  | other => rw [all_token_shared]; exact and_and_and_comm

end Json

end OpenDB
