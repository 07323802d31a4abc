import OpenDB.Frontend.JsonEncoder
import OpenDB.Library.JsonText
import OpenDB.Types.DecimalText

/-!
# Answers are JSON

What the encoder writes, against the grammar of JSON. Integers, strings, blobs, dates and timestamps are
derived from it whatever they are, and so are the errors (`document_encodeError`). A double is printed as
`printf` does, which writes `inf` and `nan` for the doubles that are no numbers.

So an answer is JSON, with one object for each of its rows, exactly when all its doubles are finite
(`encode_json_iff`).
-/

set_option autoImplicit false

namespace OpenDB

open OpenDB.Library OpenDB.Library.JsonText

/-! ## Digits -/

theorem digit_decimal {n : Nat} {c : UInt8} (h : c ∈ decimal n) : Digit c := by
  have hdigit : 48 ≤ c ∧ c ≤ 57 := by simpa [isDigit] using isDigit_of_mem_decimal h
  exact hdigit

theorem digits_decimal (n : Nat) : Digits (decimal n) :=
  ⟨decimal_ne_nil n, fun _ => digit_decimal⟩

theorem whole_decimal (n : Nat) : Whole (decimal n) := by
  rcases Nat.eq_zero_or_pos n with rfl | hpos
  · exact Or.inl (by decide)
  · exact Or.inr ⟨digits_decimal n, head?_decimal hpos⟩

theorem number_signedDecimal (n : Int) : Number (signedDecimal n) := by
  rw [signedDecimal]
  split_ifs
  · exact ⟨[45], decimal n.natAbs, [], [], .inr rfl, whole_decimal _, .inl rfl, .inl rfl, by
      simp only [List.append_nil]
      rfl⟩
  · exact ⟨[], decimal n.natAbs, [], [], .inl rfl, whole_decimal _, .inl rfl, .inl rfl, by simp⟩

/-- Digits with zeros in front of them. -/
theorem digits_zeroPadded (width n : Nat) : Digits (zeroPadded width n) := by
  obtain ⟨hne, hdigits⟩ := digits_decimal n
  have htext : zeroPadded width n = List.replicate (width - (decimal n).length) 48 ++ decimal n := by
    have hpos : ¬ (n : Int) < 0 := not_lt.2 (Int.natCast_nonneg n)
    simp only [zeroPadded, if_neg hpos]
    rfl
  rw [htext]
  refine ⟨by simp [hne], fun c hc => ?_⟩
  rcases List.mem_append.1 hc with hzero | hc
  · rw [List.eq_of_mem_replicate hzero]
    exact ⟨by decide, by decide⟩
  · exact hdigits c hc

namespace Double

/-- Neither infinite nor a NaN. -/
def IsFinite (d : Double) : Prop := d.magnitude < 0x7FF0000000000000

instance (d : Double) : Decidable d.IsFinite := inferInstanceAs (Decidable (_ < _))

/-- A finite double is printed as digits, a point and six digits. -/
theorem number_toText {d : Double} (h : d.IsFinite) : Number d.toText := by
  have hnan : ¬ d.isNaN := by
    simp only [isNaN, decide_eq_true_eq, not_lt]
    exact h.le
  rw [toText, if_neg hnan, if_neg h.ne]
  refine ⟨if d.isNegative then ascii "-" else [], decimal (d.millionths / 10 ^ 6), _, [], ?_,
    whole_decimal _, .inr ⟨_, digits_zeroPadded 6 (d.millionths % 10 ^ 6), rfl⟩, .inl rfl, ?_⟩
  · split_ifs
    · exact .inr rfl
    · exact .inl rfl
  · rw [List.append_nil]
    rfl

theorem fails_toText {d : Double} (h : ¬ d.IsFinite) : Fails d.toText := by
  unfold toText
  split_ifs with hneg hnan hinf hnan hinf
  · rfl
  · rfl
  · exact absurd (lt_of_le_of_ne (not_lt.1 (by simpa [isNaN] using hnan)) hinf) h
  · rfl
  · rfl
  · exact absurd (lt_of_le_of_ne (not_lt.1 (by simpa [isNaN] using hnan)) hinf) h

end Double

/-! ## Strings -/

namespace JsonEncoder

/-- A byte that a string can hold as it is. -/
def Plain (c : UInt8) : Prop := 32 ≤ c ∧ c ≠ 34 ∧ c ≠ 92

instance (c : UInt8) : Decidable (Plain c) := inferInstanceAs (Decidable (_ ∧ _))

theorem chars_of_plain {s : Bytes} (h : ∀ c ∈ s, Plain c) : Chars s := by
  induction s with
  | nil => exact .nil
  | cons c s ih =>
    obtain ⟨hlow, hquote, hslash⟩ := h c (List.mem_cons_self ..)
    exact .unescaped hlow hquote hslash (ih fun c hc => h c (List.mem_cons_of_mem _ hc))

/-- Plain bytes of a known text are found by looking at each of them. -/
theorem plain_of_all {s : Bytes} (h : (s.all fun c => decide (Plain c)) = true) : ∀ c ∈ s, Plain c :=
  fun c hc => of_decide_eq_true (List.all_eq_true.1 h c hc)

theorem chars_of_all {s : Bytes} (h : (s.all fun c => decide (Plain c)) = true) : Chars s :=
  chars_of_plain (plain_of_all h)

theorem chars_escapeByte (c : UInt8) : Chars (escapeByte c) := by
  -- all control characters at once: four hexadecimal digits each
  have hcontrol : ∀ n < 32, (zeroFilled 4 (hexadecimal n)).length = 4 ∧
      ((zeroFilled 4 (hexadecimal n)).all fun c => decide ((48 ≤ c ∧ c ≤ 57) ∨ (65 ≤ c ∧ c ≤ 70))) =
        true := by
    decide
  rw [escapeByte]
  split_ifs with hquote hslash _ _ _ _ _ hlow
  · exact .escape (by decide) .nil
  · exact .escape (by decide) .nil
  · exact .escape (by decide) .nil
  · exact .escape (by decide) .nil
  · exact .escape (by decide) .nil
  · exact .escape (by decide) .nil
  · exact .escape (by decide) .nil
  · obtain ⟨hlength, hdigits⟩ := hcontrol c.toNat (UInt8.lt_iff_toNat_lt.1 hlow)
    have hdigit : ∀ d ∈ zeroFilled 4 (hexadecimal c.toNat), (48 ≤ d ∧ d ≤ 57) ∨ (65 ≤ d ∧ d ≤ 70) :=
      fun d hd => of_decide_eq_true (List.all_eq_true.1 hdigits d hd)
    have hunicode := Chars.unicode hlength (fun d hd => (hdigit d hd).imp_right Or.inl) .nil
    rw [List.append_nil] at hunicode
    exact hunicode
  · exact .unescaped (UInt8.not_lt.1 hlow) hquote hslash .nil

/-- Whatever is escaped can stand between quotes. -/
theorem chars_escapeJson (s : Bytes) : Chars (escapeJson s) := by
  induction s with
  | nil => exact .nil
  | cons c s ih =>
    rw [escapeJson, List.flatMap_cons]
    exact (chars_escapeByte c).append ih

theorem plain_of_digit {c : UInt8} (h : Digit c) : Plain c := by
  refine ⟨UInt8.le_trans (by decide) h.1, ?_, ?_⟩
  · rintro rfl
    exact absurd h.1 (by decide)
  · rintro rfl
    exact absurd h.2 (by decide)

theorem plain_alphabetAt (n : UInt32) : Plain (alphabetAt n) := by
  have hall : ∀ c ∈ kAlphabet, Plain c := plain_of_all (by decide)
  have hindex : (n &&& 0x3F).toNat < kAlphabet.length := by
    rw [UInt32.toNat_and]
    exact Nat.and_lt_two_pow n.toNat (n := 6) (by decide)
  rw [alphabetAt, List.getD_eq_getElem?_getD, List.getElem?_eq_getElem hindex]
  exact hall _ (List.getElem_mem hindex)

theorem plain_base64Encode (bytes : Bytes) : ∀ c ∈ base64Encode bytes, Plain c := by
  have hpadding : Plain 61 := by decide
  induction bytes using base64Encode.induct with
  | case1 b₀ b₁ b₂ rest ih => simpa [base64Encode, plain_alphabetAt] using ih
  | case2 b₀ b₁ => simp [base64Encode, plain_alphabetAt, hpadding]
  | case3 b₀ => simp [base64Encode, plain_alphabetAt, hpadding]
  | case4 => simp [base64Encode]

theorem plain_signedDecimal (n : Int) : ∀ c ∈ signedDecimal n, Plain c := by
  have hdigits : ∀ c ∈ decimal n.natAbs, Plain c := fun c hc => plain_of_digit (digit_decimal hc)
  have hminus : ∀ c ∈ ascii "-", Plain c := plain_of_all (by decide)
  rw [signedDecimal]
  split_ifs
  · exact List.forall_mem_append.2 ⟨hminus, hdigits⟩
  · exact hdigits

theorem plain_zeroFilled {text : Bytes} (width : Nat) (h : ∀ c ∈ text, Plain c) :
    ∀ c ∈ zeroFilled width text, Plain c := by
  refine List.forall_mem_append.2 ⟨fun c hc => ?_, h⟩
  rw [List.eq_of_mem_replicate hc]
  decide

theorem plain_encodeIsoDate (days : Int32) : ∀ c ∈ encodeIsoDate days, Plain c := by
  have hdash : ∀ c ∈ ascii "-", Plain c := plain_of_all (by decide)
  have hfield : ∀ width (n : Int), ∀ c ∈ zeroFilled width (signedDecimal n), Plain c :=
    fun width n => plain_zeroFilled width (plain_signedDecimal n)
  have hdate : encodeIsoDate days = zeroFilled 4 (signedDecimal (isoDate days).1.toInt) ++
      (ascii "-" ++ (zeroFilled 2 (signedDecimal (isoDate days).2.1.toInt) ++ (ascii "-" ++
        zeroFilled 2 (signedDecimal (isoDate days).2.2.toInt)))) := rfl
  rw [hdate]
  simp only [List.forall_mem_append]
  exact ⟨hfield _ _, hdash, hfield _ _, hdash, hfield _ _⟩

theorem plain_encodeIsoTimestamp (ms : Int64) : ∀ c ∈ encodeIsoTimestamp ms, Plain c := by
  have hletter : ∀ c ∈ ascii "T", Plain c := plain_of_all (by decide)
  have hcolon : ∀ c ∈ ascii ":", Plain c := plain_of_all (by decide)
  have hpoint : ∀ c ∈ ascii ".", Plain c := plain_of_all (by decide)
  have hzone : ∀ c ∈ ascii "Z", Plain c := plain_of_all (by decide)
  have hfield : ∀ width (n : Int), ∀ c ∈ zeroFilled width (signedDecimal n), Plain c :=
    fun width n => plain_zeroFilled width (plain_signedDecimal n)
  simp only [encodeIsoTimestamp, List.forall_mem_append]
  exact ⟨plain_encodeIsoDate _, hletter, hfield _ _, hcolon, hfield _ _, hcolon, hfield _ _, hpoint,
    hfield _ _, hzone⟩

end JsonEncoder

/-! ## Values and rows -/

/-- Every double of the value is a number. -/
def Value.IsFinite : Value → Prop
  | .real d => d.IsFinite
  | _ => True

def Tuple.IsFinite (t : Tuple) : Prop := ∀ c ∈ t.columns, c.value.IsFinite

def ResultSet.IsFinite (rs : ResultSet) : Prop := ∀ t ∈ rs.rows, t.IsFinite

namespace JsonEncoder

/-- What the text of a value is derived from. -/
def valueTree : Value → Tree
  | .null => .null
  | .boolean x => .boolean x
  | .int32 x => .number (signedDecimal x.toInt)
  | .int64 x => .number (signedDecimal x.toInt)
  | .real d => .number d.toText
  | .text s => .string (escapeJson s)
  | .blob b => .string (base64Encode b)
  | .date days => .string (encodeIsoDate days)
  | .timestamp ms => .string (encodeIsoTimestamp ms)

/-- An object with a member for each column. -/
def rowTree (t : Tuple) : Tree :=
  .object (t.columns.map fun c => (escapeJson c.name, valueTree c.value))

/-- The answer holds an array with an object for each row. -/
def responseTree (rs : ResultSet) : Tree :=
  .object [(ascii "success", .boolean rs.success), (ascii "rows", .array (rs.rows.map rowTree))]

theorem quoted_eq (s : Bytes) : ascii "\"" ++ s ++ ascii "\"" = 34 :: (s ++ [34]) := by
  have hquote : ascii "\"" = [34] := by decide
  rw [hquote]
  rfl

theorem derives_encodeValue {v : Value} (h : v.IsFinite) :
    Derives (.value (valueTree v)) (encodeValue v) := by
  cases v with
  | null => exact .null
  | boolean x =>
    cases x with
    | false => exact .false
    | true => exact .true
  | int32 x => exact .number (number_signedDecimal _)
  | int64 x => exact .number (number_signedDecimal _)
  | real d => exact .number (d.number_toText h)
  | text s =>
    rw [encodeValue, quote, quoted_eq]
    exact .string (chars_escapeJson s)
  | blob b =>
    rw [encodeValue, quoted_eq]
    exact .string (chars_of_plain (plain_base64Encode b))
  | date days =>
    rw [encodeValue, quoted_eq]
    exact .string (chars_of_plain (plain_encodeIsoDate days))
  | timestamp ms =>
    rw [encodeValue, quoted_eq]
    exact .string (chars_of_plain (plain_encodeIsoTimestamp ms))

theorem fails_encodeValue {v : Value} (h : ¬ v.IsFinite) : Fails (encodeValue v) := by
  cases v with
  | real d => exact d.fails_toText h
  | null | boolean | int32 | int64 | text | blob | date | timestamp => exact absurd trivial h

theorem encodeColumn_eq (c : ColumnValue) :
    encodeColumn c = 34 :: (escapeJson c.name ++ 34 :: 58 :: encodeValue c.value) := by
  have hcolon : ascii ":" = [58] := by decide
  rw [encodeColumn, quote, quoted_eq, hcolon]
  simp

theorem derives_encodeColumn {c : ColumnValue} (h : c.value.IsFinite) :
    Derives (.member (escapeJson c.name, valueTree c.value)) (encodeColumn c) := by
  rw [encodeColumn_eq]
  exact .compactMember (chars_escapeJson c.name) (derives_encodeValue h)

theorem fails_encodeColumn {c : ColumnValue} (h : ¬ c.value.IsFinite) : Fails (encodeColumn c) := by
  have hcolon : Passes (ascii ":") := by rfl
  rw [encodeColumn, quote, quoted_eq, List.append_assoc]
  exact (chars_escapeJson c.name).passes.append_fails (hcolon.append_fails (fails_encodeValue h))

/-- Texts with commas between them fail with the first of them that does. -/
theorem fails_separated {α : Type} {f : α → Bytes} {good : α → Prop} {items : List α}
    (hpass : ∀ a, good a → Passes (f a)) (hfail : ∀ a, ¬ good a → Fails (f a))
    (h : ¬ ∀ a ∈ items, good a) : Fails (separated (items.map f)) := by
  induction items with
  | nil => exact absurd (by simp) h
  | cons a items ih =>
    rw [List.forall_mem_cons] at h
    cases items with
    | nil =>
      rw [List.map_singleton, separated, List.intercalate_singleton]
      exact hfail a fun hgood => h ⟨hgood, by simp⟩
    | cons b items =>
      rw [List.map_cons, List.map_cons, separated, List.intercalate_cons_cons, List.append_assoc]
      -- either the first text fails, or one behind it
      by_cases hgood : good a
      · have hcomma : Passes (ascii ",") := by rfl
        exact (hpass a hgood).append_fails (hcomma.append_fails (ih fun hall => h ⟨hgood, hall⟩))
      · exact (hfail a hgood).append _

/-- Texts with commas between them are a list of what they are derived from. -/
theorem derives_separated {α : Type} {f : α → Bytes} {symbol : α → Symbol} {items : List α}
    (h : ∀ a ∈ items, Derives (symbol a) (f a)) :
    Derives (.list (items.map symbol)) (separated (items.map f)) := by
  have hcomma : ascii "," = [44] := by decide
  rw [separated, hcomma]
  refine derives_intercalate ?_
  rw [List.forall₂_map_left_iff, List.forall₂_map_right_iff, List.forall₂_same]
  exact h

theorem derives_encodeTuple {t : Tuple} (h : t.IsFinite) :
    Derives (.value (rowTree t)) (encodeTuple t) := by
  have hopen : ascii "\x7b" = [123] := by decide
  have hclose : ascii "\x7d" = [125] := by decide
  have hmembers := derives_separated fun c hc => derives_encodeColumn (h c hc)
  rw [encodeTuple, hopen, hclose]
  exact .compactObject (by rw [List.map_map]; exact hmembers)

theorem fails_encodeTuple {t : Tuple} (h : ¬ t.IsFinite) : Fails (encodeTuple t) := by
  have hopen : Passes (ascii "\x7b") := by rfl
  have hcolumns : Fails (separated (t.columns.map encodeColumn)) :=
    fails_separated (fun c hc => (derives_encodeColumn hc).passes)
      (fun c hc => fails_encodeColumn hc) (show ¬ ∀ c ∈ t.columns, c.value.IsFinite from h)
  exact (hopen.append_fails hcolumns).append _

theorem derives_boolean (b : Bool) :
    Derives (.value (.boolean b)) (if b then ascii "true" else ascii "false") := by
  cases b with
  | false => exact .false
  | true => exact .true

theorem derives_encodeArray {t : Tuple} (h : t.IsFinite) :
    Derives (.value (.array (t.columns.map fun c => valueTree c.value))) (encodeArray t) := by
  have hopen : ascii "[" = [91] := by decide
  have hclose : ascii "]" = [93] := by decide
  have hvalues := derives_separated fun c hc => derives_encodeValue (h c hc)
  rw [encodeArray, hopen, hclose]
  exact .compactArray (by rw [List.map_map]; exact hvalues)

theorem fails_encodeArray {t : Tuple} (h : ¬ t.IsFinite) : Fails (encodeArray t) := by
  have hopen : Passes (ascii "[") := by rfl
  have hvalues : Fails (separated (t.columns.map fun c => encodeValue c.value)) :=
    fails_separated (fun c hc => (derives_encodeValue hc).passes)
      (fun c hc => fails_encodeValue hc) (show ¬ ∀ c ∈ t.columns, c.value.IsFinite from h)
  exact (hopen.append_fails hvalues).append _

section Rows

variable {row : Tuple → Bytes} {rs : ResultSet}

/-- Around rows that are JSON both formats are. -/
theorem document_encodeRows {tree : Tuple → Tree}
    (h : ∀ t ∈ rs.rows, Derives (.value (tree t)) (row t)) :
    Document (.object [(ascii "success", .boolean rs.success), (ascii "rows", .array (rs.rows.map tree))])
      (encodeRows row rs) := by
  have hrows : Derives (.value (.array (rs.rows.map tree)))
      (91 :: (separated (rs.rows.map row) ++ [93])) := by
    refine .compactArray ?_
    rw [List.map_map]
    exact derives_separated h
  have hsuccess := Derives.compactMember (chars_of_all (s := ascii "success") (by decide))
    (derives_boolean rs.success)
  have hmember := Derives.compactMember (chars_of_all (s := ascii "rows") (by decide)) hrows
  have hopen : ascii "\x7b\"success\":" = 123 :: 34 :: (ascii "success" ++ [34, 58]) := by decide
  have hbetween : ascii ",\"rows\":[" = 44 :: 34 :: (ascii "rows" ++ [34, 58, 91]) := by decide
  have hclose : ascii "]\x7d" = [93, 125] := by decide
  have htext : Derives (.value (.object [(ascii "success", .boolean rs.success),
      (ascii "rows", .array (rs.rows.map tree))])) _ :=
    .compactObject (.next hsuccess (structural_singleton 44) (.last hmember))
  rw [encodeRows, hopen, hbetween, hclose]
  simpa using htext.document

/-- What is in front of the rows passes, so the first row that fails is the end of it. -/
theorem fails_encodeRows (hpass : ∀ t : Tuple, t.IsFinite → Passes (row t))
    (hfail : ∀ t : Tuple, ¬ t.IsFinite → Fails (row t)) (h : ¬ rs.IsFinite) :
    Fails (encodeRows row rs) := by
  have hrows : Fails (separated (rs.rows.map row)) :=
    fails_separated hpass hfail (show ¬ ∀ t ∈ rs.rows, t.IsFinite from h)
  -- the name of the member holds no n outside of its quotes
  have hopen : Passes (ascii "\x7b\"success\":") := by rfl
  have hbetween : Passes (ascii ",\"rows\":[") := by rfl
  exact (((hopen.append (derives_boolean rs.success).passes).append hbetween).append_fails
    hrows).append _

end Rows

theorem document_encode {rs : ResultSet} (h : rs.IsFinite) : Document (responseTree rs) (encode rs) :=
  document_encodeRows fun t ht => derives_encodeTuple (h t ht)

theorem fails_encode {rs : ResultSet} (h : ¬ rs.IsFinite) : Fails (encode rs) :=
  fails_encodeRows (fun _ ht => (derives_encodeTuple ht).passes) (fun _ ht => fails_encodeTuple ht) h

/-- The compact format is JSON for the same result sets. -/
theorem encodeArrays_json_iff (rs : ResultSet) :
    (∃ tree, Document tree (encodeArrays rs)) ↔ rs.IsFinite := by
  constructor
  · rintro ⟨tree, htree⟩
    by_contra hinfinite
    exact htree.passes.not_fails (fails_encodeRows (fun _ ht => (derives_encodeArray ht).passes)
      (fun _ ht => fails_encodeArray ht) hinfinite)
  · exact fun h => ⟨_, document_encodeRows fun t ht => derives_encodeArray (h t ht)⟩

/-- The answer is derived from an object with the rows in it, one object for each, exactly when all its
doubles are finite; otherwise it is not JSON at all. -/
theorem encode_json_iff (rs : ResultSet) :
    (Document (responseTree rs) (encode rs) ↔ rs.IsFinite) ∧
      ((∃ tree, Document tree (encode rs)) ↔ rs.IsFinite) := by
  have hfinite : ∀ {tree}, Document tree (encode rs) → rs.IsFinite := by
    intro tree htree
    by_contra hinfinite
    exact htree.passes.not_fails (fails_encode hinfinite)
  exact ⟨⟨hfinite, document_encode⟩, fun ⟨_, htree⟩ => hfinite htree, fun h => ⟨_, document_encode h⟩⟩

/-- A row with what the literal `1e400` is read as. -/
def overflowedRow : ResultSet :=
  ⟨true, [⟨[⟨ascii "x", .real (strtod (ascii "1e400"))⟩], by simp⟩]⟩

/-- The literal overflows, and the answer holds `inf`. -/
theorem encode_overflow_not_json :
    encode overflowedRow = ascii "\x7b\"success\":true,\"rows\":[\x7b\"x\":inf\x7d]\x7d" ∧
      ¬ ∃ tree, Document tree (encode overflowedRow) := by
  refine ⟨by decide +kernel, ?_⟩
  rintro ⟨tree, htree⟩
  refine htree.passes.not_fails (fails_encode fun h => ?_)
  have hx : (strtod (ascii "1e400")).IsFinite :=
    h _ (List.mem_singleton.2 rfl) ⟨ascii "x", .real (strtod (ascii "1e400"))⟩
      (List.mem_singleton.2 rfl)
  exact absurd hx (by decide +kernel)

/-! ## Errors -/

/-- What an error is derived from. -/
def errorTree (e : DbError) : Tree :=
  .object [(ascii "success", .boolean false), (ascii "error", .string (escapeJson e.toString))]

/-- An error is JSON, whatever its message. -/
theorem document_encodeError (e : DbError) : Document (errorTree e) (encodeError e) := by
  have hsuccess := Derives.compactMember (chars_of_all (s := ascii "success") (by decide))
    (derives_boolean false)
  have hmember := Derives.compactMember (chars_of_all (s := ascii "error") (by decide))
    (.string (chars_escapeJson e.toString))
  have hopen : ascii "\x7b\"success\":false,\"error\":" =
      123 :: 34 :: (ascii "success" ++ 34 :: 58 :: (ascii "false" ++ 44 :: 34 ::
        (ascii "error" ++ [34, 58]))) := by decide
  have hclose : ascii "\x7d" = [125] := by decide
  have htext : Derives (.value (errorTree e)) _ :=
    .compactObject (.next hsuccess (structural_singleton 44) (.last hmember))
  rw [encodeError, quote, quoted_eq, hopen, hclose]
  simpa using htext.document

end JsonEncoder

end OpenDB
