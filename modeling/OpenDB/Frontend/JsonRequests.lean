import OpenDB.Frontend.JsonReads

/-!
# The parser follows the grammar

The parser accepts a text exactly if an object stands in front of it that is a request in the lenient
dialect (`parseJsonRequest_eq_some_iff`). For a value that is skipped, one induction on the bound of the
calls gives its reading, and one on the reading gives back the call.
-/

set_option autoImplicit false

namespace OpenDB

namespace Json

variable {s r m : Bytes}

/-! ## Numbers -/

/-- How a number starts for the parser. -/
def StartsNumber (c : UInt8) : Prop := c = 45 ∨ c = 43 ∨ isDigit c = true

theorem isNumberByte_of_startsNumber {c : UInt8} (h : StartsNumber c) : isNumberByte c = true := by
  rcases h with rfl | rfl | hdigit
  · rfl
  · rfl
  · exact isNumberByte_of_isDigit hdigit

theorem signedDigits_ne_nil {c : UInt8} (h : StartsNumber c) (rest : Bytes) :
    (signedDigits (c :: rest)).1 ≠ [] := by
  rw [signedDigits]
  split_ifs with hsign
  · exact List.cons_ne_nil _ _
  · have hdigit : isDigit c = true := by
      rcases h with hminus | hplus | hdigit
      · exact absurd (.inl hminus) hsign
      · exact absurd (.inr hplus) hsign
      · exact hdigit
    simp [hdigit]

theorem startsNumber_of_isSignedDigits {c : UInt8} {rest : Bytes}
    (h : isSignedDigits (c :: rest) = true) : StartsNumber c := by
  rw [isSignedDigits_iff] at h
  split_ifs at h with hsign
  · exact hsign.elim .inl fun hplus => .inr (.inl hplus)
  · rw [List.all_cons, Bool.and_eq_true] at h
    exact .inr (.inr h.1)

theorem stops_numberRun (s : Bytes) : Stops (numberRun s).2 := by
  intro c hc
  cases hrest : (numberRun s).2 with
  | nil =>
    rw [hrest] at hc
    cases hc
  | cons d rest =>
    rw [hrest] at hc
    cases hc
    have hhead := List.head_dropWhile_not isNumberByte (l := s)
    simp only [numberRun] at hrest
    simpa [hrest] using hhead

/-! ## Values that are skipped -/

/-- The function of a rule. -/
def skip : Part → Nat → Bytes → Option Bytes
  | .value => skipValue
  | .members => skipMembers
  | .elements => skipElements

/-- Blanks in front do not matter to the parser either. -/
theorem skip_skipWhitespace (part : Part) (fuel : Nat) (s : Bytes) :
    skip part fuel (skipWhitespace s) = skip part fuel s := by
  have hvalue : ∀ fuel, skipValue fuel (skipWhitespace s) = skipValue fuel s := by
    intro fuel
    cases fuel with
    | zero => rfl
    | succ fuel => rw [skipValue, skipValue, skipWhitespace_idem]
  cases part with
  | value => exact hvalue fuel
  | members =>
    cases fuel with
    | zero => rfl
    | succ fuel => simp only [skip, skipMembers, skipWhitespace_idem]
  | elements =>
    cases fuel with
    | zero => rfl
    | succ fuel => simp only [skip, skipElements, hvalue]

/-- The ways in which a value is skipped. -/
theorem skipValue_cases {fuel : Nat} (h : skipValue (fuel + 1) s = some r) :
    ∃ c rest, skipWhitespace s = c :: rest ∧
      ((∃ text, parseString (c :: rest) = some (text, r)) ∨
        (c = 123 ∧ expect 125 (skipWhitespace rest) = some r) ∨
        (c = 123 ∧ skipMembers fuel rest = some r) ∨
        (c = 91 ∧ expect 93 (skipWhitespace rest) = some r) ∨
        (c = 91 ∧ skipElements fuel rest = some r) ∨
        lexLiteral (c :: rest) = some r ∨
        (StartsNumber c ∧ (signedDigits (c :: rest)).2 = r)) := by
  have hmembers := skip_skipWhitespace .members fuel
  have helements := skip_skipWhitespace .elements fuel
  rw [skipValue] at h
  cases hs : skipWhitespace s with
  | nil =>
    rw [hs] at h
    cases h
  | cons c rest =>
    rw [hs] at h
    refine ⟨c, rest, rfl, ?_⟩
    dsimp only at h
    -- a string, an object, an array, a word, a number: the order of the tests in the source
    split_ifs at h with hquote hbrace hbracket hword hnumber
    · obtain ⟨⟨text, r'⟩, hstring, rfl⟩ := Option.map_eq_some_iff.1 h
      exact .inl ⟨text, hstring⟩
    · cases hclose : expect 125 (skipWhitespace rest) with
      | some r' =>
        rw [hclose] at h
        exact .inr (.inl ⟨hbrace, h⟩)
      | none =>
        rw [hclose] at h
        exact .inr (.inr (.inl ⟨hbrace, (hmembers rest).symm.trans h⟩))
    · cases hclose : expect 93 (skipWhitespace rest) with
      | some r' =>
        rw [hclose] at h
        exact .inr (.inr (.inr (.inl ⟨hbracket, h⟩)))
      | none =>
        rw [hclose] at h
        exact .inr (.inr (.inr (.inr (.inl ⟨hbracket, (helements rest).symm.trans h⟩))))
    · rw [skipLiteral_eq hword] at h
      exact .inr (.inr (.inr (.inr (.inr (.inl h)))))
    · exact .inr (.inr (.inr (.inr (.inr (.inr ⟨hnumber, Option.some.inj h⟩)))))

/-- What the parser skips is a value of the grammar with tokens that it allows. -/
theorem reads_of_skip (fuel : Nat) (part : Part) (h : skip part fuel s = some r)
    (hstops : part = .value → Stops r) :
    ∃ v, Reads part s v r ∧ v.tokens.all lenient.token = true := by
  induction fuel generalizing part s r with
  | zero => cases part <;> cases h
  | succ fuel ih =>
    cases part with
    | value =>
      obtain ⟨c, rest, hs, hcases⟩ := skipValue_cases h
      have hopen : ∀ {d : UInt8}, c = d → expect d (skipWhitespace s) = some rest := fun hd =>
        expect_eq_some.2 (hd ▸ hs)
      rcases hcases with ⟨text, hstring⟩ | ⟨hc, hclose⟩ | ⟨hc, hmembers⟩ | ⟨hc, hclose⟩ |
        ⟨hc, helements⟩ | hword | ⟨hc, hdigits⟩
      · obtain ⟨items, hitems, -⟩ := parseString_eq_some.1 hstring
        exact ⟨.string items, .token (hs ▸ lexToken_of_lexString hitems), rfl⟩
      · exact ⟨.other [], .emptyObject (hopen hc) hclose, rfl⟩
      · obtain ⟨v, hv, hall⟩ := ih .members hmembers (by simp)
        exact ⟨v, .object (hopen hc) hv, hall⟩
      · exact ⟨.other [], .emptyArray (hopen hc) hclose, rfl⟩
      · obtain ⟨v, hv, hall⟩ := ih .elements helements (by simp)
        exact ⟨v, .array (hopen hc) hv, hall⟩
      · refine ⟨.other [], .token ?_, rfl⟩
        rw [hs]
        exact lexToken_of_lexLiteral hword
      · -- the parser stops behind the digits, and so does the number
        have hne := signedDigits_ne_nil hc rest
        have hdigits : signedDigits (c :: rest) = ((signedDigits (c :: rest)).1, r) :=
          Prod.ext rfl hdigits
        obtain ⟨hrun, hsigned⟩ := (signedDigits_eq_iff hne (hstops rfl)).1 hdigits
        refine ⟨.number (signedDigits (c :: rest)).1, .token ?_, ?_⟩
        · rw [hs, lexToken_of_number (isNumberByte_of_startsNumber hc), hrun]
        · simpa [Dialect.token, lenient] using hsigned
    | members =>
      obtain ⟨⟨text, k⟩, hkey, h⟩ := Option.bind_eq_some_iff.1 h
      obtain ⟨m, hcolon, h⟩ := Option.bind_eq_some_iff.1 h
      obtain ⟨m', hvalue, h⟩ := Option.bind_eq_some_iff.1 h
      obtain ⟨key, hkey, -⟩ := parseString_eq_some.1 hkey
      cases hcomma : expect 44 (skipWhitespace m') with
      | some m'' =>
        rw [hcomma] at h
        obtain ⟨v, hv, hall⟩ := ih .value hvalue fun _ => stops_of_expect (by decide) hcomma
        obtain ⟨w, hw, hrest⟩ := ih .members h (by simp)
        exact ⟨_, .moreMembers hkey hcolon hv hcomma hw, by
          simp only [JsonValue.tokens_other, List.all_cons, List.all_append, hall, hrest]
          rfl⟩
      | none =>
        rw [hcomma] at h
        obtain ⟨v, hv, hall⟩ := ih .value hvalue fun _ => stops_of_expect (by decide) h
        exact ⟨_, .lastMember hkey hcolon hv h, by
          simp only [JsonValue.tokens_other, List.all_cons, hall]
          rfl⟩
    | elements =>
      obtain ⟨m, hvalue, h⟩ := Option.bind_eq_some_iff.1 h
      cases hcomma : expect 44 (skipWhitespace m) with
      | some m' =>
        rw [hcomma] at h
        obtain ⟨v, hv, hall⟩ := ih .value hvalue fun _ => stops_of_expect (by decide) hcomma
        obtain ⟨w, hw, hrest⟩ := ih .elements h (by simp)
        exact ⟨_, .moreElements hv hcomma hw, by
          simp only [JsonValue.tokens_other, List.all_append, hall, hrest]
          rfl⟩
      | none =>
        rw [hcomma] at h
        obtain ⟨v, hv, hall⟩ := ih .value hvalue fun _ => stops_of_expect (by decide) h
        exact ⟨_, .lastElement hv h, hall⟩

/-- The branches of `skipValue`, by the first character. -/
theorem skipValue_of_number {c : UInt8} {rest : Bytes} (hs : skipWhitespace s = c :: rest)
    (hc : StartsNumber c) (fuel : Nat) :
    skipValue (fuel + 1) s = some (signedDigits (c :: rest)).2 := by
  have hnumber := isNumberByte_of_startsNumber hc
  have hother : ∀ {d : UInt8}, isNumberByte d = false → c ≠ d := by
    rintro d hd rfl
    rw [hnumber] at hd
    cases hd
  have hword : ¬ (c = 116 ∨ c = 102 ∨ c = 110) := by
    simp only [not_or]
    exact ⟨hother rfl, hother rfl, hother rfl⟩
  rw [skipValue, hs]
  dsimp only
  rw [if_neg (hother rfl), if_neg (hother rfl), if_neg (hother rfl), if_neg hword]
  exact if_pos hc

theorem skipValue_of_word {c : UInt8} {rest : Bytes} (hs : skipWhitespace s = c :: rest)
    (hc : c = 116 ∨ c = 102 ∨ c = 110) (fuel : Nat) :
    skipValue (fuel + 1) s = lexLiteral (c :: rest) := by
  rw [skipValue, hs]
  dsimp only
  rw [if_neg (by rcases hc with rfl | rfl | rfl <;> decide),
    if_neg (by rcases hc with rfl | rfl | rfl <;> decide),
    if_neg (by rcases hc with rfl | rfl | rfl <;> decide), if_pos hc, skipLiteral_eq hc]

theorem skipValue_of_string {c : UInt8} {rest : Bytes} (hs : skipWhitespace s = c :: rest)
    (hc : c = 34) (fuel : Nat) :
    skipValue (fuel + 1) s = (parseString (c :: rest)).map Prod.snd := by
  rw [skipValue, hs]
  dsimp only
  rw [if_pos hc]

theorem skipValue_of_brace {rest : Bytes} (hopen : expect 123 (skipWhitespace s) = some rest)
    (fuel : Nat) :
    skipValue (fuel + 1) s =
      match expect 125 (skipWhitespace rest) with
      | some r => some r
      | none => skipMembers fuel rest := by
  rw [skipValue, expect_eq_some.1 hopen]
  dsimp only
  rw [if_neg (by decide), if_pos rfl]
  cases expect 125 (skipWhitespace rest) with
  | some r => rfl
  | none => exact skip_skipWhitespace .members fuel rest

theorem skipValue_of_bracket {rest : Bytes} (hopen : expect 91 (skipWhitespace s) = some rest)
    (fuel : Nat) :
    skipValue (fuel + 1) s =
      match expect 93 (skipWhitespace rest) with
      | some r => some r
      | none => skipElements fuel rest := by
  rw [skipValue, expect_eq_some.1 hopen]
  dsimp only
  rw [if_neg (by decide), if_neg (by decide), if_pos rfl]
  cases expect 93 (skipWhitespace rest) with
  | some r => rfl
  | none => exact skip_skipWhitespace .elements fuel rest

/-- A token that the parser allows is skipped. -/
theorem skipValue_of_lexToken {v : JsonValue} (h : lexToken (skipWhitespace s) = some (v, r))
    (hall : v.tokens.all lenient.token = true) (fuel : Nat) : skipValue (fuel + 1) s = some r := by
  rcases lexToken_eq_some h with ⟨items, -, hstring⟩ | ⟨c, rest, hs, hc, rfl, rfl⟩ | ⟨-, hword⟩
  · obtain ⟨rest, hopen, -⟩ := Option.bind_eq_some_iff.1 hstring
    have hs := expect_eq_some.1 hopen
    rw [hs] at hstring
    rw [skipValue_of_string hs rfl, parseString_eq, hstring]
    rfl
  · have hrun : (numberRun (c :: rest)).1 = c :: rest.takeWhile isNumberByte := by
      simp [numberRun, hc]
    have hsigned : isSignedDigits (numberRun (c :: rest)).1 = true := by
      simpa [hs, Dialect.token, lenient] using hall
    -- the characters of the number are its sign and its digits
    have hne : (numberRun (c :: rest)).1 ≠ [] := hrun ▸ List.cons_ne_nil c _
    have hdigits : signedDigits (c :: rest) = numberRun (c :: rest) :=
      (signedDigits_eq_iff (s := c :: rest) hne (stops_numberRun (c :: rest))).2 ⟨rfl, hsigned⟩
    rw [hrun] at hsigned
    rw [skipValue_of_number hs (startsNumber_of_isSignedDigits hsigned), hdigits, hs]
  · cases hs : skipWhitespace s with
    | nil =>
      rw [hs] at hword
      cases hword
    | cons c rest =>
      rw [hs] at hword
      rw [skipValue_of_word hs (first_of_lexLiteral hword), hword]

theorem expect_eq_none {c c' : UInt8} (hne : c ≠ c') (h : expect c s = some r) :
    expect c' s = none := by
  cases h' : expect c' s with
  | none => rfl
  | some m => exact absurd (expect_unique h h').1 hne

theorem parseString_of_lexString {items : List Item} (h : lexString s = some (items, r)) :
    parseString s = some (unitText items, r) :=
  parseString_eq_some.2 ⟨items, h, rfl⟩

theorem fuel_pos {part : Part} {v : JsonValue} {fuel : Nat} (h : Reads part s v r)
    (hfuel : s.length ≤ fuel + r.length) : 0 < fuel := by
  have hlt := h.length_lt
  omega

/-- Every call reads a character of its own, at its start or at its end, so the length of the text bounds
the calls. -/
theorem skip_of_reads {part : Part} {v : JsonValue} (h : Reads part s v r)
    (hall : v.tokens.all lenient.token = true) {fuel : Nat} (hfuel : s.length ≤ fuel + r.length) :
    skip part fuel s = some r := by
  -- every rule reads at least one byte, so a level of fuel is left for what it reads inside
  induction h generalizing fuel with
  | token h =>
    obtain ⟨fuel, rfl⟩ := Nat.exists_eq_add_one.2 (fuel_pos (.token h) hfuel)
    exact skipValue_of_lexToken h hall fuel
  | emptyObject hopen hclose =>
    obtain ⟨fuel, rfl⟩ := Nat.exists_eq_add_one.2 (fuel_pos (.emptyObject hopen hclose) hfuel)
    rw [skip, skipValue_of_brace hopen, hclose]
  | @object s m r v hopen h ih =>
    obtain ⟨fuel, rfl⟩ := Nat.exists_eq_add_one.2 (fuel_pos (.object hopen h) hfuel)
    have hlength := length_of_expect hopen
    have hopened : expect 125 (skipWhitespace m) = none := by
      cases hclose : expect 125 (skipWhitespace m) with
      | none => rfl
      | some _ => exact (h.not_members hclose).elim
    rw [skip, skipValue_of_brace hopen, hopened]
    exact ih hall (by omega)
  | emptyArray hopen hclose =>
    obtain ⟨fuel, rfl⟩ := Nat.exists_eq_add_one.2 (fuel_pos (.emptyArray hopen hclose) hfuel)
    rw [skip, skipValue_of_bracket hopen, hclose]
  | @array s m r v hopen h ih =>
    obtain ⟨fuel, rfl⟩ := Nat.exists_eq_add_one.2 (fuel_pos (.array hopen h) hfuel)
    have hlength := length_of_expect hopen
    have hopened : expect 93 (skipWhitespace m) = none := by
      cases hclose : expect 93 (skipWhitespace m) with
      | none => rfl
      | some _ => exact (h.not_elements hclose).elim
    rw [skip, skipValue_of_bracket hopen, hopened]
    exact ih hall (by omega)
  | @lastMember s k m m' r key v hkey hcolon hvalue hclose ih =>
    obtain ⟨fuel, rfl⟩ :=
      Nat.exists_eq_add_one.2 (fuel_pos (.lastMember hkey hcolon hvalue hclose) hfuel)
    have hlength := length_of_expect hcolon
    have hstring := (length_of_lexString hkey).trans_le (length_skipWhitespace_le s)
    have hbehind := length_of_expect hclose
    rw [JsonValue.tokens_other, List.all_cons, Bool.and_eq_true] at hall
    have hskip : skipValue fuel m = some m' := ih hall.2 (by omega)
    simp only [skip, skipMembers, parseString_of_lexString hkey, hcolon, hskip, hclose,
      Option.bind_eq_bind, Option.bind_some, expect_eq_none (by decide : (125 : UInt8) ≠ 44) hclose]
  | @moreMembers s k m m' m'' r key v w hkey hcolon hvalue hcomma hrest ih ihrest =>
    obtain ⟨fuel, rfl⟩ :=
      Nat.exists_eq_add_one.2 (fuel_pos (.moreMembers hkey hcolon hvalue hcomma hrest) hfuel)
    have hlength := length_of_expect hcolon
    have hstring := (length_of_lexString hkey).trans_le (length_skipWhitespace_le s)
    have hbehind := length_of_expect hcomma
    have hvaluelt := hvalue.length_lt
    have hrestlt := hrest.length_lt
    rw [JsonValue.tokens_other, List.all_cons, Bool.and_eq_true, List.all_append,
      Bool.and_eq_true] at hall
    have hskip : skipValue fuel m = some m' := ih hall.2.1 (by omega)
    simp only [skip, skipMembers, parseString_of_lexString hkey, hcolon, hskip, hcomma,
      Option.bind_eq_bind, Option.bind_some]
    exact ihrest hall.2.2 (by omega)
  | @lastElement s m r v hvalue hclose ih =>
    obtain ⟨fuel, rfl⟩ := Nat.exists_eq_add_one.2 (fuel_pos (.lastElement hvalue hclose) hfuel)
    have hbehind := length_of_expect hclose
    have hskip : skipValue fuel s = some m := ih hall (by omega)
    simp only [skip, skipElements, hskip, hclose, Option.bind_eq_bind, Option.bind_some,
      expect_eq_none (by decide : (93 : UInt8) ≠ 44) hclose]
  | @moreElements s m m' r v w hvalue hcomma hrest ih ihrest =>
    obtain ⟨fuel, rfl⟩ := Nat.exists_eq_add_one.2 (fuel_pos (.moreElements hvalue hcomma hrest) hfuel)
    have hbehind := length_of_expect hcomma
    have hvaluelt := hvalue.length_lt
    have hrestlt := hrest.length_lt
    rw [JsonValue.tokens_other, List.all_append, Bool.and_eq_true] at hall
    have hskip : skipValue fuel s = some m := ih hall.1 (by omega)
    simp only [skip, skipElements, hskip, hcomma, Option.bind_eq_bind, Option.bind_some]
    exact ihrest hall.2 (by omega)

/-! ## Members -/

/-- A value that is one token is read from that token. -/
theorem reads_value_iff {v : JsonValue} (hv : ∀ tokens, v ≠ .other tokens) :
    Reads .value s v r ↔ lexToken (skipWhitespace s) = some (v, r) := by
  refine ⟨fun h => ?_, .token⟩
  cases h with
  | token h => exact h
  | emptyObject | emptyArray => exact absurd rfl (hv [])
  | object _ h =>
    obtain ⟨tokens, rfl⟩ := h.eq_other (by simp)
    exact absurd rfl (hv tokens)
  | array _ h =>
    obtain ⟨tokens, rfl⟩ := h.eq_other (by simp)
    exact absurd rfl (hv tokens)

theorem reads_string_iff {items : List Item} :
    Reads .value s (.string items) r ↔ lexString (skipWhitespace s) = some (items, r) := by
  rw [reads_value_iff (by simp)]
  refine ⟨fun h => ?_, lexToken_of_lexString⟩
  rcases lexToken_eq_some h with ⟨items', heq, hstring⟩ | ⟨c, rest, -, -, heq, -⟩ | ⟨heq, -⟩
  · cases heq
    exact hstring
  · cases heq
  · cases heq

theorem reads_number_iff {text : Bytes} :
    Reads .value s (.number text) r ↔ numberRun (skipWhitespace s) = (text, r) ∧ text ≠ [] := by
  rw [reads_value_iff (by simp)]
  constructor
  · intro h
    rcases lexToken_eq_some h with ⟨items, heq, -⟩ | ⟨c, rest, hs, hc, heq, hr⟩ | ⟨heq, -⟩
    · cases heq
    · cases heq
      refine ⟨Prod.ext rfl hr.symm, ?_⟩
      simp [hs, numberRun, hc]
    · cases heq
  · rintro ⟨hrun, hne⟩
    cases hs : skipWhitespace s with
    | nil =>
      rw [hs] at hrun
      cases hrun
      exact absurd rfl hne
    | cons c rest =>
      rw [hs] at hrun
      have hc : isNumberByte c = true := by
        by_contra hc
        rw [numberRun, List.takeWhile_cons_of_neg hc] at hrun
        cases hrun
        exact hne rfl
      rw [lexToken_of_number hc, hrun]

/-- The string of a member. -/
theorem parseString_eq_some_iff {text : Bytes} :
    parseString (skipWhitespace s) = some (text, r) ↔
      ∃ value, Reads .value s value r ∧ lenient.stringValue value = some text := by
  rw [parseString_eq_some]
  constructor
  · rintro ⟨items, h, rfl⟩
    exact ⟨.string items, reads_string_iff.2 h, rfl⟩
  · rintro ⟨value, hvalue, htext⟩
    obtain ⟨items, rfl, rfl⟩ := Dialect.stringValue_eq_some htext
    exact ⟨items, reads_string_iff.1 hvalue, rfl⟩

/-- The number of a member, if a number ends behind it. -/
theorem parseNumber_eq_some_iff (hr : Stops r) {n : UInt64} :
    (∃ text, parseNumberAsString (skipWhitespace s) = some (text, r) ∧ stoull text = some n) ↔
      ∃ value, Reads .value s value r ∧ lenient.txnValue value = some n := by
  have hparse : ∀ text, parseNumberAsString (skipWhitespace s) = some (text, r) ↔
      text ≠ [] ∧ signedDigits (skipWhitespace s) = (text, r) := by
    intro text
    rw [parseNumberAsString, skipWhitespace_idem]
    dsimp only
    split_ifs with hempty
    · rw [List.isEmpty_iff] at hempty
      refine ⟨False.elim, ?_⟩
      rintro ⟨hne, h⟩
      rw [h] at hempty
      exact absurd hempty hne
    · rw [List.isEmpty_iff] at hempty
      refine ⟨fun h => ?_, fun h => congrArg some h.2⟩
      rw [Prod.mk.eta, Option.some_inj] at h
      rw [h] at hempty
      exact ⟨hempty, h⟩
  constructor
  · rintro ⟨text, h, hn⟩
    obtain ⟨hne, hdigits⟩ := (hparse text).1 h
    obtain ⟨hrun, hsigned⟩ := (signedDigits_eq_iff hne hr).1 hdigits
    exact ⟨.number text, reads_number_iff.2 ⟨hrun, hne⟩, (if_pos hsigned).trans hn⟩
  · rintro ⟨value, hvalue, hn⟩
    obtain ⟨text, rfl, htxn⟩ := Dialect.txnValue_eq_some hn
    obtain ⟨hrun, hne⟩ := reads_number_iff.1 hvalue
    simp only [lenient] at htxn
    split_ifs at htxn with hsigned
    exact ⟨text, (hparse text).2 ⟨hne, (signedDigits_eq_iff hne hr).2 ⟨hrun, hsigned⟩⟩, htxn⟩

/-- Any other member. -/
theorem skipValue_eq_some_iff (hr : Stops r) :
    skipValue ((skipWhitespace s).length + 1) (skipWhitespace s) = some r ↔
      ∃ value, Reads .value s value r ∧ value.tokens.all lenient.token = true := by
  constructor
  · intro h
    have hskip : skip .value ((skipWhitespace s).length + 1) (skipWhitespace s) = some r := h
    obtain ⟨value, hvalue, hall⟩ := reads_of_skip _ _ hskip fun _ => hr
    exact ⟨value, reads_skipWhitespace.1 hvalue, hall⟩
  · rintro ⟨value, hvalue, hall⟩
    have hfuel : (skipWhitespace s).length ≤ (skipWhitespace s).length + 1 + r.length := by omega
    exact skip_of_reads (reads_skipWhitespace.2 hvalue) hall hfuel

/-- A member of the request is read as one of the lenient dialect. -/
theorem parseMember_eq_some_iff (hr : Stops r) {key : List Item} {out out' : JsonRequest} :
    parseMember (unitText key) out (skipWhitespace s) = some (out', r) ↔
      ∃ value, Reads .value s value r ∧ lenient.step out ⟨key, value⟩ = some out' := by
  have hkey : ∀ value, lenient.step out ⟨key, value⟩ =
      if unitText key = ascii "type" then
        (lenient.stringValue value).map fun v => { out with type := v }
      else if unitText key = ascii "sql" then
        (lenient.stringValue value).map fun v => { out with sql := v }
      else if unitText key = ascii "txnId" then
        (lenient.txnValue value).map fun n => { out with txnId := some n }
      else if value.tokens.all lenient.token then some out
      else none := fun value => rfl
  simp only [hkey]
  rw [parseMember]
  -- the three names the parser knows, and any other name, whose value is skipped
  split_ifs with htype hsql htxn
  · constructor
    · intro h
      obtain ⟨⟨text, rest⟩, hstring, h⟩ := Option.bind_eq_some_iff.1 h
      cases h
      obtain ⟨value, hvalue, htext⟩ := parseString_eq_some_iff.1 hstring
      exact ⟨value, hvalue, by rw [htext]; rfl⟩
    · rintro ⟨value, hvalue, h⟩
      obtain ⟨text, htext, rfl⟩ := Option.map_eq_some_iff.1 h
      rw [parseString_eq_some_iff.2 ⟨value, hvalue, htext⟩]
      rfl
  · constructor
    · intro h
      obtain ⟨⟨text, rest⟩, hstring, h⟩ := Option.bind_eq_some_iff.1 h
      cases h
      obtain ⟨value, hvalue, htext⟩ := parseString_eq_some_iff.1 hstring
      exact ⟨value, hvalue, by rw [htext]; rfl⟩
    · rintro ⟨value, hvalue, h⟩
      obtain ⟨text, htext, rfl⟩ := Option.map_eq_some_iff.1 h
      rw [parseString_eq_some_iff.2 ⟨value, hvalue, htext⟩]
      rfl
  · constructor
    · intro h
      obtain ⟨⟨text, rest⟩, hnumber, h⟩ := Option.bind_eq_some_iff.1 h
      obtain ⟨n, hn, h⟩ := Option.bind_eq_some_iff.1 h
      cases h
      obtain ⟨value, hvalue, htxn⟩ := (parseNumber_eq_some_iff hr).1 ⟨text, hnumber, hn⟩
      exact ⟨value, hvalue, by rw [htxn]; rfl⟩
    · rintro ⟨value, hvalue, h⟩
      obtain ⟨n, hn, rfl⟩ := Option.map_eq_some_iff.1 h
      obtain ⟨text, hnumber, htext⟩ := (parseNumber_eq_some_iff hr).2 ⟨value, hvalue, hn⟩
      exact Option.bind_eq_some_iff.2
        ⟨(text, r), hnumber, Option.bind_eq_some_iff.2 ⟨n, htext, rfl⟩⟩
  · constructor
    · intro h
      obtain ⟨rest, hskip, h⟩ := Option.bind_eq_some_iff.1 h
      cases h
      obtain ⟨value, hvalue, hall⟩ := (skipValue_eq_some_iff hr).1 hskip
      exact ⟨value, hvalue, if_pos hall⟩
    · rintro ⟨value, hvalue, h⟩
      split_ifs at h with hall
      cases h
      rw [(skipValue_eq_some_iff hr).2 ⟨value, hvalue, hall⟩]
      rfl

/-! ## Requests -/

theorem fields_of_parseMembers (fuel : Nat) {out out' : JsonRequest}
    (h : parseMembers fuel out s = some (out', r)) :
    ∃ fields, ReadsFields s fields r ∧ fields.foldlM lenient.step out = some out' := by
  induction fuel generalizing s out with
  | zero => cases h
  | succ fuel ih =>
    obtain ⟨⟨text, k⟩, hstring, h⟩ := Option.bind_eq_some_iff.1 h
    obtain ⟨key, hkey, rfl⟩ := parseString_eq_some.1 hstring
    obtain ⟨m, hcolon, h⟩ := Option.bind_eq_some_iff.1 h
    obtain ⟨⟨next, m'⟩, hmember, h⟩ := Option.bind_eq_some_iff.1 h
    dsimp only at h hmember
    cases hcomma : expect 44 (skipWhitespace m') with
    | some m'' =>
      rw [hcomma] at h
      have hstops := stops_of_expect (by decide) hcomma
      obtain ⟨value, hvalue, hstep⟩ := (parseMember_eq_some_iff hstops).1 hmember
      obtain ⟨fields, hfields, hrest⟩ := ih h
      refine ⟨⟨key, value⟩ :: fields, .more ⟨k, m, hkey, hcolon, hvalue⟩ hcomma hfields, ?_⟩
      rw [List.foldlM_cons, hstep]
      exact hrest
    | none =>
      rw [hcomma] at h
      obtain ⟨r', hclose, h⟩ := Option.bind_eq_some_iff.1 h
      cases h
      have hstops := stops_of_expect (by decide) hclose
      obtain ⟨value, hvalue, hstep⟩ := (parseMember_eq_some_iff hstops).1 hmember
      refine ⟨[⟨key, value⟩], .last ⟨k, m, hkey, hcolon, hvalue⟩ hclose, ?_⟩
      rw [List.foldlM_cons, hstep]
      rfl

theorem ReadsField.length_lt {f : Field} (h : ReadsField s f r) : r.length < s.length := by
  obtain ⟨k, m, hkey, hcolon, hvalue⟩ := h
  exact hvalue.length_lt.trans ((length_of_expect hcolon).trans
    ((length_of_lexString hkey).trans_le (length_skipWhitespace_le s)))

theorem parseMembers_of_fields {fields : List Field} (h : ReadsFields s fields r) {fuel : Nat}
    (hfuel : s.length < fuel) {out out' : JsonRequest}
    (hrequest : fields.foldlM lenient.step out = some out') :
    parseMembers fuel out s = some (out', r) := by
  induction h generalizing fuel out with
  | @last s m r f hfield hclose =>
    obtain ⟨fuel, rfl⟩ := Nat.exists_eq_add_one.2 (Nat.zero_lt_of_lt hfuel)
    obtain ⟨k, c, hkey, hcolon, hvalue⟩ := hfield
    obtain ⟨next, hstep, hnext⟩ := Option.bind_eq_some_iff.1 hrequest
    cases hnext
    have hmember : parseMember (unitText f.key) out (skipWhitespace c) = some (out', m) :=
      (parseMember_eq_some_iff (stops_of_expect (by decide) hclose)).2 ⟨f.value, hvalue, hstep⟩
    simp only [parseMembers, parseString_of_lexString hkey, hcolon, hmember, hclose,
      Option.bind_eq_bind, Option.bind_some, expect_eq_none (by decide : (125 : UInt8) ≠ 44) hclose]
    rfl
  | @more s m m' r f fields hfield hcomma hrest ih =>
    obtain ⟨fuel, rfl⟩ := Nat.exists_eq_add_one.2 (Nat.zero_lt_of_lt hfuel)
    have hlength := (length_of_expect hcomma).trans hfield.length_lt
    obtain ⟨k, c, hkey, hcolon, hvalue⟩ := hfield
    obtain ⟨next, hstep, hnext⟩ := Option.bind_eq_some_iff.1 hrequest
    have hmember : parseMember (unitText f.key) out (skipWhitespace c) = some (next, m) :=
      (parseMember_eq_some_iff (stops_of_expect (by decide) hcomma)).2 ⟨f.value, hvalue, hstep⟩
    simp only [parseMembers, parseString_of_lexString hkey, hcolon, hmember, hcomma,
      Option.bind_eq_bind, Option.bind_some]
    exact ih (by omega) hnext

/-- No member of the request starts at a closing brace. -/
theorem ReadsFields.not_close {fields : List Field} (h : ReadsFields s fields r) :
    expect 125 (skipWhitespace s) = none := by
  have hfield : ∀ {f : Field} {r : Bytes}, ReadsField s f r → expect 125 (skipWhitespace s) = none := by
    rintro f r ⟨k, m, hkey, -⟩
    obtain ⟨rest, hopen, -⟩ := Option.bind_eq_some_iff.1 hkey
    exact expect_eq_none (by decide) hopen
  cases h with
  | last h => exact hfield h
  | more h => exact hfield h

theorem parseMembers_skipWhitespace (fuel : Nat) (out : JsonRequest) (s : Bytes) :
    parseMembers fuel out (skipWhitespace s) = parseMembers fuel out s := by
  cases fuel with
  | zero => rfl
  | succ fuel => simp only [parseMembers, skipWhitespace_idem]

theorem parseValue_eq_some_iff {req : JsonRequest} :
    parseValue emptyRequest s = some (req, r) ↔
      ∃ fields, ReadsObject s fields r ∧ lenient.request fields = some req := by
  have hvalue : parseValue emptyRequest s = parseObject emptyRequest (skipWhitespace s) := by
    rw [parseValue]
    split_ifs with hbrace
    · rfl
    · -- without a brace the object is not read either
      have hnone : expect 123 (skipWhitespace s) = none := by
        cases hopen : expect 123 (skipWhitespace s) with
        | none => rfl
        | some rest => exact absurd (by rw [expect_eq_some.1 hopen]; rfl) hbrace
      rw [parseObject, skipWhitespace_idem, hnone]
      rfl
  rw [hvalue]
  constructor
  · intro h
    obtain ⟨m, hopen, h⟩ := Option.bind_eq_some_iff.1 h
    rw [skipWhitespace_idem] at hopen
    cases hclose : expect 125 (skipWhitespace m) with
    | some r' =>
      rw [hclose] at h
      cases h
      exact ⟨[], ⟨m, hopen, .inl ⟨hclose, rfl⟩⟩, rfl⟩
    | none =>
      rw [hclose] at h
      dsimp only at h
      rw [parseMembers_skipWhitespace] at h
      obtain ⟨fields, hfields, hrequest⟩ := fields_of_parseMembers _ h
      exact ⟨fields, ⟨m, hopen, .inr hfields⟩, hrequest⟩
  · rintro ⟨fields, ⟨m, hopen, hclose | hfields⟩, hrequest⟩
    · obtain ⟨hclose, rfl⟩ := hclose
      cases hrequest
      simp only [parseObject, skipWhitespace_idem, hopen, hclose, Option.bind_eq_bind,
        Option.bind_some]
      rfl
    · have hfuel : m.length < (skipWhitespace s).length + 1 := by
        rw [expect_eq_some.1 hopen, List.length_cons]
        omega
      have hparse := parseMembers_of_fields hfields hfuel hrequest
      simp only [parseObject, skipWhitespace_idem, hopen, hfields.not_close, Option.bind_eq_bind,
        Option.bind_some, parseMembers_skipWhitespace, hparse]

/-- The parser reads the requests of the lenient dialect. -/
theorem parseJsonRequest_eq_some_iff {req : JsonRequest} :
    parseJsonRequest s = some req ↔
      ∃ fields r, ReadsObject s fields r ∧ lenient.request fields = some req ∧ req.type ≠ [] := by
  have hobject : ∀ req r, parseValue emptyRequest s = some (req, r) ↔
      ∃ fields, ReadsObject s fields r ∧ lenient.request fields = some req :=
    fun req r => parseValue_eq_some_iff
  rw [parseJsonRequest]
  constructor
  · intro h
    obtain ⟨⟨req', r⟩, hvalue, h⟩ := Option.bind_eq_some_iff.1 h
    dsimp only at h
    split_ifs at h with hempty
    cases h
    obtain ⟨fields, hfields, hrequest⟩ := (hobject _ _).1 hvalue
    exact ⟨fields, r, hfields, hrequest, by simpa using hempty⟩
  · rintro ⟨fields, r, hfields, hrequest, htype⟩
    refine Option.bind_eq_some_iff.2 ⟨(req, r), (hobject _ _).2 ⟨fields, hfields, hrequest⟩, ?_⟩
    exact if_neg (by simpa using htype)

/-! ## The reading of an object is unique -/

theorem ReadsField.unique {f f' : Field} {r' : Bytes} (h : ReadsField s f r)
    (h' : ReadsField s f' r') : f = f' ∧ r = r' := by
  obtain ⟨k, m, hkey, hcolon, hvalue⟩ := h
  obtain ⟨k', m', hkey', hcolon', hvalue'⟩ := h'
  rw [hkey] at hkey'
  have hsame := Option.some.inj hkey'
  obtain ⟨hname, rfl⟩ := Prod.mk.inj hsame
  obtain ⟨-, rfl⟩ := expect_unique hcolon hcolon'
  obtain ⟨hread, rfl⟩ := hvalue.unique hvalue'
  exact ⟨by cases f; cases f'; simp_all, rfl⟩

theorem ReadsFields.unique {fields fields' : List Field} {r' : Bytes} (h : ReadsFields s fields r)
    (h' : ReadsFields s fields' r') : fields = fields' ∧ r = r' := by
  induction h generalizing fields' r' with
  | last h hclose =>
    cases h' with
    | last h' hclose' =>
      obtain ⟨rfl, rfl⟩ := h.unique h'
      exact ⟨rfl, (expect_unique hclose hclose').2⟩
    | more h' hcomma' =>
      obtain ⟨rfl, rfl⟩ := h.unique h'
      exact absurd (expect_unique hclose hcomma').1 (by decide)
  | more h hcomma _ ih =>
    cases h' with
    | last h' hclose' =>
      obtain ⟨rfl, rfl⟩ := h.unique h'
      exact absurd (expect_unique hcomma hclose').1 (by decide)
    | more h' hcomma' hrest' =>
      obtain ⟨rfl, rfl⟩ := h.unique h'
      obtain ⟨-, rfl⟩ := expect_unique hcomma hcomma'
      obtain ⟨rfl, rfl⟩ := ih hrest'
      exact ⟨rfl, rfl⟩

theorem ReadsObject.unique {fields fields' : List Field} {r' : Bytes} (h : ReadsObject s fields r)
    (h' : ReadsObject s fields' r') : fields = fields' ∧ r = r' := by
  obtain ⟨m, hopen, h⟩ := h
  obtain ⟨m', hopen', h'⟩ := h'
  obtain ⟨-, rfl⟩ := expect_unique hopen hopen'
  rcases h with ⟨hclose, rfl⟩ | h
  · rcases h' with ⟨hclose', rfl⟩ | h'
    · exact ⟨rfl, (expect_unique hclose hclose').2⟩
    · rw [h'.not_close] at hclose
      cases hclose
  · rcases h' with ⟨hclose', rfl⟩ | h'
    · rw [h.not_close] at hclose'
      cases hclose'
    · exact h.unique h'

end Json

end OpenDB
