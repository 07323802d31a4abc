import OpenDB.Frontend.JsonDialects

/-!
# Reading off a text

A number is read by the parser as far as its digits go and by the grammar as far as the characters of
numbers go. The two agree (`signedDigits_eq_iff`) where a number ends, and behind a value there has to be
a comma or a closing bracket. A text is read in one way only (`Reads.unique`).
-/

set_option autoImplicit false

namespace OpenDB

namespace Json

variable {s r m : Bytes}

/-! ## Characters -/

theorem expect_eq_some {c : UInt8} : expect c s = some r ↔ s = c :: r := by
  cases s with
  | nil => simp [expect]
  | cons c' rest =>
    rw [expect]
    split_ifs with h
    · simp [h]
    · simp [h]

theorem skipWhitespace_idem (s : Bytes) : skipWhitespace (skipWhitespace s) = skipWhitespace s := by
  induction s with
  | nil => rfl
  | cons c rest ih =>
    rw [skipWhitespace]
    split_ifs with h
    · exact ih
    · rw [skipWhitespace, if_neg h]

theorem length_skipWhitespace_le (s : Bytes) : (skipWhitespace s).length ≤ s.length := by
  induction s with
  | nil => rfl
  | cons c rest ih =>
    rw [skipWhitespace]
    split_ifs
    · exact ih.trans (Nat.le_succ _)
    · exact le_rfl

theorem length_of_expect {c : UInt8} (h : expect c (skipWhitespace s) = some r) :
    r.length < s.length := by
  have hlength := congrArg List.length (expect_eq_some.1 h)
  have hle := length_skipWhitespace_le s
  rw [List.length_cons] at hlength
  omega

/-- A number ends here. -/
def Stops (r : Bytes) : Prop := ∀ c ∈ r.head?, isNumberByte c = false

theorem stops_of_expect {c : UInt8} (hc : isNumberByte c = false)
    (h : expect c (skipWhitespace r) = some m) : Stops r := by
  intro c' hc'
  cases r with
  | nil => cases hc'
  | cons d rest =>
    cases hc'
    rw [skipWhitespace] at h
    split_ifs at h with hspace
    · rcases hspace with rfl | rfl | rfl | rfl <;> rfl
    · cases expect_eq_some.1 h
      exact hc

/-! ## Strings -/

theorem parseChars_eq (s : Bytes) :
    parseChars s = (lexItems s).map fun p => (unitText p.1, p.2) := by
  fun_induction lexItems s with
  | case1 => rfl
  | case2 rest => simp [parseChars.eq_def (34 :: rest), unitText]
  | case3 => rfl
  | case4 h₁ h₂ h₃ h₄ rest _ ih =>
    rw [parseChars.eq_def]
    dsimp only
    rw [if_neg (by decide), if_pos rfl, if_pos rfl, ih]
    cases hexCode [h₁, h₂, h₃, h₄] with
    | none => rfl
    | some code => cases lexItems rest <;> rfl
  | case5 rest hshort =>
    rw [parseChars.eq_def]
    dsimp only
    rw [if_neg (by decide), if_pos rfl, if_pos rfl]
    split
    · exact absurd rfl (hshort _ _ _ _ _)
    · rfl
  | case6 esc rest hesc _ ih =>
    rw [parseChars.eq_def]
    dsimp only
    rw [if_neg (by decide), if_pos rfl, if_neg hesc, ih]
    cases escape esc with
    | none => rfl
    | some c => cases lexItems rest <;> rfl
  | case7 c rest hquote hback ih =>
    rw [parseChars.eq_def]
    dsimp only
    rw [if_neg hquote, if_neg hback, ih]
    cases lexItems rest <;> rfl

theorem parseString_eq (s : Bytes) :
    parseString s = (lexString s).map fun p => (unitText p.1, p.2) := by
  rw [parseString, lexString]
  cases expect 34 s with
  | none => rfl
  | some rest => exact parseChars_eq rest

theorem length_of_lexItems {items : List Item} (h : lexItems s = some (items, r)) :
    r.length < s.length := by
  fun_induction lexItems s generalizing items with
  | case1 => cases h
  | case2 rest =>
    cases h
    exact Nat.lt_succ_self _
  | case3 => cases h
  | case4 h₁ h₂ h₃ h₄ rest _ ih =>
    obtain ⟨code, -, h⟩ := Option.bind_eq_some_iff.1 h
    obtain ⟨⟨items', r'⟩, hrest, h⟩ := Option.bind_eq_some_iff.1 h
    cases h
    have hlt := ih hrest
    simp only [List.length_cons]
    omega
  | case5 => cases h
  | case6 esc rest hesc _ ih =>
    obtain ⟨c, -, h⟩ := Option.bind_eq_some_iff.1 h
    obtain ⟨⟨items', r'⟩, hrest, h⟩ := Option.bind_eq_some_iff.1 h
    cases h
    have hlt := ih hrest
    simp only [List.length_cons]
    omega
  | case7 c rest hquote hback ih =>
    obtain ⟨⟨items', r'⟩, hrest, h⟩ := Option.bind_eq_some_iff.1 h
    cases h
    have hlt := ih hrest
    simp only [List.length_cons]
    omega

theorem length_of_lexString {items : List Item} (h : lexString s = some (items, r)) :
    r.length < s.length := by
  obtain ⟨rest, hopen, h⟩ := Option.bind_eq_some_iff.1 h
  have hlt := length_of_lexItems h
  rw [expect_eq_some.1 hopen, List.length_cons]
  omega

theorem parseString_eq_some {text : Bytes} :
    parseString s = some (text, r) ↔ ∃ items, lexString s = some (items, r) ∧ unitText items = text := by
  rw [parseString_eq, Option.map_eq_some_iff]
  constructor
  · rintro ⟨⟨items, rest⟩, h, heq⟩
    cases heq
    exact ⟨items, h, rfl⟩
  · rintro ⟨items, h, rfl⟩
    exact ⟨(items, r), h, rfl⟩

/-! ## Numbers -/

theorem isNumberByte_of_isDigit {c : UInt8} (h : isDigit c = true) : isNumberByte c = true := by
  simp [isNumberByte, h]

/-- The number in front of a text, as far as its characters go. -/
def numberRun (s : Bytes) : Bytes × Bytes := (s.takeWhile isNumberByte, s.dropWhile isNumberByte)

theorem numberRun_append {text : Bytes} (htext : text.all isNumberByte = true) (hr : Stops r) :
    numberRun (text ++ r) = (text, r) := by
  have htext := List.all_eq_true.1 htext
  have hhead : r.takeWhile isNumberByte = [] ∧ r.dropWhile isNumberByte = r := by
    cases r with
    | nil => exact ⟨rfl, rfl⟩
    | cons c rest => simp [hr c rfl]
  rw [numberRun, List.takeWhile_append_of_pos htext, List.dropWhile_append_of_pos htext, hhead.1,
    hhead.2, List.append_nil]

theorem signedDigits_append (s : Bytes) : (signedDigits s).1 ++ (signedDigits s).2 = s := by
  cases s with
  | nil => rfl
  | cons c rest =>
    rw [signedDigits]
    split_ifs
    · simp
    · exact List.takeWhile_append_dropWhile

theorem all_isNumberByte_signedDigits (s : Bytes) :
    (signedDigits s).1.all isNumberByte = true := by
  have hdigits : ∀ s : Bytes, (s.takeWhile isDigit).all isNumberByte = true := fun s =>
    List.all_eq_true.2 fun c hc => isNumberByte_of_isDigit (List.mem_takeWhile_imp hc)
  cases s with
  | nil => rfl
  | cons c rest =>
    rw [signedDigits]
    split_ifs with hsign
    · rw [List.all_cons, hdigits rest, Bool.and_true]
      rcases hsign with rfl | rfl <;> rfl
    · exact hdigits _

theorem isSignedDigits_signedDigits (s : Bytes) : isSignedDigits (signedDigits s).1 = true := by
  have hdigits : ∀ s : Bytes, (s.takeWhile isDigit).all isDigit = true := fun s =>
    List.all_eq_true.2 fun c hc => List.mem_takeWhile_imp hc
  cases s with
  | nil => rfl
  | cons c rest =>
    rw [signedDigits]
    split_ifs with hsign
    · rw [isSignedDigits_iff, if_pos hsign]
      exact hdigits rest
    · dsimp only
      rw [List.takeWhile_cons]
      split
      · rename_i hdigit
        rw [isSignedDigits_iff, if_neg hsign, List.all_cons, hdigit, hdigits]
        rfl
      · rfl

theorem signedDigits_append_right {text : Bytes} (hne : text ≠ []) (htext : isSignedDigits text = true)
    (hr : Stops r) : signedDigits (text ++ r) = (text, r) := by
  have hhead : r.takeWhile isDigit = [] ∧ r.dropWhile isDigit = r := by
    cases r with
    | nil => exact ⟨rfl, rfl⟩
    | cons c rest =>
      have hdigit : isDigit c ≠ true := fun h => by
        have := hr c rfl
        rw [isNumberByte_of_isDigit h] at this
        cases this
      simp [hdigit]
  have happend : ∀ {digits : Bytes}, digits.all isDigit = true →
      (digits ++ r).takeWhile isDigit = digits ∧ (digits ++ r).dropWhile isDigit = r := by
    intro digits hdigits
    have hdigits := List.all_eq_true.1 hdigits
    rw [List.takeWhile_append_of_pos hdigits, List.dropWhile_append_of_pos hdigits, hhead.1, hhead.2,
      List.append_nil]
    exact ⟨rfl, rfl⟩
  cases text with
  | nil => exact absurd rfl hne
  | cons c rest =>
    rw [isSignedDigits_iff] at htext
    rw [List.cons_append, signedDigits]
    by_cases hsign : c = 45 ∨ c = 43
    · rw [if_pos hsign] at htext ⊢
      rw [(happend htext).1, (happend htext).2]
    · rw [if_neg hsign] at htext ⊢
      rw [← List.cons_append, (happend htext).1, (happend htext).2]

/-- Where a number ends behind its digits, the parser reads the number. -/
theorem signedDigits_eq_iff {text : Bytes} (hne : text ≠ []) (hr : Stops r) :
    signedDigits s = (text, r) ↔ numberRun s = (text, r) ∧ isSignedDigits text = true := by
  constructor
  · intro h
    have happend := signedDigits_append s
    have hall := all_isNumberByte_signedDigits s
    have hsigned := isSignedDigits_signedDigits s
    rw [h] at happend hall hsigned
    rw [← happend]
    exact ⟨numberRun_append hall hr, hsigned⟩
  · rintro ⟨hrun, hsigned⟩
    have happend : (numberRun s).1 ++ (numberRun s).2 = s := List.takeWhile_append_dropWhile
    rw [hrun] at happend
    rw [← happend]
    exact signedDigits_append_right hne hsigned hr

/-! ## Tokens -/

theorem skipLiteral_eq {c : UInt8} (hc : c = 116 ∨ c = 102 ∨ c = 110) (rest : Bytes) :
    skipLiteral c (c :: rest) = lexLiteral (c :: rest) := by
  have hword : ∀ word s : Bytes,
      (if s.length < word.length then none
        else if s.take word.length = word then some (s.drop word.length) else none) =
      if word.isPrefixOf s then some (s.drop word.length) else none := by
    intro word s
    have hstart : word.isPrefixOf s = true ↔ s.take word.length = word := by
      rw [List.isPrefixOf_iff_prefix, List.prefix_iff_eq_take, eq_comm]
    split_ifs with hshort htake htake
    · have := (List.isPrefixOf_iff_prefix.1 htake).length_le
      omega
    · rfl
    · rfl
    · exact absurd (hstart.2 htake) ‹_›
    · exact absurd (hstart.1 ‹_›) htake
    · rfl
  rcases hc with rfl | rfl | rfl
  · have hfalse : (ascii "false").isPrefixOf (116 :: rest) = false := rfl
    have hnull : (ascii "null").isPrefixOf (116 :: rest) = false := rfl
    refine (hword (ascii "true") _).trans ?_
    simp only [lexLiteral, List.findSome?_cons, List.findSome?_nil, hfalse, hnull]
    split <;> simp_all
  · have htrue : (ascii "true").isPrefixOf (102 :: rest) = false := rfl
    have hnull : (ascii "null").isPrefixOf (102 :: rest) = false := rfl
    refine (hword (ascii "false") _).trans ?_
    simp only [lexLiteral, List.findSome?_cons, List.findSome?_nil, htrue, hnull]
    split <;> simp_all
  · have htrue : (ascii "true").isPrefixOf (110 :: rest) = false := rfl
    have hfalse : (ascii "false").isPrefixOf (110 :: rest) = false := rfl
    refine (hword (ascii "null") _).trans ?_
    simp only [lexLiteral, List.findSome?_cons, List.findSome?_nil, htrue, hfalse]
    split <;> simp_all

theorem lexLiteral_eq_none {c : UInt8} (hc : ¬ (c = 116 ∨ c = 102 ∨ c = 110)) (rest : Bytes) :
    lexLiteral (c :: rest) = none := by
  simp only [not_or] at hc
  have htrue : (ascii "true").isPrefixOf (c :: rest) = false := by
    have hne : ((116 : UInt8) == c) = false := beq_false_of_ne (Ne.symm hc.1)
    exact congrArg (· && _) hne
  have hfalse : (ascii "false").isPrefixOf (c :: rest) = false := by
    have hne : ((102 : UInt8) == c) = false := beq_false_of_ne (Ne.symm hc.2.1)
    exact congrArg (· && _) hne
  have hnull : (ascii "null").isPrefixOf (c :: rest) = false := by
    have hne : ((110 : UInt8) == c) = false := beq_false_of_ne (Ne.symm hc.2.2)
    exact congrArg (· && _) hne
  simp only [lexLiteral, List.findSome?_cons, List.findSome?_nil, htrue, hfalse, hnull]
  rfl

theorem first_of_lexLiteral {c : UInt8} {rest : Bytes} (h : lexLiteral (c :: rest) = some r) :
    c = 116 ∨ c = 102 ∨ c = 110 := by
  by_contra hc
  rw [lexLiteral_eq_none hc] at h
  cases h

theorem length_of_lexLiteral (h : lexLiteral s = some r) : r.length < s.length := by
  obtain ⟨word, hmem, h⟩ := List.exists_of_findSome?_eq_some h
  split_ifs at h with hstart
  cases h
  have hle := (List.isPrefixOf_iff_prefix.1 hstart).length_le
  have hpos : ∀ word ∈ [ascii "true", ascii "false", ascii "null"], 0 < word.length := by decide
  have := hpos word hmem
  rw [List.length_drop]
  omega

/-- The three ways to start a token. -/
theorem lexToken_eq_some {v : JsonValue} (h : lexToken s = some (v, r)) :
    (∃ items, v = .string items ∧ lexString s = some (items, r)) ∨
    (∃ c rest, s = c :: rest ∧ isNumberByte c = true ∧ v = .number (numberRun s).1 ∧
      r = (numberRun s).2) ∨
    (v = .other [] ∧ lexLiteral s = some r) := by
  cases s with
  | nil => cases h
  | cons c rest =>
    rw [lexToken] at h
    split_ifs at h with hquote hnumber
    · obtain ⟨⟨items, r'⟩, hstring, heq⟩ := Option.map_eq_some_iff.1 h
      cases heq
      exact .inl ⟨items, rfl, hstring⟩
    · cases h
      exact .inr (.inl ⟨c, rest, rfl, hnumber, rfl, rfl⟩)
    · obtain ⟨r', hliteral, heq⟩ := Option.map_eq_some_iff.1 h
      cases heq
      exact .inr (.inr ⟨rfl, hliteral⟩)

theorem lexToken_eq_none {c : UInt8} (hc : c = 123 ∨ c = 91 ∨ c = 93) (rest : Bytes) :
    lexToken (c :: rest) = none := by
  have hliteral : lexLiteral (c :: rest) = none :=
    lexLiteral_eq_none (by rcases hc with rfl | rfl | rfl <;> decide) rest
  rw [lexToken, if_neg (by rcases hc with rfl | rfl | rfl <;> decide),
    if_neg (by rcases hc with rfl | rfl | rfl <;> decide), hliteral]
  rfl

theorem lexToken_of_lexString {items : List Item} (h : lexString s = some (items, r)) :
    lexToken s = some (.string items, r) := by
  obtain ⟨rest, hopen, hitems⟩ := Option.bind_eq_some_iff.1 h
  cases expect_eq_some.1 hopen
  rw [lexToken, if_pos rfl, h]
  rfl

theorem lexToken_of_lexLiteral (h : lexLiteral s = some r) : lexToken s = some (.other [], r) := by
  cases s with
  | nil => cases h
  | cons c rest =>
    have hword := first_of_lexLiteral h
    rw [lexToken, if_neg (by rcases hword with rfl | rfl | rfl <;> decide),
      if_neg (by rcases hword with rfl | rfl | rfl <;> decide), h]
    rfl

theorem lexToken_of_number {c : UInt8} {rest : Bytes} (hc : isNumberByte c = true) :
    lexToken (c :: rest) = some (.number (numberRun (c :: rest)).1, (numberRun (c :: rest)).2) := by
  have hquote : c ≠ 34 := by
    rintro rfl
    exact absurd hc (by decide)
  rw [lexToken, if_neg hquote, if_pos hc]
  rfl

theorem length_of_lexToken {v : JsonValue} (h : lexToken s = some (v, r)) : r.length < s.length := by
  rcases lexToken_eq_some h with ⟨items, -, hstring⟩ | ⟨c, rest, rfl, hc, -, rfl⟩ | ⟨-, hliteral⟩
  · exact length_of_lexString hstring
  · have hle := (List.dropWhile_suffix (l := rest) isNumberByte).length_le
    simp only [numberRun, List.dropWhile_cons_of_pos hc, List.length_cons]
    omega
  · exact length_of_lexLiteral hliteral

/-! ## The reading is unique -/

/-- Blanks in front of a rule do not matter. -/
theorem Reads.congr {part : Part} {v : JsonValue} {s' : Bytes} (h : Reads part s v r)
    (hs : skipWhitespace s = skipWhitespace s') : Reads part s' v r := by
  induction h with
  | token h => exact .token (hs ▸ h)
  | emptyObject hopen hclose => exact .emptyObject (hs ▸ hopen) hclose
  | object hopen h => exact .object (hs ▸ hopen) h
  | emptyArray hopen hclose => exact .emptyArray (hs ▸ hopen) hclose
  | array hopen h => exact .array (hs ▸ hopen) h
  | lastMember hkey hcolon hvalue hclose => exact .lastMember (hs ▸ hkey) hcolon hvalue hclose
  | moreMembers hkey hcolon hvalue hcomma hrest =>
    exact .moreMembers (hs ▸ hkey) hcolon hvalue hcomma hrest
  | lastElement _ hclose ih => exact .lastElement (ih hs) hclose
  | moreElements _ hcomma hrest ih => exact .moreElements (ih hs) hcomma hrest

theorem reads_skipWhitespace {part : Part} {v : JsonValue} :
    Reads part (skipWhitespace s) v r ↔ Reads part s v r :=
  ⟨fun h => h.congr (skipWhitespace_idem s), fun h => h.congr (skipWhitespace_idem s).symm⟩

/-- Members and elements are kept as their tokens. -/
theorem Reads.eq_other {part : Part} {v : JsonValue} (h : Reads part s v r) (hpart : part ≠ .value) :
    ∃ tokens, v = .other tokens := by
  cases h with
  | lastMember => exact ⟨_, rfl⟩
  | moreMembers => exact ⟨_, rfl⟩
  | lastElement => exact ⟨_, rfl⟩
  | moreElements => exact ⟨_, rfl⟩
  | _ => exact absurd rfl hpart

theorem Reads.length_lt {part : Part} {v : JsonValue} (h : Reads part s v r) : r.length < s.length := by
  induction h with
  | token h => exact (length_of_lexToken h).trans_le (length_skipWhitespace_le _)
  | emptyObject hopen hclose => exact (length_of_expect hclose).trans (length_of_expect hopen)
  | object hopen _ ih => exact ih.trans (length_of_expect hopen)
  | emptyArray hopen hclose => exact (length_of_expect hclose).trans (length_of_expect hopen)
  | array hopen _ ih => exact ih.trans (length_of_expect hopen)
  | lastMember hkey hcolon _ hclose ih =>
    exact (length_of_expect hclose).trans (ih.trans ((length_of_expect hcolon).trans
      ((length_of_lexString hkey).trans_le (length_skipWhitespace_le _))))
  | moreMembers hkey hcolon _ hcomma _ ih ihrest =>
    exact ihrest.trans ((length_of_expect hcomma).trans (ih.trans ((length_of_expect hcolon).trans
      ((length_of_lexString hkey).trans_le (length_skipWhitespace_le _)))))
  | lastElement _ hclose ih => exact (length_of_expect hclose).trans ih
  | moreElements _ hcomma _ ih ihrest => exact ihrest.trans ((length_of_expect hcomma).trans ih)

/-- A bracket is no token. -/
theorem lexToken_of_expect {c : UInt8} (hc : c = 123 ∨ c = 91 ∨ c = 93)
    (h : expect c (skipWhitespace s) = some m) : lexToken (skipWhitespace s) = none := by
  rw [expect_eq_some.1 h]
  exact lexToken_eq_none hc m

/-- Only one character comes next. -/
theorem expect_unique {c c' : UInt8} (h : expect c s = some r) (h' : expect c' s = some m) :
    c = c' ∧ r = m := by
  have heq := (expect_eq_some.1 h).symm.trans (expect_eq_some.1 h')
  exact List.cons.inj heq

theorem lexString_of_expect {c : UInt8} (hc : c ≠ 34) (h : expect c s = some m) :
    lexString s = none := by
  have hnone : expect 34 s = none := by
    cases hquote : expect 34 s with
    | none => rfl
    | some r => exact absurd (expect_unique h hquote).1 hc
  rw [lexString, hnone]
  rfl

/-- No element starts at a closing bracket. -/
theorem Reads.not_elements {v : JsonValue} (h : Reads .elements s v r)
    (hclose : expect 93 (skipWhitespace s) = some m) : False := by
  have hvalue : ∀ {v : JsonValue} {r : Bytes}, ¬ Reads .value s v r := by
    intro v r h
    cases h with
    | token h =>
      rw [lexToken_of_expect (.inr (.inr rfl)) hclose] at h
      cases h
    | emptyObject hopen => exact absurd (expect_unique hopen hclose).1 (by decide)
    | object hopen => exact absurd (expect_unique hopen hclose).1 (by decide)
    | emptyArray hopen => exact absurd (expect_unique hopen hclose).1 (by decide)
    | array hopen => exact absurd (expect_unique hopen hclose).1 (by decide)
  cases h with
  | lastElement h => exact hvalue h
  | moreElements h => exact hvalue h

/-- No member starts at a closing brace. -/
theorem Reads.not_members {v : JsonValue} (h : Reads .members s v r)
    (hclose : expect 125 (skipWhitespace s) = some m) : False := by
  have hnone := lexString_of_expect (by decide) hclose
  cases h with
  | lastMember hkey =>
    rw [hnone] at hkey
    cases hkey
  | moreMembers hkey =>
    rw [hnone] at hkey
    cases hkey

theorem Reads.unique {part : Part} {v v' : JsonValue} {r' : Bytes} (h : Reads part s v r)
    (h' : Reads part s v' r') : v = v' ∧ r = r' := by
  -- the first byte settles which rule reads the value, the byte behind an item whether it is the last
  induction h generalizing v' r' with
  | token h =>
    cases h' with
    | token h' =>
      rw [h] at h'
      cases h'
      exact ⟨rfl, rfl⟩
    | emptyObject hopen | object hopen =>
      rw [lexToken_of_expect (.inl rfl) hopen] at h
      cases h
    | emptyArray hopen | array hopen =>
      rw [lexToken_of_expect (.inr (.inl rfl)) hopen] at h
      cases h
  | emptyObject hopen hclose =>
    cases h' with
    | token h' =>
      rw [lexToken_of_expect (.inl rfl) hopen] at h'
      cases h'
    | emptyObject hopen' hclose' =>
      obtain ⟨-, rfl⟩ := expect_unique hopen hopen'
      exact ⟨rfl, (expect_unique hclose hclose').2⟩
    | object hopen' h' =>
      obtain ⟨-, rfl⟩ := expect_unique hopen hopen'
      exact (h'.not_members hclose).elim
    | emptyArray hopen' | array hopen' => exact absurd (expect_unique hopen hopen').1 (by decide)
  | object hopen h ih =>
    cases h' with
    | token h' =>
      rw [lexToken_of_expect (.inl rfl) hopen] at h'
      cases h'
    | emptyObject hopen' hclose' =>
      obtain ⟨-, rfl⟩ := expect_unique hopen hopen'
      exact (h.not_members hclose').elim
    | object hopen' h' =>
      obtain ⟨-, rfl⟩ := expect_unique hopen hopen'
      exact ih h'
    | emptyArray hopen' | array hopen' => exact absurd (expect_unique hopen hopen').1 (by decide)
  | emptyArray hopen hclose =>
    cases h' with
    | token h' =>
      rw [lexToken_of_expect (.inr (.inl rfl)) hopen] at h'
      cases h'
    | emptyObject hopen' | object hopen' => exact absurd (expect_unique hopen hopen').1 (by decide)
    | emptyArray hopen' hclose' =>
      obtain ⟨-, rfl⟩ := expect_unique hopen hopen'
      exact ⟨rfl, (expect_unique hclose hclose').2⟩
    | array hopen' h' =>
      obtain ⟨-, rfl⟩ := expect_unique hopen hopen'
      exact (h'.not_elements hclose).elim
  | array hopen h ih =>
    cases h' with
    | token h' =>
      rw [lexToken_of_expect (.inr (.inl rfl)) hopen] at h'
      cases h'
    | emptyObject hopen' | object hopen' => exact absurd (expect_unique hopen hopen').1 (by decide)
    | emptyArray hopen' hclose' =>
      obtain ⟨-, rfl⟩ := expect_unique hopen hopen'
      exact (h.not_elements hclose').elim
    | array hopen' h' =>
      obtain ⟨-, rfl⟩ := expect_unique hopen hopen'
      exact ih h'
  | lastMember hkey hcolon _ hclose ih =>
    cases h' with
    | lastMember hkey' hcolon' hvalue' hclose' =>
      cases hkey.symm.trans hkey'
      obtain ⟨-, rfl⟩ := expect_unique hcolon hcolon'
      obtain ⟨rfl, rfl⟩ := ih hvalue'
      exact ⟨rfl, (expect_unique hclose hclose').2⟩
    | moreMembers hkey' hcolon' hvalue' hcomma' =>
      cases hkey.symm.trans hkey'
      obtain ⟨-, rfl⟩ := expect_unique hcolon hcolon'
      obtain ⟨rfl, rfl⟩ := ih hvalue'
      exact absurd (expect_unique hclose hcomma').1 (by decide)
  | moreMembers hkey hcolon _ hcomma _ ih ihrest =>
    cases h' with
    | lastMember hkey' hcolon' hvalue' hclose' =>
      cases hkey.symm.trans hkey'
      obtain ⟨-, rfl⟩ := expect_unique hcolon hcolon'
      obtain ⟨rfl, rfl⟩ := ih hvalue'
      exact absurd (expect_unique hcomma hclose').1 (by decide)
    | moreMembers hkey' hcolon' hvalue' hcomma' hrest' =>
      cases hkey.symm.trans hkey'
      obtain ⟨-, rfl⟩ := expect_unique hcolon hcolon'
      obtain ⟨rfl, rfl⟩ := ih hvalue'
      obtain ⟨-, rfl⟩ := expect_unique hcomma hcomma'
      obtain ⟨rfl, rfl⟩ := ihrest hrest'
      exact ⟨rfl, rfl⟩
  | lastElement _ hclose ih =>
    cases h' with
    | lastElement hvalue' hclose' =>
      obtain ⟨rfl, rfl⟩ := ih hvalue'
      exact ⟨rfl, (expect_unique hclose hclose').2⟩
    | moreElements hvalue' hcomma' =>
      obtain ⟨rfl, rfl⟩ := ih hvalue'
      exact absurd (expect_unique hclose hcomma').1 (by decide)
  | moreElements _ hcomma _ ih ihrest =>
    cases h' with
    | lastElement hvalue' hclose' =>
      obtain ⟨rfl, rfl⟩ := ih hvalue'
      exact absurd (expect_unique hcomma hclose').1 (by decide)
    | moreElements hvalue' hcomma' hrest' =>
      obtain ⟨rfl, rfl⟩ := ih hvalue'
      obtain ⟨-, rfl⟩ := expect_unique hcomma hcomma'
      obtain ⟨rfl, rfl⟩ := ihrest hrest'
      exact ⟨rfl, rfl⟩

end Json

end OpenDB
