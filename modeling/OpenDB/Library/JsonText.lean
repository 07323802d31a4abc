import Mathlib.Data.List.Basic

/-!
# The grammar of JSON

The productions of RFC 8259 over bytes: `Derives` relates what a symbol of the grammar stands for to the
texts that are derived from it. A string keeps its characters as they are written, and every byte from
`0x80` on is a character of its own.

A text can be shown not to be one of the grammar by a run over its bytes (`scan`): outside of strings
the letter `n` occurs in `null` only, so it is always followed by `u` (`Derives.passes`).
-/

set_option autoImplicit false

namespace OpenDB.Library.JsonText

abbrev Text := List UInt8

/-! ## Productions -/

/-- Insignificant whitespace. -/
def Blank (s : Text) : Prop := ∀ c ∈ s, c = 32 ∨ c = 9 ∨ c = 10 ∨ c = 13

/-- A structural character, with whitespace around it. -/
def Structural (c : UInt8) (s : Text) : Prop :=
  ∃ front back, Blank front ∧ Blank back ∧ s = front ++ c :: back

def Digit (c : UInt8) : Prop := 48 ≤ c ∧ c ≤ 57

def HexDigit (c : UInt8) : Prop := Digit c ∨ (65 ≤ c ∧ c ≤ 70) ∨ (97 ≤ c ∧ c ≤ 102)

def Digits (s : Text) : Prop := s ≠ [] ∧ ∀ c ∈ s, Digit c

/-- Zero, or digits that do not begin with it. -/
def Whole (s : Text) : Prop := s = [48] ∨ Digits s ∧ s.head? ≠ some 48

def Fraction (s : Text) : Prop := s = [] ∨ ∃ digits, Digits digits ∧ s = 46 :: digits

def Exponent (s : Text) : Prop :=
  s = [] ∨ ∃ e sign digits, (e = 69 ∨ e = 101) ∧ (sign = [] ∨ sign = [43] ∨ sign = [45]) ∧
    Digits digits ∧ s = e :: (sign ++ digits)

/-- `number = [ minus ] int [ frac ] [ exp ]`. -/
def Number (s : Text) : Prop :=
  ∃ minus whole frac exp, (minus = [] ∨ minus = [45]) ∧ Whole whole ∧ Fraction frac ∧ Exponent exp ∧
    s = minus ++ (whole ++ (frac ++ exp))

/-- `*char`, what stands between the quotes. -/
inductive Chars : Text → Prop where
  | nil : Chars []
  | unescaped {c : UInt8} {s : Text} (hc : 32 ≤ c) (hquote : c ≠ 34) (hslash : c ≠ 92) (h : Chars s) :
      Chars (c :: s)
  | escape {c : UInt8} {s : Text} (hc : c ∈ [34, 92, 47, 98, 102, 110, 114, 116]) (h : Chars s) :
      Chars (92 :: c :: s)
  | unicode {digits s : Text} (hlength : digits.length = 4) (hdigits : ∀ c ∈ digits, HexDigit c)
      (h : Chars s) : Chars (92 :: 117 :: (digits ++ s))

/-- What a value is derived from. -/
inductive Tree where
  | null
  | boolean (b : Bool)
  | number (text : Text)
  | string (chars : Text)
  | array (items : List Tree)
  | object (members : List (Text × Tree))

inductive Symbol where
  | value (v : Tree)
  | member (m : Text × Tree)
  /-- Symbols with commas between them. -/
  | list (symbols : List Symbol)

inductive Derives : Symbol → Text → Prop where
  | null : Derives (.value .null) [110, 117, 108, 108]
  | true : Derives (.value (.boolean true)) [116, 114, 117, 101]
  | false : Derives (.value (.boolean false)) [102, 97, 108, 115, 101]
  | number {s : Text} (h : Number s) : Derives (.value (.number s)) s
  | string {s : Text} (h : Chars s) : Derives (.value (.string s)) (34 :: (s ++ [34]))
  | array {vs : List Tree} {o s c : Text} (ho : Structural 91 o)
      (h : Derives (.list (vs.map .value)) s) (hc : Structural 93 c) :
      Derives (.value (.array vs)) (o ++ (s ++ c))
  | object {ms : List (Text × Tree)} {o s c : Text} (ho : Structural 123 o)
      (h : Derives (.list (ms.map .member)) s) (hc : Structural 125 c) :
      Derives (.value (.object ms)) (o ++ (s ++ c))
  | member {key c s : Text} {v : Tree} (hkey : Chars key) (hc : Structural 58 c)
      (h : Derives (.value v) s) : Derives (.member (key, v)) (34 :: (key ++ 34 :: (c ++ s)))
  | none : Derives (.list []) []
  | last {x : Symbol} {s : Text} (h : Derives x s) : Derives (.list [x]) s
  | next {x y : Symbol} {xs : List Symbol} {s c r : Text} (h : Derives x s) (hc : Structural 44 c)
      (hrest : Derives (.list (y :: xs)) r) : Derives (.list (x :: y :: xs)) (s ++ (c ++ r))

/-- `JSON-text = ws value ws`. -/
def Document (v : Tree) (s : Text) : Prop :=
  ∃ front t back, Blank front ∧ Derives (.value v) t ∧ Blank back ∧ s = front ++ (t ++ back)

/-! ## Compact texts -/

variable {x : Symbol} {v : Tree} {s t : Text} {c : UInt8}

theorem blank_nil : Blank [] := by
  simp [Blank]

theorem structural_singleton (c : UInt8) : Structural c [c] :=
  ⟨[], [], blank_nil, blank_nil, rfl⟩

theorem Derives.document (h : Derives (.value v) s) : Document v s :=
  ⟨[], s, [], blank_nil, h, blank_nil, by simp⟩

/-- Texts that are joined with commas. -/
theorem derives_intercalate {xs : List Symbol} {texts : List Text} (h : List.Forall₂ Derives xs texts) :
    Derives (.list xs) ([44].intercalate texts) := by
  induction h with
  | nil => exact Derives.none
  | @cons x s xs texts hx hrest ih =>
    cases hrest with
    | nil =>
      rw [List.intercalate_singleton]
      exact Derives.last hx
    | cons hy hrest =>
      -- a comma, and the others by induction
      rw [List.intercalate_cons_cons, List.append_assoc]
      exact Derives.next hx (structural_singleton 44) ih

theorem Derives.compactArray {vs : List Tree} (h : Derives (.list (vs.map .value)) s) :
    Derives (.value (.array vs)) (91 :: (s ++ [93])) :=
  Derives.array (structural_singleton 91) h (structural_singleton 93)

theorem Derives.compactObject {ms : List (Text × Tree)} (h : Derives (.list (ms.map .member)) s) :
    Derives (.value (.object ms)) (123 :: (s ++ [125])) :=
  Derives.object (structural_singleton 123) h (structural_singleton 125)

theorem Derives.compactMember {key : Text} (hkey : Chars key) (h : Derives (.value v) s) :
    Derives (.member (key, v)) (34 :: (key ++ 34 :: 58 :: s)) :=
  Derives.member hkey (structural_singleton 58) h

theorem Chars.append (hs : Chars s) (ht : Chars t) : Chars (s ++ t) := by
  induction hs with
  | nil => exact ht
  | unescaped hc hquote hslash _ ih => exact .unescaped hc hquote hslash ih
  | escape hc _ ih => exact .escape hc ih
  | unicode hlength hdigits _ ih =>
    rw [List.cons_append, List.cons_append, List.append_assoc]
    exact .unicode hlength hdigits ih

/-! ## The letter n outside of strings -/

inductive Mode where
  | plain
  /-- Behind an `n` outside of strings. -/
  | afterN
  | inString
  | escaped

def step : Mode → UInt8 → Option Mode
  | .plain, c => some (if c = 34 then .inString else if c = 110 then .afterN else .plain)
  | .afterN, c => if c = 117 then some .plain else none
  | .inString, c => some (if c = 34 then .plain else if c = 92 then .escaped else .inString)
  | .escaped, _ => some .inString

def scan (mode : Mode) (s : Text) : Option Mode := s.foldlM step mode

def Passes (s : Text) : Prop := scan .plain s = some .plain

def Fails (s : Text) : Prop := scan .plain s = none

theorem scan_append (mode : Mode) (s t : Text) :
    scan mode (s ++ t) = (scan mode s).bind fun mode => scan mode t :=
  List.foldlM_append

theorem Passes.append (hs : Passes s) (ht : Passes t) : Passes (s ++ t) := by
  rw [Passes, scan_append, hs]
  exact ht

theorem Passes.append_fails (hs : Passes s) (ht : Fails t) : Fails (s ++ t) := by
  rw [Fails, scan_append, hs]
  exact ht

theorem Fails.append (hs : Fails s) (t : Text) : Fails (s ++ t) := by
  rw [Fails, scan_append, hs]
  rfl

theorem Passes.not_fails (hs : Passes s) : ¬ Fails s := by
  intro hfails
  rw [Fails, hs] at hfails
  cases hfails

/-- Neither a quote nor an `n`. -/
def Quiet (c : UInt8) : Prop := c ≠ 34 ∧ c ≠ 110

theorem passes_of_quiet (h : ∀ c ∈ s, Quiet c) : Passes s := by
  induction s with
  | nil => rfl
  | cons c s ih =>
    obtain ⟨hquote, hn⟩ := h c (List.mem_cons_self ..)
    rw [Passes, scan, List.foldlM_cons, step, if_neg hquote, if_neg hn]
    exact ih fun c hc => h c (List.mem_cons_of_mem _ hc)

theorem Blank.passes (h : Blank s) : Passes s := by
  refine passes_of_quiet fun c hc => ?_
  rcases h c hc with rfl | rfl | rfl | rfl <;> exact ⟨by decide, by decide⟩

theorem Structural.passes (hc : Quiet c) (h : Structural c s) : Passes s := by
  obtain ⟨front, back, hfront, hback, rfl⟩ := h
  exact hfront.passes.append ((passes_of_quiet (by simpa using hc)).append (s := [c]) hback.passes)

theorem Digit.quiet (h : Digit c) : Quiet c := by
  constructor
  · rintro rfl
    exact absurd h.1 (by decide)
  · rintro rfl
    exact absurd h.2 (by decide)

theorem Digits.passes (h : Digits s) : Passes s := passes_of_quiet fun c hc => (h.2 c hc).quiet

theorem Number.passes (h : Number s) : Passes s := by
  obtain ⟨minus, whole, frac, exp, hminus, hwhole, hfrac, hexp, rfl⟩ := h
  have hminus : Passes minus := by rcases hminus with rfl | rfl <;> rfl
  have hwhole : Passes whole := by
    rcases hwhole with rfl | ⟨hdigits, -⟩
    · rfl
    · exact hdigits.passes
  -- a sign, a point and the letters of an exponent are neither a quote nor an n
  have hfrac : Passes frac := by
    rcases hfrac with rfl | ⟨digits, hdigits, rfl⟩
    · rfl
    · exact Passes.append (s := [46]) rfl hdigits.passes
  have hexp : Passes exp := by
    rcases hexp with rfl | ⟨e, sign, digits, he, hsign, hdigits, rfl⟩
    · rfl
    · have he : Passes [e] := by rcases he with rfl | rfl <;> rfl
      have hsign : Passes sign := by rcases hsign with rfl | rfl | rfl <;> rfl
      exact he.append (hsign.append hdigits.passes)
  exact hminus.append (hwhole.append (hfrac.append hexp))

/-- The characters of a string leave the string open. -/
theorem Chars.scan_eq (h : Chars s) : scan .inString s = some .inString := by
  induction h with
  | nil => rfl
  | @unescaped c s _ hquote hslash _ ih =>
    rw [scan, List.foldlM_cons, step, if_neg hquote, if_neg hslash]
    exact ih
  | escape _ _ ih => exact ih
  | @unicode digits s _ hdigits _ ih =>
    -- however many digits there are, none of them closes the string
    have hrun : ∀ {digits : Text}, (∀ c ∈ digits, HexDigit c) →
        scan .inString (digits ++ s) = some .inString := by
      intro digits hdigits
      induction digits with
      | nil => exact ih
      | cons c digits ihd =>
        have hc := hdigits c (List.mem_cons_self ..)
        have hne : c ≠ 34 ∧ c ≠ 92 := by
          simp only [HexDigit, Digit] at hc
          constructor
          · rintro rfl
            exact absurd hc (by decide)
          · rintro rfl
            exact absurd hc (by decide)
        rw [List.cons_append, scan, List.foldlM_cons, step, if_neg hne.1, if_neg hne.2]
        exact ihd fun c hc => hdigits c (List.mem_cons_of_mem _ hc)
    exact hrun hdigits

/-- A string, with its quotes, passes whatever is in it. -/
theorem Chars.passes (h : Chars s) : Passes (34 :: (s ++ [34])) := by
  have hopen : scan .plain (34 :: (s ++ [34])) = scan .inString (s ++ [34]) := rfl
  rw [Passes, hopen, scan_append, h.scan_eq]
  rfl

theorem Derives.passes (h : Derives x s) : Passes s := by
  induction h with
  | null => rfl
  | true => rfl
  | false => rfl
  | number h => exact h.passes
  | string h => exact h.passes
  | array ho _ hc ih =>
    exact (ho.passes ⟨by decide, by decide⟩).append (ih.append (hc.passes ⟨by decide, by decide⟩))
  | object ho _ hc ih =>
    exact (ho.passes ⟨by decide, by decide⟩).append (ih.append (hc.passes ⟨by decide, by decide⟩))
  | @member key c s v hkey hc _ ih =>
    -- the key passes as a string of its own
    have htext : 34 :: (key ++ 34 :: (c ++ s)) = 34 :: (key ++ [34]) ++ (c ++ s) := by simp
    rw [htext]
    exact hkey.passes.append ((hc.passes ⟨by decide, by decide⟩).append ih)
  | none => rfl
  | last _ ih => exact ih
  | next _ hc _ ih ihrest =>
    exact ih.append ((hc.passes ⟨by decide, by decide⟩).append ihrest)

theorem Document.passes (h : Document v s) : Passes s := by
  obtain ⟨front, t, back, hfront, ht, hback, rfl⟩ := h
  exact hfront.passes.append (ht.passes.append hback.passes)

end OpenDB.Library.JsonText
