import OpenDB.Frontend.SqlReads
import OpenDB.Types.DecimalText

/-!
# Numeric literals

A numeral is a sign, digits, a fraction and an exponent, all of which may be missing or without digits.
The scanner of the parser takes the longest numeral that the text begins with (`scanNumber_eq`), whether
it is a number or not: the pointer where the conversion has stopped is not looked at. The conversion to
an integer saturates (`toInt_strtoll`).

So a literal is read exactly or rejected if and only if the numeral in front of the text is none or is a
number within the range (`numbers_exact_iff`).
-/

set_option autoImplicit false

namespace OpenDB

open OpenDB.Library

/-! ## Numerals -/

inductive Sign where
  | none
  | plus
  | minus
  deriving DecidableEq

def Sign.text : Sign → Bytes
  | .none => []
  | .plus => [43]
  | .minus => [45]

/-- Digits, perhaps none. -/
abbrev DigitText := { digits : Bytes // digits.all isDigit = true }

structure ExponentPart where
  capital : Bool
  sign : Sign
  digits : DigitText
  deriving DecidableEq

def ExponentPart.text (e : ExponentPart) : Bytes :=
  (if e.capital then 69 else 101) :: (e.sign.text ++ e.digits.1)

/-- The shape of a number; a fraction is there when the point is, an exponent when its letter is. -/
structure Numeral where
  sign : Sign
  whole : DigitText
  fraction : Option DigitText
  exponent : Option ExponentPart
  deriving DecidableEq

namespace Numeral

def fractionText : Option DigitText → Bytes
  | some digits => 46 :: digits.1
  | none => []

def exponentText : Option ExponentPart → Bytes
  | some e => e.text
  | none => []

def text (n : Numeral) : Bytes :=
  n.sign.text ++ (n.whole.1 ++ (fractionText n.fraction ++ exponentText n.exponent))

/-- A number has a digit in front of the point or behind it, and one in its exponent. -/
def WellFormed (n : Numeral) : Prop :=
  (n.whole.1 ≠ [] ∨ ∃ digits ∈ n.fraction, digits.1 ≠ []) ∧ ∀ e ∈ n.exponent, e.digits.1 ≠ []

/-- The stricter form, with digits wherever there may be any. -/
def Strict (n : Numeral) : Prop :=
  n.whole.1 ≠ [] ∧ (∀ digits ∈ n.fraction, digits.1 ≠ []) ∧ ∀ e ∈ n.exponent, e.digits.1 ≠ []

def IsInteger (n : Numeral) : Prop := n.fraction = none ∧ n.exponent = none

/-- The integer that is written. -/
def value (n : Numeral) : Int :=
  if n.sign = .minus then -(digitsValue n.whole.1 : Int) else digitsValue n.whole.1

/-! ## The numeral in front of a text -/

def readSign : Bytes → Sign × Bytes
  | 43 :: rest => (.plus, rest)
  | 45 :: rest => (.minus, rest)
  | text => (.none, text)

def readDigits (text : Bytes) : DigitText × Bytes :=
  (⟨text.takeWhile isDigit, List.all_takeWhile⟩, text.dropWhile isDigit)

def readFraction : Bytes → Option DigitText × Bytes
  | 46 :: rest => (some (readDigits rest).1, (readDigits rest).2)
  | text => (none, text)

/-- Behind the letter of an exponent. -/
def readPower (capital : Bool) (text : Bytes) : Option ExponentPart × Bytes :=
  (some ⟨capital, (readSign text).1, (readDigits (readSign text).2).1⟩,
    (readDigits (readSign text).2).2)

def readExponent : Bytes → Option ExponentPart × Bytes
  | 69 :: rest => readPower true rest
  | 101 :: rest => readPower false rest
  | text => (none, text)

/-- The longest numeral that the text begins with, and what is behind it. -/
def read (text : Bytes) : Numeral × Bytes :=
  let (sign, rest) := readSign text
  let (whole, rest) := readDigits rest
  let (fraction, rest) := readFraction rest
  let (exponent, rest) := readExponent rest
  (⟨sign, whole, fraction, exponent⟩, rest)

/-- No text goes on with what the predicate allows. -/
def Ends (p : UInt8 → Bool) (text : Bytes) : Prop := ∀ c ∈ text.head?, p c = false

theorem readDigits_append {digits : DigitText} {rest : Bytes} (h : Ends isDigit rest) :
    readDigits (digits.1 ++ rest) = (digits, rest) := by
  obtain ⟨digits, hdigits⟩ := digits
  have hstop : rest.takeWhile isDigit = [] ∧ rest.dropWhile isDigit = rest := by
    cases rest with
    | nil => exact ⟨rfl, rfl⟩
    | cons c rest =>
      have hc : isDigit c = false := h c rfl
      simp [hc]
  have hall : ∀ c ∈ digits, isDigit c = true := List.all_eq_true.1 hdigits
  simp only [readDigits, List.takeWhile_append_of_pos hall, List.dropWhile_append_of_pos hall, hstop,
    List.append_nil]

def isSign (c : UInt8) : Bool := c == 43 || c == 45

theorem readSign_append {sign : Sign} {rest : Bytes} (h : Ends isSign rest) :
    readSign (sign.text ++ rest) = (sign, rest) := by
  cases sign with
  | plus => rfl
  | minus => rfl
  | none =>
    have hplus : ∀ tail, rest ≠ 43 :: tail := fun tail heq => absurd (h 43 (by simp [heq])) (by decide)
    have hminus : ∀ tail, rest ≠ 45 :: tail := fun tail heq => absurd (h 45 (by simp [heq])) (by decide)
    exact readSign.eq_3 rest (fun tail heq => hplus tail heq) fun tail heq => hminus tail heq

theorem ends_exponentText {p : UInt8 → Bool} (hcapital : p 69 = false) (hletter : p 101 = false)
    (exponent : Option ExponentPart) : Ends p (exponentText exponent) := by
  intro c hc
  cases exponent with
  | none => cases hc
  | some e =>
    cases Option.some.inj hc
    cases e.capital
    · exact hletter
    · exact hcapital

theorem ends_fractionText {p : UInt8 → Bool} (hpoint : p 46 = false) {rest : Bytes}
    (hrest : Ends p rest) (fraction : Option DigitText) : Ends p (fractionText fraction ++ rest) := by
  intro c hc
  cases fraction with
  | none => exact hrest c hc
  | some digits =>
    cases Option.some.inj hc
    exact hpoint

theorem ends_digits {digits : DigitText} {rest : Bytes} (hrest : Ends isSign rest) :
    Ends isSign (digits.1 ++ rest) := by
  obtain ⟨digits, hdigits⟩ := digits
  intro c hc
  cases digits with
  | nil => exact hrest c hc
  | cons d digits =>
    cases Option.some.inj hc
    have hdigit := List.all_eq_true.1 hdigits _ (List.mem_cons_self ..)
    simp only [isSign, Bool.or_eq_false_iff, beq_eq_false_iff_ne]
    constructor
    · rintro rfl
      exact absurd hdigit (by decide)
    · rintro rfl
      exact absurd hdigit (by decide)

theorem readFraction_append {fraction : Option DigitText} {rest : Bytes} (hdigit : Ends isDigit rest)
    (hpoint : Ends (· == 46) rest) : readFraction (fractionText fraction ++ rest) = (fraction, rest) := by
  cases fraction with
  | none =>
    refine readFraction.eq_2 rest fun tail heq => ?_
    exact absurd (hpoint 46 (by rw [heq]; rfl)) (by decide)
  | some digits =>
    rw [fractionText, List.cons_append, readFraction, readDigits_append hdigit]

theorem readExponent_text (exponent : Option ExponentPart) :
    readExponent (exponentText exponent) = (exponent, []) := by
  cases exponent with
  | none => rfl
  | some e =>
    obtain ⟨capital, sign, digits⟩ := e
    have hdigits : readDigits digits.1 = (digits, []) := by
      have happend : readDigits (digits.1 ++ []) = (digits, []) := readDigits_append nofun
      rwa [List.append_nil] at happend
    have hsign : readSign (sign.text ++ digits.1) = (sign, digits.1) := by
      have hends : Ends isSign (digits.1 ++ []) := ends_digits nofun
      rw [List.append_nil] at hends
      exact readSign_append hends
    have hpower : readPower capital (sign.text ++ digits.1) = (some ⟨capital, sign, digits⟩, []) := by
      rw [readPower, hsign, hdigits]
    cases capital with
    | false => exact hpower
    | true => exact hpower

/-- A numeral is read back from its text. -/
theorem read_text (n : Numeral) : read n.text = (n, []) := by
  obtain ⟨sign, whole, fraction, exponent⟩ := n
  have hends : ∀ {p : UInt8 → Bool}, p 69 = false → p 101 = false → p 46 = false →
      Ends p (fractionText fraction ++ exponentText exponent) := fun hcapital hletter hpoint =>
    ends_fractionText hpoint (ends_exponentText hcapital hletter exponent) fraction
  have hsign : readSign (sign.text ++ (whole.1 ++ (fractionText fraction ++ exponentText exponent))) =
      (sign, _) := readSign_append (ends_digits (hends (by decide) (by decide) (by decide)))
  have hwhole : readDigits (whole.1 ++ (fractionText fraction ++ exponentText exponent)) = (whole, _) :=
    readDigits_append (hends (by decide) (by decide) (by decide))
  have hfraction : readFraction (fractionText fraction ++ exponentText exponent) = (fraction, _) :=
    readFraction_append (ends_exponentText (by decide) (by decide) exponent)
      (ends_exponentText (by decide) (by decide) exponent)
  simp only [read, text, hsign, hwhole, hfraction, readExponent_text]

theorem text_injective {m n : Numeral} (h : m.text = n.text) : m = n := by
  have hm := read_text m
  rw [h, read_text n, Prod.mk.injEq] at hm
  exact hm.1.symm

/-! ## The scanner takes the longest numeral -/

theorem ends_readDigits (text : Bytes) : Ends isDigit (readDigits text).2 := by
  intro c hc
  have hhead := List.head?_dropWhile_not isDigit text
  have hfirst : (text.dropWhile isDigit).head? = some c := hc
  rw [hfirst] at hhead
  exact hhead

theorem scanNumber_readSign (text : Bytes) (hasDot hasExp : Bool) :
    Sql.scanNumber true hasDot hasExp text =
      let (digits, real, rest) := Sql.scanNumber false hasDot hasExp (readSign text).2
      ((readSign text).1.text ++ digits, real, rest) := by
  cases text with
  | nil => rfl
  | cons c rest =>
    -- a sign is taken once, whichever it is
    by_cases hplus : c = 43
    · subst hplus
      rfl
    · by_cases hminus : c = 45
      · subst hminus
        rfl
      · -- without a sign in front of it the scanner does not mind whether there may be one
        have hread : readSign (c :: rest) = (.none, c :: rest) :=
          readSign.eq_3 _ (fun _ heq => hplus (List.cons.inj heq).1)
            fun _ heq => hminus (List.cons.inj heq).1
        simp [hread, Sql.scanNumber, hplus, hminus, Sign.text]

theorem scanNumber_readDigits (text : Bytes) (hasDot hasExp : Bool) :
    Sql.scanNumber false hasDot hasExp text =
      let (digits, real, rest) := Sql.scanNumber false hasDot hasExp (readDigits text).2
      ((readDigits text).1.1 ++ digits, real, rest) := by
  induction text with
  | nil => rfl
  | cons c text ih =>
    by_cases hc : isDigit c = true
    · have hread : (readDigits (c :: text)).1.1 = c :: (readDigits text).1.1 ∧
          (readDigits (c :: text)).2 = (readDigits text).2 := by
        simp [readDigits, hc]
      rw [hread.1, hread.2, Sql.scanNumber, if_neg (by simp), if_pos hc, ih]
      rfl
    · have hread : (readDigits (c :: text)).1.1 = [] ∧ (readDigits (c :: text)).2 = c :: text := by
        simp [readDigits, hc]
      rw [hread.1, hread.2]
      rfl

/-- Behind the digits of an exponent nothing goes on. -/
theorem scanNumber_stop {text : Bytes} (h : Ends isDigit text) (hasDot : Bool) :
    Sql.scanNumber false hasDot true text = ([], true, text) := by
  cases text with
  | nil => simp [Sql.scanNumber]
  | cons c rest =>
    have hc : isDigit c = false := h c rfl
    simp [Sql.scanNumber, hc]

theorem scanNumber_readPower (capital : Bool) (text : Bytes) (hasDot : Bool) :
    Sql.scanNumber true hasDot true text =
      ((readSign text).1.text ++ (readDigits (readSign text).2).1.1, true,
        (readPower capital text).2) := by
  rw [scanNumber_readSign, scanNumber_readDigits, scanNumber_stop (ends_readDigits _)]
  simp [readPower]

/-- Behind the point, or where there is none, an exponent may follow. -/
theorem scanNumber_readExponent {text : Bytes} (hdigit : Ends isDigit text) {hasDot : Bool}
    (hpoint : hasDot = true ∨ Ends (· == 46) text) :
    Sql.scanNumber false hasDot false text =
      (exponentText (readExponent text).1, hasDot || (readExponent text).1.isSome,
        (readExponent text).2) := by
  cases text with
  | nil => simp [Sql.scanNumber, readExponent, exponentText]
  | cons c rest =>
    have hc : isDigit c = false := hdigit c rfl
    have hdot : ¬(c = 46 ∧ hasDot = false) := by
      rintro ⟨rfl, rfl⟩
      rcases hpoint with hpoint | hpoint
      · cases hpoint
      · exact absurd (hpoint 46 rfl) (by decide)
    by_cases hcapital : c = 69
    · subst hcapital
      have hread : readExponent (69 :: rest) = readPower true rest := rfl
      rw [hread, Sql.scanNumber, if_neg (by simp), if_neg (by decide), if_neg (by simp),
        if_pos ⟨.inr rfl, rfl⟩, scanNumber_readPower true]
      simp [readPower, exponentText, ExponentPart.text]
    · by_cases hletter : c = 101
      · subst hletter
        have hread : readExponent (101 :: rest) = readPower false rest := rfl
        rw [hread, Sql.scanNumber, if_neg (by simp), if_neg (by decide), if_neg (by simp),
          if_pos ⟨.inl rfl, rfl⟩, scanNumber_readPower false]
        simp [readPower, exponentText, ExponentPart.text]
      · have hread : readExponent (c :: rest) = (none, c :: rest) :=
          readExponent.eq_3 _ (fun _ heq => hcapital (List.cons.inj heq).1)
            fun _ heq => hletter (List.cons.inj heq).1
        rw [hread, Sql.scanNumber, if_neg (by simp), if_neg (by simp [hc]), if_neg (by tauto),
          if_neg (by simp [hcapital, hletter])]
        simp [exponentText]

/-- Behind the digits in front of the point. -/
theorem scanNumber_readFraction {text : Bytes} (hdigit : Ends isDigit text) :
    Sql.scanNumber false false false text =
      let (fraction, rest) := readFraction text
      let (exponent, rest) := readExponent rest
      (fractionText fraction ++ exponentText exponent, fraction.isSome || exponent.isSome, rest) := by
  by_cases hpoint : Ends (· == 46) text
  · have hread : readFraction text = (none, text) := by
      refine readFraction.eq_2 text fun tail heq => ?_
      exact absurd (hpoint 46 (by rw [heq]; rfl)) (by decide)
    rw [scanNumber_readExponent hdigit (.inr hpoint), hread]
    rfl
  · obtain ⟨rest, rfl⟩ : ∃ rest, text = 46 :: rest := by
      cases text with
      | nil => exact absurd (nofun : Ends (· == 46) []) hpoint
      | cons c rest =>
        by_cases hc : c = 46
        · exact ⟨rest, by rw [hc]⟩
        · refine absurd (fun d hd => ?_) hpoint
          cases Option.some.inj hd
          simpa using hc
    have hread : readFraction (46 :: rest) = (some (readDigits rest).1, (readDigits rest).2) := rfl
    rw [hread, Sql.scanNumber, if_neg (by simp), if_neg (by decide), if_pos ⟨rfl, rfl, rfl⟩,
      scanNumber_readDigits, scanNumber_readExponent (ends_readDigits rest) (.inl rfl)]
    simp [fractionText]

/-- The scanner takes the longest numeral, and sees whether it is an integer. -/
theorem scanNumber_eq (text : Bytes) :
    Sql.scanNumber true false false text = ((read text).1.text,
      (read text).1.fraction.isSome || (read text).1.exponent.isSome, (read text).2) := by
  rw [scanNumber_readSign, scanNumber_readDigits, scanNumber_readFraction (ends_readDigits _)]
  rfl

/-- The numeral and what is behind it are the text. -/
theorem read_append (text : Bytes) : (read text).1.text ++ (read text).2 = text := by
  have hsign : ∀ text, (readSign text).1.text ++ (readSign text).2 = text := by
    intro text
    simp only [readSign]
    split <;> rfl
  have hdigits : ∀ text, (readDigits text).1.1 ++ (readDigits text).2 = text := fun text =>
    List.takeWhile_append_dropWhile
  have hfraction : ∀ text, fractionText (readFraction text).1 ++ (readFraction text).2 = text := by
    intro text
    simp only [readFraction]
    split
    · exact congrArg (46 :: ·) (hdigits _)
    · rfl
  have hpower : ∀ capital text, exponentText (readPower capital text).1 ++ (readPower capital text).2 =
      (if capital then 69 else 101) :: text := by
    intro capital text
    simp only [readPower, exponentText, ExponentPart.text, List.cons_append, List.append_assoc, hdigits,
      hsign]
  have hexponent : ∀ text, exponentText (readExponent text).1 ++ (readExponent text).2 = text := by
    intro text
    simp only [readExponent]
    split
    · exact hpower true _
    · exact hpower false _
    · rfl
  simp only [read, Numeral.text, List.append_assoc, hexponent, hfraction, hdigits, hsign]

/-- A byte that a numeral can begin with. -/
def startsNumeral (c : UInt8) : Bool := isSign c || isDigit c || c == 46 || c == 69 || c == 101

theorem read_of_not_starts {t : Bytes} (h : Ends startsNumeral t) : (read t).1.text = [] := by
  have hends : Ends isSign t ∧ Ends isDigit t ∧ Ends (· == 46) t ∧ Ends (· == 69) t ∧
      Ends (· == 101) t := by
    refine ⟨fun c hc => ?_, fun c hc => ?_, fun c hc => ?_, fun c hc => ?_, fun c hc => ?_⟩ <;>
      · have hstart := h c hc
        simp only [startsNumeral, Bool.or_eq_false_iff] at hstart
        simp [hstart]
  obtain ⟨hsign, hdigit, hpoint, hcapital, hletter⟩ := hends
  have hreadSign : readSign t = (.none, t) := @readSign_append .none t hsign
  have hreadDigits : readDigits t = (⟨[], rfl⟩, t) := @readDigits_append ⟨[], rfl⟩ t hdigit
  have hreadFraction : readFraction t = (none, t) :=
    @readFraction_append none t hdigit hpoint
  -- neither letter of an exponent is in front
  have hreadExponent : readExponent t = (none, t) := by
    refine readExponent.eq_3 t (fun tail heq => ?_) fun tail heq => ?_
    · exact absurd (hcapital 69 (by rw [heq]; rfl)) (by decide)
    · exact absurd (hletter 101 (by rw [heq]; rfl)) (by decide)
  simp only [read, hreadSign, hreadDigits, hreadFraction, hreadExponent]
  rfl

end Numeral

/-! ## Literals -/

def Value.IsNumber : Value → Prop
  | .int32 _ | .int64 _ | .real _ => True
  | _ => False

namespace Sql

open Numeral

theorem toUpper_of_matchKeyword {kw : String} {k c : UInt8} {ks rest r : Bytes}
    (hkw : ascii kw = k :: ks) (h : matchKeyword kw (c :: rest) = some r) : toUpper c = toUpper k := by
  rw [matchKeyword, hkw] at h
  split_ifs at h with hmatch
  exact (List.cons.inj hmatch.1).1

/-- No keyword begins like a numeral. -/
theorem matchKeyword_of_startsNumeral {c : UInt8} (rest : Bytes) (h : startsNumeral c = true) :
    matchKeyword "TRUE" (c :: rest) = none ∧ matchKeyword "FALSE" (c :: rest) = none ∧
      matchKeyword "NULL" (c :: rest) = none := by
  have hupper : toUpper c ≠ 84 ∧ toUpper c ≠ 70 ∧ toUpper c ≠ 78 := by
    simp only [startsNumeral, isSign, Bool.or_eq_true, beq_iff_eq] at h
    -- of what a numeral can begin with only E and e are letters
    rcases h with ((((rfl | rfl) | hdigit) | rfl) | rfl) | rfl
    · decide
    · decide
    · have hsame : toUpper c = c := by
        refine if_neg fun hletter => ?_
        simp only [isDigit, Bool.and_eq_true, decide_eq_true_eq] at hdigit hletter
        exact absurd (UInt8.le_trans hletter.1 hdigit.2) (by decide)
      rw [hsame]
      refine ⟨?_, ?_, ?_⟩ <;>
        · rintro rfl
          exact absurd hdigit (by decide)
    · decide
    · decide
    · decide
  refine ⟨?_, ?_, ?_⟩
  · exact Option.eq_none_iff_forall_ne_some.2 fun r hr =>
      -- the first letter decides, whatever its case
      hupper.1 (toUpper_of_matchKeyword
        (show ascii "TRUE" = 84 :: [82, 85, 69] by decide) hr)
  · exact Option.eq_none_iff_forall_ne_some.2 fun r hr =>
      hupper.2.1 (toUpper_of_matchKeyword
        (show ascii "FALSE" = 70 :: [65, 76, 83, 69] by decide) hr)
  · exact Option.eq_none_iff_forall_ne_some.2 fun r hr =>
      hupper.2.2 (toUpper_of_matchKeyword
        (show ascii "NULL" = 78 :: [85, 76, 76] by decide) hr)

/-- What the conversion makes of a numeral. -/
def numeralValue (n : Numeral) : Value :=
  if n.fraction.isSome || n.exponent.isSome then .real (strtod n.text) else .int64 (strtoll n.text)

/-- Every numeral is converted, whatever it is. -/
theorem lexValue_of_numeral {t : Bytes} (h : (read t).1.text ≠ []) :
    lexValue t = .found (numeralValue (read t).1) (read t).2 := by
  cases t with
  | nil => exact absurd (read_of_not_starts fun _ hc => by cases hc) h
  | cons c rest =>
    have hstarts : startsNumeral c = true := by
      by_contra hstarts
      -- a text that begins with no numeral has the empty one in front
      refine h (read_of_not_starts fun d hd => ?_)
      cases Option.some.inj hd
      exact Bool.eq_false_iff.2 hstarts
    obtain ⟨htrue, hfalse, hnull⟩ := matchKeyword_of_startsNumeral rest hstarts
    have hquote : ¬(c = 39 ∨ c = 34) := by
      rintro (rfl | rfl)
      · exact absurd hstarts (by decide)
      · exact absurd hstarts (by decide)
    rw [lexValue]
    simp only [if_neg hquote, htrue, hfalse, hnull, scanNumber_eq, List.isEmpty_iff, if_neg h,
      numeralValue]
    split_ifs <;> rfl

/-- Without a numeral in front the literal is no number. -/
theorem not_isNumber_of_lexValue {t rest : Bytes} {v : Value} (h : (read t).1.text = [])
    (hv : lexValue t = .found v rest) : ¬ v.IsNumber := by
  cases t with
  | nil => cases hv
  | cons c t =>
    rw [lexValue] at hv
    simp only [scanNumber_eq, h, List.isEmpty_nil, if_true] at hv
    split at hv
    · split at hv
      · cases hv
        exact id
      · cases hv
      · cases hv
      · cases hv
    · -- a string is no number, and neither is a keyword
      split at hv
      · cases hv
        exact id
      · split at hv
        · cases hv
          exact id
        · split at hv
          · cases hv
            exact id
          · cases hv

end Sql

/-! ## Exactness -/

namespace Numeral

theorem toInt_strtoll (sign : Sign) (whole : DigitText) :
    (strtoll (sign.text ++ whole.1)).toInt =
      if sign = .minus then -((min (digitsValue whole.1) (2 ^ 63) : Nat) : Int)
      else ((min (digitsValue whole.1) (2 ^ 63 - 1) : Nat) : Int) := by
  obtain ⟨digits, hdigits⟩ := whole
  have hall : ∀ c ∈ digits, isDigit c = true := List.all_eq_true.1 hdigits
  have hends : Ends isSign digits := by
    have happend : Ends isSign (digits ++ []) := @ends_digits ⟨digits, hdigits⟩ [] nofun
    rwa [List.append_nil] at happend
  -- the conversion reads the same sign and the same digits
  have htake : digits.takeWhile isDigit = digits := List.takeWhile_eq_self_iff.2 hall
  have hread : readInteger (sign.text ++ digits) = (decide (sign = .minus), digits) := by
    cases sign with
    | plus => exact congrArg (Prod.mk false) htake
    | minus => exact congrArg (Prod.mk true) htake
    | none =>
      cases digits with
      | nil => rfl
      | cons c digits =>
        have hc := hall c (List.mem_cons_self ..)
        have hblank : isSpace c = false :=
          Sql.isSpace_eq_false_of_isWordByte (Sql.isWordByte_of_isDigit hc)
        have hsign : isSign c = false := hends c rfl
        simp only [isSign, Bool.or_eq_false_iff, beq_eq_false_iff_ne] at hsign
        have hplain : OpenDB.readSign (c :: digits) = (false, c :: digits) :=
          OpenDB.readSign.eq_3 _ (fun _ heq => hsign.1 (List.cons.inj heq).1)
            fun _ heq => hsign.2 (List.cons.inj heq).1
        have hdrop : (c :: digits).dropWhile isSpace = c :: digits := by
          rw [List.dropWhile_cons, hblank]
          rfl
        have htext : Sign.text .none ++ c :: digits = c :: digits := rfl
        rw [htext, readInteger, hdrop, hplain]
        exact congrArg (Prod.mk false) htake
  rw [strtoll, hread]
  simp only [decide_eq_true_eq]
  split_ifs
  · rw [Int64.toInt_ofInt_of_le (by omega) (by omega)]
  · rw [Int64.toInt_ofNat_of_lt (by omega)]

/-- The conversion is exact where the written integer fits. -/
theorem toInt_strtoll_eq_value_iff {n : Numeral} (h : n.IsInteger) :
    (strtoll n.text).toInt = n.value ↔ -2 ^ 63 ≤ n.value ∧ n.value < 2 ^ 63 := by
  obtain ⟨sign, whole, fraction, exponent⟩ := n
  -- an integer is its sign and its digits
  obtain ⟨rfl, rfl⟩ : fraction = none ∧ exponent = none := h
  have htext : Numeral.text ⟨sign, whole, none, none⟩ = sign.text ++ whole.1 := by
    simp [Numeral.text, fractionText, exponentText]
  rw [htext, toInt_strtoll, value]
  dsimp only
  split_ifs <;> omega

end Numeral

namespace Sql

/-- A number that is returned is a number that has been consumed, and an integer is the one written. -/
def ExactOrRejected (good : Numeral → Prop) (p : SqlParser) : Prop :=
  ∀ v p', SqlParser.consumeValueLiteral.run p = .ok (some v) p' → v.IsNumber →
    ∃ n : Numeral, skip p.rest = n.text ++ p'.rest ∧ good n ∧
      (n.IsInteger → ∃ x, v = .int64 x ∧ x.toInt = n.value)

/-- The numeral at the position of the parser. -/
def SqlParser.frontNumeral (p : SqlParser) : Numeral := (Numeral.read (skip p.rest)).1

theorem run_consumeValueLiteral {p : SqlParser} {v : Value} {rest : Bytes}
    (h : lexValue (skip p.rest) = .found v rest) :
    SqlParser.consumeValueLiteral.run p = .ok (some v) { p with rest := rest } := by
  rw [SqlParser.consumeValueLiteral, SqlParser.run_consume, h]

theorem lexValue_of_run {p p' : SqlParser} {v : Value}
    (h : SqlParser.consumeValueLiteral.run p = .ok (some v) p') :
    lexValue (skip p.rest) = .found v p'.rest := by
  rw [SqlParser.consumeValueLiteral, SqlParser.run_consume] at h
  cases hlex : lexValue (skip p.rest) with
  | found a rest =>
    rw [hlex] at h
    cases h
    rfl
  | missing =>
    rw [hlex] at h
    cases h
  | unterminated =>
    rw [hlex] at h
    cases h
  | malformed =>
    rw [hlex] at h
    cases h

theorem isNumber_numeralValue (n : Numeral) : (numeralValue n).IsNumber := by
  rw [numeralValue]
  split_ifs <;> exact trivial

theorem numeralValue_of_isInteger {n : Numeral} (h : n.IsInteger) :
    numeralValue n = .int64 (strtoll n.text) := by
  rw [numeralValue, h.1, h.2]
  rfl

theorem exactOrRejected_iff (good : Numeral → Prop) (p : SqlParser) :
    ExactOrRejected good p ↔ p.frontNumeral.text = [] ∨ good p.frontNumeral ∧
      (p.frontNumeral.IsInteger → -2 ^ 63 ≤ p.frontNumeral.value ∧ p.frontNumeral.value < 2 ^ 63) := by
  by_cases hnone : p.frontNumeral.text = []
  · -- no numeral is there, so no number is returned
    refine iff_of_true (fun v p' hrun hnumber => ?_) (.inl hnone)
    exact absurd hnumber (not_isNumber_of_lexValue hnone (lexValue_of_run hrun))
  · have hlex := lexValue_of_numeral hnone
    have hback := Numeral.read_append (skip p.rest)
    rw [or_iff_right hnone]
    constructor
    · intro h
      obtain ⟨n, htext, hgood, hexact⟩ := h _ _ (run_consumeValueLiteral hlex) (isNumber_numeralValue _)
      -- the consumed text is the text of one numeral only
      have hsame : n = p.frontNumeral :=
        Numeral.text_injective (List.append_cancel_right (htext.symm.trans hback.symm))
      subst hsame
      refine ⟨hgood, fun hinteger => ?_⟩
      obtain ⟨x, hx, hvalue⟩ := hexact hinteger
      rw [← SqlParser.frontNumeral, numeralValue_of_isInteger hinteger] at hx
      cases hx
      exact (Numeral.toInt_strtoll_eq_value_iff hinteger).1 hvalue
    · rintro ⟨hgood, hrange⟩ v p' hrun -
      have hfound := lexValue_of_run hrun
      rw [hlex, Lexeme.found.injEq] at hfound
      obtain ⟨rfl, hrest⟩ := hfound
      rw [hrest] at hback
      refine ⟨p.frontNumeral, hback.symm, hgood, fun hinteger => ?_⟩
      exact ⟨_, numeralValue_of_isInteger hinteger,
        (Numeral.toInt_strtoll_eq_value_iff hinteger).2 (hrange hinteger)⟩

/-- At every position a numeric literal is exact or rejected if and only if no numeral is there or it is a
number, and one within 64 bits if it is an integer; and likewise for the stricter form of numbers. -/
theorem numbers_exact_iff (p : SqlParser) :
    (ExactOrRejected Numeral.WellFormed p ↔ p.frontNumeral.text = [] ∨ p.frontNumeral.WellFormed ∧
      (p.frontNumeral.IsInteger → -2 ^ 63 ≤ p.frontNumeral.value ∧ p.frontNumeral.value < 2 ^ 63)) ∧
    (ExactOrRejected Numeral.Strict p ↔ p.frontNumeral.text = [] ∨ p.frontNumeral.Strict ∧
      (p.frontNumeral.IsInteger → -2 ^ 63 ≤ p.frontNumeral.value ∧ p.frontNumeral.value < 2 ^ 63)) :=
  ⟨exactOrRejected_iff _ p, exactOrRejected_iff _ p⟩

/-- The parser in front of a text. -/
def SqlParser.ofText (text : Bytes) : SqlParser := ⟨text, text, []⟩

/-- A sign alone is the integer 0, a letter the double 0, and an integer that is too large the largest. -/
theorem numbers_not_exact :
    SqlParser.consumeValueLiteral.run (.ofText (ascii "-")) = .ok (some (.int64 0)) ⟨ascii "-", [], []⟩ ∧
    SqlParser.consumeValueLiteral.run (.ofText (ascii "e")) =
      .ok (some (.real ⟨0⟩)) ⟨ascii "e", [], []⟩ ∧
    SqlParser.consumeValueLiteral.run (.ofText (ascii "9223372036854775808")) =
      .ok (some (.int64 9223372036854775807)) ⟨ascii "9223372036854775808", [], []⟩ ∧
    ¬ ExactOrRejected Numeral.WellFormed (.ofText (ascii "-")) ∧
    ¬ ExactOrRejected Numeral.WellFormed (.ofText (ascii "e")) ∧
    ¬ ExactOrRejected Numeral.WellFormed (.ofText (ascii "9223372036854775808")) := by
  refine ⟨run_consumeValueLiteral (by decide +kernel), run_consumeValueLiteral (by decide +kernel),
    run_consumeValueLiteral (by decide +kernel), ?_, ?_, ?_⟩
  · have hfront : (SqlParser.ofText (ascii "-")).frontNumeral = ⟨.minus, ⟨[], rfl⟩, none, none⟩ := by
      decide +kernel
    rw [exactOrRejected_iff, hfront]
    rintro (htext | ⟨⟨hdigit | ⟨_, hdigits, -⟩, -⟩, -⟩)
    · cases htext
    · exact hdigit rfl
    · cases hdigits
  · have hfront : (SqlParser.ofText (ascii "e")).frontNumeral =
        ⟨.none, ⟨[], rfl⟩, none, some ⟨false, .none, ⟨[], rfl⟩⟩⟩ := by
      decide +kernel
    rw [exactOrRejected_iff, hfront]
    rintro (htext | ⟨⟨-, hpower⟩, -⟩)
    · cases htext
    · exact hpower _ rfl rfl
  · have hfront : (SqlParser.ofText (ascii "9223372036854775808")).frontNumeral =
        ⟨.none, ⟨ascii "9223372036854775808", by decide⟩, none, none⟩ := by
      decide +kernel
    rw [exactOrRejected_iff, hfront]
    rintro (htext | ⟨-, hrange⟩)
    · cases htext
    · exact absurd (hrange ⟨rfl, rfl⟩).2 (by decide)

end Sql

end OpenDB
