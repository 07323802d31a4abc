import OpenDB.Frontend.SqlReads

/-!
# String literals

A text is written between single quotes, with a backslash in front of every quote and every backslash
of it. The scanner finds the closing quote of such a literal whatever the text is, as it passes over
the byte behind a backslash (`run_consumeStringLiteral_literal`). But it returns what stands between
the quotes as it stands there, with the backslashes, so the value is the text that was written exactly
if nothing in the text needed one (`readsBack_iff`).
-/

set_option autoImplicit false

namespace OpenDB

open OpenDB.Library

namespace Sql

/-- A byte inside a literal, behind a backslash if it is a single quote or a backslash itself. -/
def escapeByte (c : UInt8) : Bytes := if c = 39 ∨ c = 92 then [92, c] else [c]

def escapeText (s : Bytes) : Bytes := s.flatMap escapeByte

/-- The text as a literal. -/
def literal (s : Bytes) : Bytes := 39 :: (escapeText s ++ [39])

variable {s rest : Bytes} {c : UInt8}

theorem escapeText_cons : escapeText (c :: s) = escapeByte c ++ escapeText s := rfl

theorem escapeByte_of_special (h : c = 39 ∨ c = 92) : escapeByte c = [92, c] := if_pos h

theorem escapeByte_of_plain (h : ¬ (c = 39 ∨ c = 92)) : escapeByte c = [c] := if_neg h

theorem length_le_length_escapeText (s : Bytes) : s.length ≤ (escapeText s).length := by
  induction s with
  | nil => simp
  | cons c s ih =>
    rw [escapeText_cons, List.length_append, List.length_cons]
    -- every byte gives one or two
    have hbyte : 1 ≤ (escapeByte c).length := by
      unfold escapeByte
      split_ifs <;> simp
    omega

/-- Only what needs no backslash is written as it is. -/
theorem escapeText_eq_self_iff : escapeText s = s ↔ 39 ∉ s ∧ 92 ∉ s := by
  induction s with
  | nil => simp [escapeText]
  | cons c s ih =>
    rw [escapeText_cons]
    by_cases hspecial : c = 39 ∨ c = 92
    · refine iff_of_false (fun heq => ?_) ?_
      · -- a backslash makes the text longer, and nothing makes it shorter
        have hlength := congrArg List.length heq
        rw [escapeByte_of_special hspecial, List.length_append, List.length_cons] at hlength
        have := length_le_length_escapeText s
        simp at hlength
        omega
      · rcases hspecial with rfl | rfl <;> simp
    · -- a plain byte stays, and the question goes on to the rest
      rw [escapeByte_of_plain hspecial, List.singleton_append, List.cons.injEq, ih]
      obtain ⟨hquote, hslash⟩ := not_or.1 hspecial
      simp [Ne.symm hquote, Ne.symm hslash]

theorem literalBody_close : literalBody 39 (39 :: rest) = some ([], rest) := by
  rw [literalBody.eq_def]
  rfl

theorem literalBody_escape (c : UInt8) (rest : Bytes) :
    literalBody 39 (92 :: c :: rest) =
      (literalBody 39 rest).map fun (body, rest) => (92 :: c :: body, rest) := by
  rw [literalBody.eq_def]
  rfl

theorem literalBody_plain (h : ¬ (c = 39 ∨ c = 92)) (rest : Bytes) :
    literalBody 39 (c :: rest) = (literalBody 39 rest).map fun (body, rest) => (c :: body, rest) := by
  obtain ⟨hquote, hslash⟩ := not_or.1 h
  rw [literalBody.eq_def]
  dsimp only
  rw [if_neg hquote, if_neg hslash]

/-- The scanner goes past every escape and stops at the closing quote. -/
theorem literalBody_escapeText (s rest : Bytes) :
    literalBody 39 (escapeText s ++ 39 :: rest) = some (escapeText s, rest) := by
  induction s with
  | nil => exact literalBody_close
  | cons c s ih =>
    rw [escapeText_cons, List.append_assoc]
    by_cases hspecial : c = 39 ∨ c = 92
    · rw [escapeByte_of_special hspecial]
      -- the backslash and the byte behind it go in together
      apply (literalBody_escape c (escapeText s ++ 39 :: rest)).trans
      rw [ih]
      rfl
    · rw [escapeByte_of_plain hspecial]
      apply (literalBody_plain hspecial (escapeText s ++ 39 :: rest)).trans
      rw [ih]
      rfl

theorem skip_literal : skip (literal s ++ rest) = literal s ++ rest := rfl

theorem lexString_literal (s rest : Bytes) :
    lexString (literal s ++ rest) = .found (escapeText s) rest := by
  have hbody := literalBody_escapeText s rest
  have htext : literal s ++ rest = 39 :: (escapeText s ++ 39 :: rest) := by simp [literal]
  rw [htext, lexString, if_pos (Or.inl rfl), hbody]

theorem lexValue_literal (s rest : Bytes) :
    lexValue (literal s ++ rest) = .found (.text (escapeText s)) rest := by
  have hstring := lexString_literal s rest
  have htext : literal s ++ rest = 39 :: (escapeText s ++ 39 :: rest) := by simp [literal]
  rw [htext] at hstring ⊢
  rw [lexValue, if_pos (Or.inl rfl), hstring]

namespace SqlParser

variable {p : SqlParser}

/-- A literal is consumed to its end, wherever it stands. -/
theorem run_consumeStringLiteral_literal (h : p.rest = literal s ++ rest) :
    consumeStringLiteral.run p = .ok (some (escapeText s)) { p with rest := rest } := by
  rw [consumeStringLiteral, run_consume, h, skip_literal, lexString_literal]

theorem run_consumeValueLiteral_literal (h : p.rest = literal s ++ rest) :
    consumeValueLiteral.run p = .ok (some (.text (escapeText s))) { p with rest := rest } := by
  rw [consumeValueLiteral, run_consume, h, skip_literal, lexValue_literal]

/-- The literal of the text is consumed to its end, and its value is the text. -/
def ReadsBack (s : Bytes) : Prop :=
  ∀ (p : SqlParser) (rest : Bytes), p.rest = literal s ++ rest →
    (∃ body, consumeStringLiteral.run p = .ok (some body) { p with rest := rest }) ∧
      consumeValueLiteral.run p = .ok (some (.text s)) { p with rest := rest }

/-- Exactly the texts without a single quote and without a backslash are read back. -/
theorem readsBack_iff (s : Bytes) : ReadsBack s ↔ 39 ∉ s ∧ 92 ∉ s := by
  rw [← escapeText_eq_self_iff]
  constructor
  · intro h
    have hp : (SqlParser.mk (literal s) (literal s) []).rest = literal s ++ [] :=
      (List.append_nil _).symm
    have hvalue := (h _ [] hp).2
    -- a parser in front of the literal alone: the two values it could return are equal
    rw [run_consumeValueLiteral_literal hp] at hvalue
    injection hvalue with hvalue
    injection hvalue with hvalue
    injection hvalue
  · intro h p rest hp
    refine ⟨⟨_, run_consumeStringLiteral_literal hp⟩, ?_⟩
    rw [run_consumeValueLiteral_literal hp, h]

/-- The apostrophe of a name comes back behind a backslash. -/
theorem apostrophe_not_readsBack :
    consumeValueLiteral.run ⟨ascii "'it\\'s'", ascii "'it\\'s'", []⟩ =
      .ok (some (.text (ascii "it\\'s"))) ⟨ascii "'it\\'s'", [], []⟩ ∧
        literal (ascii "it's") = ascii "'it\\'s'" ∧ ¬ ReadsBack (ascii "it's") := by
  have hliteral : literal (ascii "it's") = ascii "'it\\'s'" := by decide
  have hescape : escapeText (ascii "it's") = ascii "it\\'s" := by decide
  refine ⟨?_, hliteral, fun h => ?_⟩
  · rw [← hescape, ← hliteral]
    exact run_consumeValueLiteral_literal (p := ⟨literal (ascii "it's"), _, []⟩)
      (List.append_nil _).symm
  · have hp : (SqlParser.mk [] (literal (ascii "it's")) []).rest = literal (ascii "it's") ++ [] :=
      (List.append_nil _).symm
    have hvalue := (h _ [] hp).2
    rw [run_consumeValueLiteral_literal hp, hescape] at hvalue
    injection hvalue with hvalue
    injection hvalue with hvalue
    injection hvalue with hvalue
    exact absurd hvalue (by decide)

end SqlParser

end Sql

end OpenDB
