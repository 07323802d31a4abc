import OpenDB.Frontend.SqlGrammar

/-!
# The parser reads the grammar

Every function of the parser implements its rule of the grammar: it ends in a result exactly where the
rule reads one. All but a few report their failures and nothing else; the functions for predicates and
for lists of values may leave an error behind a result, and three kinds of text make a statement fail
without an error text or with an exception.
-/

set_option autoImplicit false

namespace OpenDB

open OpenDB.Library

namespace Sql.SqlParser

/-- The text in front of the parser, its error text, and a failure with an error text. -/
def reporting : Reporting SqlStop SqlParser UInt8 where
  view := rest
  same p p' := p'.error = p.error
  loud stop p := stop = .rejected ∧ p.error ≠ []
  refl _ := rfl
  trans h h' := h'.trans h

variable {α β : Type} {x y : Parser α} {R S N M : Rule UInt8 α} {F G : SqlStop → Bytes → Prop}
  {token : Bytes → Option Bytes} {kw what : String}

/-! ## Tokens -/

theorem run_consumeKeyword (kw : String) (p : SqlParser) :
    (consumeKeyword kw).run p =
      match Sql.keyword kw p.rest with
      | some rest => .ok true { p with rest := rest }
      | none => .ok false { p with rest := Sql.skip p.rest } := by
  simp only [consumeKeyword, skipWhitespaceAndComments, EStateM.run_bind, EStateM.run_modify,
    EStateM.run_get, Sql.keyword]
  cases Sql.matchKeyword kw (Sql.skip p.rest) <;> rfl

theorem run_consumeSymbol (sym : String) (p : SqlParser) :
    (consumeSymbol sym).run p =
      match Sql.symbol sym p.rest with
      | some rest => .ok true { p with rest := rest }
      | none => .ok false { p with rest := Sql.skip p.rest } := by
  simp only [consumeSymbol, skipWhitespaceAndComments, EStateM.run_bind, EStateM.run_modify,
    EStateM.run_get, Sql.symbol]
  cases Sql.matchSymbol sym (Sql.skip p.rest) <;> rfl

/-- A test for a token. -/
abbrev Tests (test : Parser Bool) (token : Bytes → Option Bytes) : Prop :=
  Plain reporting test (Sql.IfRead token (return true) (return false))

theorem tests_of_run {test : Parser Bool}
    (hrun : ∀ p, test.run p =
      match token p.rest with
      | some rest => .ok true { p with rest := rest }
      | none => .ok false { p with rest := Sql.skip p.rest }) :
    Tests test token where
  reads p b r := by
    simp only [hrun, Sql.IfRead, Rule.pure_iff, reporting]
    cases htoken : token p.rest with
    | some rest => simp [eq_comm, and_comm]
    | none => simp [eq_comm, and_comm]
  keeps p b p' h := by
    rw [hrun] at h
    cases htoken : token p.rest with
    | some rest =>
      rw [htoken] at h
      cases h
      exact .inl rfl
    | none =>
      rw [htoken] at h
      cases h
      exact .inl rfl
  fails p e p' h := by
    rw [hrun] at h
    cases htoken : token p.rest with
    | some rest =>
      rw [htoken] at h
      cases h
    | none =>
      rw [htoken] at h
      cases h

theorem tests_keyword (kw : String) : Tests (consumeKeyword kw) (Sql.keyword kw) :=
  tests_of_run (run_consumeKeyword kw)

theorem tests_symbol (sym : String) : Tests (consumeSymbol sym) (Sql.symbol sym) :=
  tests_of_run (run_consumeSymbol sym)

/-- What is excused behind a test for a token. -/
def excusedIf (token : Bytes → Option Bytes) (F G : SqlStop → Bytes → Prop) : SqlStop → Bytes → Prop :=
  fun e s => (∃ m, token s = some m ∧ F e m) ∨ (token s = none ∧ G e (Sql.skip s))

/-- A test for a token decides how to go on. -/
theorem parses_if {test : Parser Bool} (htest : Tests test token) (hx : Parses reporting x R N F)
    (hy : Parses reporting y S M G) :
    Parses reporting (test >>= fun b => if b = true then x else y) (Sql.IfRead token R S)
      (Sql.IfRead token N M) (excusedIf token F G) := by
  refine (htest.bind fun b => hx.ite hy).weaken ?_ ?_ ?_
  · intro s a r
    constructor
    · rintro ⟨b, m, ⟨m', hm, rfl, rfl⟩ | ⟨hm, rfl, rfl⟩, h⟩
      · exact .inl ⟨_, hm, h⟩
      · exact .inr ⟨hm, h⟩
    · rintro (⟨m, hm, h⟩ | ⟨hm, h⟩)
      · exact ⟨true, m, .inl ⟨m, hm, rfl, rfl⟩, h⟩
      · exact ⟨false, _, .inr ⟨hm, rfl, rfl⟩, h⟩
  · rintro s a r - ⟨b, m, ⟨m', hm, rfl, rfl⟩ | ⟨hm, rfl, rfl⟩, -, h⟩
    · exact .inl ⟨_, hm, h.elim False.elim id⟩
    · exact .inr ⟨hm, h.elim False.elim id⟩
  · rintro e s (h | ⟨b, m, ⟨m', hm, rfl, rfl⟩ | ⟨hm, rfl, rfl⟩, h⟩)
    · cases h
    · exact .inl ⟨_, hm, h⟩
    · exact .inr ⟨hm, h⟩

theorem plain_if {test : Parser Bool} (htest : Tests test token) (hx : Plain reporting x R)
    (hy : Plain reporting y S) :
    Plain reporting (test >>= fun b => if b = true then x else y) (Sql.IfRead token R S) :=
  (parses_if htest hx hy).weaken (fun _ _ _ => Iff.rfl)
    (fun _ _ _ _ h => h.elim (fun ⟨_, _, h⟩ => h) fun ⟨_, h⟩ => h)
    (fun _ _ h => h.elim (fun ⟨_, _, h⟩ => h) fun ⟨_, h⟩ => h)

/-- Giving up with an error text. -/
theorem plain_reject (hwhat : ascii what ≠ []) :
    Plain reporting (reject what : Parser α) .never where
  reads p a r := by
    constructor
    · rintro ⟨p', h, -⟩
      cases h
    · intro h
      cases h
  keeps p a p' h := by cases h
  fails p e p' h := by
    cases h
    exact .inl ⟨rfl, hwhat⟩

/-- A token that has to be there. -/
theorem parses_ifOrReject {test : Parser Bool} (htest : Tests test token)
    (hx : Parses reporting x R N F) (hwhat : ascii what ≠ []) :
    Parses reporting (test >>= fun b => if b = true then x else reject what)
      (Sql.Read token >>= fun _ => R) (Sql.Read token >>= fun _ => N)
      (fun e s => ∃ m, token s = some m ∧ F e m) := by
  refine (parses_if htest hx (plain_reject hwhat)).weaken ?_ ?_ ?_
  · intro s a r
    constructor
    · rintro (⟨m, hm, h⟩ | ⟨-, h⟩)
      · exact ⟨(), m, hm, h⟩
      · cases h
    · rintro ⟨_, m, hm, h⟩
      exact .inl ⟨m, hm, h⟩
  · rintro s a r - (⟨m, hm, h⟩ | ⟨-, h⟩)
    · exact ⟨(), m, hm, h⟩
    · cases h
  · rintro e s (h | ⟨-, h⟩)
    · exact h
    · cases h

theorem plain_ifOrReject {test : Parser Bool} (htest : Tests test token) (hx : Plain reporting x R)
    (hwhat : ascii what ≠ []) :
    Plain reporting (test >>= fun b => if b = true then x else reject what)
      (Sql.Read token >>= fun _ => R) :=
  (parses_ifOrReject htest hx hwhat).weaken (fun _ _ _ => Iff.rfl) (fun _ _ _ _ ⟨_, _, _, h⟩ => h)
    (fun _ _ ⟨_, _, h⟩ => h)

theorem plain_require {test : Parser Bool} (htest : Tests test token)
    (hwhat : ascii what ≠ []) :
    Plain reporting (require test what) (Sql.Read token) := by
  refine (plain_if htest (.done ()) (plain_reject hwhat)).congr ?_
  intro s a r
  constructor
  · rintro (⟨m, hm, -, rfl⟩ | ⟨-, h⟩)
    · exact hm
    · cases h
  · intro h
    exact .inl ⟨r, h, rfl, rfl⟩

/-- Giving up where there is no result. -/
theorem plain_orReject {z : Parser (Option α)} {T K : Rule UInt8 (Option α)}
    (hz : Parses reporting z T K unexcused) (hK : ∀ s a r, ¬ K s (some a) r)
    (hwhat : ascii what ≠ []) :
    Plain reporting (orReject z what) fun s a r => T s (some a) r where
  reads p a r := by
    rw [← hz.reads]
    simp only [orReject, run_bind_eq_ok]
    constructor
    · rintro ⟨p', ⟨b, q, hrun, hrest⟩, rfl⟩
      cases b with
      | none => cases hrest
      | some b =>
        cases hrest
        exact ⟨_, hrun, rfl⟩
    · rintro ⟨p', hrun, rfl⟩
      exact ⟨p', ⟨some a, p', hrun, rfl⟩, rfl⟩
  keeps p a p' h := by
    obtain ⟨b, q, hrun, hrest⟩ := run_bind_eq_ok.1 h
    cases b with
    | none => cases hrest
    | some b =>
      cases hrest
      exact (hz.keeps p (some a) p' hrun).imp_right (hK _ _ _)
  fails p e p' h := by
    rcases run_bind_eq_error.1 h with hrun | ⟨b, q, -, hrest⟩
    · exact hz.fails p e p' hrun
    · cases b with
      | none =>
        cases hrest
        exact .inl ⟨rfl, hwhat⟩
      | some b => cases hrest

/-- A token of a kind, or nothing. -/
def Maybe (lex : Bytes → Sql.Lexeme α) : Rule UInt8 (Option α) := fun s a r =>
  (∃ b, a = some b ∧ Sql.Token lex s b r) ∨ (a = none ∧ Sql.NoToken lex s () r)

theorem run_consume (lex : Bytes → Sql.Lexeme α) (unterminated : String) (p : SqlParser) :
    (consume lex unterminated).run p =
      match lex (Sql.skip p.rest) with
      | .found a rest => .ok (some a) { p with rest := rest }
      | .missing => .ok none { p with rest := Sql.skip p.rest }
      | .unterminated => .ok none ⟨p.input, [], ascii unterminated⟩
      | .malformed =>
        .ok none ⟨p.input, Sql.skip p.rest, ascii "expected value literal at position " ++
          decimal (p.input.length - (Sql.skip p.rest).length)⟩ := by
  simp only [consume, skipWhitespaceAndComments, EStateM.run_bind, EStateM.run_modify,
    EStateM.run_get]
  cases lex (Sql.skip p.rest) <;> rfl

/-- A missing token may leave an error behind, a token that is there does not. -/
theorem parses_consume (lex : Bytes → Sql.Lexeme α) (unterminated : String) :
    Parses reporting (consume lex unterminated) (Maybe lex)
      (fun s a _ => a = none ∧ lex (Sql.skip s) ≠ .missing) unexcused where
  reads p a r := by
    simp only [run_consume, Maybe, Sql.Token, Sql.NoToken, reporting]
    cases lex (Sql.skip p.rest) <;> simp [Sql.Lexeme.stop, eq_comm]
  keeps p a p' h := by
    rw [run_consume] at h
    cases hlex : lex (Sql.skip p.rest) with
    | found b rest =>
      rw [hlex] at h
      cases h
      exact .inl rfl
    | missing =>
      rw [hlex] at h
      cases h
      exact .inl rfl
    | unterminated =>
      rw [hlex] at h
      cases h
      exact .inr ⟨rfl, by simp [reporting, hlex]⟩
    | malformed =>
      rw [hlex] at h
      cases h
      exact .inr ⟨rfl, by simp [reporting, hlex]⟩
  fails p e p' h := by
    rw [run_consume] at h
    cases hlex : lex (Sql.skip p.rest) <;> rw [hlex] at h <;> cases h

/-- A token that has to be there. -/
theorem plain_token (lex : Bytes → Sql.Lexeme α) (unterminated : String)
    (hwhat : ascii what ≠ []) :
    Plain reporting (orReject (consume lex unterminated) what) (Sql.Token lex) := by
  refine (plain_orReject (parses_consume lex unterminated) ?_ hwhat).congr ?_
  · rintro s a r ⟨h, -⟩
    cases h
  · intro s a r
    constructor
    · rintro (⟨b, h, htoken⟩ | ⟨h, -⟩)
      · cases h
        exact htoken
      · cases h
    · exact fun h => .inl ⟨a, rfl, h⟩

theorem plain_identifier (hwhat : ascii what ≠ []) :
    Plain reporting (orReject consumeIdentifier what) Sql.Identifier :=
  plain_token _ _ hwhat

theorem plain_firstKeyword (names : List (String × α)) :
    Plain reporting (firstKeyword names) (Sql.FirstOf Sql.keyword names) := by
  induction names with
  | nil => exact .done none
  | cons name rest ih => exact plain_if (tests_keyword name.1) (.done (some name.2)) ih

theorem plain_firstSymbol (names : List (String × α)) :
    Plain reporting (firstSymbol names) (Sql.FirstOf Sql.symbol names) := by
  induction names with
  | nil => exact .done none
  | cons name rest ih => exact plain_if (tests_symbol name.1) (.done (some name.2)) ih

/-! ## Blanks -/

/-- A rule that does not look at the blanks in front of the text. -/
def SkipsBlanks (R : Rule UInt8 α) : Prop := ∀ s a r, R (Sql.skip s) a r ↔ R s a r

theorem skipsBlanks_if_keyword (kw : String) (R S : Rule UInt8 α) :
    SkipsBlanks (Sql.IfRead (Sql.keyword kw) R S) := by
  intro s a r
  simp only [Sql.IfRead, Sql.keyword, Sql.skip_skip]

theorem skipsBlanks_if_symbol (sym : String) (R S : Rule UInt8 α) :
    SkipsBlanks (Sql.IfRead (Sql.symbol sym) R S) := by
  intro s a r
  simp only [Sql.IfRead, Sql.symbol, Sql.skip_skip]

/-- Blanks that are skipped in front of a rule that skips them itself. -/
theorem parses_skip (h : Parses reporting x R N F) (hR : SkipsBlanks R) :
    Parses reporting (skipWhitespaceAndComments >>= fun _ => x) R (fun s => N (Sql.skip s))
      (fun e s => F e (Sql.skip s)) where
  reads p a r := (h.reads { p with rest := Sql.skip p.rest } a r).trans (hR p.rest a r)
  keeps p a p' hrun := h.keeps { p with rest := Sql.skip p.rest } a p' hrun
  fails p e p' hrun := h.fails { p with rest := Sql.skip p.rest } e p' hrun

theorem plain_skip (h : Plain reporting x R) (hR : SkipsBlanks R) :
    Plain reporting (skipWhitespaceAndComments >>= fun _ => x) R :=
  parses_skip h hR

/-! ## Computations that never fail -/

/-- A result that is returned with an error. -/
theorem parses_complain {α : Type} (error : Bytes) (a : α) :
    Parses reporting (setError error >>= fun _ => pure a) (pure a) (pure a) unexcused where
  reads p b r := by
    constructor
    · rintro ⟨p', h, rfl⟩
      cases h
      exact ⟨rfl, rfl⟩
    · rintro ⟨rfl, rfl⟩
      exact ⟨_, rfl, rfl⟩
  keeps p b p' h := by
    cases h
    exact .inr ⟨rfl, rfl⟩
  fails p e p' h := by cases h

section Noisy

variable {α β : Type} {x y : Parser α} {f : α → Parser β} {R S : Rule UInt8 α} {T : α → Rule UInt8 β}
  {P : α → Prop} {Q : β → Prop} {token : Bytes → Option Bytes}

/-- The computation never fails, and leaves an error behind only together with certain results. -/
abbrev Noisy (x : Parser α) (R : Rule UInt8 α) (P : α → Prop) : Prop :=
  Parses reporting x R (fun _ a _ => P a) unexcused

theorem noisy_of_plain (h : Plain reporting x R) : Noisy x R P :=
  h.weaken (fun _ _ _ => Iff.rfl) (fun _ _ _ _ hnoise => hnoise.elim) fun _ _ h => h

theorem noisy_if {test : Parser Bool} (htest : Tests test token) (hx : Noisy x R P)
    (hy : Noisy y S P) :
    Noisy (test >>= fun b => if b = true then x else y) (Sql.IfRead token R S) P :=
  (parses_if htest hx hy).weaken (fun _ _ _ => Iff.rfl)
    (fun _ _ _ _ h => h.elim (fun ⟨_, _, h⟩ => h) fun ⟨_, h⟩ => h)
    (fun _ _ h => h.elim (fun ⟨_, _, h⟩ => h) fun ⟨_, h⟩ => h)

theorem noisy_skip (h : Noisy x R P) (hR : SkipsBlanks R) :
    Noisy (skipWhitespaceAndComments >>= fun _ => x) R P :=
  parses_skip h hR

theorem noisy_bind (hx : Noisy x R P) (hf : ∀ a, Noisy (f a) (T a) Q)
    (hnoise : ∀ {a m b r}, P a → T a m b r → Q b) : Noisy (x >>= f) (R >>= T) Q :=
  (hx.bind hf).weaken (fun _ _ _ => Iff.rfl)
    (fun _ _ _ _ ⟨_, _, _, hT, h⟩ => h.elim (fun hP => hnoise hP hT) id)
    (fun _ _ h => h.elim id fun ⟨_, _, _, h⟩ => h)

theorem noisy_complain (error : Bytes) {a : α} (ha : P a) :
    Noisy (setError error >>= fun _ => pure a) (pure a) P := by
  refine (parses_complain error a).weaken (fun _ _ _ => Iff.rfl) ?_ fun _ _ h => h
  rintro s b r - ⟨rfl, -⟩
  exact ha

/-- What is read without noise leaves the error text as it is. -/
theorem quiet_run {N : Rule UInt8 α} {F : SqlStop → Bytes → Prop} (hx : Parses reporting x R N F)
    {p : SqlParser} {a : α} {r : Bytes} (hR : R p.rest a r) (hN : ¬ N p.rest a r) :
    ∃ p', x.run p = .ok a p' ∧ p'.rest = r ∧ p'.error = p.error := by
  obtain ⟨p', hrun, hrest⟩ := hx.complete (s := p) hR
  refine ⟨p', hrun, hrest, (hx.keeps p a p' hrun).resolve_right ?_⟩
  exact hrest ▸ hN

end Noisy

end Sql.SqlParser

end OpenDB
